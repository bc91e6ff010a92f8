import ShapeCheck.Proofs.Descent

/-!
# Assignability as a greatest fixed point

A comparison takes the pairs it is in to hold, and forgets them when it leaves them. That an answer
is right therefore means something only relative to the pairs assumed meanwhile, and at the end,
when nothing is assumed, that the answer is that of the largest relation that the rules allow.

* `Assign.Closed` says that a relation on types holds only where one layer of the rules, asked with
  the relation itself, gives `true`; `Assign.Holds` is the largest such relation.
* `Assign.Backed` is what a comparison under assumptions shows, and `Assign.backed_of_decideAt` that
  it shows it.
* `Assign.holds_iff` says that the answer of a comparison is right in every later table.
-/

namespace ShapeCheck

variable {R : Table → Ty → Ty → Prop} {T T1 F T2 : Table} {a b s t : Ty} {d n : Nat}
  {A : List (Ty × Ty)}

namespace Assign

open Classical in
/-- A relation on the types of tables, as a table of answers. -/
noncomputable def truthOf (R : Table → Ty → Ty → Prop) (T : Table) (a b : Ty) : Bool :=
  decide (R T a b)

theorem truthOf_eq_true (h : R T a b) : truthOf R T a b = true := by
  simp [truthOf, h]

theorem truthOf_eq_false (h : ¬R T a b) : truthOf R T a b = false := by
  simp [truthOf, h]

/-- The answers that a relation on the types of tables gives. -/
noncomputable def asking (R : Table → Ty → Ty → Prop) : Compare :=
  fun a b => do return truthOf R (← get) a b

/-- One layer of the rules, with every recursive comparison replaced by the relation and nothing
assumed, gives `true`. -/
def Unfolds (R : Table → Ty → Ty → Prop) (T : Table) (s t : Ty) : Prop :=
  ∃ n T1, ∀ m, n ≤ m → step false (asking R) (asking R) s t m T = some (true, T1)

/-- The relation holds only where the rules confirm it. -/
def Closed (R : Table → Ty → Ty → Prop) : Prop :=
  ∀ T s t, T.Sound → T.Has s → T.Has t → R T s t → Unfolds R T s t

/-- The largest relation that the rules confirm. -/
def Holds (T : Table) (s t : Ty) : Prop := ∃ R, Closed R ∧ R T s t

theorem holds_refl (T : Table) (t : Ty) : Holds T t t := by
  refine ⟨fun _ a b => a = b, fun T a b _ _ _ hab => ⟨0, T, fun m _ => ?_⟩, rfl⟩
  subst hab
  simp only [step, byIdentity, if_true]
  rfl

section Assumptions

/-- One layer of the rules gives `true` in every later table, as long as the answers agree with the
relation and the assumptions. -/
def Layered (A : List (Ty × Ty)) (F : Table) (S : Ty → Ty → Prop) (s t : Ty) : Prop :=
  ∀ T, T.Sound → F ≤ T → ∀ ans : Table → Ty → Ty → Bool,
    (∀ T' a b, F ≤ T' → S a b ∨ (a, b) ∈ A → ans T' a b = true) →
    Gives T (step false (answering ans false) (answering ans true) s t) (· = true)

/-- The pair belongs to a relation that is confirmed in every later table, relative to the
assumptions. -/
def Backed (A : List (Ty × Ty)) (F : Table) (s t : Ty) : Prop :=
  ∃ S : Ty → Ty → Prop, S s t ∧ ∀ a b, S a b → Layered A F S a b

theorem Layered.mono {A' : List (Ty × Ty)} {S S' : Ty → Ty → Prop}
    (h : Layered A F S s t) (hsub : ∀ a b, S a b ∨ (a, b) ∈ A → S' a b ∨ (a, b) ∈ A') :
    Layered A' F S' s t :=
  fun T hT hF ans hans => h T hT hF ans fun T' a b hT' hab => hans T' a b hT' (hsub a b hab)

/-- More may be assumed. -/
theorem Backed.assume (h : Backed A F s t) (p : Ty × Ty) : Backed (p :: A) F s t := by
  obtain ⟨S, hS, hlayered⟩ := h
  refine ⟨S, hS, fun a b hab => (hlayered a b hab).mono fun a b hor => ?_⟩
  exact hor.imp_right (List.mem_cons_of_mem p)

/-- **An assumption is discharged** by the pair itself: what is backed under it belongs with the
pair to one relation. -/
theorem Backed.discharge
    (h : Layered A F (fun a b => (a, b) = (s, t) ∨ Backed ((s, t) :: A) F a b) s t) :
    Backed A F s t := by
  refine ⟨fun a b => (a, b) = (s, t) ∨ Backed ((s, t) :: A) F a b, .inl rfl, fun a b hab => ?_⟩
  rcases hab with hab | ⟨S, hS, hlayered⟩
  · obtain ⟨rfl, rfl⟩ := Prod.mk.inj hab
    exact h
  · refine (hlayered a b hS).mono fun p q hor => ?_
    rcases hor with hpq | hpq
    · exact .inl (.inr ⟨S, hpq, hlayered⟩)
    · rcases List.mem_cons.mp hpq with hpq | hpq
      · exact .inl (.inl hpq)
      · exact .inr hpq

end Assumptions

/-- The questions of one layer of a decision. -/
def layerAnswers (d : Nat) (A : List (Ty × Ty)) (s t : Ty) : Answers :=
  fun inner => decideAt d (if inner then (s, t) :: A else A)

/-- **The answer `true`** is backed by the assumptions, unless it was assumed. -/
theorem backed_of_decideAt (hT : T.Sound) (hs : T.Has s) (ht : T.Has t)
    (hrun : decideAt d A s t n T = some (true, T1)) (hF : T1 ≤ F) :
    (s, t) ∈ A ∨ Backed A F s t := by
  induction d generalizing A T T1 s t n with
  | zero => exact absurd hrun (by simp [decideAt, Typing.outOfSteps])
  | succ d ih =>
    by_cases hA : (s, t) ∈ A
    · exact .inl hA
    refine .inr (.discharge ?_)
    have hcontains : A.contains (s, t) = false := by simpa using hA
    have hstep : step false (layerAnswers d A s t false) (layerAnswers d A s t true) s t n T =
        some (true, T1) := by
      unfold decideAt at hrun
      rw [hcontains] at hrun
      exact hrun
    intro T2 hT2 h2 ans hans
    have hrule := rule_step_all (K := .lasting) (fun T u => works_resolve) false hT hs ht
    refine (hrule.follows (c := layerAnswers d A s t) (w := true) hT ?_ ?_ hstep hF hT2 h2).imp
      fun b hb => hb rfl
    · intro inner a b T' hT' _ hask
      obtain ⟨ha, hb, -⟩ := hask.all
      exact runs_decideAt (fun T u => works_resolve) (Nat.le_refl d) _ hT' ha hb
    · intro inner a b T' m T'' hT' _ hasks hask hT'' T3 hT3 h3
      obtain ⟨ha, hb, -⟩ := hasks.all
      apply hans T3 a b h3
      cases inner with
      | true =>
        rcases ih hT' ha hb hask hT'' with hmem | hbacked
        · rcases List.mem_cons.mp hmem with heq | hmem
          · exact .inl (.inl heq)
          · exact .inr hmem
        · exact .inl (.inr hbacked)
      | false =>
        rcases ih hT' ha hb hask hT'' with hmem | hbacked
        · exact .inr hmem
        · exact .inl (.inr (hbacked.assume (s, t)))

section Refutation

variable {c inner : Compare}

theorem stepResolved_of_false (h : stepResolved true c inner s t n T = some (false, T1)) :
    stepResolved false c inner s t n T = some (false, T1) := by
  unfold stepResolved at h ⊢
  rw [Typing.get_bind] at h ⊢
  revert h
  cases toEnum T s t with
  | some verdict => exact id
  | none =>
    cases T.shape t with
    | union ms => exact id
    | intersection ms => exact id
    | _ =>
      cases byAtom T s t with
      | some verdict => cases T.shape s <;> exact id
      | none =>
        -- only a structural comparison looks at the assumption, and it fails without
        cases T.shape s <;> first
          | exact id
          | (intro h
             injection h with h
             exact absurd (congrArg Prod.fst h) (by simp))

/-- A pair that fails although it is assumed fails without the assumption in the same way. -/
theorem step_of_false {assumed : Bool} (h : step assumed c inner s t n T = some (false, T1)) :
    step false c inner s t n T = some (false, T1) := by
  cases assumed with
  | false => exact h
  | true =>
    have hno : ∀ {x y : Typing Bool}, (if true = true then return true else x : Typing Bool) n T =
        some (false, T1) → y n T = some (false, T1) := by
      intro x y h
      injection h with h
      exact absurd (congrArg Prod.fst h) (by simp)
    unfold step at h ⊢
    revert h
    cases byIdentity s t with
    | some verdict => exact id
    | none =>
      dsimp only
      rw [Typing.get_bind, Typing.get_bind]
      cases hs : T.shape s with
      | reference name arguments => exact hno
      | union ms =>
        cases T.shape t with
        | reference name arguments => exact hno
        | _ => exact id
      | intersection ms =>
        have hresolved : (do
            let resolved ← s.resolve
            if resolved = s then stepResolved true c inner s t
            else if true = true then return true else inner resolved t : Typing Bool) n T =
              some (false, T1) →
            (do
            let resolved ← s.resolve
            if resolved = s then stepResolved false c inner s t
            else if false = true then return true else inner resolved t : Typing Bool) n T =
              some (false, T1) := by
          intro h
          obtain ⟨r, T', hr, h⟩ := Typing.bind_some h
          rw [Typing.bind_of_some hr]
          by_cases heq : r = s
          · rw [if_pos heq] at h ⊢
            exact stepResolved_of_false h
          · rw [if_neg heq] at h
            injection h with h
            exact absurd (congrArg Prod.fst h) (by simp)
        cases T.shape t with
        | reference name arguments => exact hno
        | _ => exact hresolved
      | _ =>
        cases T.shape t with
        | reference name arguments => exact hno
        | _ => exact stepResolved_of_false

end Refutation

/-- **The answer `false`** refutes every relation that the rules confirm. -/
theorem not_closed_of_decideAt (hT : T.Sound) (hs : T.Has s) (ht : T.Has t)
    (hrun : decideAt d A s t n T = some (false, T1)) (hF : T1 ≤ F) (hR : Closed R)
    (hT2 : T2.Sound) (h2 : F ≤ T2) :
    ¬R T2 s t := by
  induction d generalizing A T T1 T2 s t n with
  | zero => exact absurd hrun (by simp [decideAt, Typing.outOfSteps])
  | succ d ih =>
    intro hholds
    obtain ⟨hat, -⟩ := runs_decideAt (K := .lasting) (fun T u => works_resolve) (Nat.le_refl _) A hT
      hs ht n false T1 hrun
    have hle := hat.grows.le.trans (hF.trans h2)
    obtain ⟨m, T3, htrue⟩ := hR T2 s t hT2 (Table.has_of_le hle hs) (Table.has_of_le hle ht) hholds
    have hstep : step false (layerAnswers d A s t false) (layerAnswers d A s t true) s t n T =
        some (false, T1) := step_of_false hrun
    have hrule := rule_step_all (K := .lasting) (fun T u => works_resolve) false hT hs ht
    obtain ⟨b, T4, -, -, hb, m', hfalse⟩ := hrule.follows
      (c := layerAnswers d A s t) (w := false) hT
      (by
        intro inner a b T' hT' _ hask
        obtain ⟨ha, hb, -⟩ := hask.all
        exact runs_decideAt (fun T u => works_resolve) (Nat.le_refl d) _ hT' ha hb)
      (by
        intro inner a b T' k T'' hT' _ hasks hask hT'' T3 hT3 h3
        obtain ⟨ha, hb, -⟩ := hasks.all
        exact truthOf_eq_false (ih hT' ha hb hask hT'' hT3 h3))
      hstep hF hT2 h2
    have heq := (htrue (max m m') (by omega)).symm.trans (hfalse (max m m') (by omega))
    obtain ⟨rfl, -⟩ := Prod.mk.inj (Option.some.inj heq)
    exact absurd (hb rfl) (by simp)

/-- **The answer of a comparison is right** in every later table. -/
theorem holds_iff {b : Bool} (hT : T.Sound) (hs : T.Has s)
    (ht : T.Has t) (hrun : decideAt d [] s t n T = some (b, T1)) (hT2 : T2.Sound)
    (h2 : T1 ≤ T2) : b = true ↔ Holds T2 s t := by
  cases b with
  | false =>
    refine ⟨fun h => absurd h (by simp), ?_⟩
    rintro ⟨R, hR, hholds⟩
    exact absurd hholds (not_closed_of_decideAt hT hs ht hrun (le_refl T1) hR hT2 h2)
  | true =>
    refine ⟨fun _ => ?_, fun _ => rfl⟩
    rcases backed_of_decideAt hT hs ht hrun (le_refl T1) with hmem | ⟨S, hS, hlayered⟩
    · exact absurd hmem (by simp)
    · refine ⟨fun T a b => T1 ≤ T ∧ S a b, ?_, h2, hS⟩
      intro T a b hT _ _ ⟨hle, hab⟩
      obtain ⟨_, T', -, -, rfl, n, hn⟩ := hlayered a b hab T hT hle
        (truthOf fun T a b => T1 ≤ T ∧ S a b) (by
          intro T' p q hle hpq
          exact truthOf_eq_true ⟨hle, hpq.resolve_right (by simp)⟩)
      exact ⟨n, T', hn⟩

end Assign

end ShapeCheck
