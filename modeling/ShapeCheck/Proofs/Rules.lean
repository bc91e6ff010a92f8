import ShapeCheck.Proofs.ResolutionEnds
import ShapeCheck.Ty.Assignable

/-!
# Rules of a comparison

The rules of a comparison decide about a pair of types from the answers about other pairs, which
they ask for one after the other. They stop early, make types, and resolve types as they go, but
they use the answers only in a monotone way: another answer `true` never turns the result to
`false`.

* `Assign.Answers` are the answers that a rule asks for, `Assign.Rule` says what a rule is.
* `Assign.Rule.runs` compares two runs of a rule in one table, with answers that are found in
  different ways.
* `Assign.Rule.ends` says that a rule has a result when every question has an answer.
* `Assign.Rule.follows` compares a run of a rule with one in a later table, with other answers.
-/

namespace ShapeCheck

variable {α : Type} {P P' : Bool → Prop} {b : Bool} {T1 : Table} {n : Nat}

namespace Assign

/-- The answers about pairs: under the assumptions made so far, or with the pair that is being
compared among them. -/
abbrev Answers := Bool → Compare

/-- Work on a table of the regime that asks only for answers about the given pairs, and that uses
them in a monotone way. -/
inductive Rule (K : Regime) (Q : Bool → Table → Ty → Ty → Prop) :
    Table → (Answers → Typing Bool) → Prop
  | verdict {T : Table} (b : Bool) : Rule K Q T fun _ => return b
  | ask {T : Table} {inner : Bool} {a b : Ty} (h : Q inner T a b) : Rule K Q T fun c => c inner a b
  /-- The second part is tried unless the first gives the result at which to stop. -/
  | next {T : Table} {x y : Answers → Typing Bool} (stop : Bool) (hx : Rule K Q T x)
    (hy : ∀ T1, K.ok T1 → K.Reach T T1 → Rule K Q T1 y) :
    Rule K Q T fun c => x c >>= fun b => if b = stop then return b else y c
  /-- The table is looked at, but only at what no later table changes. -/
  | look {T : Table} {f : Table → Answers → Typing Bool} (hsame : ∀ T2, T ≤ T2 → f T2 = f T)
    (h : Rule K Q T (f T)) : Rule K Q T fun c => get >>= fun table => f table c
  | work {T : Table} {α : Type} {x : Typing α} {V : Table → α → Prop}
    {f : α → Answers → Typing Bool} (hx : Typing.Works K T x V)
    (hf : ∀ a T1, K.ok T1 → K.Reach T T1 → V T1 a → Rule K Q T1 (f a)) :
    Rule K Q T fun c => x >>= fun a => f a c

variable {K : Regime} {Q : Bool → Table → Ty → Ty → Prop} {T : Table}

theorem Rule.both {x y : Answers → Typing Bool} (hx : Rule K Q T x)
    (hy : ∀ T1, K.ok T1 → K.Reach T T1 → Rule K Q T1 y) :
    Rule K Q T fun c => (do if ← x c then y c else return false) := by
  have heq : (fun c => (do if ← x c then y c else return false : Typing Bool)) =
      fun c => x c >>= fun b => if b = false then return b else y c := by
    funext c
    congr 1
    funext b
    cases b <;> rfl
  rw [heq]
  exact .next false hx hy

theorem Rule.either {x y : Answers → Typing Bool} (hx : Rule K Q T x)
    (hy : ∀ T1, K.ok T1 → K.Reach T T1 → Rule K Q T1 y) :
    Rule K Q T fun c => (do if ← x c then return true else y c) := by
  have heq : (fun c => (do if ← x c then return true else y c : Typing Bool)) =
      fun c => x c >>= fun b => if b = true then return b else y c := by
    funext c
    congr 1
    funext b
    cases b <;> rfl
  rw [heq]
  exact .next true hx hy

theorem Rule.all (test : α → Answers → Typing Bool) (hT : K.ok T) (xs : List α)
    (h : ∀ a ∈ xs, ∀ T1, K.ok T1 → K.Reach T T1 → Rule K Q T1 (test a)) :
    Rule K Q T fun c => Assign.all (fun a => test a c) xs := by
  induction xs generalizing T with
  | nil => exact .verdict true
  | cons a rest ih =>
    refine .both (h a (by simp) T hT (.refl K T)) fun T1 hT1 h1 => ih hT1 fun b hb T2 hT2 h2 => ?_
    exact h b (List.mem_cons_of_mem _ hb) T2 hT2 (h1.trans h2)

theorem Rule.any (test : α → Answers → Typing Bool) (hT : K.ok T) (xs : List α)
    (h : ∀ a ∈ xs, ∀ T1, K.ok T1 → K.Reach T T1 → Rule K Q T1 (test a)) :
    Rule K Q T fun c => Assign.any (fun a => test a c) xs := by
  induction xs generalizing T with
  | nil => exact .verdict false
  | cons a rest ih =>
    refine .either (h a (by simp) T hT (.refl K T)) fun T1 hT1 h1 => ih hT1 fun b hb T2 hT2 h2 => ?_
    exact h b (List.mem_cons_of_mem _ hb) T2 hT2 (h1.trans h2)

/-- **Two runs of a rule in one table.** If the answers of the first run are given in the second one
too, so is the result. -/
theorem Rule.runs {x : Answers → Typing Bool} (h : Rule K Q T x) (hT : K.ok T) (c c' : Answers)
    (hc : ∀ inner a b T1, K.ok T1 → K.grows T T1 → Q inner T1 a b →
      Typing.Runs K T1 (c inner a b) (c' inner a b) fun _ _ => True) :
    Typing.Runs K T (x c) (x c') fun _ _ => True := by
  induction h with
  | verdict b => exact Typing.runs_pure hT trivial
  | ask h => exact hc _ _ _ _ hT (K.refl _) h
  | next stop hx hy ihx ihy =>
    refine (ihx hT hc).bind fun b T1 hT1 h1 _ => ?_
    by_cases hb : b = stop
    · rw [if_pos hb, if_pos hb]
      exact Typing.runs_pure hT1 trivial
    · rw [if_neg hb, if_neg hb]
      refine ihy T1 hT1 (.inl h1) hT1 fun inner a b T2 hT2 h2 => ?_
      exact hc inner a b T2 hT2 (K.trans h1 h2)
  | look hsame h ih =>
    refine Typing.runs_get_bind (fun T2 h2 => ?_) (ih hT hc)
    rw [hsame T2 (K.later_le h2)]
  | work hx hf ih =>
    refine hx.runs.bind fun a T1 hT1 h1 ha => ?_
    refine ih a T1 hT1 (.inl h1) ha hT1 fun inner a b T2 hT2 h2 => ?_
    exact hc inner a b T2 hT2 (K.trans h1 h2)

/-- Answers that are given at once, from what is known of the table. -/
def answering (ans : Table → Ty → Ty → Bool) : Answers := fun _ a b => do return ans (← get) a b

/-- Work that gives a result from the given table on, with what is said of the result. -/
def Gives (T : Table) (x : Typing Bool) (P : Bool → Prop) : Prop :=
  ∃ b T1, T1.Sound ∧ T.Adds T1 ∧ P b ∧ ∃ n, ∀ m, n ≤ m → x m T = some (b, T1)

theorem gives_pure (hT : T.Sound) (hb : P b) : Gives T (return b) P :=
  ⟨b, T, hT, .refl T, hb, 0, fun _ _ => rfl⟩

theorem Gives.bind {x : Typing Bool} {f : Bool → Typing Bool}
    (hx : Gives T x P) (hf : ∀ b T1, T1.Sound → T.Adds T1 → P b → Gives T1 (f b) P') :
    Gives T (x >>= f) P' := by
  obtain ⟨b, T1, hT1, h1, hb, n, hn⟩ := hx
  obtain ⟨b', T2, hT2, h2, hb', n', hn'⟩ := hf b T1 hT1 h1 hb
  refine ⟨b', T2, hT2, h1.trans h2, hb', max n n', fun m hm => ?_⟩
  exact (Typing.bind_of_some (hn m (by omega))).trans (hn' m (by omega))

theorem Gives.imp {x : Typing Bool} (hx : Gives T x P) (himp : ∀ b, P b → P' b) : Gives T x P' := by
  obtain ⟨b, T1, hT1, h1, hb, hn⟩ := hx
  exact ⟨b, T1, hT1, h1, himp b hb, hn⟩

/-- Work that has a result, before work that gives one. -/
theorem gives_bind {x : Typing α} {f : α → Typing Bool} {a : α} (h1 : T.Adds T1)
    (hn : ∀ m, n ≤ m → x m T = some (a, T1))
    (hf : Gives T1 (f a) P) : Gives T (x >>= f) P := by
  obtain ⟨b, T2, hT2, h2, hb, n', hn'⟩ := hf
  refine ⟨b, T2, hT2, h1.trans h2, hb, max n n', fun m hm => ?_⟩
  exact (Typing.bind_of_some (hn m (by omega))).trans (hn' m (by omega))

/-- **A rule ends** when every question has an answer. -/
theorem Rule.ends {x : Answers → Typing Bool} (h : Rule .lasting Q T x) (hT : T.Sound)
    (ans : Table → Ty → Ty → Bool) : Gives T (x (answering ans)) fun _ => True := by
  induction h with
  | verdict b => exact gives_pure hT trivial
  | @ask T _ a b h => exact ⟨ans T a b, T, hT, .refl T, trivial, 0, fun _ _ => rfl⟩
  | next stop hx hy ihx ihy =>
    refine (ihx hT).bind fun b T1 hT1 h1 _ => ?_
    by_cases hb : b = stop
    · rw [if_pos hb]
      exact gives_pure hT1 trivial
    · rw [if_neg hb]
      exact ihy T1 hT1 (.inl h1) hT1
  | look hsame h ih => exact ih hT
  | work hx hf ih =>
    obtain ⟨n, ⟨a, T1⟩, hn⟩ := hx.ends trivial
    obtain ⟨hat, ha⟩ := hx.runs n a T1 (hn n (Nat.le_refl n))
    exact gives_bind hat.grows hn (ih a T1 hat.ok (.inl hat.grows) ha hat.ok)

/-- **A run followed in a later table.** The answers there may differ from those of the run, but not
where the run had the answer `w`. Then the result is `w` if the run's was. -/
theorem Rule.follows {x : Answers → Typing Bool} (h : Rule .lasting Q T x) (hT : T.Sound)
    {c : Answers} {ans : Table → Ty → Ty → Bool} {w : Bool} {F : Table}
    (hruns : ∀ inner a b T1, T1.Sound → T ≤ T1 → Q inner T1 a b →
      Typing.Runs .lasting T1 (c inner a b) (c inner a b) fun _ _ => True)
    (hc : ∀ inner a b T1 n T2, T1.Sound → T ≤ T1 → Q inner T1 a b →
      c inner a b n T1 = some (w, T2) → T2 ≤ F → ∀ T3, T3.Sound → F ≤ T3 → ans T3 a b = w)
      (hrun : x c n T = some (b, T1)) (hF : T1 ≤ F) {T2 : Table}
    (hT2 : T2.Sound) (h2 : F ≤ T2) : Gives T2 (x (answering ans)) fun b' => b = w → b' = w := by
  have hgrows : ∀ {x : Answers → Typing Bool} {T T1 : Table} {n : Nat} {b : Bool},
      Rule .lasting Q T x → T.Sound → x c n T = some (b, T1) →
      (∀ inner a b T1, T1.Sound → T ≤ T1 → Q inner T1 a b →
        Typing.Runs .lasting T1 (c inner a b) (c inner a b) fun _ _ => True) →
      T1.Sound ∧ T ≤ T1 := by
    intro x T T1 n b h hT hrun hruns
    obtain ⟨hat, -⟩ := h.runs hT c c (fun inner a b T1 hT1 h1 => hruns inner a b T1 hT1 h1.le)
      n b T1 hrun
    exact ⟨hat.ok, hat.grows.le⟩
  induction h generalizing n b T1 T2 with
  | verdict b' =>
    obtain ⟨rfl, rfl⟩ := Prod.mk.inj (Option.some.inj hrun)
    exact gives_pure hT2 id
  | @ask T inner a b' hq =>
    refine ⟨ans T2 a b', T2, hT2, .refl T2, ?_, 0, fun _ _ => rfl⟩
    rintro rfl
    exact hc inner a b' T n T1 hT (le_refl T) hq hrun hF T2 hT2 h2
  | @next T x y stop hx hy ihx ihy =>
    obtain ⟨b1, T', hfirst, hrest⟩ := Typing.bind_some hrun
    obtain ⟨hT', h'⟩ := hgrows hx hT hfirst hruns
    by_cases hstop : b1 = stop
    · rw [if_pos hstop] at hrest
      obtain ⟨rfl, rfl⟩ := Prod.mk.inj (Option.some.inj hrest)
      refine (ihx hT hruns hc hfirst hF hT2 h2).bind fun b2 T3 hT3 h3 hb2 => ?_
      by_cases hstop2 : b2 = stop
      · rw [if_pos hstop2]
        exact gives_pure hT3 hb2
      · -- the run stopped here, and its result was not `w`
        rw [if_neg hstop2]
        have h03 := h'.trans (hF.trans (h2.trans h3.le))
        obtain ⟨b3, T4, hT4, h4, -, hn⟩ := (hy T3 hT3 (.inr h03)).ends hT3 ans
        refine ⟨b3, T4, hT4, h4, fun hw => absurd ((hb2 hw).trans hw.symm) ?_, hn⟩
        rw [hstop]
        exact hstop2
    · rw [if_neg hstop] at hrest
      have hruns' := fun inner a b T1 hT1 h1 => hruns inner a b T1 hT1 (h'.trans h1)
      have hc' := fun inner a b T1 n T2 hT1 h1 => hc inner a b T1 n T2 hT1 (h'.trans h1)
      have hT1 := hgrows (hy T' hT' (.inr h')) hT' hrest hruns'
      refine (ihx hT hruns hc hfirst (hT1.2.trans hF) hT2 h2).bind fun b2 T3 hT3 h3 hb2 => ?_
      by_cases hstop2 : b2 = stop
      · -- here the answers are on the side of `w`, or they would have been the run's
        rw [if_pos hstop2]
        refine gives_pure hT3 fun _ => ?_
        by_contra hne
        have hw : b1 = w := by
          rw [Bool.eq_not_of_ne hstop, Bool.eq_not_of_ne (Ne.symm hne), hstop2]
        exact hne (hb2 hw)
      · rw [if_neg hstop2]
        exact ihy T' hT' (.inr h') hT' hruns' hc' hrest hF hT3 (h2.trans h3.le)
  | @look T f hsame h ih =>
    have h02 : T ≤ T2 := (hgrows h hT hrun hruns).2.trans (hF.trans h2)
    have hlater := ih hT hruns hc hrun hF hT2 h2
    rw [← hsame T2 h02] at hlater
    exact hlater
  | @work T α x V f hx hf ih =>
    obtain ⟨a, T', hfirst, hrest⟩ := Typing.bind_some hrun
    obtain ⟨hat, ha⟩ := hx.runs n a T' hfirst
    have h' := hat.grows.le
    have hruns' := fun inner a b T1 hT1 h1 => hruns inner a b T1 hT1 (h'.trans h1)
    have hc' := fun inner a b T1 n T2 hT1 h1 => hc inner a b T1 n T2 hT1 (h'.trans h1)
    have hT1 := hgrows (hf a T' hat.ok (.inr h') ha) hat.ok hrest hruns'
    refine gives_bind (.refl T2) (fun m hm => hat.again m hm T2 (hT1.2.trans (hF.trans h2))) ?_
    exact ih a T' hat.ok (.inr h') ha hat.ok hruns' hc' hrest hF hT2 h2

end Assign

end ShapeCheck
