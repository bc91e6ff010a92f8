import ShapeCheck.Proofs.Transitivity

/-!
# What fits from some table on

A comparison that is answered `true` does more than to say so: it leaves a relation behind that the
rules confirm in every later table. To show that further pairs fit, they are put into a relation of
their own, each of whose pairs the rules confirm by pairs of it and by those that are left behind.

* `Assign.Lasts` says that a pair of types fits from some table on, `Table.Resolved.lasts` that it
  does if a table keeps the answer `true`.
* `Assign.holds_of_upTo` is how further pairs are shown to fit.
-/

namespace ShapeCheck

namespace Assign

variable {T T1 T2 : Table} {a b : Ty}

/-- The pair belongs to a relation that is confirmed in every table from an earlier one on. -/
def Lasts (T : Table) (a b : Ty) : Prop := ∃ F, F ≤ T ∧ Backed [] F a b

theorem Lasts.of_le (h : Lasts T a b) (hle : T ≤ T1) : Lasts T1 a b := by
  obtain ⟨F, hF, hbacked⟩ := h
  exact ⟨F, hF.trans hle, hbacked⟩

theorem lasts_self (T : Table) (t : Ty) : Lasts T t t := by
  refine ⟨T, le_refl T, Eq, rfl, ?_⟩
  rintro a - rfl T' hT' - ans -
  simp only [step, byIdentity, if_true]
  exact gives_pure hT' rfl

/-- One layer of the rules confirms what lasts. -/
theorem Lasts.unfolds {R : Table → Ty → Ty → Prop} (h : Lasts T a b) (hT : T.Sound)
    (hR : ∀ T a b, Lasts T a b → R T a b) : Unfolds R T a b := by
  obtain ⟨F, hF, S, hS, hlayered⟩ := h
  obtain ⟨_, T1, -, -, rfl, n, hn⟩ := hlayered a b hS T hT hF (truthOf R) fun T' p q hle hpq =>
    truthOf_eq_true (hR T' p q ⟨F, hle, S, hpq.resolve_right (by simp), hlayered⟩)
  exact ⟨n, T1, hn⟩

theorem lasts_of_decideAt {d n : Nat} (hT : T.Sound) (ha : T.Has a) (hb : T.Has b)
    (hrun : decideAt d [] a b n T = some (true, T1)) : Lasts T1 a b :=
  ⟨T1, le_refl T1, (backed_of_decideAt hT ha hb hrun (le_refl T1)).resolve_left (by simp)⟩

end Assign

namespace Table

variable {T T1 : Table}

/-- A pair that is answered `true` fits from then on, if the pairs do that have this answer
already. -/
theorem Truthful.lasts_asked (h : T.Truthful)
    (hlasts : ∀ s t, T.verdicts.lookup (s, t) = some true → Assign.Lasts T s t) {s t : Ty}
    (hs : T.Has s) (ht : T.Has t) {n : Nat} {b : Bool}
    (hrun : s.isAssignableTo t n T = some (b, T1)) :
    (b = true → Assign.Lasts T1 s t) ∧
      ∀ p q, T1.verdicts.lookup (p, q) = some true → Assign.Lasts T1 p q := by
  rcases asked_cases hrun with ⟨rfl, hknown⟩ | ⟨T', hdecide, hkept⟩
  · refine ⟨?_, hlasts⟩
    rintro rfl
    rcases hknown with ⟨rfl, -⟩ | hlook
    · exact Assign.lasts_self _ s
    · exact hlasts s t hlook
  · obtain ⟨hat, -⟩ := Assign.runs_decideAt (K := .lasting) (fun T u => Assign.works_resolve)
      (Nat.le_refl n) [] h.sound hs ht n b T' hdecide
    obtain rfl := hkept hat.grows.le.frozen.symm
    have hle := le_keeping s t b T'
    have hnew : b = true → Assign.Lasts (T'.keeping s t b) s t := by
      rintro rfl
      exact (Assign.lasts_of_decideAt h.sound hs ht hdecide).of_le hle
    refine ⟨hnew, fun p q hpq => ?_⟩
    rcases lookup_keeping_cases s t b hpq with hold | ⟨rfl, rfl, hb⟩
    · rw [hat.grows.verdicts] at hold
      exact (hlasts p q hold).of_le (hat.grows.le.trans hle)
    · exact hnew hb.symm

/-- **What a table keeps as fitting lasts.** -/
theorem Resolved.lasts (h : T.Resolved) (s t : Ty) (hkept : T.verdicts.lookup (s, t) = some true) :
    Assign.Lasts T s t := by
  have hnone {U : Table} (hU : U.Resolved) (hopen : U.frozen = false) {p : Ty × Ty} :
      U.verdicts.lookup p ≠ some true := by
    rw [hU.truthful.unasked hopen]
    simp
  induction h generalizing s t with
  | start hprep hrun =>
    obtain ⟨-, hevolves⟩ := Alias.resolveAll_sound hprep.ready.wellFormed hrun
    rw [hevolves.verdicts, hprep.ready.unasked] at hkept
    cases hkept
  | @call T T1 hT hcall ih =>
    obtain ⟨hsucceeds, -⟩ := hT.truthful.called hcall
    have hsame (hverdicts : T1.verdicts = T.verdicts) : Assign.Lasts T1 s t :=
      (ih s t (hverdicts ▸ hkept)).of_le hsucceeds.le
    cases hcall with
    | construct c hin hfits =>
      obtain ⟨t', T', hrun, -, hadds, -, -⟩ :=
        Construction.run_spec hT.truthful.sound.wellFormed hin hfits
      exact hsame (by rw [hrun, hadds.verdicts])
    | declare info hbound hdefault => exact hsame rfl
    | resolve ht hrun =>
      obtain ⟨hat, -⟩ := Ty.lasting_resolve hT.truthful.sound ht _ _ _ hrun
      exact hsame hat.grows.verdicts
    | assignable hp hq hrun => exact (hT.truthful.lasts_asked ih hp hq hrun).2 s t hkept
  | @rebind T T1 hT hopen hbind ih =>
    obtain ⟨-, -, -, hverdicts⟩ := hbind.spec hT.truthful.sound.wellFormed
    exact absurd (hverdicts ▸ hkept) (hnone hT hopen)
  | @freeze T hT ih =>
    cases hfrozen : T.frozen with
    | true =>
      have hsame : (Alias.freeze T).2 = T := by
        change { T with frozen := true } = T
        rw [← hfrozen]
      rw [hsame] at hkept ⊢
      exact ih s t hkept
    | false => exact absurd hkept (hnone hT hfrozen)

end Table

namespace Assign

/-- The pairs of a relation, and those that fit from some table on. -/
def UpTo (R : Table → Ty → Ty → Prop) (T : Table) (a b : Ty) : Prop := R T a b ∨ Lasts T a b

variable {R : Table → Ty → Ty → Prop} {T : Table} {a b : Ty}

theorem Lasts.upTo (h : Lasts T a b) : UpTo R T a b := .inr h

/-- **Pairs fit that the rules confirm by each other** and by what is known to fit. -/
theorem holds_of_upTo
    (hclosed : ∀ T a b, T.Sound → T.Has a → T.Has b → R T a b → Unfolds (UpTo R) T a b)
    (hab : R T a b) : Holds T a b := by
  refine ⟨UpTo R, fun T a b hT ha hb h => ?_, .inl hab⟩
  rcases h with h | h
  · exact hclosed T a b hT ha hb h
  · exact h.unfolds hT fun _ _ _ => Lasts.upTo

theorem Lasts.holds (h : Lasts T a b) : Holds T a b :=
  ⟨Lasts, fun _ _ _ hT _ _ h => h.unfolds hT fun _ _ _ => id, h⟩

/-- What fits by identity, or because one of the types fits everything, always does. -/
theorem lasts_of_byIdentity (h : byIdentity a b = some true) (T : Table) : Lasts T a b := by
  refine ⟨T, le_refl T, fun p q => byIdentity p q = some true, h, ?_⟩
  intro p q hpq T' hT' _ ans _
  simp only [step, hpq]
  exact gives_pure hT' rfl

end Assign

namespace Table

variable {T T1 : Table} {s t : Ty}

/-- The second type accepts the first: the rules confirm the pair, every answer is `true`, and there
is one if the bounds of type parameters end and the comparison meets finitely many pairs. -/
structure Accepts (T : Table) (s t : Ty) : Prop where
  holds : Assign.Holds T s t
  answered : ∀ n b T1, s.isAssignableTo t n T = some (b, T1) → b = true
  ends : T.Grounded → Assign.MeetsFinitely T s t →
    ∃ n T1, ∀ m, n ≤ m → s.isAssignableTo t m T = some (true, T1)

/-- A pair that is answered `true` fits from then on. -/
theorem Resolved.lasts_of_true (h : T.Resolved) (hs : T.Has s) (ht : T.Has t) {n : Nat}
    (hrun : s.isAssignableTo t n T = some (true, T1)) : Assign.Lasts T1 s t :=
  (h.truthful.lasts_asked h.lasts hs ht hrun).1 rfl

/-- The answer to a question is `true` if and only if the pair fits, now or later. -/
theorem Resolved.asked_iff (h : T.Resolved) (hs : T.Has s) (ht : T.Has t) {n : Nat} {b : Bool}
    (hrun : s.isAssignableTo t n T = some (b, T1)) {U : Table} (hU : U.Sound) (hle : T1 ≤ U) :
    b = true ↔ Assign.Lasts U s t := by
  constructor
  · rintro rfl
    exact (h.lasts_of_true hs ht hrun).of_le hle
  · intro hlasts
    obtain ⟨-, hsettles⟩ := h.truthful.asked hs ht hrun
    exact (hsettles.answered U hU hle).mpr hlasts.holds

/-- A pair that the rules confirm from some table on is accepted. -/
theorem Resolved.accepts (h : T.Resolved) (hs : T.Has s) (ht : T.Has t)
    (hholds : ∀ T1, T1.Sound → T ≤ T1 → Assign.Holds T1 s t)
    {T2 : Table} (hcalls : Relation.ReflTransGen Called T T2) : T2.Accepts s t := by
  have hle := (h.truthful.succeeds hcalls).1.le
  have hT := (h.calls hcalls).truthful
  have hs2 := has_of_le hle hs
  have ht2 := has_of_le hle ht
  have hanswered : ∀ n b T1, s.isAssignableTo t n T2 = some (b, T1) → b = true := by
    intro n b T1 hrun
    obtain ⟨hsucceeds, hsettles⟩ := hT.asked hs2 ht2 hrun
    have hT1 := hsettles.truthful.sound
    exact (hsettles.answered T1 hT1 (le_refl T1)).mpr (hholds T1 hT1 (hle.trans hsucceeds.le))
  refine ⟨hholds T2 hT.sound hle, hanswered, fun hg hfinite => ?_⟩
  obtain ⟨n, b, T1, hrun⟩ := Ty.isAssignableTo_ends hT.sound hs2 ht2
    (hfinite.once hT.sound hg hs2 ht2)
  obtain rfl := hanswered n b T1 (hrun n (Nat.le_refl n))
  exact ⟨n, T1, hrun⟩

end Table

/-- A table without aliases that is frozen. -/
theorem Table.Prepared.frozen {T : Table} (h : T.Prepared) (hnone : T.aliases = []) :
    (Alias.freeze T).2.Resolved :=
  .freeze (.start h (Alias.resolveAll_of_undefined hnone 0))

end ShapeCheck
