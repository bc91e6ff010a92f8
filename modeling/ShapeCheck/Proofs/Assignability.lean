import ShapeCheck.Proofs.Coinduction
import ShapeCheck.Proofs.Building
import ShapeCheck.Proofs.HashConsing

/-!
# Assignability, whatever was asked before

A table is built by calls, its aliases are resolved, and it is frozen; then answers about
assignability are kept. What a reference resolves to may depend on what was resolved before, since
instances of one alias nest only so deep. So the answer to a question is the one of the rules in the
table that the question leaves, and then in every later one.

* `Table.Called` is a call on a table, `Table.Prepared` a table before its aliases are resolved, and
  `Table.Resolved` one after.
* `Table.Truthful` is what holds of a table once its aliases are resolved, `Table.Truthful.called`
  that every call keeps it.
* `Ty.assignable_iff_holds` says what the answer to a question is worth.
-/

namespace ShapeCheck

open Relation (ReflTransGen)

variable {s t : Ty} {b : Bool} {n : Nat} {T : Table}

namespace Table

/-- A call on the first table leaves the second: a type or a type parameter is made, a type is
resolved, or two types are compared. -/
inductive Called (T : Table) : Table → Prop
  | construct (c : Construction) (hin : ∀ t ∈ c.inputs, T.Has t) (hfits : c.Fits T) :
    Called T (c.run T).2
  | declare (info : TypeVarInfo) (hbound : ∀ b ∈ info.bound, T.Has b)
    (hdefault : ∀ d ∈ info.default, T.Has d) : Called T (Ty.newTypeVar info T).2
  | resolve {t r : Ty} {n : Nat} {T1 : Table} (ht : T.Has t) (hrun : t.resolve n T = some (r, T1)) :
    Called T T1
  | assignable {s t : Ty} {b : Bool} {n : Nat} {T1 : Table} (hs : T.Has s) (ht : T.Has t)
    (hrun : s.isAssignableTo t n T = some (b, T1)) : Called T T1

/-- A type parameter of the first table has another bound or default in the second. -/
inductive Rebinds (T : Table) : Table → Prop
  | bound (v : TypeVar) {t : Ty} (ht : T.Has t) : Rebinds T (Ty.setBound v t T).2
  | default (v : TypeVar) {t : Ty} (ht : T.Has t) : Rebinds T (Ty.setDefault v t T).2

/-- A table before all its aliases are resolved. -/
inductive Prepared : Table → Prop
  | empty : Prepared {}
  | call {T T1 : Table} (h : Prepared T) (hcall : T.Called T1) : Prepared T1
  | rebind {T T1 : Table} (h : Prepared T) (hbind : T.Rebinds T1) : Prepared T1
  | define {T : Table} (h : Prepared T) (name : String) {params : List TypeVar} {target : Ty}
    (hparams : ∀ v ∈ params, T.Knows v) (htarget : T.Has target) :
    Prepared (Alias.define name params target T).2
  | resolveAlias {T T1 : Table} (h : Prepared T) {name : String} {n : Nat}
    {p : Ty × Option AliasError} (hrun : Alias.resolve name n T = some (p, T1)) : Prepared T1

/-- A table after all its aliases are resolved. Once it is frozen, type parameters stay as they are
made. -/
inductive Resolved : Table → Prop
  | start {T T1 : Table} (h : Prepared T) {n : Nat} {errors : List AliasError}
    (hrun : Alias.resolveAll n T = some (errors, T1)) : Resolved T1
  | call {T T1 : Table} (h : Resolved T) (hcall : T.Called T1) : Resolved T1
  | rebind {T T1 : Table} (h : Resolved T) (hopen : T.frozen = false) (hbind : T.Rebinds T1) :
    Resolved T1
  | freeze {T : Table} (h : Resolved T) : Resolved (Alias.freeze T).2

/-- The answer about a pair of types is the one of the rules, now and later. -/
def Answered (T : Table) (s t : Ty) (b : Bool) : Prop :=
  ∀ T2, T2.Sound → T ≤ T2 → (b = true ↔ Assign.Holds T2 s t)

/-- The table with an answer kept, if it is frozen. -/
def keeping (T : Table) (s t : Ty) (b : Bool) : Table :=
  if T.frozen then { T with verdicts := ((s, t), b) :: T.verdicts } else T

/-- What holds of a table before its aliases are resolved. -/
structure Ready (T : Table) : Prop where
  wellFormed : T.WellFormed
  defining : T.frozen = false
  unasked : T.verdicts = []

/-- What holds of a table once its aliases are resolved. -/
structure Truthful (T : Table) : Prop where
  sound : T.Sound
  unasked : T.frozen = false → T.verdicts = []
  answered : ∀ s t b, T.verdicts.lookup (s, t) = some b → T.Answered s t b

/-- The second table extends the first, and every answer that was kept still is. -/
structure Succeeds (T T1 : Table) : Prop where
  le : T ≤ T1
  kept : ∀ s t b, T.verdicts.lookup (s, t) = some b → T1.verdicts.lookup (s, t) = some b
  grounded : T.Grounded → T1.Grounded

section Changes

variable {T1 T2 : Table}

theorem Succeeds.refl (T : Table) : T.Succeeds T := ⟨le_refl T, fun _ _ _ h => h, id⟩

theorem Succeeds.trans (h : T.Succeeds T1) (h' : T1.Succeeds T2) : T.Succeeds T2 :=
  ⟨h.le.trans h'.le, fun s t b hb => h'.kept s t b (h.kept s t b hb), h'.grounded ∘ h.grounded⟩

theorem Succeeds.of_adds (hT : T.WellFormed) (h : T.Adds T1) : T.Succeeds T1 where
  le := h.le
  kept s t b hb := by rwa [h.verdicts]
  grounded hg := hg.of_adds hT h

theorem typeVar_bound_of_unbounded (h : T.typeVars.toList.all (·.bound.isNone) = true)
    (v : TypeVar) :
    (T.typeVar v).bound = none := by
  cases hinfo : T.typeVars[v.number]? with
  | none => simp [typeVar, hinfo]
  | some info =>
    have hnone := List.all_eq_true.mp h info (Array.mem_toList_iff.mpr
      (Array.mem_of_getElem? hinfo))
    simpa [typeVar, hinfo] using hnone

theorem grounded_of_unbounded (h : T.typeVars.toList.all (·.bound.isNone) = true) : T.Grounded := by
  refine ⟨fun v => ⟨v, ?_⟩⟩
  rintro w ⟨b, u, hb, -⟩
  rw [typeVar_bound_of_unbounded h v] at hb
  exact absurd hb (by simp)

/-- The bound of a new type parameter leads to the others only. -/
theorem Grounded.newTypeVar (hg : T.Grounded) (hT : T.WellFormed) {info : TypeVarInfo}
    (hbound : ∀ b ∈ info.bound, T.Has b) : (Ty.newTypeVar info T).2.Grounded := by
  have hshape : ∀ t, T.Has t → (Ty.newTypeVar info T).2.shape t = T.shape t := by
    intro t _
    cases t <;> rfl
  have hold : ∀ v : TypeVar, v.number ≠ T.typeVars.size →
      (Ty.newTypeVar info T).2.typeVar v = T.typeVar v := by
    intro v hv
    simp only [typeVar, Ty.newTypeVar, Array.getElem?_push, if_neg hv]
  have hacc : ∀ v : TypeVar, v.number ≠ T.typeVars.size →
    Acc (Ty.newTypeVar info T).2.Bounds v := by
    intro v
    induction v using hg.induction with
    | _ v ih =>
    intro hv
    refine ⟨v, ?_⟩
    rintro w ⟨b, u, hb, hu, hw⟩
    rw [hold v hv] at hb
    obtain ⟨hlead, hhas⟩ := leadsTo_of_shapes hT hshape (has_of_bound hT hb) hu
    have hw' := (hshape u hhas).symm.trans hw
    exact ih w ⟨b, u, hb, hlead, hw'⟩ (Nat.ne_of_lt (Assign.knows_of_shape hT hw'))
  refine ⟨fun v => ?_⟩
  by_cases hv : v.number = T.typeVars.size
  · refine ⟨v, ?_⟩
    rintro w ⟨b, u, hb, hu, hw⟩
    rw [typeVar, hv, Ty.newTypeVar, Array.getElem?_push_size, Option.getD_some] at hb
    obtain ⟨-, hhas⟩ := leadsTo_of_shapes hT hshape (hbound b hb) hu
    exact hacc w (Nat.ne_of_lt (Assign.knows_of_shape hT ((hshape u hhas).symm.trans hw)))
  · exact hacc v hv

/-- What is said of the types of a table does not depend on the bounds and defaults. -/
theorem WellFormed.modifyTypeVar (hT : T.WellFormed) (v : TypeVar)
    {change : TypeVarInfo → TypeVarInfo}
    (hchange : ∀ info : TypeVarInfo, (∀ b ∈ info.bound, T.Has b) ∧ (∀ d ∈ info.default, T.Has d) →
      (∀ b ∈ (change info).bound, T.Has b) ∧ ∀ d ∈ (change info).default, T.Has d) :
    (Ty.modifyTypeVar v change T).2.WellFormed := by
  have hknows : ∀ w, T.Knows w → (Ty.modifyTypeVar v change T).2.Knows w := by
    intro w hw
    change w.number < (T.typeVars.modify v.number change).size
    rwa [Array.size_modify]
  refine ⟨?_, hT.unique, ?_, ?_, hT.instances⟩
  · intro n e he
    have h := hT.entry n e he
    exact ⟨h.parts, h.members, fun w hw => hknows w (h.vars w hw),
      fun ms hms => (h.union ms hms).of_entries rfl, h.values, h.key, h.isEntry⟩
  · intro i info hi
    change (T.typeVars.modify v.number change)[i]? = some info at hi
    rw [Array.getElem?_modify] at hi
    split at hi
    · obtain ⟨old, hold, rfl⟩ := Option.map_eq_some_iff.mp hi
      exact hchange old (hT.typeVars i old hold)
    · exact hT.typeVars i info hi
  · intro a ha
    obtain ⟨htarget, hparams, hout⟩ := hT.aliases a ha
    exact ⟨htarget, fun w hw => hknows w (hparams w hw), hout⟩

theorem Rebinds.spec (h : T.Rebinds T1) (hT : T.WellFormed) :
    T1.WellFormed ∧ T1.aliases = T.aliases ∧ T1.frozen = T.frozen ∧ T1.verdicts = T.verdicts := by
  cases h with
  | bound v ht =>
    refine ⟨hT.modifyTypeVar v fun info hinfo => ⟨?_, hinfo.2⟩, rfl, rfl, rfl⟩
    rintro b ⟨⟩
    exact ht
  | default v ht =>
    refine ⟨hT.modifyTypeVar v fun info hinfo => ⟨hinfo.1, ?_⟩, rfl, rfl, rfl⟩
    rintro d ⟨⟩
    exact ht

/-- Whether a table is well-formed does not depend on the answers kept, nor on its being frozen. -/
theorem WellFormed.congr (hT : T.WellFormed) (hentries : T1.entries = T.entries)
    (htypeVars : T1.typeVars = T.typeVars) (haliases : T1.aliases = T.aliases)
    (hinstances : T1.instances = T.instances) : T1.WellFormed := by
  obtain ⟨entries, typeVars, aliases, instances, frozen, verdicts⟩ := T1
  dsimp only at hentries htypeVars haliases hinstances
  subst hentries htypeVars haliases hinstances
  refine ⟨fun n e he => ?_, hT.unique, hT.typeVars, hT.aliases, hT.instances⟩
  have h := hT.entry n e he
  exact ⟨h.parts, h.members, h.vars, fun ms hms => (h.union ms hms).of_entries rfl, h.values, h.key,
    h.isEntry⟩

section Keeping

variable (s t : Ty) (b : Bool)

theorem le_keeping (T : Table) : T ≤ T.keeping s t b := by
  unfold keeping
  split
  · exact ⟨fun _ _ h => h, fun _ _ h => h, rfl, rfl, fun _ _ h => h, fun _ _ h => .inl h⟩
  · exact le_refl T

theorem Sound.keeping (hT : T.Sound) : (T.keeping s t b).Sound := by
  refine ⟨?_, hT.settled.of_le (le_keeping s t b T)⟩
  unfold Table.keeping
  split
  · exact hT.wellFormed.congr rfl rfl rfl rfl
  · exact hT.wellFormed

theorem Grounded.keeping (hg : T.Grounded) (hT : T.WellFormed) : (T.keeping s t b).Grounded := by
  refine hg.of_shapes hT (fun _ hu => shape_of_le (le_keeping s t b T) hu) ?_
  unfold Table.keeping
  split
  · rfl
  · rfl

theorem lookup_keeping {p : Ty × Ty} (hp : p ≠ (s, t)) :
    (T.keeping s t b).verdicts.lookup p = T.verdicts.lookup p := by
  unfold keeping
  split
  · rw [List.lookup_cons, beq_false_of_ne hp]
  · rfl

theorem lookup_keeping_self (hfrozen : T.frozen = true) :
    (T.keeping s t b).verdicts.lookup (s, t) = some b := by
  rw [keeping, if_pos hfrozen, List.lookup_cons, beq_self_eq_true]

/-- At most the new answer is kept besides those that were. -/
theorem lookup_keeping_cases {p q : Ty} {c : Bool}
    (h : (T.keeping s t b).verdicts.lookup (p, q) = some c) :
    T.verdicts.lookup (p, q) = some c ∨ p = s ∧ q = t ∧ c = b := by
  by_cases hpq : (p, q) = (s, t)
  · cases hfrozen : T.frozen with
    | true =>
      rw [hpq, lookup_keeping_self s t b hfrozen] at h
      exact .inr ⟨congrArg Prod.fst hpq, congrArg Prod.snd hpq, (Option.some.inj h).symm⟩
    | false =>
      rw [keeping, if_neg (by simp [hfrozen])] at h
      exact .inl h
  · rw [lookup_keeping s t b hpq] at h
    exact .inl h

end Keeping

end Changes

end Table

namespace Ty

variable {T1 : Table}

theorem isAssignableTo_self (t : Ty) (n : Nat) (T : Table) :
    t.isAssignableTo t n T = some (true, T) := by
  simp only [isAssignableTo, if_true]
  rfl

theorem isAssignableTo_kept (h : s ≠ t) (hfrozen : T.frozen = true)
    (hlook : T.verdicts.lookup (s, t) = some b) (n : Nat) :
    s.isAssignableTo t n T = some (b, T) := by
  unfold isAssignableTo
  rw [if_neg h, Typing.get_bind, hfrozen, if_pos rfl, hlook]
  rfl

/-- An answer that is not kept is found by comparing. -/
theorem isAssignableTo_anew (h : s ≠ t) (hlook : T.frozen = true → T.verdicts.lookup (s, t) = none)
    (n : Nat) : s.isAssignableTo t n T = (Assign.decideAt n [] s t n T).bind fun p =>
      some (p.1, if T.frozen then { p.2 with verdicts := ((s, t), p.1) :: p.2.verdicts }
        else p.2) := by
  unfold isAssignableTo
  rw [if_neg h, Typing.get_bind]
  have hnone : (if T.frozen = true then T.verdicts.lookup (s, t) else none) = none := by
    split
    · exact hlook (by assumption)
    · rfl
  rw [hnone]
  cases hf : T.frozen with
  | true => rfl
  | false => rfl

theorem isAssignableTo_ends (hT : T.Sound) (hs : T.Has s) (ht : T.Has t)
    (hfinite : Assign.MeetsOnce T s t) :
    ∃ n b T1, ∀ m, n ≤ m → s.isAssignableTo t m T = some (b, T1) := by
  by_cases hne : s = t
  · subst hne
    exact ⟨0, true, T, fun m _ => isAssignableTo_self s m T⟩
  by_cases hkept : ∃ b, T.frozen = true ∧ T.verdicts.lookup (s, t) = some b
  · obtain ⟨b, hfrozen, hlook⟩ := hkept
    exact ⟨0, b, T, fun m _ => isAssignableTo_kept hne hfrozen hlook m⟩
  · have hnew : T.frozen = true → T.verdicts.lookup (s, t) = none := by
      intro hfrozen
      rw [Option.eq_none_iff_forall_ne_some]
      exact fun b hb => hkept ⟨b, hfrozen, hb⟩
    obtain ⟨n, b, T1, hrun⟩ := Assign.decideAt_ends hT hs ht hfinite
    refine ⟨n, b, if T.frozen then { T1 with verdicts := ((s, t), b) :: T1.verdicts } else T1,
      fun m hm => ?_⟩
    rw [isAssignableTo_anew hne hnew, hrun m hm, Option.bind_some]

end Ty

namespace Table

section Calls

variable {T1 T2 : Table}

theorem Ready.evolves (h : T.Ready) (hT1 : T1.WellFormed) (h1 : T.Evolves T1) : T1.Ready :=
  ⟨hT1, h1.frozen.trans h.defining, h1.verdicts.trans h.unasked⟩

/-- A call keeps no answer in a table whose aliases are not resolved. -/
theorem Ready.called (h : T.Ready) (hcall : T.Called T1) : T1.Ready := by
  cases hcall with
  | construct c hin hfits =>
    obtain ⟨t, T', hrun, hT', h', -, -⟩ := Construction.run_spec h.wellFormed hin hfits
    rw [hrun]
    exact h.evolves hT' (.of_adds h')
  | declare info hbound hdefault =>
    exact ⟨(h.wellFormed.newTypeVar hbound hdefault).1, h.defining, h.unasked⟩
  | resolve ht hrun =>
    obtain ⟨hat, -⟩ := Ty.building_resolve h.wellFormed ht _ _ _ hrun
    exact h.evolves hat.ok hat.grows
  | @assignable s t b n _ hs ht hrun =>
    by_cases heq : s = t
    · subst heq
      rw [Ty.isAssignableTo_self] at hrun
      obtain ⟨-, rfl⟩ := Prod.mk.inj (Option.some.inj hrun)
      exact h
    · rw [Ty.isAssignableTo_anew heq (by simp [h.defining])] at hrun
      obtain ⟨⟨b', T'⟩, hdecide, hrest⟩ := Option.bind_eq_some_iff.mp hrun
      obtain ⟨hat, -⟩ := Assign.runs_decideAt (K := .building)
        (fun T u hT hu => ⟨Ty.building_resolve hT hu, False.elim⟩)
        (Nat.le_refl n) [] h.wellFormed hs
        ht n b' T' hdecide
      simp only [h.defining, Bool.false_eq_true, if_false, Option.some.injEq,
        Prod.mk.injEq] at hrest
      obtain ⟨-, rfl⟩ := hrest
      exact h.evolves hat.ok hat.grows

/-- A definition is added unless the table is frozen or has the name. -/
theorem define_snd (T : Table) (name : String) (params : List TypeVar) (target : Ty) :
    (Alias.define name params target T).2 = if T.frozen then T else
      if (T.alias? name).isSome then T
      else { T with aliases := T.aliases ++ [{ name, params, target }] } := by
  unfold Alias.define
  rw [Interning.bind_apply]
  change ((if T.frozen = true then _ else _ : Interning (Except AliasError Unit)) T).2 = _
  split
  · rfl
  change ((if (T.alias? name).isSome = true then _ else _ :
    Interning (Except AliasError Unit)) T).2 = _
  split
  · rfl
  · rfl

theorem WellFormed.define (hT : T.WellFormed) (name : String) {params : List TypeVar} {target : Ty}
    (hparams : ∀ v ∈ params, T.Knows v) (htarget : T.Has target) :
    let T1 := (Alias.define name params target T).2
    T1.WellFormed ∧ T1.frozen = T.frozen ∧ T1.verdicts = T.verdicts := by
  dsimp only
  rw [define_snd]
  split
  · exact ⟨hT, rfl, rfl⟩
  split
  · exact ⟨hT, rfl, rfl⟩
  refine ⟨⟨fun n e he => ?_, hT.unique, hT.typeVars, fun a ha => ?_, hT.instances⟩, rfl, rfl⟩
  · have h := hT.entry n e he
    exact ⟨h.parts, h.members, h.vars, fun ms hms =>
      (h.union ms hms).of_entries rfl, h.values, h.key,
      h.isEntry⟩
  · rcases List.mem_append.mp ha with ha | ha
    · exact hT.aliases a ha
    · obtain rfl := List.mem_singleton.mp ha
      exact ⟨htarget, hparams, by simp⟩

theorem Prepared.ready (h : T.Prepared) : T.Ready := by
  induction h with
  | empty => exact ⟨.empty, rfl, rfl⟩
  | call _ hcall ih => exact ih.called hcall
  | rebind _ hbind ih =>
    obtain ⟨hT, -, hfrozen, hverdicts⟩ := hbind.spec ih.wellFormed
    exact ⟨hT, hfrozen.trans ih.defining, hverdicts.trans ih.unasked⟩
  | define _ name hparams htarget ih =>
    obtain ⟨hT, hfrozen, hverdicts⟩ := ih.wellFormed.define name hparams htarget
    exact ⟨hT, hfrozen.trans ih.defining, hverdicts.trans ih.unasked⟩
  | resolveAlias _ hrun ih =>
    obtain ⟨hat, -⟩ := Alias.building_resolve ih.wellFormed _ _ _ _ hrun
    exact ih.evolves hat.ok hat.grows

/-- An extension with the same answers is truthful. -/
theorem Truthful.of_le (h : T.Truthful) (hT1 : T1.Sound) (hle : T ≤ T1)
    (hverdicts : T1.verdicts = T.verdicts) : T1.Truthful where
  sound := hT1
  unasked hopen := hverdicts.trans (h.unasked (hle.frozen.symm.trans hopen))
  answered s t b hb T2 hT2 h2 := by
    rw [hverdicts] at hb
    exact h.answered s t b hb T2 hT2 (hle.trans h2)

/-- A new answer that is right may be kept. -/
theorem Truthful.keeping (h : T.Truthful)
    (hnew : T.verdicts.lookup (s, t) = none) (hright : T.Answered s t b) :
    T.Succeeds (T.keeping s t b) ∧ (T.keeping s t b).Truthful := by
  have hle := le_keeping s t b T
  refine ⟨⟨hle, ?_, fun hg => hg.keeping s t b h.sound.wellFormed⟩, h.sound.keeping s t b, ?_, ?_⟩
  · intro p q c hc
    have hpq : (p, q) ≠ (s, t) := by
      intro hpq
      rw [hpq, hnew] at hc
      exact absurd hc (by simp)
    rwa [lookup_keeping s t b hpq]
  · intro hopen
    rw [hle.frozen] at hopen
    rw [Table.keeping, if_neg (by simp [hopen])]
    exact h.unasked hopen
  · intro p q c hc T2 hT2 h2
    rcases lookup_keeping_cases s t b hc with hold | ⟨rfl, rfl, rfl⟩
    · exact h.answered p q c hold T2 hT2 (hle.trans h2)
    · exact hright T2 hT2 (hle.trans h2)

/-- A question that has been answered was answered right, and is whenever it is asked again. -/
structure SettlesFor (T : Table) (s t : Ty) (b : Bool) (n : Nat) : Prop where
  truthful : T.Truthful
  answered : T.Answered s t b
  again : ∀ T2, T.Succeeds T2 → ∀ m, n ≤ m → s.isAssignableTo t m T2 = some (b, T2)

/-- A new comparison in a truthful table. -/
theorem Truthful.asked_anew (h : T.Truthful) (hs : T.Has s) (ht : T.Has t) (hne : s ≠ t)
    (hnew : T.verdicts.lookup (s, t) = none)
    (hrun : s.isAssignableTo t n T = some (b, T1)) : T.Succeeds T1 ∧ T1.SettlesFor s t b n := by
  rw [Ty.isAssignableTo_anew hne (fun _ => hnew)] at hrun
  obtain ⟨⟨b', T'⟩, hdecide, hrest⟩ := Option.bind_eq_some_iff.mp hrun
  have hdeeper := fun m hm => (Assign.runs_decideAt (K := .lasting)
    (fun T u => Assign.works_resolve)
    (show n ≤ m from hm) [] h.sound hs ht n b' T' hdecide).1
  have hat := hdeeper n (Nat.le_refl n)
  rw [← hat.grows.le.frozen] at hrest
  obtain ⟨rfl, rfl⟩ : b' = b ∧ T'.keeping s t b' = T1 := Prod.mk.inj (Option.some.inj hrest)
  have hright : T'.Answered s t b' := fun T2 hT2 h2 => Assign.holds_iff h.sound hs ht hdecide hT2 h2
  have hle := le_keeping s t b' T'
  obtain ⟨hsucceeds, htruthful⟩ := (h.of_le hat.ok hat.grows.le hat.grows.verdicts).keeping
    (by rw [hat.grows.verdicts, hnew]) hright
  refine ⟨(Succeeds.of_adds h.sound.wellFormed hat.grows).trans hsucceeds, htruthful,
    fun T2 hT2 h2 => hright T2 hT2 (hle.trans h2), fun T2 h2 m hm => ?_⟩
  have hsame : T2.frozen = T'.frozen := h2.le.frozen.trans hle.frozen
  cases hfrozen : T'.frozen with
  | true =>
    exact Ty.isAssignableTo_kept hne (hsame.trans hfrozen)
      (h2.kept s t b' (lookup_keeping_self s t b' hfrozen)) m
  | false =>
    have hopen : T2.frozen = false := hsame.trans hfrozen
    rw [Ty.isAssignableTo_anew hne (by simp [hopen]),
      (hdeeper m hm).again m hm T2 (hle.trans h2.le), hopen]
    rfl

/-- A comparison in a truthful table is answered right, whether the answer was kept or is new. -/
theorem Truthful.asked (h : T.Truthful) (hs : T.Has s) (ht : T.Has t)
    (hrun : s.isAssignableTo t n T = some (b, T1)) : T.Succeeds T1 ∧ T1.SettlesFor s t b n := by
  by_cases hne : s = t
  · subst hne
    rw [Ty.isAssignableTo_self] at hrun
    obtain ⟨rfl, rfl⟩ := Prod.mk.inj (Option.some.inj hrun)
    refine ⟨.refl T, h, fun T2 _ _ => ?_, fun T2 _ m _ => Ty.isAssignableTo_self s m T2⟩
    exact ⟨fun _ => Assign.holds_refl T2 s, fun _ => rfl⟩
  cases hlook : T.verdicts.lookup (s, t) with
  | none => exact h.asked_anew hs ht hne hlook hrun
  | some c =>
    have hfrozen : T.frozen = true := by
      by_contra hopen
      rw [h.unasked (by simpa using hopen)] at hlook
      exact absurd hlook (by simp)
    rw [Ty.isAssignableTo_kept hne hfrozen hlook] at hrun
    obtain ⟨rfl, rfl⟩ := Prod.mk.inj (Option.some.inj hrun)
    refine ⟨.refl T, h, h.answered s t c hlook, fun T2 h2 m _ => ?_⟩
    exact Ty.isAssignableTo_kept hne (h2.le.frozen.trans hfrozen) (h2.kept s t c hlook) m

/-- Every call keeps a table truthful and forgets nothing. -/
theorem Truthful.called (h : T.Truthful) (hcall : T.Called T1) : T.Succeeds T1 ∧ T1.Truthful := by
  cases hcall with
  | construct c hin hfits =>
    obtain ⟨t, T', hrun, hT', h', -, -⟩ := Construction.run_spec h.sound.wellFormed hin hfits
    rw [hrun]
    exact ⟨.of_adds h.sound.wellFormed h', h.of_le (h.sound.of_adds hT' h') h'.le h'.verdicts⟩
  | declare info hbound hdefault =>
    obtain ⟨hT1, hle⟩ := h.sound.wellFormed.newTypeVar hbound hdefault
    exact ⟨⟨hle, fun _ _ _ hb => hb, fun hg => hg.newTypeVar h.sound.wellFormed hbound⟩,
      h.of_le ⟨hT1, h.sound.settled.of_le hle⟩ hle rfl⟩
  | resolve ht hrun =>
    obtain ⟨hat, -⟩ := Ty.lasting_resolve h.sound ht _ _ _ hrun
    exact ⟨.of_adds h.sound.wellFormed hat.grows, h.of_le hat.ok hat.grows.le hat.grows.verdicts⟩
  | assignable hs ht hrun =>
    obtain ⟨hsucceeds, hsettles⟩ := h.asked hs ht hrun
    exact ⟨hsucceeds, hsettles.truthful⟩

theorem Resolved.truthful (h : T.Resolved) : T.Truthful := by
  induction h with
  | start hprep hrun =>
    have hready := hprep.ready
    obtain ⟨hsound, hevolves⟩ := Alias.resolveAll_sound hready.wellFormed hrun
    have hnone := hevolves.verdicts.trans hready.unasked
    exact ⟨hsound, fun _ => hnone, by simp [hnone]⟩
  | call _ hcall ih => exact (ih.called hcall).2
  | rebind _ hopen hbind ih =>
    obtain ⟨hT1, haliases, -, hverdicts⟩ := hbind.spec ih.sound.wellFormed
    have hnone := hverdicts.trans (ih.unasked hopen)
    refine ⟨⟨hT1, fun name a ha => ih.sound.settled name a ?_⟩, fun _ => hnone, by simp [hnone]⟩
    rwa [alias?, haliases, ← alias?] at ha
  | @freeze T _ ih =>
    cases hfrozen : T.frozen with
    | true =>
      have hsame : (Alias.freeze T).2 = T := by
        change { T with frozen := true } = T
        rw [← hfrozen]
      rwa [hsame]
    | false =>
      have hnone : (Alias.freeze T).2.verdicts = [] := ih.unasked hfrozen
      exact ⟨⟨ih.sound.wellFormed.congr rfl rfl rfl rfl, ih.sound.settled⟩, fun _ => hnone,
        by simp [hnone]⟩

theorem Resolved.calls (h : T.Resolved) (hcalls : ReflTransGen Called T T1) : T1.Resolved := by
  induction hcalls with
  | refl => exact h
  | tail _ hcall ih => exact ih.call hcall

/-- Calls forget nothing. -/
theorem Truthful.succeeds (h : T.Truthful) (hcalls : ReflTransGen Called T T1) :
    T.Succeeds T1 ∧ T1.Truthful := by
  induction hcalls with
  | refl => exact ⟨.refl T, h⟩
  | tail _ hcall ih =>
    obtain ⟨hsucceeds, htruthful⟩ := ih
    obtain ⟨hnext, htruthful'⟩ := htruthful.called hcall
    exact ⟨hsucceeds.trans hnext, htruthful'⟩

end Calls

end Table

/-- **Assignability is the greatest fixed point of its rules**, kept answers or not. A comparison
that meets finitely many pairs, none of them again before it assumes one, has an answer; this is the
one of the largest relation that the rules allow in the table that the comparison leaves, and after
any further calls it is still that, and what is answered when the question is asked again. -/
theorem Ty.assignable_iff_holds {T : Table} (h : T.Resolved) {s t : Ty}
    (hs : T.Has s) (ht : T.Has t)
    (hfinite : Assign.MeetsOnce T s t) :
    ∃ n b T1, (∀ m, n ≤ m → s.isAssignableTo t m T = some (b, T1)) ∧ T1.Resolved ∧
      ∀ T2, ReflTransGen Table.Called T1 T2 →
        (b = true ↔ Assign.Holds T2 s t) ∧
          ∀ m, n ≤ m → s.isAssignableTo t m T2 = some (b, T2) := by
  have htruthful := h.truthful
  obtain ⟨n, b, T1, hrun⟩ := Ty.isAssignableTo_ends htruthful.sound hs ht hfinite
  obtain ⟨hsucceeds, hsettles⟩ := htruthful.asked hs ht (hrun n (Nat.le_refl n))
  refine ⟨n, b, T1, hrun, h.call (.assignable hs ht (hrun n (Nat.le_refl n))), fun T2 hcalls => ?_⟩
  obtain ⟨h2, htruthful2⟩ := hsettles.truthful.succeeds hcalls
  exact ⟨hsettles.answered T2 htruthful2.sound h2.le, hsettles.again T2 h2⟩

/-- In a frozen table without aliases, a truth value can be given to a boolean, also when this is
asked again. -/
theorem Ty.assignable_iff_holds_boolean :
    ∃ n T1, (Ty.truth true).isAssignableTo .boolean n (Alias.freeze {}).2 = some (true, T1) ∧
      Assign.Holds T1 (.truth true) .boolean ∧
        (Ty.truth true).isAssignableTo .boolean n T1 = some (true, T1) := by
  have hresolved : (Alias.freeze {}).2.Resolved :=
    .freeze (.start .empty (show Alias.resolveAll 0 {} = some ([], {}) from rfl))
  have hfinite : Assign.MeetsOnce (Alias.freeze {}).2 (.truth true) .boolean := by
    refine ⟨{(.truth true, .boolean)}, fun d => ⟨0, ?_⟩⟩
    cases d with
    | zero => rfl
    | succ d => rfl
  obtain ⟨n, b, T1, hrun, -, hlater⟩ := Ty.assignable_iff_holds hresolved
    (Table.has_truth _ true) (Table.has_prim _ .boolean) hfinite
  have hb : b = true := congrArg Prod.fst (Option.some.inj (hrun (n + 1) (Nat.le_succ n))).symm
  subst hb
  obtain ⟨hholds, hagain⟩ := hlater T1 .refl
  exact ⟨n, T1, hrun n (Nat.le_refl n), hholds.mp rfl, hagain n (Nat.le_refl n)⟩

/-- Without aliases there is nothing to resolve. -/
theorem Alias.resolveAll_of_undefined (h : T.aliases = []) (n : Nat) :
    resolveAll n T = some ([], T) := by
  unfold resolveAll
  rw [Typing.get_bind, h]
  rfl

theorem Construction.has_run (hT : T.WellFormed) {c : Construction}
    (hin : ∀ t ∈ c.inputs, T.Has t) (hfits : c.Fits T) : (c.run T).2.Has (c.run T).1 := by
  obtain ⟨t, T1, hrun, -, -, ht, -⟩ := run_spec hT hin hfits
  rw [hrun]
  exact ht

namespace Table

/-- A new type parameter, and the type that refers to it. -/
def declaring (info : TypeVarInfo) (T : Table) : Table :=
  (Ty.parameterOf ⟨T.typeVars.size⟩ (Ty.newTypeVar info T).2).2

theorem Prepared.declaring (h : T.Prepared) (info : TypeVarInfo)
    (hbound : ∀ b ∈ info.bound, T.Has b)
    (hdefault : ∀ d ∈ info.default, T.Has d) : (declaring info T).Prepared := by
  refine (h.call (.declare info hbound hdefault)).call
    (.construct (.parameter ⟨T.typeVars.size⟩) (by simp [Construction.inputs]) ?_)
  simp [Construction.Fits, Knows, Ty.newTypeVar]

theorem Prepared.reference (h : T.Prepared) (name : String) (ts : List Ty)
    (hts : ∀ t ∈ ts, T.Has t) : ((Construction.reference name ts).run T).2.Prepared :=
  h.call (.construct (.reference name ts) hts trivial)

/-- A table with a type parameter that is its own bound, and a reference to it. -/
def selfBound : Table := (Ty.setBound ⟨0⟩ (.made 0) (declaring { name := "T" } {})).2

theorem resolved_selfBound : selfBound.Resolved := by
  have hdeclared : (declaring { name := "T" } {}).Prepared :=
    Prepared.empty.declaring _ (by simp) (by simp)
  have hhas : (declaring { name := "T" } {}).Has (.made 0) := by
    with_unfolding_all exact Nat.le_refl 1
  exact .start (.rebind hdeclared (.bound ⟨0⟩ hhas))
    (Alias.resolveAll_of_undefined (by with_unfolding_all rfl) 0)

theorem has_selfBound : selfBound.Has (.made 0) := by
  with_unfolding_all exact Nat.le_refl 1

/-- To compare that parameter with the numbers is to compare its bound with them, so the same
again. -/
theorem step_selfBound (assumed : Bool) (compare inner : Assign.Compare) (n : Nat) :
    Assign.step assumed compare inner (.made 0) .number n selfBound =
      compare (.made 0) .number n selfBound := by
  have hshape : selfBound.shape (.made 0) = .parameter ⟨0⟩ := by with_unfolding_all rfl
  have hbound : (selfBound.typeVar ⟨0⟩).bound = some (.made 0) := by with_unfolding_all rfl
  have hid : Assign.byIdentity (.made 0) .number = none := by decide
  have htarget : selfBound.shape .number = .primitive .number := rfl
  rw [Assign.step, hid]
  dsimp only
  rw [Typing.get_bind, hshape, htarget]
  simp only [Assign.stepResolved, Typing.get_bind, hshape, hbound, Assign.toEnum, htarget]
  rfl

theorem decideAt_selfBound (n d : Nat) (pairs : List (Ty × Ty)) :
    Assign.decideAt d pairs (.made 0) .number n selfBound = none := by
  induction d with
  | zero => rfl
  | succ d ih =>
    rw [Assign.decideAt, step_selfBound]
    exact ih

theorem isAssignableTo_selfBound (n : Nat) :
    (Ty.made 0).isAssignableTo .number n selfBound = none := by
  have hopen : selfBound.frozen = false := by with_unfolding_all rfl
  rw [Ty.isAssignableTo_anew (by simp) (by simp [hopen]), decideAt_selfBound]
  rfl

theorem meetsFinitely_selfBound : Assign.MeetsFinitely selfBound (.made 0) .number := by
  refine ⟨{(.made 0, .number)}, fun d => ⟨0, ?_⟩⟩
  have hrun : ∀ (d : Nat) (M : List (Ty × Ty)),
      Assign.exploreAt {(.made 0, .number)} true d [] M (.made 0) .number 0 selfBound =
        some (true, selfBound) := by
    intro d
    induction d with
    | zero => exact fun M => rfl
    | succ d ih =>
      intro M
      rw [Assign.exploreAt, if_pos ⟨by simp, .inl rfl⟩, step_selfBound]
      exact ih _
  rw [hrun d []]
  rfl

/-- A table with one alias, which stands for its argument. -/
def naming : Table :=
  let T := (Ty.newTypeVar { name := "T" } {}).2
  (Alias.define "I" [⟨0⟩] (Ty.parameterOf ⟨0⟩ T).1 (Ty.parameterOf ⟨0⟩ T).2).2

/-- The same table with the alias resolved, frozen. -/
def nesting : Table :=
  match Alias.resolveAll 3 naming with
  | some (_, T) => (Alias.freeze T).2
  | none => {}

/-- The type of numbers inside of so many references to the alias, and the table with them. -/
def nested : Nat → Ty × Table
  | 0 => (.number, nesting)
  | k + 1 => Ty.referenceTo "I" [(nested k).1] (nested k).2

theorem prepared_naming : naming.Prepared := by
  let T : Table := (Ty.newTypeVar { name := "T" } {}).2
  let T1 : Table := (Ty.parameterOf ⟨0⟩ T).2
  have hin : ∀ t ∈ (Construction.parameter ⟨0⟩).inputs, T.Has t := by simp [Construction.inputs]
  have h : T.Prepared := .call .empty (.declare { name := "T" } (by simp) (by simp))
  have h1 : T1.Prepared := .call h (.construct (.parameter ⟨0⟩) hin Nat.zero_lt_one)
  have hhas : T1.Has (Ty.parameterOf ⟨0⟩ T).1 :=
    Construction.has_run h.ready.wellFormed hin Nat.zero_lt_one
  have hknows : T1.Knows ⟨0⟩ := by
    change 0 < T1.typeVars.size
    with_unfolding_all exact Nat.one_pos
  exact h1.define "I" (by simpa using hknows) hhas

theorem resolved_nesting : nesting.Resolved := by
  have hsome : (Alias.resolveAll 3 naming).isSome := by with_unfolding_all rfl
  obtain ⟨⟨errors, T⟩, hrun⟩ := Option.isSome_iff_exists.mp hsome
  rw [nesting, hrun]
  exact .freeze (.start prepared_naming hrun)

theorem called_nested (k : Nat) :
    ReflTransGen Called nesting (nested k).2 ∧ (nested k).2.Has (nested k).1 := by
  induction k with
  | zero => exact ⟨.refl, has_prim _ _⟩
  | succ k ih =>
    obtain ⟨hcalls, hhas⟩ := ih
    have hin : ∀ t ∈ (Construction.reference "I" [(nested k).1]).inputs, (nested k).2.Has t := by
      simpa [Construction.inputs, Shape.parts] using hhas
    have hT := (resolved_nesting.truthful.succeeds hcalls).2.sound.wellFormed
    exact ⟨hcalls.tail (.construct (.reference "I" [(nested k).1]) hin trivial),
      Construction.has_run hT hin trivial⟩

/-- The comparison of a reference that resolves to the error type meets no further pair. -/
theorem meetsFinitely_of_invalid {T1 : Table}
    (hs : (T.shape s).isReference = true) (hne : Assign.byIdentity s t = none)
    (hrun : s.resolve n T = some (.invalid, T1)) : Assign.MeetsFinitely T s t := by
  refine ⟨{(s, t), (.invalid, t)}, fun d => ⟨n, ?_⟩⟩
  have hinvalid : ∀ (d : Nat) (A M : List (Ty × Ty)),
      Assign.exploreAt {(s, t), (.invalid, t)} true d A M .invalid t n T1 = some (true, T1) := by
    intro d A M
    cases d with
    | zero => rfl
    | succ d =>
      have hid : Assign.byIdentity .invalid t = some true := by
        simp [Assign.byIdentity]
      rw [Assign.exploreAt, if_pos ⟨by simp, .inl rfl⟩, Assign.step, hid]
      rfl
  cases d with
  | zero => rfl
  | succ d =>
    rw [Assign.exploreAt, if_pos ⟨by simp, .inl rfl⟩, Assign.step, hne]
    dsimp only
    rw [Typing.get_bind]
    cases hshape : T.shape s with
    | reference name arguments =>
      dsimp only
      rw [if_neg (by simp), Typing.bind_of_some hrun, hinvalid]
      rfl
    | _ => simp [hshape, Shape.isReference] at hs

/-- The answer about the type in 33 references and the one of strings, once the given type is
resolved. -/
def nestedAnswer (first : Ty) : Option Bool :=
  (do
    let _ ← first.resolve
    (nested 33).1.isAssignableTo .string : Typing Bool) 100 (nested 33).2 |>.map Prod.fst

theorem called_of_nestedAnswer {first : Ty} (hfirst : (nested 33).2.Has first)
    (h : nestedAnswer first = some b) :
    ∃ T1 T2, Called (nested 33).2 T1 ∧
      (nested 33).1.isAssignableTo .string 100 T1 = some (b, T2) := by
  obtain ⟨⟨_, T2⟩, hrun, rfl⟩ := Option.map_eq_some_iff.mp h
  obtain ⟨r, T1, hresolve, hask⟩ := Typing.bind_some hrun
  exact ⟨T1, T2, .resolve hfirst hresolve, hask⟩

/-- What is to be computed about the type in 33 references, together, so that it is built once. -/
theorem facts_nested : (nested 33).2.frozen = true ∧
    (nested 33).2.typeVars.toList.all (·.bound.isNone) = true ∧
    ((nested 33).1.resolve 100 (nested 33).2).map Prod.fst = some .invalid ∧
    ((nested 33).2.shape (nested 33).1).isReference = true ∧
    Assign.byIdentity (nested 33).1 .string = none ∧
    (nested 2).1.rank ≤ (nested 33).2.entries.size ∧
    nestedAnswer .number = some true ∧ nestedAnswer (nested 2).1 = some false := by
  decide +kernel

/-- **What was resolved before decides**: a type in 33 references to an alias resolves to the error
type, because of the limit on nesting, unless the type in two of them was resolved first. **And some
comparisons never end**: that of a type parameter which is its own bound meets one pair, again and
again. -/
theorem assignable_depends_on_calls :
    (¬∀ (T T1 : Table) (s t : Ty), T.Resolved → T.frozen = true → T.Grounded → T.Has s → T.Has t →
      Assign.MeetsFinitely T s t → ReflTransGen Called T T1 →
        ∀ n b T2, s.isAssignableTo t n T1 = some (b, T2) → (b = true ↔ Assign.Holds T s t)) ∧
    ∃ (T : Table) (s t : Ty), T.Resolved ∧ T.Has s ∧ T.Has t ∧ Assign.MeetsFinitely T s t ∧
      ∀ n, s.isAssignableTo t n T = none := by
  constructor
  · intro hall
    obtain ⟨hcalls, hhas⟩ := called_nested 33
    obtain ⟨hfrozen, hunbounded, hinvalid, hreference, hother, htwo, hfirst, hsecond⟩ :=
      facts_nested
    have hgrounded := grounded_of_unbounded hunbounded
    have hfinite : Assign.MeetsFinitely (nested 33).2 (nested 33).1 .string := by
      obtain ⟨⟨_, T1⟩, hrun, rfl⟩ := Option.map_eq_some_iff.mp hinvalid
      exact meetsFinitely_of_invalid hreference hother hrun
    have hright : ∀ first b, (nested 33).2.Has first → nestedAnswer first = some b →
        (b = true ↔ Assign.Holds (nested 33).2 (nested 33).1 .string) := by
      intro first b hfirst hanswer
      obtain ⟨T1, T2, hcall, hask⟩ := called_of_nestedAnswer hfirst hanswer
      exact hall _ T1 _ _ (resolved_nesting.calls hcalls) hfrozen hgrounded hhas (has_prim _ _)
        hfinite (.single hcall) 100 b T2 hask
    have htrue := hright .number true (has_prim _ _) hfirst
    have hfalse := hright (nested 2).1 false htwo hsecond
    exact absurd (hfalse.mpr (htrue.mp rfl)) (by simp)
  · exact ⟨selfBound, .made 0, .number, resolved_selfBound, has_selfBound, has_prim _ _,
      meetsFinitely_selfBound, isAssignableTo_selfBound⟩

end Table

end ShapeCheck
