import ShapeCheck.Proofs.SplitMembers
import ShapeCheck.Proofs.StandIns
import ShapeCheck.Proofs.Overlays
import ShapeCheck.Proofs.Keys
import ShapeCheck.Check.Access

/-!
# Narrowing by assignment

An assigned variable is narrowed to the members of its type that the assigned type fits, part by
part. The parts that fit no member alone get lost: `boolean`, whose halves are members of their own,
and a reference to a union. If there are no such parts, the variable has a type that the assigned
type fits.

* `Access.narrowAfterAssignment_cases` says which type the variable gets.
* `Access.select_spec` says which members are kept.
* `Access.accepts_narrowAfterAssignment` is the result.
-/

namespace ShapeCheck

open Relation (ReflTransGen)
open Table

/-! ## A run -/

theorem Scopes.lookup_bind_self {σ : Scopes} {e : Nat} (h : σ.framesOf e ≠ [])
    (x : String) (t : Ty) :
    (σ.bind e x t).lookup e x = some t := by
  rw [bind_eq_narrowing, lookup_narrowing h, Bindings.lookup_put_self]
  rfl

namespace Access

variable {w : Walker} {s s' : Session} {x : String} {decl : ValueDecl} {a : Ty}

/-- The type that a variable has when it is assigned. -/
def current (w : Walker) (s : Session) (x : String) (decl : ValueDecl) : Ty :=
  (s.scopes.lookup w.environment x).getD decl.type

/-- What is left of the current type: the members that some part of the assigned type fits. -/
def KeepsFitting (w : Walker) (c q a : Ty) (T T2 : Table) (t : Ty) : Prop :=
  ∃ T1 r T3 ms T4 u, a.isAssignableTo c w.steps T = some (true, T1) ∧
    a.resolve w.steps T1 = some (r, T3) ∧
    Ty.select (someFits (T3.members r)) (Ty.splitMembers T3 q) w.steps T3 = some (ms, T4) ∧
    Ty.unionOf ms T4 = (u, T2) ∧ t = if u = .never then c else u

/-- An assigned variable gets its declared type, unless the assigned type fits the current one. -/
theorem narrowAfterAssignment_cases {v : Unit}
    (hrun : narrowAfterAssignment x decl a w s = some (v, s')) :
    ∃ q T1 t T2, (current w s x decl).resolve w.steps s.table = some (q, T1) ∧
      s' = { s with table := T2, scopes := s.scopes.bind w.environment x t } ∧
      (t = decl.type ∧ (T2 = T1 ∨ a.isAssignableTo (current w s x decl) w.steps T1 =
        some (false, T2)) ∨
        q.isTop = false ∧ KeepsFitting w (current w s x decl) q a T1 T2 t) := by
  unfold narrowAfterAssignment at hrun
  obtain ⟨o, s0, hlookup, hrun⟩ := Check.bind_eq_some.1 hrun
  obtain ⟨rfl, rfl⟩ := Prod.mk.inj (Option.some.inj hlookup)
  obtain ⟨q, s1, hresolve, hrun⟩ := Check.bind_eq_some.1 hrun
  obtain ⟨T1, hq, rfl⟩ := Check.typing_eq_some.mp hresolve
  refine ⟨q, T1, ?_⟩
  split at hrun
  · obtain ⟨-, rfl⟩ := Prod.mk.inj (Option.some.inj hrun)
    exact ⟨_, _, hq, rfl, .inl ⟨rfl, .inl rfl⟩⟩
  · next htop =>
    obtain ⟨b, s2, hask, hrun⟩ := Check.bind_eq_some.1 hrun
    obtain ⟨T2, hb, rfl⟩ := Check.typing_eq_some.mp hask
    cases b with
    | false =>
      obtain ⟨-, rfl⟩ := Prod.mk.inj (Option.some.inj hrun)
      exact ⟨_, _, hq, rfl, .inl ⟨rfl, .inr hb⟩⟩
    | true =>
      rw [if_pos rfl] at hrun
      obtain ⟨r, s3, hresolve, hrun⟩ := Check.bind_eq_some.1 hrun
      obtain ⟨T3, hr, rfl⟩ := Check.typing_eq_some.mp hresolve
      obtain ⟨T, s4, htable, hrun⟩ := Check.bind_eq_some.1 hrun
      obtain ⟨rfl, rfl⟩ := Prod.mk.inj (Option.some.inj htable)
      obtain ⟨T, s4, htable, hrun⟩ := Check.bind_eq_some.1 hrun
      obtain ⟨rfl, rfl⟩ := Prod.mk.inj (Option.some.inj htable)
      obtain ⟨ms, s4, hselect, hrun⟩ := Check.bind_eq_some.1 hrun
      obtain ⟨T4, hms, rfl⟩ := Check.typing_eq_some.mp hselect
      obtain ⟨u, s5, hunion, hrun⟩ := Check.bind_eq_some.1 hrun
      obtain ⟨T5, hu, rfl⟩ := Check.typing_eq_some.mp hunion
      obtain ⟨-, rfl⟩ := Prod.mk.inj (Option.some.inj hrun)
      exact ⟨_, _, hq, rfl, .inr ⟨by simp_all, _, _, _, _, _, _, hb, hr, hms,
        Option.some.inj hu, rfl⟩⟩

/-! ## The members that are kept -/

section Selecting

variable {T T1 : Table} {parts ms kept : List Ty} {m : Ty} {n : Nat}

/-- One of the parts fits the member, now and later. -/
theorem someFits_spec {b : Bool} (hT : T.Resolved) (hparts : ∀ p ∈ parts, T.Has p) (hm : T.Has m)
    (hrun : someFits parts m n T = some (b, T1)) : ReflTransGen Table.Called T T1 ∧
      ∀ U : Table, U.Sound → T1 ≤ U → (b = true ↔ ∃ p ∈ parts, Assign.Lasts U p m) := by
  unfold someFits at hrun
  induction parts generalizing T with
  | nil =>
    obtain ⟨rfl, rfl⟩ := Prod.mk.inj (Option.some.inj hrun)
    exact ⟨.refl, by simp⟩
  | cons p parts ih =>
    unfold Assign.any at hrun
    obtain ⟨c, T', hask, hrun⟩ := Typing.bind_some hrun
    have hp := hparts p List.mem_cons_self
    have hcall := Table.Called.assignable hp hm hask
    have hle := (hT.truthful.called hcall).1.le
    cases c with
    | true =>
      obtain ⟨rfl, rfl⟩ := Prod.mk.inj (Option.some.inj hrun)
      refine ⟨.single hcall, fun U hU hleU => iff_of_true rfl ⟨p, List.mem_cons_self, ?_⟩⟩
      exact (hT.asked_iff hp hm hask hU hleU).mp rfl
    | false =>
      obtain ⟨hcalls, hiff⟩ := ih (hT.call hcall)
        (fun q hq => has_of_le hle (hparts q (List.mem_cons_of_mem p hq)))
        (has_of_le hle hm) hrun
      refine ⟨.head hcall hcalls, fun U hU hleU => (hiff U hU hleU).trans ?_⟩
      have hleT' := (((hT.call hcall).truthful.succeeds hcalls).1.le).trans hleU
      have hno : ¬Assign.Lasts U p m := fun h => by
        simpa using (hT.asked_iff hp hm hask hU hleT').mpr h
      simp [hno]

/-- The members are kept that one of the parts fits. -/
theorem select_spec (hT : T.Resolved) (hparts : ∀ p ∈ parts, T.Has p) (hms : ∀ m ∈ ms, T.Has m)
    (hrun : Ty.select (someFits parts) ms n T = some (kept, T1)) :
    ReflTransGen Table.Called T T1 ∧
      ∀ m, m ∈ kept ↔ m ∈ ms ∧ ∃ p ∈ parts, Assign.Lasts T1 p m := by
  induction ms generalizing T kept with
  | nil =>
    obtain ⟨rfl, rfl⟩ := Prod.mk.inj (Option.some.inj hrun)
    exact ⟨.refl, by simp⟩
  | cons m ms ih =>
    unfold Ty.select at hrun
    obtain ⟨b, T', htest, hrun⟩ := Typing.bind_some hrun
    obtain ⟨hcalls, hiff⟩ := someFits_spec hT hparts (hms m List.mem_cons_self) htest
    have hle := (hT.truthful.succeeds hcalls).1.le
    have hrest {ks : List Ty} (hselect : Ty.select (someFits parts) ms n T' = some (ks, T1)) :=
      ih (hT.calls hcalls) (fun p hp => has_of_le hle (hparts p hp))
        (fun k hk => has_of_le hle (hms k (List.mem_cons_of_mem m hk))) hselect
    have hlater := fun hcalls' : ReflTransGen Table.Called T' T1 =>
      hiff T1 ((hT.calls hcalls).calls hcalls').truthful.sound
        ((hT.calls hcalls).truthful.succeeds hcalls').1.le
    cases b with
    | true =>
      obtain ⟨ks, T'', hselect, hrun⟩ := Typing.bind_some hrun
      obtain ⟨rfl, rfl⟩ := Prod.mk.inj (Option.some.inj hrun)
      obtain ⟨hcalls', hmem⟩ := hrest hselect
      refine ⟨hcalls.trans hcalls', fun k => ?_⟩
      have hm := (hlater hcalls').mp rfl
      simp only [List.mem_cons, hmem]
      constructor
      · rintro (rfl | ⟨hk, hfits⟩)
        · exact ⟨.inl rfl, hm⟩
        · exact ⟨.inr hk, hfits⟩
      · rintro ⟨rfl | hk, hfits⟩
        · exact .inl rfl
        · exact .inr ⟨hk, hfits⟩
    | false =>
      obtain ⟨hcalls', hmem⟩ := hrest hrun
      refine ⟨hcalls.trans hcalls', fun k => (hmem k).trans ?_⟩
      have hm := mt (hlater hcalls').mpr (by simp)
      simp only [List.mem_cons]
      constructor
      · rintro ⟨hk, hfits⟩
        exact ⟨.inr hk, hfits⟩
      · rintro ⟨rfl | hk, hfits⟩
        · exact absurd hfits hm
        · exact ⟨hk, hfits⟩

end Selecting

/-! ## No part gets lost -/

section Parts

open Assign

variable {T : Table} {r q p : Ty} {ms : List Ty}

/-- The parts of one type fit members of another one by one: if there are several, none of them is
`boolean` or has something to be resolved, and only plain types meet a `boolean`. -/
structure Separates (T : Table) (r q : Ty) : Prop where
  proper : r.isTop = false ∧ r ≠ .never
  parts : ∀ ms, T.shape r = .union ms → ∀ p ∈ ms, Ty.hasOpenHead T p = false ∧ p ≠ .boolean ∧
    (.boolean ∈ T.members q → (T.shape p).isPlain = true)

/-- Only truth values are plain types that fit `boolean`. -/
theorem eq_truth_of_boolean (hT : T.Sound) (hplain : (T.shape p).isPlain = true)
    (hproper : p.isTop = false ∧ p ≠ .never) (hne : p ≠ .boolean) (h : Lasts T p .boolean) :
    ∃ b, p = .truth b := by
  have hid : byIdentity p .boolean = none := by
    have hfalse := h.not_false hT
    simp only [Ty.isTop, Bool.or_eq_false_iff, decide_eq_false_iff_not] at hproper
    simp_all [byIdentity, Ty.boolean, Ty.any, Ty.invalid, Ty.unknown, Ty.never]
  have hlayer := h.unfolds hT (R := Lasts) fun _ _ _ => id
  have hboolean : T.shape .boolean = .primitive .boolean := rfl
  cases hs : T.shape p with
  | literal l =>
    have hbase := (unfolds_byAtom (v := l.base = .boolean) hid hplain rfl (by simp [hboolean])
      (by simp [byAtom, hs, hboolean])).mp hlayer
    cases l with
    | boolean b => exact ⟨b, eq_truth_of_shape hT.wellFormed hs⟩
    | _ => simp [Literal.base] at hbase
  | _ =>
    have hfalse := (unfolds_byAtom (v := false) hid hplain rfl (by simp [hboolean])
      (by simp [byAtom, hs, hboolean])).mp hlayer
    exact absurd hfalse (by simp)

/-- A part of a union fits a member of what the union fits. -/
theorem exists_member (hT : T.Sound) (h : Separates T r q)
    (hr : T.shape r = .union ms) (hp : p ∈ ms)
    (hq : Ty.hasOpenHead T q = false) (hfits : Lasts T r q) :
    ∃ m ∈ Ty.splitMembers T q, Lasts T p m := by
  obtain ⟨hclosed, hne, hplain⟩ := h.parts ms hr p hp
  have hcanonical := hT.wellFormed.canonical_union hr
  have hproper := proper_of_canonical hcanonical hp
  have hsingle := hT.wellFormed.not_isUnion hr hp
  have hmember : ∃ m ∈ T.members q, Lasts T p m := by
    by_cases heq : r = q
    · subst heq
      exact ⟨p, by simpa [members_of_union hr] using hp, lasts_self T p⟩
    have hpq := hfits.sourceMember hT hr (not_isReference_of_closed hq) heq hp
    by_cases hunion : (T.shape q).IsUnion
    · obtain ⟨ks, hks⟩ := hunion
      have hid : byIdentity p q = none := by
        have hfalse := hpq.not_false hT
        have hprim : ∀ u, q ≠ .prim u := by
          rintro u rfl
          simp [Table.shape] at hks
        have hpq : p ≠ q := by
          rintro rfl
          exact hsingle ⟨ks, hks⟩
        simp only [Ty.isTop, Bool.or_eq_false_iff, decide_eq_false_iff_not] at hproper
        simp_all [byIdentity, Ty.any, Ty.invalid, Ty.unknown, Ty.never]
      rcases (unfolds_targetUnion hid hclosed hsingle hks).mp (hpq.unfolds hT fun _ _ _ => id) with
        ⟨hboolean, -⟩ | ⟨m, hm, hpm⟩
      · exact absurd hboolean hne
      · exact ⟨m, by simpa [members_of_union hks] using hm, hpm⟩
    · exact ⟨q, by simp [members_of_not_isUnion hunion], hpq⟩
  obtain ⟨m, hm, hpm⟩ := hmember
  by_cases hboolean : m = .boolean
  · subst hboolean
    obtain ⟨b, rfl⟩ := eq_truth_of_boolean hT (hplain hm) hproper hne hpm
    exact ⟨.truth b, List.mem_flatMap.mpr ⟨_, hm, by cases b <;> simp⟩, lasts_self T _⟩
  · exact ⟨m, Ty.mem_splitMembers hm hboolean, hpm⟩

/-- Every part of the assigned type fits a member that is kept, if there are any. -/
theorem exists_kept {T1 : Table} {kept : List Ty} (hT : T.Sound) (h : Separates T r q)
    (hle : T ≤ T1) (hrclosed : Ty.hasOpenHead T r = false) (hqclosed : Ty.hasOpenHead T q = false)
    (hfits : Lasts T r q) (hsome : kept ≠ [])
    (hkept : ∀ m, m ∈ kept ↔ m ∈ Ty.splitMembers T q ∧ ∃ p ∈ T.members r, Lasts T1 p m)
    (hp : p ∈ T.members r) : (p.isTop = false ∧ p ≠ .never) ∧ Ty.hasOpenHead T p = false ∧
      ¬(T.shape p).IsUnion ∧ ∃ m ∈ kept, Lasts T1 p m := by
  by_cases hunion : (T.shape r).IsUnion
  · obtain ⟨ms, hms⟩ := hunion
    have hpms : p ∈ ms := by simpa [members_of_union hms] using hp
    have hcanonical := hT.wellFormed.canonical_union hms
    obtain ⟨m, hm, hpm⟩ := exists_member hT h hms hpms hqclosed hfits
    exact ⟨proper_of_canonical hcanonical hpms, (h.parts ms hms p hpms).1,
      hT.wellFormed.not_isUnion hms hpms, m,
      (hkept m).mpr ⟨hm, p, hp, hpm.of_le hle⟩, hpm.of_le hle⟩
  · rw [members_of_not_isUnion hunion, List.mem_singleton] at hp
    subst hp
    obtain ⟨m, hm⟩ := List.exists_mem_of_ne_nil kept hsome
    obtain ⟨-, k, hk, hkm⟩ := (hkept m).mp hm
    rw [members_of_not_isUnion hunion, List.mem_singleton] at hk
    exact ⟨h.proper, hrclosed, hunion, m, hm, hk ▸ hkm⟩

/-- The union of the members that are kept takes every part. -/
theorem part_kept {T1 T2 : Table} {kept : List Ty} {u : Ty} {n : Nat}
    (hT : T.Resolved) (hr : T.Has r)
    (hq : T.Has q)
    (hselect : Ty.select (someFits (T.members r)) (Ty.splitMembers T q) n T = some (kept, T1))
    (hunion : Ty.unionOf kept T1 = (u, T2)) : ReflTransGen Table.Called T T2 ∧ T2.Has u ∧
      (u ≠ .never → Separates T r q → Ty.hasOpenHead T r = false → Ty.hasOpenHead T q = false →
        Lasts T r q → ∀ p ∈ T.members r, Part T2 p u) := by
  have hwf := hT.truthful.sound.wellFormed
  have hparts : ∀ p ∈ T.members r, T.Has p := fun p hp => hwf.has_member hr hp
  have hsplit : ∀ m ∈ Ty.splitMembers T q, T.Has m := fun m hm => Ty.has_splitMembers hwf hq hm
  obtain ⟨hcalls, hkept⟩ := select_spec hT hparts hsplit hselect
  have h1 := hT.calls hcalls
  have hle := (hT.truthful.succeeds hcalls).1.le
  have hms : ∀ m ∈ kept, T1.Has m := fun m hm => has_of_le hle (hsplit m ((hkept m).mp hm).1)
  obtain ⟨hcall, hu⟩ := called_unionOf h1.truthful.sound.wellFormed hms hunion
  refine ⟨hcalls.tail hcall, hu, fun hnever hseparates hrclosed hqclosed hfits p hp => ?_⟩
  have hsome : kept ≠ [] := by
    rintro rfl
    refine hnever ?_
    rw [Interning.unionOf_single (m := .never) rfl] at hunion
    exact (Prod.mk.inj hunion).1.symm
  obtain ⟨hproper, hclosed, hsingle, m, hm, hpm⟩ :=
    exists_kept hT.truthful.sound hseparates hle hrclosed hqclosed hfits hsome hkept hp
  have hmsplit := ((hkept m).mp hm).1
  refine part_unionOf h1.truthful.sound hms hunion hm ?_ hpm
    (has_of_le hle (hparts p hp)) hproper
    ((Ty.hasOpenHead_of_le hwf hle (hparts p hp)).trans hclosed) ?_
  · exact (members_of_le hle (hsplit m hmsplit)).trans (Ty.flat_of_splitMembers hwf hmsplit)
  · rwa [shape_of_le hle (hparts p hp)]

end Parts

/-- What is left of the current type takes the assigned type. -/
theorem KeepsFitting.fits {T T1 T2 : Table} {c q t : Ty} (hT : T.Resolved)
    (ha : T.Has a) (hc : T.Has c)
    (hopen : (T.shape c).isReference = true ∨ Ty.hasOpenHead T c = false)
    (hseparates : ∀ (U : Table) r q, U.Sound → T ≤ U → U.ResolvesTo a r → U.ResolvesTo c q →
      Separates U r q)
    (hq : c.resolve w.steps T = some (q, T1)) (h : KeepsFitting w c q a T1 T2 t) :
    ReflTransGen Table.Called T T2 ∧ T2.Has t ∧
      ∀ U, U.Sound → T2 ≤ U → Assign.Holds U a t := by
  obtain ⟨Tₐ, r, T3, kept, T4, u, hask, hr, hselect, hunion, rfl⟩ := h
  have hcall1 : T.Called T1 := .resolve hc hq
  have h1 := hT.call hcall1
  have hle1 := (hT.truthful.called hcall1).1.le
  have ha1 := has_of_le hle1 ha
  have hc1 := has_of_le hle1 hc
  have hcallₐ : T1.Called Tₐ := .assignable ha1 hc1 hask
  have hₐ := h1.call hcallₐ
  have hleₐ := (h1.truthful.called hcallₐ).1.le
  have haₐ := has_of_le hleₐ ha1
  have hcall3 : Tₐ.Called T3 := .resolve haₐ hr
  have h3 := hₐ.call hcall3
  have hle3 := (hₐ.truthful.called hcall3).1.le
  have hsound3 := h3.truthful.sound
  -- what the two types stand for, when the members are selected
  have hr3 := hₐ.truthful.sound.resolvesTo haₐ hr
  have hrhas := hr3.has hsound3 (has_of_le hle3 haₐ)
  have hrclosed := hₐ.closed_resolve haₐ hr
  have hq1 := hT.truthful.sound.resolvesTo hc hq
  have hqhas := hq1.has h1.truthful.sound hc1
  have hq3 := hq1.of_le h1.truthful.sound hc1 (hleₐ.trans hle3)
  have hqclosed := (Ty.hasOpenHead_of_le h1.truthful.sound.wellFormed (hleₐ.trans hle3) hqhas).trans
    (hT.closed_resolve hc hq)
  have hlasts := (h1.lasts_of_true ha1 hc1 hask).of_le hle3
  have hfits : Assign.Lasts T3 r q := by
    refine hlasts.resolves hsound3 hr3 hq3 hrclosed hqclosed
      (hopen.imp (fun href => ?_) fun hclosed => ?_)
    · rwa [shape_of_le ((hle1.trans hleₐ).trans hle3) hc]
    · rw [Ty.resolve_closed _ hclosed] at hq
      exact (Prod.mk.inj (Option.some.inj hq)).1
  obtain ⟨hcalls, hu, hparts⟩ :=
    part_kept h3 hrhas (has_of_le (hleₐ.trans hle3) hqhas) hselect hunion
  have hle2 := (h3.truthful.succeeds hcalls).1.le
  refine ⟨(((ReflTransGen.single hcall1).tail hcallₐ).tail hcall3).trans hcalls, ?_,
    fun U _ hleU => ?_⟩
  · split
    · exact has_of_le ((hleₐ.trans hle3).trans hle2) hc1
    · exact hu
  have hleU3 := hle2.trans hleU
  split
  · exact (hlasts.of_le hleU3).holds
  · next hnever =>
    refine Assign.Whole.holds ⟨r, hr3.of_le hsound3 (has_of_le hle3 haₐ) hleU3,
      (Ty.hasOpenHead_of_le hsound3.wellFormed hleU3 hrhas).trans hrclosed, fun p hp => ?_⟩
    rw [members_of_le hleU3 hrhas] at hp
    have hpart := hparts hnever
      (hseparates T3 r q hsound3 ((hle1.trans hleₐ).trans hle3) hr3 hq3)
      hrclosed hqclosed hfits p hp
    exact hpart.of_le (h3.calls hcalls).truthful.sound.wellFormed
      (has_of_le hle2 (hsound3.wellFormed.has_member hrhas hp)) hu hleU

/-- **An assigned variable has a type that the assigned type fits**, from then on, if no part of
that type gets lost. -/
theorem accepts_narrowAfterAssignment {T0 T : Table} {n : Nat} {v : Unit} (h0 : T0.Resolved)
    (hframe : s.scopes.framesOf w.environment ≠ []) (ha : T0.Has a) (hdecl : T0.Has decl.type)
    (hfits : a.isAssignableTo decl.type n T0 = some (true, s.table))
    (hc : s.table.Has (current w s x decl))
    (hopen : (s.table.shape (current w s x decl)).isReference = true ∨
      Ty.hasOpenHead s.table (current w s x decl) = false)
    (hseparates : ∀ (U : Table) r q, U.Sound → s.table ≤ U → U.ResolvesTo a r →
      U.ResolvesTo (current w s x decl) q → Separates U r q)
    (hrun : narrowAfterAssignment x decl a w s = some (v, s'))
    (hcalls : ReflTransGen Table.Called s'.table T) :
    ∃ t, s'.scopes.lookup w.environment x = some t ∧ T.Accepts a t := by
  have hT := h0.call (.assignable ha hdecl hfits)
  have hle0 := (h0.truthful.called (.assignable ha hdecl hfits)).1.le
  have hdeclared := h0.lasts_of_true ha hdecl hfits
  replace ha := has_of_le hle0 ha
  replace hdecl := has_of_le hle0 hdecl
  obtain ⟨q, T1, t, T2, hq, rfl, hcases⟩ := narrowAfterAssignment_cases hrun
  refine ⟨t, Scopes.lookup_bind_self hframe x t, ?_⟩
  obtain ⟨hreach, ht, hholds⟩ : ReflTransGen Table.Called s.table T2 ∧ T2.Has t ∧
      ∀ U, U.Sound → T2 ≤ U → Assign.Holds U a t := by
    rcases hcases with ⟨rfl, hT2⟩ | ⟨-, hkeeps⟩
    · have hcall1 : s.table.Called T1 := .resolve hc hq
      have h1 := hT.call hcall1
      have hle1 := (hT.truthful.called hcall1).1.le
      have hreach : ReflTransGen Table.Called s.table T2 := by
        rcases hT2 with rfl | hask
        · exact .single hcall1
        · exact .tail (.single hcall1)
            (.assignable (has_of_le hle1 ha) (has_of_le hle1 hc) hask)
      have hle := (hT.truthful.succeeds hreach).1.le
      exact ⟨hreach, has_of_le hle hdecl, fun U _ hleU =>
        (hdeclared.of_le (hle.trans hleU)).holds⟩
    · exact hkeeps.fits hT ha hc hopen hseparates hq
  have hle := (hT.truthful.succeeds hreach).1.le
  exact (hT.calls hreach).accepts (has_of_le hle ha) ht hholds hcalls

/-- A session with one variable. -/
def declaring (T : Table) (x : String) (decl : ValueDecl) : Session :=
  { table := T, scopes := { environments := #[{ frames := [{ values := [(x, decl)] }] }] } }

/-- Whether a type fits the declared one of a variable, and the session after it was assigned. -/
def assigning (T : Table) (x : String) (decl : ValueDecl) (a : Ty) : Option (Bool × Session) :=
  (a.isAssignableTo decl.type 9 T).bind fun p =>
    (narrowAfterAssignment x decl a { steps := 9 } (declaring p.2 x decl)).map fun q => (p.1, q.2)

end Access

namespace Table

/-- Numbers or strings, and the numbers zero and one. -/
def digits : Table :=
  ((Ty.literalOf (.number (.ofNat 1))) ((Ty.literalOf (.number (.ofNat 0))) uniting).2).2

/-- The same table with the union of the two numbers, frozen. -/
def bits : Table := (Alias.freeze (digits.push ⟨.union [.made 1, .made 2], "U:65,66", "0 | 1"⟩)).2

theorem facts_digits : digits.shape (.made 1) ≠ .primitive .invalid ∧
    digits.shape (.made 2) ≠ .primitive .invalid ∧ digits.aliases = [] ∧
    Ty.unionMembers digits [.made 1, .made 2] = [.made 1, .made 2] ∧
    [Ty.made 1, .made 2].Pairwise (fun a b => digits.inOrder a b = true) ∧
    digits.find? "U:65,66" = none ∧ digits.shapeText (.union [.made 1, .made 2]) = "0 | 1" := by
  with_unfolding_all decide

theorem resolved_bits : bits.Resolved := by
  obtain ⟨h1, h2, hnone, hmembers, hordered, hnew, htext⟩ := facts_digits
  have hdigits : digits.Prepared :=
    .call (prepared_uniting.call (.construct (.literal (.number (.ofNat 0)))
    (by simp [Construction.inputs])
      trivial)) (.construct (.literal (.number (.ofNat 1))) (by simp [Construction.inputs]) trivial)
  exact (hdigits.push_union (Interning.forall_mem_pair (has_of_shape h1) (has_of_shape h2)) hmembers
    (by decide) hordered key_chosen hnew htext).frozen hnone

/-- What is to be computed about the finished table. -/
theorem facts_bits : bits.shape (.made 0) = .union [.number, .string] ∧
    bits.shape (.made 1) = .literal (.number (.ofNat 0)) ∧
    bits.shape (.made 2) = .literal (.number (.ofNat 1)) ∧
    bits.shape (.made 3) = .union [.made 1, .made 2] := by
  with_unfolding_all decide

end Table

namespace Access

/-- No part of zero or one gets lost among numbers and strings. -/
theorem separates_bits {U : Table} {r q : Ty} (hle : Table.bits ≤ U) (hr : U.ResolvesTo (.made 3) r)
    (hq : U.ResolvesTo (.made 0) q) : Separates U r q := by
  obtain ⟨h0, h1, h2, h3⟩ := Table.facts_bits
  have hshape {t : Ty} {sh : Shape} (h : Table.bits.shape t = sh) (hne : sh ≠ .primitive .invalid) :
      U.shape t = sh := (shape_of_le hle (Table.has_of_shape (h ▸ hne))).trans h
  replace h0 := hshape h0 (by simp)
  replace h1 := hshape h1 (by simp)
  replace h2 := hshape h2 (by simp)
  replace h3 := hshape h3 (by simp)
  obtain rfl := hr.unique (resolvesTo_of_closed (by rw [Ty.hasOpenHead, h3]))
  obtain rfl := hq.unique (resolvesTo_of_closed (by rw [Ty.hasOpenHead, h0]))
  refine ⟨by decide, fun ms hms p hp => ?_⟩
  obtain rfl : [Ty.made 1, .made 2] = ms := Shape.union.inj (h3.symm.trans hms)
  obtain ⟨l, hl, hne⟩ : ∃ l, U.shape p = .literal l ∧ p ≠ .boolean := by
    simp only [List.mem_cons, List.not_mem_nil, or_false] at hp
    rcases hp with rfl | rfl
    · exact ⟨_, h1, by decide⟩
    · exact ⟨_, h2, by decide⟩
  exact ⟨by rw [Ty.hasOpenHead, hl], hne, fun _ => by rw [hl]; rfl⟩

/-- A variable for numbers or strings to which zero or one is assigned holds a number. -/
theorem accepts_narrowAfterAssignment_bits : ∃ s' : Session,
    s'.scopes.lookup 0 "x" = some .number ∧ s'.table.Accepts (.made 3) .number := by
  let decl : ValueDecl := ⟨.made 0, false⟩
  have hresult : (assigning Table.bits "x" decl (.made 3)).map
      (fun p => (p.1, p.2.scopes.lookup 0 "x")) = some (true, some .number) := by decide +kernel
  obtain ⟨⟨b, s'⟩, hassigning, hresult⟩ := Option.map_eq_some_iff.mp hresult
  obtain ⟨rfl, hlookup⟩ := Prod.mk.inj hresult
  obtain ⟨⟨b, T1⟩, hfits, hnarrow⟩ := Option.bind_eq_some_iff.mp hassigning
  obtain ⟨⟨⟨⟩, s''⟩, hrun, hsame⟩ := Option.map_eq_some_iff.mp hnarrow
  obtain ⟨rfl, rfl⟩ := Prod.mk.inj hsame
  obtain ⟨h0, -, -, h3⟩ := Table.facts_bits
  have ha : Table.bits.Has (.made 3) := Table.has_of_shape (by simp [h3])
  have hd : Table.bits.Has (.made 0) := Table.has_of_shape (by simp [h0])
  have hle := (Table.resolved_bits.truthful.asked ha hd hfits).1.le
  have hclosed : Ty.hasOpenHead T1 (.made 0) = false := by
    rw [Ty.hasOpenHead, shape_of_le hle hd, h0]
  obtain ⟨t, ht, haccepts⟩ := accepts_narrowAfterAssignment (w := { steps := 9 })
    (s := declaring T1 "x" decl) (x := "x") Table.resolved_bits
    (by simp [Scopes.framesOf, declaring])
    ha hd hfits (has_of_le hle hd) (.inr hclosed)
    (fun U r q _ hleU hr hq => separates_bits (hle.trans hleU) hr hq) hrun .refl
  obtain rfl := Option.some.inj (ht.symm.trans hlookup)
  exact ⟨s'', hlookup, haccepts⟩

end Access

/-- The key of a union depends on the set of its members. -/
theorem Shape.key_union_congr {ms ns : List Ty} (hms : ms.Nodup) (hns : ns.Nodup)
    (h : ∀ t, t ∈ ms ↔ t ∈ ns) : (Shape.union ms).key = (Shape.union ns).key := by
  rw [Shape.key, Shape.key, Shape.spelling, Shape.spelling, (Key.idSet_eq_iff hms hns).mpr h]

namespace Table

/-- The type `boolean | number | string`, alone in a table. -/
def flag : Table :=
  ({} : Table).push ⟨.union [.boolean, .number, .string], "U:1,2,3", "boolean | number | string"⟩

/-- The same table with the type `boolean | number`, frozen. -/
def flags : Table :=
  (Alias.freeze (flag.push ⟨.union [.boolean, .number], "U:1,3", "boolean | number"⟩)).2

/-- What is to be computed about the first union, before it is there. -/
theorem facts_empty : ({} : Table).find? "U:1,2,3" = none ∧
    Ty.unionMembers {} [.boolean, .number, .string] = [.boolean, .number, .string] ∧
    [Ty.boolean, .number, .string].Pairwise (fun a b => ({} : Table).inOrder a b = true) := by
  with_unfolding_all decide

/-- What is to be computed about the second union, before it is there. -/
theorem facts_flag : flag.aliases = [] ∧ flag.find? "U:1,3" = none ∧
    Ty.unionMembers flag [.boolean, .number] = [.boolean, .number] ∧
    [Ty.boolean, .number].Pairwise (fun a b => flag.inOrder a b = true) := by
  with_unfolding_all decide

theorem resolved_flags : flags.Resolved := by
  have hthree : (Shape.union [.boolean, .number, .string]).key = "U:1,2,3" := calc
    _ = (Shape.union [.number, .string, .boolean]).key :=
      Shape.key_union_congr (by decide) (by decide) (by simp; grind)
    _ = _ := Shape.key_union_ordered (by decide)
  have htwo : (Shape.union [.boolean, .number]).key = "U:1,3" := calc
    _ = (Shape.union [.number, .boolean]).key :=
      Shape.key_union_congr (by decide) (by decide) (by simp; grind)
    _ = _ := Shape.key_union_ordered (by decide)
  obtain ⟨hnew, hmembers, hordered⟩ := facts_empty
  have hflag : flag.Prepared :=
    Prepared.empty.push_union (by simp [Ty.boolean, Ty.number, Ty.string]) hmembers
    (by decide) hordered
      hthree hnew rfl
  obtain ⟨hnone, hnew', hmembers', hordered'⟩ := facts_flag
  exact (hflag.push_union (by simp [Ty.boolean, Ty.number]) hmembers'
    (by decide) hordered' htwo hnew'
    rfl).frozen hnone

end Table

namespace Access

/-- **An assigned type need not fit the variable afterwards**: `boolean` fits neither of its halves,
so after `boolean | number` was assigned to a `boolean | number | string` it is taken for a
number. -/
theorem not_accepts_narrowAfterAssignment_boolean :
    ∃ (T : Table) (s' : Session) (t : Ty), T.Resolved ∧
    T.shape (.made 0) = .union [.boolean, .number, .string] ∧
    T.shape (.made 1) = .union [.boolean, .number] ∧
    assigning T "x" ⟨.made 0, false⟩ (.made 1) = some (true, s') ∧
    s'.scopes.lookup 0 "x" = some t ∧
    ((Ty.made 1).isAssignableTo t 9 s'.table).map Prod.fst = some false := by
  have hresult : (assigning Table.flags "x" ⟨.made 0, false⟩ (.made 1)).map (fun p =>
      (p.1, p.2.scopes.lookup 0 "x", ((Ty.made 1).isAssignableTo .number 9 p.2.table).map Prod.fst))
        =
        some (true, some .number, some false) := by decide +kernel
  obtain ⟨⟨b, s'⟩, hassigning, hresult⟩ := Option.map_eq_some_iff.mp hresult
  simp only [Prod.mk.injEq] at hresult
  obtain ⟨rfl, hlookup, hanswer⟩ := hresult
  obtain ⟨hdeclared, hassigned⟩ : Table.flags.shape (.made 0) =
    .union [.boolean, .number, .string] ∧
      Table.flags.shape (.made 1) = .union [.boolean, .number] := by with_unfolding_all decide
  exact ⟨Table.flags, s', .number, Table.resolved_flags, hdeclared, hassigned, hassigning, hlookup,
    hanswer⟩

end Access

end ShapeCheck
