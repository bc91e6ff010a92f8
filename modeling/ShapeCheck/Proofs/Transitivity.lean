import ShapeCheck.Proofs.FirstOrderDecision
import ShapeCheck.Proofs.Assignability

/-!
# Assignability is transitive on first-order types

Comparing first-order types decides what fits where, and what fits is transitive. A table may be
used for anything before, between and after the questions: types are made and resolved, aliases are
defined, and once the table is frozen its answers are kept. None of this changes what is said of a
first-order type, or makes an answer about such types wrong.

* `Table.Operated` is an operation on a table, `Table.Faithful` what holds after any of them.
* `Construction.firstOrder_run` says that the constructors make first-order types of such types.
* `Ty.isAssignableTo_trans` is transitivity.
-/

namespace ShapeCheck

open Relation (ReflTransGen)
open Interning

variable {T : Table} {c : Construction} {members : List (String × Ty)}

/-- A call of a constructor of first-order types. -/
def Construction.IsFirstOrder : Construction → Prop
  | literal _ | union _ | array _ _ | tuple _ => True
  | object m => (∀ f ∈ m.fields, f.optional = false ∧ Decimal.isNumeric f.name = false) ∧
    m.index = none ∧ m.calls = []
  | _ => False

/-- **The constructors make first-order types** of such types. -/
theorem Construction.firstOrder_run (hT : T.WellFormed)
    (hc : c.IsFirstOrder) (hin : ∀ t ∈ c.inputs, T.FirstOrder t) :
    (c.run T).2.FirstOrder (c.run T).1 := by
  have hgives : ∀ {s : Shape} {work : Interning Ty}, Interning.Gives T work s →
      (∀ T1 t, T1.WellFormed → T ≤ T1 → (T1.shape t).Alike Eq s → T1.FirstOrder t) →
      (work T).2.FirstOrder (work T).1 := by
    rintro s work ⟨t, T1, hat, -, halike⟩ hfirst
    rw [hat.result]
    exact hfirst T1 t hat.wellFormed hat.adds.le halike
  cases c with
  | literal l =>
    refine hgives (gives_literalOf hT l) fun T1 t _ _ halike => ?_
    cases hs : T1.shape t with
    | literal k => exact .literal hs
    | _ =>
      rw [hs] at halike
      exact halike.elim
  | union ts =>
    have hts : ∀ t ∈ ts, T.FirstOrder t := hin
    obtain ⟨w, T1, hat, hw, -⟩ := settles_union_fits hT hts
    rw [run, hat.result]
    exact hw
  | array element readonly =>
    have he := hin element (by simp [inputs])
    refine hgives (gives_arrayOf hT he.has readonly) fun T1 t _ hle halike => ?_
    cases hs : T1.shape t with
    | array e r =>
      rw [hs] at halike
      obtain ⟨rfl, -⟩ := halike
      exact .array hs (he.of_agrees (.of_le hle))
    | _ =>
      rw [hs] at halike
      exact halike.elim
  | tuple u =>
    refine hgives (gives_tupleOf hT fun t ht => (hin t ht).has)
      fun T1 t _ hle halike => ?_
    cases hs : T1.shape t with
    | tuple v =>
      rw [hs] at halike
      refine .tuple hs fun e he => (hin e ?_).of_agrees (.of_le hle)
      rw [Tuple.elements_eq_of_alike halike] at he
      simpa only [inputs, Tuple.elements, map_type_trailingOptional] using he
    | _ =>
      rw [hs] at halike
      exact halike.elim
  | object m =>
    obtain ⟨hplain, hindex, hcalls⟩ := hc
    refine hgives (gives_objectOf hT fun t ht => (hin t ht).has)
      fun T1 t hT1 hle halike => ?_
    cases hs : T1.shape t with
    | object n =>
      have htidy := hT1.tidy t
      rw [hs] at halike htidy
      have hfield : ∀ f ∈ n.fields, ∃ g ∈ m.fields, f.name = g.name ∧ f.type = g.type ∧
          f.optional = g.optional := by
        intro f hf
        obtain ⟨g, hg, hsame⟩ := Members.Alike.exists_field halike htidy hf
        exact ⟨g, (mem_foldl_putField m.fields hg).resolve_left (by simp), hsame⟩
      refine .object hs (fun f hf => ?_) (fun f hf => ?_) ?_ ?_
      · obtain ⟨g, hg, -, htype, -⟩ := hfield f hf
        rw [htype]
        exact (hin _ (Table.mem_parts_of_field hg)).of_agrees (.of_le hle)
      · obtain ⟨g, hg, hname, -, hoptional⟩ := hfield f hf
        rw [hname, hoptional]
        exact hplain g hg
      · have hrel := Members.Alike.index halike
        rw [hindex] at hrel
        cases hi : n.index with
        | none => rfl
        | some i =>
          rw [hi] at hrel
          cases hrel
      · have hrel := Members.Alike.calls halike
        rw [hcalls] at hrel
        exact List.forall₂_nil_right_iff.mp hrel
    | _ =>
      rw [hs] at halike
      exact halike.elim
  | _ => exact hc.elim

/-- The steps of giving members to an enum that is there. -/
theorem Interning.enumOf_again {T1 : Table} {name : String} {isConst : Bool} {e : Enumeration}
    (members : List (String × Ty)) {n : Nat}
    (hintern : Ty.intern (.enumeration { name, isConst }) T = (.made n, T1))
    (hshape : T1.shape (.made n) = .enumeration e) :
    (Ty.enumOf name isConst members T).2 =
      if e.members.isEmpty && !members.isEmpty then
        let added := (members.mapM fun p => Ty.add (.enumMember (.made n) p.1 p.2) :
          Interning (List Ty)) T1
        added.2.reshape n (.enumeration { e with members := added.1 })
      else T1 := by
  have hread : ((get : Interning Table) T1).1.shape (.made n) = .enumeration e := hshape
  rw [Ty.enumOf, bind_apply, hintern, bind_apply, hread]
  dsimp only
  cases e.members.isEmpty && !members.isEmpty with
  | false => rfl
  | true => rfl

namespace Table

/-- One operation on the first table leaves the second. -/
inductive Operated (T : Table) : Table → Prop
  | call {T1 : Table} (h : T.Called T1) : Operated T T1
  | rebind {T1 : Table} (h : T.Rebinds T1) : Operated T T1
  | define (name : String) {params : List TypeVar} {target : Ty} (hparams : ∀ v ∈ params, T.Knows v)
    (htarget : T.Has target) : Operated T (Alias.define name params target T).2
  | resolveAlias {T1 : Table} {name : String} {n : Nat} {p : Ty × Option AliasError}
    (hrun : Alias.resolve name n T = some (p, T1)) : Operated T T1
  | resolveAll {T1 : Table} {n : Nat} {errors : List AliasError}
    (hrun : Alias.resolveAll n T = some (errors, T1)) : Operated T T1
  | enumeration (name : String) (isConst : Bool) {members : List (String × Ty)}
    (hvalues : ∀ p ∈ members, T.Has p.2 ∧ (T.literal? p.2).isSome) :
    Operated T (Ty.enumOf name isConst members T).2
  | freeze : Operated T (Alias.freeze T).2

/-- What holds of a table after any operations: it is well-formed, and the answers it keeps about
first-order types are right. -/
structure Faithful (T : Table) : Prop where
  wellFormed : T.WellFormed
  kept : ∀ s t b, T.verdicts.lookup (s, t) = some b → T.Has s ∧ T.Has t ∧
    (T.FirstOrder s → T.FirstOrder t → (b = true ↔ T.Fits (T.shape s) (T.shape t)))

section Operations

variable {T1 : Table} {s t : Ty} {n : Nat} {b : Bool}

theorem Agrees.of_evolves (h : T.Evolves T1) : T.Agrees T1 := .of_shapes h.has h.shape

theorem Agrees.of_entries (h : T1.entries = T.entries) : T.Agrees T1 := by
  refine .of_shapes (fun {t} ht => ?_) fun {t} _ => ?_
  · rwa [Has, h]
  · cases t with
    | prim | truth => rfl
    | made k =>
      unfold Table.shape
      rw [h]

/-- An enum is entered if its name is new, and is given members if it has none. -/
theorem WellFormed.enumOf_cases (hT : T.WellFormed) (name : String) (isConst : Bool)
    (hvalues : ∀ p ∈ members, T.Has p.2 ∧ (T.literal? p.2).isSome) :
    ((Ty.enumOf name isConst members T).2.WellFormed ∧
    T.Adds (Ty.enumOf name isConst members T).2) ∨
      ∃ n entry e ms T2, T2.WellFormed ∧ T.Adds T2 ∧ T2.entries[n]? = some entry ∧
        entry.shape = .enumeration e ∧ (∀ m ∈ ms, T2.Has m) ∧
        (Ty.enumOf name isConst members T).2 =
        T2.reshape n (.enumeration { e with members := ms }) := by
  obtain ⟨t, T1, hat, ht, halike⟩ := settles_intern hT
    (s := .enumeration { name, isConst }) ⟨trivial,
    rfl, by simp [Shape.parts], by simp, by simp, by simp⟩
    fun _ => trivial
  obtain ⟨e, he⟩ : ∃ e, T1.shape t = .enumeration e := by
    cases hs : T1.shape t with
    | enumeration e => exact ⟨e, rfl⟩
    | _ =>
      rw [hs] at halike
      exact halike.elim
  obtain ⟨n, entry, rfl, hentry, hshape⟩ := exists_entry he (by simp) (by simp)
  rw [enumOf_again members hat.result he]
  split
  · obtain ⟨ms, T2, hadd, hT2, h2, hms⟩ := addMembers_spec (.made n) members
      hat.wellFormed ⟨e, he⟩ fun p hp => values_of_le hat.adds.le (hvalues p hp)
    have hhas : ∀ m ∈ ms, T2.Has m := by
      intro m hm
      obtain ⟨i, hi, rfl⟩ := List.mem_iff_getElem.mp hm
      obtain ⟨hlength, heach⟩ := List.forall₂_iff_get.mp hms
      exact (heach i hi (hlength ▸ hi)).1
    rw [hadd]
    exact .inr ⟨n, entry, e, ms, T2, hT2, hat.adds.trans h2,
      h2.le.entries n entry hentry, hshape, hhas,
      rfl⟩
  · exact .inl ⟨hat.wellFormed, hat.adds⟩

/-- Defining an enum gives members to it alone, also where its name is not new. -/
theorem Agrees.enumOf (hT : T.WellFormed) (name : String) (isConst : Bool)
    (hvalues : ∀ p ∈ members, T.Has p.2 ∧ (T.literal? p.2).isSome) :
    (Ty.enumOf name isConst members T).2.WellFormed ∧
    T.Agrees (Ty.enumOf name isConst members T).2 ∧
      (Ty.enumOf name isConst members T).2.verdicts = T.verdicts ∧
      (T.Orderly → (Ty.enumOf name isConst members T).2.Orderly) := by
  rcases hT.enumOf_cases name isConst hvalues with
    ⟨hT1, h1⟩ | ⟨n, entry, e, ms, T2, hT2, h2, hentry, hentryShape, hhas, hrun⟩
  · exact ⟨hT1, .of_le h1.le, h1.verdicts, h1.orderly⟩
  · rw [hrun]
    refine ⟨hT2.reshape hentry hentryShape rfl hhas, ?_, h2.verdicts,
      fun h => (h2.orderly h).reshape hentry hentryShape⟩
    refine ⟨fun {t} h => (has_reshape _).mpr (has_of_le h2.le h), fun {t} h => ?_⟩
    have hsame := shape_of_le h2.le h
    by_cases htn : t = .made n
    · subst htn
      refine .inr ⟨⟨e, ?_⟩, ⟨_, shape_made (getElem?_reshape_same _ hentry)⟩⟩
      rw [← hsame, shape_made hentry, hentryShape]
    · rw [shape_reshape_other _ htn]
      exact .inl hsame

theorem Faithful.of_agrees (h : T.Faithful) (hT1 : T1.WellFormed) (hagrees : T.Agrees T1)
    (hverdicts : T1.verdicts = T.verdicts) : T1.Faithful := by
  refine ⟨hT1, fun s t b hb => ?_⟩
  rw [hverdicts] at hb
  obtain ⟨hs, ht, hright⟩ := h.kept s t b hb
  refine ⟨hagrees.has hs, hagrees.has ht, fun hs' ht' => ?_⟩
  have hs0 := hagrees.firstOrder h.wellFormed hs hs'
  have ht0 := hagrees.firstOrder h.wellFormed ht ht'
  rw [hagrees.fits_types_iff hs0 ht0]
  exact hright hs0 ht0

/-- A new answer that is right may be kept. -/
theorem Faithful.keeping (h : T.Faithful) (hs : T.Has s) (ht : T.Has t)
    (hright : T.FirstOrder s → T.FirstOrder t → (b = true ↔ T.Fits (T.shape s) (T.shape t))) :
    (T.keeping s t b).Faithful ∧ T.Agrees (T.keeping s t b) := by
  have hagrees : T.Agrees (T.keeping s t b) := Agrees.of_le (le_keeping s t b T)
  refine ⟨?_, hagrees⟩
  cases hfrozen : T.frozen with
  | false =>
    rw [Table.keeping, if_neg (by simp [hfrozen])]
    exact h
  | true =>
    refine ⟨?_, fun p q c hc => ?_⟩
    · rw [Table.keeping, if_pos hfrozen]
      exact h.wellFormed.congr rfl rfl rfl rfl
    have hknown : T.Has p ∧ T.Has q ∧
        (T.FirstOrder p → T.FirstOrder q → (c = true ↔ T.Fits (T.shape p) (T.shape q))) := by
      rcases lookup_keeping_cases s t b hc with hold | ⟨rfl, rfl, rfl⟩
      · exact h.kept p q c hold
      · exact ⟨hs, ht, hright⟩
    obtain ⟨hp, hq, hiff⟩ := hknown
    refine ⟨hagrees.has hp, hagrees.has hq, fun hp' hq' => ?_⟩
    have hp0 := hagrees.firstOrder h.wellFormed hp hp'
    have hq0 := hagrees.firstOrder h.wellFormed hq hq'
    rw [hagrees.fits_types_iff hp0 hq0]
    exact hiff hp0 hq0

/-- An answer is known beforehand, or the types are compared. -/
theorem isAssignableTo_cases (T : Table) (s t : Ty) :
    (∃ c, (s = t ∧ c = true ∨ T.verdicts.lookup (s, t) = some c) ∧
      ∀ n, s.isAssignableTo t n T = some (c, T)) ∨
    ∀ n, s.isAssignableTo t n T = (Assign.decideAt n [] s t n T).bind fun p =>
      some (p.1, if T.frozen then { p.2 with verdicts := ((s, t), p.1) :: p.2.verdicts }
        else p.2) := by
  by_cases hne : s = t
  · subst hne
    exact .inl ⟨true, .inl ⟨rfl, rfl⟩, fun n => Ty.isAssignableTo_self s n T⟩
  by_cases hkept : ∃ c, T.frozen = true ∧ T.verdicts.lookup (s, t) = some c
  · obtain ⟨c, hfrozen, hlook⟩ := hkept
    exact .inl ⟨c, .inr hlook, Ty.isAssignableTo_kept hne hfrozen hlook⟩
  · exact .inr (Ty.isAssignableTo_anew hne fun hfrozen =>
      Option.eq_none_iff_forall_ne_some.mpr fun c hc => hkept ⟨c, hfrozen, hc⟩)

/-- An answer was known, or the rules gave it and it was kept. -/
theorem asked_cases (hrun : s.isAssignableTo t n T = some (b, T1)) :
    (T1 = T ∧ (s = t ∧ b = true ∨ T.verdicts.lookup (s, t) = some b)) ∨
      ∃ T', Assign.decideAt n [] s t n T = some (b, T') ∧
        (T.frozen = T'.frozen → T1 = T'.keeping s t b) := by
  rcases isAssignableTo_cases T s t with ⟨c, hc, hknown⟩ | hanew
  · rw [hknown] at hrun
    obtain ⟨rfl, rfl⟩ := Prod.mk.inj (Option.some.inj hrun)
    exact .inl ⟨rfl, hc⟩
  · rw [hanew] at hrun
    obtain ⟨⟨b', T'⟩, hdecide, hrest⟩ := Option.bind_eq_some_iff.mp hrun
    obtain ⟨rfl, rfl⟩ := Prod.mk.inj (Option.some.inj hrest)
    refine .inr ⟨T', hdecide, fun hfrozen => ?_⟩
    rw [hfrozen]
    rfl

/-- While the table is built, a question leaves it as it was or as the rules leave it. -/
theorem asked_building (hT : T.WellFormed) (hs : T.Has s) (ht : T.Has t)
    (hrun : s.isAssignableTo t n T = some (b, T1)) :
    T1 = T ∨ ∃ T', Assign.decideAt n [] s t n T = some (b, T') ∧ T'.WellFormed ∧ T.Evolves T' ∧
      T1 = T'.keeping s t b := by
  refine (asked_cases hrun).imp And.left ?_
  rintro ⟨T', hdecide, hkept⟩
  obtain ⟨hat, -⟩ := Assign.runs_decideAt (K := .building)
    (fun T u hT hu => ⟨Ty.building_resolve hT hu, False.elim⟩) (Nat.le_refl n)
    [] hT hs ht n b T' hdecide
  exact ⟨T', hdecide, hat.ok, hat.grows, hkept hat.grows.frozen.symm⟩

/-- The answer to a question about first-order types is right, whether it was kept or is new. -/
theorem Faithful.answered (h : T.Faithful) (hs : T.FirstOrder s) (ht : T.FirstOrder t)
    (hrun : s.isAssignableTo t n T = some (b, T1)) : b = true ↔ T.Fits (T.shape s) (T.shape t) := by
  rcases asked_cases hrun with ⟨-, ⟨rfl, rfl⟩ | hlook⟩ | ⟨T', hdecide, -⟩
  · exact ⟨fun _ => .refl _, fun _ => rfl⟩
  · exact (h.kept s t b hlook).2.2 hs ht
  · exact Assign.fits_of_decideAt h.wellFormed hs ht hdecide

/-- A question about first-order types has an answer. -/
theorem Faithful.answers (h : T.Faithful) (hs : T.FirstOrder s) (ht : T.FirstOrder t) :
    ∃ k b T1, ∀ m, k ≤ m → s.isAssignableTo t m T = some (b, T1) := by
  rcases isAssignableTo_cases T s t with ⟨c, -, hknown⟩ | hanew
  · exact ⟨0, c, T, fun m _ => hknown m⟩
  · obtain ⟨b, T', -, -, -, k, hk⟩ := Assign.decides_decideAt h.wellFormed hs ht [] (by simp)
    refine ⟨k, b, if T.frozen then { T' with verdicts := ((s, t), b) :: T'.verdicts } else T',
      fun m hm => ?_⟩
    have hrun : Assign.decideAt m [] s t m T = some (b, T') := hk m m hm hm
    rw [hanew, hrun, Option.bind_some]

/-- A question leaves what is known as it is, and its answer may be kept. -/
theorem Faithful.asked (h : T.Faithful) (hs : T.Has s) (ht : T.Has t)
    (hrun : s.isAssignableTo t n T = some (b, T1)) : T1.Faithful ∧ T.Agrees T1 := by
  rcases asked_building h.wellFormed hs ht hrun with rfl | ⟨T', hdecide, hT', hgrows, rfl⟩
  · exact ⟨h, .refl _⟩
  · have hagrees := Agrees.of_evolves hgrows
    have hright : T'.FirstOrder s → T'.FirstOrder t →
        (b = true ↔ T'.Fits (T'.shape s) (T'.shape t)) := by
      intro hs' ht'
      have hs0 := hagrees.firstOrder h.wellFormed hs hs'
      have ht0 := hagrees.firstOrder h.wellFormed ht ht'
      rw [hagrees.fits_types_iff hs0 ht0]
      exact Assign.fits_of_decideAt h.wellFormed hs0 ht0 hdecide
    obtain ⟨hfaithful, hkeeping⟩ := (h.of_agrees hT' hagrees hgrows.verdicts).keeping
      (hagrees.has hs) (hagrees.has ht) hright
    exact ⟨hfaithful, hagrees.trans hkeeping⟩

/-- An operation is a question, or leaves the types and the kept answers as they are. -/
theorem Operated.asks_or_keeps (hop : T.Operated T1) (hT : T.WellFormed) :
    (∃ s t n b, T.Has s ∧ T.Has t ∧ s.isAssignableTo t n T = some (b, T1)) ∨
      T1.WellFormed ∧ T.Agrees T1 ∧ T1.verdicts = T.verdicts := by
  have hgrown {T' : Table} (hT' : T'.WellFormed) (h : T.Evolves T') :
      T'.WellFormed ∧ T.Agrees T' ∧ T'.verdicts = T.verdicts := ⟨hT', .of_evolves h, h.verdicts⟩
  cases hop with
  | call hcall =>
    cases hcall with
    | construct c hin hfits =>
      obtain ⟨t, T', hrun, hT', h', -, -⟩ := Construction.run_spec hT hin hfits
      rw [hrun]
      exact .inr ⟨hT', .of_le h'.le, h'.verdicts⟩
    | declare info hbound hdefault =>
      obtain ⟨hT', hle⟩ := hT.newTypeVar hbound hdefault
      exact .inr ⟨hT', .of_le hle, rfl⟩
    | resolve ht hrun =>
      obtain ⟨hat, -⟩ := Ty.building_resolve hT ht _ _ _ hrun
      exact .inr (hgrown hat.ok hat.grows)
    | assignable hs ht hrun => exact .inl ⟨_, _, _, _, hs, ht, hrun⟩
  | rebind hbind =>
    obtain ⟨hT1, -, -, hverdicts⟩ := hbind.spec hT
    refine .inr ⟨hT1, ?_, hverdicts⟩
    cases hbind with
    | bound | default => exact .of_entries rfl
  | @define name params target hparams htarget =>
    obtain ⟨hT1, -, hverdicts⟩ := hT.define name hparams htarget
    refine .inr ⟨hT1, .of_entries ?_, hverdicts⟩
    rw [define_snd]
    split
    · rfl
    · split <;> rfl
  | resolveAlias hrun =>
    obtain ⟨hat, -⟩ := Alias.building_resolve hT _ _ _ _ hrun
    exact .inr (hgrown hat.ok hat.grows)
  | resolveAll hrun =>
    obtain ⟨hsound, hevolves⟩ := Alias.resolveAll_sound hT hrun
    exact .inr (hgrown hsound.wellFormed hevolves)
  | enumeration name isConst hvalues =>
    obtain ⟨hT1, hagrees, hverdicts, -⟩ := Agrees.enumOf hT name isConst hvalues
    exact .inr ⟨hT1, hagrees, hverdicts⟩
  | freeze => exact .inr ⟨hT.congr rfl rfl rfl rfl, .of_entries rfl, rfl⟩

/-- Every operation leaves the types as they are and the answers right. -/
theorem Faithful.operated (h : T.Faithful) (hop : T.Operated T1) : T1.Faithful ∧ T.Agrees T1 := by
  rcases hop.asks_or_keeps h.wellFormed with
    ⟨s, t, n, b, hs, ht, hrun⟩ | ⟨hT1, hagrees, hverdicts⟩
  · exact h.asked hs ht hrun
  · exact ⟨h.of_agrees hT1 hagrees hverdicts, hagrees⟩

theorem Faithful.operations (h : T.Faithful) (hops : ReflTransGen Operated T T1) :
    T1.Faithful ∧ T.Agrees T1 := by
  induction hops with
  | refl => exact ⟨h, .refl T⟩
  | tail _ hop ih =>
    obtain ⟨hfaithful, hagrees⟩ := ih
    obtain ⟨hfaithful', hagrees'⟩ := hfaithful.operated hop
    exact ⟨hfaithful', hagrees.trans hagrees'⟩

theorem faithful_empty : ({} : Table).Faithful := ⟨.empty, by simp⟩

/-- A question about first-order types has the same answer after any operations. -/
theorem Faithful.answered_later (h : T.Faithful) (hs : T.FirstOrder s) (ht : T.FirstOrder t)
    (hops : ReflTransGen Operated T T1) {T2 : Table}
    (hrun : s.isAssignableTo t n T1 = some (b, T2)) :
    b = true ↔ T.Fits (T.shape s) (T.shape t) := by
  obtain ⟨hfaithful, hagrees⟩ := h.operations hops
  rw [hfaithful.answered (hs.of_agrees hagrees) (ht.of_agrees hagrees) hrun]
  exact hagrees.fits_types_iff hs ht

end Operations

end Table

/-- **Assignability of first-order types is transitive**, whatever operations a table has been used
for: if two questions were answered `true`, each after further operations, then the third one is
answered `true` as well, also after others. -/
theorem Ty.isAssignableTo_trans {T T1 T2 T3 : Table}
    (hbuilt : ReflTransGen Table.Operated {} T) {a b c : Ty} (ha : T.FirstOrder a)
    (hb : T.FirstOrder b) (hc : T.FirstOrder c) (h1 : ReflTransGen Table.Operated T T1)
    (h2 : ReflTransGen Table.Operated T T2) (h3 : ReflTransGen Table.Operated T T3)
    {n n' : Nat} {U U' : Table} (hab : a.isAssignableTo b n T1 = some (true, U))
    (hbc : b.isAssignableTo c n' T2 = some (true, U')) :
    ∃ k V, ∀ m, k ≤ m → a.isAssignableTo c m T3 = some (true, V) := by
  have hT := (Table.faithful_empty.operations hbuilt).1
  have hfits : T.Fits (T.shape a) (T.shape c) :=
    .trans hT.wellFormed ((hT.answered_later ha hb h1 hab).mp rfl)
      ((hT.answered_later hb hc h2 hbc).mp rfl)
  obtain ⟨hfaithful, hagrees⟩ := hT.operations h3
  obtain ⟨k, verdict, V, hrun⟩ := hfaithful.answers (ha.of_agrees hagrees) (hc.of_agrees hagrees)
  have htrue : verdict = true :=
    (hT.answered_later ha hc h3 (hrun k (Nat.le_refl k))).mpr hfits
  subst htrue
  exact ⟨k, V, hrun⟩

/-- The next type made in a table of first-order types. -/
theorem Construction.operated_run (hbuilt : ReflTransGen Table.Operated {} T) (hc : c.IsFirstOrder)
    (hin : ∀ t ∈ c.inputs, T.FirstOrder t) :
    T.Operated (c.run T).2 ∧ (c.run T).2.FirstOrder (c.run T).1 ∧ T.Agrees (c.run T).2 := by
  have hT := (Table.faithful_empty.operations hbuilt).1
  have hfits : c.Fits T := by
    cases c with
    | parameter | enumeration => exact hc.elim
    | _ => trivial
  have hop : T.Operated (c.run T).2 := .call (.construct c (fun t ht => (hin t ht).has) hfits)
  exact ⟨hop, firstOrder_run hT.wellFormed hc hin, (hT.operated hop).2⟩

/-- The pairs of numbers. -/
def numberPair : Construction := .tuple { slots := [{ type := .number }, { type := .number }] }

/-- The arrays of numbers. -/
def numberArray : Construction := .array .number false

/-- The objects that have a length. -/
def lengthObject : Construction := .object { fields := [{ name := "length", type := .number }] }

/-- A pair is an array, an array has a length, and so a pair has one. -/
theorem numberPair_isAssignableTo_lengthObject :
    let T1 := (numberPair.run {}).2
    let T2 := (numberArray.run T1).2
    let T3 := (lengthObject.run T2).2
    ∃ k V, ∀ m, k ≤ m →
      (numberPair.run {}).1.isAssignableTo (lengthObject.run T2).1 m T3 = some (true, V) := by
  intro T1 T2 T3
  have hnumber : ∀ T : Table, T.FirstOrder .number := fun T => .primitive (by simp) (by simp)
  obtain ⟨hop1, hpair, -⟩ := Construction.operated_run (c := numberPair) .refl trivial
    (by simp [numberPair, Construction.inputs, Tuple.elements, hnumber])
  obtain ⟨hop2, harray, hagrees2⟩ := Construction.operated_run (c := numberArray) (.single hop1)
    trivial (by simp [numberArray, Construction.inputs, hnumber])
  have hbuilt2 : ReflTransGen Table.Operated {} T2 := .tail (.single hop1) hop2
  obtain ⟨hop3, hobject, hagrees3⟩ := Construction.operated_run (c := lengthObject) hbuilt2
    ⟨by simp; decide +kernel, rfl, rfl⟩
    (by simp [lengthObject, Construction.inputs, Shape.parts, hnumber])
  have hanswers :
      ((numberPair.run {}).1.isAssignableTo (numberArray.run T1).1 9 T3).map Prod.fst = some true ∧
      ((numberArray.run T1).1.isAssignableTo (lengthObject.run T2).1 9 T3).map Prod.fst =
        some true := by decide +kernel
  obtain ⟨⟨⟨_, U⟩, hab, rfl⟩, ⟨_, U'⟩, hbc, rfl⟩ :=
    hanswers.imp Option.map_eq_some_iff.mp Option.map_eq_some_iff.mp
  exact Ty.isAssignableTo_trans (hbuilt2.tail hop3) ((hpair.of_agrees hagrees2).of_agrees hagrees3)
    (harray.of_agrees hagrees3) hobject .refl .refl .refl hab hbc

end ShapeCheck
