import ShapeCheck.Proofs.ComparisonEnds
import Mathlib.Data.Set.Basic

/-!
# Comparisons of data end

Data has no functions in it and no names to be resolved: primitives, literals and enums, and what
arrays, tuples, unions and objects make of them. A comparison of data leads to data only. So it has
an answer in every table, whatever aliases the table has and however the bounds of its type
parameters lead round.

* `Table.Data` are these types, `Table.Family.data` their family; `Table.DataOf` are those that have
  enums of a set only.
* `Ty.isAssignableTo_data_returns` says that data can be compared.
-/

namespace ShapeCheck

/-- The shapes of data; an object has no call signatures. -/
def Shape.isDatum : Shape → Bool
  | .primitive _ | .literal _ | .enumeration _ | .enumMember _ _ _ => true
  | .array _ _ | .tuple _ | .union _ => true
  | .object m => m.calls.isEmpty
  | _ => false

/-- The shapes of enums. -/
def Shape.isEnumeration : Shape → Bool
  | .enumeration _ => true
  | _ => false

namespace Table

/-- The types of data: such a type has the shape of data, and so have its parts. -/
inductive Data (T : Table) : Ty → Prop
  | intro {t : Ty} (hhas : T.Has t) (hshape : (T.shape t).isDatum = true)
    (hparts : ∀ p ∈ (T.shape t).parts, Data T p) : Data T t

/-- Data whose enums are in the set. -/
inductive DataOf (E : Set Ty) (T : Table) : Ty → Prop
  | intro {t : Ty} (hhas : T.Has t) (hdatum : (T.shape t).isDatum = true)
    (henum : (T.shape t).isEnumeration = true → t ∈ E)
    (hparts : ∀ p ∈ (T.shape t).parts, DataOf E T p) :
    DataOf E T t

section Data

variable {E : Set Ty} {T T1 : Table} {t p : Ty} {ts : List Ty}

theorem Data.has (h : T.Data t) : T.Has t := by
  cases h with
  | intro hhas => exact hhas

theorem Data.isDatum (h : T.Data t) : (T.shape t).isDatum = true := by
  cases h with
  | intro _ hshape => exact hshape

theorem Data.part (h : T.Data t) (hp : p ∈ (T.shape t).parts) : T.Data p := by
  cases h with
  | intro _ _ hparts => exact hparts p hp

theorem Data.of_shapes (hhas : ∀ u, T.Has u → T1.Has u)
    (hshape : ∀ u, T.Has u → T1.shape u = T.shape u) (h : T.Data t) : T1.Data t := by
  induction h with
  | @intro t ht hdatum _ ih =>
    refine .intro (hhas t ht) ?_ fun p hp => ih p ?_
    · rwa [hshape t ht]
    · rwa [hshape t ht] at hp

theorem data_prim (T : Table) (p : Primitive) : T.Data (.prim p) :=
  .intro (T.has_prim p) rfl (by simp [shape, Shape.parts])

theorem data_of_literal {l : Literal} (h : T.shape t = .literal l) : T.Data t :=
  .intro (has_of_shape (by simp [h])) (by rw [h]; rfl) (by simp [h, Shape.parts])

/-- Data has nothing at its head to be resolved. -/
theorem Data.closed (h : T.Data t) : Ty.hasOpenHead T t = false := by
  have hdatum := h.isDatum
  unfold Ty.hasOpenHead
  cases hs : T.shape t with
  | reference name arguments =>
    rw [hs] at hdatum
    exact absurd hdatum (by simp [Shape.isDatum])
  | intersection ms =>
    rw [hs] at hdatum
    exact absurd hdatum (by simp [Shape.isDatum])
  | _ => rfl

theorem DataOf.data (h : T.DataOf E t) : T.Data t := by
  induction h with
  | intro hhas hdatum _ _ ih => exact .intro hhas hdatum ih

/-- All data is data whose enums are any types. -/
theorem Data.dataOf_univ (h : T.Data t) : T.DataOf Set.univ t := by
  induction h with
  | intro hhas hdatum _ ih => exact .intro hhas hdatum (fun _ => Set.mem_univ _) ih

theorem DataOf.has (h : T.DataOf E t) : T.Has t := h.data.has

theorem DataOf.isDatum (h : T.DataOf E t) : (T.shape t).isDatum = true := h.data.isDatum

theorem DataOf.mem (h : T.DataOf E t) (henum : (T.shape t).isEnumeration = true) : t ∈ E := by
  cases h with
  | intro _ _ hmem => exact hmem henum

theorem DataOf.part (h : T.DataOf E t) (hp : p ∈ (T.shape t).parts) : T.DataOf E p := by
  cases h with
  | intro _ _ _ hparts => exact hparts p hp

theorem DataOf.of_le (h : T.DataOf E t) (hle : T ≤ T1) : T1.DataOf E t := by
  induction h with
  | @intro t ht hdatum henum _ ih =>
    rw [← shape_of_le hle ht] at hdatum henum ih
    exact .intro (has_of_le hle ht) hdatum henum ih

theorem dataOf_prim (E : Set Ty) (T : Table) (p : Primitive) : T.DataOf E (.prim p) :=
  .intro (T.has_prim p) rfl nofun (by simp [shape, Shape.parts])

theorem dataOf_of_literal {l : Literal} (h : T.shape t = .literal l) : T.DataOf E t :=
  .intro (has_of_shape (by simp [h])) (by rw [h]; rfl) (by simp [h, Shape.isEnumeration])
    (by simp [h, Shape.parts])

theorem DataOf.member (h : T.DataOf E t) (hp : p ∈ T.members t) : T.DataOf E p := by
  unfold members at hp
  cases hs : T.shape t with
  | union ms =>
    rw [hs] at hp
    exact h.part (by rw [hs]; exact hp)
  | _ =>
    rw [hs] at hp
    exact List.mem_singleton.mp hp ▸ h

theorem dataOf_of_members (ht : T.Has t) (h : ∀ m ∈ T.members t, T.DataOf E m) : T.DataOf E t := by
  cases hs : T.shape t with
  | union ms =>
    refine .intro ht (by rw [hs]; rfl) (by simp [hs, Shape.isEnumeration]) fun p hp => h p ?_
    rw [members, hs]
    rwa [hs] at hp
  | _ => exact h t (by simp [members, hs])

/-- A union has no enums that are not in its members. -/
theorem settles_unionOf_dataOf (hT : T.WellFormed) (hts : ∀ t ∈ ts, T.DataOf E t) :
    Interning.Settles T (Ty.unionOf ts) (DataOf E) := by
  refine (Interning.settles_unionOf hT fun t ht => (hts t ht).has).imp fun u T1 _ h1 hu => ?_
  obtain ⟨hhas, hstands⟩ := hu
  refine dataOf_of_members hhas fun m hm => ?_
  rcases Interning.mem_unionMembers ((hstands m).mp hm) with ⟨t, ht, hmt⟩ | ⟨p, rfl⟩
  · exact ((hts t ht).member hmt).of_le h1.le
  · exact dataOf_prim E T1 p

/-- The length of a tuple is data. -/
theorem settles_tupleLength_dataOf (hT : T.WellFormed) (u : Tuple) :
    Interning.Settles T (Ty.tupleLength u) (DataOf E) := by
  unfold Ty.tupleLength
  split
  · exact Interning.settles_pure hT (dataOf_prim E T _)
  · refine (Interning.gives_literalOf hT _).imp fun l T1 _ _ hl => ?_
    obtain ⟨-, halike⟩ := hl
    cases hs : T1.shape l with
    | literal k => exact dataOf_of_literal hs
    | _ =>
      rw [hs] at halike
      exact halike.elim

theorem dataOf_of_value (hT : T.WellFormed) {m v : Ty} (hm : T.Has m)
    (hv : Ty.enumValue? T m = some v) :
    T.DataOf E v := by
  obtain ⟨l, hl⟩ := Option.isSome_iff_exists.mp (Assign.value_spec hT hm hv).2
  exact dataOf_of_literal (shape_of_literal? hl)

theorem settles_valueUnion_dataOf (hT : T.WellFormed) {e : Enumeration}
    (he : ∀ m ∈ e.members, T.Has m) :
    Interning.Settles T (Ty.valueUnion e) (DataOf E) := by
  have hvalues : ∀ v ∈ e.members.filterMap (Ty.enumValue? T), T.DataOf E v := by
    intro v hv
    obtain ⟨m, hm, hmv⟩ := List.mem_filterMap.mp hv
    exact dataOf_of_value hT (he m hm) hmv
  refine Interning.settles_get_bind (fun T2 h2 => ?_) (settles_unionOf_dataOf hT hvalues)
  rw [List.filterMap_congr fun m hm => Assign.enumValue?_of_le h2 (he m hm)]

/-- Only functions are changed when their type parameters are erased. -/
theorem settles_erase_data (hT : T.WellFormed) (ht : T.Data t) :
    Interning.Settles T t.erase Data := by
  have hnone : ∀ T2, T ≤ T2 → T2.callable? t = none := by
    intro T2 h2
    have hdatum := ht.isDatum
    unfold callable?
    rw [shape_of_le h2 ht.has]
    cases hs : T.shape t with
    | function c =>
      rw [hs] at hdatum
      exact absurd hdatum (by simp [Shape.isDatum])
    | _ => rfl
  refine Interning.settles_get_bind (fun T2 h2 => ?_) ?_
  · rw [hnone T2 h2, hnone T (le_refl T)]
  · rw [hnone T (le_refl T)]
    exact Interning.settles_pure hT ht

end Data

namespace Family

/-- The types of data. -/
def data : Family := ⟨Data, Data.has, Data.of_shapes⟩

/-- The types of both families. -/
def inter (F G : Family) : Family where
  Mem T t := F.Mem T t ∧ G.Mem T t
  has h := F.has h.1
  keep hhas hshape h := ⟨F.keep hhas hshape h.1, G.keep hhas hshape h.2⟩

end Family

end Table

open Table

variable {K : Regime}

/-- Comparisons do not lead out of the types of two families if they lead out of neither. -/
theorem Regime.Compares.inter {M G M' G' : Family} (h : K.Compares M G) (h' : K.Compares M' G') :
    K.Compares (M.inter M') (G.inter G') where
  prim T p := ⟨h.prim T p, h'.prim T p⟩
  part hT ht hs hp := ⟨h.part hT ht.1 hs hp, h'.part hT ht.2 hs hp⟩
  erase hT ht := (h.erase hT ht.1).and (h'.erase hT ht.2)
  elements hT ht hs := (h.elements hT ht.1 hs).and (h'.elements hT ht.2 hs)
  length hT ht hs := (h.length hT ht.1 hs).and (h'.length hT ht.2 hs)
  whole hT ht hs := ⟨h.whole hT ht.1 hs, h'.whole hT ht.2 hs⟩
  member hT ht hm := ⟨h.member hT ht.1 hm, h'.member hT ht.2 hm⟩
  value hT ht hs := ⟨h.value hT ht.1 hs, h'.value hT ht.2 hs⟩
  values hT ht hs := (h.values hT ht.1 hs).and (h'.values hT ht.2 hs)
  bound hT ht hs := ⟨h.bound hT ht.1 hs, h'.bound hT ht.2 hs⟩

namespace Assign

/-- Comparisons of data lead to data only. -/
theorem compares_data (K : Regime) : K.Compares .data .data where
  prim T p := data_prim T p
  part _ ht _ hp := Data.part ht hp
  erase hT ht := settles_erase_data (K.wellFormed hT) ht
  elements hT ht hs := (settles_unionOf_dataOf (K.wellFormed hT) fun e he =>
    (Data.part ht (by rw [hs]; exact he)).dataOf_univ).imp fun _ _ _ _ h => h.data
  length hT _ _ := (settles_tupleLength_dataOf (E := Set.univ) (K.wellFormed hT) _).imp
    fun _ _ _ _ h => h.data
  whole _ ht _ := ht
  member _ ht hm := Data.part ht (combined_subset_parts hm)
  value _ ht hs := Data.part ht (by rw [hs]; simp [Shape.parts])
  values hT _ hs := (settles_valueUnion_dataOf (E := Set.univ) (K.wellFormed hT)
    (has_enumMembers (K.wellFormed hT) hs)).imp fun _ _ _ _ h => h.data
  bound _ ht hs := by
    have hdatum := Data.isDatum ht
    rw [hs] at hdatum
    exact absurd hdatum (by simp [Shape.isDatum])

/-- Comparisons keep to the data of a level, whatever aliases there are. -/
theorem confines_data {T0 : Table} (hT0 : T0.WellFormed) :
    Confines T0 (T0.level.withHeads.inter .data) (T0.level.inter .data)
    (T0.level.heads.inter .data) where
  compares := (compares_level hT0).inter (compares_data _)
  types h := h.1
  parts h := ⟨.inl h.1, h.2⟩
  heads h := ⟨⟨.inr h.1, h.2⟩, h.1⟩
  resolves hT h := by
    refine (works_resolve_closed hT (Data.has h.2) (Data.closed h.2)).imp fun _ _ _ hopen => ?_
    rw [Data.closed h.2] at hopen
    exact absurd hopen Bool.false_ne_true
  grounded h hs := by
    have hdatum := Data.isDatum h.2
    rw [hs] at hdatum
    exact absurd hdatum (by simp [Shape.isDatum])

end Assign

/-- **Data can be compared.** Whatever a table has been used for, a question about two types of data
has an answer. -/
theorem Ty.isAssignableTo_data_returns {T : Table} (hT : Relation.ReflTransGen Table.Operated {} T)
    {s t : Ty} (hs : T.Data s) (ht : T.Data t) :
    ∃ n b T1, ∀ m, n ≤ m → s.isAssignableTo t m T = some (b, T1) := by
  have hwf := (Table.faithful_empty.operations hT).1.wellFormed
  have hmem {u : Ty} (hu : T.Data u) : (T.level.withHeads.inter .data).Mem T u :=
    ⟨.inl (Table.mem_level hwf (.refl T) hu.has), hu⟩
  exact (Assign.confines_data hwf).answers hT (hmem hs) (hmem ht)

end ShapeCheck
