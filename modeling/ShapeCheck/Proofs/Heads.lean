import ShapeCheck.Proofs.LevelClosure

/-!
# Heads without references

Resolving a type replaces the references at its head. What is left is put together by unions and
intersections from types that are neither unions nor intersections nor references, and these are
types that were there, or objects that an intersection has merged. A type of this kind has nothing
at its head to be resolved again.

* `Table.Family.Rebuilds.expands` says that then its types expand to types with heads of the family.
* `Table.Family.rebuilds_all` and `Table.Family.rebuilds_within` are about all types of a table and
  about those of a level.
-/

namespace ShapeCheck

open Interning

namespace Table

/-- The type is put together by unions and intersections from types of a family, without
references. -/
inductive Headed (F : Family) (T : Table) : Ty → Prop
  | intro {t : Ty} (hhas : T.Has t) (href : (T.shape t).isReference = false)
    (hplain : (T.shape t).isExpanded = false → F.Mem T t)
    (hcombined : ∀ m ∈ T.combined t, Headed F T m) : Headed F T t

section Headed

variable {F F' : Family} {T T1 : Table} {t m : Ty}

theorem combined_eq_nil (h : (T.shape t).isExpanded = false) : T.combined t = [] := by
  unfold combined
  cases hs : T.shape t <;> first | rfl | exact absurd h (by simp [hs, Shape.isExpanded])

theorem Headed.has (h : T.Headed F t) : T.Has t := by
  cases h with
  | intro hhas => exact hhas

theorem Headed.isReference (h : T.Headed F t) : (T.shape t).isReference = false := by
  cases h with
  | intro _ href => exact href

theorem Headed.mem (h : T.Headed F t) (hs : (T.shape t).isExpanded = false) : F.Mem T t := by
  cases h with
  | intro _ _ hplain => exact hplain hs

theorem Headed.combined (h : T.Headed F t) (hm : m ∈ T.combined t) : T.Headed F m := by
  cases h with
  | intro _ _ _ hcombined => exact hcombined m hm

theorem Headed.of_shapes (hhas : ∀ u, T.Has u → T1.Has u)
    (hshape : ∀ u, T.Has u → T1.shape u = T.shape u) (h : T.Headed F t) : T1.Headed F t := by
  induction h with
  | @intro t ht href hplain _ ih =>
    refine .intro (hhas t ht) ?_ (fun hs => F.keep hhas hshape (hplain ?_)) fun m hm => ih m ?_
    · rwa [hshape t ht]
    · rwa [hshape t ht] at hs
    · unfold Table.combined at hm ⊢
      rwa [hshape t ht] at hm

/-- If the types of a table that are of one family are of another, so are the heads. -/
theorem Headed.mono (h : T.Headed F t) (hsub : ∀ u, F.Mem T u → F'.Mem T u) : T.Headed F' t := by
  induction h with
  | intro hhas href hplain _ ih => exact .intro hhas href (fun hs => hsub _ (hplain hs)) ih

theorem headed_of_plain (h : F.Mem T t) (hs : (T.shape t).isExpanded = false) : T.Headed F t := by
  refine .intro (F.has h) ?_ (fun _ => h) (by simp [combined_eq_nil hs])
  cases hshape : T.shape t <;>
    first | rfl | exact absurd hs (by simp [hshape, Shape.isExpanded])

/-- A type with such a head is not looked up when it is resolved. -/
theorem Headed.hasOpenHead (h : T.Headed F t) : Ty.hasOpenHead T t = false := by
  have href := h.isReference
  have hmember := fun m => h.combined (m := m)
  unfold Ty.hasOpenHead
  unfold Table.combined at hmember
  cases hs : T.shape t with
  | reference name arguments =>
    rw [hs] at href
    exact absurd href (by simp [Shape.isReference])
  | intersection ms =>
    rw [hs] at hmember
    refine List.any_eq_false.mpr fun m hm => ?_
    rw [(hmember m hm).isReference]
    exact Bool.false_ne_true
  | _ => rfl

theorem Headed.member (h : T.Headed F t) (hm : m ∈ T.members t) : T.Headed F m := by
  cases hs : T.shape t with
  | union ms =>
    refine h.combined ?_
    simpa [members, Table.combined, hs] using hm
  | _ =>
    obtain rfl : m = t := by simpa [members, hs] using hm
    exact h

theorem Headed.intersected (h : T.Headed F t) (hm : m ∈ Ty.intersectionMembers T t) :
    T.Headed F m := by
  cases hs : T.shape t with
  | intersection ms =>
    refine h.combined ?_
    simpa [Ty.intersectionMembers, Table.combined, hs] using hm
  | _ =>
    obtain rfl : m = t := by simpa [Ty.intersectionMembers, hs] using hm
    exact h

theorem headed_of_members (ht : T.Has t) (h : ∀ m ∈ T.members t, T.Headed F m) : T.Headed F t := by
  cases hs : T.shape t with
  | union ms =>
    refine .intro ht (by rw [hs]; rfl) (fun hplain => ?_) fun m hm => h m ?_
    · exact absurd hplain (by simp [hs, Shape.isExpanded])
    · simpa [members, Table.combined, hs] using hm
  | _ => exact h t (by simp [members, hs])

end Headed

namespace Family

/-- The types with heads of the family. -/
def heads (F : Family) : Family := ⟨fun T t => T.Headed F t, Headed.has, Headed.of_shapes⟩

/-- What resolving builds out of types of the first family stays in it: merged objects and readonly
types. The fields of objects are types of the second family, and so are their intersections. -/
structure Rebuilds (F G : Family) (names : String → Prop) : Prop where
  prim : ∀ T p, F.Mem T (.prim p)
  part : ∀ {T t p}, T.WellFormed → F.Mem T t → (T.shape t).isExpanded = true →
    p ∈ (T.shape t).parts → F.Mem T p
  meet : ∀ depth, Interning.MeetSettles G fun a b => Ty.intersectionAt depth [a, b]
  fills : ∀ {T t m}, T.WellFormed → F.Mem T t → T.shape t = .object m → G.Fills names T m
  merged : ∀ {T t}, T.WellFormed → T.Has t → G.Merges names T t → F.Mem T t
  object : ∀ {T t m}, T.WellFormed → F.Mem T t → T.shape t = .object m →
    Interning.Settles T (Ty.objectOf { m with fields := Ty.freezeFields m.fields }) F.Mem
  array : ∀ {T t element readonly}, T.WellFormed → F.Mem T t → T.shape t = .array element readonly →
    Interning.Settles T (Ty.arrayOf element true) F.Mem
  tuple : ∀ {T t u}, T.WellFormed → F.Mem T t → T.shape t = .tuple u →
    Interning.Settles T (Ty.tupleOf { u with readonly := true }) F.Mem

namespace Rebuilds

variable {F G : Family} {names : String → Prop} (hF : F.Rebuilds G names) {T : Table} {t : Ty}

include hF

theorem headed_prim (T : Table) (p : Primitive) : T.Headed F (.prim p) :=
  headed_of_plain (hF.prim T p) rfl

theorem headed_merged (hT : T.WellFormed) (ht : T.Has t)
    (h : G.Merges names T t) : T.Headed F t := by
  refine headed_of_plain (hF.merged hT ht h) ?_
  have hobject := h.members?
  unfold Ty.members? at hobject
  cases hs : T.shape t <;> rw [hs] at hobject <;> first | rfl | exact absurd hobject (by simp)

theorem settles_unionOf (hT : T.WellFormed) {ts : List Ty} (hts : ∀ t ∈ ts, T.Headed F t) :
    Interning.Settles T (Ty.unionOf ts) F.heads.Mem := by
  refine (Interning.settles_unionOf hT fun t ht => (hts t ht).has).imp ?_
  rintro t T1 - h1 ⟨ht, hstands⟩
  refine headed_of_members ht fun m hm => ?_
  rcases mem_unionMembers ((hstands m).mp hm) with ⟨u, hu, hmu⟩ | ⟨p, rfl⟩
  · exact F.heads.of_le h1.le ((hts u hu).member hmu)
  · exact hF.headed_prim T1 p

theorem settles_intersectionOf (hT : T.WellFormed) {ts : List Ty} (hts : ∀ t ∈ ts, T.Headed F t) :
    Interning.Settles T (Ty.intersectionOf ts) F.heads.Mem := by
  have hall : ∀ m ∈ Ty.allIntersected T ts, T.Headed F m := by
    intro m hm
    rw [Ty.allIntersected, List.mem_eraseDups, List.mem_flatMap] at hm
    obtain ⟨t, ht, hm⟩ := hm
    exact (hts t ht).intersected hm
  have hobjects : ∀ t ∈ Ty.allIntersected T ts, ∀ m, Ty.members? T t = some m →
      G.Fills names T m := by
    intro t ht m hm
    have hs := shape_of_members? hm
    exact hF.fills hT ((hall t ht).mem (by rw [hs]; rfl)) hs
  refine (settles_intersectionAt_found (hF.meet _) hT (fun t ht => (hts t ht).has)
    hobjects).imp ?_
  rintro t T1 hT1 h1 ⟨ht, hfound⟩
  have hheaded : ∀ m, G.Found names T ts T1 m → T1.Headed F m := by
    rintro m ⟨hm, hin | ⟨p, rfl, -⟩ | ⟨-, hmerges⟩⟩
    · exact F.heads.of_le h1.le (hall m hin)
    · exact hF.headed_prim T1 p
    · exact hF.headed_merged hT1 hm hmerges
  rcases hfound with hfound | ⟨ms, hs, hms⟩
  · exact hheaded t hfound
  · refine .intro ht (by rw [hs]; rfl) (fun hplain => ?_) fun m hm => hheaded m (hms m ?_)
    · exact absurd hplain (by simp [hs, Shape.isExpanded])
    · simpa [Table.combined, hs] using hm

omit hF in
/-- A type that is built for a shape has itself as its head. -/
theorem headed_of_gives {work : Interning Ty} {s : Shape} (hgives : Interning.Gives T work s)
    (hs : s.isExpanded = false) (h : Interning.Settles T work F.Mem) :
    Interning.Settles T work F.heads.Mem := by
  refine (hgives.and h).imp ?_
  rintro t T1 - - ⟨⟨-, halike⟩, ht⟩
  refine headed_of_plain ht ?_
  cases hshape : T1.shape t <;> rw [hshape] at halike <;> cases s <;>
    first | rfl | exact halike.elim | exact absurd hs (by simp [Shape.isExpanded])

theorem gathers : F.heads.Gathers where
  member _ ht hm := ht.combined hm
  union hT hts := hF.settles_unionOf hT hts
  intersection hT hts := hF.settles_intersectionOf hT hts
  object {T t m} hT ht hs := by
    refine headed_of_gives (gives_objectOf hT fun p hp => hT.has_part ht.has ?_) rfl
      (hF.object hT (ht.mem (by rw [hs]; rfl)) hs)
    rw [hs]
    simpa only [Shape.parts, Ty.map_type_freezeFields] using hp
  array {T t element readonly} hT ht hs := by
    refine headed_of_gives (gives_arrayOf hT (hT.has_part ht.has ?_) true) rfl
      (hF.array hT (ht.mem (by rw [hs]; rfl)) hs)
    rw [hs]
    simp [Shape.parts]
  tuple {T t u} hT ht hs := by
    refine headed_of_gives (gives_tupleOf hT fun p hp => hT.has_part ht.has ?_) rfl
      (hF.tuple hT (ht.mem (by rw [hs]; rfl)) hs)
    rw [hs]
    exact hp

/-- **Expansion leaves no reference at the head** of a type. -/
theorem expands : F.Expands F.heads where
  gathers := hF.gathers
  part := hF.part
  whole := headed_of_plain

end Rebuilds

theorem rebuilds_all : Family.all.Rebuilds .all (fun _ => True) where
  prim T p := T.has_prim p
  part hT ht _ hp := hT.has_part ht hp
  meet depth _ _ _ hT ha hb := settles_intersectionAt depth hT
    (forall_mem_pair ha hb)
  fills hT ht hs := by
    obtain ⟨hf, hi, hc⟩ := Shape.forall_parts_object.mp fun p hp =>
      hT.has_part ht (by rw [hs]; exact hp)
    exact ⟨fun f hmem => ⟨trivial, hf f hmem⟩, hi, hc⟩
  merged _ ht _ := ht
  object := gathers_all.object
  array := gathers_all.array
  tuple := gathers_all.tuple

theorem rebuilds_within (V : Vocabulary) (k : Nat) :
    (within V (k + 1)).Rebuilds (within V k) (· ∈ V.names) where
  prim T p := within_prim T V (k + 1) p
  part {T t p} hT ht hs hp := by
    have ht : T.Within V (k + 1) t := ht
    cases hshape : T.shape t with
    | union ms | reference name arguments =>
      exact ((ht.frame_succ (by rw [hshape]; rfl)).2 p hp).succ
    | intersection ms =>
      rw [hshape] at hp
      exact (ht.intersected hshape p hp).1
    | _ =>
      rw [hshape] at hs
      exact absurd hs (by simp [Shape.isExpanded])
  meet depth _ _ _ hT ha hb :=
    settles_intersectionAt_within depth hT (forall_mem_pair ha hb)
  fills {T t m} hT ht hs := by
    obtain ⟨hframed, hparts⟩ := Within.frame_succ ht (by rw [hs]; rfl)
    rw [hs] at hframed hparts
    obtain ⟨hf, hi, hc⟩ := Shape.forall_parts_object.mp hparts
    exact ⟨fun f hmem => ⟨hframed.1 f hmem, hf f hmem⟩, hi, hc⟩
  merged hT _ h := within_of_merges hT h
  object {T t m} hT ht hs := by
    obtain ⟨hframed, hparts⟩ := Within.frame_succ ht (by rw [hs]; rfl)
    rw [hs] at hframed hparts
    refine settles_objectOf_within hT ⟨fun f hf => ?_, hframed.2⟩ fun p hp => hparts p ?_
    · obtain ⟨g, hg, rfl⟩ := List.mem_map.mp hf
      exact hframed.1 g hg
    · simpa only [Shape.parts, Ty.map_type_freezeFields] using hp
  array {T t element readonly} hT ht hs := by
    obtain ⟨-, hparts⟩ := Within.frame_succ ht (by rw [hs]; rfl)
    rw [hs] at hparts
    exact settles_arrayOf_within hT (hparts element (by simp [Shape.parts])) true
  tuple {T t u} hT ht hs := by
    obtain ⟨hframed, hparts⟩ := Within.frame_succ ht (by rw [hs]; rfl)
    rw [hs] at hframed hparts
    exact settles_tupleOf_within (u := { u with readonly := true }) hT hframed hparts

end Family

end Table

end ShapeCheck
