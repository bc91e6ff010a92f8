import ShapeCheck.Proofs.Constructors

/-!
# Intersections settle

An intersection merges the objects among its members, and the fields that two objects share are
intersected in turn. Each of these steps goes through the constructors, so an intersection settles
as they do.

* `Interning.settles_mergeWith` merges objects, given that the meet of two types settles. What is
  made stays in the family that the parts of the objects come from.
* `Interning.settles_meetMembers` finds the members of an intersection.
* `Interning.settles_intersectionOf` says what an intersection is made of.
-/

namespace ShapeCheck

variable {T T' : Table} {m : Members} {best : Option Ty} {a t : Ty} {G : Family}
  {names : String → Prop} {ts objects : List Ty}

namespace Table

/-- The parts of an object stand in the table. -/
def HasMembers (T : Table) (m : Members) : Prop := ∀ p ∈ (Shape.object m).parts, T.Has p

theorem hasMembers_iff :
    T.HasMembers m ↔ (∀ f ∈ m.fields, T.Has f.type) ∧ (∀ i ∈ m.index, T.Has i.value) ∧
      ∀ t ∈ m.calls, T.Has t :=
  Shape.forall_parts_object

/-- The fields have names of some sort, and the parts of the object are of a family. -/
structure Family.Fills (G : Family) (names : String → Prop) (T : Table) (m : Members) : Prop where
  fields : ∀ f ∈ m.fields, names f.name ∧ G.Mem T f.type
  index : ∀ i ∈ m.index, G.Mem T i.value
  calls : ∀ t ∈ m.calls, G.Mem T t

section Filling

theorem Family.Fills.parts (h : G.Fills names T m) : ∀ p ∈ (Shape.object m).parts, G.Mem T p :=
  Shape.forall_parts_object.mpr ⟨fun f hf => (h.fields f hf).2, h.index, h.calls⟩

theorem Family.Fills.of_le (h : G.Fills names T m) (hle : T ≤ T') : G.Fills names T' m where
  fields f hf := (h.fields f hf).imp_right (G.of_le hle)
  index i hi := G.of_le hle (h.index i hi)
  calls t ht := G.of_le hle (h.calls t ht)

end Filling

section Reading

theorem intersectionMembers_of_le (h : T ≤ T') (ht : T.Has t) :
    Ty.intersectionMembers T' t = Ty.intersectionMembers T t := by
  rw [Ty.intersectionMembers, Ty.intersectionMembers, shape_of_le h ht]

theorem isAtom_of_le (h : T ≤ T') (ht : T.Has t) : Ty.isAtom T' t = Ty.isAtom T t := by
  rw [Ty.isAtom, Ty.isAtom, shape_of_le h ht]

theorem members?_of_le (h : T ≤ T') (ht : T.Has t) : Ty.members? T' t = Ty.members? T t := by
  rw [Ty.members?, Ty.members?, shape_of_le h ht]

theorem isLiteralOf_of_le (h : T ≤ T') (ht : T.Has t) (u : Ty) :
    Ty.isLiteralOf T' t u = Ty.isLiteralOf T t u := by
  rw [Ty.isLiteralOf, Ty.isLiteralOf, literal?_of_le h ht]

theorem reduceAtoms_of_le (h : T ≤ T') (hts : ∀ t ∈ ts, T.Has t)
    (hbest : ∀ b ∈ best, T.Has b) : Ty.reduceAtoms T' best ts = Ty.reduceAtoms T best ts := by
  induction ts generalizing best with
  | nil => rfl
  | cons a rest ih =>
    have ha := hts a (by simp)
    have hrest : ∀ t ∈ rest, T.Has t := fun t ht => hts t (List.mem_cons_of_mem _ ht)
    cases best with
    | none => exact ih hrest (by simpa using ha)
    | some b =>
      have hb := hbest b rfl
      simp only [Ty.reduceAtoms, isLiteralOf_of_le h ha, isLiteralOf_of_le h hb]
      rw [ih hrest (by simpa using hb), ih hrest (by simpa using ha)]

/-- The most specific of some types is one of them. -/
theorem mem_of_reduceAtoms
    (h : Ty.reduceAtoms T best ts = some (some a)) : a ∈ ts ∨ best = some a := by
  induction ts generalizing best with
  | nil => exact .inr (by simpa [Ty.reduceAtoms] using h)
  | cons c rest ih =>
    have hstep : ∀ {b : Ty}, Ty.reduceAtoms T (some b) rest = some (some a) →
        a ∈ c :: rest ∨ b = a := by
      intro b hb
      rcases ih hb with hmem | heq
      · exact .inl (List.mem_cons_of_mem _ hmem)
      · exact .inr (Option.some.inj heq)
    cases best with
    | none =>
      rcases hstep h with hmem | rfl
      · exact .inl hmem
      · exact .inl List.mem_cons_self
    | some b =>
      simp only [Ty.reduceAtoms] at h
      split at h
      · rcases hstep h with hmem | rfl
        · exact .inl hmem
        · exact .inr rfl
      · split at h
        · rcases hstep h with hmem | rfl
          · exact .inl hmem
          · exact .inl List.mem_cons_self
        · exact absurd h (by simp)

theorem allIntersected_of_le (h : T ≤ T') (hts : ∀ t ∈ ts, T.Has t) :
    Ty.allIntersected T' ts = Ty.allIntersected T ts := by
  have hflat : ts.flatMap (Ty.intersectionMembers T') = ts.flatMap (Ty.intersectionMembers T) := by
    apply List.flatMap_congr
    intro t ht
    exact intersectionMembers_of_le h (hts t ht)
  rw [Ty.allIntersected, Ty.allIntersected, hflat]

theorem WellFormed.has_intersected (hT : T.WellFormed) (hts : ∀ t ∈ ts, T.Has t) {m : Ty}
    (hm : m ∈ Ty.allIntersected T ts) : T.Has m := by
  rw [Ty.allIntersected, List.mem_eraseDups, List.mem_flatMap] at hm
  obtain ⟨t, ht, hm⟩ := hm
  unfold Ty.intersectionMembers at hm
  split at hm
  next ms hs =>
    exact hT.has_part (hts t ht) (by rw [hs]; exact hm)
  · rw [List.mem_singleton.mp hm]
    exact hts t ht

/-- In an orderly table no member of an intersection is an intersection. -/
theorem Orderly.flat_intersected (hT : T.Orderly) {m : Ty} (hm : m ∈ Ty.allIntersected T ts) :
    Ty.intersectionMembers T m = [m] := by
  rw [Ty.allIntersected, List.mem_eraseDups, List.mem_flatMap] at hm
  obtain ⟨t, -, hm⟩ := hm
  have hstandard := hT.standard t
  cases hs : T.shape t with
  | intersection ms =>
    rw [hs] at hstandard
    simp only [Ty.intersectionMembers, hs] at hm
    exact hstandard.flat m hm
  | _ =>
    have hmt : m = t := by simpa [Ty.intersectionMembers, hs] using hm
    rw [hmt]
    simp [Ty.intersectionMembers, hs]

theorem atomsAmong_of_le (h : T ≤ T') (hts : ∀ t ∈ ts, T.Has t) :
    Ty.atomsAmong T' ts = Ty.atomsAmong T ts := by
  apply List.filter_congr
  intro t ht
  rw [isAtom_of_le h (hts t ht)]

theorem objectsAmong_of_le (h : T ≤ T') (hts : ∀ t ∈ ts, T.Has t) :
    Ty.objectsAmong T' ts = Ty.objectsAmong T ts := by
  apply List.filter_congr
  intro t ht
  rw [members?_of_le h (hts t ht)]

theorem othersAmong_of_le (h : T ≤ T') (hts : ∀ t ∈ ts, T.Has t) :
    Ty.othersAmong T' ts = Ty.othersAmong T ts := by
  apply List.filter_congr
  intro t ht
  rw [isAtom_of_le h (hts t ht), members?_of_le h (hts t ht)]

theorem shape_of_members? (h : Ty.members? T t = some m) : T.shape t = .object m := by
  unfold Ty.members? at h
  split at h
  · next hs => rw [hs, Option.some.inj h]
  · cases h

theorem WellFormed.hasMembers (hT : T.WellFormed) (ht : T.Has t)
    (hm : Ty.members? T t = some m) : T.HasMembers m := by
  intro p hp
  exact hT.has_part ht (by rwa [shape_of_members? hm])

/-- The objects that are merged for an intersection stand in the table. -/
theorem WellFormed.fills_intersected (hT : T.WellFormed) (hts : ∀ t ∈ ts, T.Has t) :
    ∀ t ∈ Ty.allIntersected T ts, ∀ m, Ty.members? T t = some m →
      Family.all.Fills (fun _ => True) T m := by
  intro t ht m hm
  obtain ⟨hf, hi, hc⟩ := hasMembers_iff.mp (hT.hasMembers (hT.has_intersected hts ht) hm)
  exact ⟨fun f hmem => ⟨trivial, hf f hmem⟩, hi, hc⟩

/-- At most one atom, at most one object and types that are neither make up an intersection. -/
theorem Reduced.of_parts {as os rs : List Ty} (hseveral : 2 ≤ (as ++ os ++ rs).length)
    (hatoms : as.length ≤ 1 ∧ ∀ a ∈ as, Ty.isAtom T a = true)
    (hproper : ∀ a ∈ as, a ≠ .never ∧ a ≠ .any ∧ a ≠ .unknown ∧ a ≠ .invalid)
    (hobjects : os.length ≤ 1 ∧ ∀ o ∈ os, (Ty.members? T o).isSome = true)
    (hrest : ∀ r ∈ rs, Ty.isAtom T r = false ∧ Ty.members? T r = none ∧
      Ty.intersectionMembers T r = [r]) : T.Reduced (as ++ os ++ rs) := by
  have hobjectShape : ∀ o ∈ os, ∃ m, T.shape o = .object m := by
    intro o ho
    have hsome := hobjects.2 o ho
    cases hs : T.shape o with
    | object m => exact ⟨m, rfl⟩
    | _ => simp [Ty.members?, hs] at hsome
  have hatomShape : ∀ a ∈ as, Ty.members? T a = none ∧ Ty.intersectionMembers T a = [a] := by
    intro a ha
    have hat := hatoms.2 a ha
    cases hs : T.shape a with
    | primitive | literal => simp [Ty.members?, Ty.intersectionMembers, hs]
    | _ => simp [Ty.isAtom, hs] at hat
  have hnotAtom : ∀ t, Ty.isAtom T t = false → ∀ p, t ≠ .prim p := by
    rintro _ h p rfl
    exact absurd h (by simp [Ty.isAtom, shape])
  have hobjectNotAtom : ∀ o ∈ os, Ty.isAtom T o = false := by
    intro o ho
    obtain ⟨m, hm⟩ := hobjectShape o ho
    simp [Ty.isAtom, hm]
  have hplain : ∀ t, Ty.isAtom T t = false → t ≠ .never ∧ t ≠ .any ∧ t ≠ .unknown ∧ t ≠ .invalid :=
    fun t h => ⟨hnotAtom t h _, hnotAtom t h _, hnotAtom t h _, hnotAtom t h _⟩
  refine ⟨hseveral, ?_, ?_, ?_, ?_⟩
  · intro m hm
    rcases List.mem_append.mp hm with hm | hm
    · rcases List.mem_append.mp hm with hm | hm
      · exact (hatomShape m hm).2
      · obtain ⟨_, ho⟩ := hobjectShape m hm
        simp [Ty.intersectionMembers, ho]
    · exact (hrest m hm).2.2
  · intro m hm
    rcases List.mem_append.mp hm with hm | hm
    · rcases List.mem_append.mp hm with hm | hm
      · exact hproper m hm
      · exact hplain m (hobjectNotAtom m hm)
    · exact hplain m (hrest m hm).1
  · have hos : os.filter (Ty.isAtom T) = [] := by
      simpa [List.filter_eq_nil_iff] using hobjectNotAtom
    have hrs : rs.filter (Ty.isAtom T) = [] := by
      simpa [List.filter_eq_nil_iff] using fun r hr => (hrest r hr).1
    rw [List.filter_append, List.filter_append, hos, hrs, List.append_nil, List.append_nil]
    exact (List.length_filter_le _ as).trans hatoms.1
  · have has : (as.filter fun m => (Ty.members? T m).isSome) = [] := by
      simpa [List.filter_eq_nil_iff] using fun a ha => (hatomShape a ha).1
    have hrs : (rs.filter fun m => (Ty.members? T m).isSome) = [] := by
      simpa [List.filter_eq_nil_iff] using fun r hr => (hrest r hr).2.1
    rw [List.filter_append, List.filter_append, has, hrs, List.nil_append, List.append_nil]
    exact (List.length_filter_le _ os).trans hobjects.1

end Reading

end Table

namespace Interning

open Table

/-- The meet of two types of a family settles in every table, with a type of the family. -/
def MeetSettles (G : Family) (meet : Ty → Ty → Interning Ty) : Prop :=
  ∀ (T : Table) (a b : Ty), T.WellFormed → G.Mem T a → G.Mem T b → Settles T (meet a b) G.Mem

section Merging

variable {meet : Ty → Ty → Interning Ty}

theorem settles_mergeField (hmeet : MeetSettles G meet) (hT : T.WellFormed) {fields : List Field}
    {f : Field} (hfields : ∀ g ∈ fields, names g.name ∧ G.Mem T g.type)
    (hf : names f.name ∧ G.Mem T f.type) :
    Settles T (Ty.mergeField meet fields f)
      (fun T1 gs => ∀ g ∈ gs, names g.name ∧ G.Mem T1 g.type) := by
  unfold Ty.mergeField
  cases hfind : fields.find? (·.name = f.name) with
  | none =>
    refine settles_pure hT fun g hg => ?_
    rcases List.mem_append.mp hg with hg | hg
    · exact hfields g hg
    · rw [List.mem_singleton.mp hg]
      exact hf
  | some g =>
    have hg := hfields g (List.mem_of_find?_eq_some hfind)
    refine (hmeet T g.type f.type hT hg.2 hf.2).bind fun t T1 hT1 h1 ht => ?_
    refine settles_pure hT1 fun k hk => ?_
    rcases mem_putField hk with hk | rfl
    · exact (hfields k hk).imp_right (G.of_le h1.le)
    · exact ⟨hf.1, ht⟩

theorem settles_mergeIndex (hmeet : MeetSettles G meet) (hT : T.WellFormed) {a b : Option Index}
    (ha : ∀ i ∈ a, G.Mem T i.value) (hb : ∀ i ∈ b, G.Mem T i.value) :
    Settles T (Ty.mergeIndex meet a b) (fun T1 c => ∀ i ∈ c, G.Mem T1 i.value) := by
  unfold Ty.mergeIndex
  cases b with
  | none => exact settles_pure hT ha
  | some j =>
    cases a with
    | none => exact settles_pure hT hb
    | some i =>
      by_cases hkey : i.key = j.key
      · simp only [hkey, if_true]
        refine (hmeet T i.value j.value hT (ha i rfl) (hb j rfl)).bind fun t T1 hT1 _ ht => ?_
        exact settles_pure hT1 (by simpa using ht)
      · simp only [hkey, if_false]
        exact settles_pure hT hb

/-- Merging two objects gives one of the same sort, with no call signature twice. -/
theorem settles_mergeMembers (hmeet : MeetSettles G meet) (hT : T.WellFormed) {a b : Members}
    (ha : G.Fills names T a) (hb : G.Fills names T b) :
    Settles T (Ty.mergeMembers meet a b) (fun T1 m => G.Fills names T1 m ∧ m.calls.Nodup) := by
  have hfields : Settles T (b.fields.foldlM (Ty.mergeField meet) a.fields)
      (fun T1 gs => ∀ g ∈ gs, names g.name ∧ G.Mem T1 g.type) := by
    refine settles_foldlM b.fields hT ha.fields ?_
    intro f hf gs T1 hT1 h1 hgs
    exact settles_mergeField hmeet hT1 hgs ((hb.fields f hf).imp_right (G.of_le h1.le))
  refine hfields.bind fun fields T1 hT1 h1 hfs => ?_
  refine (settles_mergeIndex hmeet hT1 (ha.of_le h1.le).index (hb.of_le h1.le).index).bind
    fun index T2 hT2 h2 hix => ?_
  refine settles_pure hT2 ⟨⟨fun f hf => (hfs f hf).imp_right (G.of_le h2.le), hix, ?_⟩,
    nodup_eraseDups _⟩
  intro t ht
  rw [List.mem_eraseDups, List.mem_append] at ht
  rcases ht with ht | ht
  · exact (ha.of_le (h1.trans h2).le).calls t ht
  · exact (hb.of_le (h1.trans h2).le).calls t ht

end Merging

end Interning

namespace Table

/-- The type merges objects of some sort: it is an object of this sort, with no call signature
twice. -/
def Family.Merges (G : Family) (names : String → Prop) (T : Table) (t : Ty) : Prop :=
  ∃ m, G.Fills names T m ∧ m.calls.Nodup ∧ (T.shape t).Alike Eq (Interning.objectShape m)

theorem Family.Merges.members? (h : G.Merges names T t) : (Ty.members? T t).isSome = true := by
  obtain ⟨m, -, -, halike⟩ := h
  cases hs : T.shape t with
  | object n => simp [Ty.members?, hs]
  | _ =>
    rw [hs] at halike
    exact halike.elim

/-- What was found for the intersection of some types of the table `T0`: one of their members, a
primitive, or a merged object if there was an object among the members. -/
def Family.Found (G : Family) (names : String → Prop) (T0 : Table) (ts : List Ty) (T : Table)
    (m : Ty) : Prop :=
  T.Has m ∧ (m ∈ Ty.allIntersected T0 ts ∨
    (∃ p, m = .prim p ∧ (p = .invalid → .invalid ∈ Ty.allIntersected T0 ts)) ∨
    (∃ o ∈ Ty.allIntersected T0 ts, (Ty.members? T0 o).isSome = true) ∧ G.Merges names T m)

theorem Family.Found.of_le {T0 : Table} {m : Ty} (h : G.Found names T0 ts T m) (hle : T ≤ T') :
    G.Found names T0 ts T' m := by
  obtain ⟨hm, hfound⟩ := h
  refine ⟨has_of_le hle hm, hfound.imp_right (Or.imp_right (And.imp_right ?_))⟩
  rintro ⟨n, hn, hnodup, halike⟩
  exact ⟨n, hn.of_le hle, hnodup, by rwa [shape_of_le hle hm]⟩

end Table

namespace Interning

open Table

section Meeting

variable {meet : Ty → Ty → Interning Ty}

theorem settles_mergeWith (hmeet : MeetSettles G meet) (hT : T.WellFormed) {objects : List Members}
    (hobjects : ∀ m ∈ objects, G.Fills names T m) :
    Settles T (Ty.mergeWith meet objects) (fun T1 t => T1.Has t ∧ G.Merges names T1 t) := by
  have hempty : G.Fills names T {} ∧ ({} : Members).calls.Nodup :=
    ⟨⟨by simp, by simp, by simp⟩, by simp⟩
  have hfold : Settles T (objects.foldlM (Ty.mergeMembers meet) {})
      (fun T1 m => G.Fills names T1 m ∧ m.calls.Nodup) := by
    refine settles_foldlM objects hT hempty ?_
    intro m hm acc T1 hT1 h1 hacc
    exact settles_mergeMembers hmeet hT1 hacc.1 ((hobjects m hm).of_le h1.le)
  refine hfold.bind fun m T1 hT1 _ hm => ?_
  refine (gives_objectOf hT1 fun p hp => G.has (hm.1.parts p hp)).imp ?_
  rintro t T2 - h2 ⟨ht, halike⟩
  exact ⟨ht, m, hm.1.of_le h2.le, hm.2, halike⟩

theorem settles_mergeAmong (hmeet : MeetSettles G meet) (hT : T.WellFormed)
    (hobjects : ∀ t ∈ objects, T.Has t ∧ ∃ m, Ty.members? T t = some m ∧ G.Fills names T m) :
    Settles T (Ty.mergeAmong meet T objects) (fun T1 ts => ts.length ≤ 1 ∧
      ∀ t ∈ ts, T1.Has t ∧ (Ty.members? T1 t).isSome = true ∧
        (t ∈ objects ∨ objects ≠ [] ∧ G.Merges names T1 t)) := by
  have hmerge : objects ≠ [] →
      Settles T (do return [← Ty.mergeWith meet (objects.filterMap (Ty.members? T))])
        (fun T1 ts => ts.length ≤ 1 ∧ ∀ t ∈ ts, T1.Has t ∧ (Ty.members? T1 t).isSome = true ∧
          (t ∈ objects ∨ objects ≠ [] ∧ G.Merges names T1 t)) := by
    intro hne
    have hms : ∀ m ∈ objects.filterMap (Ty.members? T), G.Fills names T m := by
      intro m hm
      obtain ⟨t, ht, hm⟩ := List.mem_filterMap.mp hm
      obtain ⟨-, n, hn, hfills⟩ := hobjects t ht
      obtain rfl := Option.some.inj (hn.symm.trans hm)
      exact hfills
    refine (settles_mergeWith hmeet hT hms).bind fun t T1 hT1 _ ht => settles_pure hT1 ⟨by simp, ?_⟩
    intro u hu
    obtain rfl := List.mem_singleton.mp hu
    exact ⟨ht.1, ht.2.members?, .inr ⟨hne, ht.2⟩⟩
  have hsame : ∀ t ∈ objects, T.Has t ∧ (Ty.members? T t).isSome = true ∧
      (t ∈ objects ∨ objects ≠ [] ∧ G.Merges names T t) := by
    intro t ht
    obtain ⟨hhas, m, hm, -⟩ := hobjects t ht
    exact ⟨hhas, by simp [hm], .inl ht⟩
  match objects with
  | [] => exact settles_pure hT ⟨by simp, hsame⟩
  | [_] => exact settles_pure hT ⟨by simp, hsame⟩
  | _ :: _ :: _ => exact hmerge (by simp)

theorem mergeAmong_of_le (h : T ≤ T') (hobjects : ∀ t ∈ objects, T.Has t) :
    Ty.mergeAmong meet T' objects = Ty.mergeAmong meet T objects := by
  have hsame : objects.filterMap (Ty.members? T') = objects.filterMap (Ty.members? T) := by
    apply List.filterMap_congr
    intro t ht
    exact Table.members?_of_le h (hobjects t ht)
  match objects with
  | [] => rfl
  | [_] => rfl
  | _ :: _ :: _ => simp only [Ty.mergeAmong, hsame]

theorem nodup_of_length_le (h : ts.length ≤ 1) : ts.Nodup := by
  rcases ts with _ | ⟨t, _ | ⟨u, ts⟩⟩
  · simp
  · simp
  · simp at h

/-- An atom is no object. -/
theorem members?_of_isAtom (h : Ty.isAtom T t = true) : Ty.members? T t = none := by
  unfold Ty.isAtom at h
  unfold Ty.members?
  cases hs : T.shape t with
  | object m => simp [hs] at h
  | _ => rfl

/-- Atoms, objects and types that are neither have nothing in common. -/
theorem nodup_parts {as os rs : List Ty} (has : as.length ≤ 1 ∧ ∀ a ∈ as, Ty.isAtom T a = true)
    (hos : os.length ≤ 1 ∧ ∀ o ∈ os, (Ty.members? T o).isSome = true)
    (hrs : rs.Nodup ∧ ∀ r ∈ rs, Ty.isAtom T r = false ∧ Ty.members? T r = none) :
    (as ++ os ++ rs).Nodup := by
  rw [List.nodup_append, List.nodup_append]
  refine ⟨⟨nodup_of_length_le has.1, nodup_of_length_le hos.1, ?_⟩, hrs.1, ?_⟩
  · rintro a ha b hb rfl
    have hsome := hos.2 a hb
    rw [members?_of_isAtom (has.2 a ha)] at hsome
    exact absurd hsome (by simp)
  · rintro a ha b hb rfl
    obtain ⟨hnot, hnone⟩ := hrs.2 a hb
    rcases List.mem_append.mp ha with ha | ha
    · rw [has.2 a ha] at hnot
      exact absurd hnot (by simp)
    · have hsome := hos.2 a ha
      rw [hnone] at hsome
      exact absurd hsome (by simp)

/-- A type that is neither an atom nor an object stays so. -/
theorem of_mem_othersAmong (h : T ≤ T') (hts : ∀ t ∈ ts, T.Has t) (ht : t ∈ Ty.othersAmong T ts) :
    t ∈ ts ∧ Ty.isAtom T' t = false ∧ Ty.members? T' t = none := by
  obtain ⟨ht, hother⟩ := List.mem_filter.mp ht
  rw [Table.isAtom_of_le h (hts t ht), Table.members?_of_le h (hts t ht)]
  simp only [Bool.and_eq_true, Bool.not_eq_true', Option.isNone_iff_eq_none] at hother
  exact ⟨ht, hother⟩

/-- What is left of the atoms among some types is one of them. -/
theorem of_reduceAtoms (h : T ≤ T') (hts : ∀ t ∈ ts, T.Has t)
    (hreduce : Ty.reduceAtoms T none (Ty.atomsAmong T ts) = some (some a)) :
    a ∈ ts ∧ Ty.isAtom T' a = true ∧ a ≠ .unknown := by
  rcases Table.mem_of_reduceAtoms hreduce with hmem | hmem
  · obtain ⟨ha, hatom⟩ := List.mem_filter.mp hmem
    simp only [Bool.and_eq_true, decide_eq_true_eq] at hatom
    exact ⟨ha, (Table.isAtom_of_le h (hts a ha)).trans hatom.1, hatom.2⟩
  · exact absurd hmem (by simp)

/-- The members of an intersection are found, each once; several are as an intersection keeps
them. -/
theorem settles_meetMembers (hmeet : MeetSettles G meet) (hT : T.WellFormed)
    (hts : ∀ t ∈ ts, T.Has t)
    (hobjects : ∀ t ∈ Ty.allIntersected T ts, ∀ m, Ty.members? T t = some m → G.Fills names T m) :
    Settles T (Ty.meetMembers meet ts) (fun T1 ms => ms.Nodup ∧
      (∀ m ∈ ms, G.Found names T ts T1 m) ∧ (ms.length ≠ 1 → T1.Orderly → T1.Reduced ms)) := by
  have hall : ∀ m ∈ Ty.allIntersected T ts, T.Has m := fun m hm => hT.has_intersected hts hm
  have hatoms : ∀ m ∈ Ty.atomsAmong T (Ty.allIntersected T ts), T.Has m := by
    intro m hm
    exact hall m (List.mem_filter.mp hm).1
  have hamong : ∀ m ∈ Ty.objectsAmong T (Ty.allIntersected T ts),
      T.Has m ∧ ∃ n, Ty.members? T m = some n ∧ G.Fills names T n := by
    intro m hm
    obtain ⟨hm, hobj⟩ := List.mem_filter.mp hm
    obtain ⟨n, hn⟩ := Option.isSome_iff_exists.mp hobj
    exact ⟨hall m hm, n, hn, hobjects m hm n hn⟩
  have hone : ∀ p : Primitive, (p = .invalid → .invalid ∈ Ty.allIntersected T ts) →
      Settles T (pure [.prim p]) (fun T1 ms => ms.Nodup ∧
        (∀ m ∈ ms, G.Found names T ts T1 m) ∧ (ms.length ≠ 1 → T1.Orderly → T1.Reduced ms)) := by
    intro p hp
    refine settles_pure hT ⟨by simp, fun m hm => ?_, fun h => absurd rfl h⟩
    obtain rfl := List.mem_singleton.mp hm
    exact ⟨T.has_prim p, .inr (.inl ⟨p, rfl, hp⟩)⟩
  have hnone : ∀ b ∈ (none : Option Ty), T.Has b := by simp
  refine settles_get_bind ?_ ?_
  · intro T2 h2
    simp only [Table.allIntersected_of_le h2 hts, Table.atomsAmong_of_le h2 hall,
      Table.objectsAmong_of_le h2 hall, Table.othersAmong_of_le h2 hall,
      Table.reduceAtoms_of_le h2 hatoms hnone,
      mergeAmong_of_le h2 fun t ht => (hamong t ht).1]
  · dsimp only
    split_ifs with hinvalid hnever hany
    · exact hone .invalid fun _ => by simpa using hinvalid
    · exact hone .never (by simp)
    · exact hone .any (by simp)
    cases hreduce : Ty.reduceAtoms T none (Ty.atomsAmong T (Ty.allIntersected T ts)) with
    | none => exact hone .never (by simp)
    | some atom =>
      refine (settles_mergeAmong hmeet hT hamong).bind fun merged T1 hT1 h1 hmerged => ?_
      have hothers := fun m => of_mem_othersAmong (t := m) h1.le hall
      have hatom : ∀ a ∈ atom.toList, a ∈ Ty.allIntersected T ts ∧ Ty.isAtom T1 a = true ∧
          a ≠ .unknown := fun a ha =>
        of_reduceAtoms h1.le hall (hreduce.trans (congrArg some (by simpa using ha)))
      have hsingle : atom.toList.length ≤ 1 ∧ ∀ a ∈ atom.toList, Ty.isAtom T1 a = true :=
        ⟨by cases atom <;> simp, fun a ha => (hatom a ha).2.1⟩
      have hobject := And.intro hmerged.1 fun o ho => (hmerged.2 o ho).2.1
      have hold : ∀ m ∈ Ty.allIntersected T ts, G.Found names T ts T1 m :=
        fun m hm => ⟨Table.has_of_le h1.le (hall m hm), .inl hm⟩
      -- a primitive or literal, then objects, then types that are neither
      have hms : (atom.toList ++ merged ++ Ty.othersAmong T (Ty.allIntersected T ts)).Nodup ∧
          ∀ m ∈ atom.toList ++ merged ++ Ty.othersAmong T (Ty.allIntersected T ts),
            G.Found names T ts T1 m := by
        refine ⟨nodup_parts hsingle hobject ⟨(nodup_eraseDups _).filter _,
          fun r hr => (hothers r hr).2⟩, fun m hm => ?_⟩
        rcases List.mem_append.mp hm with hm | hm
        · rcases List.mem_append.mp hm with hm | hm
          · exact hold m (hatom m hm).1
          · obtain ⟨hhas, -, hmem | ⟨hsome, hmerges⟩⟩ := hmerged.2 m hm
            · exact hold m (List.mem_filter.mp hmem).1
            · obtain ⟨o, ho⟩ := List.exists_mem_of_ne_nil _ hsome
              obtain ⟨ho, hobject⟩ := List.mem_filter.mp ho
              exact ⟨hhas, .inr (.inr ⟨⟨o, ho, hobject⟩, hmerges⟩)⟩
        · exact hold m (hothers m hm).1
      have hreduced : 2 ≤ (atom.toList ++ merged ++
          Ty.othersAmong T (Ty.allIntersected T ts)).length → T1.Orderly →
          T1.Reduced (atom.toList ++ merged ++ Ty.othersAmong T (Ty.allIntersected T ts)) := by
        intro hseveral horderly
        have hnot : ∀ {t u : Ty}, t ∈ Ty.allIntersected T ts →
            ¬(Ty.allIntersected T ts).contains u = true → t ≠ u := by
          rintro t _ ht hu rfl
          exact hu (List.contains_iff_mem.mpr ht)
        refine .of_parts hseveral hsingle ?_ hobject ?_
        · intro a ha
          obtain ⟨hin, -, hunknown⟩ := hatom a ha
          exact ⟨hnot hin hnever, hnot hin hany, hunknown, hnot hin hinvalid⟩
        · intro r hr
          obtain ⟨hin, hother⟩ := hothers r hr
          refine ⟨hother.1, hother.2, ?_⟩
          rw [Table.intersectionMembers_of_le h1.le (hall r hin)]
          exact (horderly.of_later hT h1.le).flat_intersected hin
      generalize atom.toList ++ merged ++ Ty.othersAmong T (Ty.allIntersected T ts) =
        ms at hms hreduced
      cases ms with
      | nil =>
        refine settles_pure hT1 ⟨by simp, fun m hm => ?_, fun h => absurd rfl h⟩
        obtain rfl := List.mem_singleton.mp hm
        exact ⟨T1.has_prim _, .inr (.inl ⟨.unknown, rfl, by simp⟩)⟩
      | cons m ms =>
        refine settles_pure hT1 ⟨hms.1, hms.2, fun hlength => hreduced ?_⟩
        simp only [List.length_cons] at hlength ⊢
        omega

/-- An intersection is what was found for it, or it consists of that. -/
theorem settles_intersectionAt_found {depth : Nat}
    (hmeet : MeetSettles G fun a b => Ty.intersectionAt depth [a, b]) (hT : T.WellFormed)
    (hts : ∀ t ∈ ts, T.Has t)
    (hobjects : ∀ t ∈ Ty.allIntersected T ts, ∀ m, Ty.members? T t = some m → G.Fills names T m) :
    Settles T (Ty.intersectionAt (depth + 1) ts) (fun T1 t => T1.Has t ∧
      (G.Found names T ts T1 t ∨ ∃ ms, T1.shape t = .intersection ms ∧
        ∀ m ∈ ms, G.Found names T ts T1 m)) := by
  refine (settles_meetMembers hmeet hT hts hobjects).bind fun ms T1 hT1 _ hms => ?_
  obtain ⟨hnodup, hfound, hreduced⟩ := hms
  refine (settles_combine .intersection hT1 (fun m hm => (hfound m hm).1) (fun _ => ?_)
    fun hlength h => (hreduced hlength h).perm (List.mergeSort_perm ms T1.inOrder)).imp ?_
  · exact ⟨Table.nodup_sortMembers hnodup, rfl,
      fun p hp => (hfound p (Table.mem_sortMembers.mp hp)).1, by simp, by simp, by simp⟩
  · rintro t T2 - h2 ⟨ht, hone | hmany⟩
    · exact ⟨ht, .inl ((hfound t (by simp [hone])).of_le h2.le)⟩
    · refine ⟨ht, .inr ?_⟩
      cases hs : T2.shape t with
      | intersection ns =>
        rw [hs] at hmany
        refine ⟨ns, rfl, fun m hm => (hfound m ?_).of_le h2.le⟩
        exact Table.mem_sortMembers.mp ((sameMembers_eq_iff.mp hmany m).mp hm)
      | _ =>
        rw [hs] at hmany
        exact hmany.elim

end Meeting

theorem forall_mem_pair {P : Ty → Prop} {b : Ty} (ha : P a) (hb : P b) : ∀ t ∈ [a, b], P t := by
  simp [ha, hb]

/-- An intersection settles, whatever depth it is allowed. -/
theorem settles_intersectionAt (depth : Nat) (hT : T.WellFormed)
    (hts : ∀ t ∈ ts, T.Has t) : Settles T (Ty.intersectionAt depth ts) Table.Has := by
  induction depth generalizing T ts with
  | zero => exact settles_pure hT (T.has_prim _)
  | succ depth ih =>
    have hmeet : MeetSettles .all fun a b => Ty.intersectionAt depth [a, b] := by
      intro T1 a b hT1 ha hb
      exact ih hT1 (forall_mem_pair ha hb)
    exact (settles_intersectionAt_found hmeet hT hts (hT.fills_intersected hts)).imp
      fun _ _ _ _ h => h.1

/-- The members that an intersection of some types is made of. -/
def intersected (ts : List Ty) : Interning (List Ty) :=
  Ty.meetMembers (fun a b => Ty.intersectionAt (Ty.height ts) [a, b]) ts

/-- An intersection says of its members what was asked for. -/
theorem settles_intersectionOf (hT : T.WellFormed) (hts : ∀ t ∈ ts, T.Has t) :
    Settles T (Ty.intersectionOf ts) (fun T1 t => T1.Has t ∧
      ((intersected ts T).1 = [t] ∨
        (T1.shape t).Alike Eq (.intersection (intersected ts T).1))) := by
  have hmeet : MeetSettles .all fun a b => Ty.intersectionAt (Ty.height ts) [a, b] := by
    intro T1 a b hT1 ha hb
    exact settles_intersectionAt _ hT1 (forall_mem_pair ha hb)
  obtain ⟨ms, T0, hat, hms⟩ := settles_meetMembers hmeet hT hts (hT.fills_intersected hts)
  have hrun : (intersected ts T).1 = ms := congrArg Prod.fst hat.result
  rw [hrun]
  have hfound : Settles T (intersected ts) (fun T1 ks => ks = ms ∧ T1.WellFormed ∧ ms.Nodup ∧
      (∀ m ∈ ms, T1.Has m) ∧ (ms.length ≠ 1 → T1.Orderly → T1.Reduced ms)) :=
    ⟨ms, T0, hat, rfl, hat.wellFormed, hms.1, fun m hm => (hms.2.1 m hm).1, hms.2.2⟩
  refine hfound.bind ?_
  rintro ks T1 hT1 - ⟨rfl, -, hnodup, hhas, hreduced⟩
  refine (settles_combine .intersection hT1 hhas (fun _ => ?_)
    fun hlength h => (hreduced hlength h).perm (List.mergeSort_perm ks T1.inOrder)).imp ?_
  · exact ⟨Table.nodup_sortMembers hnodup, rfl, fun p hp => hhas p (Table.mem_sortMembers.mp hp),
      by simp, by simp, by simp⟩
  · rintro t T2 hT2 h2 ⟨ht, hone | hmany⟩
    · exact ⟨ht, .inl hone⟩
    · refine ⟨ht, .inr ?_⟩
      cases hs : T2.shape t with
      | intersection ns =>
        rw [hs] at hmany
        refine sameMembers_eq_iff.mpr fun m => ?_
        rw [sameMembers_eq_iff.mp hmany m, Table.mem_sortMembers]
      | _ =>
        rw [hs] at hmany
        exact hmany.elim

end Interning

end ShapeCheck
