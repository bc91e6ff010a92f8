import ShapeCheck.Proofs.Constituents

/-!
# The order of an intersection

An intersection is computed in an order: nested intersections are taken apart, objects are merged
one after the other, field by field with the intersection of two types, and what is left of
primitives and literals is found by comparing neighbours. Each of these steps leaves what
`Table.IsMeet` says of its types, so the result is an intersection of the types as a set. There is
one such type where the order does not show.

* `Table.MeetsFields`, `Table.MeetsIndex` and `Table.MeetsObjects` say what merging objects leaves.
* `Table.settles_intersectionOf_meets` says that an intersection is one of its types as a set.
* `Ty.intersectionOf_unordered` says that the order does not matter, and
  `Ty.not_intersectionOf_unordered` where it does.
-/

namespace ShapeCheck

open Relation (ReflTransGen)

variable {S : Set Ty} {x t m : Ty} {a o : Members} {as ts : List Ty} {T : Table}

namespace Table

/-- The fields are some fields merged, each with an intersection of their types. -/
structure MeetsFields (T : Table) (F : Set Field) (fs : List Field) : Prop where
  nodup : (fs.map Field.name).Nodup
  sums : SumsUp F { f | f ∈ fs }
  types : ∀ f ∈ fs, T.IsMeet (typesNamed F f.name) f.type

/-- The index signature is made of some index signatures. -/
structure MeetsIndex (T : Table) (I : Set Index) (index : Option Index) : Prop where
  keys : ∀ key, (∃ i ∈ index, i.key = key) ↔ ∃ i ∈ I, i.key = key
  types : ∀ i ∈ index, T.IsMeet (Index.value '' I) i.value

/-- What the objects share can be intersected, and their index signatures have one key. -/
structure Shares (T : Table) (depth : Nat) (O : Set Members) : Prop where
  keys : ∀ i ∈ indicesIn O, ∀ j ∈ indicesIn O, i.key = j.key
  inside : ∀ place, T.Blendable depth (typesAt O place)

/-- The second types are the members of an intersection of the first ones. -/
structure Collects (T : Table) (S R : Set Ty) : Prop where
  verdict : T.verdict S = none
  flat : T.constituents R = R
  condenses : T.Condenses S R
  inside : ∀ place, ∀ t ∈ T.inside R place, T.IsMeet (T.inside S place) t

section Merging

variable {T' : Table} {F : Set Field} {I : Set Index} {O P : Set Members} {R : Set Ty} {f : Field}
  {fs : List Field} {n : Members} {w : Ty} {depth : Nat}

theorem MeetsFields.congr (h : T.MeetsFields F fs) (hle : T.Agrees T') (hT : T.WellFormed)
    (hF : ∀ name, T.HasAll (typesNamed F name)) : T'.MeetsFields F fs :=
  ⟨h.nodup, h.sums, fun f hf => (h.types f hf).congr hle hT (hF f.name)⟩

theorem MeetsIndex.congr {index : Option Index} (h : T.MeetsIndex I index) (hle : T.Agrees T')
    (hT : T.WellFormed) (hI : T.HasAll (Index.value '' I)) : T'.MeetsIndex I index :=
  ⟨h.keys, fun i hi => (h.types i hi).congr hle hT hI⟩

theorem MeetsObjects.congr (h : T.MeetsObjects O n) (hle : T.Agrees T') (hT : T.WellFormed)
    (hO : ∀ place, T.HasAll (typesAt O place)) : T'.MeetsObjects O n :=
  ⟨h.merges, fun place t ht => (h.inside place t ht).congr hle hT (hO place)⟩

theorem Shares.congr (h : T.Shares depth O) (hle : T.Agrees T') (hT : T.WellFormed) :
    T'.Shares depth O :=
  ⟨h.keys, fun place => (h.inside place).congr hle hT⟩

theorem Shares.mono (h : T.Shares depth P) (hOP : O ⊆ P) : T.Shares depth O :=
  ⟨fun i hi j hj => h.keys i (indicesIn_mono hOP hi) j (indicesIn_mono hOP hj),
    fun place => (h.inside place).mono (typesAt_mono hOP)⟩

theorem MeetsObjects.meetsFields (h : T.MeetsObjects O n)
    (hnodup : (n.fields.map Field.name).Nodup) :
    T.MeetsFields (fieldsIn O) n.fields :=
  ⟨hnodup, h.merges.fields, fun f hf => h.inside (.field f.name) _ ⟨f, by simpa using hf, rfl, rfl⟩⟩

theorem MeetsObjects.meetsIndex (h : T.MeetsObjects O n) : T.MeetsIndex (indicesIn O) n.index :=
  ⟨h.merges.keys, fun i hi => h.inside .index _ ⟨i, by simpa using hi, rfl⟩⟩

theorem meetsObjects_of (hfields : T.MeetsFields (fieldsIn O) n.fields)
    (hindex : T.MeetsIndex (indicesIn O) n.index) (hcalls : ∀ c, c ∈ n.calls ↔ c ∈ callsIn O) :
    T.MeetsObjects O n := by
  refine ⟨⟨hfields.sums, hindex.keys, hcalls⟩, fun place t ht => ?_⟩
  cases place with
  | field name =>
    obtain ⟨f, hf, rfl, rfl⟩ := ht
    exact hfields.types f (by simpa using hf)
  | index =>
    obtain ⟨i, hi, rfl⟩ := ht
    exact hindex.types i (by simpa using hi)

theorem Collects.congr (h : T.Collects S R) (hle : T.Agrees T')
    (hT : T.WellFormed) (hS : T.HasAll S)
    (hR : T.HasAll R) : T'.Collects S R := by
  refine ⟨(verdict_agrees hle hT hS).trans h.verdict, (constituents_congr hle hR).trans h.flat,
    h.condenses.congr hle hT hS hR, fun place t ht => ?_⟩
  rw [inside_congr hle hT hR] at ht
  rw [inside_congr hle hT hS]
  exact (h.inside place t ht).congr hle hT (hT.hasAll_inside hS place)

/-- What has the members that were gathered is an intersection. -/
theorem Collects.isMeet (h : T.Collects S R) (hw : T.Has w) (hR : T.constituents {w} = R) :
    T.IsMeet S w := by
  replace hR := hR.trans h.flat.symm
  have hobjects : T.objectsOf {w} = T.objectsOf R := by rw [objectsOf, hR, objectsOf]
  refine .combined hw h.verdict ⟨fun a => ?_, ?_, ?_, ?_⟩ ?_
  · rw [← h.condenses.atoms, Atom, hR, Atom]
  · rw [← h.condenses.others, othersOf, hR, othersOf]
  · rw [hobjects]
    exact h.condenses.objects
  · rw [hobjects]
    exact h.condenses.merges
  · intro place t ht
    rw [Table.inside, hobjects] at ht
    exact h.inside place t ht

theorem typesNamed_insert_of_ne {name : String} (h : f.name ≠ name) :
    typesNamed (F ∪ {f}) name = typesNamed F name := by
  rw [typesNamed_union, typesNamed_eq_empty (F := {f}), Set.union_empty]
  rintro _ rfl
  exact h

theorem typesNamed_singleton (f : Field) : typesNamed {f} f.name = {f.type} :=
  typesNamed_eq_singleton rfl fun _ h _ => h

end Merging

end Table

namespace Interning

open Table

section Merging

variable {meet : Ty → Ty → Interning Ty} {F : Set Field} {I : Set Index} {f : Field}
  {fs : List Field} {O : Set Members} {depth : Nat}

/-- The meet of two types settles with their intersection. -/
def MeetsAt (depth : Nat) (meet : Ty → Ty → Interning Ty) : Prop :=
  ∀ (T : Table) (a b : Ty), T.WellFormed → T.Orderly → T.Blendable depth {a, b} →
    Settles T (meet a b) fun T1 w => T1.IsMeet {a, b} w

/-- A further type is met by what was met before. -/
theorem MeetsAt.next (hmeet : MeetsAt depth meet) (hT : T.WellFormed) (hO : T.Orderly)
    (hx : T.IsMeet S x) (hr : T.Blendable depth (S ∪ {t})) :
    Settles T (meet x t) fun T1 w => T1.IsMeet (S ∪ {t}) w := by
  have hall : T.HasAll S := fun u hu => hr.has u (.inl hu)
  refine (hmeet T x t hT hO (hr.meet hT hO hx)).imp fun w T1 hT1 h1 hw => ?_
  have hle := Agrees.of_le h1.le
  exact (hx.congr hle hT hall).trans hT1 (h1.orderly hO) hw (hr.congr hle hT)

theorem mem_putField_iff {g : Field} (h : ∃ k ∈ fs, k.name = f.name) :
    g ∈ Ty.putField fs f ↔ g = f ∨ g ∈ fs ∧ g.name ≠ f.name := by
  have hany : fs.any (·.name = f.name) = true := by simpa using h
  simp only [Ty.putField, hany, if_true, List.mem_map]
  constructor
  · rintro ⟨k, hk, rfl⟩
    split
    · exact .inl rfl
    · exact .inr ⟨hk, by assumption⟩
  · rintro (rfl | ⟨hg, hname⟩)
    · obtain ⟨k, hk, hname⟩ := h
      exact ⟨k, hk, if_pos hname⟩
    · exact ⟨g, hg, if_neg hname⟩

section

variable (hmeet : MeetsAt depth meet) (hT : T.WellFormed)
include hmeet hT

theorem settles_mergeField_meets (hO : T.Orderly)
    (hfs : T.MeetsFields F fs) (hF : ∀ name, T.Blendable depth (typesNamed (F ∪ {f}) name)) :
    Settles T (Ty.mergeField meet fs f) (fun T1 gs => T1.MeetsFields (F ∪ {f}) gs) := by
  have hf : f.type ∈ typesNamed (F ∪ {f}) f.name := ⟨f, .inr rfl, rfl, rfl⟩
  unfold Ty.mergeField
  cases hfind : fs.find? (·.name = f.name) with
  | none =>
    have hnew : ∀ g ∈ fs, g.name ≠ f.name := by simpa [List.find?_eq_none] using hfind
    have hnone : ∀ e ∈ F, e.name ≠ f.name := fun e he hname =>
      let ⟨g, hg, hge⟩ := hfs.sums.names e he
      hnew g hg (hge.trans hname)
    have hself : ∀ e ∈ F ∪ {f}, e.name = f.name → e = f := by
      rintro e (he | he) hname
      · exact absurd hname (hnone e he)
      · exact he
    refine settles_pure hT ⟨?_, ⟨?_, fun g hg => ?_⟩, fun g hg => ?_⟩
    · rw [List.map_append, List.nodup_append]
      refine ⟨hfs.nodup, by simp, ?_⟩
      rintro _ hg _ hf rfl
      obtain ⟨g, hg, hname⟩ := List.mem_map.mp hg
      exact hnew g hg (hname.trans (by simpa using hf))
    · rintro e (he | rfl)
      · obtain ⟨g, hg, hname⟩ := hfs.sums.names e he
        exact ⟨g, List.mem_append_left _ hg, hname⟩
      · exact ⟨e, by simp, rfl⟩
    · rcases List.mem_append.mp hg with hg | hg
      · exact (hfs.sums.sums g hg).insert_of_ne (hnew g hg).symm
      · obtain rfl := List.mem_singleton.mp hg
        exact .self (.inr rfl) hself
    · rcases List.mem_append.mp hg with hg | hg
      · rw [typesNamed_insert_of_ne (hnew g hg).symm]
        exact hfs.types g hg
      · obtain rfl := List.mem_singleton.mp hg
        rw [typesNamed_eq_singleton (.inr rfl) hself]
        exact isMeet_self hT hO ((hF g.name).has _ hf)
  | some g =>
    have hg := List.mem_of_find?_eq_some hfind
    have hname : g.name = f.name := by simpa using List.find?_some hfind
    have hsplit := typesNamed_union F {f} f.name
    rw [typesNamed_singleton] at hsplit
    refine (hmeet.next hT hO (hname ▸ hfs.types g hg) (hsplit ▸ hF f.name)).bind
      fun w T1 hT1 h1 hw => ?_
    have hmem := fun k => mem_putField_iff (g := k)
      (f := ⟨f.name, w, g.optional && f.optional, g.readonly || f.readonly⟩) ⟨g, hg, hname⟩
    refine settles_pure hT1 ⟨nodup_putField hfs.nodup _, ⟨?_, fun k hk => ?_⟩, fun k hk => ?_⟩
    · rintro e he
      by_cases hef : e.name = f.name
      · exact ⟨_, (hmem _).mpr (.inl rfl), hef.symm⟩
      · obtain ⟨k, hk, hke⟩ := hfs.sums.names e (he.resolve_right fun h => hef (h ▸ rfl))
        exact ⟨k, (hmem k).mpr (.inr ⟨hk, hke.symm ▸ hef⟩), hke⟩
    · rcases (hmem k).mp hk with rfl | ⟨hk, hkf⟩
      · exact (hfs.sums.sums g hg).insert hname.symm hname.symm rfl rfl
      · exact (hfs.sums.sums k hk).insert_of_ne (Ne.symm hkf)
    · rcases (hmem k).mp hk with rfl | ⟨hk, hkf⟩
      · exact hsplit ▸ hw
      · have hkf : f.name ≠ k.name := Ne.symm hkf
        rw [typesNamed_insert_of_ne hkf]
        refine (hfs.types k hk).congr (.of_le h1.le) hT fun t ht => (hF k.name).has t ?_
        exact typesNamed_mono Set.subset_union_left ht

theorem settles_mergeFields_meets (hO : T.Orderly)
    (gs : List Field) (hfs : T.MeetsFields F fs)
    (hF : ∀ name, T.Blendable depth (typesNamed (F ∪ { g | g ∈ gs }) name)) :
    Settles T (gs.foldlM (Ty.mergeField meet) fs)
      (fun T1 ks => T1.MeetsFields (F ∪ { g | g ∈ gs }) ks) := by
  induction gs generalizing T F fs with
  | nil =>
    have hset : F ∪ { g | g ∈ ([] : List Field) } = F := by simp
    rw [hset]
    exact settles_pure hT hfs
  | cons g gs ih =>
    have hset : F ∪ { k | k ∈ g :: gs } = F ∪ {g} ∪ { k | k ∈ gs } := by
      ext k
      simp [or_assoc, or_left_comm]
    rw [hset] at hF ⊢
    rw [List.foldlM_cons]
    refine (settles_mergeField_meets hmeet hT hO hfs fun name =>
      (hF name).mono (typesNamed_mono Set.subset_union_left)).bind fun ks T1 hT1 h1 hks => ?_
    exact ih hT1 (h1.orderly hO) hks fun name => (hF name).congr (.of_le h1.le) hT

theorem settles_mergeIndex_meets (hO : T.Orderly)
    {a b : Option Index} (ha : T.MeetsIndex I a)
    (hkeys : ∀ i ∈ I ∪ { i | i ∈ b }, ∀ j ∈ I ∪ { i | i ∈ b }, i.key = j.key)
    (hI : T.Blendable depth (Index.value '' (I ∪ { i | i ∈ b }))) :
    Settles T (Ty.mergeIndex meet a b) (fun T1 c => T1.MeetsIndex (I ∪ { i | i ∈ b }) c) := by
  unfold Ty.mergeIndex
  cases b with
  | none =>
    have hset : I ∪ { i | i ∈ (none : Option Index) } = I := by simp
    rw [hset]
    exact settles_pure hT ha
  | some j =>
    have hset : { i | i ∈ some j } = ({j} : Set Index) := by
      ext i
      simp [eq_comm]
    rw [hset] at hkeys hI ⊢
    have hkey : ∀ (value : Ty) (key : IndexKey), (∃ i ∈ some (Index.mk j.key value), i.key = key) ↔
        ∃ i ∈ I ∪ {j}, i.key = key := by
      intro value key
      constructor
      · rintro ⟨i, ⟨⟩, rfl⟩
        exact ⟨j, .inr rfl, rfl⟩
      · rintro ⟨i, hi, rfl⟩
        exact ⟨_, rfl, hkeys j (.inr rfl) i hi⟩
    rw [Set.image_union, Set.image_singleton] at hI
    cases a with
    | none =>
      have hnone : I = ∅ := by
        rw [Set.eq_empty_iff_forall_notMem]
        intro i hi
        obtain ⟨k, hk, -⟩ := (ha.keys i.key).mpr ⟨i, hi, rfl⟩
        cases hk
      refine settles_pure hT ⟨hkey j.value, ?_⟩
      rintro i ⟨⟩
      rw [hnone, Set.empty_union, Set.image_singleton]
      exact isMeet_self hT hO (hI.has _ (.inr rfl))
    | some i =>
      obtain ⟨k, hk, hki⟩ := (ha.keys i.key).mp ⟨i, rfl, rfl⟩
      have hij : i.key = j.key := hki ▸ hkeys k (.inl hk) j (.inr rfl)
      simp only [hij, if_true]
      refine (hmeet.next hT hO (ha.types i rfl) hI).bind fun w T1 hT1 _ hw => ?_
      refine settles_pure hT1 ⟨hkey w, ?_⟩
      rintro i ⟨⟩
      rw [Set.image_union, Set.image_singleton]
      exact hw

/-- One more object is merged. -/
theorem settles_mergeMembers_meets (hO : T.Orderly)
    {b : Members} (ha : T.MeetsObjects O a ∧ (a.fields.map Field.name).Nodup)
    (hready : T.Shares depth (O ∪ {b})) : Settles T (Ty.mergeMembers meet a b)
      (fun T1 n => T1.MeetsObjects (O ∪ {b}) n ∧ (n.fields.map Field.name).Nodup) := by
  have hfields := fun name => hready.inside (.field name)
  have hindex := hready.inside .index
  have hkeys := hready.keys
  simp only [typesAt, fieldsIn_union, indicesIn_union, fieldsIn_singleton, indicesIn_singleton]
    at hfields hindex hkeys
  refine (settles_mergeFields_meets hmeet hT hO b.fields (ha.1.meetsFields ha.2) hfields).bind
    fun fs T1 hT1 h1 hfs => ?_
  have hle := Agrees.of_le h1.le
  refine (settles_mergeIndex_meets hmeet hT1 (h1.orderly hO) (ha.1.meetsIndex.congr hle hT
    fun t ht => hindex.has t (Set.image_mono Set.subset_union_left ht)) hkeys
    (hindex.congr hle hT)).bind fun i T2 hT2 h2 hi => ?_
  have hfs2 := hfs.congr (.of_le h2.le) hT1 fun name => (hfields name).has.agrees hle
  refine settles_pure hT2 ⟨meetsObjects_of ?_ ?_ fun c => ?_, hfs2.nodup⟩
  · rwa [fieldsIn_union, fieldsIn_singleton]
  · rwa [indicesIn_union, indicesIn_singleton]
  · rw [callsIn_union, callsIn_singleton]
    simp [ha.1.merges.calls]

theorem settles_mergeAll_meets (hO : T.Orderly)
    (os : List Members) (ha : T.MeetsObjects O a ∧ (a.fields.map Field.name).Nodup)
    (hready : T.Shares depth (O ∪ { o | o ∈ os })) : Settles T (os.foldlM (Ty.mergeMembers meet) a)
      (fun T1 n => T1.MeetsObjects (O ∪ { o | o ∈ os }) n ∧ (n.fields.map Field.name).Nodup) := by
  induction os generalizing T O a with
  | nil =>
    have hset : O ∪ { o | o ∈ ([] : List Members) } = O := by simp
    rw [hset]
    exact settles_pure hT ha
  | cons o os ih =>
    have hset : O ∪ { p | p ∈ o :: os } = O ∪ {o} ∪ { p | p ∈ os } := by
      ext p
      simp [or_assoc, or_left_comm]
    rw [hset] at hready ⊢
    rw [List.foldlM_cons]
    refine (settles_mergeMembers_meets hmeet hT hO ha (hready.mono Set.subset_union_left)).bind
      fun n T1 hT1 h1 hn => ?_
    exact ih hT1 (h1.orderly hO) hn (hready.congr (.of_le h1.le) hT)

theorem settles_mergeWith_meets (hO : T.Orderly)
    (os : List Members) (hcalls : ∀ o ∈ os, ∀ c ∈ o.calls, T.Has c)
    (hready : T.Shares depth { o | o ∈ os }) :
    Settles T (Ty.mergeWith meet os) (fun T1 u => ∃ n, Ty.members? T1 u = some n ∧
      T1.MeetsObjects { o | o ∈ os } n) := by
  have hempty : T.MeetsObjects ∅ {} := by
    refine ⟨⟨⟨by simp [fieldsIn], by simp⟩, by simp [indicesIn], by simp [callsIn]⟩, ?_⟩
    rintro (name | _) t ⟨x, hx, -⟩
    · simp at hx
    · simp at hx
  have hset : (∅ : Set Members) ∪ { o | o ∈ os } = { o | o ∈ os } := Set.empty_union _
  refine (settles_mergeAll_meets hmeet hT hO os ⟨hempty, by simp⟩ (by rwa [hset])).bind
    fun m T1 hT1 h1 hm => ?_
  rw [hset] at hm
  obtain ⟨hm, hnodup⟩ := hm
  have hparts : ∀ p ∈ (Shape.object m).parts, T1.Has p := by
    refine Shape.forall_parts_object.mpr ⟨fun f hf => ((hm.meetsFields hnodup).types f hf).has,
      fun i hi => (hm.meetsIndex.types i hi).has, fun c hc => ?_⟩
    obtain ⟨o, ho, hc⟩ := (hm.merges.calls c).mp hc
    exact has_of_le h1.le (hcalls o ho c hc)
  refine (gives_objectOf hT1 hparts).imp ?_
  rintro u T2 hT2 h2 ⟨-, halike⟩
  rw [objectShape, foldl_putField_self hnodup] at halike
  cases hs : T2.shape u with
  | object n =>
    have hn : (n.fields.map Field.name).Nodup := by
      have := hT2.tidy u
      rwa [hs] at this
    rw [hs] at halike
    obtain ⟨hsorted, hindex, hcalls'⟩ := Key.members_injective
      ((Shape.members_key_eq_iff hn hnodup).mpr halike)
    have hmem : { f | f ∈ n.fields } = { f | f ∈ m.fields } := by
      ext f
      exact ((Key.sortFields_eq_iff hn).mp hsorted).mem_iff
    have hm2 := hm.congr (.of_le h2.le) hT1
      fun place => ((hready.inside place).congr (.of_le h1.le) hT).has
    have hplaces : ∀ place, typesAt {n} place = typesAt {m} place := by
      rintro (name | _) <;> simp only [typesAt, fieldsIn_singleton,
        indicesIn_singleton, hmem, hindex]
    refine ⟨n, by simp [Ty.members?, hs], ⟨?_, ?_, ?_⟩, fun place t ht => ?_⟩
    · rw [hmem]
      exact hm2.merges.fields
    · rw [hindex]
      exact hm2.merges.keys
    · rw [hcalls']
      exact hm2.merges.calls
    · exact hm2.inside place t (hplaces place ▸ ht)
  | _ =>
    rw [hs] at halike
    exact halike.elim

end

/-- The objects among the members of an intersection leave one object. -/
theorem settles_mergeAmong_meets (hT : T.WellFormed) (hO : T.Orderly) {objects : List Ty}
    (hobjects : ∀ m ∈ objects, T.Has m ∧ (Ty.members? T m).isSome = true)
    (hset : ∀ o, o ∈ O ↔ ∃ m ∈ objects, Ty.members? T m = some o)
    (hmeet : O.Nonempty → MeetsAt depth meet ∧ T.Shares depth O) :
    Settles T (Ty.mergeAmong meet T objects) (fun T1 us => O = ∅ ∧ us = [] ∨ O.Nonempty ∧
      ∃ u n, us = [u] ∧ Ty.members? T1 u = some n ∧ T1.MeetsObjects O n) := by
  have hsome : ∀ {m ms}, objects = m :: ms → O.Nonempty := by
    rintro m ms rfl
    obtain ⟨o, hmo⟩ := Option.isSome_iff_exists.mp (hobjects m List.mem_cons_self).2
    exact ⟨o, (hset o).mpr ⟨m, List.mem_cons_self, hmo⟩⟩
  match objects with
  | [] =>
    exact settles_pure hT (.inl ⟨Set.eq_empty_iff_forall_notMem.mpr
      fun o ho => by simp [hset] at ho, rfl⟩)
  | [m] =>
    obtain ⟨hm, hmo⟩ := hobjects m (by simp)
    obtain ⟨o, hmo⟩ := Option.isSome_iff_exists.mp hmo
    obtain rfl : O = {o} := by
      ext p
      rw [hset]
      simp [hmo, eq_comm]
    refine settles_pure hT (.inr ⟨hsome rfl, m, o, rfl, hmo,
      meetsObjects_self (hT.fields_nodup hmo) ?_⟩)
    exact fun p hp => isMeet_self hT hO (hT.hasMembers hm hmo p hp)
  | m1 :: m2 :: ms =>
    have hcalls : ∀ o ∈ (m1 :: m2 :: ms).filterMap (Ty.members? T), ∀ c ∈ o.calls, T.Has c := by
      intro o ho c hc
      obtain ⟨m, hm, hmo⟩ := List.mem_filterMap.mp ho
      exact (hasMembers_iff.mp (hT.hasMembers (hobjects m hm).1 hmo)).2.2 c hc
    have hO' := hsome rfl
    obtain rfl : O = { o | o ∈ (m1 :: m2 :: ms).filterMap (Ty.members? T) } := by
      ext o
      rw [hset]
      exact List.mem_filterMap.symm
    obtain ⟨hmeet, hready⟩ := hmeet hO'
    refine (settles_mergeWith_meets hmeet hT hO _ hcalls hready).bind fun u T1 hT1 _ hu => ?_
    obtain ⟨n, hn, hmeets⟩ := hu
    exact settles_pure hT1 (.inr ⟨hO', u, n, rfl, hn, hmeets⟩)

/-- The most specific of some primitives and literals was found, or two of them share no value. -/
def Reduction (T : Table) (as : List Ty) : Option (Option Ty) → Prop
  | none => ∃ a ∈ as, ∃ b ∈ as, ¬T.Inside a b ∧ ¬T.Inside b a
  | some none => as = []
  | some (some a) => a ∈ as ∧ ∀ b ∈ as, T.Inside a b

/-- What has no value of its own to add can be left out. -/
theorem Reduction.cons {y : Ty} {r : Option (Option Ty)}
    (h : Reduction T (x :: as) r) (hxy : T.Inside x y) {bs : List Ty}
    (hbs : ∀ z, z ∈ bs ↔ z = y ∨ z ∈ x :: as) : Reduction T bs r := by
  match r with
  | none =>
    obtain ⟨a, ha, b, hb, hab⟩ := h
    exact ⟨a, (hbs a).mpr (.inr ha), b, (hbs b).mpr (.inr hb), hab⟩
  | some none => exact absurd h (List.cons_ne_nil x as)
  | some (some a) =>
    obtain ⟨ha, hall⟩ := h
    refine ⟨(hbs a).mpr (.inr ha), fun b hb => ?_⟩
    rcases (hbs b).mp hb with rfl | hb
    · exact (hall x List.mem_cons_self).trans hxy
    · exact hall b hb

/-- The fold over some primitives and literals finds the most specific one. -/
theorem reduction_reduceAtoms (best : Option Ty) (as : List Ty) :
    Reduction T (best.toList ++ as) (Ty.reduceAtoms T best as) := by
  induction as generalizing best with
  | nil =>
    cases best with
    | none => rfl
    | some b => simp [Ty.reduceAtoms, Reduction, Inside]
  | cons a as ih =>
    cases best with
    | none => exact ih (some a)
    | some b =>
      have hkeep : T.Inside b a → Reduction T (b :: a :: as) (Ty.reduceAtoms T (some b) as) :=
        fun hba => (ih (some b)).cons hba (by simp [or_left_comm])
      have hreplace : T.Inside a b → Reduction T (b :: a :: as) (Ty.reduceAtoms T (some a) as) :=
        fun hab => (ih (some a)).cons hab (by simp)
      change Reduction T (b :: a :: as) _
      simp only [Ty.reduceAtoms, Bool.or_eq_true, decide_eq_true_eq]
      split_ifs with hba hab
      · exact hkeep (hba.imp_left Eq.symm)
      · exact hreplace (.inr hab)
      · refine ⟨a, by simp, b, by simp, fun h => ?_, fun h => ?_⟩
        · rcases h with rfl | h
          · exact hba (.inl rfl)
          · exact hab h
        · rcases h with rfl | h
          · exact hba (.inl rfl)
          · exact hba (.inr h)

section Members

theorem mem_allIntersected_iff :
    m ∈ Ty.allIntersected T ts ↔ m ∈ T.constituents { t | t ∈ ts } := by
  rw [Ty.allIntersected, List.mem_eraseDups, List.mem_flatMap]
  rfl

theorem mem_atomsAmong_iff {a : Ty} :
    a ∈ Ty.atomsAmong T (Ty.allIntersected T ts) ↔ T.Atom { t | t ∈ ts } a := by
  simp [Ty.atomsAmong, Table.Atom, mem_allIntersected_iff]

theorem mem_othersAmong_iff :
    m ∈ Ty.othersAmong T (Ty.allIntersected T ts) ↔ m ∈ T.othersOf { t | t ∈ ts } := by
  simp only [Ty.othersAmong, othersOf, List.mem_filter, mem_allIntersected_iff, Set.mem_ofPred_eq,
    Bool.and_eq_true, Bool.not_eq_true', Option.isNone_iff_eq_none]

theorem mem_objectsAmong_iff : m ∈ Ty.objectsAmong T (Ty.allIntersected T ts) ↔
    m ∈ T.constituents { t | t ∈ ts } ∧ (Ty.members? T m).isSome = true := by
  simp [Ty.objectsAmong, mem_allIntersected_iff]

theorem mem_objectsOf_iff : o ∈ T.objectsOf { t | t ∈ ts } ↔
    ∃ m ∈ Ty.objectsAmong T (Ty.allIntersected T ts), Ty.members? T m = some o := by
  refine exists_congr fun m => ?_
  rw [mem_objectsAmong_iff]
  exact ⟨fun h => ⟨⟨h.1, by simp [h.2]⟩, h.2⟩, fun h => ⟨h.1.1, h.2⟩⟩

/-- Either there are no primitives and literals, or one of them is the most specific. -/
theorem finest_of_reduction (himproper : .invalid ∉ T.constituents S ∧
    .never ∉ T.constituents S ∧ .any ∉ T.constituents S)
    (has : ∀ a, a ∈ as ↔ T.Atom S a) {atom : Option Ty} (h : Reduction T as (some atom)) :
    (∀ a, a ∈ atom.toList ↔ T.Finest S a) ∧ T.verdict S = none := by
  obtain ⟨hinvalid, hnever, hany⟩ := himproper
  cases atom with
  | none =>
    obtain rfl : as = [] := h
    have hno : ∀ a, ¬T.Atom S a := fun a ha => List.not_mem_nil ((has a).mpr ha)
    refine ⟨fun a => ?_, verdict_eq_none.mpr ⟨hinvalid, hnever, hany, ?_⟩⟩
    · simpa using fun hf => hno a hf.1
    · rintro ⟨a, b, ha, -⟩
      exact hno a ha
  | some x =>
    obtain ⟨hx, hall⟩ := h
    have hfinest : T.Finest S x := ⟨(has x).mp hx, fun b hb => hall b ((has b).mpr hb)⟩
    refine ⟨fun a => ?_, verdict_eq_none.mpr ⟨hinvalid, hnever, hany, ?_⟩⟩
    · rw [Option.mem_toList, Option.some.injEq]
      constructor
      · rintro rfl
        exact hfinest
      · exact hfinest.unique
    · rintro ⟨a, b, ha, hb, -, -, hab, hba⟩
      exact ((hfinest.2 a ha).comparable (hfinest.2 b hb)).elim hab hba

/-- The most specific of the primitives and literals, the object that the objects leave and the
other types are gathered. If nothing is left, `unknown` stands for it. -/
theorem collects_of_sorts (hO : T.Orderly) {R : Set Ty} (hv : T.verdict S = none)
    {us : List Ty} (hus : T.objectsOf S = ∅ ∧ us = [] ∨ (T.objectsOf S).Nonempty ∧
      ∃ u n, us = [u] ∧ Ty.members? T u = some n ∧ T.MeetsObjects (T.objectsOf S) n)
    (hR : ∀ m, m ∈ R ↔ T.Finest S m ∨ m ∈ us ∨ m ∈ T.othersOf S ∨ m = .unknown ∧ R = {.unknown}) :
    T.Collects S R := by
  have hobject : ∀ u ∈ us, ∃ n, us = [u] ∧ Ty.members? T u = some n ∧
    T.MeetsObjects (T.objectsOf S) n ∧
      Ty.isAtom T u = false := by
    intro u hu
    rcases hus with ⟨-, rfl⟩ | ⟨-, v, n, rfl, hn, hmeets⟩
    · cases hu
    · obtain rfl := List.mem_singleton.mp hu
      exact ⟨n, rfl, hn, hmeets, by simp [Ty.isAtom, shape_of_members? hn]⟩
  have hC : T.constituents R = R := by
    have hflat : ∀ m ∈ R, T.constituents {m} = {m} := by
      intro m hm
      rcases (hR m).mp hm with hf | hu | ho | ⟨rfl, -⟩
      · exact hO.constituents_constituent hf.1.1
      · obtain ⟨n, -, hn, -⟩ := hobject m hu
        ext k
        simp [mem_constituents_singleton, Ty.intersectionMembers, shape_of_members? hn]
      · exact hO.constituents_constituent ho.1
      · ext k
        exact mem_constituents_prim
    ext m
    constructor
    · rintro ⟨t, ht, hm⟩
      rw [← mem_constituents_singleton, hflat t ht] at hm
      exact hm ▸ ht
    · exact fun hm => constituents_mono (Set.singleton_subset_iff.mpr hm) (by rw [hflat m hm]; rfl)
  have hobjects : ∀ o, o ∈ T.objectsOf R ↔ ∃ u ∈ us, Ty.members? T u = some o := by
    intro o
    simp only [objectsOf, hC, hR]
    constructor
    · rintro ⟨m, hf | hu | ho | ⟨rfl, -⟩, hmo⟩
      · rw [members?_of_isAtom hf.1.2.1] at hmo
        cases hmo
      · exact ⟨m, hu, hmo⟩
      · rw [ho.2.2] at hmo
        cases hmo
      · cases hmo
    · rintro ⟨u, hu, hmo⟩
      exact ⟨u, .inr (.inl hu), hmo⟩
  have hmeets : ∀ o ∈ T.objectsOf R, T.objectsOf R = {o} ∧ T.MeetsObjects (T.objectsOf S) o := by
    intro o ho
    obtain ⟨u, hu, hmo⟩ := (hobjects o).mp ho
    obtain ⟨n, rfl, hn, hmeets, -⟩ := hobject u hu
    obtain rfl := Option.some.inj (hmo.symm.trans hn)
    refine ⟨?_, hmeets⟩
    ext p
    rw [hobjects]
    simp [hmo, eq_comm]
  refine ⟨hv, hC, ⟨fun a => ?_, ?_, ?_, fun o ho => (hmeets o ho).2.merges⟩, fun place t ht => ?_⟩
  · rw [Table.Atom, hC, hR]
    constructor
    · rintro ⟨hf | hu | ho | ⟨rfl, -⟩, hatom, hne⟩
      · exact hf
      · obtain ⟨n, -, -, -, hno⟩ := hobject a hu
        exact absurd (hno.symm.trans hatom) (by simp)
      · exact absurd (ho.2.1.symm.trans hatom) (by simp)
      · exact absurd rfl hne
    · exact fun hf => ⟨.inl hf, hf.1.2⟩
  · ext m
    rw [othersOf, hC]
    simp only [Set.mem_ofPred_eq, hR]
    constructor
    · rintro ⟨hf | hu | ho | ⟨rfl, -⟩, hatom, hnone⟩
      · exact absurd (hatom.symm.trans hf.1.2.1) (by simp)
      · obtain ⟨n, -, hn, -⟩ := hobject m hu
        exact absurd (hnone.symm.trans hn) (by simp)
      · exact ho
      · cases hatom
    · exact fun ho => ⟨.inr (.inr (.inl ho)), ho.2⟩
  · rcases hus with ⟨hnone, rfl⟩ | ⟨hsome, u, n, rfl, hn, -⟩
    · rw [hnone]
      refine iff_of_false ?_ Set.not_nonempty_empty
      rintro ⟨o, ho⟩
      simp [hobjects] at ho
    · exact iff_of_true ⟨n, (hobjects n).mpr ⟨u, List.mem_cons_self, hn⟩⟩ hsome
  · obtain ⟨o, ho, ht⟩ := exists_of_typesAt ht
    exact (hmeets o ho).2.inside place t ht

/-- The members of an intersection are found. -/
theorem settles_meetMembers_meets (hT : T.WellFormed) (hO : T.Orderly)
    (hts : T.HasAll { t | t ∈ ts }) (hmeet : (T.objectsOf { t | t ∈ ts }).Nonempty →
      MeetsAt depth meet ∧ T.Shares depth (T.objectsOf { t | t ∈ ts })) :
    Settles T (Ty.meetMembers meet ts) (fun T1 ms =>
      (∃ p, ms = [.prim p] ∧ T1.IsMeet { t | t ∈ ts } (.prim p)) ∨
        T1.Collects { t | t ∈ ts } { m | m ∈ ms }) := by
  have hall : ∀ m ∈ Ty.allIntersected T ts, T.Has m := fun m hm => hT.has_intersected hts hm
  have hin : ∀ m, (Ty.allIntersected T ts).contains m = true ↔ m ∈ T.constituents { t | t ∈ ts } :=
    fun m => List.contains_iff_mem.trans mem_allIntersected_iff
  have hobjects : ∀ m ∈ Ty.objectsAmong T (Ty.allIntersected T ts),
      T.Has m ∧ (Ty.members? T m).isSome = true := by
    intro m hm
    obtain ⟨hm, hmo⟩ := List.mem_filter.mp hm
    exact ⟨hall m hm, hmo⟩
  have hatoms : ∀ a ∈ Ty.atomsAmong T (Ty.allIntersected T ts), T.Has a := fun a ha =>
    hall a (List.mem_filter.mp ha).1
  have hprim : ∀ p, T.verdict { t | t ∈ ts } = some p → Settles T (pure [.prim p]) (fun T1 ms =>
      (∃ p, ms = [.prim p] ∧ T1.IsMeet { t | t ∈ ts } (.prim p)) ∨
        T1.Collects { t | t ∈ ts } { m | m ∈ ms }) :=
    fun p hv => settles_pure hT (.inl ⟨p, rfl, .verdict hv⟩)
  refine settles_get_bind ?_ ?_
  · intro T2 h2
    simp only [allIntersected_of_le h2 hts, atomsAmong_of_le h2 hall, objectsAmong_of_le h2 hall,
      othersAmong_of_le h2 hall, @reduceAtoms_of_le T T2 none _ h2 hatoms (by simp),
      mergeAmong_of_le h2 fun t ht => (hobjects t ht).1]
  · dsimp only
    have hreduction := reduction_reduceAtoms (T := T) none
      (Ty.atomsAmong T (Ty.allIntersected T ts))
    rw [Option.toList_none, List.nil_append] at hreduction
    split_ifs with hinvalid hnever hany
    · rw [hin] at hinvalid
      exact hprim .invalid (by simp [verdict, hinvalid])
    · rw [hin] at hinvalid hnever
      exact hprim .never (by simp [verdict, hinvalid, hnever])
    · rw [hin] at hinvalid hnever hany
      exact hprim .any (by simp [verdict, hinvalid, hnever, hany])
    rw [hin] at hinvalid hnever hany
    cases hreduce : Ty.reduceAtoms T none (Ty.atomsAmong T (Ty.allIntersected T ts)) with
    | none =>
      rw [hreduce] at hreduction
      obtain ⟨a, ha, b, hb, hab⟩ := hreduction
      rw [mem_atomsAmong_iff] at ha hb
      have hne : ∀ {c}, T.Atom { t | t ∈ ts } c → c ≠ .any := by
        rintro c hc rfl
        exact hany hc.1
      have hex : T.Excludes { t | t ∈ ts } := ⟨a, b, ha, hb, hne ha, hne hb, hab⟩
      exact hprim .never (by simp [verdict, hinvalid, hnever, hany, hex])
    | some atom =>
      rw [hreduce] at hreduction
      obtain ⟨hfinest, hv⟩ := finest_of_reduction ⟨hinvalid, hnever, hany⟩
        (fun a => mem_atomsAmong_iff) hreduction
      refine (settles_mergeAmong_meets hT hO hobjects (fun o => mem_objectsOf_iff) hmeet).bind
        fun us T1 hT1 h1 hus => ?_
      have hle := Agrees.of_le h1.le
      have hcollects : ∀ R : Set Ty, (∀ m, m ∈ R ↔ m ∈ atom.toList ∨ m ∈ us ∨
          m ∈ Ty.othersAmong T (Ty.allIntersected T ts) ∨ m = .unknown ∧ R = {.unknown}) →
          T1.Collects { t | t ∈ ts } R := by
        refine fun R hR => collects_of_sorts (h1.orderly hO)
          ((verdict_agrees hle hT hts).trans hv) (by rwa [objectsOf_congr hle hT hts]) fun m => ?_
        rw [hR, hfinest, mem_othersAmong_iff, finest_congr hle hT hts, othersOf_congr hle hT hts]
      generalize hms : atom.toList ++ us ++ Ty.othersAmong T (Ty.allIntersected T ts) = ms
      have hmem : ∀ m, m ∈ ms ↔ m ∈ atom.toList ∨ m ∈ us ∨
          m ∈ Ty.othersAmong T (Ty.allIntersected T ts) := by
        simp [← hms]
      cases ms with
      | nil =>
        refine settles_pure hT1 (.inr (hcollects _ fun m => ?_))
        have hno := hmem m
        simp only [List.not_mem_nil, false_iff, not_or] at hno
        simp [hno]
      | cons k ks =>
        refine settles_pure hT1 (.inr (hcollects _ fun m => (hmem m).trans ⟨?_, ?_⟩))
        · exact Or.imp_right (Or.imp_right Or.inl)
        · rintro (h | h | h | ⟨rfl, h⟩)
          · exact .inl h
          · exact .inr (.inl h)
          · exact .inr (.inr h)
          · exact (hmem _).mp (h.ge rfl)

end Members

end Merging

section Meeting

variable {depth k : Nat}

theorem settles_intersectionAt_of_meets (hT : T.WellFormed) (hO : T.Orderly)
    (hts : T.HasAll { t | t ∈ ts }) (hmeet : (T.objectsOf { t | t ∈ ts }).Nonempty →
      MeetsAt k (fun a b => Ty.intersectionAt depth [a, b]) ∧
        T.Shares k (T.objectsOf { t | t ∈ ts })) :
    Settles T (Ty.intersectionAt (depth + 1) ts) (fun T1 w => T1.IsMeet { t | t ∈ ts } w) := by
  have hsettles : MeetSettles .all fun a b => Ty.intersectionAt depth [a, b] := by
    intro T1 a b hT1 ha hb
    exact settles_intersectionAt depth hT1 (forall_mem_pair ha hb)
  refine ((settles_meetMembers hsettles hT hts (hT.fills_intersected hts)).and
    (settles_meetMembers_meets hT hO hts hmeet)).bind fun ms T1 hT1 h1 hms => ?_
  obtain ⟨⟨hnodup, hfound, hreduced⟩, ⟨p, rfl, hmeets⟩ | hcollects⟩ := hms
  · exact settles_pure hT1 hmeets
  refine (settles_combine .intersection hT1 (fun m hm => (hfound m hm).1) (fun _ => ?_)
    fun hlength h => (hreduced hlength h).perm (List.mergeSort_perm ms T1.inOrder)).imp ?_
  · exact ⟨Table.nodup_sortMembers hnodup, rfl,
      fun p hp => (hfound p (Table.mem_sortMembers.mp hp)).1, by simp, by simp, by simp⟩
  · rintro w T2 - h2 ⟨hw, hcombined⟩
    have hcollects2 := hcollects.congr (.of_le h2.le) hT1 (hts.agrees (.of_le h1.le))
      fun m hm => (hfound m hm).1
    refine hcollects2.isMeet hw ?_
    rcases hcombined with rfl | hmany
    · simpa using hcollects2.flat
    · ext m
      rw [mem_constituents_singleton]
      cases hs : T2.shape w with
      | intersection ks =>
        rw [hs] at hmany
        rw [Ty.intersectionMembers, hs, sameMembers_eq_iff.mp hmany m, mem_sortMembers]
        rfl
      | _ =>
        rw [hs] at hmany
        exact hmany.elim

/-- **An intersection is one of its types**, made deep enough. -/
theorem settles_intersectionAt_meets (hT : T.WellFormed) (hO : T.Orderly)
    (hr : T.Blendable depth { t | t ∈ ts }) :
    Settles T (Ty.intersectionAt (depth + 1) ts) (fun T1 w => T1.IsMeet { t | t ∈ ts } w) := by
  induction depth generalizing T ts with
  | zero =>
    exact settles_intersectionAt_of_meets (k := 0) hT hO hr.has fun hsome =>
      absurd hr.2.2 hsome.ne_empty
  | succ depth ih =>
    refine settles_intersectionAt_of_meets (k := depth) hT hO hr.has fun _ =>
      ⟨fun T1 a b hT1 hO1 hpair => ?_, hr.blends.keys, hr.2.2⟩
    have hset : { t | t ∈ [a, b] } = ({a, b} : Set Ty) := by
      ext t
      simp
    rw [← hset] at hpair ⊢
    exact ih hT1 hO1 hpair

end Meeting

end Interning

open Table

theorem Ty.rank_le_height (ht : t ∈ ts) : t.rank ≤ height ts := by
  have hfold : ∀ (us : List Ty) (h : Nat), h ≤ us.foldl (fun h t => max h t.rank) h ∧
      ∀ u ∈ us, u.rank ≤ us.foldl (fun h t => max h t.rank) h := by
    intro us
    induction us with
    | nil => simp
    | cons u us ih =>
      intro h
      obtain ⟨hbase, hall⟩ := ih (max h u.rank)
      refine ⟨(le_max_left _ _).trans hbase, fun v hv => ?_⟩
      rcases List.mem_cons.mp hv with rfl | hv
      · exact (le_max_right _ _).trans hbase
      · exact hall v hv
  exact (hfold ts 0).2 t ht

/-- An intersection is one of its types. -/
theorem Table.settles_intersectionOf_meets (hT : T.WellFormed) (hO : T.Orderly)
    (hts : T.HasAll { t | t ∈ ts }) (hblends : T.Throughout T.Blends { t | t ∈ ts }) :
    Interning.Settles T (Ty.intersectionOf ts) (fun T1 w => T1.IsMeet { t | t ∈ ts } w) :=
  Interning.settles_intersectionAt_meets hT hO
    (hblends.blendable hT hts fun _ ht => Ty.rank_le_height ht)

/-- **An intersection ignores the order of its types**, and how often they are named, also when the
table was used for anything in between, if they blend wherever they meet, also inside of them. -/
theorem Ty.intersectionOf_unordered {T : Table} (hT : ReflTransGen Operated {} T)
    {xs ys : List Ty} (hxs : ∀ t ∈ xs, T.Has t) (hsame : ∀ t, t ∈ ys ↔ t ∈ xs)
    (hblends : T.Throughout T.Blends { t | t ∈ xs }) :
    ∃ w T1, intersectionOf xs T = (w, T1) ∧ T1.Has w ∧
      ∀ T2, ReflTransGen Operated T1 T2 → (intersectionOf ys T2).1 = w := by
  have hwf := (faithful_empty.operations hT).1.wellFormed
  have hall : T.HasAll { t | t ∈ xs } := hxs
  obtain ⟨w, T1, hat, hmeet⟩ := settles_intersectionOf_meets hwf
    (orderly_of_operated hT) hall hblends
  refine ⟨w, T1, hat.result, hmeet.has, fun T2 hops => ?_⟩
  have hT1 : ReflTransGen Operated {} T1 := by
    have hcall := hT.tail (.call (.construct (.intersection xs) hxs trivial))
    rwa [show (Construction.intersection xs).run T = (w, T1) from hat.result] at hcall
  have hT2 := hT1.trans hops
  have hagree := (faithful_empty.operations hT1).1.operations hops |>.2
  have hset : { t | t ∈ ys } = { t | t ∈ xs } := Set.ext hsame
  have hle := Agrees.of_le hat.adds.le
  have hthen := hle.trans hagree
  -- the second intersection is made in a later table
  have hblends2 : T2.Throughout T2.Blends { t | t ∈ xs } :=
    hblends.congr hthen hwf hall fun R hR h => h.congr hthen hwf hR
  obtain ⟨v, T3, hat', hmeet'⟩ := @settles_intersectionOf_meets ys T2
    (faithful_empty.operations hT2).1.wellFormed (orderly_of_operated hT2)
    (by rw [hset]; exact hall.agrees hthen) (by rwa [hset])
  rw [hset] at hmeet'
  have hlast := hagree.trans (.of_le hat'.adds.le)
  rw [hat'.result]
  exact hmeet'.unique hat'.wellFormed (hat'.adds.orderly (orderly_of_operated hT2))
    (hmeet.congr hlast hat.wellFormed (hall.agrees hle)) (hblends.congr (hle.trans hlast) hwf hall
      fun R hR h => h.congr (hle.trans hlast) hwf hR)

namespace Table

/-- A table with some types that were made one after the other. -/
def holding (cs : List Construction) : Table := cs.foldl (fun T c => (c.run T).2) {}

/-- The object that has an `x`. -/
def withX (t : Ty) (optional readonly : Bool) : Construction :=
  .object { fields := [⟨"x", t, optional, readonly⟩] }

/-- The object with an index signature alone. -/
def keyedBy (key : IndexKey) (t : Ty) : Construction := .object { index := some ⟨key, t⟩ }

/-- Objects with nothing but fields blend, if `any` stands nowhere. -/
theorem throughout_blends (hO : T.Orderly) (hS : .any ∉ S) (h : ∀ t o, Ty.members? T t = some o →
      o.calls = [] ∧ o.index = none ∧ ∀ f ∈ o.fields, f.type ≠ .any) : T.Throughout T.Blends S := by
  have hno : ∀ R, ReflTransGen T.Steps S R → .any ∉ R := by
    intro R hR
    induction hR with
    | refl => exact hS
    | tail _ hstep ih =>
      obtain ⟨name | _, rfl⟩ := hstep
      · rintro ⟨f, ⟨o, ⟨m, -, hmo⟩, hf⟩, -, hany⟩
        exact (h m o hmo).2.2 f hf hany
      · rintro ⟨i, ⟨o, ⟨m, -, hmo⟩, hi⟩, -⟩
        exact absurd ((h m o hmo).2.1.symm.trans hi) (by simp)
  intro R hR
  refine ⟨?_, ?_, ?_⟩
  · rintro o ⟨m, -, hmo⟩
    exact (h m o hmo).1
  · rintro i ⟨o, ⟨m, -, hmo⟩, hi⟩
    exact absurd ((h m o hmo).2.1.symm.trans hi) (by simp)
  · rintro ⟨t, ht, hany⟩
    obtain rfl := hO.eq_of_improper (mem_constituents_singleton.mpr hany) (by simp)
    exact absurd ht (hno R hR)

/-- What is said of the objects among the entries is said of all objects. -/
theorem forall_members {P : Members → Prop} {shapes : List Shape}
    (hshapes : T.entries.toList.map Entry.shape = shapes) (h : ∀ o, .object o ∈ shapes → P o)
    (hto : Ty.members? T t = some o) : P o := by
  have hs := shape_of_members? hto
  obtain ⟨n, e, rfl, he, hshape⟩ := exists_entry hs (by simp) (by simp)
  exact h o (hshapes ▸ List.mem_map.mpr
    ⟨e, Array.mem_toList_iff.mpr (Array.mem_of_getElem? he), hshape⟩)

/-- Two objects that share a field. -/
def sharing : Table := holding [withX .boolean false true, withX (.truth true) true false]

theorem operated_sharing : ReflTransGen Operated {} sharing :=
  operated_construct (operated_construct .refl (withX .boolean false true)
    (by simp [withX, Construction.inputs, Shape.parts]) trivial) (withX (.truth true) true false)
    (by simp [withX, Construction.inputs, Shape.parts]) trivial

theorem shapes_sharing : sharing.entries.toList.map Entry.shape =
    [.object { fields := [⟨"x", .boolean, false, true⟩] },
      .object { fields := [⟨"x", .truth true, true, false⟩] }] := by
  decide +kernel

/-- Two objects with index signatures of different keys. -/
def keyed : Table := holding [keyedBy .number .string, keyedBy .string .number]

theorem shapes_keyed : keyed.entries.toList.map Entry.shape =
    [.object { index := some ⟨.number, .string⟩ },
    .object { index := some ⟨.string, .number⟩ }] := by
  decide +kernel

/-- Three objects with one field. -/
def disputed : Table :=
  holding [withX .number false false, withX .string false false, withX .any false false]

theorem shapes_disputed : disputed.entries.toList.map Entry.shape =
    [.object { fields := [⟨"x", .number, false, false⟩] },
      .object { fields := [⟨"x", .string, false, false⟩] },
      .object { fields := [⟨"x", .any, false, false⟩] }] := by
  decide +kernel

end Table

/-- A readonly truth value under `x`, and `true` that may be absent, in both orders. -/
theorem Ty.intersectionOf_unordered_fields : ∃ w T1,
    intersectionOf [.made 0, .made 1] sharing = (w, T1) ∧
      (intersectionOf [.made 1, .made 0] T1).1 = w := by
  have hsize : sharing.entries.size = 2 := by
    rw [← Array.length_toList, ← List.length_map Entry.shape, shapes_sharing]
    rfl
  have hblends := @throughout_blends { t | t ∈ [.made 0, .made 1] } sharing
    (orderly_of_operated operated_sharing) (by simp [Ty.any]) fun t o => forall_members
      (P := fun o => o.calls = [] ∧ o.index = none ∧ ∀ f ∈ o.fields, f.type ≠ .any) shapes_sharing
      (by simp [Ty.any, Ty.boolean])
  obtain ⟨w, T1, hrun, -, hlater⟩ := @intersectionOf_unordered sharing operated_sharing
    [.made 0, .made 1] [.made 1, .made 0] (by simp [hsize]) (fun t => by simp [or_comm]) hblends
  exact ⟨w, T1, hrun, hlater T1 .refl⟩

/-- **The order can matter though no object has call signatures.** Of two index signatures with
different keys the last one is left. `any` is left where it met one of two types that exclude each
other before it met the second. -/
theorem Ty.not_intersectionOf_unordered :
    ((∀ t o, Ty.members? keyed t = some o → o.calls = []) ∧
      (intersectionOf [.made 0, .made 1] keyed).1 = .made 1 ∧
      (intersectionOf [.made 1, .made 0] (intersectionOf [.made 0, .made 1] keyed).2).1 = .made 0) ∧
    (∀ t o, Ty.members? disputed t = some o → o.calls = []) ∧
      (intersectionOf [.made 0, .made 1, .made 2] disputed).1 = .made 3 ∧
      (intersectionOf [.made 0, .made 2, .made 1]
        (intersectionOf [.made 0, .made 1, .made 2] disputed).2).1 = .made 2 := by
  have hkeyed : ∀ t o, Ty.members? keyed t = some o → o.calls = [] :=
    fun t o => forall_members (P := fun o => o.calls = []) shapes_keyed (by simp)
  have hdisputed : ∀ t o, Ty.members? disputed t = some o → o.calls = [] :=
    fun t o => forall_members (P := fun o => o.calls = []) shapes_disputed (by simp)
  exact ⟨⟨hkeyed, by decide +kernel, by decide +kernel⟩,
    hdisputed, by decide +kernel, by decide +kernel⟩

end ShapeCheck
