import ShapeCheck.Proofs.Settling
import ShapeCheck.Ty.Union
import ShapeCheck.Ty.Intersection
import Mathlib.Data.List.Dedup

/-!
# The constructors settle

Each constructor of types ends with a type of the table that says what was asked for, and finds it
again in every later table.

* `Interning.settles_objectOf`, `Interning.settles_tupleOf` and the others are one statement per
  constructor.
* `Interning.settles_unionOf` says that a union has the members that count, and only these.
-/

namespace ShapeCheck

variable {ms all ts : List Ty} {a b t m : Ty} {c : Callable} {fields : List Field} {g : Field}

/-- The key of a union whose members have their numbers in order. -/
theorem Shape.key_union_ordered
    (h : (ms.map Key.number).Pairwise fun a b => Key.notAfter a b = true) :
    (Shape.union ms).key = String.ofList ('U' :: ':' :: Key.ids ms) := by
  rw [Shape.key, Shape.spelling, Key.idSet, List.mergeSort_of_pairwise h]
  rfl

namespace Interning

variable {T : Table}

/-- A constructor that asks for one shape gives a type that says the same. -/
def Gives (T : Table) (work : Interning Ty) (s : Shape) : Prop :=
  Settles T work fun T1 t => T1.Has t ∧ (T1.shape t).Alike Eq s

theorem Gives.has {work : Interning Ty} {s : Shape} (h : Gives T work s) :
    Settles T work Table.Has :=
  h.imp fun _ _ _ _ hv => hv.1

theorem gives_literalOf (hT : T.WellFormed) (l : Literal) :
    Gives T (Ty.literalOf l) (.literal l) := by
  have hplain : l.base ≠ .boolean → Gives T (Ty.intern (.literal l)) (.literal l) := by
    intro hbase
    exact settles_intern hT ⟨hbase, rfl, by simp [Shape.parts], by simp, by simp, by simp⟩
      fun _ => trivial
  cases l with
  | number v => exact hplain (by simp [Literal.base])
  | string s => exact hplain (by simp [Literal.base])
  | boolean b => exact settles_pure hT ⟨T.has_truth b, rfl, rfl⟩
  | bigint n => exact hplain (by simp [Literal.base])

theorem gives_arrayOf (hT : T.WellFormed) (ht : T.Has t) (readonly : Bool) :
    Gives T (Ty.arrayOf t readonly) (.array t readonly) :=
  settles_intern hT ⟨trivial, rfl, by simpa [Shape.parts] using ht, by simp, by simp, by simp⟩
    fun _ => trivial

theorem gives_functionOf (hT : T.WellFormed)
    (hc : ∀ p ∈ (Shape.function c).parts, T.Has p) : Gives T (Ty.functionOf c) (.function c) :=
  settles_intern hT ⟨trivial, rfl, hc, by simp, by simp, by simp⟩ fun _ => trivial

theorem gives_referenceTo (hT : T.WellFormed) (name : String) {arguments : List Ty}
    (ha : ∀ t ∈ arguments, T.Has t) :
    Gives T (Ty.referenceTo name arguments) (.reference name arguments) :=
  settles_intern hT ⟨trivial, rfl, ha, by simp, by simp, by simp⟩ fun _ => trivial

theorem gives_parameterOf (hT : T.WellFormed) {v : TypeVar} (hv : T.Knows v) :
    Gives T (Ty.parameterOf v) (.parameter v) := by
  refine settles_intern hT ⟨trivial, rfl, by simp [Shape.parts], ?_, by simp, by simp⟩
    fun _ => trivial
  intro w hw
  injection hw with hw
  exact hw ▸ hv

theorem map_type_trailingOptional (seen : Bool) (slots : List Slot) :
    (Ty.trailingOptional seen slots).map Slot.type = slots.map Slot.type := by
  induction slots generalizing seen with
  | nil => rfl
  | cons s rest ih => simp [Ty.trailingOptional, ih]

/-- The shape that a tuple is asked for by. -/
def tupleShape (u : Tuple) : Shape :=
  .tuple { u with slots := Ty.trailingOptional false u.slots }

theorem parts_tupleShape (u : Tuple) : (tupleShape u).parts = u.elements := by
  simp only [tupleShape, Shape.parts, Tuple.elements, map_type_trailingOptional]

/-- Once the places after an optional one are optional, they stay as they are. -/
theorem trailingOptional_idem (seen : Bool) (slots : List Slot) :
    Ty.trailingOptional seen (Ty.trailingOptional seen slots) = Ty.trailingOptional seen slots := by
  induction slots generalizing seen with
  | nil => rfl
  | cons s rest ih =>
    have hseen : (seen || (seen || s.optional)) = (seen || s.optional) := by cases seen <;> rfl
    simp only [Ty.trailingOptional, hseen, ih]

theorem gives_tupleOf (hT : T.WellFormed) {u : Tuple} (hu : ∀ t ∈ u.elements, T.Has t) :
    Gives T (Ty.tupleOf u) (tupleShape u) :=
  settles_intern hT ⟨trivial, rfl, fun t ht => hu t (parts_tupleShape u ▸ ht), by simp, by simp,
    by simp⟩ fun _ => trailingOptional_idem false u.slots

/-- Putting a field in place keeps the names apart. -/
theorem nodup_putField (h : (fields.map Field.name).Nodup) (f : Field) :
    ((Ty.putField fields f).map Field.name).Nodup := by
  unfold Ty.putField
  split
  · have hnames : (fields.map fun g => if g.name = f.name then f else g).map Field.name =
        fields.map Field.name := by
      rw [List.map_map]
      apply List.map_congr_left
      intro g _
      simp only [Function.comp]
      split
      next hg =>
        exact hg.symm
      · rfl
    rw [hnames]
    exact h
  next hany =>
    rw [List.map_append, List.nodup_append]
    refine ⟨h, by simp, ?_⟩
    intro a ha b hb hab
    obtain ⟨g, hg, rfl⟩ := List.mem_map.mp ha
    simp only [List.map_cons, List.map_nil, List.mem_singleton] at hb
    exact hany (List.any_eq_true.mpr ⟨g, hg, by simp [hab, hb]⟩)

theorem mem_putField {f : Field} (h : g ∈ Ty.putField fields f) : g ∈ fields ∨ g = f := by
  unfold Ty.putField at h
  split at h
  · obtain ⟨k, hk, rfl⟩ := List.mem_map.mp h
    split
    · exact .inr rfl
    · exact .inl hk
  · simpa using h

theorem nodup_foldl_putField (fs fields : List Field) (h : (fields.map Field.name).Nodup) :
    ((fs.foldl Ty.putField fields).map Field.name).Nodup := by
  induction fs generalizing fields with
  | nil => exact h
  | cons f fs ih => exact ih _ (nodup_putField h f)

theorem mem_foldl_putField (fs : List Field)
    (h : g ∈ fs.foldl Ty.putField fields) : g ∈ fields ∨ g ∈ fs := by
  induction fs generalizing fields with
  | nil => exact .inl h
  | cons f fs ih =>
    rcases ih h with hg | hg
    · rcases mem_putField hg with hg | rfl
      · exact .inl hg
      · exact .inr List.mem_cons_self
    · exact .inr (List.mem_cons_of_mem _ hg)

/-- The shape that an object is asked for by. -/
def objectShape (m : Members) : Shape :=
  .object { m with fields := m.fields.foldl Ty.putField [] }

theorem parts_objectShape {m : Members} {p : Ty} (hp : p ∈ (objectShape m).parts) :
    p ∈ (Shape.object m).parts := by
  unfold objectShape at hp
  simp only [Shape.parts, List.mem_append, List.mem_map] at hp ⊢
  rcases hp with (⟨g, hg, rfl⟩ | hp) | hp
  · rcases mem_foldl_putField m.fields hg with hg | hg
    · exact absurd hg (by simp)
    · exact .inl (.inl ⟨g, hg, rfl⟩)
  · exact .inl (.inr hp)
  · exact .inr hp

theorem gives_objectOf (hT : T.WellFormed) {m : Members}
    (hm : ∀ p ∈ (Shape.object m).parts, T.Has p) : Gives T (Ty.objectOf m) (objectShape m) :=
  settles_intern hT ⟨nodup_foldl_putField m.fields [] (by simp), rfl,
    fun p hp => hm p (parts_objectShape hp), by simp, by simp, by simp⟩ fun _ => trivial

/-- A class value is asked for with the type of its constructor. -/
theorem gives_classOf (hT : T.WellFormed) (name : String) (ht : T.Has t)
    (hc : ∀ p ∈ (Shape.function c).parts, T.Has p) :
    Settles T (Ty.classOf name t c) (fun T1 u => T1.Has u ∧ ∃ fn, T1.Has fn ∧
      (T1.shape fn).Alike Eq (.function c) ∧ (T1.shape u).Alike Eq (.classValue name t fn)) := by
  refine (gives_functionOf hT hc).bind fun fn T1 hT1 h1 hfn => ?_
  have hparts : ∀ p ∈ (Shape.classValue name t fn).parts, T1.Has p := by
    intro p hp
    simp only [Shape.parts, List.mem_cons, List.not_mem_nil, or_false] at hp
    rcases hp with rfl | rfl
    · exact Table.has_of_le h1.le ht
    · exact hfn.1
  refine (settles_intern (s := .classValue name t fn) hT1
    ⟨trivial, rfl, hparts, by simp, by simp, by simp⟩ fun _ => trivial).imp ?_
  intro u T2 hT2 h2 hu
  refine ⟨hu.1, fn, Table.has_of_le h2.le hfn.1, ?_, hu.2⟩
  rw [Table.shape_of_le h2.le hfn.1]
  exact hfn.2

end Interning

theorem nodup_eraseDups (ts : List Ty) : ts.eraseDups.Nodup := by
  induction hn : ts.length using Nat.strongRecOn generalizing ts with
  | ind n ih =>
    cases ts with
    | nil => simp
    | cons t ts =>
      rw [List.eraseDups_cons, List.nodup_cons]
      constructor
      · intro hmem
        rw [List.mem_eraseDups, List.mem_filter] at hmem
        simp at hmem
      · apply ih _ _ _ rfl
        have := List.length_filter_le (fun b => !b == t) ts
        simp only [List.length_cons] at hn
        omega

namespace Table

section Unions

variable {T T' : Table}

theorem mem_allMembers : m ∈ Ty.allMembers T ts ↔ ∃ t ∈ ts, m ∈ T.members t := by
  rw [Ty.allMembers, List.mem_eraseDups, List.mem_flatMap]

theorem WellFormed.has_member (hT : T.WellFormed) (ht : T.Has t) (hm : m ∈ T.members t) :
    T.Has m := by
  unfold members at hm
  split at hm
  next ms hs =>
    exact hT.has_part ht (by rw [hs]; exact hm)
  · rw [List.mem_singleton.mp hm]
    exact ht

theorem WellFormed.members_member (hT : T.WellFormed) (hm : m ∈ T.members t) :
    T.members m = [m] := by
  cases hs : T.shape t with
  | union ms =>
    simp only [members, hs] at hm
    obtain ⟨n, e, rfl, he, hshape⟩ := exists_entry hs (by simp) (by simp)
    exact ((hT.entry n e he).union ms hshape).flat m hm
  | _ =>
    have hmt : m = t := by simpa [members, hs] using hm
    rw [hmt]
    simp [members, hs]

theorem allMembers_of_le (h : T ≤ T') (hts : ∀ t ∈ ts, T.Has t) :
    Ty.allMembers T' ts = Ty.allMembers T ts := by
  have hflat : ts.flatMap T'.members = ts.flatMap T.members := by
    apply List.flatMap_congr
    intro t ht
    exact members_of_le h (hts t ht)
  rw [Ty.allMembers, Ty.allMembers, hflat]

theorem isAbsorbed_of_le (h : T ≤ T') (all : List Ty) (hm : T.Has m) :
    Ty.isAbsorbed T' all m = Ty.isAbsorbed T all m := by
  rw [Ty.isAbsorbed, Ty.isAbsorbed, literal?_of_le h hm]

theorem essentialMembers_of_le (h : T ≤ T') (hall : ∀ m ∈ all, T.Has m) :
    Ty.essentialMembers T' all = Ty.essentialMembers T all := by
  have hfilter : all.filter (fun m => !Ty.isAbsorbed T' all m) =
      all.filter (fun m => !Ty.isAbsorbed T all m) := by
    apply List.filter_congr
    intro m hm
    rw [isAbsorbed_of_le h all (hall m hm)]
  rw [Ty.essentialMembers, Ty.essentialMembers, hfilter]

theorem mem_essentialMembers (hm : m ∈ Ty.essentialMembers T all) : m ∈ all ∨ m = .boolean := by
  rcases List.mem_append.mp hm with hm | hm
  · exact .inl (List.mem_filter.mp hm).1
  · split at hm
    · exact .inr (List.mem_singleton.mp hm)
    · exact absurd hm (by simp)

theorem nodup_essentialMembers (hall : all.Nodup) : (Ty.essentialMembers T all).Nodup := by
  rw [Ty.essentialMembers, List.nodup_append]
  refine ⟨hall.filter _, by split <;> simp, ?_⟩
  intro a ha b hb hab
  split at hb
  next hsplit =>
    -- the two truth values are only joined where `boolean` itself is missing
    have hno : Ty.boolean ∉ all := by
      simp only [Ty.splitsBoolean, Bool.and_eq_true, Bool.not_eq_true'] at hsplit
      simpa using hsplit.2
    rw [List.mem_singleton.mp hb] at hab
    exact hno (hab ▸ (List.mem_filter.mp ha).1)
  · exact absurd hb (by simp)

theorem sortMembers_of_le (h : T ≤ T') (hts : ∀ t ∈ ts, T.Has t) :
    T'.sortMembers ts = T.sortMembers ts := by
  have horder : ∀ a ∈ ts, ∀ b ∈ ts, T'.inOrder a b = T.inOrder (id a) (id b) := by
    intro a ha b hb
    simp only [inOrder, text_of_le h (hts a ha), text_of_le h (hts b hb), id]
  simpa [sortMembers] using List.map_mergeSort horder

theorem mem_sortMembers : m ∈ T.sortMembers ts ↔ m ∈ ts :=
  (List.mergeSort_perm ts T.inOrder).mem_iff

theorem nodup_sortMembers (h : ts.Nodup) : (T.sortMembers ts).Nodup :=
  (List.mergeSort_perm ts T.inOrder).nodup_iff.mpr h

theorem Precedes.trans {c : Ty} (hab : T.Precedes a b) (hbc : T.Precedes b c) : T.Precedes a c := by
  rcases hab with hab | ⟨hab, hab'⟩
  · rcases hbc with hbc | ⟨hbc, -⟩
    · exact .inl (String.lt_trans hab hbc)
    · exact .inl (hbc ▸ hab)
  · rcases hbc with hbc | ⟨hbc, hbc'⟩
    · exact .inl (hab ▸ hbc)
    · exact .inr ⟨hab.trans hbc, Nat.lt_trans hab' hbc'⟩

theorem Precedes.asymm (hab : T.Precedes a b) : ¬T.Precedes b a := by
  rintro (hba | ⟨hba, hba'⟩)
  · rcases hab with hab | ⟨hab, -⟩
    · exact String.lt_asymm hab hba
    · exact String.lt_irrefl _ (hab ▸ hba)
  · rcases hab with hab | ⟨-, hab'⟩
    · exact String.lt_irrefl _ (hba ▸ hab)
    · exact Nat.lt_asymm hab' hba'

theorem precedes_or_precedes (h : a ≠ b) : T.Precedes a b ∨ T.Precedes b a := by
  by_cases htext : T.text a = T.text b
  · rcases Nat.lt_or_gt_of_ne (Ty.serial_injective.ne h) with hlt | hlt
    · exact .inl (.inr ⟨htext, hlt⟩)
    · exact .inr (.inr ⟨htext.symm, hlt⟩)
  · exact (lt_or_gt_of_ne htext).imp .inl .inl

theorem inOrder_iff : T.inOrder a b = true ↔ T.Precedes a b ∨ a = b := by
  unfold inOrder Precedes
  by_cases htext : T.text a = T.text b
  · rw [if_pos htext, decide_eq_true_iff, Nat.le_iff_lt_or_eq, Ty.serial_injective.eq_iff]
    simp [htext]
  · have hne : a ≠ b := fun h => htext (congrArg T.text h)
    simp [htext, hne]

/-- Different members are strictly ordered once they are in order. -/
theorem pairwise_sortMembers (h : ts.Nodup) : (T.sortMembers ts).Pairwise T.Precedes := by
  have hsorted : (T.sortMembers ts).Pairwise fun a b => T.inOrder a b = true := by
    refine List.pairwise_mergeSort (fun a b c hab hbc => ?_) (fun a b => ?_) ts
    · rw [inOrder_iff] at hab hbc ⊢
      rcases hab with hab | rfl
      · rcases hbc with hbc | rfl
        · exact .inl (hab.trans hbc)
        · exact .inl hab
      · exact hbc
    · rw [Bool.or_eq_true, inOrder_iff, inOrder_iff]
      by_cases hab : a = b
      · exact .inl (.inr hab)
      · exact (precedes_or_precedes hab).imp .inl .inl
  refine hsorted.imp₂ (fun a b hab hne => ?_) (nodup_sortMembers h)
  exact (inOrder_iff.mp hab).resolve_right hne

/-- The order of some members is the one of their set. -/
theorem sortMembers_eq {us : List Ty} (hts : ts.Nodup) (hus : us.Nodup)
    (h : ∀ m, m ∈ ts ↔ m ∈ us) : T.sortMembers ts = T.sortMembers us := by
  have hperm : (T.sortMembers ts).Perm (T.sortMembers us) := by
    refine (List.perm_ext_iff_of_nodup (nodup_sortMembers hts) (nodup_sortMembers hus)).mpr ?_
    intro m
    rw [mem_sortMembers, mem_sortMembers, h]
  refine hperm.eq_of_pairwise (fun a b _ _ hab hba => ?_) (pairwise_sortMembers hts)
    (pairwise_sortMembers hus)
  exact absurd hba hab.asymm

/-- What counts among some members is in the normal form, if it is more than one. -/
theorem WellFormed.canonical_essentialMembers (hT : T.WellFormed) (hall : all.Nodup)
    (hflat : ∀ m ∈ all, T.members m = [m])
    (htop : ∀ t, t = .invalid ∨ t = .any ∨ t = .unknown → t ∉ all)
    (hmany : 2 ≤ (Ty.essentialMembers T all).length) :
    T.Canonical (T.sortMembers (Ty.essentialMembers T all)) := by
  have hcases : ∀ m ∈ Ty.essentialMembers T all,
      (m ∈ all ∧ Ty.isAbsorbed T all m = false) ∨ (m = .boolean ∧ Ty.splitsBoolean all = true) := by
    intro m hm
    rcases List.mem_append.mp hm with hm | hm
    · exact .inl (by simpa using hm)
    · split at hm
      · exact .inr ⟨List.mem_singleton.mp hm, by assumption⟩
      · exact absurd hm (by simp)
  have hliteral : ∀ m ∈ Ty.essentialMembers T all, ∀ l, T.literal? m = some l →
      m ∈ all ∧ Ty.isAbsorbed T all m = false ∧ Ty.prim l.base ∉ all := by
    intro m hm l hl
    rcases hcases m hm with ⟨hin, habsorbed⟩ | ⟨rfl, -⟩
    · refine ⟨hin, habsorbed, fun hbase => ?_⟩
      simp [Ty.isAbsorbed, hl, hbase] at habsorbed
    · simp [literal?, shape] at hl
  refine ⟨?_, ?_, ?_, ?_, ?_, pairwise_sortMembers (nodup_essentialMembers hall)⟩
  · rwa [sortMembers, List.length_mergeSort]
  · intro m hm
    rcases mem_essentialMembers (mem_sortMembers.mp hm) with hm | rfl
    · exact hflat m hm
    · rfl
  · intro m hm
    rcases hcases m (mem_sortMembers.mp hm) with ⟨hin, habsorbed⟩ | ⟨rfl, -⟩
    · have hnot : ∀ t, t = .invalid ∨ t = .any ∨ t = .unknown → m ≠ t :=
        fun t ht hmt => htop t ht (hmt ▸ hin)
      refine ⟨?_, hnot _ (.inr (.inl rfl)), hnot _ (.inr (.inr rfl)), hnot _ (.inl rfl)⟩
      rintro rfl
      simp [Ty.isAbsorbed] at habsorbed
    · simp [Ty.boolean, Ty.never, Ty.any, Ty.unknown, Ty.invalid]
  · intro m hm l hl hbase
    obtain ⟨-, habsorbed, hnot⟩ := hliteral m (mem_sortMembers.mp hm) l hl
    -- the primitive can only have come from joining the two truth values, and `m` is one of them
    obtain ⟨hin, -⟩ | ⟨hboolean, hsplit⟩ := hcases _ (mem_sortMembers.mp hbase)
    · exact hnot hin
    · cases l with
      | boolean x =>
        have hshape : T.shape m = .literal (.boolean x) := by
          unfold literal? at hl
          split at hl
          next hs =>
            rw [hs, Option.some.inj hl]
          · exact absurd hl (by simp)
        obtain rfl := eq_truth_of_shape hT hshape
        cases x <;> simp [Ty.isAbsorbed, hsplit] at habsorbed
      | _ => simp [Literal.base, Ty.boolean] at hboolean
  · rintro ⟨htrue, hfalse⟩
    obtain ⟨hin, habsorbed, hnot⟩ := hliteral _ (mem_sortMembers.mp htrue) (.boolean true) rfl
    obtain ⟨hin', -, -⟩ := hliteral _ (mem_sortMembers.mp hfalse) (.boolean false) rfl
    have hsplit : Ty.splitsBoolean all = true := by
      simpa [Ty.splitsBoolean, hin, hin', Ty.boolean, Literal.base] using hnot
    simp [Ty.isAbsorbed, hsplit] at habsorbed

end Unions

end Table

namespace Interning

variable {T : Table}

/-- The type stands for some members: it has no others. -/
def Stands (T : Table) (ms : List Ty) (t : Ty) : Prop := ∀ m, m ∈ T.members t ↔ m ∈ ms

/-- Several members are put together as one type that says so, a single one is left as it is. -/
theorem settles_combine (shape : List Ty → Shape) (hT : T.WellFormed) (hms : ∀ m ∈ ms, T.Has m)
    (hadmits : ms.length ≠ 1 → T.Admits (shape (T.sortMembers ms)))
    (hstandard : ms.length ≠ 1 → T.Orderly → T.Standard (shape (T.sortMembers ms))) :
    Settles T (Ty.combine shape ms) (fun T1 t => T1.Has t ∧
      (ms = [t] ∨ (T1.shape t).Alike Eq (shape (T.sortMembers ms)))) := by
  have hmany : ms.length ≠ 1 → Settles T (do Ty.intern (shape ((← get).sortMembers ms)))
      (fun T1 t => T1.Has t ∧ (ms = [t] ∨ (T1.shape t).Alike Eq (shape (T.sortMembers ms)))) := by
    intro hlength
    refine settles_get_bind ?_ ?_
    · intro T2 h2
      rw [Table.sortMembers_of_le h2 hms]
    · exact (settles_intern hT (hadmits hlength) (hstandard hlength)).imp
        fun t T1 _ _ ht => ⟨ht.1, .inr ht.2⟩
  match ms with
  | [] => exact hmany (by simp)
  | [m] => exact settles_pure hT ⟨hms m (by simp), .inl rfl⟩
  | _ :: _ :: _ => exact hmany (by simp)

/-- A member of a union is a member of one of the types, or a primitive. -/
theorem mem_unionMembers (hm : m ∈ Ty.unionMembers T ts) :
    (∃ t ∈ ts, m ∈ T.members t) ∨ ∃ p, m = .prim p := by
  simp only [Ty.unionMembers] at hm
  split_ifs at hm
  · exact .inr ⟨_, List.mem_singleton.mp hm⟩
  · exact .inr ⟨_, List.mem_singleton.mp hm⟩
  · exact .inr ⟨_, List.mem_singleton.mp hm⟩
  · split at hm
    · exact .inr ⟨_, List.mem_singleton.mp hm⟩
    · rcases Table.mem_essentialMembers hm with hm | rfl
      · exact .inl (Table.mem_allMembers.mp hm)
      · exact .inr ⟨_, rfl⟩

theorem has_unionMembers (hT : T.WellFormed) (hts : ∀ t ∈ ts, T.Has t) :
    ∀ m ∈ Ty.unionMembers T ts, T.Has m ∧ T.members m = [m] := by
  intro m hm
  rcases mem_unionMembers hm with ⟨t, ht, hm⟩ | ⟨p, rfl⟩
  · exact ⟨hT.has_member (hts t ht) hm, hT.members_member hm⟩
  · exact ⟨T.has_prim p, rfl⟩

theorem nodup_unionMembers (T : Table) (ts : List Ty) : (Ty.unionMembers T ts).Nodup := by
  simp only [Ty.unionMembers]
  split_ifs
  · simp
  · simp
  · simp
  · split
    · simp
    · exact Table.nodup_essentialMembers (nodup_eraseDups _)

theorem unionMembers_of_le {T' : Table} (hT : T.WellFormed) (h : T ≤ T')
    (hts : ∀ t ∈ ts, T.Has t) : Ty.unionMembers T' ts = Ty.unionMembers T ts := by
  have hall : ∀ m ∈ Ty.allMembers T ts, T.Has m := by
    intro m hm
    obtain ⟨t, ht, hm⟩ := Table.mem_allMembers.mp hm
    exact hT.has_member (hts t ht) hm
  simp only [Ty.unionMembers, Table.allMembers_of_le h hts, Table.essentialMembers_of_le h hall]

/-- The members that count are in the normal form once they are in order. -/
theorem canonical_unionMembers (hT : T.WellFormed) (hlength : (Ty.unionMembers T ts).length ≠ 1) :
    T.Canonical (T.sortMembers (Ty.unionMembers T ts)) := by
  simp only [Ty.unionMembers] at hlength ⊢
  split_ifs at hlength ⊢ with hinvalid hany hunknown
  · exact absurd rfl hlength
  · exact absurd rfl hlength
  · exact absurd rfl hlength
  split at hlength
  · exact absurd rfl hlength
  next hsome =>
    refine hT.canonical_essentialMembers (nodup_eraseDups _) (fun m hm => ?_) ?_ ?_
    · obtain ⟨t, -, hm⟩ := Table.mem_allMembers.mp hm
      exact hT.members_member hm
    · rintro t (rfl | rfl | rfl) ht
      · exact hinvalid (List.contains_iff_mem.mpr ht)
      · exact hany (List.contains_iff_mem.mpr ht)
      · exact hunknown (List.contains_iff_mem.mpr ht)
    · have := List.length_pos_of_ne_nil hsome
      omega

/-- What is made of no or several members is made of them in order. -/
theorem combine_many {shape : List Ty → Shape} (h : ms.length ≠ 1) :
    Ty.combine shape ms T = Ty.intern (shape (T.sortMembers ms)) T := by
  have hread : ∀ f : Table → Interning Ty, (get >>= f) T = f T T := fun _ => rfl
  match ms with
  | [] => exact hread _
  | [m] => exact absurd rfl h
  | _ :: _ :: _ => exact hread _

/-- A union with one member is that member. -/
theorem unionOf_single (h : Ty.unionMembers T ts = [m]) : Ty.unionOf ts T = (m, T) := by
  change Ty.combine .union (Ty.unionMembers T ts) T = _
  rw [h]
  rfl

/-- The union of two or more members that stand in order. -/
theorem unionOf_ordered (h : Ty.unionMembers T ts = ms) (hlength : ms.length ≠ 1)
    (hordered : ms.Pairwise fun a b => T.inOrder a b = true) :
    Ty.unionOf ts T = Ty.intern (.union ms) T := by
  change Ty.combine .union (Ty.unionMembers T ts) T = _
  rw [h, combine_many hlength, Table.sortMembers, List.mergeSort_of_pairwise hordered]

/-- Such a union gets an entry if there is none under its key. -/
theorem unionOf_new {key : String} (h : Ty.unionMembers T ts = ms)
    (hlength : ms.length ≠ 1) (hordered : ms.Pairwise fun a b => T.inOrder a b = true)
    (hkey : (Shape.union ms).key = key) (hnew : T.find? key = none) :
    Ty.unionOf ts T =
      (.made T.entries.size, T.push ⟨.union ms, key, T.shapeText (.union ms)⟩) := by
  rw [unionOf_ordered h hlength hordered, intern_apply, hkey, hnew]

/-- A union has the members that count, and only these. -/
theorem settles_unionOf (hT : T.WellFormed) (hts : ∀ t ∈ ts, T.Has t) :
    Settles T (Ty.unionOf ts) (fun T1 t => T1.Has t ∧ Stands T1 (Ty.unionMembers T ts) t) := by
  have hms := has_unionMembers hT hts
  refine settles_get_bind ?_ ?_
  · intro T2 h2
    rw [unionMembers_of_le hT h2 hts]
  · refine (settles_combine .union hT (fun m hm => (hms m hm).1) ?_
      fun _ _ => trivial).imp ?_
    · intro hlength
      refine ⟨Table.nodup_sortMembers (nodup_unionMembers T ts), rfl,
        fun p hp => (hms p (Table.mem_sortMembers.mp hp)).1, by simp, by simp, ?_⟩
      rintro _ ⟨⟩
      exact canonical_unionMembers hT hlength
    · rintro t T1 hT1 h1 ⟨ht, hone | hmany⟩
      · refine ⟨ht, fun m => ?_⟩
        obtain ⟨hhas, hself⟩ := hms t (by simp [hone])
        rw [Table.members_of_le h1.le hhas, hself, hone]
      · refine ⟨ht, fun m => ?_⟩
        cases hs : T1.shape t with
        | union ks =>
          rw [hs] at hmany
          simp only [Table.members, hs]
          rw [sameMembers_eq_iff.mp hmany m, Table.mem_sortMembers]
        | _ =>
          rw [hs] at hmany
          exact hmany.elim

end Interning

end ShapeCheck
