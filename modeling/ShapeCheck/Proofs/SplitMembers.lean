import ShapeCheck.Ty.Narrowing
import ShapeCheck.Proofs.UnionTargets

/-!
# The members with `boolean` split

A test of a value may keep one half of `boolean`, so it looks at the members of a type with
`boolean` split into its two values. The union of those that pass has exactly these: what passes is
in the normal form already, except that the two truth values are joined again.

* `Ty.mem_splitMembers_iff` says what the split members are.
* `Split.Selects` says that of the two sides of a test, and `Ty.sides_select` that they have it.

Removing a type from another one is such a test: of the split members exactly the removed one is
gone. `boolean` itself is never met among them, so removing it changes nothing.

* `Ty.eq_never_iff` says that only `never` has no member that says anything.
* `Ty.mem_kept_iff`: where nothing of `boolean` is left out, the members need not be split.
* `Ty.without_members` puts these together.
-/

namespace ShapeCheck

variable {b : Bool} {p : Ty → Bool}

open Table

namespace Ty

variable {T T1 : Table} {t u m : Ty}

theorem mem_splitMembers (hm : m ∈ T.members t) (hne : m ≠ .boolean) : m ∈ splitMembers T t :=
  List.mem_flatMap.mpr ⟨m, hm, by simp [hne]⟩

theorem mem_splitMembers_iff : m ∈ splitMembers T t ↔
    m ∈ T.members t ∧ m ≠ .boolean ∨ (∃ b, m = .truth b) ∧ .boolean ∈ T.members t := by
  constructor
  · intro hm
    obtain ⟨k, hk, hm⟩ := List.mem_flatMap.mp hm
    split_ifs at hm with hboolean
    · refine .inr ⟨?_, hboolean ▸ hk⟩
      rcases List.mem_pair.mp hm with rfl | rfl
      · exact ⟨true, rfl⟩
      · exact ⟨false, rfl⟩
    · obtain rfl := List.mem_singleton.mp hm
      exact .inl ⟨hk, hboolean⟩
  · rintro (⟨hm, hne⟩ | ⟨⟨b, rfl⟩, hboolean⟩)
    · exact mem_splitMembers hm hne
    · exact List.mem_flatMap.mpr ⟨_, hboolean, by cases b <;> simp⟩

theorem truth_mem_splitMembers : .truth b ∈ splitMembers T t ↔
    .truth b ∈ T.members t ∨ .boolean ∈ T.members t := by
  simp [mem_splitMembers_iff]

theorem boolean_not_mem_splitMembers : .boolean ∉ splitMembers T t := by
  simp [mem_splitMembers_iff]

/-- A type without `boolean` has nothing to split. -/
theorem splitMembers_eq_members (h : .boolean ∉ T.members t) : splitMembers T t = T.members t := by
  have hkeep : ∀ m ∈ T.members t,
      (if m = .boolean then [.truth true, .truth false] else [m]) = [m] := by
    intro m hm
    rw [if_neg (by rintro rfl; exact h hm)]
  rw [splitMembers, List.flatMap_congr hkeep, List.flatMap_singleton']

theorem flat_of_splitMembers (hT : T.WellFormed) (hm : m ∈ splitMembers T t) :
    T.members m = [m] := by
  rcases mem_splitMembers_iff.mp hm with ⟨hm, -⟩ | ⟨⟨b, rfl⟩, -⟩
  · exact hT.members_member hm
  · rfl

/-- Split members have nothing more to flatten. -/
theorem flattened_of_splitMembers (hT : T.WellFormed) {ms : List Ty}
    (hms : ∀ m ∈ ms, m ∈ splitMembers T t) :
    T.flattened ms = { m | m ∈ ms } := by
  ext k
  simp only [flattened, mem_allMembers, Set.mem_ofPred_eq]
  constructor
  · rintro ⟨k', hk', hk⟩
    rw [flat_of_splitMembers hT (hms k' hk'), List.mem_singleton] at hk
    exact hk ▸ hk'
  · intro hk
    exact ⟨k, hk, by rw [flat_of_splitMembers hT (hms k hk)]; exact List.mem_singleton_self k⟩

theorem has_splitMembers (hT : T.WellFormed) (ht : T.Has t)
    (hm : m ∈ splitMembers T t) : T.Has m := by
  rcases mem_splitMembers_iff.mp hm with ⟨hm, -⟩ | ⟨⟨b, rfl⟩, -⟩
  · exact hT.has_member ht hm
  · exact T.has_truth b

theorem splitMembers_of_le (h : T ≤ T1) (ht : T.Has t) : splitMembers T1 t = splitMembers T t := by
  rw [splitMembers, splitMembers, members_of_le h ht]

variable (hT : T.WellFormed)
include hT

/-- A type that is not everything has no such member. -/
theorem not_isTop_of_splitMembers (htop : t.isTop = false)
    (hm : m ∈ splitMembers T t) : m.isTop = false := by
  rcases mem_splitMembers_iff.mp hm with ⟨hm, -⟩ | ⟨⟨b, rfl⟩, -⟩
  · by_cases hunion : (T.shape t).IsUnion
    · obtain ⟨ms, hms⟩ := hunion
      rw [members_of_union hms] at hm
      exact (Assign.proper_of_canonical (hT.canonical_union hms) hm).1
    · rw [Assign.members_of_not_isUnion hunion, List.mem_singleton] at hm
      rwa [hm]
  · rfl

/-- Different members of a type are members of a union in its normal form. -/
theorem exists_canonical {k : Ty} (hm : m ∈ T.members t) (hk : k ∈ T.members t)
    (hne : m ≠ k) : ∃ ms, T.Canonical ms ∧ T.members t = ms := by
  by_cases hunion : (T.shape t).IsUnion
  · obtain ⟨ms, hms⟩ := hunion
    exact ⟨ms, hT.canonical_union hms, members_of_union hms⟩
  · rw [Assign.members_of_not_isUnion hunion, List.mem_singleton] at hm hk
    exact absurd (hm.trans hk.symm) hne

/-- A literal does not stand next to its primitive. -/
theorem base_not_mem_splitMembers (hm : m ∈ splitMembers T t) {l : Literal}
    (hl : T.literal? m = some l) : .prim l.base ∉ splitMembers T t := by
  intro hbase
  obtain ⟨hbase, hboolean⟩ | ⟨⟨b, hb⟩, -⟩ := mem_splitMembers_iff.mp hbase
  swap
  · exact absurd hb (by simp)
  rcases mem_splitMembers_iff.mp hm with ⟨hm, -⟩ | ⟨⟨b, rfl⟩, -⟩
  · have hne : m ≠ .prim l.base := by
      rintro rfl
      simp [literal?, Table.shape] at hl
    obtain ⟨ms, hcanonical, rfl⟩ := exists_canonical hT hm hbase hne
    exact hcanonical.literals m hm l hl hbase
  · obtain rfl : Literal.boolean b = l := by simpa [literal?, Table.shape] using hl
    exact hboolean rfl

/-- A truth value among the members keeps the other one out. -/
theorem truth_not_mem_splitMembers (hb : .truth b ∈ T.members t) :
    .truth (!b) ∉ splitMembers T t := by
  rw [truth_mem_splitMembers]
  rintro (hother | hboolean)
  · obtain ⟨ms, hcanonical, rfl⟩ := exists_canonical hT hb hother (by simp)
    cases b with
    | true => exact hcanonical.truths ⟨hb, hother⟩
    | false => exact hcanonical.truths ⟨hother, hb⟩
  · obtain ⟨ms, hcanonical, rfl⟩ := exists_canonical hT hb hboolean (by simp)
    exact hcanonical.literals _ hb (.boolean b) rfl hboolean

theorem splitMembers_member (hm : m ∈ T.members t) :
    splitMembers T m = if m = .boolean then [.truth true, .truth false] else [m] := by
  rw [splitMembers, hT.members_member hm, List.flatMap_singleton]

/-- A member all of whose parts pass a test is a member of the type that has the parts that pass. -/
theorem mem_members_of_selected (hT1 : T1.WellFormed)
    (hselected : ∀ m, m ≠ .never → (m ∈ splitMembers T1 u ↔ m ∈ splitMembers T t ∧ p m = true))
    (hm : m ∈ T.members t) (hne : m ≠ .never) (hp : ∀ k ∈ splitMembers T m, p k = true) :
    m ∈ T1.members u := by
  rw [splitMembers_member hT hm] at hp
  split_ifs at hp with hboolean
  · subst hboolean
    have htruths : ∀ b, .truth b ∈ splitMembers T1 u := fun b =>
      (hselected _ (by simp)).mpr ⟨truth_mem_splitMembers.mpr (.inr hm), hp _ (by cases b <;> simp)⟩
    refine (truth_mem_splitMembers.mp (htruths true)).resolve_left fun h => ?_
    exact truth_not_mem_splitMembers hT1 h (htruths false)
  · have hin := (hselected m hne).mpr ⟨mem_splitMembers hm hboolean, hp m (by simp)⟩
    rcases mem_splitMembers_iff.mp hin with ⟨hin, -⟩ | ⟨⟨b, rfl⟩, hboth⟩
    · exact hin
    · -- the other half would have to be a member of the first type as well
      have hother := (hselected _ (by simp)).mp (truth_mem_splitMembers (b := !b).mpr (.inr hboth))
      exact absurd hother.1 (truth_not_mem_splitMembers hT hm)

/-- **The union of some members of a type has these members**, and only these. -/
theorem settles_selected (ht : T.Has t) (htop : t.isTop = false) (ms : List Ty)
    (hms : ∀ m ∈ ms, m ∈ splitMembers T t) :
    Interning.Settles T (unionOf ms) fun T1 u => T1.Has u ∧
      ∀ m, m ≠ .never → (m ∈ splitMembers T1 u ↔ m ∈ ms) := by
  refine (Interning.settles_unionOf hT fun m hm => has_splitMembers hT ht (hms m hm)).imp
    fun u T1 _ _ ⟨hu, hstands⟩ => ⟨hu, fun m hne => ?_⟩
  have hflat := flattened_of_splitMembers hT hms
  have htops : ¬Tops { m | m ∈ ms } :=
    not_tops fun m hm => not_isTop_of_splitMembers hT htop (hms m hm)
  have hcounts : ∀ k, k ≠ .never → (k ∈ T1.members u ↔ T.Counts { m | m ∈ ms } k) := by
    intro k hk
    rw [hstands k, mem_unionMembers_iff, hflat, mem_joined htops]
    simp [hk]
  have hno : Ty.boolean ∉ ms := fun h => boolean_not_mem_splitMembers (hms _ h)
  have hboolean : .boolean ∈ T1.members u ↔ .truth true ∈ ms ∧ .truth false ∈ ms := by
    rw [hcounts _ (by simp), counts_boolean]
    simp [hno]
  rw [mem_splitMembers_iff, hcounts m hne, hboolean]
  cases m with
  | truth b =>
    rw [counts_truth, ← hcounts _ (by simp), hboolean]
    cases b <;> simp <;> tauto
  | prim p =>
    by_cases hp : p = .boolean
    · subst hp
      simp [hno]
    · rw [counts_prim (by simpa [Ty.never] using hne) hp]
      simp [hp]
  | made n =>
    rw [counts_made]
    simp only [ne_eq, reduceCtorEq, not_false_eq_true, and_true, exists_const, false_and, or_false,
      Set.mem_ofPred_eq]
    exact and_iff_left_of_imp fun hm l hl hbase =>
      base_not_mem_splitMembers hT (hms _ hm) hl (hms _ hbase)

end Ty

/-- The two sides of a test, types of the second table, have the members of a type of the first one
that pass either of two tests. -/
structure Split.Selects (T T1 : Table) (t : Ty) (p q : Ty → Bool) (s : Split) : Prop where
  yes : ∀ m, m ≠ .never → (m ∈ Ty.splitMembers T1 s.yes ↔ m ∈ Ty.splitMembers T t ∧ p m = true)
  no : ∀ m, m ≠ .never → (m ∈ Ty.splitMembers T1 s.no ↔ m ∈ Ty.splitMembers T t ∧ q m = true)

/-- Both sides are made of the members that pass. -/
theorem Ty.sides_select {T : Table} {t : Ty} (hT : T.WellFormed) (ht : T.Has t)
    (htop : t.isTop = false) (p q : Ty → Bool) : ∃ yes T1 no T2,
      unionOf ((splitMembers T t).filter p) T = (yes, T1) ∧ T ≤ T1 ∧
      unionOf ((splitMembers T t).filter q) T1 = (no, T2) ∧ T1 ≤ T2 ∧ T2.WellFormed ∧
      Split.Selects T T2 t p q ⟨yes, no⟩ := by
  obtain ⟨yes, T1, hyes, hyeshas, hyesmem⟩ := settles_selected hT ht htop
    ((splitMembers T t).filter p) fun _ => List.mem_of_mem_filter
  have hle := hyes.adds.le
  have hsame := splitMembers_of_le hle ht
  obtain ⟨no, T2, hno, -, hnomem⟩ := settles_selected hyes.wellFormed (has_of_le hle ht) htop
    ((splitMembers T t).filter q) fun _ hm => hsame ▸ List.mem_of_mem_filter hm
  refine ⟨yes, T1, no, T2, hyes.result, hle, hno.result, hno.adds.le, hno.wellFormed,
    fun m hm => ?_, fun m hm => ?_⟩
  · rw [splitMembers_of_le hno.adds.le hyeshas, hyesmem m hm, List.mem_filter]
  · rw [hnomem m hm, List.mem_filter]

/-! ## A type without one of its members -/

/-- The union of the two truth values is `boolean`. -/
theorem Table.joined_truths (T : Table) : T.joined {.truth true, .truth false} = {.boolean} := by
  have htops : ¬Tops ({.truth true, .truth false} : Set Ty) :=
    not_tops (by rintro k (rfl | rfl) <;> rfl)
  have hboolean : T.Counts {.truth true, .truth false} .boolean :=
    counts_boolean.mpr (.inr ⟨.inl rfl, .inr rfl⟩)
  have hcounts : ∀ m, T.Counts {.truth true, .truth false} m ↔ m = .boolean := by
    intro m
    refine ⟨?_, fun h => h ▸ hboolean⟩
    rintro (⟨hin, -, -, hhalf⟩ | ⟨rfl, -⟩)
    · exact absurd ⟨hin, .inl rfl, .inr rfl, by simp⟩ hhalf
    · rfl
  ext m
  rw [mem_joined htops, hcounts]
  simp only [hcounts, Set.mem_singleton_iff]
  exact or_iff_left fun h => h.2 _ rfl

namespace Ty

variable {T T1 : Table} {t u m : Ty}

/-- A type has no member that says anything only if it is `never`. -/
theorem eq_never_iff (hT : T.WellFormed) : t = .never ↔ ∀ m ∈ splitMembers T t, m = .never := by
  constructor
  · rintro rfl m hm
    exact List.mem_singleton.mp hm
  intro hnever
  have hmembers : ∀ m ∈ T.members t, m = .never := by
    intro m hm
    by_cases hboolean : m = .boolean
    · exact absurd (hnever (.truth true) (truth_mem_splitMembers.mpr (.inr (hboolean ▸ hm))))
        (by simp)
    · exact hnever m (mem_splitMembers hm hboolean)
  by_cases hunion : (T.shape t).IsUnion
  · obtain ⟨ms, hms⟩ := hunion
    have hcanonical := hT.canonical_union hms
    obtain ⟨m, hm⟩ := List.exists_mem_of_length_pos
      (Nat.lt_of_lt_of_le Nat.zero_lt_two hcanonical.several)
    exact absurd (hmembers m (members_of_union hms ▸ hm))
      (Assign.proper_of_canonical hcanonical hm).2
  · exact hmembers t (by simp [Assign.members_of_not_isUnion hunion])

/-- A type that takes every value is its only member. -/
theorem splitMembers_of_isTop (htop : t.isTop = true) : splitMembers T t = [t] := by
  simp only [isTop, Bool.or_eq_true, decide_eq_true_eq] at htop
  rcases htop with (rfl | rfl) | rfl <;> rfl

/-- **What a filter leaves**: the members that pass, and only these. -/
theorem settles_filtered (hT : T.WellFormed) (ht : T.Has t) (keep : Ty → Bool) :
    Interning.Settles T (unionOf ((splitMembers T t).filter keep)) fun T1 u => T1.Has u ∧
      ∀ m, m ≠ .never → (m ∈ splitMembers T1 u ↔ m ∈ splitMembers T t ∧ keep m = true) := by
  by_cases htop : t.isTop = true
  · rw [splitMembers_of_isTop htop]
    have hkept : ∀ m ∈ [t].filter keep, T.Has m := fun m hm =>
      List.mem_singleton.mp (List.mem_of_mem_filter hm) ▸ ht
    obtain ⟨u, T1, hat, hu, -⟩ := Interning.settles_unionOf hT hkept
    refine ⟨u, T1, hat, hu, fun m hm => ?_⟩
    have hrun := hat.result
    by_cases hkeep : keep t = true
    · rw [List.filter_cons_of_pos hkeep, List.filter_nil, Interning.unionOf_self hT] at hrun
      obtain ⟨rfl, -⟩ := Prod.mk.inj hrun
      rw [splitMembers_of_isTop htop, List.mem_singleton]
      exact ⟨fun h => ⟨h, h ▸ hkeep⟩, And.left⟩
    · rw [List.filter_cons_of_neg hkeep, List.filter_nil, Interning.unionOf_single rfl] at hrun
      obtain ⟨rfl, -⟩ := Prod.mk.inj hrun
      refine iff_of_false (fun h => hm (List.mem_singleton.mp h)) fun h => hkeep ?_
      exact List.mem_singleton.mp h.1 ▸ h.2
  · refine (settles_selected hT ht (by simpa using htop) _ fun _ => List.mem_of_mem_filter).imp
      fun u T1 _ _ ⟨hu, hmem⟩ => ⟨hu, fun m hm => ?_⟩
    rw [hmem m hm, List.mem_filter]

/-- Where both truth values pass, a filter takes no half of `boolean`: what is left was there. -/
theorem mem_members_of_kept (hT : T.WellFormed) (hT1 : T1.WellFormed)
    (hkept : ∀ m, m ≠ .never → (m ∈ splitMembers T1 u ↔ m ∈ splitMembers T t ∧ p m = true))
    (htruth : ∀ b, p (.truth b) = true) (hm : m ∈ T1.members u) (hne : m ≠ .never) :
    m ∈ T.members t := by
  have hboth : ∀ b, .truth b ∈ splitMembers T1 u ↔ .truth b ∈ splitMembers T t := fun b => by
    simp [hkept (.truth b) (by simp), htruth b]
  by_cases hboolean : m = .boolean
  · subst hboolean
    have hall : ∀ b, .truth b ∈ splitMembers T t := fun b =>
      (hboth b).mp (truth_mem_splitMembers.mpr (.inr hm))
    exact (truth_mem_splitMembers.mp (hall true)).resolve_left fun h =>
      truth_not_mem_splitMembers hT h (hall false)
  rcases mem_splitMembers_iff.mp ((hkept m hne).mp (mem_splitMembers hm hboolean)).1 with
    ⟨hin, -⟩ | ⟨⟨b, rfl⟩, hwhole⟩
  · exact hin
  · -- the other half would have passed as well
    have hother := (hboth !b).mpr (truth_mem_splitMembers.mpr (.inr hwhole))
    exact absurd hother (truth_not_mem_splitMembers hT1 hm)

/-- A test that the truth values and `boolean` pass may be asked of the members as they are. -/
theorem mem_kept_iff (hT : T.WellFormed) (hT1 : T1.WellFormed)
    (hkept : ∀ m, m ≠ .never → (m ∈ splitMembers T1 u ↔ m ∈ splitMembers T t ∧ p m = true))
    (htruth : ∀ b, p (.truth b) = true) (hboolean : p .boolean = true) (hne : m ≠ .never) :
    m ∈ T1.members u ↔ m ∈ T.members t ∧ p m = true := by
  refine ⟨fun hm => ⟨mem_members_of_kept hT hT1 hkept htruth hm hne, ?_⟩, fun ⟨hm, hp⟩ => ?_⟩
  · by_cases heq : m = .boolean
    · exact heq ▸ hboolean
    · exact ((hkept m hne).mp (mem_splitMembers hm heq)).2
  · refine mem_members_of_selected hT hT1 hkept hm hne fun k hk => ?_
    rw [splitMembers_member hT hm] at hk
    split_ifs at hk
    · rcases List.mem_pair.mp hk with rfl | rfl
      · exact htruth true
      · exact htruth false
    · exact List.mem_singleton.mp hk ▸ hp

/-- The split members make up the type. -/
theorem unionOf_splitMembers (hT : T.WellFormed) (t : Ty) :
    unionOf (splitMembers T t) T = (t, T) := by
  rw [← Interning.unionOf_self hT t]
  refine Interning.unionOf_congr ?_
  rw [Interning.flattened_singleton, flattened_of_splitMembers hT fun _ => id]
  by_cases hboolean : .boolean ∈ T.members t
  · let rest : Set Ty := { m | m ∈ T.members t ∧ m ≠ .boolean }
    have hsplit : { m | m ∈ splitMembers T t } = {.truth true, .truth false} ∪ rest := by
      ext m
      simp only [Set.mem_ofPred_eq, mem_splitMembers_iff, hboolean, and_true, Bool.exists_bool,
        Set.mem_union, Set.mem_insert_iff, Set.mem_singleton_iff, rest]
      tauto
    have hwhole : { m | m ∈ T.members t } = {.boolean} ∪ rest := by
      ext m
      by_cases hm : m = .boolean
      · simp [rest, hm, hboolean]
      · simp [rest, hm]
    rw [hsplit, hwhole, ← joined_union hT, T.joined_truths]
  · rw [splitMembers_eq_members hboolean]

/-- **Removing a type removes exactly this member.** In a table after any operations, a type without
another one has the members of the type other than that one, with `boolean` split into its two
values; it is `never` when none is left. Unless a truth value is removed, nothing has to be split to
say so, with one exception: removing `boolean` leaves every type as it is. -/
theorem without_members (hT : Relation.ReflTransGen Table.Operated {} T)
    (ht : T.Has t) (target : Ty) :
    ∃ u T1, t.without target T = (u, T1) ∧ T1.Has u ∧
      (∀ m, m ≠ .never → (m ∈ splitMembers T1 u ↔ m ∈ splitMembers T t ∧ m ≠ target)) ∧
      (u = .never ↔ ∀ m ∈ splitMembers T t, m = target ∨ m = .never) ∧
      (target ≠ .boolean → (∀ b, target ≠ .truth b) →
        ∀ m, m ≠ .never → (m ∈ T1.members u ↔ m ∈ T.members t ∧ m ≠ target)) ∧
      (target = .boolean → u = t ∧ T1 = T) := by
  have hwf := (Table.faithful_empty.operations hT).1.wellFormed
  obtain ⟨u, T1, hat, hu, hmem⟩ := settles_filtered hwf ht fun m => decide (m ≠ target)
  have hwf1 := hat.wellFormed
  simp only [decide_eq_true_eq] at hmem
  refine ⟨u, T1, hat.result, hu, hmem, ?_, fun hne htruth m hm => ?_, ?_⟩
  · -- what is left of a member that says something is that member
    rw [eq_never_iff hwf1]
    constructor
    · intro hnever m hm
      by_contra hsome
      rw [not_or] at hsome
      exact hsome.2 (hnever m ((hmem m hsome.2).mpr ⟨hm, hsome.1⟩))
    · intro hall m hm
      by_contra hsome
      obtain ⟨hin, hne⟩ := (hmem m hsome).mp hm
      exact (hall m hin).elim hne hsome
  · have hkept : ∀ k, k ≠ .never →
        (k ∈ splitMembers T1 u ↔ k ∈ splitMembers T t ∧ decide (k ≠ target) = true) := by
      simpa only [decide_eq_true_eq] using hmem
    simpa only [decide_eq_true_eq] using mem_kept_iff hwf hwf1 hkept
      (fun b => decide_eq_true (htruth b).symm) (decide_eq_true hne.symm) hm
  · rintro rfl
    have hall : (splitMembers T t).filter (fun m => decide (m ≠ .boolean)) = splitMembers T t :=
      List.filter_eq_self.mpr fun m hm =>
        decide_eq_true fun h => boolean_not_mem_splitMembers (h ▸ hm)
    have hrun := hat.result
    rw [hall, unionOf_splitMembers hwf] at hrun
    exact ⟨(congrArg Prod.fst hrun).symm, (congrArg Prod.snd hrun).symm⟩

/-- Without `true`, of `boolean` remains `false`. -/
theorem without_members_halved : ∃ u T1, Ty.boolean.without (.truth true) {} = (u, T1) ∧
    ∀ m, m ≠ .never → (m ∈ splitMembers T1 u ↔ m = .truth false) := by
  obtain ⟨u, T1, hrun, -, hmem, -⟩ := without_members .refl (has_prim {} .boolean) (.truth true)
  refine ⟨u, T1, hrun, fun m hm => ?_⟩
  have hhalves : splitMembers {} (.prim .boolean) = [.truth true, .truth false] := rfl
  rw [hmem m hm, hhalves, List.mem_pair]
  exact ⟨fun h => h.1.resolve_left h.2, fun h => ⟨.inr h, by simp [h]⟩⟩

/-- **`boolean` is not removed**: without it, it is left as it is, although it is its own only
member. -/
theorem not_without_boolean : ¬∀ (T : Table) (t target : Ty),
    Relation.ReflTransGen Table.Operated {} T → T.Has t → T.Has target → ¬(T.shape target).IsUnion →
      ∀ m, m ≠ .never → (m ∈ (t.without target T).2.members (t.without target T).1 ↔
        m ∈ T.members t ∧ m ≠ target) := by
  intro h
  have hunion : ¬(({} : Table).shape .boolean).IsUnion := by
    rintro ⟨ms, hms⟩
    exact absurd hms (by simp [Table.shape])
  have hstays : Ty.boolean ∈
      (Ty.boolean.without .boolean {}).2.members (Ty.boolean.without .boolean {}).1 := by
    decide +kernel
  exact ((h {} .boolean .boolean .refl (has_prim _ _) (has_prim _ _) hunion .boolean (by decide)).mp
    hstays).2 rfl

end Ty

end ShapeCheck
