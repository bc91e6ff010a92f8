import ShapeCheck.Proofs.Entries
import ShapeCheck.Proofs.Stability
import Mathlib.Data.Set.Basic

/-!
# The union is a join

Which types count in a union only depends on the set of members that flattening gives. What counts
is put in one order and looked up by its key, so a set has one union for good: it is found again in
whatever order and however often its members are named, and whatever the table is used for
meanwhile. A union taken in steps is the union taken at once, since what the first step leaves out
is left out by the second one as well.

* `Table.Counts` and `Table.joined` say what counts in a set of members.
* `Table.Operated.lists` says that no operation takes an entry away.
* `Ty.unionOf_join` is the law for types.
-/

namespace ShapeCheck

variable {n : Nat} {T : Table} {ms : List Ty}

namespace Table

/-- The two truth values are in the set, and `boolean` is not. -/
def Splits (S : Set Ty) : Prop := .truth true ∈ S ∧ .truth false ∈ S ∧ .boolean ∉ S

/-- The type counts among the members: it says more than nothing, its primitive is not there, and it
is no half of `boolean`; or it is `boolean`, which the two halves stand for. -/
def Counts (T : Table) (S : Set Ty) (m : Ty) : Prop :=
  (m ∈ S ∧ m ≠ .never ∧ (∀ l, T.literal? m = some l → .prim l.base ∉ S) ∧
    ¬((m = .truth true ∨ m = .truth false) ∧ Splits S)) ∨
  m = .boolean ∧ Splits S

/-- The set has a type that absorbs all others. -/
def Tops (S : Set Ty) : Prop := .invalid ∈ S ∨ .any ∈ S ∨ .unknown ∈ S

/-- The members of the union of a set of members: one type that absorbs the others, or what counts,
or `never` if nothing does. -/
def joined (T : Table) (S : Set Ty) : Set Ty := { m |
  (m = .invalid ∧ .invalid ∈ S) ∨ (m = .any ∧ .any ∈ S ∧ .invalid ∉ S) ∨
  (m = .unknown ∧ .unknown ∈ S ∧ .any ∉ S ∧ .invalid ∉ S) ∨
  (¬Tops S ∧ (T.Counts S m ∨ m = .never ∧ ∀ k, ¬T.Counts S k)) }

section Sets

variable {ts us : List Ty} {m : Ty}

/-- The members that flattening gives. -/
def flattened (T : Table) (ts : List Ty) : Set Ty := { m | m ∈ Ty.allMembers T ts }

theorem flattened_cons (T : Table) (t : Ty) (ts : List Ty) :
    T.flattened (t :: ts) = { m | m ∈ T.members t } ∪ T.flattened ts := by
  ext m
  simp [flattened, mem_allMembers]

theorem flattened_append (T : Table) (ts us : List Ty) :
    T.flattened (ts ++ us) = T.flattened ts ∪ T.flattened us := by
  ext m
  simp [flattened, mem_allMembers, or_and_right, exists_or]

theorem mem_essentialMembers_iff {all : List Ty} :
    m ∈ Ty.essentialMembers T all ↔ T.Counts { m | m ∈ all } m := by
  have hsplits : Ty.splitsBoolean all = true ↔ Splits { m | m ∈ all } := by
    simp [Ty.splitsBoolean, Splits, and_assoc]
  have habsorbed : Ty.isAbsorbed T all m = true ↔ m = .never ∨
      (∃ l, T.literal? m = some l ∧ .prim l.base ∈ all) ∨
      ((m = .truth true ∨ m = .truth false) ∧ Splits { m | m ∈ all }) := by
    rw [← hsplits]
    cases hl : T.literal? m with
    | none => simp [Ty.isAbsorbed, hl]
    | some l => simp [Ty.isAbsorbed, hl, or_assoc]
  have hjoined : m ∈ (if Ty.splitsBoolean all then [Ty.boolean] else []) ↔
      m = .boolean ∧ Splits { m | m ∈ all } := by
    rw [← hsplits]
    split <;> simp_all
  rw [Ty.essentialMembers, List.mem_append, List.mem_filter, hjoined, Bool.not_eq_true',
    ← Bool.not_eq_true, habsorbed, Counts]
  simp only [Set.mem_ofPred_eq, not_or, not_exists, not_and]

theorem mem_unionMembers_iff : m ∈ Ty.unionMembers T ts ↔ m ∈ T.joined (T.flattened ts) := by
  have hin : ∀ t, (Ty.allMembers T ts).contains t = true ↔ t ∈ T.flattened ts := fun t =>
    List.contains_iff_mem
  have hcounts : ∀ k, k ∈ Ty.essentialMembers T (Ty.allMembers T ts) ↔
      T.Counts (T.flattened ts) k := fun k => mem_essentialMembers_iff
  simp only [Ty.unionMembers]
  split_ifs with hinvalid hany hunknown
  · rw [hin] at hinvalid
    simp [joined, Tops, hinvalid]
  · rw [hin] at hinvalid hany
    simp [joined, Tops, hinvalid, hany]
  · rw [hin] at hinvalid hany hunknown
    simp [joined, Tops, hinvalid, hany, hunknown]
  · rw [hin] at hinvalid hany hunknown
    have hjoined : m ∈ T.joined (T.flattened ts) ↔
        T.Counts (T.flattened ts) m ∨ m = .never ∧ ∀ k, ¬T.Counts (T.flattened ts) k := by
      simp [joined, Tops, hinvalid, hany, hunknown]
    rw [hjoined]
    split
    next hnone =>
      have hno : ∀ k, ¬T.Counts (T.flattened ts) k := fun k hk => by
        simpa [hnone] using (hcounts k).mpr hk
      simp [hno]
    next hsome =>
      rw [hcounts]
      refine (or_iff_left ?_).symm
      rintro ⟨-, hno⟩
      obtain ⟨k, hk⟩ := List.exists_mem_of_ne_nil _ hsome
      exact hno k ((hcounts k).mp hk)

variable {A B S : Set Ty}

theorem not_counts_never : ¬T.Counts S .never := by
  rintro (⟨-, h, -⟩ | ⟨h, -⟩)
  · exact h rfl
  · exact absurd h (by decide)

/-- A primitive other than `boolean` counts where it is. -/
theorem counts_prim {p : Primitive} (hnever : p ≠ .never) (hboolean : p ≠ .boolean) :
    T.Counts S (.prim p) ↔ .prim p ∈ S := by
  simp [Counts, literal?, shape, Ty.never, Ty.boolean, hnever, hboolean]

/-- `boolean` counts where it is or both of its halves are. -/
theorem counts_boolean :
    T.Counts S .boolean ↔ .boolean ∈ S ∨ .truth true ∈ S ∧ .truth false ∈ S := by
  by_cases h : Ty.boolean ∈ S
  · simp [Counts, Splits, literal?, shape, Ty.never, Ty.boolean, h]
  · simp [Counts, Splits, h]

/-- A truth value counts where `boolean` does not. -/
theorem counts_truth {b : Bool} : T.Counts S (.truth b) ↔ .truth b ∈ S ∧ ¬T.Counts S .boolean := by
  have hbase : (∀ l, T.literal? (.truth b) = some l → Ty.prim l.base ∉ S) ↔ Ty.boolean ∉ S := by
    simp [literal?, shape, Literal.base, Ty.boolean]
  have htruth : Ty.truth b = .truth true ∨ Ty.truth b = .truth false := by
    cases b <;> simp
  rw [counts_boolean, Counts, hbase]
  simp only [ne_eq, reduceCtorEq, not_false_eq_true, true_and, htruth, false_and, or_false, Splits,
    Ty.never, Ty.boolean]
  grind

/-- A type that is no primitive and no truth value counts where its primitive is missing. -/
theorem counts_made : T.Counts S (.made n) ↔
    .made n ∈ S ∧ ∀ l, T.literal? (.made n) = some l → .prim l.base ∉ S := by
  simp [Counts, Ty.never, Ty.boolean]

theorem mem_joined (h : ¬Tops S) :
    m ∈ T.joined S ↔ T.Counts S m ∨ m = .never ∧ ∀ k, ¬T.Counts S k := by
  have hparts : Ty.invalid ∉ S ∧ Ty.any ∉ S ∧ Ty.unknown ∉ S := by
    simpa [Tops] using h
  simp [joined, Tops, hparts]

/-- Types that do not take every value do not absorb the others. -/
theorem not_tops (h : ∀ k ∈ S, k.isTop = false) : ¬Tops S := by
  rintro (hin | hin | hin)
  · exact absurd (h _ hin) (by decide)
  · exact absurd (h _ hin) (by decide)
  · exact absurd (h _ hin) (by decide)

/-- What a first union leaves out does not count in a larger one. -/
theorem counts_joined_union (hT : T.WellFormed) (hA : ¬Tops A) :
    T.Counts (T.joined A ∪ B) m ↔ T.Counts (A ∪ B) m := by
  have hin : ∀ k, k ≠ .never → (k ∈ T.joined A ∪ B ↔ T.Counts A k ∨ k ∈ B) := by
    intro k hk
    simp [mem_joined hA, hk]
  have htruth : ∀ b, .truth b ∈ T.joined A ∪ B ↔
      (.truth b ∈ A ∧ ¬T.Counts A .boolean) ∨ .truth b ∈ B := by
    intro b
    rw [hin _ (by simp [Ty.never]), counts_truth]
  have hboolean : T.Counts (T.joined A ∪ B) .boolean ↔ T.Counts (A ∪ B) .boolean := by
    rw [counts_boolean, counts_boolean, htruth, htruth, hin _ (by decide), counts_boolean]
    simp only [Set.mem_union]
    grind
  have hmore : T.Counts A .boolean → T.Counts (A ∪ B) .boolean := by
    rw [counts_boolean, counts_boolean]
    simp only [Set.mem_union]
    grind
  cases m with
  | prim p =>
    by_cases hnever : p = .never
    · subst hnever
      exact iff_of_false not_counts_never not_counts_never
    by_cases hp : p = .boolean
    · subst hp
      exact hboolean
    rw [counts_prim hnever hp, counts_prim hnever hp, hin _ (by simpa [Ty.never] using hnever),
      counts_prim hnever hp]
    rfl
  | truth b =>
    rw [counts_truth, counts_truth, hboolean, htruth, Set.mem_union]
    grind
  | made n =>
    have hbase : ∀ l, T.literal? (.made n) = some l →
        (Ty.prim l.base ∈ T.joined A ∪ B ↔ Ty.prim l.base ∈ A ∪ B) := by
      intro l hl
      have hplain : l.base ≠ .never ∧ l.base ≠ .boolean := by
        cases l with
        | boolean x =>
          have hshape : T.shape (.made n) = .literal (.boolean x) := shape_of_literal? hl
          exact absurd (eq_truth_of_shape hT hshape) (by simp)
        | _ => simp [Literal.base]
      rw [hin _ (by simpa [Ty.never] using hplain.1), counts_prim hplain.1 hplain.2]
      rfl
    rw [counts_made, counts_made, hin _ (by simp [Ty.never]), counts_made, Set.mem_union]
    grind

theorem joined_of_invalid (h : .invalid ∈ S) : T.joined S = {.invalid} := by
  ext m
  simp [joined, Tops, h]

theorem joined_of_any (h : .any ∈ S) (hinvalid : .invalid ∉ S) : T.joined S = {.any} := by
  ext m
  simp [joined, Tops, h, hinvalid]

theorem joined_of_unknown (h : .unknown ∈ S) (hany : .any ∉ S) (hinvalid : .invalid ∉ S) :
    T.joined S = {.unknown} := by
  ext m
  simp [joined, Tops, h, hany, hinvalid]

theorem invalid_mem_joined : .invalid ∈ T.joined S ↔ .invalid ∈ S := by
  by_cases hinvalid : Ty.invalid ∈ S
  · simp [joined_of_invalid, hinvalid]
  · simp [joined, hinvalid, Ty.invalid, Ty.any, Ty.unknown, Ty.never, counts_prim]

theorem any_mem_joined (hinvalid : .invalid ∉ S) : .any ∈ T.joined S ↔ .any ∈ S := by
  by_cases hany : Ty.any ∈ S
  · simp [joined_of_any, hany, hinvalid]
  · simp [joined, hany, hinvalid, Ty.invalid, Ty.any, Ty.unknown, Ty.never, counts_prim]

theorem unknown_mem_joined (hinvalid : .invalid ∉ S) (hany : .any ∉ S) :
    .unknown ∈ T.joined S ↔ .unknown ∈ S := by
  by_cases hunknown : Ty.unknown ∈ S
  · simp [joined_of_unknown, hunknown, hany, hinvalid]
  · simp [joined, hunknown, hany, hinvalid, Ty.invalid, Ty.any, Ty.unknown, Ty.never, counts_prim]

/-- **A union in steps is the union at once.** -/
theorem joined_union (hT : T.WellFormed) (A B : Set Ty) :
    T.joined (T.joined A ∪ B) = T.joined (A ∪ B) := by
  have hinvalid : .invalid ∈ T.joined A ∪ B ↔ .invalid ∈ A ∪ B := or_congr invalid_mem_joined .rfl
  by_cases hi : .invalid ∈ A ∪ B
  · rw [joined_of_invalid hi, joined_of_invalid (hinvalid.mpr hi)]
  have hi' := mt hinvalid.mp hi
  have hiA : .invalid ∉ A := fun h => hi (.inl h)
  have hany : .any ∈ T.joined A ∪ B ↔ .any ∈ A ∪ B := or_congr (any_mem_joined hiA) .rfl
  by_cases ha : .any ∈ A ∪ B
  · rw [joined_of_any ha hi, joined_of_any (hany.mpr ha) hi']
  have ha' := mt hany.mp ha
  have haA : .any ∉ A := fun h => ha (.inl h)
  have hunknown : .unknown ∈ T.joined A ∪ B ↔ .unknown ∈ A ∪ B :=
    or_congr (unknown_mem_joined hiA haA) .rfl
  by_cases hu : .unknown ∈ A ∪ B
  · rw [joined_of_unknown hu ha hi, joined_of_unknown (hunknown.mpr hu) ha' hi']
  have hu' := mt hunknown.mp hu
  have hA : ¬Tops A := by
    rintro (h | h | h)
    · exact hiA h
    · exact haA h
    · exact hu (.inl h)
  ext m
  rw [mem_joined (by simp only [Tops, hi', ha', hu', or_self, not_false_eq_true]),
    mem_joined (by simp only [Tops, hi, ha, hu, or_self, not_false_eq_true])]
  simp only [counts_joined_union hT hA]

/-- A set in the normal form is its own union. -/
theorem joined_self (hsome : S.Nonempty)
    (hproper : ∀ m ∈ S, m ≠ .never ∧ m ≠ .any ∧ m ≠ .unknown ∧ m ≠ .invalid)
    (hliterals : ∀ m ∈ S, ∀ l, T.literal? m = some l → Ty.prim l.base ∉ S)
    (htruths : ¬(Ty.truth true ∈ S ∧ Ty.truth false ∈ S)) : T.joined S = S := by
  have htops : ¬Tops S := by
    rintro (h | h | h)
    · exact (hproper _ h).2.2.2 rfl
    · exact (hproper _ h).2.1 rfl
    · exact (hproper _ h).2.2.1 rfl
  have hcounts : ∀ m, T.Counts S m ↔ m ∈ S := by
    intro m
    have hsplits : ¬Splits S := fun h => htruths ⟨h.1, h.2.1⟩
    simp only [Counts, hsplits, and_false, not_false_eq_true, and_true, or_false]
    exact ⟨And.left, fun h => ⟨h, (hproper m h).1, hliterals m h⟩⟩
  ext m
  rw [mem_joined htops, hcounts]
  simp only [hcounts]
  refine or_iff_left ?_
  rintro ⟨-, hno⟩
  obtain ⟨k, hk⟩ := hsome
  exact hno k hk

theorem joined_singleton (T : Table) (t : Ty) : T.joined {t} = {t} := by
  by_cases hinvalid : t = .invalid
  · exact hinvalid ▸ joined_of_invalid rfl
  by_cases hany : t = .any
  · exact hany ▸ joined_of_any rfl (by decide)
  by_cases hunknown : t = .unknown
  · exact hunknown ▸ joined_of_unknown rfl (by decide) (by decide)
  by_cases hnever : t = .never
  · subst hnever
    have hno : ∀ k, ¬T.Counts {.never} k := by
      rintro k (⟨hk, hk', -⟩ | ⟨-, hk, -⟩)
      · exact hk' hk
      · exact absurd hk (by decide)
    ext m
    rw [mem_joined (by simp [Tops, Ty.never, Ty.invalid, Ty.any, Ty.unknown])]
    simp [hno]
  refine joined_self ⟨t, rfl⟩ ?_ ?_ ?_
  · rintro m rfl
    exact ⟨hnever, hany, hunknown, hinvalid⟩
  · rintro m rfl l hl hbase
    rw [← Set.mem_singleton_iff.mp hbase] at hl
    exact absurd hl (by simp [literal?, shape])
  · rintro ⟨htrue, hfalse⟩
    exact absurd (htrue.trans hfalse.symm) (by decide)

end Sets

theorem Precedes.ne {a b : Ty} (h : T.Precedes a b) : a ≠ b := by
  rintro rfl
  exact h.asymm h

theorem WellFormed.canonical_union (hT : T.WellFormed) {u : Ty}
    (hu : T.shape u = .union ms) : T.Canonical ms := by
  obtain ⟨n, e, rfl, he, hshape⟩ := exists_entry hu (by simp) (by simp)
  exact (hT.entry n e he).union ms hshape

/-- An entry is found by its key. -/
theorem WellFormed.find?_key (hT : T.WellFormed) {e : Entry}
    (he : T.entries[n]? = some e) (hplain : e.shape.isEnumMember = false) :
    T.find? e.key = some (.made n) := by
  cases hfind : T.find? e.key with
  | none => exact absurd rfl (find?_eq_none hfind he)
  | some t =>
    obtain ⟨k, f, rfl, hf, hkey⟩ := find?_eq_some hfind
    rw [hT.unique n k e f he hf hplain hkey.symm]

end Table

namespace Interning

open Table

variable {T1 T2 : Table} {ts us : List Ty} {t u : Ty}

/-- What is made of some members is made of their set. -/
theorem combine_congr (shape : List Ty → Shape) {ns : List Ty} (hms : ms.Nodup) (hns : ns.Nodup)
    (h : ∀ m, m ∈ ms ↔ m ∈ ns) : Ty.combine shape ms T = Ty.combine shape ns T := by
  have hperm : ms.Perm ns := (List.perm_ext_iff_of_nodup hms hns).mpr h
  by_cases hone : ms.length = 1
  · obtain ⟨m, rfl⟩ := List.length_eq_one_iff.mp hone
    rw [List.singleton_perm.mp hperm]
  · rw [combine_many hone, combine_many (hperm.length_eq ▸ hone), sortMembers_eq hms hns h]

/-- Types with the same union of members have the same union. -/
theorem unionOf_congr (h : T.joined (T.flattened ts) = T.joined (T.flattened us)) :
    Ty.unionOf ts T = Ty.unionOf us T := by
  refine combine_congr .union (nodup_unionMembers T ts) (nodup_unionMembers T us) fun m => ?_
  rw [mem_unionMembers_iff, mem_unionMembers_iff, h]

/-- The union that has the members of some types stands for these types in every larger union. -/
theorem unionOf_cons (hT : T.WellFormed) (hu : Stands T (Ty.unionMembers T ts) u) :
    Ty.unionOf (u :: us) T = Ty.unionOf (ts ++ us) T := by
  refine unionOf_congr ?_
  have hmembers : { m | m ∈ T.members u } = T.joined (T.flattened ts) := by
    ext m
    exact (hu m).trans mem_unionMembers_iff
  rw [flattened_cons, flattened_append, hmembers, joined_union hT]

theorem flattened_singleton (T : Table) (t : Ty) : T.flattened [t] = { m | m ∈ T.members t } := by
  rw [flattened_cons]
  ext m
  simp [flattened, mem_allMembers]

/-- The members of a union of the table are looked up, and the union is found. -/
theorem unionOf_union (hT : T.WellFormed) (hms : T.shape u = .union ms) :
    Ty.unionOf [u] T = (u, T) := by
  have hcanonical := hT.canonical_union hms
  have hnodup : ms.Nodup := hcanonical.ordered.imp fun h => h.ne
  have hjoined : ∀ m, m ∈ Ty.unionMembers T [u] ↔ m ∈ ms := by
    intro m
    have hsome : Set.Nonempty { m | m ∈ ms } :=
      List.exists_mem_of_length_pos (Nat.lt_of_lt_of_le Nat.zero_lt_two hcanonical.several)
    rw [mem_unionMembers_iff, flattened_singleton]
    simp only [members, hms]
    rw [joined_self hsome hcanonical.proper hcanonical.literals hcanonical.truths]
    rfl
  have hsorted : T.sortMembers (Ty.unionMembers T [u]) = ms := by
    rw [sortMembers_eq (nodup_unionMembers T [u]) hnodup hjoined]
    exact List.mergeSort_of_pairwise (hcanonical.ordered.imp fun h => inOrder_iff.mpr (.inl h))
  have hmany : (Ty.unionMembers T [u]).length ≠ 1 := by
    have hperm := (List.perm_ext_iff_of_nodup (nodup_unionMembers T [u]) hnodup).mpr hjoined
    have := hperm.length_eq
    have := hcanonical.several
    omega
  have hfound : T.find? (Shape.union ms).key = some u := by
    obtain ⟨n, e, rfl, he, hshape⟩ := exists_entry hms (by simp) (by simp)
    rw [← hshape, ← (hT.entry n e he).key]
    exact hT.find?_key he (by rw [hshape]; rfl)
  change Ty.combine .union (Ty.unionMembers T [u]) T = _
  rw [combine_many hmany, hsorted, intern_apply, hfound]

/-- The union of one type is the type. -/
theorem unionOf_self (hT : T.WellFormed) (u : Ty) : Ty.unionOf [u] T = (u, T) := by
  by_cases hunion : ∃ ms, T.shape u = .union ms
  · obtain ⟨ms, hms⟩ := hunion
    exact unionOf_union hT hms
  · have hmembers : T.members u = [u] := by
      unfold members
      split
      next ms hms =>
        exact absurd ⟨ms, hms⟩ hunion
      · rfl
    have hperm : (Ty.unionMembers T [u]).Perm [u] := by
      refine (List.perm_ext_iff_of_nodup (nodup_unionMembers T [u]) (List.nodup_singleton u)).mpr ?_
      intro m
      rw [mem_unionMembers_iff, flattened_singleton, hmembers]
      simp only [List.mem_singleton]
      rw [show { m | m = u } = ({u} : Set Ty) from rfl, joined_singleton, Set.mem_singleton_iff]
    exact unionOf_single (List.perm_singleton.mp hperm)

end Interning

namespace Table

variable {T1 T2 : Table}

/-- Every entry of the first table is one of the second, apart from the members of enums. -/
def Lists (T T1 : Table) : Prop :=
  ∀ (n : Nat) (e : Entry), T.unfilled.entries[n]? = some e → T1.unfilled.entries[n]? = some e

theorem Lists.of_entries
    (h : ∀ (n : Nat) (e : Entry), T.entries[n]? = some e → T1.entries[n]? = some e) :
    T.Lists T1 := by
  intro n e he
  obtain ⟨f, hf, rfl⟩ := getElem?_unfilled_eq_some he
  rw [getElem?_unfilled, h n f hf]
  rfl

theorem Evolves.gains (h : T.Evolves T1) : T.Gains T1 := ⟨h.entries, by simp [h.typeVars]⟩

/-- A call takes no type away and changes none, whatever is known of the aliases. -/
theorem Called.gains (hcall : T.Called T1) (hT : T.WellFormed) : T.Gains T1 := by
  cases hcall with
  | construct c hin hfits =>
    obtain ⟨t, T', hrun, -, h', -, -⟩ := Construction.run_spec hT hin hfits
    rw [hrun]
    exact .of_le h'.le
  | declare info hbound hdefault => exact .of_le (hT.newTypeVar hbound hdefault).2
  | resolve ht hrun => exact (Ty.building_resolve hT ht _ _ _ hrun).1.grows.gains
  | @assignable s t b k _ hs ht hrun =>
    rcases asked_building hT hs ht hrun with rfl | ⟨T', -, -, hgrows, rfl⟩
    · exact .refl T1
    · exact hgrows.gains.trans (.of_le (le_keeping s t b T'))

theorem Called.lists (hcall : T.Called T1) (hT : T.WellFormed) : T.Lists T1 :=
  .of_entries (hcall.gains hT).entries

/-- No operation takes an entry away. -/
theorem Operated.lists (hop : T.Operated T1) (hT : T.WellFormed) : T.Lists T1 := by
  cases hop with
  | call hcall => exact hcall.lists hT
  | rebind hbind =>
    cases hbind with
    | bound | default => exact .of_entries fun _ _ h => h
  | @define name params target hparams htarget =>
    refine .of_entries fun n e he => ?_
    rw [define_snd]
    split
    · exact he
    · split <;> exact he
  | resolveAlias hrun =>
    exact .of_entries (Alias.building_resolve hT _ _ _ _ hrun).1.grows.entries
  | resolveAll hrun => exact .of_entries (Alias.resolveAll_sound hT hrun).2.entries
  | enumeration name isConst hvalues =>
    exact (unfilled_le_enumOf hT name isConst hvalues).entries
  | freeze => exact .of_entries fun _ _ h => h

theorem Faithful.lists (h : T.Faithful) (hops : Relation.ReflTransGen Operated T T1) :
    T.Lists T1 := by
  induction hops with
  | refl => exact fun _ _ he => he
  | tail hops hop ih =>
    exact fun n e he => hop.lists (h.operations hops).1.wellFormed n e (ih n e he)

/-- What is looked up in the entries of a table is found in every table that lists them. -/
theorem Lists.found (h : T.Lists T1) (hT : T.WellFormed) {ts : List Ty} (hts : ∀ t ∈ ts, T.Has t) :
    Ty.unionMembers T1 ts = Ty.unionMembers T ts ∧ T1.sortMembers (Ty.unionMembers T ts) =
      T.sortMembers (Ty.unionMembers T ts) ∧
      ∀ key t, T.find? key = some t → T1.find? key = some t := by
  let W : Table := { T.unfilled with entries := T1.unfilled.entries }
  have hW : T.unfilled ≤ W := ⟨h, fun _ _ hi => hi, rfl, rfl, fun _ _ hr => hr,
    fun _ _ hr => .inl hr⟩
  -- `W` differs from the second table in nothing that is looked at here
  have hsame : Ty.unionMembers W = Ty.unionMembers T1.unfilled ∧
      W.sortMembers = T1.unfilled.sortMembers ∧ W.find? = T1.unfilled.find? := ⟨rfl, rfl, rfl⟩
  have hts' : ∀ t ∈ ts, T.unfilled.Has t := fun t ht => (has_unfilled T t).mpr (hts t ht)
  refine ⟨?_, ?_, fun key t ht => ?_⟩
  · have := Interning.unionMembers_of_le hT.unfilled hW hts'
    rwa [hsame.1, (resembles_unfilled T1).unionMembers, (resembles_unfilled T).unionMembers] at this
  · have hms : ∀ m ∈ Ty.unionMembers T ts, T.unfilled.Has m := fun m hm =>
      (has_unfilled T m).mpr (Interning.has_unionMembers hT hts m hm).1
    have := sortMembers_of_le hW hms
    rwa [hsame.2.1, (resembles_unfilled T1).sortMembers, (resembles_unfilled T).sortMembers] at this
  · have := find?_of_le hW ((find?_unfilled T key).trans ht)
    rwa [hsame.2.2, find?_unfilled] at this

end Table

namespace Interning

open Table

variable {T1 : Table} {ts : List Ty} {u : Ty}

/-- A union that is there is found again as long as no entry is taken away. -/
theorem unionOf_of_lists (hT : T.WellFormed) (hts : ∀ t ∈ ts, T.Has t)
    (h : Ty.unionOf ts T = (u, T)) (hlists : T.Lists T1) : Ty.unionOf ts T1 = (u, T1) := by
  obtain ⟨hmembers, hsort, hfind⟩ := hlists.found hT hts
  change Ty.combine .union (Ty.unionMembers T ts) T = _ at h
  change Ty.combine .union (Ty.unionMembers T1 ts) T1 = _
  rw [hmembers]
  by_cases hone : (Ty.unionMembers T ts).length = 1
  · obtain ⟨m, hm⟩ := List.length_eq_one_iff.mp hone
    rw [hm] at h ⊢
    rw [show m = u from congrArg Prod.fst h]
    rfl
  · rw [combine_many hone, intern_apply] at h
    rw [combine_many hone, intern_apply, hsort]
    cases hkey : T.find? (Shape.union (T.sortMembers (Ty.unionMembers T ts))).key with
    | none =>
      -- a new entry would have been added
      rw [hkey] at h
      have hsize := congrArg (fun p => p.2.entries.size) h
      simp [push] at hsize
    | some t =>
      rw [hkey] at h
      obtain rfl : t = u := congrArg Prod.fst h
      rw [hfind _ _ hkey]

end Interning

namespace Ty

/-- **The union is a join.** In a table after any operations, some types have a union. It is a
single type, or it has several members in their order, none of which is a union, says nothing or
everything, stands next to its own primitive or is one of both truth values. Types with the same
members have the same union, also after further operations, and the union takes their place in every
larger one. The union of a single type is the type. -/
theorem unionOf_join {T : Table} (hT : Relation.ReflTransGen Table.Operated {} T) {xs : List Ty}
    (hxs : ∀ t ∈ xs, T.Has t) :
    ∃ u T1, unionOf xs T = (u, T1) ∧ T1.Has u ∧
      (∀ ms, T1.shape u = .union ms → T1.Canonical ms ∧ ∀ m ∈ ms, ∀ ks, T1.shape m ≠ .union ks) ∧
      (∀ zs, T.flattened zs = T.flattened xs → unionOf zs T = (u, T1)) ∧
      (∀ T2, Relation.ReflTransGen Table.Operated T1 T2 →
        (∀ zs, T2.flattened zs = T2.flattened xs → unionOf zs T2 = (u, T2)) ∧
        ∀ ys, unionOf (u :: ys) T2 = unionOf (xs ++ ys) T2) ∧
      ∀ t, unionOf [t] T = (t, T) := by
  have hfaithful := (Table.faithful_empty.operations hT).1
  have hwf := hfaithful.wellFormed
  obtain ⟨u, T1, hat, hu, -⟩ := Interning.settles_unionOf hwf hxs
  have hT1 := (hfaithful.of_agrees hat.wellFormed (.of_le hat.adds.le) hat.adds.verdicts)
  have hxs1 : ∀ t ∈ xs, T1.Has t := fun t ht => Table.has_of_le hat.adds.le (hxs t ht)
  have hsame : ∀ zs, T.flattened zs = T.flattened xs → unionOf zs T = (u, T1) := by
    intro zs hzs
    rw [Interning.unionOf_congr (congrArg T.joined hzs), hat.result]
  have hlater : ∀ T2, Relation.ReflTransGen Table.Operated T1 T2 → unionOf xs T2 = (u, T2) :=
    fun T2 hops => Interning.unionOf_of_lists hat.wellFormed hxs1 (hat.again T1 (le_refl T1))
      (hT1.lists hops)
  refine ⟨u, T1, hat.result, hu, fun ms hms => ?_, hsame, fun T2 hops => ⟨fun zs hzs => ?_,
    fun ys => ?_⟩, fun t => Interning.unionOf_self hwf t⟩
  · refine ⟨hat.wellFormed.canonical_union hms, fun m hm ks hks => ?_⟩
    exact hat.wellFormed.not_isUnion hms hm ⟨ks, hks⟩
  · rw [Interning.unionOf_congr (congrArg T2.joined hzs), hlater T2 hops]
  · obtain ⟨hT2, hagrees⟩ := hT1.operations hops
    obtain ⟨u', T', hat', -, hstands⟩ := Interning.settles_unionOf hT2.wellFormed
      fun t ht => hagrees.has (hxs1 t ht)
    obtain ⟨rfl, rfl⟩ := Prod.mk.inj ((hlater T2 hops).symm.trans hat'.result)
    exact Interning.unionOf_cons hT2.wellFormed hstands

/-- A number and the two truth values have one union, in whatever order and however often they are
named, and it takes their place next to a string. -/
theorem unionOf_join_truths :
    ∃ u T1, unionOf [.truth true, .number, .truth false] {} = (u, T1) ∧
      unionOf [.number, .truth false, .number, .truth true] {} = (u, T1) ∧
      unionOf [u, .string] T1 = unionOf [.truth true, .number, .truth false, .string] T1 := by
  obtain ⟨u, T1, hrun, -, -, hsame, hlater, -⟩ := @unionOf_join {} .refl
    [.truth true, .number, .truth false] (by simp [number])
  refine ⟨u, T1, hrun, hsame _ ?_, (hlater T1 .refl).2 [.string]⟩
  ext m
  simp only [Table.flattened, Table.mem_allMembers, Set.mem_ofPred_eq, List.mem_cons,
    List.not_mem_nil, or_false]
  grind

end Ty

end ShapeCheck
