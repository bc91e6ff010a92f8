import ShapeCheck.Proofs.ConstantComparison
import ShapeCheck.Proofs.SplitMembers

/-!
# The sides of a split, joined again

A test that sends every member of a type to one of its sides loses nothing: the union of the sides
is the type. A side may have only one half of `boolean`, so the members are those with `boolean` as
two. If the sides have other types than the members that were split, they can still be compared
member by member.

* `Table.halved` has the halves in the place of `boolean`, `Table.joined_eq_of_halved` says that
  unions only depend on it.
* `Split.joins` is the union of the two sides.
* `Table.Resolved.accepts_of_members` says that a type fits another one if all its members do.
* `Split.Covers.spans` says how a type and the sides of a split fit each other if these have its
  members.
-/

namespace ShapeCheck

variable {t m : Ty} {s : Split}

open Table

namespace Table

section Sets

variable {T : Table} {A B S : Set Ty}

/-- The set with both truth values in the place of `boolean`. -/
def halved (S : Set Ty) : Set Ty :=
  { m | m ∈ S ∧ m ≠ .boolean ∨ (∃ b, m = .truth b) ∧ .boolean ∈ S }

theorem mem_halved_members : m ∈ halved { k | k ∈ T.members t } ↔ m ∈ Ty.splitMembers T t :=
  Ty.mem_splitMembers_iff.symm

theorem halved_union : halved (A ∪ B) = halved A ∪ halved B := by
  ext m
  simp only [halved, Set.mem_union, Set.mem_ofPred_eq]
  tauto

/-- What is no truth value is in the set as it was. -/
theorem mem_halved (h : m ≠ .boolean) (htruth : ∀ b, m ≠ .truth b) : m ∈ halved S ↔ m ∈ S := by
  simp [halved, h, htruth]

theorem boolean_not_mem_halved : .boolean ∉ halved S := by
  simp [halved]

theorem truth_mem_halved {b : Bool} : .truth b ∈ halved S ↔ .truth b ∈ S ∨ .boolean ∈ S := by
  simp [halved]

theorem counts_boolean_halved : T.Counts (halved S) .boolean ↔ T.Counts S .boolean := by
  simp only [counts_boolean, boolean_not_mem_halved, truth_mem_halved, false_or]
  tauto

/-- The halves of `boolean` count for it. -/
theorem counts_halved (hT : T.WellFormed) : T.Counts (halved S) m ↔ T.Counts S m := by
  cases m with
  | prim p =>
    by_cases hnever : p = .never
    · rw [hnever]
      exact iff_of_false not_counts_never not_counts_never
    by_cases hboolean : p = .boolean
    · rw [hboolean]
      exact counts_boolean_halved
    · rw [counts_prim hnever hboolean, counts_prim hnever hboolean]
      exact mem_halved (by simpa [Ty.boolean] using hboolean) (by simp)
  | truth b =>
    rw [counts_truth, counts_truth, counts_boolean_halved, truth_mem_halved, counts_boolean]
    tauto
  | made n =>
    have hbase : ∀ l, T.literal? (.made n) = some l →
      (.prim l.base ∈ halved S ↔ .prim l.base ∈ S) := by
      intro l hl
      refine mem_halved ?_ (by simp)
      cases l with
      | boolean b => exact absurd (eq_truth_of_shape hT (shape_of_literal? hl)) (by simp)
      | _ => simp [Literal.base, Ty.boolean]
    rw [counts_made, counts_made, mem_halved (by simp [Ty.boolean]) (by simp)]
    exact and_congr_right fun _ => forall₂_congr fun l hl => not_congr (hbase l hl)

/-- Without both halves of `boolean`, and without a literal next to its primitive, everything
counts. -/
theorem counts_iff_mem (htruths : ¬(.truth true ∈ S ∧ .truth false ∈ S))
    (hbase : ∀ k ∈ S, ∀ l, T.literal? k = some l → .prim l.base ∉ S) (hm : m ≠ .never) :
    T.Counts S m ↔ m ∈ S := by
  have hsplits : ¬Splits S := fun h => htruths ⟨h.1, h.2.1⟩
  constructor
  · rintro (⟨hin, -⟩ | ⟨-, h⟩)
    · exact hin
    · exact absurd h hsplits
  · exact fun hin => .inl ⟨hin, hm, hbase m hin, fun h => hsplits h.2⟩

/-- What says nothing does not matter. -/
theorem counts_congr (h : ∀ m, m ≠ .never → (m ∈ A ↔ m ∈ B)) : T.Counts A m ↔ T.Counts B m := by
  by_cases hm : m = .never
  · rw [hm]
    exact iff_of_false not_counts_never not_counts_never
  have hbase : ∀ l : Literal, .prim l.base ∈ A ↔ .prim l.base ∈ B := fun l =>
    h _ (by cases l <;> simp [Literal.base, Ty.never])
  have hsplits : Splits A ↔ Splits B := by
    simp only [Splits, h (.truth true) (by simp), h (.truth false) (by simp), h .boolean (by simp)]
  simp only [Counts, h m hm, hbase, hsplits]

/-- **Members with the same halves have the same union.** -/
theorem joined_eq_of_halved (hT : T.WellFormed)
    (h : ∀ m, m ≠ .never → (m ∈ halved A ↔ m ∈ halved B)) : T.joined A = T.joined B := by
  have hcounts : ∀ k, T.Counts A k ↔ T.Counts B k := fun k => by
    rw [← counts_halved hT, counts_congr h, counts_halved hT]
  have htop : ∀ p, p ≠ .never → p ≠ .boolean → (Ty.prim p ∈ A ↔ Ty.prim p ∈ B) := by
    intro p hnever hboolean
    have hp := h (.prim p) (by simpa [Ty.never] using hnever)
    rwa [mem_halved (by simpa [Ty.boolean] using hboolean) (by simp),
      mem_halved (by simpa [Ty.boolean] using hboolean) (by simp)] at hp
  have hinvalid : Ty.invalid ∈ A ↔ Ty.invalid ∈ B := htop .invalid (by simp) (by simp)
  have hany : Ty.any ∈ A ↔ Ty.any ∈ B := htop .any (by simp) (by simp)
  have hunknown : Ty.unknown ∈ A ↔ Ty.unknown ∈ B := htop .unknown (by simp) (by simp)
  unfold joined Tops
  simp only [hcounts, hinvalid, hany, hunknown]

end Sets

theorem flattened_pair (T : Table) (s t : Ty) :
    T.flattened [s, t] = { m | m ∈ T.members s } ∪ { m | m ∈ T.members t } := by
  rw [flattened_cons, Interning.flattened_singleton]

end Table

/-- **The union of the two sides is the type**, if these have its members, with `boolean` as two. -/
theorem Split.joins {T : Table} (hT : T.WellFormed)
    (h : ∀ m, m ≠ .never → (m ∈ Ty.splitMembers T s.yes ∨ m ∈ Ty.splitMembers T s.no ↔
      m ∈ Ty.splitMembers T t)) : Ty.unionOf [s.yes, s.no] T = (t, T) := by
  have hjoined : T.joined (T.flattened [s.yes, s.no]) = T.joined (T.flattened [t]) := by
    refine joined_eq_of_halved hT fun m hm => ?_
    rw [flattened_pair, Interning.flattened_singleton, halved_union, Set.mem_union,
      mem_halved_members, mem_halved_members, mem_halved_members]
    exact h m hm
  exact (Interning.unionOf_congr hjoined).trans (Interning.unionOf_self hT t)

namespace Table

/-- Neither the type nor one of its members has something at its head to be resolved. -/
structure Cleared (T : Table) (t : Ty) : Prop where
  head : Ty.hasOpenHead T t = false
  members : ∀ m ∈ T.members t, Ty.hasOpenHead T m = false

variable {T T1 : Table} {s : Ty}

theorem cleared_of_not_isUnion (h : Ty.hasOpenHead T t = false) (hsingle : ¬(T.shape t).IsUnion) :
    T.Cleared t := by
  refine ⟨h, fun m hm => ?_⟩
  rw [Assign.members_of_not_isUnion hsingle, List.mem_singleton] at hm
  exact hm ▸ h

theorem cleared_of_members (h : ∀ m ∈ T.members t, Ty.hasOpenHead T m = false) : T.Cleared t := by
  refine ⟨?_, h⟩
  by_cases hunion : (T.shape t).IsUnion
  · obtain ⟨ms, hms⟩ := hunion
    simp [Ty.hasOpenHead, hms]
  · exact h t (by simp [Assign.members_of_not_isUnion hunion])

theorem Headed.cleared {F : Family} (h : T.Headed F t) : T.Cleared t :=
  ⟨h.hasOpenHead, fun _ hm => (h.member hm).hasOpenHead⟩

theorem Cleared.of_le (h : T.Cleared t) (hT : T.WellFormed) (ht : T.Has t) (hle : T ≤ T1) :
    T1.Cleared t := by
  refine ⟨(Ty.hasOpenHead_of_le hT hle ht).trans h.head, fun m hm => ?_⟩
  rw [members_of_le hle ht] at hm
  exact (Ty.hasOpenHead_of_le hT hle (hT.has_member ht hm)).trans (h.members m hm)

theorem Cleared.splitMembers (h : T.Cleared t) (hm : m ∈ Ty.splitMembers T t) :
    Ty.hasOpenHead T m = false := by
  rcases Ty.mem_splitMembers_iff.mp hm with ⟨hm, -⟩ | ⟨⟨b, rfl⟩, -⟩
  · exact h.members m hm
  · rfl

/-- A type that takes every value is its only member. -/
theorem not_isTop_of_members (h : ∀ m ∈ T.members t, m.isTop = false) : t.isTop = false := by
  by_contra htop
  have hself : T.members t = [t] := by
    simp only [Ty.isTop, Bool.not_eq_false, Bool.or_eq_true, decide_eq_true_eq] at htop
    rcases htop with (rfl | rfl) | rfl
    · rfl
    · rfl
    · rfl
  exact htop (h t (by simp [hself]))

/-- The members of a type that is not everything say something and are not everything. -/
theorem proper_of_member (hT : T.WellFormed) (htop : t.isTop = false) (hnever : t ≠ .never)
    (hm : m ∈ T.members t) : m.isTop = false ∧ m ≠ .never := by
  by_cases hunion : (T.shape t).IsUnion
  · obtain ⟨ms, hms⟩ := hunion
    exact Assign.proper_of_canonical (hT.canonical_union hms) (members_of_union hms ▸ hm)
  · rw [Assign.members_of_not_isUnion hunion, List.mem_singleton] at hm
    exact hm ▸ ⟨htop, hnever⟩

/-- A type with nothing to resolve fits another one if each of its members is near one of that. -/
theorem Sound.holds_of_members (hT : T.Sound) (hs : T.Cleared s) (htop : s.isTop = false)
    (h : ∀ p ∈ T.members s, p ≠ .never → ∃ m ∈ T.members t, Assign.Near T p m) :
    Assign.Holds T s t := by
  by_cases hnever : s = .never
  · refine (Assign.lasts_of_byIdentity ?_ T).holds
    rw [hnever, Assign.byIdentity_true]
    simp
  refine Assign.Whole.holds ⟨s, resolvesTo_of_closed hs.head, hs.head, fun p hp => ?_⟩
  have hproper := proper_of_member hT.wellFormed htop hnever hp
  refine ⟨hproper, hs.members p hp, Assign.not_isUnion_of_member hT.wellFormed hp, ?_⟩
  obtain ⟨m, hm, hnear⟩ := h p hp hproper.2
  by_cases hunion : (T.shape t).IsUnion
  · obtain ⟨ms, hms⟩ := hunion
    exact .inr ⟨ms, hms, m, members_of_union hms ▸ hm, hnear⟩
  · rw [Assign.members_of_not_isUnion hunion, List.mem_singleton] at hm
    exact .inl (hm ▸ hnear)

/-- **A type is accepted if its members are**, each by one member. -/
theorem Resolved.accepts_of_members (hT : T.Resolved) (hs : T.Has s) (ht : T.Has t)
    (hcleared : T.Cleared s) (htop : s.isTop = false)
    (h : ∀ p ∈ T.members s, p ≠ .never → ∃ m ∈ T.members t, Assign.Near T p m) : T.Accepts s t := by
  have hwf := hT.truthful.sound.wellFormed
  refine hT.accepts hs ht (fun U hU hle => ?_) .refl
  refine hU.holds_of_members (hcleared.of_le hwf hs hle) htop fun p hp hne => ?_
  rw [members_of_le hle hs] at hp
  obtain ⟨m, hm, hnear⟩ := h p hp hne
  exact ⟨m, by rwa [members_of_le hle ht], hnear.of_le hle⟩

end Table

namespace Assign

variable {T T1 : Table} {u : Ty}

/-- What is compared in one step fits from then on, if it does. -/
theorem lasts_of_plainFits (hT : T.Sound) {s : Ty} (hs : T.Has s) (ht : T.Has t)
    (hplain : (∃ l, T.shape s = .literal l) ∨ ∃ p, T.shape s = .primitive p)
    (hscalar : (T.shape t).isScalar = true) (h : plainFits T s t = true) : Lasts T s t :=
  lasts_of_decideAt hT hs ht (h ▸ decideAt_plain hplain hscalar 0 [] 0)

theorem lasts_truth (hT : T.Sound) (b : Bool) : Lasts T (.truth b) .boolean :=
  lasts_of_plainFits hT (T.has_truth b) (has_prim T _) (.inl ⟨_, rfl⟩) rfl
    (plainFits_base (l := .boolean b) rfl)

/-- A member with `boolean` as two fits a member. -/
theorem exists_lasts_member (hT : T.Sound) (hm : m ∈ Ty.splitMembers T t) :
    ∃ k ∈ T.members t, Lasts T m k := by
  rcases Ty.mem_splitMembers_iff.mp hm with ⟨hm, -⟩ | ⟨⟨b, rfl⟩, hboolean⟩
  · exact ⟨m, hm, lasts_self T m⟩
  · exact ⟨.boolean, hboolean, lasts_truth hT b⟩

/-- A type with some of the members of another one, `boolean` as two, fits that. -/
theorem exists_lasts_of_splitMembers (hT : T.Sound)
    (hsub : ∀ k, k ≠ .never → k ∈ Ty.splitMembers T u → k ∈ Ty.splitMembers T t)
    (hm : m ∈ T.members u) (hne : m ≠ .never) : ∃ k ∈ T.members t, Lasts T m k := by
  by_cases hboolean : m = .boolean
  · subst hboolean
    have htruths : ∀ b, .truth b ∈ Ty.splitMembers T t := fun b =>
      hsub _ (by simp) (Ty.truth_mem_splitMembers.mpr (.inr hm))
    refine ⟨.boolean, ?_, lasts_self T _⟩
    refine (Ty.truth_mem_splitMembers.mp (htruths true)).resolve_left fun h => ?_
    exact Ty.truth_not_mem_splitMembers hT.wellFormed h (htruths false)
  · exact exists_lasts_member hT (hsub m hne (Ty.mem_splitMembers hm hboolean))

/-- What has its members on the sides of a split fits a member of their union. -/
theorem exists_near_sides (hT : T.Sound) (htop : ¬Tops (T.flattened [s.yes, s.no]))
    (hcover : ∀ k, k ≠ .never → k ∈ Ty.splitMembers T t →
      k ∈ Ty.splitMembers T s.yes ∨ k ∈ Ty.splitMembers T s.no)
    (hm : m ∈ T.members t) (hproper : m.isTop = false ∧ m ≠ .never) :
    ∃ k ∈ Ty.unionMembers T [s.yes, s.no], Near T m k := by
  by_cases hboolean : m = .boolean
  · subst hboolean
    refine ⟨.boolean, ?_, .inl (lasts_self T _)⟩
    rw [mem_unionMembers_iff, mem_joined htop, ← counts_boolean_halved]
    have htruths : ∀ b, .truth b ∈ halved (T.flattened [s.yes, s.no]) := fun b => by
      rw [flattened_pair, halved_union, Set.mem_union, mem_halved_members, mem_halved_members]
      exact hcover _ (by simp) (Ty.truth_mem_splitMembers.mpr (.inr hm))
    exact .inl (counts_boolean.mpr (.inr ⟨htruths true, htruths false⟩))
  · have hside : ∃ k ∈ T.flattened [s.yes, s.no], Lasts T m k := by
      rw [flattened_pair]
      rcases hcover m hproper.2 (Ty.mem_splitMembers hm hboolean) with hin | hin
      · obtain ⟨k, hk, hfits⟩ := exists_lasts_member hT hin
        exact ⟨k, .inl hk, hfits⟩
      · obtain ⟨k, hk, hfits⟩ := exists_lasts_member hT hin
        exact ⟨k, .inr hk, hfits⟩
    obtain ⟨k, hk, hfits⟩ := hside
    exact exists_near_unionMembers hT hk hfits hproper

end Assign

/-! ## What the sides have -/

namespace Split

/-- The members of the one side fit members of the type, those of the other side are members of it,
and no member of the type is on neither side, all with `boolean` as two. -/
structure Covers (T : Table) (t : Ty) (s : Split) : Prop where
  has : T.Has s.yes ∧ T.Has s.no
  yes : ∀ p ∈ T.members s.yes, p ≠ .never → Ty.hasOpenHead T p = false ∧ p.isTop = false ∧
    ∃ m ∈ T.members t, Assign.Lasts T p m
  no : ∀ k, k ≠ .never → k ∈ Ty.splitMembers T s.no → k ∈ Ty.splitMembers T t
  all : ∀ k, k ≠ .never → k ∈ Ty.splitMembers T t →
    k ∈ Ty.splitMembers T s.yes ∨ k ∈ Ty.splitMembers T s.no

/-- Both sides fit the type, and the type fits the union of them. -/
structure Spans (T : Table) (t : Ty) (s : Split) : Prop where
  yes : T.Accepts s.yes t
  no : T.Accepts s.no t
  back : ∀ u T1, Ty.unionOf [s.yes, s.no] T = (u, T1) → T1.Accepts t u

variable {T : Table}

/-- Sides of this kind span the type. -/
theorem Covers.spans (h : s.Covers T t) (hT : T.Resolved) (ht : T.Has t)
    (htop : t.isTop = false) (hcleared : T.Cleared t) : s.Spans T t := by
  have hsound := hT.truthful.sound
  have hwf := hsound.wellFormed
  have hyes : ∀ p ∈ T.members s.yes, p.isTop = false ∧ Ty.hasOpenHead T p = false := by
    intro p hp
    by_cases hne : p = .never
    · exact hne ▸ ⟨rfl, rfl⟩
    · obtain ⟨hclosed, hp, -⟩ := h.yes p hp hne
      exact ⟨hp, hclosed⟩
  have hno : ∀ p ∈ T.members s.no, p.isTop = false ∧ Ty.hasOpenHead T p = false := by
    intro p hp
    by_cases hne : p = .never ∨ p = .boolean
    · rcases hne with rfl | rfl
      · exact ⟨rfl, rfl⟩
      · exact ⟨rfl, rfl⟩
    · obtain ⟨hnever, hboolean⟩ := not_or.mp hne
      have hin := h.no p hnever (Ty.mem_splitMembers hp hboolean)
      exact ⟨Ty.not_isTop_of_splitMembers hwf htop hin, hcleared.splitMembers hin⟩
  refine ⟨?_, ?_, fun u T1 hrun => ?_⟩
  · refine hT.accepts_of_members h.has.1 ht (cleared_of_members fun p hp => (hyes p hp).2)
      (not_isTop_of_members fun p hp => (hyes p hp).1) fun p hp hne => ?_
    obtain ⟨-, -, m, hm, hfits⟩ := h.yes p hp hne
    exact ⟨m, hm, .inl hfits⟩
  · refine hT.accepts_of_members h.has.2 ht (cleared_of_members fun p hp => (hno p hp).2)
      (not_isTop_of_members fun p hp => (hno p hp).1) fun p hp hne => ?_
    obtain ⟨m, hm, hfits⟩ := Assign.exists_lasts_of_splitMembers hsound h.no hp hne
    exact ⟨m, hm, .inl hfits⟩
  · have hsides : ∀ u ∈ [s.yes, s.no], T.Has u := Interning.forall_mem_pair h.has.1 h.has.2
    have htops : ¬Tops (T.flattened [s.yes, s.no]) := by
      rw [flattened_pair]
      refine not_tops ?_
      rintro p (hp | hp)
      · exact (hyes p hp).1
      · exact (hno p hp).1
    obtain ⟨u', T', hat, hu, hstands⟩ := Interning.settles_unionOf hwf hsides
    obtain ⟨rfl, rfl⟩ := Prod.mk.inj (hat.result.symm.trans hrun)
    have hle := hat.adds.le
    have hT1 := hT.call (Assign.called_unionOf hwf hsides hrun).1
    refine hT1.accepts_of_members (has_of_le hle ht) hu (hcleared.of_le hwf ht hle) htop
      fun p hp hne => ?_
    rw [members_of_le hle ht] at hp
    have hnever : t ≠ .never := by
      rintro rfl
      exact hne (List.mem_singleton.mp hp)
    obtain ⟨k, hk, hnear⟩ := Assign.exists_near_sides hsound htops h.all hp
      (proper_of_member hwf htop hnever hp)
    exact ⟨k, (hstands k).mpr hk, hnear.of_le hle⟩

end Split

end ShapeCheck
