import ShapeCheck.Proofs.FiniteShapes

/-!
# Levels of types

How deep a type nests is counted in levels. A union, an object, a function and so on stand one level
above their parts, but an intersection stands on the level of its members: merging objects then
makes types on the level of the objects, however often it is done. Types that say more than a finite
vocabulary allows have no level, so each level of a table has a bounded number of types, and the
bound is the same for all tables.

* `Table.Within T V k t` says that a type of the table stands on one of the first levels.
* `Table.ncard_within_le` is the bound.
* `Table.within_vocabulary` says that a table has a vocabulary for all of its types.
-/

namespace ShapeCheck

variable {n : Nat} {T : Table}

namespace Vocabulary

/-- The number of types that are taken as they are. -/
noncomputable def olds (V : Vocabulary) : Nat := { t : Ty | t.rank ≤ V.old }.ncard

/-- How many types there are with the intersections of so many. -/
noncomputable def withIntersections (n : Nat) : Nat :=
  n + (Shape.keysOver (Shape.isIntersection · = true) (Ty.firstMade n)).ncard

/-- How many types the first levels have at most. -/
noncomputable def count (V : Vocabulary) : Nat → Nat
  | 0 => withIntersections V.olds
  | k + 1 => V.count k + withIntersections (V.olds +
    (Shape.keysOver (Shape.Framed V (max V.width (V.count k))) (Ty.firstMade (V.count k))).ncard)

/-- How many call signatures an object above the first levels has at most. Merging objects drops
repetitions, so there may be as many as there are types. -/
noncomputable def calls (V : Vocabulary) (k : Nat) : Nat := max V.width (V.count k)

variable {V : Vocabulary} {k k' : Nat}

theorem count_mono (h : k ≤ k') : V.count k ≤ V.count k' :=
  monotone_nat_of_le_succ (fun k => Nat.le_add_right (V.count k) _) h

theorem calls_mono (h : k ≤ k') : V.calls k ≤ V.calls k' := by
  have := count_mono (V := V) h
  unfold calls
  omega

end Vocabulary

theorem Shape.Framed.mono {calls : Nat} {V : Vocabulary} {calls' : Nat} {s : Shape}
    (h : s.Framed V calls)
    (hle : calls ≤ calls') : s.Framed V calls' := by
  cases s with
  | object m => exact ⟨h.1, Nat.le_trans h.2 hle⟩
  | _ => exact h

namespace Table

/-- The type is taken as it is: it is as old as the vocabulary, and its parts are not looked at. -/
def Basic (T : Table) (V : Vocabulary) (t : Ty) : Prop :=
  T.Has t ∧ t.rank ≤ V.old ∧
    match T.shape t with
    | .primitive _ | .literal _ | .parameter _ | .enumMember _ _ _ | .classValue _ _ _ => True
    | .enumeration e => ∀ m ∈ e.members, m.rank ≤ V.old
    | _ => False

/-- The type stands on one of the first levels. A member of an intersection is no intersection,
unless it was there from the start. -/
inductive Within (T : Table) (V : Vocabulary) : Nat → Ty → Prop
  | basic {k : Nat} {t : Ty} (h : T.Basic V t) : Within T V k t
  | framed {k : Nat} {t : Ty} (h : (T.shape t).Framed V (V.calls k))
    (hparts : ∀ p ∈ (T.shape t).parts, Within T V k p) : Within T V (k + 1) t
  | intersection {k : Nat} {t : Ty} {ms : List Ty} (h : T.shape t = .intersection ms)
    (hms : ∀ m ∈ ms, Within T V k m)
    (hflat : ∀ m ∈ ms, (T.shape m).isIntersection = true → m.rank ≤ V.old) : Within T V k t

section Within

variable {T1 : Table} {V : Vocabulary} {k k' : Nat} {t : Ty}

theorem Within.has (h : T.Within V k t) : T.Has t := by
  cases h with
  | basic h => exact h.1
  | framed h =>
    refine has_of_shape fun hs => ?_
    rw [hs] at h
    exact h.elim
  | intersection h => exact has_of_shape (by rw [h]; simp)

theorem within_prim (T : Table) (V : Vocabulary) (k : Nat) (p : Primitive) :
    T.Within V k (.prim p) :=
  .basic ⟨T.has_prim p, Nat.zero_le _, trivial⟩

theorem within_truth (T : Table) (V : Vocabulary) (k : Nat) (b : Bool) : T.Within V k (.truth b) :=
  .basic ⟨T.has_truth b, Nat.zero_le _, trivial⟩

theorem Within.succ (h : T.Within V k t) : T.Within V (k + 1) t := by
  induction h with
  | basic h => exact .basic h
  | framed h _ ih => exact .framed (h.mono (Vocabulary.calls_mono (Nat.le_succ _))) ih
  | intersection h _ hflat ih => exact .intersection h ih hflat

theorem Within.mono (h : T.Within V k t) (hle : k ≤ k') : T.Within V k' t := by
  induction hle with
  | refl => exact h
  | step _ ih => exact ih.succ

/-- A type stands on its level in every table that has kept the types. -/
theorem Within.of_shapes (h : T.Within V k t) (hhas : ∀ u, T.Has u → T1.Has u)
    (hshape : ∀ u, T.Has u → T1.shape u = T.shape u) : T1.Within V k t := by
  induction h with
  | @basic k t h =>
    obtain ⟨ht, hold, hs⟩ := h
    refine .basic ⟨hhas t ht, hold, ?_⟩
    rw [hshape t ht]
    exact hs
  | @framed k t h hparts ih =>
    have hs := hshape t (Within.framed h hparts).has
    exact .framed (by rwa [hs]) (by rwa [hs])
  | @intersection k t ms h hms hflat ih =>
    refine .intersection ((hshape t (Within.intersection h hms hflat).has).trans h) ih ?_
    intro m hm
    rw [hshape m (hms m hm).has]
    exact hflat m hm

theorem Within.of_le (h : T.Within V k t) (hle : T ≤ T1) : T1.Within V k t :=
  h.of_shapes (fun _ hu => has_of_le hle hu) fun _ hu => shape_of_le hle hu

theorem finite_within (T : Table) (V : Vocabulary) (k : Nat) : { t | T.Within V k t }.Finite :=
  (Ty.finite_rank_le T.entries.size).subset fun _ h => h.has

end Within

section Counting

variable {V : Vocabulary} {k : Nat}

/-- With the intersections of some types. -/
theorem ncard_within_le_withIntersections (hT : T.WellFormed) {A : Set Ty} (hA : A.Finite)
    (hn : A.ncard ≤ n) (hold : ∀ t, T.Has t → t.rank ≤ V.old → t ∈ A)
    (hmem : ∀ t, T.Within V k t → t ∈ A ∨ (T.shape t).isIntersection = true) :
    { t | T.Within V k t }.ncard ≤ Vocabulary.withIntersections n := by
  have hmeets := ncard_le_keysOver hT (Q := fun s => s.isIntersection = true)
    (fun e s hs => by cases s <;> first | rfl | exact hs)
    (fun s hs => by cases s <;> first | rfl | exact absurd hs (by simp [Shape.isIntersection]))
    hA hn (Shape.finite_keysOver_intersection (Ty.finite_firstMade n))
  have hfinite : { t | T.Has t ∧ (T.shape t).isIntersection = true ∧
      ∀ p ∈ (T.shape t).parts, p ∈ A }.Finite :=
    (Ty.finite_rank_le T.entries.size).subset fun _ h => h.1
  refine (Set.ncard_le_ncard (fun t ht => ?_) (hA.union hfinite)).trans
    ((Set.ncard_union_le _ _).trans (Nat.add_le_add hn hmeets))
  rcases hmem t ht with hin | hinter
  · exact .inl hin
  refine .inr ⟨ht.has, hinter, ?_⟩
  cases ht with
  | basic h =>
    obtain ⟨-, -, hs⟩ := h
    cases hshape : T.shape t with
    | intersection ms =>
      rw [hshape] at hs
      exact hs.elim
    | _ => exact absurd hinter (by simp [hshape, Shape.isIntersection])
  | framed h =>
    cases hshape : T.shape t with
    | intersection ms =>
      rw [hshape] at h
      exact h.elim
    | _ => exact absurd hinter (by simp [hshape, Shape.isIntersection])
  | intersection h hms hflat =>
    rw [h]
    intro m hm
    rcases hmem m (hms m hm) with hin | hinter'
    · exact hin
    · exact hold m (hms m hm).has (hflat m hm hinter')

/-- **The levels are finite**, with one bound for all tables. -/
theorem ncard_within_le (hT : T.WellFormed) (V : Vocabulary) (k : Nat) :
    { t | T.Within V k t }.ncard ≤ V.count k := by
  have holds := Ty.finite_rank_le V.old
  induction k with
  | zero =>
    refine ncard_within_le_withIntersections hT holds (le_refl V.olds)
      (fun t _ h => h) fun t ht => ?_
    cases ht with
    | basic h => exact .inl h.2.1
    | intersection h => exact .inr (by rw [h]; rfl)
  | succ k ih =>
    let A : Set Ty := { t | T.Has t ∧ (T.shape t).Framed V (V.calls k) ∧
      ∀ p ∈ (T.shape t).parts, p ∈ { t | T.Within V k t } }
    have hA : A.Finite := (Ty.finite_rank_le T.entries.size).subset fun _ h => h.1
    have hframed : A.ncard ≤ _ := ncard_le_keysOver hT (Q := fun s => s.Framed V (V.calls k))
      (fun e s hs => Shape.framed_rename hs)
      (fun s hs => by cases s <;> first | rfl | exact hs.elim) (finite_within T V k) ih
      (Shape.finite_keysOver_framed V _ (Ty.finite_firstMade _))
    refine (ncard_within_le_withIntersections hT (holds.union hA)
      ((Set.ncard_union_le _ _).trans (Nat.add_le_add_left hframed _)) (fun t _ h => .inl h)
      fun t ht => ?_).trans (Nat.le_add_left _ _)
    cases ht with
    | basic h => exact .inl (.inl h.2.1)
    | framed h hparts => exact .inl (.inr ⟨(Within.framed h hparts).has, h, hparts⟩)
    | intersection h => exact .inr (by rw [h]; rfl)

end Counting

end Table

section Vocabularies

/-- The names that a shape holds. -/
def Shape.names : Shape → List String
  | .object m => m.fields.map Field.name
  | .reference name _ => [name]
  | _ => []

/-- The type parameters that a shape declares. -/
def Shape.vars : Shape → List TypeVar
  | .function c => c.typeParams
  | _ => []

/-- The length of the longest list in a shape, fields and members apart. -/
def Shape.width : Shape → Nat
  | .object m => m.calls.length
  | .tuple u => u.slots.length
  | .function c => max c.typeParams.length c.params.length
  | .reference _ arguments => arguments.length
  | _ => 0

/-- What the types of a table hold. -/
def Table.vocabulary (T : Table) : Vocabulary where
  names := (Finset.range T.entries.size).biUnion fun n => (T.shape (.made n)).names.toFinset
  vars := (Finset.range T.entries.size).biUnion fun n => (T.shape (.made n)).vars.toFinset
  width := (Finset.range T.entries.size).sup fun n => (T.shape (.made n)).width
  old := T.entries.size

/-- The types of a table hold nothing outside of its vocabulary. -/
theorem Table.framed_vocabulary {calls : Nat} (hT : T.WellFormed) (hn : T.Has (.made n))
    (hcalls : T.vocabulary.width ≤ calls) :
    (T.shape (.made n)).Framed T.vocabulary calls ∨ T.Basic T.vocabulary (.made n) ∨
      (T.shape (.made n)).isIntersection = true := by
  have hrange : n ∈ Finset.range T.entries.size := Finset.mem_range.mpr hn
  have hnames : ∀ name ∈ (T.shape (.made n)).names, name ∈ T.vocabulary.names := fun name hname =>
    Finset.mem_biUnion.mpr ⟨n, hrange, List.mem_toFinset.mpr hname⟩
  have hvars : ∀ v ∈ (T.shape (.made n)).vars, v ∈ T.vocabulary.vars := fun v hv =>
    Finset.mem_biUnion.mpr ⟨n, hrange, List.mem_toFinset.mpr hv⟩
  have hwidth : (T.shape (.made n)).width ≤ T.vocabulary.width :=
    Finset.le_sup (f := fun n => (T.shape (.made n)).width) hrange
  cases hs : T.shape (.made n) with
  | object m =>
    rw [hs] at hnames hwidth
    exact .inl ⟨fun f hf => hnames _ (List.mem_map_of_mem hf), Nat.le_trans hwidth hcalls⟩
  | tuple u =>
    rw [hs] at hwidth
    exact .inl hwidth
  | function c =>
    rw [hs] at hvars hwidth
    exact .inl ⟨Nat.le_trans (Nat.le_max_left _ _) hwidth, hvars,
      Nat.le_trans (Nat.le_max_right _ _) hwidth⟩
  | reference name arguments =>
    rw [hs] at hnames hwidth
    exact .inl ⟨hnames name (by simp [Shape.names]), hwidth⟩
  | union ms => exact .inl trivial
  | array element readonly => exact .inl trivial
  | intersection ms => exact .inr (.inr rfl)
  | enumeration e =>
    obtain ⟨entry, hentry⟩ := has_iff_entry.mp hn
    refine .inr (.inl ⟨hn, hn, ?_⟩)
    rw [hs]
    exact (hT.entry n entry hentry).members e ((shape_made hentry).symm.trans hs)
  | _ =>
    refine .inr (.inl ⟨hn, hn, ?_⟩)
    rw [hs]
    trivial

/-- **Every table has a vocabulary** in which all of its types stand on some level. -/
theorem Table.within_vocabulary (hT : T.WellFormed) {t : Ty} (ht : T.Has t) :
    T.Within T.vocabulary t.rank t := by
  induction hr : t.rank using Nat.strong_induction_on generalizing t with
  | _ r ih =>
  subst hr
  cases t with
  | prim p => exact within_prim T _ _ p
  | truth b => exact within_truth T _ _ b
  | made n =>
    have hparts : ∀ p ∈ (T.shape (.made n)).parts, T.Within T.vocabulary n p := by
      intro p hp
      have hlt : p.rank < n + 1 := hT.rank_part hp
      exact (ih p.rank hlt (hT.has_part ht hp) rfl).mono (Nat.le_of_lt_succ hlt)
    rcases framed_vocabulary hT ht (Nat.le_max_left _ (T.vocabulary.count n)) with h | h | h
    · exact .framed h hparts
    · exact .basic h
    · cases hs : T.shape (.made n) with
      | intersection ms =>
        rw [hs] at hparts
        exact .intersection hs (fun m hm => (hparts m hm).succ) fun m hm _ => (hparts m hm).has
      | _ => exact absurd h (by simp [hs, Shape.isIntersection])

end Vocabularies

end ShapeCheck
