import ShapeCheck.Proofs.Recalling
import ShapeCheck.Proofs.Descent
import Mathlib.Data.Prod.Lex

/-!
# Comparisons of recursive types end

If aliases have no type parameters and no bounds lead round in a circle, every comparison ends,
however the types refer to each other. It makes types on the way, but where it assumes a pair of
structures, both are of one level, and the level is finite. In between a comparison goes down, on
the side of the target first: once the target is resolved there is nothing at its head to be
resolved again, and then only so many sources can be resolved against it.

* `Assign.Budget` is what a comparison uses up, in lexicographic order, and `Assign.Affords` says
  what is left of it.
* `Assign.Confines` says which types comparisons keep to, `Assign.Confines.affords` that every
  question is asked with less.
* `Ty.isAssignableTo_returns` says that comparisons end.
-/

namespace ShapeCheck

open Relation (ReflTransGen)

variable {m t s : Ty} {v w : TypeVar} {n : Nat} {inner : Bool} {K : Regime} {T T0 : Table}
  {M G H : Family}

namespace Table

/-- The types of a family and those with heads of it. -/
def Family.withHeads (F : Family) : Family where
  Mem T t := F.Mem T t ∨ T.Headed F t
  has h := h.elim F.has Headed.has
  keep hhas hshape h := h.imp (F.keep hhas hshape) (Headed.of_shapes hhas hshape)

section Level

theorem level_of_plain (h : T0.level.withHeads.Mem T t) (hs : (T.shape t).isExpanded = false) :
    T0.level.Mem T t :=
  h.elim id fun h => h.mem hs

/-- A type that is never made on the way is as old as the table. -/
theorem basic_of_level (h : T0.level.Mem T t)
    (hs : ∀ V calls, ¬(T.shape t).Framed V calls) (hmeet : ∀ ms, T.shape t ≠ .intersection ms) :
    T.Basic T0.vocabulary t := by
  cases (h : T.Within _ _ t) with
  | basic h => exact h
  | framed h => exact absurd h (hs _ _)
  | intersection h => exact absurd h (hmeet _)

theorem Evolves.typeVar (h : T0.Evolves T) (v : TypeVar) : T.typeVar v = T0.typeVar v := by
  rw [Table.typeVar, Table.typeVar, h.typeVars]

theorem enumValue?_part {v : Ty} (hv : Ty.enumValue? T m = some v) : v ∈ (T.shape m).parts := by
  unfold Ty.enumValue? at hv
  split at hv
  next enum name value hs =>
    rw [hs, Option.some.inj hv]
    simp [Shape.parts]
  · exact absurd hv (by simp)

/-- The values of an enum of the level are as old as its members. -/
theorem settles_valueUnion_level (hT0 : T0.WellFormed) (hT : T.WellFormed) (h : T0.Evolves T)
    {e : Enumeration} (he : ∀ m ∈ e.members, T0.Has m) :
    Interning.Settles T (Ty.valueUnion e) T0.level.Mem := by
  have hvalues : ∀ v ∈ e.members.filterMap (Ty.enumValue? T),
      T.Within T0.vocabulary T0.entries.size v := by
    intro v hv
    obtain ⟨m, hm, hmv⟩ := List.mem_filterMap.mp hv
    have hold : v.rank ≤ T0.entries.size :=
      Nat.le_trans (Nat.le_of_lt (hT.rank_part (enumValue?_part hmv))) (he m hm)
    exact within_old hT0 h hold _ hold
  refine Interning.settles_get_bind (fun T2 h2 => ?_) (Interning.settles_unionOf_within hT hvalues)
  rw [List.filterMap_congr fun m hm => Assign.enumValue?_of_le h2 (h.has (he m hm))]

/-- **Comparisons do not lead out of the level.** -/
theorem compares_level (hT0 : T0.WellFormed) :
    (Regime.recalling T0.level.heads T0).Compares T0.level.withHeads T0.level where
  prim T p := within_prim T _ _ p
  part {T t p} hT ht hs hp := by
    refine (Within.frame_succ ht ?_).2 p hp |>.succ
    cases hshape : T.shape t <;> first | rfl | exact absurd hs (by simp [hshape, Shape.isStructure])
  erase hT ht := Interning.settles_erase_within hT.wellFormed ht
  elements {T t u} hT ht hs := by
    have hparts := (Within.frame_succ ht (by rw [hs]; rfl)).2
    rw [hs] at hparts
    exact Interning.settles_unionOf_within hT.wellFormed hparts
  length {T t u} hT ht hs := by
    have hframed := (Within.frame_succ ht (by rw [hs]; rfl)).1
    rw [hs] at hframed
    exact (Interning.settles_tupleLength_within hT.wellFormed hframed).imp
      fun _ _ _ _ h => h.mono (Nat.succ_le_succ (Nat.zero_le _))
  whole {T t} hT ht hs := by
    refine level_of_plain ht ?_
    cases hshape : T.shape t <;> first | rfl | exact absurd hs (by simp [hshape, Shape.isPlain])
  member hT ht hm := ht.imp (fun h => h.combined hm) fun h => h.combined hm
  value {T t enum name v} hT ht hs := by
    have hbasic := basic_of_level (level_of_plain ht (by rw [hs]; rfl)) (by simp [hs, Shape.Framed])
      (by simp [hs])
    have hlt : v.rank < t.rank := hT.wellFormed.rank_part (by rw [hs]; simp [Shape.parts])
    exact .inl (mem_level hT0 hT.evolves (Nat.le_trans (Nat.le_of_lt hlt) hbasic.2.1))
  values {T t e} hT ht hs := by
    have hbasic := (basic_of_level (level_of_plain ht (by rw [hs]; rfl))
      (by simp [hs, Shape.Framed])
      (by simp [hs])).2.2
    rw [hs] at hbasic
    exact (settles_valueUnion_level hT0 hT.wellFormed hT.evolves hbasic).imp fun _ _ _ _ h => .inl h
  bound {T t v} hT ht hs := by
    rw [hT.evolves.typeVar]
    have hmem := level_of_plain ht (by rw [hs]; rfl)
    refine .inl ?_
    cases hb : (T0.typeVar v).bound with
    | none => exact within_prim T _ _ _
    | some b => exact mem_level hT0 hT.evolves (has_of_bound hT0 hb)

/-- How many types there are on the level at most. -/
noncomputable def levelSize (T0 : Table) : Nat := T0.vocabulary.count (T0.entries.size + 1)

theorem ncard_level_le (hT : T.WellFormed) : { t | T0.level.Mem T t }.ncard ≤ T0.levelSize :=
  ncard_within_le hT _ _

theorem finite_level (T0 T : Table) : { t | T0.level.Mem T t }.Finite := finite_within T _ _

end Level

section Bounds

/-- How many type parameters stand below one, along the bounds. -/
noncomputable def boundsBelow (T : Table) (v : TypeVar) : Nat :=
  { w | Relation.TransGen T.Bounds w v }.ncard

theorem knows_of_bounds (hT : T.WellFormed) (h : Relation.TransGen T.Bounds w v) :
    w.number ∈ Set.Iio T.typeVars.size := by
  obtain ⟨u, ⟨b, t, -, -, ht⟩, -⟩ := Relation.TransGen.head'_iff.mp h
  exact Assign.knows_of_shape hT ht

theorem finite_boundsBelow (hT : T.WellFormed) (v : TypeVar) :
    { w | Relation.TransGen T.Bounds w v }.Finite := by
  have hnumbers : Function.Injective TypeVar.number := fun _ _ h => congrArg TypeVar.mk h
  exact ((Set.finite_Iio T.typeVars.size).preimage hnumbers.injOn).subset
    fun w hw => knows_of_bounds hT hw

theorem boundsBelow_le (hT : T.WellFormed) (v : TypeVar) : T.boundsBelow v ≤ T.typeVars.size := by
  have hnumbers : Function.Injective TypeVar.number := fun _ _ h => congrArg TypeVar.mk h
  refine (Set.ncard_le_ncard_of_injOn TypeVar.number (fun w hw => knows_of_bounds hT hw)
    hnumbers.injOn (Set.finite_Iio _)).trans (Nat.le_of_eq ?_)
  rw [← Finset.coe_Iio, Set.ncard_coe_finset, Nat.card_Iio]

/-- Along the bounds fewer and fewer are left, unless they lead round in a circle. -/
theorem boundsBelow_lt (hT : T.WellFormed) (hloop : ∀ v, ¬Relation.TransGen T.Bounds v v)
    (h : T.Bounds w v) : T.boundsBelow w < T.boundsBelow v := by
  refine Set.ncard_lt_ncard ⟨fun u hu => hu.tail h, fun hsub => ?_⟩ (finite_boundsBelow hT v)
  exact hloop w (hsub (.single h))

end Bounds

end Table

namespace Assign

open Table

/-- Work that has a result, the same from some depth and some number of steps on. -/
def Returns (K : Regime) (T : Table) (x : Nat → Typing Bool) : Prop :=
  ∃ b T1, K.ok T1 ∧ K.grows T T1 ∧ ∃ k, ∀ d n, k ≤ d → k ≤ n → x d n T = some (b, T1)

section Returning

variable {Q : Bool → Table → Ty → Ty → Prop}

theorem returns_pure (hT : K.ok T) (b : Bool) : Returns K T fun _ => return b :=
  ⟨b, T, hT, K.refl T, 0, fun _ _ _ _ => rfl⟩

theorem returns_bind {α : Type} {x : Nat → Typing α} {f : Nat → α → Typing Bool}
    {a : α} {T1 : Table}
    (h1 : K.grows T T1) {k : Nat} (hk : ∀ d n, k ≤ d → k ≤ n → x d n T = some (a, T1))
    (hf : Returns K T1 fun d => f d a) : Returns K T fun d => x d >>= f d := by
  obtain ⟨b, T2, hT2, h2, k', hk'⟩ := hf
  refine ⟨b, T2, hT2, K.trans h1 h2, max k k', fun d n hd hn => ?_⟩
  dsimp only
  rw [Typing.bind_of_some (hk d n (by omega) (by omega))]
  exact hk' d n (by omega) (by omega)

/-- **A rule returns** when all its questions do. -/
theorem Rule.returns {x : Answers → Typing Bool} (h : Rule K Q T x) (hends : K.ends) (hT : K.ok T)
    {c : Nat → Answers} (hc : ∀ inner a b T1, K.ok T1 → K.grows T T1 → Q inner T1 a b →
      Returns K T1 fun d => c d inner a b) : Returns K T fun d => x (c d) := by
  induction h with
  | verdict b => exact returns_pure hT b
  | ask h => exact hc _ _ _ _ hT (K.refl _) h
  | next stop hx hy ihx ihy =>
    obtain ⟨b, T1, hT1, h1, k, hk⟩ := ihx hT hc
    refine returns_bind h1 hk ?_
    by_cases hb : b = stop
    · simp only [if_pos hb]
      exact returns_pure hT1 b
    · simp only [if_neg hb]
      exact ihy T1 hT1 (.inl h1) hT1 fun inner a b T2 hT2 h2 =>
        hc inner a b T2 hT2 (K.trans h1 h2)
  | look hsame h ih => exact ih hT hc
  | work hx hf ih =>
    obtain ⟨n, ⟨a, T1⟩, hn⟩ := hx.ends hends
    obtain ⟨hat, ha⟩ := hx.runs n a T1 (hn n (Nat.le_refl n))
    refine returns_bind hat.grows (fun _ m _ hm => hn m hm) ?_
    exact ih a T1 hat.ok (.inl hat.grows) ha hat.ok fun inner a b T2 hT2 h2 =>
      hc inner a b T2 hT2 (K.trans hat.grows h2)

end Returning

/-- What a comparison has left to use up. -/
structure Budget where
  pairs : Nat
  opening : Nat
  target : Nat
  /-- Sources of the level that are not assumed to fit the target. -/
  sources : Nat
  bounds : Nat
  source : Nat

/-- Less is left, in lexicographic order. -/
def Budget.Less (b c : Budget) : Prop :=
  b.pairs < c.pairs ∨ b.pairs ≤ c.pairs ∧ (b.opening < c.opening ∨ b.opening ≤ c.opening ∧
    (b.target < c.target ∨ b.target ≤ c.target ∧ (b.sources < c.sources ∨ b.sources ≤ c.sources ∧
      (b.bounds < c.bounds ∨ b.bounds ≤ c.bounds ∧ b.source < c.source))))

theorem Budget.wellFounded_less : WellFounded Budget.Less := by
  refine Subrelation.wf (r := InvImage (· < ·) fun b : Budget => toLex (b.pairs, toLex (b.opening,
    toLex (b.target, toLex (b.sources, toLex (b.bounds, b.source)))))) ?_
      (InvImage.wf _ wellFounded_lt)
  intro b c h
  simp only [InvImage, Prod.Lex.toLex_lt_toLex]
  unfold Less at h
  omega

section Counting

variable {P Q : Ty × Ty → Prop} {pairs : List (Ty × Ty)} {p : Ty × Ty}

/-- How many of the assumed pairs are of some sort. -/
noncomputable def counted (P : Ty × Ty → Prop) (pairs : List (Ty × Ty)) : Nat :=
  { p | p ∈ pairs ∧ P p }.ncard

theorem finite_counted (P : Ty × Ty → Prop) (pairs : List (Ty × Ty)) :
    { p | p ∈ pairs ∧ P p }.Finite :=
  pairs.finite_toSet.subset fun _ h => h.1

theorem counted_mono (h : ∀ p, P p → Q p) : counted P pairs ≤ counted Q pairs :=
  Set.ncard_le_ncard (fun p hp => ⟨hp.1, h p hp.2⟩) (finite_counted Q pairs)

theorem counted_cons_le : counted P pairs ≤ counted P (p :: pairs) :=
  Set.ncard_le_ncard (fun _ hq => ⟨List.mem_cons_of_mem p hq.1, hq.2⟩) (finite_counted P _)

theorem counted_cons_lt (hnew : p ∉ pairs) (hp : P p) :
    counted P pairs < counted P (p :: pairs) := by
  refine Set.ncard_lt_ncard ⟨fun _ hq => ⟨List.mem_cons_of_mem p hq.1, hq.2⟩, fun hsub => ?_⟩
    (finite_counted P _)
  exact hnew (hsub ⟨List.mem_cons_self, hp⟩).1

theorem counted_le {A B : Set Ty} (hA : A.Finite) (hB : B.Finite)
    (h : ∀ p, P p → p.1 ∈ A ∧ p.2 ∈ B) :
    counted P pairs ≤ A.ncard * B.ncard := by
  rw [← Set.ncard_prod]
  exact Set.ncard_le_ncard (fun p hp => h p hp.2) (hA.prod hB)

end Counting

section Spending

variable {T1 : Table} {assumed : List (Ty × Ty)} {a c : Ty} {b : Budget}

/-- The type, or each member if it is a union, is compared part by part. -/
def Light (T : Table) (s : Ty) : Prop := ∀ m ∈ T.members s, (T.shape m).isPlain = true

/-- The source stands so high at most. What is put together of values of an enum does not count as
new. -/
def Weighs (T : Table) (s : Ty) (n : Nat) : Prop :=
  (T.shape s).isPlain = true ∨ Light T s ∧ 1 ≤ n ∨ s.rank + 2 ≤ n

theorem light_of_isPlain (h : (T.shape s).isPlain = true) : Light T s := by
  unfold Light members
  cases hs : T.shape s with
  | union ms =>
    rw [hs] at h
    exact absurd h (by simp [Shape.isPlain])
  | _ =>
    intro m hm
    obtain rfl := List.mem_singleton.mp hm
    exact h

/-- Only unions are lighter than their rank without being plain. -/
theorem Light.isPlain (h : Light T s) (hs : ∀ ms, T.shape s ≠ .union ms) :
    (T.shape s).isPlain = true := by
  refine h s ?_
  unfold members
  cases hshape : T.shape s with
  | union ms => exact absurd hshape (hs ms)
  | _ => simp

theorem combined_of_isPlain (h : (T.shape s).isPlain = true) : T.combined s = [] := by
  refine combined_eq_nil ?_
  cases hs : T.shape s <;> first | rfl | exact absurd h (by simp [hs, Shape.isPlain])

theorem Light.combined (h : Light T s) (hm : m ∈ T.combined s) : (T.shape m).isPlain = true := by
  cases hs : T.shape s with
  | union ms =>
    refine h m ?_
    rw [members, hs]
    rwa [Table.combined, hs] at hm
  | _ =>
    rw [combined_of_isPlain (h.isPlain (by simp [hs]))] at hm
    exact absurd hm (by simp)

/-- Such a type leads to no type parameter. -/
theorem Light.leadsTo (h : Light T s) {u : Ty} (hu : T.LeadsTo s u) (v : TypeVar) :
    T.shape u ≠ .parameter v := by
  induction hu with
  | self s =>
    intro hs
    have hplain := h.isPlain (by simp [hs])
    rw [hs] at hplain
    exact absurd hplain (by simp [Shape.isPlain])
  | member hm _ ih => exact ih (light_of_isPlain (h.combined hm))

theorem Weighs.rank_le (h : Weighs T s n) (hs : (T.shape s).isPlain = false)
    (hunion : ∀ ms, T.shape s ≠ .union ms) : s.rank + 2 ≤ n := by
  rcases h with hplain | ⟨hlight, -⟩ | hrank
  · exact absurd (hs.symm.trans hplain) Bool.false_ne_true
  · exact absurd (hs.symm.trans (hlight.isPlain hunion)) Bool.false_ne_true
  · exact hrank

/-- How much a comparison with these assumptions has left. -/
structure Affords (T0 T : Table) (assumed : List (Ty × Ty)) (s t : Ty) (b : Budget) : Prop where
  pairs : T0.levelSize * T0.levelSize ≤
    b.pairs + counted (fun p => T0.level.Mem T p.1 ∧ T0.level.Mem T p.2) assumed
  opening : T.Headed T0.level t ∨ 0 < b.opening
  target : t.rank ≤ b.target
  sources : T0.levelSize ≤ b.sources + counted (fun p => T0.level.Mem T p.1 ∧ p.2 = t) assumed
  bounds : ∀ u v, T.LeadsTo s u → T.shape u = .parameter v → T0.boundsBelow v < b.bounds
  source : Weighs T s b.source

/-- A comparison has something left, whatever its types, as long as few pairs are assumed. -/
theorem affords_anew (hT0 : T0.WellFormed) (hpairs : T0.levelSize * T0.levelSize ≤
      n + counted (fun p => T0.level.Mem T p.1 ∧ T0.level.Mem T p.2) assumed) :
    Affords T0 T assumed s t
      ⟨n, 1, t.rank, T0.levelSize, T0.typeVars.size + 1, s.rank + 2⟩ where
  pairs := hpairs
  opening := .inr Nat.one_pos
  target := Nat.le_refl _
  sources := Nat.le_add_right _ _
  bounds _ v _ _ := Nat.lt_succ_of_le (boundsBelow_le hT0 v)
  source := .inr (.inr (Nat.le_refl _))

/-- As a table develops, no less is left. -/
theorem Affords.evolves (h : Affords T0 T assumed s t b) (hT : T.WellFormed) (h1 : T.Evolves T1)
    (hs : T.Has s) : Affords T0 T1 assumed s t b := by
  have hlevel : ∀ {u : Ty}, T0.level.Mem T u → T0.level.Mem T1 u := fun hu =>
    T0.level.keep (fun _ hv => h1.has hv) (fun _ hv => h1.shape hv) hu
  have hshape := fun u (hu : T.Has u) => h1.shape hu
  have hmembers : T1.members s = T.members s := by rw [members, members, hshape s hs]
  refine ⟨?_, ?_, h.target, ?_, fun u v hu hv => ?_, ?_⟩
  · exact h.pairs.trans (Nat.add_le_add_left (counted_mono fun p hp => hp.imp hlevel hlevel) _)
  · exact h.opening.imp_left (Headed.of_shapes (fun _ hu => h1.has hu) hshape)
  · exact h.sources.trans (Nat.add_le_add_left (counted_mono fun p hp => hp.imp_left hlevel) _)
  · obtain ⟨hlead, hhas⟩ := leadsTo_of_shapes hT hshape hs hu
    exact h.bounds u v hlead ((hshape u hhas).symm.trans hv)
  · refine h.source.imp (fun hplain => by rwa [hshape s hs]) (Or.imp_left (And.imp_left ?_))
    intro hlight m hm
    rw [hmembers] at hm
    rw [hshape m (hT.has_member hs hm)]
    exact hlight m hm

/-- **Going down** without a new assumption leaves less. -/
theorem Affords.descends (hb : Affords T0 T assumed s t b) (hT0 : T0.WellFormed) (hT : T.WellFormed)
    (h : T0.Evolves T)
    (hloop : ∀ v, T.shape s = .parameter v → ∀ w, ¬Relation.TransGen T0.Bounds w w)
    (hdown : Descends T s t a c) : ∃ b' : Budget, b'.Less b ∧ Affords T0 T assumed a c b' := by
  cases hdown with
  | sourceMember hm =>
    have hbounds := fun u v (hu : T.LeadsTo a u) => hb.bounds u v (.member hm hu)
    rcases hb.source with hplain | ⟨hlight, hsome⟩ | hrank
    · rw [combined_of_isPlain hplain] at hm
      exact absurd hm (by simp)
    · refine ⟨{ b with source := 0 }, by simp only [Budget.Less]; omega, ?_⟩
      exact { hb with bounds := hbounds, source := .inl (hlight.combined hm) }
    · have hlt := hT.rank_part (combined_subset_parts hm)
      refine ⟨{ b with source := a.rank + 2 }, by simp only [Budget.Less]; omega, ?_⟩
      exact { hb with bounds := hbounds, source := .inr (.inr (Nat.le_refl _)) }
  | targetMember hm =>
    have hlt := Nat.lt_of_lt_of_le (hT.rank_part (combined_subset_parts hm)) hb.target
    refine ⟨{ b with target := c.rank, sources := T0.levelSize },
      by simp only [Budget.Less]; omega, ?_⟩
    exact { hb with
      opening := hb.opening.imp_left fun h => h.combined hm
      target := Nat.le_refl _
      sources := Nat.le_add_right _ _ }
  | value hs =>
    have hrank := hb.source.rank_le (by rw [hs]; rfl) (by simp [hs])
    have hplain : (T.shape a).isPlain = true := by
      obtain ⟨-, hlit⟩ := value_spec hT (has_of_shape (by rw [hs]; simp)) (v := a)
        (by rw [Ty.enumValue?, hs])
      unfold Table.literal? at hlit
      cases hsa : T.shape a <;> simp [hsa] at hlit
      rfl
    refine ⟨{ b with source := 0 }, by simp only [Budget.Less]; omega, ?_⟩
    exact { hb with
      bounds := fun u v hu hv => absurd hv ((light_of_isPlain hplain).leadsTo hu v)
      source := .inl hplain }
  | values hs hu =>
    have hrank := hb.source.rank_le (by rw [hs]; rfl) (by simp [hs])
    refine ⟨{ b with source := 1 }, by simp only [Budget.Less]; omega, ?_⟩
    exact { hb with
      bounds := fun w v hw hv => absurd hv (Light.leadsTo hu hw v)
      source := .inr (.inl ⟨hu, Nat.le_refl 1⟩) }
  | @bound v hs =>
    have hlt := hb.bounds s v (.self s) hs
    refine ⟨{ b with
      bounds := T0.boundsBelow v, source := ((T.typeVar v).bound.getD .unknown).rank + 2 },
      by simp only [Budget.Less]; omega, ?_⟩
    refine { hb with bounds := fun u w hu hw => ?_, source := .inr (.inr (Nat.le_refl _)) }
    rw [h.typeVar] at hu
    cases hbound : (T0.typeVar v).bound with
    | none =>
      rw [hbound] at hu
      exact absurd hw ((light_of_isPlain rfl).leadsTo hu w)
    | some d =>
      rw [hbound] at hu
      obtain ⟨hlead, hhas⟩ := leadsTo_of_shapes hT0 (fun x hx => h.shape hx)
        (has_of_bound hT0 hbound) hu
      exact boundsBelow_lt hT0 (hloop v hs) ⟨d, u, hbound, hlead, (h.shape hhas).symm.trans hw⟩

/-- Few pairs of the level can be assumed. -/
theorem counted_level_le (hT : T.WellFormed) :
    counted (fun p => T0.level.Mem T p.1 ∧ T0.level.Mem T p.2) assumed ≤
      T0.levelSize * T0.levelSize :=
  (counted_le (finite_level T0 T) (finite_level T0 T) fun _ hp => hp).trans
    (Nat.mul_le_mul (ncard_level_le hT) (ncard_level_le hT))

theorem counted_sources_le (hT : T.WellFormed) :
    counted (fun p => T0.level.Mem T p.1 ∧ p.2 = t) assumed ≤ T0.levelSize := by
  refine (counted_le (finite_level T0 T) (Set.finite_singleton t) fun _ hp => hp).trans ?_
  rw [Set.ncard_singleton, Nat.mul_one]
  exact ncard_level_le hT

/-- Families of the level, or with heads of it, that comparisons keep to. They ask about types of
the first family, the parts of structures are of the second one, and what a reference stands for is
of the third. -/
structure Confines (T0 : Table) (M G H : Family) : Prop where
  compares : (Regime.recalling T0.level.heads T0).Compares M G
  types : ∀ {T t}, M.Mem T t → T0.level.withHeads.Mem T t
  parts : ∀ {T t}, G.Mem T t → M.Mem T t
  heads : ∀ {T t}, H.Mem T t → M.Mem T t ∧ T.Headed T0.level t
  resolves : ∀ {T t}, Recalling T0.level.heads T0 T → M.Mem T t →
    Typing.Works (.recalling T0.level.heads T0) T t.resolve fun T1 r =>
      Ty.hasOpenHead T t = true → H.Mem T1 r
  /-- If there are type parameters at all, no bounds lead round in a circle. -/
  grounded : ∀ {T t v}, M.Mem T t → T.shape t = .parameter v → ∀ w, ¬Relation.TransGen T0.Bounds w w

section Confining

theorem Confines.asks {known : Bool} (h : Confines T0 M G H)
    (hask : Asks M G H T known s t inner T1 a c) : M.Mem T1 a ∧ M.Mem T1 c := by
  cases hask with
  | down ha hc => exact ⟨ha, hc⟩
  | inside _ _ _ ha hc => exact ⟨h.parts ha, h.parts hc⟩
  | source _ _ ht hr => exact ⟨(h.heads hr).1, ht⟩
  | target _ hs _ hr => exact ⟨hs, (h.heads hr).1⟩

/-- **Every question is asked with less.** -/
theorem Confines.affords (h : Confines T0 M G H) (hT0 : T0.WellFormed)
    (hT : Recalling T0.level.heads T0 T) (hT1 : Recalling T0.level.heads T0 T1) (h1 : T.Evolves T1)
    (hs : M.Mem T s) (ht : M.Mem T t) (hb : Affords T0 T assumed s t b)
    (hask : Asks M G H T (assumed.contains (s, t)) s t inner T1 a c) :
    ∃ b' : Budget, b'.Less b ∧
      Affords T0 T1 (if inner then (s, t) :: assumed else assumed) a c b' := by
  have hkeep : ∀ {u : Ty}, T0.level.Mem T u → T0.level.Mem T1 u :=
    fun hu => T0.level.keep (fun _ hv => h1.has hv) (fun _ hv => h1.shape hv) hu
  have hb1 := hb.evolves hT.wellFormed h1 (M.has hs)
  have hcons : counted (fun p => T0.level.Mem T1 p.1 ∧ T0.level.Mem T1 p.2) assumed ≤
      counted (fun p => T0.level.Mem T1 p.1 ∧ T0.level.Mem T1 p.2) ((s, t) :: assumed) :=
    counted_cons_le
  have hpairs := hb1.pairs.trans (Nat.add_le_add_left hcons b.pairs)
  cases hask with
  | down _ _ hdown =>
    have hs1 : M.Mem T1 s := M.keep (fun _ hu => h1.has hu) (fun _ hu => h1.shape hu) hs
    exact hb1.descends hT0 hT1.wellFormed hT1.evolves (fun v => h.grounded hs1) hdown
  | inside hnew hsplain htplain _ _ =>
    -- a pair of the level that has not been assumed before
    have hnew : (s, t) ∉ assumed := by simpa using hnew
    have hs1 := hkeep ((compares_level hT0).whole hT (h.types hs) hsplain)
    have ht1 := hkeep ((compares_level hT0).whole hT (h.types ht) htplain)
    have hlt := counted_cons_lt (P := fun p => T0.level.Mem T1 p.1 ∧ T0.level.Mem T1 p.2)
      hnew ⟨hs1, ht1⟩
    have hle : counted (fun p => T0.level.Mem T1 p.1 ∧ T0.level.Mem T1 p.2) ((s, t) :: assumed) ≤
        T0.levelSize * T0.levelSize := counted_level_le hT1.wellFormed
    have hleft := hb1.pairs
    refine ⟨_, ?_, affords_anew hT0 (n := b.pairs - 1) ?_⟩
    · simp only [Budget.Less]
      omega
    · simp only [if_true]
      omega
  | source hnew hopen _ hr =>
    -- a source of the level that has not been assumed to fit this target before
    have hnew : (s, t) ∉ assumed := by simpa using hnew
    have hs1 : T0.level.Mem T1 s := by
      refine hkeep ((h.types hs).resolve_right fun hheaded => ?_)
      rw [hheaded.hasOpenHead] at hopen
      exact Bool.false_ne_true hopen
    have hlt := counted_cons_lt (P := fun p => T0.level.Mem T1 p.1 ∧ p.2 = t) hnew ⟨hs1, rfl⟩
    have hle : counted (fun p => T0.level.Mem T1 p.1 ∧ p.2 = t)
      ((s, t) :: assumed) ≤ T0.levelSize :=
      counted_sources_le hT1.wellFormed
    have hleft := hb1.sources
    refine ⟨{ b with
      sources := b.sources - 1, bounds := T0.typeVars.size + 1, source := a.rank + 2 }, ?_, ?_⟩
    · simp only [Budget.Less]
      omega
    · have hanew := affords_anew (s := a) (t := t) hT0 hpairs
      refine { hanew with opening := hb1.opening, target := hb1.target, sources := ?_ }
      simp only [if_true]
      omega
  | target hnew _ href hr =>
    -- the target is resolved for good
    have hopening : 0 < b.opening := by
      refine hb.opening.resolve_left fun hheaded => ?_
      rw [hheaded.isReference] at href
      exact Bool.false_ne_true href
    refine ⟨{ b with opening := 0, target := c.rank, sources := T0.levelSize }, ?_, ?_⟩
    · simp only [Budget.Less]
      omega
    · have hanew := affords_anew (s := s) (t := c) hT0 hpairs
      exact { hanew with
        opening := .inl (h.heads hr).2, bounds := hb1.bounds, source := hb1.source }

end Confining

end Spending

/-- A type without a reference at its head resolves to itself. -/
theorem works_resolve_closed (hT : K.ok T) (ht : T.Has t)
    (h : Ty.hasOpenHead T t = false) : Typing.Works K T t.resolve fun T1 r => r = t ∧ T1 = T := by
  refine ⟨fun n r T1 hrun => ?_, fun _ => ⟨0, (t, T), fun m _ => Ty.resolve_closed m h⟩⟩
  rw [Ty.resolve_closed n h] at hrun
  obtain ⟨rfl, rfl⟩ := Prod.mk.inj (Option.some.inj hrun)
  refine ⟨⟨hT, K.refl T, fun m _ => Ty.resolve_closed m h, fun m _ T2 h2 => ?_⟩, rfl, rfl⟩
  exact Ty.resolve_closed m ((Ty.hasOpenHead_of_le (K.wellFormed hT) (K.later_le h2) ht).trans h)

/-- **Comparisons return** among types of the level that they keep to, whatever is assumed. -/
theorem Confines.returns (h : Confines T0 M G H) (hT0 : T0.WellFormed)
    (b : Budget) (hT : Recalling T0.level.heads T0 T) {assumed : List (Ty × Ty)}
    (hs : M.Mem T s) (ht : M.Mem T t) (hb : Affords T0 T assumed s t b) :
    Returns (.recalling T0.level.heads T0) T fun d => decideAt d assumed s t := by
  induction b using Budget.wellFounded_less.induction generalizing T assumed s t with
  | _ b ih =>
  have hrule := rule_step h.compares (T := T) (s := s) (t := t)
    (fun u hu => h.resolves hT hu) (assumed.contains (s, t)) hT hs ht
  have hstep := hrule.returns trivial hT
    (c := fun d inner => decideAt d (if inner then (s, t) :: assumed else assumed)) ?_
  · obtain ⟨v, T1, hT1, h1, k, hk⟩ := hstep
    refine ⟨v, T1, hT1, h1, k + 1, fun d n hd hn => ?_⟩
    obtain ⟨d, rfl⟩ : ∃ e, d = e + 1 := ⟨d - 1, by omega⟩
    exact hk d n (by omega) (by omega)
  · intro inner a c T1 hT1 h1 hask
    obtain ⟨b', hless, hb'⟩ := h.affords hT0 hT hT1 h1 hs ht hb hask
    obtain ⟨ha, hc⟩ := h.asks hask
    exact ih b' hless hT1 ha hc hb'

/-- A question has an answer if the comparison returns with nothing assumed. -/
theorem Returns.answers (h : Returns K T fun d => decideAt d [] s t) :
    ∃ n b T1, ∀ m, n ≤ m → s.isAssignableTo t m T = some (b, T1) := by
  rcases isAssignableTo_cases T s t with ⟨c, -, hknown⟩ | hanew
  · exact ⟨0, c, T, fun m _ => hknown m⟩
  obtain ⟨b, T1, -, -, k, hk⟩ := h
  refine ⟨k, b, if T.frozen then { T1 with verdicts := ((s, t), b) :: T1.verdicts } else T1,
    fun m hm => ?_⟩
  have hrun : decideAt m [] s t m T = some (b, T1) := hk m m hm hm
  rw [hanew, hrun, Option.bind_some]

/-- Whatever a table has been used for, questions about the types that comparisons keep to have
answers. -/
theorem Confines.answers (h : Confines T M G H)
    (hT : ReflTransGen Operated {} T) (hs : M.Mem T s) (ht : M.Mem T t) :
    ∃ n b T1, ∀ m, n ≤ m → s.isAssignableTo t m T = some (b, T1) := by
  have hwf := (faithful_empty.operations hT).1.wellFormed
  have haffords : Affords T T [] s t _ := affords_anew hwf (Nat.le_add_right _ _)
  exact (h.returns hwf _ (recalling_level hwf (recalls_of_operations hT)) hs ht haffords).answers

/-- The types of the level and those with heads of it are such families, if aliases have no type
parameters and no bounds lead round in a circle. -/
theorem confines_level (hT0 : T0.WellFormed) (hplain : ∀ a ∈ T0.aliases, a.params = [])
    (hloop : ∀ v, ¬Relation.TransGen T0.Bounds v v) :
    Confines T0 T0.level.withHeads T0.level T0.level.heads where
  compares := compares_level hT0
  types h := h
  parts h := .inl h
  heads h := ⟨.inr h, h⟩
  resolves {T t} hT h := by
    rcases h with h | h
    · exact ((resolves_level hT0 hplain).works hT h).imp fun _ _ h => h.2
    · refine (works_resolve_closed hT h.has h.hasOpenHead).imp fun _ _ _ hopen => ?_
      rw [h.hasOpenHead] at hopen
      exact absurd hopen Bool.false_ne_true
  grounded _ _ := hloop

end Assign

/-- **Comparisons of recursive types end.** Whatever a table has been used for, if its aliases have
no type parameters and no bounds lead round in a circle, a question about any two of its types has
an answer. -/
theorem Ty.isAssignableTo_returns {T : Table} (hT : ReflTransGen Table.Operated {} T)
    (hplain : ∀ a ∈ T.aliases, a.params = []) (hloop : ∀ v, ¬Relation.TransGen T.Bounds v v)
    {s t : Ty} (hs : T.Has s) (ht : T.Has t) :
    ∃ n b T1, ∀ m, n ≤ m → s.isAssignableTo t m T = some (b, T1) := by
  have hwf := (Table.faithful_empty.operations hT).1.wellFormed
  exact (Assign.confines_level hwf hplain hloop).answers hT
    (.inl (Table.mem_level hwf (.refl T) hs)) (.inl (Table.mem_level hwf (.refl T) ht))

namespace Table

/-- The table with one more alias, for an object with a field of the type that another alias stands
for. -/
def linking (T : Table) (name other : String) : Table :=
  let link := (Construction.reference other []).run T
  let node := (Construction.object { fields := [{ name := "next", type := link.1 }] }).run link.2
  (Alias.define name [] node.1 node.2).2

theorem operated_linking (hT : ReflTransGen Operated {} T) (name other : String) :
    ReflTransGen Operated {} (T.linking name other) := by
  have hwf := fun {T : Table} (h : ReflTransGen Operated {} T) =>
    (faithful_empty.operations h).1.wellFormed
  have hlink : ∀ t ∈ (Construction.reference other []).inputs, T.Has t := by
    simp [Construction.inputs]
  have hT1 := hT.tail (.call (.construct (.reference other []) hlink trivial))
  have hhas := Construction.has_run (hwf hT) hlink trivial
  let node := Construction.object
    { fields := [{ name := "next", type := ((Construction.reference other []).run T).1 }] }
  have hnode : ∀ t ∈ node.inputs, ((Construction.reference other []).run T).2.Has t := by
    simpa [node, Construction.inputs, Shape.parts] using hhas
  have hT2 := hT1.tail (.call (.construct node hnode trivial))
  exact hT2.tail (.define name (by simp) (Construction.has_run (hwf hT1) hnode trivial))

/-- A table with two aliases that refer to each other, and a type parameter that is bounded by one
of them. -/
def alternating : Table :=
  let T := (({} : Table).linking "Odd" "Even").linking "Even" "Odd"
  ((Construction.parameter ⟨0⟩).run (Ty.newTypeVar { name := "T", bound := some (.made 0) } T).2).2

theorem operated_alternating : ReflTransGen Operated {} alternating := by
  have hlinks := operated_linking (operated_linking .refl "Odd" "Even") "Even" "Odd"
  refine (hlinks.tail (.call (.declare { name := "T", bound := some (.made 0) } ?_ (by simp)))).tail
    (.call (.construct (.parameter ⟨0⟩) (by simp [Construction.inputs]) ?_))
  · rintro b ⟨⟩
    change 1 ≤ ((({} : Table).linking "Odd" "Even").linking "Even" "Odd").entries.size
    decide +kernel
  · change 0 < (Ty.newTypeVar { name := "T", bound := some (.made 0) }
      ((({} : Table).linking "Odd" "Even").linking "Even" "Odd")).2.typeVars.size
    decide +kernel

/-- References lead to no type parameter. -/
theorem not_bounds_of_references
    (h : T.typeVars.toList.all (fun info => info.bound.all fun b => (T.shape b).isReference) = true)
    (w v : TypeVar) : ¬T.Bounds w v := by
  rintro ⟨b, u, hb, hlead, hu⟩
  have href : (T.shape b).isReference = true := by
    cases hinfo : T.typeVars[v.number]? with
    | none => simp [typeVar, hinfo] at hb
    | some info =>
      simp only [typeVar, hinfo, Option.getD_some] at hb
      have hall := List.all_eq_true.mp h info
        (Array.mem_toList_iff.mpr (Array.mem_of_getElem? hinfo))
      rwa [hb] at hall
  cases hlead with
  | self => simp [hu, Shape.isReference] at href
  | member hm =>
    unfold combined at hm
    cases hs : T.shape b <;> simp [hs, Shape.isReference] at href hm

end Table

/-- Two types that refer to each other can be compared, and a type parameter that they bound. -/
theorem Ty.isAssignableTo_returns_alternating :
    ∃ n b T1, ∀ m, n ≤ m → (Ty.made 4).isAssignableTo (.made 2) m Table.alternating =
    some (b, T1) := by
  refine Ty.isAssignableTo_returns Table.operated_alternating (by decide +kernel) (fun v hv => ?_)
    (by decide +kernel) (by decide +kernel)
  obtain ⟨w, -, hw⟩ := Relation.TransGen.tail'_iff.mp hv
  exact Table.not_bounds_of_references (by decide +kernel) w v hw

end ShapeCheck
