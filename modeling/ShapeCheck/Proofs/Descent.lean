import ShapeCheck.Proofs.Comparison
import Mathlib.Logic.Relation
import Mathlib.Data.Finset.Card
import Mathlib.Order.WellFounded

/-!
# Comparisons end

A comparison assumes the pairs it is in, so it meets no pair twice under new assumptions. In between
it goes down: to the members of unions and intersections, to the values of enums, and from a type
parameter to its bound. So it ends, unless bounds lead in a circle or it meets more and more pairs.

* `Assign.exploreAt` is the comparison confined to a set of pairs and cut off at a depth, and
  `Assign.MeetsFinitely` says that a comparison stays in a finite set, however far it is followed.
* `Assign.MeetsOnce` says that it meets none of the pairs again under the same assumptions either,
  which is so where bounds do not lead on for ever (`Assign.MeetsFinitely.once`).
* `Assign.decideAt_ends` says that such a comparison ends.
-/

namespace ShapeCheck

variable {t s : Ty} {v : TypeVar} {p : Ty × Ty} {T : Table} {d : Nat} {P : Finset (Ty × Ty)}
  {assumed met : List (Ty × Ty)}

namespace Table

/-- A type leads to itself, and a union or an intersection to what its members lead to. -/
inductive LeadsTo (T : Table) : Ty → Ty → Prop
  | self (t : Ty) : LeadsTo T t t
  | member {t m u : Ty} (hm : m ∈ T.combined t) (h : LeadsTo T m u) : LeadsTo T t u

/-- The bound of the second type parameter leads to the first. -/
def Bounds (T : Table) (w v : TypeVar) : Prop :=
  ∃ b u, (T.typeVar v).bound = some b ∧ T.LeadsTo b u ∧ T.shape u = .parameter w

/-- No bounds lead on for ever. -/
def Grounded (T : Table) : Prop := WellFounded T.Bounds

end Table

namespace Assign

open Relation

/-- One source is met below another, in a comparison that makes no new assumption. -/
inductive Below (T : Table) : Ty → Ty → Prop
  | member {s m : Ty} (h : m ∈ T.combined s) : Below T m s
  | value {s enum v : Ty} {name : String} (h : T.shape s = .enumMember enum name v)
    (hv : (T.shape v).isPlain = true) : Below T v s
  | values {s u : Ty} {e : Enumeration} (h : T.shape s = .enumeration e)
    (hu : ∀ m ∈ T.members u, (T.shape m).isPlain = true) : Below T u s
  | bound {s : Ty} {v : TypeVar} (h : T.shape s = .parameter v) :
    Below T ((T.typeVar v).bound.getD .unknown) s

section Order

theorem combined_subset_parts {m : Ty} (hm : m ∈ T.combined t) : m ∈ (T.shape t).parts := by
  unfold Table.combined at hm
  cases hs : T.shape t <;> simp [hs] at hm <;> simpa [Shape.parts] using hm

theorem acc_of_isPlain (h : (T.shape t).isPlain = true) : Acc (Below T) t := by
  refine ⟨t, fun u hu => ?_⟩
  cases hu with
  | member hm =>
    unfold Table.combined at hm
    cases hs : T.shape t <;> simp [hs, Shape.isPlain] at h hm
  | value hs => simp [hs, Shape.isPlain] at h
  | values hs => simp [hs, Shape.isPlain] at h
  | bound hs => simp [hs, Shape.isPlain] at h

/-- A source is accessible when the type parameters that it leads to are. -/
theorem acc_of_leadsTo (hT : T.WellFormed)
    (hparam : ∀ u v, T.LeadsTo t u → T.shape u = .parameter v → Acc (Below T) u) :
    Acc (Below T) t := by
  induction hr : t.rank using Nat.strong_induction_on generalizing t with
  | _ r ih =>
  refine ⟨t, fun u hu => ?_⟩
  cases hu with
  | member hm =>
    have hlt := hT.rank_part (combined_subset_parts hm)
    refine ih u.rank (by omega) (fun w v hw hs => ?_) rfl
    exact hparam w v (.member hm hw) hs
  | value hs hv => exact acc_of_isPlain hv
  | values hs hu =>
    refine ⟨u, fun m hm => ?_⟩
    cases hsu : T.shape u with
    | union ms =>
      cases hm with
      | member hm =>
        refine acc_of_isPlain (hu m ?_)
        rw [Table.members, hsu]
        rwa [Table.combined, hsu] at hm
      | value h => simp [hsu] at h
      | values h => simp [hsu] at h
      | bound h => simp [hsu] at h
    | _ =>
      have hplain : (T.shape u).isPlain = true := hu u (by simp [Table.members, hsu])
      exact (acc_of_isPlain hplain).inv hm
  | bound hs => exact (hparam t _ (.self t) hs).inv (.bound hs)

theorem acc_of_parameter (hT : T.WellFormed) (hg : T.Grounded)
    (ht : T.shape t = .parameter v) : Acc (Below T) t := by
  induction v using hg.induction generalizing t with
  | _ v ih =>
  refine ⟨t, fun u hu => ?_⟩
  cases hu with
  | member hm => simp [Table.combined, ht] at hm
  | value h => simp [ht] at h
  | values h => simp [ht] at h
  | bound h =>
    rw [ht] at h
    obtain rfl := Shape.parameter.inj h
    cases hb : (T.typeVar v).bound with
    | none => exact acc_of_isPlain rfl
    | some b =>
      refine acc_of_leadsTo hT fun u w hu hw => ?_
      exact ih w ⟨b, u, hb, hu, hw⟩ hw

/-- Sources do not go down for ever. -/
theorem wellFounded_below (hT : T.WellFormed) (hg : T.Grounded) : WellFounded (Below T) :=
  ⟨fun _ => acc_of_leadsTo hT fun _ _ _ hs => acc_of_parameter hT hg hs⟩

/-- One pair of types is met below another, in a comparison that makes no new assumption. -/
structure Sinks (T : Table) (p q : Ty × Ty) : Prop where
  has : T.Has p.1 ∧ T.Has p.2 ∧ T.Has q.1 ∧ T.Has q.2
  descends : Descends T q.1 q.2 p.1 p.2

/-- Pairs do not go down for ever. -/
theorem wellFounded_sinks (hT : T.WellFormed) (hg : T.Grounded) : WellFounded (Sinks T) := by
  have htarget : WellFounded fun a b => a ∈ T.combined b := by
    refine Subrelation.wf (r := fun a b : Ty => a.rank < b.rank) ?_ (measure Ty.rank).wf
    intro a b hab
    exact hT.rank_part (combined_subset_parts hab)
  refine Subrelation.wf (fun {p q} h => ?_) (WellFounded.prod_lex (wellFounded_below hT hg) htarget)
  obtain ⟨a, b⟩ := p
  obtain ⟨s, t⟩ := q
  obtain ⟨⟨-, -, hs, -⟩, hd⟩ := h
  cases hd with
  | sourceMember hm => exact .left _ _ (.member hm)
  | targetMember hm => exact .right _ hm
  | value hv =>
    refine .left _ _ (.value hv ?_)
    obtain ⟨-, hlit⟩ := value_spec hT hs (v := a) (by rw [Ty.enumValue?, hv])
    unfold Table.literal? at hlit
    cases hsa : T.shape a <;> simp [hsa] at hlit
    rfl
  | values he hu => exact .left _ _ (.values he hu)
  | bound hv => exact .left _ _ (.bound hv)

/-- What goes down in a table still does in a later one. -/
theorem Sinks.of_le {T1 : Table} (hT : T.WellFormed) (h : T ≤ T1) {q : Ty × Ty}
    (hpq : Sinks T p q) : Sinks T1 p q := by
  obtain ⟨a, b⟩ := p
  obtain ⟨s, t⟩ := q
  obtain ⟨⟨ha, hb, hs, ht⟩, hd⟩ := hpq
  have hcombined : ∀ {u : Ty}, T.Has u → T1.combined u = T.combined u := by
    intro u hu
    rw [Table.combined, Table.combined, Table.shape_of_le h hu]
  refine ⟨⟨Table.has_of_le h ha, Table.has_of_le h hb, Table.has_of_le h hs, Table.has_of_le h ht⟩,
    ?_⟩
  cases hd with
  | sourceMember hm => exact .sourceMember ((hcombined hs).symm ▸ hm)
  | targetMember hm => exact .targetMember ((hcombined ht).symm ▸ hm)
  | value hv => exact .value ((Table.shape_of_le h hs).trans hv)
  | values he hu =>
    refine .values ((Table.shape_of_le h hs).trans he) fun m hm => ?_
    rw [Table.members_of_le h ha] at hm
    rw [Table.shape_of_le h (hT.has_member ha hm)]
    exact hu m hm
  | bound hv =>
    rw [← Table.typeVar_of_le h (knows_of_shape hT hv)]
    exact .bound ((Table.shape_of_le h hs).trans hv)

end Order

end Assign

namespace Table

variable {T1 : Table}

theorem leadsTo_of_shapes (hT : T.WellFormed) (hshape : ∀ t, T.Has t → T1.shape t = T.shape t)
    {u : Ty} (ht : T.Has t) (hlead : T1.LeadsTo t u) : T.LeadsTo t u ∧ T.Has u := by
  induction hlead with
  | self t => exact ⟨.self t, ht⟩
  | @member t m u hm _ ih =>
    rw [combined, hshape t ht, ← combined] at hm
    obtain ⟨hu, hhas⟩ := ih (Assign.has_combined hT ht hm)
    exact ⟨.member hm hu, hhas⟩

theorem has_of_bound (hT : T.WellFormed) {b : Ty}
    (hb : (T.typeVar v).bound = some b) : T.Has b := by
  cases hinfo : T.typeVars[v.number]? with
  | none =>
    simp only [typeVar, hinfo, Option.getD_none] at hb
    exact absurd hb (by simp)
  | some info =>
    simp only [typeVar, hinfo, Option.getD_some] at hb
    exact (hT.typeVars _ _ hinfo).1 b hb

/-- Where the types and the type parameters stay, bounds lead where they led. -/
theorem Grounded.of_shapes (hg : T.Grounded) (hT : T.WellFormed)
    (hshape : ∀ t, T.Has t → T1.shape t = T.shape t) (hvars : T1.typeVars = T.typeVars) :
    T1.Grounded := by
  refine Subrelation.wf ?_ hg
  rintro w v ⟨b, u, hb, hu, hw⟩
  rw [typeVar, hvars, ← typeVar] at hb
  obtain ⟨hlead, hhas⟩ := leadsTo_of_shapes hT hshape (has_of_bound hT hb) hu
  exact ⟨b, u, hb, hlead, (hshape u hhas).symm.trans hw⟩

theorem Grounded.of_adds (hg : T.Grounded) (hT : T.WellFormed) (h : T.Adds T1) : T1.Grounded :=
  hg.of_shapes hT (fun _ ht => shape_of_le h.le ht) h.typeVars

end Table

namespace Assign

open Relation

/-- The decision confined to a set of pairs: it is cut off at the given depth, where everything is
taken to hold, and has no result when it meets a pair outside of the set. Unless it is allowed to
meet pairs again, it has no result either when it meets one a second time under the same
assumptions. -/
def exploreAt (P : Finset (Ty × Ty)) (again : Bool) :
    Nat → List (Ty × Ty) → List (Ty × Ty) → Compare
  | 0, _, _, _, _ => return true
  | depth + 1, assumed, met, s, t =>
    if (s, t) ∈ P ∧ (again = true ∨ (s, t) ∉ met) then
      step (assumed.contains (s, t)) (exploreAt P again depth assumed ((s, t) :: met))
        (exploreAt P again depth ((s, t) :: assumed) []) s t
    else Typing.outOfSteps

/-- The comparison of the two types meets only finitely many pairs, however far it is followed. -/
def MeetsFinitely (T : Table) (s t : Ty) : Prop :=
  ∃ P : Finset (Ty × Ty), ∀ d, ∃ n, (exploreAt P true d [] [] s t n T).isSome

/-- The comparison of the two types meets only finitely many pairs, and none of them again before it
has assumed one. -/
def MeetsOnce (T : Table) (s t : Ty) : Prop :=
  ∃ P : Finset (Ty × Ty), ∀ d, ∃ n, (exploreAt P false d [] [] s t n T).isSome

theorem works_resolve (hT : T.Sound) (ht : T.Has t) : Typing.Works .lasting T t.resolve Table.Has :=
  ⟨Ty.lasting_resolve hT ht, fun _ => Ty.resolve_ends hT ht⟩

/-- The decision keeps to every regime in which resolution does, and more depth changes nothing. -/
theorem runs_decideAt {K : Regime}
    (hresolve : ∀ T u, K.ok T → T.Has u → Typing.Works K T u.resolve Table.Has) {d' : Nat}
    (hd : d ≤ d') (pairs : List (Ty × Ty)) (hT : K.ok T) (hs : T.Has s) (ht : T.Has t) :
    Typing.Runs K T (decideAt d pairs s t) (decideAt d' pairs s t) fun _ _ => True := by
  induction d generalizing d' pairs T s t with
  | zero => exact Typing.runs_outOfSteps
  | succ d ih =>
    obtain ⟨d', rfl⟩ : ∃ k, d' = k + 1 := ⟨d' - 1, by omega⟩
    refine (rule_step_all hresolve (pairs.contains (s, t)) hT hs ht).runs hT
      (fun inner => decideAt d (if inner then (s, t) :: pairs else pairs))
      (fun inner => decideAt d' (if inner then (s, t) :: pairs else pairs)) ?_
    intro inner a b T1 hT1 _ hask
    obtain ⟨ha, hb, -⟩ := hask.all
    exact ih (by omega) _ hT1 ha hb

/-- How deep a comparison inside a set of pairs can go on, with so many pairs assumed and so many
met since the last assumption. -/
def budget (P : Finset (Ty × Ty)) (assumed met : List (Ty × Ty)) : Nat :=
  (P.card - assumed.length) * (P.card + 1) + (P.card - met.length)

theorem length_le_card {pairs : List (Ty × Ty)} (hnodup : pairs.Nodup)
    (hsub : ∀ p ∈ pairs, p ∈ P) : pairs.length ≤ P.card := by
  rw [← List.toFinset_card_of_nodup hnodup]
  apply Finset.card_le_card
  intro p hp
  exact hsub p (List.mem_toFinset.mp hp)

/-- An assumption uses up more than all pairs met in between. -/
theorem budget_assume (hlen : (p :: assumed).length ≤ P.card) (met : List (Ty × Ty)) :
    budget P (p :: assumed) [] < budget P assumed met := by
  unfold budget
  obtain ⟨k, hk⟩ : ∃ k, P.card = assumed.length + 1 + k := ⟨_, (Nat.add_sub_of_le hlen).symm⟩
  have hleft : P.card - (p :: assumed).length = k := by
    rw [List.length_cons]
    omega
  have hright : P.card - assumed.length = k + 1 := by omega
  rw [hleft, hright, Nat.succ_mul]
  simp only [List.length_nil]
  omega

theorem budget_meet (hlen : (p :: met).length ≤ P.card) (assumed : List (Ty × Ty)) :
    budget P assumed (p :: met) < budget P assumed met := by
  unfold budget
  rw [List.length_cons] at hlen ⊢
  omega

/-- A confined decision that is followed far enough is not cut off. -/
theorem runs_exploreAt (P : Finset (Ty × Ty)) (hT : T.Sound) (hs : T.Has s) (ht : T.Has t)
    (hassumed : assumed.Nodup ∧ ∀ p ∈ assumed, p ∈ P) (hmet : met.Nodup ∧ ∀ p ∈ met, p ∈ P)
    (hd : budget P assumed met < d) :
    Typing.Runs .lasting T (exploreAt P false d assumed met s t) (decideAt d assumed s t)
      fun _ _ => True := by
  induction d generalizing assumed met T s t with
  | zero => exact absurd hd (by omega)
  | succ d ih =>
    unfold exploreAt decideAt
    split
    · next hnew =>
      obtain ⟨hmem, hnew⟩ := hnew
      have hcons : ∀ {ps : List (Ty × Ty)}, (s, t) ∉ ps → (ps.Nodup ∧ ∀ p ∈ ps, p ∈ P) →
          ((s, t) :: ps).Nodup ∧ ∀ p ∈ (s, t) :: ps, p ∈ P :=
        fun hnot h => ⟨h.1.cons hnot, List.forall_mem_cons.mpr ⟨hmem, h.2⟩⟩
      refine (rule_step_all (fun T u => works_resolve) (assumed.contains (s, t)) hT hs ht).runs hT
        (fun inner => if inner then exploreAt P false d ((s, t) :: assumed) []
          else exploreAt P false d assumed ((s, t) :: met))
        (fun inner => decideAt d (if inner then (s, t) :: assumed else assumed)) ?_
      intro inner a b T1 hT1 h1 hask
      obtain ⟨ha, hb, hask⟩ := hask.all
      cases inner with
      | true =>
        have hassumed' := hcons (by simpa using hask) hassumed
        have hless := budget_assume (length_le_card hassumed'.1 hassumed'.2) met
        rw [if_pos rfl, if_pos rfl]
        exact ih hT1 ha hb hassumed' ⟨List.nodup_nil, by simp⟩ (by omega)
      | false =>
        have hmet' := hcons (by simpa using hnew) hmet
        have hless := budget_meet (length_le_card hmet'.1 hmet'.2) assumed
        rw [if_neg Bool.false_ne_true, if_neg Bool.false_ne_true]
        exact ih hT1 ha hb hassumed hmet' (by omega)
    · exact Typing.runs_outOfSteps

/-- Where bounds do not lead on for ever, no pair is met again: pairs go down. -/
theorem runs_once (P : Finset (Ty × Ty))
    (hT : T.Sound) (hg : T.Grounded) (hs : T.Has s) (ht : T.Has t)
    (hbelow : ∀ p ∈ met, TransGen (Sinks T) (s, t) p) :
    Typing.Runs .lasting T (exploreAt P true d assumed met s t)
    (exploreAt P false d assumed met s t)
      fun _ _ => True := by
  induction d generalizing assumed met T s t with
  | zero => exact Typing.runs_pure hT trivial
  | succ d ih =>
    have hnew : (s, t) ∉ met := fun hin =>
      ((wellFounded_sinks hT.wellFormed hg).transGen.irrefl).irrefl _ (hbelow _ hin)
    unfold exploreAt
    by_cases hmem : (s, t) ∈ P
    · rw [if_pos ⟨hmem, .inl rfl⟩, if_pos ⟨hmem, .inr hnew⟩]
      refine (rule_step_all (fun T u => works_resolve) (assumed.contains (s, t)) hT hs ht).runs hT
        (fun inner => if inner then exploreAt P true d ((s, t) :: assumed) []
          else exploreAt P true d assumed ((s, t) :: met))
        (fun inner => if inner then exploreAt P false d ((s, t) :: assumed) []
          else exploreAt P false d assumed ((s, t) :: met)) ?_
      intro inner a b T1 hT1 h1 hask
      obtain ⟨ha, hb, hask⟩ := hask.all
      have hg1 := hg.of_adds hT.wellFormed h1
      cases inner with
      | true => exact ih hT1 hg1 ha hb (by simp)
      | false =>
        have hsink : Sinks T1 (a, b) (s, t) :=
          ⟨⟨ha, hb, Table.has_of_le h1.le hs, Table.has_of_le h1.le ht⟩, hask⟩
        refine ih hT1 hg1 ha hb fun p hp => ?_
        rcases List.mem_cons.mp hp with rfl | hp
        · exact .single hsink
        · have hle : Sinks T ≤ Sinks T1 := fun _ _ => Sinks.of_le hT.wellFormed h1.le
          exact .head hsink (TransGen.mono hle _ _ (hbelow p hp))
    · rw [if_neg fun h => hmem h.1, if_neg fun h => hmem h.1]
      exact Typing.runs_outOfSteps

theorem MeetsFinitely.once (h : MeetsFinitely T s t) (hT : T.Sound)
    (hg : T.Grounded) (hs : T.Has s) (ht : T.Has t) : MeetsOnce T s t := by
  obtain ⟨P, hP⟩ := h
  refine ⟨P, fun d => ?_⟩
  obtain ⟨n, hn⟩ := hP d
  obtain ⟨⟨b, T1⟩, hrun⟩ := Option.isSome_iff_exists.mp hn
  obtain ⟨hat, -⟩ := runs_once P hT hg hs ht (by simp) n b T1 hrun
  exact ⟨n, Option.isSome_iff_exists.mpr ⟨_, hat.more n (Nat.le_refl n)⟩⟩

/-- **Comparisons end** when they meet finitely many pairs, and none again before they assume
one. -/
theorem decideAt_ends (hT : T.Sound) (hs : T.Has s) (ht : T.Has t) (hfinite : MeetsOnce T s t) :
    ∃ n b T1, ∀ m, n ≤ m → decideAt m [] s t m T = some (b, T1) := by
  obtain ⟨P, hP⟩ := hfinite
  obtain ⟨n, hn⟩ := hP (budget P [] [] + 1)
  obtain ⟨⟨b, T1⟩, hrun⟩ := Option.isSome_iff_exists.mp hn
  obtain ⟨hat, -⟩ := runs_exploreAt P hT hs ht ⟨List.nodup_nil, by simp⟩
    ⟨List.nodup_nil, by simp⟩ (Nat.lt_succ_self _) n b T1 hrun
  refine ⟨max n (budget P [] [] + 1), b, T1, fun m hm => ?_⟩
  have hdeeper : budget P [] [] + 1 ≤ m := by omega
  obtain ⟨hmore, -⟩ := runs_decideAt (K := .lasting) (fun T u => works_resolve) hdeeper [] hT hs ht
    n b T1 (hat.more n (Nat.le_refl n))
  exact hmore.more m (by omega)

end Assign

end ShapeCheck
