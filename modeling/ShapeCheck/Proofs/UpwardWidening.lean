import ShapeCheck.Proofs.Calling
import ShapeCheck.Proofs.DataAnswers
import ShapeCheck.Proofs.PropertyAgreement
import ShapeCheck.Proofs.SplitSides
import ShapeCheck.Proofs.Widening

/-!
# Widening goes up

A literal fits its primitive and a member of an enum its enum, so a type fits what it is widened to:
a union member by member, an object, an array or a tuple part by part.

Index signatures are not widened, and an object with one takes only objects whose fields in its
range fit its values. Nothing says that its own fields do. Where they do not, a widened object no
longer takes the object that it was made of. Nor does it where the answer is kept from a time when
an enum in the object had no members yet.

* `Assign.unfolds_renewed` compares a structure with one in which parts are replaced.
* `Assign.Raised` are the pairs of types that widening makes, `Assign.Raised.holds` says that they
  fit.
* `Ty.widen_upward` is the result for the two ways to widen.
-/

namespace ShapeCheck

variable {s : Shape} {b : Bool} {x : Typing Bool} {m : Members}

open Table
open Relation (ReflTransGen)

/-- The fields in the range of an object's index signature, each with the type of the signature's
values. -/
def Shape.ranged : Shape → List (Ty × Ty)
  | .object m => m.index.toList.flatMap fun i =>
      (m.fields.filter fun f => i.key = .string || Decimal.isNumeric f.name).map fun f =>
      (f.type, i.value)
  | _ => []

theorem Shape.mem_parts_of_ranged {q : Ty × Ty} (hq : q ∈ s.ranged) :
    q.1 ∈ s.parts ∧ q.2 ∈ s.parts := by
  cases s with
  | object m =>
    obtain ⟨i, hi, hq⟩ := List.mem_flatMap.mp hq
    obtain ⟨f, hf, rfl⟩ := List.mem_map.mp hq
    obtain ⟨hfields, hindex, -⟩ := forall_parts_object
      (P := (· ∈ (Shape.object m).parts)).mp fun _ => id
    exact ⟨hfields f (List.mem_filter.mp hf).1, hindex i (Option.mem_toList.mp hi)⟩
  | _ => exact absurd hq List.not_mem_nil

theorem Shape.isAtom_of_isContainer (h : s.isContainer = true) : s.isAtom = false := by
  cases s <;> first | rfl | exact absurd h (by simp [isContainer])

namespace Table

/-- Whatever calls follow, the answer to the question whether the first type fits the second is
`true`. -/
def Fitting (T : Table) (s t : Ty) : Prop :=
  ∀ U, ReflTransGen Called T U → ∀ n b U1, s.isAssignableTo t n U = some (b, U1) → b = true

/-- In every object in the type that has something to widen, the fields in the range of the index
signature fit the signature's values. -/
inductive Consistent (fits : Table → Ty → Ty → Prop) (T : Table) : Ty → Prop
  | wide {t : Ty} (h : T.Wide t) : Consistent fits T t
  | parts {t : Ty} (hranged : ∀ q ∈ (T.shape t).ranged, fits T q.1 q.2)
    (hparts : ∀ p ∈ (T.shape t).widenedParts, Consistent fits T p) : Consistent fits T t

section Asking

variable {E : Set Ty} {fits r : Table → Ty → Ty → Prop} {T U V : Table} {s t : Ty}

/-- Finitely many pairs have to fit. -/
theorem Consistent.exists_pairs (h : T.Consistent fits t) (hT : T.WellFormed) (ht : T.DataOf E t) :
    ∃ pairs : List (Ty × Ty), (∀ q ∈ pairs, T.DataOf E q.1 ∧ T.DataOf E q.2 ∧ fits T q.1 q.2) ∧
      ∀ V, T.Includes Set.univ V → (∀ q ∈ pairs, r V q.1 q.2) → V.Consistent r t := by
  induction h with
  | wide h =>
    exact ⟨[], by simp, fun V hV _ =>
      .wide (h.of_shapes hT (fun _ => hV.lists.has) fun u hu => hV.same u (Set.mem_univ u) hu)⟩
  | @parts t hranged _ ih =>
    choose pairs hpairs hconsistent using fun p hp =>
      ih p hp (ht.part (Shape.mem_parts_of_widened hp))
    refine ⟨(T.shape t).ranged ++ (T.shape t).widenedParts.attach.flatMap fun p => pairs p.1 p.2,
      fun q hq => ?_, fun V hV hfits => ?_⟩
    · rcases List.mem_append.mp hq with hq | hq
      · obtain ⟨h1, h2⟩ := Shape.mem_parts_of_ranged hq
        exact ⟨ht.part h1, ht.part h2, hranged q hq⟩
      · obtain ⟨p, -, hq⟩ := List.mem_flatMap.mp hq
        exact hpairs p.1 p.2 q hq
    · have hshape := hV.same t (Set.mem_univ t) ht.has
      refine .parts (fun q hq => ?_) fun p hp => ?_
      · rw [hshape] at hq
        exact hfits q (List.mem_append_left _ hq)
      · rw [hshape] at hp
        refine hconsistent p hp V hV fun q hq => hfits q (List.mem_append_right _ ?_)
        exact List.mem_flatMap.mpr ⟨⟨p, hp⟩, List.mem_attach _ _, hq⟩

/-- Pairs of data that fit can be asked about in turn, and the answers are given again. -/
theorem exists_repeatable (hU : ReflTransGen (Timely E) {} U) (pairs : List (Ty × Ty))
    (h : ∀ q ∈ pairs, U.DataOf E q.1 ∧ U.DataOf E q.2 ∧ U.Fitting q.1 q.2) :
    ∃ V, ReflTransGen Called U V ∧ ∀ q ∈ pairs, V.Repeatable E q.1 q.2 true := by
  induction pairs generalizing U with
  | nil => exact ⟨U, .refl, by simp⟩
  | cons q pairs ih =>
    obtain ⟨hs, ht, hfits⟩ := h q (by simp)
    obtain ⟨n, b, U1, hrun⟩ := Ty.isAssignableTo_data_returns
      (operated_of_timely hU) hs.data ht.data
    have hasked := hrun n le_rfl
    obtain rfl := hfits U .refl n b U1 hasked
    have hcall : U.Called U1 := .assignable hs.has ht.has hasked
    have hincludes : U.Includes E U1 := includes_of_calls (operated_of_timely hU) (.single hcall)
    obtain ⟨V, hcalls, hpairs⟩ := ih (timely_of_calls hU (.single hcall)) fun q' hq' =>
      have ⟨h1, h2, h3⟩ := h q' (List.mem_cons_of_mem q hq')
      ⟨hincludes.dataOf h1, hincludes.dataOf h2, fun W hW => h3 W (.head hcall hW)⟩
    refine ⟨V, .head hcall hcalls, List.forall_mem_cons.mpr ⟨?_, hpairs⟩⟩
    exact (repeatable_of_asked hU hs ht hasked).of_includes
      (includes_of_calls (operated_of_timely (timely_of_calls hU (.single hcall))) hcalls)

/-- A kept answer is given without a look at the types. -/
theorem asked_kept (hfrozen : T.frozen = true) (hkept : T.verdicts.lookup (s, t) = some b)
    (hst : s ≠ t) {n : Nat} {c : Bool} (hrun : s.isAssignableTo t n T = some (c, U)) :
    c = b ∧ U = T := by
  rw [Ty.isAssignableTo_kept hst hfrozen hkept] at hrun
  obtain ⟨rfl, rfl⟩ := Prod.mk.inj (Option.some.inj hrun)
  exact ⟨rfl, rfl⟩

/-- Calls take no kept answer back. -/
theorem Called.keeps (hcall : T.Called U) (hT : T.WellFormed) (hst : s ≠ t)
    (h : T.frozen = true ∧ T.verdicts.lookup (s, t) = some b) :
    U.frozen = true ∧ U.verdicts.lookup (s, t) = some b := by
  cases hcall with
  | construct c hin hfits =>
    obtain ⟨t, T', hrun, -, h', -, -⟩ := Construction.run_spec hT hin hfits
    rwa [hrun, h'.le.frozen, h'.verdicts]
  | declare info hbound hdefault => exact h
  | resolve ht hrun =>
    have hgrows := (Ty.building_resolve hT ht _ _ _ hrun).1.grows
    rwa [hgrows.frozen, hgrows.verdicts]
  | @assignable p q c k _ hp hq hrun =>
    by_cases hsame : (s, t) = (p, q)
    · obtain ⟨rfl, rfl⟩ := Prod.mk.inj hsame
      exact (asked_kept h.1 h.2 hst hrun).2 ▸ h
    rcases asked_building hT hp hq hrun with rfl | ⟨T', -, -, hgrows, rfl⟩
    · exact h
    · rw [(le_keeping p q c T').frozen, lookup_keeping p q c hsame, hgrows.frozen, hgrows.verdicts]
      exact h

theorem fitting_of_kept (hT : ReflTransGen Operated {} T) (hfrozen : T.frozen = true)
    (hkept : T.verdicts.lookup (s, t) = some true) (hst : s ≠ t) : T.Fitting s t := by
  intro U hcalls n b U1 hrun
  have hU : U.frozen = true ∧ U.verdicts.lookup (s, t) = some true := by
    clear hrun
    induction hcalls with
    | refl => exact ⟨hfrozen, hkept⟩
    | tail hcalls hcall ih =>
      exact hcall.keeps (wellFormed_of_operated (operated_of_calls hT hcalls)) hst ih
  exact (asked_kept hU.1 hU.2 hst hrun).1

/-- Data that fits is answered `true` ever after. -/
theorem fitting_of_holds (hT : ReflTransGen (Timely E) {} T) (hs : T.DataOf E s) (ht : T.DataOf E t)
    (h : ∀ V, V.Sound → T.Includes E V → Assign.Holds V s t) : T.Fitting s t := by
  intro U hcalls n b U1 hrun
  have hincludes : T.Includes E U := includes_of_calls (operated_of_timely hT) hcalls
  have hU := timely_of_calls hT hcalls
  have hs' := hincludes.dataOf hs
  have ht' := hincludes.dataOf ht
  have hcall : ReflTransGen Called U U1 := .single (.assignable hs'.has ht'.has hrun)
  have hincludes1 : U.Includes E U1 := includes_of_calls (operated_of_timely hU) hcall
  have hsound := (wellFormed_of_operated (operated_of_calls
    (operated_of_timely hU) hcall)).sound_bare
  exact ((repeatable_of_asked hU hs' ht' hrun).holds_iff hsound (includes_bare U1)
    (hincludes1.lists.has hs'.has)
    (hincludes1.lists.has ht'.has)).mpr (h U1.bare hsound
      ((hincludes.trans hincludes1).trans (includes_bare U1)))

end Asking

end Table

namespace Assign

variable {R : Table → Ty → Ty → Prop} {T T1 : Table} {s t w p : Ty} {image : Ty → Ty}

/-! ## Members and unions -/

/-- What a type is widened to takes it. -/
theorem lasts_widenMember (hT : T.Sound) (ho : T.Orderly) (ht : T.Has t) :
    Lasts T t (Ty.widenMember T t) := by
  rcases widenMember_cases ho t with ⟨-, heq⟩ | ⟨l, hl, heq⟩ | ⟨enum, name, v, e, hs, heq, he⟩
  · rw [heq]
    exact lasts_self T t
  · rw [heq]
    exact lasts_of_plainFits hT ht (T.has_prim _) (.inl ⟨l, hl⟩) rfl (plainFits_base hl)
  · rw [heq]
    obtain ⟨i, rfl⟩ := exists_made (T := T) (t := t) (by rw [hs]; rfl)
    obtain ⟨j, rfl⟩ := exists_made (T := T) (t := enum) (by rw [he]; rfl)
    rcases byIdentity_made (i := i) (t := .made j) (by simp [Ty.never]) with hid | hid
    · exact lasts_of_byIdentity hid T
    -- a member of an enum is compared with an enum by the rule for its own
    refine lasts_of_decideAt (d := 1) (n := 0) hT ht (has_of_shape (by simp [he])) ?_
    unfold decideAt
    rw [step_resolved hid (by rw [Ty.hasOpenHead, hs]) (by simp [hs, Shape.IsUnion])
      (by rw [he]; rfl)]
    unfold stepResolved toEnum
    rw [Typing.get_bind]
    simp only [he, hs, decide_true]
    rfl

/-- Data that is no union is near what it is widened to, and a union fits it as a whole. -/
theorem fitted_widen (hT : T.Sound) (ho : T.Orderly) (ht : T.Data t) (hrun : t.widen T = (w, T)) :
    Fitted T t w := by
  have hread : ∀ f : Table → Interning Ty, (get >>= f) T = f T T := fun _ => rfl
  have hwf := hT.wellFormed
  rw [Ty.widen, hread] at hrun
  cases hs : T.shape t with
  | union ms =>
    simp only [hs] at hrun
    have hcanonical := hwf.canonical_union hs
    have hdata : ∀ m ∈ ms, T.Data m := fun m hm => ht.part (by rw [hs]; exact hm)
    refine .inl ⟨t, resolvesTo_of_closed ht.closed, ht.closed, fun m hm => ?_⟩
    rw [members_of_union hs] at hm
    have hwide := not_isUnion_widenMember ho (hwf.not_isUnion hs hm)
    refine part_unionOf hT (fun x hx => ?_) hrun (List.mem_map_of_mem hm)
      (members_of_not_isUnion hwide)
      (lasts_widenMember hT ho (hdata m hm).has) (hdata m hm).has
        (proper_of_canonical hcanonical hm)
      (hdata m hm).closed (hwf.not_isUnion hs hm)
    obtain ⟨k, hk, rfl⟩ := List.mem_map.mp hx
    exact has_widenMember hwf (hdata k hk).has
  | _ =>
    simp only [hs] at hrun
    obtain rfl := congrArg Prod.fst hrun
    exact .inr (.inr (.inl (lasts_widenMember hT ho ht.has)))

/-! ## Structures -/

/-- The work gives `true` at once and leaves the table as it is. -/
def Grants (T : Table) (x : Typing Bool) : Prop := ∀ n, x n T = some (true, T)

theorem grants_pure : Grants T (pure true) := fun _ => rfl

theorem grants_ask {a b : Ty} (h : R T a b) : Grants T (asking R a b) := fun n => by
  rw [asking_eq, truthOf_eq_true h]

theorem Grants.and {y : Typing Bool} (hx : Grants T x) (hy : Grants T y) :
    Grants T (do if ← x then y else return false) := fun n => by
  rw [Typing.bind_of_some (hx n)]
  exact hy n

theorem Grants.confirms (h : Grants T x) : Confirms T x := ⟨0, T, fun n _ => h n⟩

theorem grants_all {α : Type} {test : α → Typing Bool} {xs : List α}
    (h : ∀ x ∈ xs, Grants T (test x)) :
    Grants T (all test xs) := by
  induction xs with
  | nil => exact grants_pure
  | cons x xs ih =>
    exact (h x (by simp)).and (ih fun y hy => h y (List.mem_cons_of_mem x hy))

/-- A field is found in an object under its name. -/
theorem grants_field {f g : Field} (hs : T.shape s = .object m)
    (hf : m.field? g.name = some f) (hoptional : g.optional = f.optional) (h : R T f.type g.type) :
    Grants T (field (asking R) s g) := by
  intro n
  have hown : s.ownField? g.name n T = some (some f, T) := by
    unfold Ty.ownField?
    rw [Typing.get_bind, hs, ← hf]
    rfl
  unfold field
  rw [Typing.bind_of_some hown]
  have hpresent : (f.optional && !g.optional) = false := by
    rw [hoptional]
    cases f.optional <;> rfl
  simp only [found, hpresent, Bool.false_eq_true, if_false]
  exact grants_ask h n

/-- The index signature of an object takes the object if it takes the fields in its range. -/
theorem grants_index {i : Index} (hs : T.shape s = .object m) (hi : m.index = some i)
    (hranged : ∀ q ∈ (Shape.object m).ranged, R T q.1 q.2) (hself : ∀ a, R T a a) :
    Grants T (index (asking R) s i) := by
  intro n
  unfold index
  rw [Typing.get_bind, hs]
  refine Grants.and (grants_all fun f hf => grants_ask (hranged (f.type, i.value) ?_)) ?_ n
  · exact List.mem_flatMap.mpr ⟨i, by simp [hi], List.mem_map_of_mem hf⟩
  · rw [hi]
    simp only [decide_true, Bool.true_or, if_true]
    exact grants_ask (hself i.value)

/-- A tuple is compared place by place with one in which the types are replaced. -/
theorem grants_tuples {u : Tuple} (h : ∀ e ∈ u.elements, R T e (image e)) :
    Grants T (tuples (asking R) u (u.mapTypes image)) := by
  obtain ⟨hslots, hrest⟩ := Tuple.forall_elements.mp h
  have hplaces (a b : Option Ty) (xs : List Slot) (hxs : ∀ x ∈ xs, R T x.type (image x.type)) :
      Grants T (slots (asking R) a b xs (xs.map fun x => { x with type := image x.type })) := by
    induction xs with
    | nil =>
      rw [List.map_nil, slots]
      exact grants_pure
    | cons x xs ih =>
      intro n
      rw [List.map_cons, slots]
      cases x.optional <;> exact Grants.and (grants_ask (hxs x (by simp)))
        (ih fun y hy => hxs y (List.mem_cons_of_mem x hy)) n
  refine Grants.and (hplaces _ _ u.slots hslots) ?_
  cases hr : u.rest with
  | none => exact grants_pure
  | some r =>
    simp only [Tuple.mapTypes, hr, Option.map_some]
    exact grants_ask (hrest r hr)

/-- An object is compared field by field with one in which the types of the fields are replaced. -/
theorem grants_toObject {k : Members} (hs : T.shape s = .object m) (hcalls : m.calls.isEmpty = true)
    (hnames : (k.fields.map Field.name).Nodup) (h : (Shape.object m).Renewed image (.object k))
    (hparts : ∀ p ∈ (Shape.object m).widenedParts, R T p (image p))
    (hranged : ∀ q ∈ (Shape.object m).ranged, R T q.1 q.2) (hself : ∀ a, R T a a) :
    Grants T (toObject (asking R) s k) := by
  obtain ⟨hfields, hindex, hsame⟩ := h
  refine Grants.and (grants_all fun g hg => ?_) (Grants.and (grants_all fun i hi => ?_) ?_)
  · have hfound := (Members.mem_fields_iff hnames).mp hg
    rw [hfields] at hfound
    obtain ⟨f, hf, rfl⟩ := Option.map_eq_some_iff.mp hfound
    exact grants_field hs hf rfl (hparts f.type (List.mem_map_of_mem (Members.mem_of_field? hf).1))
  · rw [hindex] at hi
    exact grants_index hs (Option.mem_toList.mp hi) hranged hself
  · rw [hsame, hcalls]
    exact grants_pure

theorem isNullish_made (i : Nat) : (Ty.made i).isNullish = false := rfl

/-- **A structure fits one in which parts are replaced** if they fit what replaces them, and the
fields of an object its index signature. -/
theorem unfolds_renewed (hwf : T.WellFormed) (hdatum : (T.shape s).isDatum = true)
    (hrenewed : (T.shape s).Renewed image (T.shape w)) (hs : (T.shape s).isContainer = true)
    (hparts : ∀ p ∈ (T.shape s).widenedParts, R T p (image p))
    (hranged : ∀ q ∈ (T.shape s).ranged, R T q.1 q.2) (hself : ∀ a, R T a a) : Unfolds R T s w := by
  have hw := hrenewed.isContainer
  have hsplain := Shape.isPlain_of_isContainer hs
  have hwplain := Shape.isPlain_of_isContainer hw
  obtain ⟨i, rfl⟩ := exists_made (Shape.isAtom_of_isContainer hs)
  obtain ⟨j, rfl⟩ := exists_made (Shape.isAtom_of_isContainer hw)
  rcases byIdentity_made (i := i) (t := .made j) (by simp [Ty.never]) with hid | hid
  · exact (unfolds_byIdentity hid).mpr rfl
  rw [unfolds_resolved hid (Ty.hasOpenHead_of_isPlain hsplain) (not_isUnion_of_isPlain hsplain)
    (not_isReference_of_isPlain hwplain)]
  refine Grants.confirms fun n => ?_
  cases hsource : T.shape (.made i) with
  | object m =>
    rw [hsource] at hrenewed hparts hranged hdatum
    cases htarget : T.shape (.made j) with
    | object k =>
      rw [htarget] at hrenewed
      have hnames := hwf.tidy (.made j)
      rw [htarget] at hnames
      cases hempty : k.isEmpty with
      | true =>
        -- the empty object takes every structure
        exact stepResolved_atom hsplain hwplain
          (by simp [byAtom, htarget, hempty, isNullish_made]) false _ _
      | false =>
        rw [stepResolved_object hsplain htarget hempty, isNullish_made]
        exact grants_toObject hsource hdatum hnames hrenewed hparts hranged hself n
    | _ =>
      rw [htarget] at hrenewed
      exact hrenewed.elim
  | array e readonly =>
    rw [hsource] at hrenewed hparts
    have htarget : T.shape (.made j) = .array (image e) readonly := hrenewed
    rw [stepResolved_structural hsplain hwplain (by simp [byAtom, htarget, isNullish_made])]
    unfold structural
    rw [Typing.get_bind, htarget, hsource]
    exact grants_ask (hparts e (List.mem_singleton_self e)) n
  | tuple u =>
    rw [hsource] at hrenewed hparts
    have htarget : T.shape (.made j) = .tuple (u.mapTypes image) := hrenewed
    rw [stepResolved_structural hsplain hwplain (by simp [byAtom, htarget, isNullish_made])]
    unfold structural
    rw [Typing.get_bind, htarget, hsource]
    exact grants_tuples hparts n
  | _ => simp [hsource, Shape.isContainer] at hs

/-! ## Deep widening -/

/-- The second type is what deep widening makes of the first one, with the table as it is. -/
structure Raised (T : Table) (s w : Ty) : Prop where
  orderly : T.Orderly
  data : T.Data s
  consistent : T.Consistent Lasts s
  widened : ∃ d, s.rank < d ∧ Interning.Rests T (Ty.deepWidenAt d s) ∧ (Ty.deepWidenAt d s T).1 = w

/-- One layer of the rules confirms what deep widening makes, by what it makes of the parts. -/
theorem Raised.unfolds (h : Raised T s w) (hT : T.Sound) (hs : T.Has s) (hw : T.Has w)
    (hR : ∀ T s t, Raised T s t ∨ Fitted T s t → R T s t) : Unfolds R T s w := by
  obtain ⟨ho, hdata, hconsistent, d, hd, hrests, rfl⟩ := h
  have hwf := hT.wellFormed
  have hlasts {a b : Ty} (h : Lasts T a b) : R T a b := hR T a b (.inr (.inr (.inr (.inl h))))
  obtain ⟨d, rfl⟩ : ∃ k, d = k + 1 := ⟨d - 1, by omega⟩
  cases hcontainer : (T.shape s).isContainer with
  | false =>
    refine (fitted_widen hT ho hdata ?_).unfolds hT hs hw fun T s t h => hR T s t (.inr h)
    rw [← Interning.deepWidenAt_of_not_container hcontainer d]
    exact hrests T le_rfl
  | true =>
    cases hconsistent with
    | wide hwide =>
      rw [hwide.deepWidenAt hwf ho]
      exact (unfolds_byIdentity (b := true) (by simp [byIdentity])).mpr rfl
    | parts hranged hparts =>
      have hrank {p : Ty} (hp : p ∈ (T.shape s).widenedParts) : p.rank < d := by
        have := hwf.rank_part (Shape.mem_parts_of_widened hp)
        omega
      have hlayer := Interning.makes_deepWiden_container hwf (ho.standard s) hs hcontainer
        fun p hp T1 hT1 h1 => (Interning.makes_deepWidenAt hT1 (h1.orderly ho)
          (has_of_le h1.le (hdata.part (Shape.mem_parts_of_widened hp)).has) (hrank hp)).imp
            fun _ _ _ _ h => h.1.has
      obtain ⟨-, hrest, hrenewed⟩ := hlayer.settles.of_rests hrests
      refine unfolds_renewed hwf hdata.isDatum hrenewed hcontainer (fun p hp => hR _ _ _ (.inl ?_))
        (fun q hq => hlasts (hranged q hq)) fun a => hlasts (lasts_self T a)
      exact ⟨ho, hdata.part (Shape.mem_parts_of_widened hp), hparts p hp, d,
        hrank hp, hrest p hp, rfl⟩

/-- **What deep widening makes takes what it was made of.** -/
theorem Raised.holds (h : Raised T s w) : Holds T s w := by
  refine ⟨fun T s t => Raised T s t ∨ Fitted T s t, fun T s t hT hs ht h => ?_, .inl h⟩
  rcases h with h | h
  · exact h.unfolds hT hs ht fun _ _ _ => id
  · exact h.unfolds hT hs ht fun _ _ _ => .inr

end Assign

namespace Interning

/-! ## Widening reads the entries -/

theorem respects_widen {R : Table → Table → Prop} (hR : Parallel True R) (t : Ty) :
    Respects R t.widen := by
  refine respects_get_bind (fun T U h => ?_) fun T => ?_
  · have hshape := (hR.fill trivial h).1
    have hmember : Ty.widenMember U = Ty.widenMember T := by
      funext m
      rw [Ty.widenMember, Ty.widenMember, hshape]
    rw [hshape, hmember]
  · cases T.shape t with
    | union ms => exact respects_unionOf hR _
    | _ => exact respects_pure _

theorem constructs_widen (t : Ty) : Constructs t.widen :=
    .of_respects fun _ hR => respects_widen hR t

theorem constructs_deepWidenAt (d : Nat) (t : Ty) : Constructs (Ty.deepWidenAt d t) :=
  .of_respects fun R hR => by
    induction d generalizing t with
    | zero => exact respects_pure t
    | succ d ih =>
      refine respects_get_bind (fun T U h => by rw [(hR.fill trivial h).1]) fun T => ?_
      cases T.shape t with
      | object m =>
        refine (respects_mapM (fun f : Field => (ih f.type).bind fun _ => respects_pure _) _).bind
          fun fs => ?_
        split
        · exact respects_pure t
        · exact respects_intern hR (.inl trivial)
      | array e readonly => exact (ih e).bind fun _ => respects_intern hR (.inl trivial)
      | tuple u =>
        exact (respects_rebuildTuple ih u).bind fun _ => respects_intern hR (.inl trivial)
      | _ => exact respects_widen hR t

end Interning

/-! ## The two ways to widen -/

namespace Table

/-- However the table is used after a type has been widened, the result is found again when it is
widened itself, and takes the type if the two can be compared. -/
def WidensUp (T : Table) (widening : Ty → Interning Ty) (t : Ty) (comparable : Prop) : Prop :=
  ∀ T1, ReflTransGen Called (widening t T).2 T1 →
    widening (widening t T).1 T1 = ((widening t T).1, T1) ∧
      (comparable → Typing.Calls T1 (t.isAssignableTo (widening t T).1) fun _ b => b = true)

variable {E : Set Ty} {T T1 T2 : Table} {s t w : Ty}

/-- Data can be asked about, so it suffices that the answer is right. -/
theorem calls_assignable (hT : ReflTransGen Operated {} T) (hs : T.Data s) (ht : T.Data t)
    (h : ∀ n b T1, s.isAssignableTo t n T = some (b, T1) → b = true) :
    Typing.Calls T (s.isAssignableTo t) fun _ b => b = true := by
  obtain ⟨n, b, T1, hrun⟩ := Ty.isAssignableTo_data_returns hT hs ht
  exact ⟨n, b, T1, hrun, .single (.assignable hs.has ht.has (hrun n le_rfl)),
    h n b T1 (hrun n le_rfl)⟩

theorem SaysAlike.widenMember (h : T.SaysAlike T1 t) :
    Ty.widenMember T1 t = Ty.widenMember T t := by
  rw [Ty.widenMember, Ty.widenMember]
  rcases h with h | ⟨old, new, hold, hnew⟩
  · rw [h]
  · rw [hold, hnew]

/-- What a type is widened to later it was widened to as soon as both were there. -/
theorem widen_of_lists (hT : T.WellFormed) (hT1 : T1.WellFormed)
    (hlists : T.Lists T1) (ht : T.Has t)
    (hw : T.Has w) (hrun : t.widen T1 = (w, T1)) : t.widen T = (w, T) := by
  have hread (U : Table) : ∀ f : Table → Interning Ty, (get >>= f) U = f U U := fun _ => rfl
  rw [Ty.widen, hread] at hrun ⊢
  have halike := hlists.saysAlike ht
  cases hs : T.shape t with
  | union ms =>
    have hs1 : T1.shape t = .union ms := by
      rcases halike with h | ⟨old, new, hold, -⟩
      · rw [h, hs]
      · simp [hs] at hold
    have hhas : ∀ m ∈ ms, T.Has m := fun m hm => hT.has_part ht (by rw [hs]; exact hm)
    have hmembers : ms.map (Ty.widenMember T1) = ms.map (Ty.widenMember T) :=
      List.map_congr_left fun m hm => (hlists.saysAlike (hhas m hm)).widenMember
    rw [hs1] at hrun
    dsimp only at hrun ⊢
    rw [hmembers] at hrun
    have hts : ∀ x ∈ ms.map (Ty.widenMember T), T.Has x :=
      List.forall_mem_map.mpr fun m hm => has_widenMember hT (hhas m hm)
    obtain ⟨u, T', hat, -, hstands⟩ := Interning.settles_unionOf hT1 fun x hx =>
      hlists.has (hts x hx)
    obtain ⟨rfl, rfl⟩ := Prod.mk.inj (hrun.symm.trans hat.result)
    have hfound : Interning.Stands T (Ty.unionMembers T (ms.map (Ty.widenMember T))) w :=
      fun m => by
      rw [← (hlists.found hT hts).1, ← (hlists.saysAlike hw).members]
      exact hstands m
    have hsame : Ty.unionOf [w] T = _ := Interning.unionOf_cons hT hfound
    rwa [Interning.unionOf_self hT, List.append_nil, eq_comm] at hsame
  | _ =>
    refine Prod.ext ?_ rfl
    have hsame := halike.widenMember
    rcases halike with h | ⟨old, new, -, hnew⟩
    · rw [h, hs] at hrun
      exact hsame.symm.trans (congrArg Prod.fst hrun)
    · rw [hnew] at hrun
      exact hsame.symm.trans (congrArg Prod.fst hrun)

theorem widensUp_widen (hT : ReflTransGen Operated {} T) (ht : T.Has t) :
    T.WidensUp Ty.widen t (T.Data t) := by
  obtain ⟨w, T1, hat, hcalls, hhas, hbroad, hdata, -⟩ :=
    Interning.makes_widen (wellFormed_of_operated hT)
    (orderly_of_operated hT) ht
  intro T2 hcalls2
  rw [hat.result] at hcalls2 ⊢
  have hT1 := operated_of_calls hT hcalls
  have hT2 := operated_of_calls hT1 hcalls2
  refine ⟨(hbroad.of_shapes hat.wellFormed hhas fun u hu => shape_of_calls hT1 hcalls2 hu).widen
    (wellFormed_of_operated hT2), fun h => ?_⟩
  have hdatas {U : Table} (hcallsU : ReflTransGen Called T1 U) : U.DataOf Set.univ t ∧
    U.DataOf Set.univ w :=
    have hincludes : T1.Includes Set.univ U := includes_of_calls hT1 hcallsU
    ⟨hincludes.dataOf (h.dataOf_univ.of_le hat.adds.le), hincludes.dataOf (hdata _ h.dataOf_univ)⟩
  obtain ⟨ht2, hw2⟩ := hdatas hcalls2
  refine calls_assignable hT2 ht2.data hw2.data fun n b T3 hasked => ?_
  have hcalls3 := hcalls2.tail (.assignable ht2.has hw2.has hasked)
  obtain ⟨ht3, hw3⟩ := hdatas hcalls3
  -- an enum may have been given its members since: the answer is judged where it was found
  obtain ⟨T0, hT0, hincludes, ht0, hw0, hknown⟩ :=
    (recounts_of_timely (timely_of_operated hT2)).answer hT2 ht2.has hw2.has hasked
  have hwf := wellFormed_of_operated hT0
  have hdata0 := ht3.of_lists hwf ht0 hincludes.lists
  have hwiden : t.widen T0 = (w, T0) := widen_of_lists hwf
    (wellFormed_of_operated (operated_of_calls hT1 hcalls3)) hincludes.lists ht0 hw0
    (hat.repeats (Interning.constructs_widen t) (gains_of_calls hT1 hcalls3))
  have hbare : t.widen T0.bare = (w, T0.bare) := by
    rw [(Interning.constructs_widen t).same T0 T0.bare (matches_takeOver {} T0), hwiden]
    rfl
  refine ((hknown Set.univ hdata0 (hw3.of_lists hwf hw0 hincludes.lists)).holds_iff hwf.sound_bare
    (includes_bare T0) ht0 hw0).mpr ?_
  exact (Assign.fitted_widen hwf.sound_bare ((orderly_of_operated hT0).of_entries rfl)
    ((includes_bare T0).dataOf hdata0).data hbare).holds

/-- What deep widening makes is seen in the table without aliases. -/
theorem raised_bare (hT : ReflTransGen Operated {} T) (ht : T.DataOf E t)
    (hconsistent : T.bare.Consistent Assign.Lasts t) {d : Nat} (hd : t.rank < d)
    (hrests : ∀ U, T.bare ≤ U → Ty.deepWidenAt d t U = (w, U)) : Assign.Raised T.bare t w := by
  refine ⟨(orderly_of_operated hT).of_entries rfl, ((includes_bare T).dataOf ht).data, hconsistent,
    d, hd, fun U hU => ?_, by rw [hrests T.bare le_rfl]⟩
  rw [hrests U hU, hrests T.bare le_rfl]

theorem widensUp_deepWiden (hT : ReflTransGen Operated {} T) (ht : T.Has t) :
    T.WidensUp Ty.deepWiden t (T.UpToDate t ∧ T.Consistent Fitting t) := by
  have hwf := wellFormed_of_operated hT
  obtain ⟨w, T1, hat, hcalls, hwide, hdata⟩ :=
    Interning.makes_deepWidenAt hwf (orderly_of_operated hT) ht
    (d := t.rank + 1) (Nat.lt_succ_self t.rank)
  intro T2 hcalls2
  have hresult : t.deepWiden T = (w, T1) := hat.result
  rw [hresult] at hcalls2 ⊢
  have hT1 := operated_of_calls hT hcalls
  have hT2 := operated_of_calls hT1 hcalls2
  refine ⟨(hwide.of_shapes hat.wellFormed (fun u hu => has_of_calls hT1 hcalls2 hu)
    fun u hu => shape_of_calls hT1 hcalls2 hu).deepWidenAt (wellFormed_of_operated hT2)
    (orderly_of_operated hT2) _, ?_⟩
  rintro ⟨⟨E, htimely, h⟩, hconsistent⟩
  have hdatas {U : Table} (hcallsU : ReflTransGen Called T1 U) : U.DataOf E t ∧ U.DataOf E w :=
    have hincludes : T1.Includes E U := includes_of_calls hT1 hcallsU
    ⟨hincludes.dataOf (h.of_le hat.adds.le), hincludes.dataOf (hdata E h)⟩
  obtain ⟨ht2, hw2⟩ := hdatas hcalls2
  refine calls_assignable hT2 ht2.data hw2.data fun n b T3 hasked => ?_
  have hcalls3 := hcalls2.tail (.assignable ht2.has hw2.has hasked)
  have htimely2 := timely_of_calls htimely (hcalls.trans hcalls2)
  -- once the pairs have been asked about, their answers and this one are judged together
  obtain ⟨pairs, hpairs, hfits⟩ := hconsistent.exists_pairs (r := Assign.Lasts) hwf h
  have hdataq {U : Table} (hcallsU : ReflTransGen Called T U) (q) (hq : q ∈ pairs) :
      U.DataOf E q.1 ∧ U.DataOf E q.2 :=
    have hincludes : T.Includes E U := includes_of_calls hT hcallsU
    ⟨hincludes.dataOf (hpairs q hq).1, hincludes.dataOf (hpairs q hq).2.1⟩
  have hcallsT3 := hcalls.trans hcalls3
  have htimely3 := timely_of_calls htimely hcallsT3
  obtain ⟨V, hcallsV, hrepeatable⟩ := exists_repeatable htimely3 pairs fun q hq =>
    ⟨(hdataq hcallsT3 q hq).1, (hdataq hcallsT3 q hq).2,
      fun U hU => (hpairs q hq).2.2 U (hcallsT3.trans hU)⟩
  have hV := operated_of_calls hT1 (hcalls3.trans hcallsV)
  have hsound := (wellFormed_of_operated hV).sound_bare
  obtain ⟨htV, hwV⟩ := hdatas (hcalls3.trans hcallsV)
  have htold : V.Repeatable E t w b := (repeatable_of_asked htimely2 ht2 hw2 hasked).of_includes
    (includes_of_calls (operated_of_timely htimely3) hcallsV)
  refine (htold.holds_iff hsound (includes_bare V) htV.has hwV.has).mpr
    (raised_bare hV htV (hfits V.bare ?_ fun q hq => ?_) (Nat.lt_succ_self _) fun U hU => ?_).holds
  · exact (includes_of_calls hT (hcallsT3.trans hcallsV)).trans (includes_bare V)
  · obtain ⟨hs, ht⟩ := hdataq (hcallsT3.trans hcallsV) q hq
    exact (hrepeatable q hq).lasts hsound (includes_bare V) hs.has ht.has
  · exact hat.repeats (Interning.constructs_deepWidenAt _ t)
      (((gains_of_calls hT1 (hcalls3.trans hcallsV)).trans (gains_bare V)).trans (.of_le hU))

end Table

/-- **Widening goes up and is idempotent.** What either way to widen makes of a type is found again,
the same type, when it is widened once more, in a table after any operations. Data fits what it is
widened to. After deep widening it does if, in all objects in it that have something to widen, the
fields in the range of the index signature fit the signature's values, and if no enum in it was
given its members after answers had been kept. -/
theorem Ty.widen_upward {T : Table} (hT : ReflTransGen Operated {} T) {t : Ty} (ht : T.Has t) :
    T.WidensUp Ty.widen t (T.Data t) ∧ T.WidensUp Ty.deepWiden t
    (T.UpToDate t ∧ T.Consistent Fitting t) :=
  ⟨widensUp_widen hT ht, widensUp_deepWiden hT ht⟩

namespace Table

/-! ## Objects with an index signature -/

/-- A table with an object that may have a text in one place, and has an index signature. -/
def captioned (values : Primitive) : Table :=
  let label := (Construction.literal (.string "x")).run {}
  ((Construction.object { fields := [{ name := "a", type := label.1, optional := true }],
                          index := some { key := .string, value := .prim values } }).run label.2).2

theorem calls_captioned (values : Primitive) : ReflTransGen Called {} (captioned values) := by
  have hlabel : Called {} ((Construction.literal (.string "x")).run {}).2 :=
    .construct _ (by simp [Construction.inputs]) trivial
  have hhas := Construction.has_run (c := .literal (.string "x")) (T := {}) Table.WellFormed.empty
    (by simp [Construction.inputs]) trivial
  exact (ReflTransGen.single hlabel).tail (.construct (.object _)
    (by simpa [Construction.inputs, Shape.parts] using hhas) trivial)

/-- The object is data, and no enum is in it. -/
theorem upToDate_captioned {values : Primitive}
    (hlabel : (captioned values).shape (.made 0) = .literal (.string "x"))
    (hobject : (captioned values).shape (.made 1) = .object {
      fields := [{ name := "a", type := .made 0, optional := true }],
      index := some { key := .string, value := .prim values } }) : (captioned values).UpToDate
        (.made 1) := by
  refine ⟨Set.univ, timely_of_calls .refl (calls_captioned values), Data.dataOf_univ ?_⟩
  refine .intro (has_of_shape (by simp [hobject])) (by rw [hobject]; rfl) fun p hp => ?_
  rw [hobject] at hp
  obtain rfl | rfl : p = .made 0 ∨ p = .prim values := by simpa [Shape.parts] using hp
  · exact data_of_literal hlabel
  · exact data_prim _ values

end Table

/-- An object with a text and an index signature that takes it fits what it is widened to. -/
theorem Ty.widen_upward_captioned : (captioned .string).WidensUp Ty.widen (.made 1) True ∧
    (captioned .string).WidensUp Ty.deepWiden (.made 1) True := by
  have hlabel : (captioned .string).shape (.made 0) = .literal (.string "x") := by decide +kernel
  have hobject : (captioned .string).shape (.made 1) = .object {
      fields := [{ name := "a", type := .made 0, optional := true }],
      index := some { key := .string, value := .string } } := by decide +kernel
  have hT := timely_of_calls (E := Set.univ) .refl (calls_captioned .string)
  have hdata := upToDate_captioned hlabel hobject
  have hfits : (captioned .string).Fitting (.made 0) .string :=
    fitting_of_holds hT (dataOf_of_literal hlabel) (dataOf_prim _ _ _) fun V hV hincludes => by
      have hs := (hincludes.shape (dataOf_of_literal hlabel)).trans hlabel
      exact (Assign.lasts_of_plainFits hV (data_of_literal hs).has (has_prim _ _) (.inl ⟨_, hs⟩) rfl
        (Assign.plainFits_base hs)).holds
  have hconsistent : (captioned .string).Consistent Fitting (.made 1) := by
    refine .parts (fun q hq => ?_) fun p hp => ?_
    · rw [hobject] at hq
      obtain rfl : q = (.made 0, .string) := by simpa [Shape.ranged] using hq
      exact hfits
    · rw [hobject] at hp
      obtain rfl : p = .made 0 := by simpa [Shape.widenedParts] using hp
      exact .parts (by simp [hlabel, Shape.ranged]) (by simp [hlabel, Shape.widenedParts])
  obtain ⟨hwiden, hdeep⟩ := Ty.widen_upward (operated_of_timely hT) hdata.data.has
  exact ⟨fun T1 hcalls => ⟨(hwiden T1 hcalls).1, fun _ => (hwiden T1 hcalls).2 hdata.data⟩,
    fun T1 hcalls => ⟨(hdeep T1 hcalls).1, fun _ => (hdeep T1 hcalls).2 ⟨hdata, hconsistent⟩⟩⟩

namespace Table

/-! ## Answers that are out of date -/

/-- An object with a number and, for all other names, values of an enum. -/
def numbered (number enum : Ty) : Members :=
  { fields := [{ name := "a", type := number }], index := some { key := .string, value := enum } }

/-- The table with such an object and what it is widened to, when the enum has no members yet. -/
def undecided : Table :=
  let one := (Construction.literal (.number (.ofNat 1))).run (Ty.enumOf "E" false [] {}).2
  let narrow := (Construction.object (numbered (.made 1) (.made 0))).run one.2
  let wide := (Construction.object (numbered .number (.made 0))).run narrow.2
  (Alias.freeze wide.2).2

/-- The table in which the two have been compared before the enum was given a member. -/
def outdated : Table :=
  let asked := { undecided with verdicts := [((.made 2, .made 3), false)] }
  let zero := (Construction.literal (.number (.ofNat 0))).run asked
  let filled := (Ty.enumOf "E" false [("A", .made 4)] zero.2).2
  { filled with verdicts := ((.made 1, .made 0), true) :: filled.verdicts }

theorem operated_outdated : ReflTransGen Operated {} outdated := by
  have hconstruct {T : Table} (hT : ReflTransGen Operated {} T) (c : Construction)
      (hin : ∀ t ∈ c.inputs, T.Has t) (hfits : c.Fits T) : ReflTransGen Operated {} (c.run T).2 :=
    hT.tail (.call (.construct c hin hfits))
  have henum {T : Table} (hT : ReflTransGen Operated {} T) (members : List (String × Ty))
      (hvalues : ∀ p ∈ members, T.Has p.2 ∧ (T.literal? p.2).isSome) :
      ReflTransGen Operated {} (Ty.enumOf "E" false members T).2 :=
        hT.tail (.enumeration "E" false hvalues)
  have hanswer {T T1 : Table} (hT : ReflTransGen Operated {} T) (s t : Ty) (b : Bool)
      (hhas : T.Has s ∧ T.Has t) (hrun : s.isAssignableTo t 9 T = some (b, T1)) :
      ReflTransGen Operated {} T1 := hT.tail (.call (.assignable hhas.1 hhas.2 hrun))
  have hundecided : ReflTransGen Operated {} undecided := by
    have hone := hconstruct (henum .refl [] (by simp)) (.literal (.number (.ofNat 1)))
      (by simp [Construction.inputs]) trivial
    have hnarrow := hconstruct hone (.object (numbered (.made 1) (.made 0)))
      (by with_unfolding_all decide) trivial
    have hwide := hconstruct hnarrow (.object (numbered .number (.made 0)))
      (by with_unfolding_all decide) trivial
    exact hwide.tail .freeze
  have hasked :
      ReflTransGen Operated {} { undecided with verdicts := [((.made 2, .made 3), false)] } :=
    hanswer hundecided (.made 2) (.made 3) false (by with_unfolding_all decide)
      (by with_unfolding_all rfl)
  have hzero := hconstruct hasked (.literal (.number (.ofNat 0)))
    (by simp [Construction.inputs]) trivial
  exact hanswer (henum hzero [("A", .made 4)] (by with_unfolding_all decide))
    (.made 1) (.made 0) true
    (by with_unfolding_all decide) (by with_unfolding_all rfl)

end Table

/-- **A field that does not fit the index signature over it** keeps the object from fitting what it
is widened to, and so does an answer that was kept before an enum was given its members. -/
theorem Ty.not_widen_upward :
    (∃ (T : Table) (t : Ty), T.UpToDate t ∧
      t.isAssignableTo (t.deepWiden T).1 9 (t.deepWiden T).2 = some (false, (t.deepWiden T).2)) ∧
    ∃ (T : Table) (t : Ty), ReflTransGen Operated {} T ∧ T.Data t ∧ T.Consistent Fitting t ∧
      t.isAssignableTo (t.deepWiden T).1 9 (t.deepWiden T).2 = some (false, (t.deepWiden T).2) := by
  refine ⟨⟨captioned .number, .made 1, ?_, by with_unfolding_all rfl⟩, outdated, .made 2,
    operated_outdated, ?_, ?_, ?_⟩
  · exact upToDate_captioned (by decide +kernel) (by decide +kernel)
  · have hobject : outdated.shape (.made 2) = .object (numbered (.made 1) (.made 0)) := by
      with_unfolding_all rfl
    have hone : outdated.shape (.made 1) = .literal (.number (.ofNat 1)) := by
      with_unfolding_all rfl
    have henum : outdated.shape (.made 0) = .enumeration
      { name := "E", isConst := false, members := [.made 5] } := by with_unfolding_all rfl
    refine .intro (has_of_shape (by simp [hobject])) (by rw [hobject]; rfl) fun p hp => ?_
    rw [hobject] at hp
    obtain rfl | rfl : p = .made 1 ∨ p = .made 0 := by simpa [Shape.parts, numbered] using hp
    · exact data_of_literal hone
    · exact .intro (has_of_shape (by simp [henum])) (by rw [henum]; rfl)
        (by simp [henum, Shape.parts])
  · have hobject : outdated.shape (.made 2) = .object (numbered (.made 1) (.made 0)) := by
      with_unfolding_all rfl
    have hone : outdated.shape (.made 1) = .literal (.number (.ofNat 1)) := by
      with_unfolding_all rfl
    refine .parts (fun q hq => ?_) fun p hp => ?_
    · rw [hobject] at hq
      obtain rfl : q = (.made 1, .made 0) := by simpa [Shape.ranged, numbered] using hq
      exact fitting_of_kept operated_outdated (by with_unfolding_all rfl)
        (by with_unfolding_all rfl) (by decide)
    · rw [hobject] at hp
      obtain rfl : p = .made 1 := by simpa [Shape.widenedParts, numbered] using hp
      exact .parts (by simp [hone, Shape.ranged]) (by simp [hone, Shape.widenedParts])
  · with_unfolding_all rfl

end ShapeCheck
