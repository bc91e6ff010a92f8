import ShapeCheck.Proofs.Calling
import ShapeCheck.Proofs.ConstantEnds
import ShapeCheck.Proofs.EqualityNarrowing
import ShapeCheck.Proofs.SplitSides

/-!
# Narrowing splits exactly

Narrowing starts from what a type and its members are resolved to. A test of the truth or of the
kind then sends every member to one side or to both, so the union of the sides is that type again.
The kind of a type parameter is that of its bound, so it can be asked for twice with different
answers, as long as there are aliases to be resolved. A test of equality puts constants in the place
of members, and the type still fits the union of the two sides.

* `Ty.calls_narrowByTruthiness`, `Ty.calls_narrowByKind` and `Ty.calls_narrowByLiteral` are the
  tests.
* `Ty.narrowing_exact` is the result.
* `Ty.not_narrowing_exact_unresolved` is a member that is lost while aliases are not resolved.
-/

namespace ShapeCheck

open Relation (ReflTransGen)
open Table Typing

namespace Table

variable {T T1 : Table} {t m : Ty}

theorem Cleared.of_calls (h : T.Cleared t) (hT : ReflTransGen Operated {} T) (ht : T.Has t)
    (hcalls : ReflTransGen Called T T1) : T1.Cleared t := by
  refine ⟨(hasOpenHead_of_calls hT hcalls ht).trans h.head, fun m hm => ?_⟩
  rw [members_of_calls hT hcalls ht] at hm
  have hmhas := (wellFormed_of_operated hT).has_member ht hm
  exact (hasOpenHead_of_calls hT hcalls hmhas).trans (h.members m hm)

theorem Cleared.resolveMembers (h : T.Cleared t) (n : Nat) : t.resolveMembers n T = some (t, T) :=
  Ty.resolveMembers_closed h.head h.members n

end Table

namespace Ty

variable {T T1 : Table} {t r c m : Ty} {d : RuntimeValue}

/-! ## The type that is split -/

/-- What is no union leaves nothing to be resolved when it is resolved. -/
theorem calls_resolve_single (hT : ReflTransGen Operated {} T) (ht : T.Has t)
    (hsingle : ¬(T.shape t).IsUnion) : Calls T t.resolve fun T1 r => T1.Has r ∧ T1.Cleared r := by
  refine (calls_resolve hT ht).imp fun r T1 hcalls ⟨hr, hopen, hsame⟩ => ⟨hr, ?_⟩
  cases h : hasOpenHead T t with
  | true => exact (hopen h).cleared
  | false =>
    obtain rfl := hsame h
    exact (cleared_of_not_isUnion h hsingle).of_calls hT ht hcalls

/-- Neither does the union of such types. -/
theorem calls_unionOf_cleared {ts : List Ty} (hT : T.WellFormed)
    (hts : ∀ t ∈ ts, T.Has t ∧ T.Cleared t) :
    Calls T (liftM (unionOf ts)) fun T1 u => T1.Has u ∧ T1.Cleared u := by
  have hhas : ∀ t ∈ ts, T.Has t := fun t ht => (hts t ht).1
  refine (calls_unionOf hT hhas (Interning.settles_unionOf hT hhas)).imp ?_
  rintro u T1 - ⟨hle, hu, hstands⟩
  refine ⟨hu, cleared_of_members fun m hm => ?_⟩
  rcases Interning.mem_unionMembers ((hstands m).mp hm) with ⟨t, ht, hmt⟩ | ⟨p, rfl⟩
  · obtain ⟨hthas, hcleared⟩ := hts t ht
    rw [hasOpenHead_of_le hT hle (hT.has_member hthas hmt)]
    exact hcleared.members m hmt
  · rfl

/-- **Resolving a type and its members leaves nothing to be resolved**, at its head or at theirs. -/
theorem calls_resolveMembers (hT : ReflTransGen Operated {} T) (ht : T.Has t) :
    Calls T t.resolveMembers fun T1 r => T1.Has r ∧ T1.Cleared r := by
  unfold resolveMembers
  refine (calls_resolve hT ht).bind fun t1 T1 hcalls ⟨hhas, hopen, hsame⟩ => calls_get_bind ?_
  have hT1 := operated_of_calls hT hcalls
  have hwf1 := wellFormed_of_operated hT1
  have hhead : hasOpenHead T1 t1 = false := by
    cases h : hasOpenHead T t with
    | true => exact (hopen h).hasOpenHead
    | false => rwa [hsame h, hasOpenHead_of_calls hT hcalls ht]
  cases hs : T1.shape t1 with
  | union ms =>
    dsimp only
    have hms : ∀ m ∈ ms, T1.Has m := fun m hm => hwf1.has_part hhas (by rw [hs]; exact hm)
    refine (calls_mapM ms (R := fun _ U r => U.Has r ∧ U.Cleared r)
      (fun m hm r U U' hU hU' hr => ?keep) fun m hm U hU => ?member).bind
      fun rs T2 hcalls2 hrs => ?rest
    case keep =>
      have hoperated := operated_of_calls hT1 hU
      exact ⟨has_of_calls hoperated hU' hr.1, hr.2.of_calls hoperated hr.1 hU'⟩
    case member =>
      refine calls_resolve_single (operated_of_calls hT1 hU) (has_of_calls hT1 hU (hms m hm)) ?_
      rw [shape_of_calls hT1 hU (hms m hm)]
      exact hwf1.not_isUnion hs hm
    case rest =>
      have hall : ∀ r ∈ rs, T2.Has r ∧ T2.Cleared r := by
        intro r hr
        obtain ⟨m, -, h⟩ := exists_of_forall₂ hrs.flip hr
        exact h
      split
      · next hsame =>
        refine calls_pure ⟨has_of_calls hT1 hcalls2 hhas, ?_, fun m hm => ?_⟩
        · rwa [hasOpenHead_of_calls hT1 hcalls2 hhas]
        · rw [members_of_calls hT1 hcalls2 hhas, members_of_union hs, ← hsame] at hm
          exact (hall m hm).2.head
      · exact calls_unionOf_cleared (wellFormed_of_operated (operated_of_calls hT1 hcalls2)) hall
  | _ => exact calls_pure ⟨hhas, cleared_of_not_isUnion hhead (by simp [hs, Shape.IsUnion])⟩

/-- The union of some members of a type has these. -/
theorem calls_selected (hT : T.WellFormed) (ht : T.Has t) (htop : t.isTop = false) {ms : List Ty}
    (hms : ∀ m ∈ ms, m ∈ splitMembers T t) : Calls T (liftM (unionOf ms)) fun T1 u =>
      T ≤ T1 ∧ T1.Has u ∧ ∀ m, m ≠ .never → (m ∈ splitMembers T1 u ↔ m ∈ ms) :=
  calls_unionOf hT (fun m hm => has_splitMembers hT ht (hms m hm))
    (settles_selected hT ht htop ms hms)

theorem calls_filterMembers (hT : T.WellFormed) (ht : T.Has t) (htop : t.isTop = false)
    (keep : Ty → Bool) : Calls T (liftM (t.filterMembers keep)) fun T1 u => T ≤ T1 ∧ T1.Has u ∧
      ∀ m, m ≠ .never → (m ∈ splitMembers T1 u ↔ m ∈ splitMembers T t ∧ keep m = true) := by
  obtain ⟨k, u, T1, hrun, hcalls, hle, hu, hmem⟩ :=
    calls_selected hT ht htop fun m (hm : m ∈ (splitMembers T t).filter keep) =>
      List.mem_of_mem_filter hm
  refine ⟨k, u, T1, fun n hn => ?_, hcalls, hle, hu, fun m hm => ?_⟩
  · rw [Typing.lift_filterMembers, hrun n hn]
  · rw [hmem m hm, List.mem_filter]

/-! ## The test of the truth -/

/-- What always counts as false can. -/
theorem canBeFalsy_of_isFalsy (h : isFalsy T m = true) : canBeFalsy T m = true := by
  have hnullish (h : m.isNullish = true) : canBeFalsy T m = true := by
    simp only [isNullish, Bool.or_eq_true, decide_eq_true_eq] at h
    rcases h with (rfl | rfl) | rfl
    · rfl
    · rfl
    · rfl
  cases hs : T.shape m with
  | literal l => simpa [canBeFalsy, hs] using h
  | enumMember enum name value => simpa [canBeFalsy, hs] using h
  | _ => exact hnullish (by simpa [isFalsy, hs] using h)

/-- **The sides of the test of the truth give the type**, whatever the table has been used for. -/
theorem calls_narrowByTruthiness (hT : ReflTransGen Operated {} T) (ht : T.Has t)
    (htop : t.isTop = false) (hcleared : T.Cleared t) :
    Calls T t.narrowByTruthiness fun T1 s => unionOf [s.yes, s.no] T1 = (t, T1) := by
  unfold narrowByTruthiness
  refine calls_of_result hcleared.resolveMembers ?_
  rw [if_neg (by simp [htop])]
  refine calls_get_bind ?_
  refine (calls_filterMembers (wellFormed_of_operated hT) ht htop fun m => !isFalsy T m).bind
    fun yes T1 hcalls1 ⟨hle1, hyes, hyesmem⟩ => ?_
  have hT1 := operated_of_calls hT hcalls1
  have hwf1 := wellFormed_of_operated hT1
  refine (calls_filterMembers hwf1 (has_of_le hle1 ht) htop (canBeFalsy T)).bind
    fun no T2 hcalls2 ⟨hle2, _, hnomem⟩ => calls_pure ?_
  refine Split.joins (wellFormed_of_operated (operated_of_calls hT1 hcalls2)) fun m hm => ?_
  rw [splitMembers_of_le hle2 hyes, hyesmem m hm, hnomem m hm, splitMembers_of_le hle1 ht,
    splitMembers_of_le (hle1.trans hle2) ht, ← and_or_left]
  refine and_iff_left_of_imp fun _ => ?_
  cases hfalsy : isFalsy T m with
  | true => exact .inr (canBeFalsy_of_isFalsy hfalsy)
  | false => exact .inl rfl

/-! ## The test of the kind -/

theorem hasKind_of_bound {x : TypeVar} {b : Ty} {n : Nat} (hs : T.shape m = .parameter x)
    (hb : (T.typeVar x).bound = some b) (hrun : b.resolve n T = some (r, T1)) (kind : String) :
    hasKind kind m n T = some (decide ((kindOf T1 r).getD "" = kind), T1) := by
  unfold hasKind
  rw [Typing.get_bind]
  simp only [hs, hb]
  rw [Typing.bind_of_some hrun]
  rfl

/-- The kind that is seen of a member is the same from then on. -/
theorem calls_hasKind (hT : T.Resolved) (hm : T.Has m) (hclosed : hasOpenHead T m = false)
    (kind : String) : Calls T (hasKind kind m) fun T1 b => Fixed T1 (hasKind kind m) b := by
  have hsound := hT.truthful.sound
  have hself (happarent : apparent T m = m) :
      Calls T (hasKind kind m) fun T1 b => Fixed T1 (hasKind kind m) b := by
    have hfixed : Fixed T (hasKind kind m) (decide ((kindOf T m).getD "" = kind)) :=
      fun U _ hle => by
      have hrun := hasKind_apparent hsound.wellFormed hle hm (by rwa [happarent]) kind
      rw [happarent] at hrun
      exact ⟨0, fun n _ => hrun n⟩
    exact hfixed.calls hsound
  cases hs : T.shape m with
  | parameter x =>
    cases hb : (T.typeVar x).bound with
    | none => exact hself (apparent_of_unbounded hs hb)
    | some b =>
      have hbhas := has_of_bound hsound.wellFormed hb
      obtain ⟨k, q, T1, hrun, hT1, hle, hq, hresolves⟩ := hsound.exists_resolvesTo hbhas
      refine ⟨k, _, T1, fun n hn => hasKind_of_bound hs hb (hrun n hn) kind,
        .single (.resolve hbhas (hrun k (Nat.le_refl k))), fun U hU hleU => ?_⟩
      obtain ⟨k', hagain⟩ := hresolves.of_le hT1 (has_of_le hle hbhas) hleU
      refine ⟨k', fun n hn => ?_⟩
      rw [← kindOf_of_le hT1.wellFormed hleU hq]
      refine hasKind_of_bound ((shape_of_le (hle.trans hleU) hm).trans hs) ?_ (hagain n hn) kind
      rw [typeVar_of_le (hle.trans hleU) (Assign.knows_of_shape hsound.wellFormed hs), hb]
  | _ => exact hself (by simp only [apparent, hs])

/-- **The test of the kind sends every member to one side.** -/
theorem calls_narrowByKind (hT : T.Resolved) (ht : T.Has t) (htop : t.isTop = false)
    (hcleared : T.Cleared t) (kind : String) : Calls T (t.narrowByKind kind) fun T1 s =>
      unionOf [s.yes, s.no] T1 = (t, T1) ∧
        ∀ m ∈ splitMembers T1 s.yes, m ∈ splitMembers T1 s.no → m = .never := by
  unfold narrowByKind
  refine calls_of_result hcleared.resolveMembers ?_
  rw [if_neg (by simp [htop])]
  refine calls_get_bind ?_
  dsimp only
  have hwf := hT.truthful.sound.wellFormed
  have hms : ∀ m ∈ splitMembers T t, T.Has m := fun m hm => has_splitMembers hwf ht hm
  refine (calls_select (hasKind kind) hT (splitMembers T t) fun m hm U hU hle => ?_).bind
    fun ks T1 hcalls1 ⟨hall, hks⟩ => ?_
  · refine calls_hasKind hU (has_of_le hle (hms m hm)) ?_ kind
    rw [hasOpenHead_of_le hwf hle (hms m hm)]
    exact hcleared.splitMembers hm
  have h1 := hT.calls hcalls1
  have hle1 := (hT.truthful.succeeds hcalls1).1.le
  have hwf1 := h1.truthful.sound.wellFormed
  have ht1 := has_of_le hle1 ht
  have hsame1 := splitMembers_of_le hle1 ht
  have hsub1 : ∀ m ∈ ks, m ∈ splitMembers T1 t := fun m hm => hsame1 ▸ ((hks m).mp hm).1
  refine (calls_selected hwf1 ht1 htop hsub1).bind fun yes T2 hcalls2 ⟨hle2, hyes, hyesmem⟩ => ?_
  have h2 := h1.calls hcalls2
  -- the test comes to the opposite of what it came to before
  have hnot : ∀ {U : Table} {m b}, T1 ≤ U → Fixed T1 (hasKind kind m) b →
      Fixed U (do return !(← hasKind kind m)) !b := fun hle h => (h.of_le hle).bind fixed_pure
  refine (calls_select (fun m => do return !(← hasKind kind m)) h2 (splitMembers T t)
    fun m hm U hU hle => ?_).bind fun ls T3 hcalls3 ⟨_, hls⟩ => ?_
  · obtain ⟨b, hb⟩ := hall m hm
    exact (hnot (hle2.trans hle) hb).calls hU.truthful.sound
  have h3 := h2.calls hcalls3
  have hle3 := (h2.truthful.succeeds hcalls3).1.le
  have hsound3 := h3.truthful.sound
  have hle13 := hle2.trans hle3
  have ht3 := has_of_le hle13 ht1
  have hsame3 := splitMembers_of_le hle13 ht1
  have hsub3 : ∀ m ∈ ls, m ∈ splitMembers T3 t := fun m hm =>
    hsame3 ▸ hsame1 ▸ ((hls m).mp hm).1
  refine (calls_selected hsound3.wellFormed ht3 htop hsub3).bind
    fun no T4 hcalls4 ⟨hle4, _, hnomem⟩ => calls_pure ?_
  have hyes4 : ∀ m, m ≠ .never → (m ∈ splitMembers T4 yes ↔ m ∈ ks) := fun m hm => by
    rw [splitMembers_of_le (hle3.trans hle4) hyes, hyesmem m hm]
  constructor
  · refine Split.joins (h3.calls hcalls4).truthful.sound.wellFormed fun m hm => ?_
    rw [hyes4 m hm, hnomem m hm, splitMembers_of_le hle4 ht3, hsame3, hsame1]
    constructor
    · rintro (hin | hin)
      · exact ((hks m).mp hin).1
      · exact ((hls m).mp hin).1
    · intro hin
      obtain ⟨b, hb⟩ := hall m hin
      cases b with
      | true => exact .inl ((hks m).mpr ⟨hin, hb⟩)
      | false => exact .inr ((hls m).mpr ⟨hin, hnot hle13 hb⟩)
  · intro m hmyes hmno
    by_contra hne
    have hpasses := ((hks m).mp ((hyes4 m hne).mp hmyes)).2
    have hfails := ((hls m).mp ((hnomem m hne).mp hmno)).2
    exact absurd (hfails.unique (hnot hle13 hpasses) hsound3) (by simp)

/-! ## The test of equality -/

/-- The union of constants with one value has these constants. -/
theorem settles_constants (hT : T.WellFormed) {ps : List Ty} (hps : ∀ p ∈ ps, T.Constant p d) :
    Interning.Settles T (unionOf ps) fun T1 u => T1.Has u ∧
      ∀ m, m ≠ .never → (m ∈ T1.members u ↔ m ∈ ps) := by
  refine (Interning.settles_unionOf hT fun p hp => (hps p hp).has).imp
    fun u T1 _ _ ⟨hu, hstands⟩ => ⟨hu, fun m hm => ?_⟩
  have hflat : T.flattened ps = { p | p ∈ ps } := by
    ext k
    simp only [flattened, mem_allMembers, Set.mem_ofPred_eq]
    have hself : ∀ p ∈ ps, T.members p = [p] := fun p hp =>
      Assign.members_of_not_isUnion (hps p hp).single.2.2
    constructor
    · rintro ⟨p, hp, hk⟩
      rw [hself p hp, List.mem_singleton] at hk
      exact hk ▸ hp
    · intro hk
      exact ⟨k, hk, by simp [hself k hk]⟩
  have hprim : ∀ q, .prim q ∈ ps → q = .null ∨ q = .undefined := by
    intro q hq
    cases hps _ hq with
    | literal h | enumMember h => simp [Table.shape] at h
    | null | undefined => simp
  have htruths : ¬(.truth true ∈ ps ∧ .truth false ∈ ps) := by
    rintro ⟨htrue, hfalse⟩
    have h := (hps _ htrue).eq_literal rfl
    rw [(hps _ hfalse).eq_literal rfl] at h
    simp at h
  have hbase : ∀ k ∈ ps, ∀ l, T.literal? k = some l → .prim l.base ∉ ps := by
    intro k _ l _ hl
    have := hprim _ hl
    cases l <;> simp [Literal.base] at this
  have htops : ¬Tops { p | p ∈ ps } := not_tops fun p hp => (hps p hp).single.1.1
  have hcounts : T.Counts { p | p ∈ ps } m ↔ m ∈ { p | p ∈ ps } := counts_iff_mem htruths hbase hm
  rw [hstands m, mem_unionMembers_iff, hflat, mem_joined htops, hcounts]
  simp [hm]

/-- What remains of a member is a constant that fits it, or nothing, and the constant itself remains
if the member is it or has it for a half. -/
structure Remains (T : Table) (c m : Ty) (d : RuntimeValue) (o : Option Ty) : Prop where
  part : ∀ p, o = some p → T.Constant p d ∧ Assign.Lasts T p m
  exactly : isExactly T c m = true → o = some m
  half : m = .boolean → ∀ b, c = .truth b → o = some c

theorem Remains.of_le {o : Option Ty} (h : Remains T c m d o) (hm : T.Has m) (hle : T ≤ T1) :
    Remains T1 c m d o where
  part p hp := ⟨(h.part p hp).1.of_le hle, (h.part p hp).2.of_le hle⟩
  exactly hexactly := h.exactly (by rwa [isExactly, Assign.enumValue?_of_le hle hm] at hexactly)
  half := h.half

/-- A constant is compared, with an answer. -/
theorem calls_isAssignableTo_constant (hT : T.Resolved) (hc : T.Constant c d) (hm : T.Has m) :
    Calls T (c.isAssignableTo m) fun T1 b => b = true → Assign.Lasts T1 c m := by
  obtain ⟨k, b, T1, hrun⟩ := isAssignableTo_constant_returns hT.operated hc hm
  have hanswer := hrun k (Nat.le_refl k)
  refine ⟨k, b, T1, hrun, .single (.assignable hc.has hm hanswer), ?_⟩
  rintro rfl
  exact hT.lasts_of_true hc.has hm hanswer

theorem calls_equalPart (hT : T.Resolved) (hc : T.Constant c d) (hm : T.Has m) :
    Calls T (equalPart c m) fun T1 o => Remains T1 c m d o := by
  have hsound := hT.truthful.sound
  unfold equalPart
  refine calls_get_bind ?_
  change Calls T (if isExactly T c m then _ else _ : Typing (Option Ty)) _
  cases hexactly : isExactly T c m with
  | true =>
    refine calls_pure ⟨?_, fun _ => rfl, ?_⟩
    · rintro p ⟨⟩
      exact ⟨constant_of_isExactly hsound.wellFormed hc hm hexactly, Assign.lasts_self T m⟩
    · rintro rfl b rfl
      simp [isExactly, enumValue?, Table.shape] at hexactly
  | false =>
    rw [if_neg (by simp)]
    have hpart (hfits : Assign.Lasts T c m) : Remains T c m d (some c) := by
      refine ⟨?_, fun h => absurd h (by simp [hexactly]), fun _ _ _ => rfl⟩
      rintro p ⟨⟩
      exact ⟨hc, hfits⟩
    split
    · next h =>
      simp only [Bool.and_eq_true, Bool.or_eq_true, decide_eq_true_eq] at h
      obtain ⟨rfl, rfl | rfl⟩ := h
      · exact calls_pure (hpart (Assign.lasts_truth hsound true))
      · exact calls_pure (hpart (Assign.lasts_truth hsound false))
    next hboolean =>
    have hnone {U : Table} (hU : isExactly U c m = false) : Remains U c m d none := by
      refine ⟨by simp, fun h => absurd h (by simp [hU]), ?_⟩
      rintro rfl b rfl
      exact absurd hboolean (by cases b <;> simp)
    split
    · next h =>
      simp only [Bool.and_eq_true, decide_eq_true_eq] at h
      obtain ⟨rfl, rfl⟩ := h
      exact calls_pure (hpart (Assign.lasts_of_plainFits hsound (has_prim T _) (has_prim T _)
        (.inr ⟨_, rfl⟩) rfl rfl))
    split
    · exact calls_pure (hnone hexactly)
    refine (calls_isAssignableTo_constant hT hc hm).bind fun b T1 hcalls hb => ?_
    have hle := (hT.truthful.succeeds hcalls).1.le
    have hexactly1 : isExactly T1 c m = false := by
      rwa [isExactly, Assign.enumValue?_of_le hle hm]
    cases b with
    | true =>
      refine calls_pure ⟨?_, fun h => absurd h (by simp [hexactly1]), fun _ _ _ => rfl⟩
      rintro p ⟨⟩
      exact ⟨hc.of_le hle, hb rfl⟩
    | false => exact calls_pure (hnone hexactly1)

/-- **The test of equality puts every member on one side or the other.** -/
theorem calls_narrowByLiteral (hT : T.Resolved) (ht : T.Has t) (htop : t.isTop = false)
    (hcleared : T.Cleared t) (hc : T.Constant c d) :
    Calls T (t.narrowByLiteral c) fun T1 s => s.Covers T1 t := by
  unfold narrowByLiteral
  refine calls_of_result hcleared.resolveMembers ?_
  rw [if_neg (by simp [htop])]
  refine calls_of_result (a := T.members t) (fun n => rfl) ?_
  have hwf := hT.truthful.sound.wellFormed
  have hms : ∀ m ∈ T.members t, T.Has m := fun m hm => hwf.has_member ht hm
  have hle {U V : Table} (hU : ReflTransGen Called T U)
      (hV : ReflTransGen Called U V) : U ≤ V :=
    ((hT.calls hU).truthful.succeeds hV).1.le
  refine (calls_mapM (T.members t) (R := fun m U o => Remains U c m d o)
    (fun m hm o U V hU hV ho => ho.of_le (has_of_le (hle .refl hU) (hms m hm)) (hle hU hV))
    fun m hm U hU => ?_).bind fun os T1 hcalls1 hos => calls_get_bind ?_
  · exact calls_equalPart (hT.calls hU) (hc.of_le (hle .refl hU))
      (has_of_le (hle .refl hU) (hms m hm))
  have hle1 := hle .refl hcalls1
  have hwf1 := (hT.calls hcalls1).truthful.sound.wellFormed
  have ht1 := has_of_le hle1 ht
  refine (calls_filterMembers hwf1 ht1 htop _).bind fun no T2 hcalls2 ⟨hle2, hno, hnomem⟩ => ?_
  have hwf2 := ((hT.calls hcalls1).calls hcalls2).truthful.sound.wellFormed
  have hps : ∀ p ∈ os.filterMap id, T2.Constant p d ∧ ∃ m ∈ T.members t, Assign.Lasts T2 p m := by
    intro p hp
    obtain ⟨o, ho, rfl⟩ := List.mem_filterMap.mp hp
    obtain ⟨m, hm, hremains⟩ := exists_of_forall₂ hos.flip ho
    obtain ⟨hconstant, hfits⟩ := hremains.part p rfl
    exact ⟨hconstant.of_le hle2, m, hm, hfits.of_le hle2⟩
  refine (calls_unionOf hwf2 (fun p hp => (hps p hp).1.has)
    (settles_constants hwf2 fun p hp => (hps p hp).1)).bind
    fun yes T3 hcalls3 ⟨hle3, hyes, hyesmem⟩ => calls_pure ?_
  have hsame1 := splitMembers_of_le hle1 ht
  have hle23 := hle2.trans hle3
  have hno3 : ∀ k, k ≠ .never → (k ∈ splitMembers T3 no ↔
      k ∈ splitMembers T t ∧ isExactly T1 c k = false) := by
    intro k hk
    rw [splitMembers_of_le hle3 hno, hnomem k hk, hsame1, isExactly_eq_false]
    simp
  refine ⟨⟨hyes, has_of_le hle3 hno⟩, fun p hp hne => ?_, fun k hk hin => ?_, fun k hk hin => ?_⟩
  · obtain ⟨hconstant, m, hm, hfits⟩ := hps p ((hyesmem p hne).mp hp)
    obtain ⟨hproper, hclosed, -⟩ := hconstant.single
    refine ⟨?_, hproper.1, m, ?_, hfits.of_le hle3⟩
    · rwa [hasOpenHead_of_le hwf2 hle3 hconstant.has]
    · rwa [members_of_le hle23 ht1, members_of_le hle1 ht]
  · rw [splitMembers_of_le hle23 ht1, hsame1]
    exact ((hno3 k hk).mp hin).1
  · rw [splitMembers_of_le hle23 ht1, hsame1] at hin
    cases hexactly : isExactly T1 c k with
    | false => exact .inr ((hno3 k hk).mpr ⟨hin, hexactly⟩)
    | true =>
      have hremains (hk' : k ≠ .boolean) (hin : k ∈ os.filterMap id) : k ∈ splitMembers T3 yes :=
        mem_splitMembers ((hyesmem k hk).mpr hin) hk'
      left
      rcases mem_splitMembers_iff.mp hin with ⟨hin, hboolean⟩ | ⟨⟨b, rfl⟩, hboolean⟩
      · obtain ⟨o, ho, hr⟩ := exists_of_forall₂ hos hin
        exact hremains hboolean (List.mem_filterMap.mpr ⟨o, ho, hr.exactly hexactly⟩)
      · obtain ⟨o, ho, hr⟩ := exists_of_forall₂ hos hboolean
        obtain rfl : c = .truth b := by
          simpa [isExactly, enumValue?, Table.shape, eq_comm] using hexactly
        exact hremains (by simp) (List.mem_filterMap.mpr ⟨o, ho, hr.half rfl b rfl⟩)

/-! ## All tests -/

/-- Narrowing a type is narrowing what it is resolved to. -/
theorem calls_of_resolveMembers {α : Type} {f : Ty → Typing α} {Q : Table → α → Prop} {k : Nat}
    (hrun : ∀ n, k ≤ n → t.resolveMembers n T = some (r, T1))
    (hcalls : ReflTransGen Called T T1) (hcleared : T1.Cleared r)
    (h : Calls T1 (r.resolveMembers >>= f) Q) : Calls T (t.resolveMembers >>= f) Q := by
  obtain ⟨k', a, T2, hf, hcalls', ha⟩ := h
  refine ⟨max k k', a, T2, fun n hn => ?_, hcalls.trans hcalls', ha⟩
  rw [Typing.bind_of_some (hrun n (by omega)), ← hf n (by omega),
    Typing.bind_of_some (hcleared.resolveMembers n)]

/-- **Narrowing splits exactly.** Every type is resolved, with its members, to some type. If that is
not one that takes every value, the two sides of the test of the truth are joined to it again. Once
the aliases are resolved, so are those of the test of the kind, which have no member in common, and
for a constant the two sides of the test of equality fit the type, which in turn fits their
union. -/
theorem narrowing_exact (hT : ReflTransGen Operated {} T) (ht : T.Has t) : ∃ k r T0,
    (∀ n, k ≤ n → t.resolveMembers n T = some (r, T0)) ∧ (r.isTop = false →
      Calls T t.narrowByTruthiness (fun T1 s => unionOf [s.yes, s.no] T1 = (r, T1)) ∧
      (T.Resolved →
        (∀ kind, Calls T (t.narrowByKind kind) fun T1 s => unionOf [s.yes, s.no] T1 = (r, T1) ∧
          ∀ m ∈ splitMembers T1 s.yes, m ∈ splitMembers T1 s.no → m = .never) ∧
        ∀ c d, T.Constant c d → Calls T (t.narrowByLiteral c) fun T1 s => s.Spans T1 r)) := by
  obtain ⟨k, r, T0, hrun, hcalls, hr, hcleared⟩ := calls_resolveMembers hT ht
  refine ⟨k, r, T0, hrun, fun htop => ⟨?_, fun hresolved => ⟨fun kind => ?_, fun c d hc => ?_⟩⟩⟩
  · exact calls_of_resolveMembers hrun hcalls hcleared
      (calls_narrowByTruthiness (operated_of_calls hT hcalls) hr htop hcleared)
  · exact calls_of_resolveMembers hrun hcalls hcleared
      (calls_narrowByKind (hresolved.calls hcalls) hr htop hcleared kind)
  · have h0 := hresolved.calls hcalls
    have hc0 := hc.of_le (hresolved.truthful.succeeds hcalls).1.le
    refine calls_of_resolveMembers hrun hcalls hcleared
      ((calls_narrowByLiteral h0 hr htop hcleared hc0).imp fun s T1 hcalls1 hcovers => ?_)
    have hle := (h0.truthful.succeeds hcalls1).1.le
    have hwf := h0.truthful.sound.wellFormed
    exact hcovers.spans (h0.calls hcalls1) (has_of_le hle hr) htop (hcleared.of_le hwf hr hle)

/-- For numbers or strings the tests are exact, and a number is compared with zero. -/
theorem narrowing_exact_union :
    Calls chosen (Ty.made 0).narrowByTruthiness
      (fun T1 s => unionOf [s.yes, s.no] T1 = (.made 0, T1)) ∧
    Calls chosen ((Ty.made 0).narrowByKind "string") (fun T1 s =>
      unionOf [s.yes, s.no] T1 = (.made 0, T1) ∧
        ∀ m ∈ splitMembers T1 s.yes, m ∈ splitMembers T1 s.no → m = .never) ∧
    Calls chosen ((Ty.made 0).narrowByLiteral (.made 2)) fun T1 s => s.Spans T1 (.made 0) := by
  obtain ⟨-, -, -, -, hunion, -⟩ := facts_chosen
  have hzero : chosen.shape (.made 2) = .literal (.number (.ofNat 0)) := by
    with_unfolding_all decide
  have hscalar : chosen.OfScalars (.made 0) := by
    rw [OfScalars, members_of_union hunion]
    exact Interning.forall_mem_pair rfl rfl
  obtain ⟨k, r, T0, hrun, hsplits⟩ := narrowing_exact resolved_chosen.operated (t := .made 0)
    (has_of_shape (by simp [hunion]))
  have hsame := hrun k (Nat.le_refl k)
  rw [resolveMembers_of_ofScalars hscalar] at hsame
  obtain ⟨rfl, rfl⟩ := Prod.mk.inj (Option.some.inj hsame)
  obtain ⟨htruth, hresolved⟩ := hsplits rfl
  obtain ⟨hkind, hequality⟩ := hresolved resolved_chosen
  exact ⟨htruth, hkind "string", hequality _ _ (.literal hzero)⟩

end Ty

namespace Table

/-- An alias for its argument, `string` unless it is given, and an alias for that one of itself. One
type parameter is bounded by the first alias, without an argument, and another one by the second. -/
def entangling : Table :=
  let T := declaring { name := "X", default := some .string } {}
  let T := (Alias.define "G" [⟨0⟩] (.made 0) T).2
  let T := ((Construction.reference "Bad" []).run T).2
  let T := ((Construction.reference "G" [.made 1]).run T).2
  let T := (Alias.define "Bad" [] (.made 2) T).2
  let T := ((Construction.reference "G" []).run T).2
  let T := declaring { name := "P", bound := some (.made 3) } T
  declaring { name := "Q", bound := some (.made 1) } T

/-- The union of the two type parameters, while the aliases are not resolved. -/
def entangled : Table := entangling.push ⟨.union [.made 4, .made 5], "U:68,69", "P | Q"⟩

theorem prepared_entangled : entangled.Prepared := by
  have hX := Prepared.empty.declaring { name := "X", default := some .string } (by simp)
    (by simp [Ty.string])
  have hG : (Alias.define "G" [⟨0⟩] (.made 0) _).2.Prepared :=
    hX.define "G" (by simp only [Knows]; with_unfolding_all decide) (by with_unfolding_all decide)
  have hreferences := (hG.reference "Bad" [] (by simp)).reference "G" [.made 1]
    (by with_unfolding_all decide)
  have hBad : (Alias.define "Bad" [] (.made 2) _).2.Prepared :=
    hreferences.define "Bad" (by simp) (by with_unfolding_all decide)
  have hP := (hBad.reference "G" [] (by simp)).declaring { name := "P", bound := some (.made 3) }
    (by with_unfolding_all decide) (by simp)
  have hentangling : entangling.Prepared :=
    hP.declaring { name := "Q", bound := some (.made 1) } (by with_unfolding_all decide) (by simp)
  obtain ⟨hhas, hmembers, hordered, hnew, htext⟩ :
      (∀ t ∈ [Ty.made 4, .made 5], entangling.Has t) ∧
      Ty.unionMembers entangling [.made 4, .made 5] = [.made 4, .made 5] ∧
      [Ty.made 4, .made 5].Pairwise (fun a b => entangling.inOrder a b = true) ∧
      entangling.find? "U:68,69" = none ∧
      entangling.shapeText (.union [.made 4, .made 5]) = "P | Q" := by
    with_unfolding_all decide
  exact hentangling.push_union hhas hmembers (by decide) hordered
    (Shape.key_union_ordered (by decide))
    hnew htext

end Table

/-- **Before the aliases are resolved a member may get lost.** Looking at the bound of the one type
parameter changes what the other one is bounded by, so neither side of the test has that. -/
theorem Ty.not_narrowing_exact_unresolved : ∃ (T : Table) (t : Ty) (kind : String)
    (s : Split) (T1 : Table),
    ReflTransGen Operated {} T ∧ T.Has t ∧ (∀ n, t.resolveMembers n T = some (t, T)) ∧
    t.isTop = false ∧ t.narrowByKind kind 9 T = some (s, T1) ∧
    (Ty.unionOf [s.yes, s.no] T1).1 ≠ t := by
  have hunion : entangled.shape (.made 6) = .union [.made 4, .made 5] := by
    with_unfolding_all decide
  have hrun : ((Ty.made 6).narrowByKind "" 9 entangled).map
      (fun p => (Ty.unionOf [p.1.yes, p.1.no] p.2).1) = some (.made 5) := by
    with_unfolding_all rfl
  obtain ⟨⟨s, T1⟩, hnarrow, hback⟩ := Option.map_eq_some_iff.mp hrun
  refine ⟨entangled, .made 6, "", s, T1, prepared_entangled.operated,
    has_of_shape (by simp [hunion]),
    fun n => Ty.resolveMembers_closed (by simp [Ty.hasOpenHead, hunion]) ?_ n, rfl, hnarrow, ?_⟩
  · rw [members_of_union hunion]
    exact Interning.forall_mem_pair (by with_unfolding_all decide) (by with_unfolding_all decide)
  · rw [hback]
    simp

end ShapeCheck
