import ShapeCheck.Proofs.ConstantComparison
import ShapeCheck.Proofs.MemberNarrowing

/-!
# Narrowing by equality

Where a value equals a constant, a type is narrowed to the constant, or to the members of enums that
have it for a value. A constant that the comparison refuses gets lost, and so does one that is a
member of an enum, next to the literal or the other member that is its value. Where the value
differs from the constant, only the members go that have no other value.

* `Ty.equalPart_spec` says what remains of one member, `Ty.equalParts_spec` of several.
* `Ty.narrowByLiteral_selects` says what the two sides have.
* `Ty.narrowByLiteral_keeps` is the result.
-/

namespace ShapeCheck

open Table

namespace Ty

variable {T U : Table} {t c m : Ty} {d : RuntimeValue} {n : Nat}

/-- Narrowing by equality with the constant loses the member, though the constant may be a value of
it: a member of an enum is only found as itself, or by a literal, and other types where the
comparison does not refuse the constant. -/
def overlooks (T : Table) (c m : Ty) : Bool :=
  match T.shape m with
  | .literal _ => isEnumMember T c
  | .enumMember _ _ _ => isEnumMember T c && c ≠ m
  | _ => T.refuses c m

/-- The type is the constant, or a member of an enum that has it for its value. -/
def isExactly (T : Table) (c m : Ty) : Bool := m = c || enumValue? T m = some c

theorem isExactly_eq_false : isExactly T c m = false ↔ m ≠ c ∧ enumValue? T m ≠ some c := by
  simp [isExactly]

theorem isEnumMember_iff : isEnumMember T t = true ↔
    ∃ enum name value, T.shape t = .enumMember enum name value := by
  unfold isEnumMember enumValue?
  cases hs : T.shape t <;> simp

/-- A member of an enum that has a constant for its value is a constant with the same value. -/
theorem constant_of_enumValue (hT : T.WellFormed) (hc : T.Constant c d) (hm : T.Has m)
    (hvalue : enumValue? T m = some c) : T.Constant m d := by
  obtain ⟨enum, name, hs⟩ := shape_of_enumValue hvalue
  obtain ⟨l, hl⟩ := Option.isSome_iff_exists.mp (Assign.value_spec hT hm hvalue).2
  obtain rfl := hc.eq_literal (shape_of_literal? hl)
  exact .enumMember hs (shape_of_literal? hl)

theorem constant_of_isExactly (hT : T.WellFormed) (hc : T.Constant c d) (hm : T.Has m)
    (h : isExactly T c m = true) : T.Constant m d := by
  simp only [isExactly, Bool.or_eq_true, decide_eq_true_eq] at h
  rcases h with rfl | hvalue
  · exact hc
  · exact constant_of_enumValue hT hc hm hvalue

/-- A type with another value is not exactly the constant. -/
theorem isExactly_of_holds (hT : T.WellFormed) (hc : T.Constant c d)
    (hm : T.Has m) {v : RuntimeValue}
    (hne : v ≠ d) (hv : T.Holds v m) : isExactly T c m = false :=
  Bool.eq_false_iff.mpr fun h => hne ((constant_of_isExactly hT hc hm h).holds_iff.mp hv)

/-- A constant that has the value of another one without being exactly that meets a member of an
enum. -/
theorem isEnumMember_of_same (hT : T.WellFormed) (hc : T.Constant c d) (hm : T.Constant m d)
    (hexactly : isExactly T c m = false) : isEnumMember T c = true := by
  obtain ⟨hne, hvalue⟩ := isExactly_eq_false.mp hexactly
  cases hc with
  | enumMember h => exact isEnumMember_iff.mpr ⟨_, _, _, h⟩
  | literal h =>
    cases hm with
    | literal h' => exact absurd (eq_of_literal hT h' h) hne
    | enumMember h' hl => exact absurd (by rw [enumValue?, h', eq_of_literal hT hl h]) hvalue
  | null | undefined =>
    cases hm
    exact absurd rfl hne

/-- A literal, null or undefined is a constant, and a member of an enum is one. -/
theorem exists_constant (hT : T.WellFormed) (hm : T.Has m)
    (h : isUnit T m = true ∨ isEnumMember T m = true) : ∃ v, T.Constant m v := by
  rcases h with h | h
  · simp only [isUnit, Bool.or_eq_true, decide_eq_true_eq] at h
    rcases h with (h | rfl) | rfl
    · obtain ⟨l, hl⟩ := Option.isSome_iff_exists.mp h
      exact ⟨_, .literal (shape_of_literal? hl)⟩
    · exact ⟨_, .null⟩
    · exact ⟨_, .undefined⟩
  · obtain ⟨enum, name, value, hs⟩ := isEnumMember_iff.mp h
    obtain ⟨l, hl⟩ := Option.isSome_iff_exists.mp
      (Assign.value_spec hT hm (v := value) (by simp [enumValue?, hs])).2
    exact ⟨_, .enumMember hs (shape_of_literal? hl)⟩

/-- A member whose single value is that of the constant is lost, unless it is exactly the
constant. -/
theorem overlooks_of_single (hT : T.WellFormed) (hc : T.Constant c d) (hm : T.Has m)
    (hv : T.Holds d m) (hexactly : isExactly T c m = false)
    (hsingle : isUnit T m = true ∨ isEnumMember T m = true) : overlooks T c m = true := by
  obtain ⟨v, hconstant⟩ := exists_constant hT hm hsingle
  obtain rfl := hconstant.holds_iff.mp hv
  have henum := isEnumMember_of_same hT hc hconstant hexactly
  have hne := (isExactly_eq_false.mp hexactly).1
  cases hconstant with
  | literal hs => simp [overlooks, hs, henum]
  | enumMember hs => simp [overlooks, hs, henum, Ne.symm hne]
  | null | undefined =>
    cases hc
    exact absurd rfl hne

theorem overlooks_eq_refuses (hunit : isUnit T m = false) (henum : isEnumMember T m = false) :
    overlooks T c m = T.refuses c m := by
  unfold overlooks
  cases hs : T.shape m with
  | literal => simp [isUnit, literal?, hs] at hunit
  | enumMember => simp [isEnumMember, enumValue?, hs] at henum
  | _ => rfl

/-- What remains of a member is a constant with the value of the given one, and something does if
the member has the value and is not overlooked. -/
theorem equalPart_spec (hT : T.WellFormed) (hc : T.Constant c d) (hmhas : T.Has m)
    (hm : (T.shape m).isScalar = true) (hU : U.Resolved) (hle : T ≤ U) (hn : 2 ≤ n) :
    ∃ o U1, equalPart c m n U = some (o, U1) ∧ Relation.ReflTransGen Called U U1 ∧
      (∀ p, o = some p → T.Constant p d ∧ (p = c ∨ p = m)) ∧
      (T.Holds d m → overlooks T c m = false → o.isSome = true) := by
  have hconstant : ∀ p, some c = some p → T.Constant p d ∧ (p = c ∨ p = m) := by
    rintro p ⟨⟩
    exact ⟨hc, .inl rfl⟩
  have hvalue : enumValue? U m = enumValue? T m := Assign.enumValue?_of_le hle hmhas
  have hunit : isUnit U m = isUnit T m := by
    rw [isUnit, isUnit, literal?_of_le hle hmhas]
  unfold equalPart
  rw [Typing.get_bind, hvalue, hunit, isEnumMember, hvalue, ← isEnumMember]
  change ∃ o U1, (if isExactly T c m then _ else _ : Typing (Option Ty)) n U = some (o, U1) ∧ _
  cases hexactly : isExactly T c m with
  | true =>
    refine ⟨some m, U, rfl, .refl, ?_, fun _ _ => rfl⟩
    rintro p ⟨⟩
    exact ⟨constant_of_isExactly hT hc hmhas hexactly, .inr rfl⟩
  | false =>
    rw [if_neg (by simp)]
    split
    · exact ⟨some c, U, rfl, .refl, hconstant, fun _ _ => rfl⟩
    split
    · exact ⟨some c, U, rfl, .refl, hconstant, fun _ _ => rfl⟩
    split
    · next hsingle =>
      refine ⟨none, U, rfl, .refl, by simp, fun hv hseen => ?_⟩
      rw [overlooks_of_single hT hc hmhas hv hexactly (by simpa using hsingle)] at hseen
      exact absurd hseen (by simp)
    · next hsingle =>
      obtain ⟨U1, hask, hcall⟩ := hU.asks_constant hT hle hc hmhas hm hn
      rw [Typing.bind_of_some hask]
      cases hfits : Assign.constantFits T c m with
      | true => exact ⟨some c, U1, rfl, .single hcall, hconstant, fun _ _ => rfl⟩
      | false =>
        refine ⟨none, U1, rfl, .single hcall, by simp, fun hv hseen => ?_⟩
        simp only [Bool.or_eq_true, not_or, Bool.not_eq_true] at hsingle
        rw [overlooks_eq_refuses hsingle.1 hsingle.2] at hseen
        rw [Assign.constantFits_of_holds hT hc hmhas hm hv hseen] at hfits
        exact absurd hfits (by simp)

/-- What remains of several members. -/
theorem equalParts_spec (hT : T.WellFormed) (hc : T.Constant c d) {ms : List Ty}
    (hms : ∀ m ∈ ms, T.Has m ∧ (T.shape m).isScalar = true) (hU : U.Resolved) (hle : T ≤ U)
    (hn : 2 ≤ n) : ∃ os U1, ms.mapM (equalPart c) n U = some (os, U1) ∧
      Relation.ReflTransGen Called U U1 ∧ (∀ p, some p ∈ os → T.Constant p d) ∧
      ∀ m ∈ ms, T.Holds d m → overlooks T c m = false → ∃ p, some p ∈ os ∧ (p = c ∨ p = m) := by
  obtain ⟨os, U1, hrun, hcalls, hparts⟩ := hU.mapM_calls (fun m hm U hU hle =>
    equalPart_spec hT hc (hms m hm).1 (hms m hm).2 hU hle hn) hle
  refine ⟨os, U1, hrun, hcalls, ?_⟩
  clear hrun hms
  induction hparts with
  | nil => simp
  | @cons m o ms os hpart _ ih =>
    obtain ⟨hconstant, hsome⟩ := hpart
    refine ⟨fun p hp => ?_, fun k hk hv hseen => ?_⟩
    · rcases List.mem_cons.mp hp with rfl | hp
      · exact (hconstant p rfl).1
      · exact ih.1 p hp
    · rcases List.mem_cons.mp hk with rfl | hk
      · obtain ⟨p, rfl⟩ := Option.isSome_iff_exists.mp (hsome hv hseen)
        exact ⟨p, List.mem_cons_self, (hconstant p rfl).2⟩
      · obtain ⟨p, hp, heq⟩ := ih.2 k hk hv hseen
        exact ⟨p, List.mem_cons_of_mem o hp, heq⟩

/-- The union of constants with one value is more than `never`, and accepts each of them. -/
theorem unionOf_constants (h : T.Resolved) {ps : List Ty}
    (hps : ∀ p ∈ ps, T.Constant p d) {yes : Ty}
    {T1 : Table} (hyes : unionOf ps T = (yes, T1)) :
    T ≤ T1 ∧ ∀ p ∈ ps, yes ≠ .never ∧ T1.Accepts p yes := by
  have hsound := h.truthful.sound
  have hhas : ∀ p ∈ ps, T.Has p := fun p hp => (hps p hp).has
  obtain ⟨hcall, hyeshas⟩ := Assign.called_unionOf hsound.wellFormed hhas hyes
  have h1 := h.call hcall
  have hsound1 := h1.truthful.sound
  have hle := (h.truthful.called hcall).1.le
  refine ⟨hle, fun p hp => ?_⟩
  obtain ⟨hproper, hclosed, hsingle⟩ := (hps p hp).single
  have hp1 := has_of_le hle (hhas p hp)
  have hpart := Assign.part_unionOf hsound hhas hyes hp (Assign.members_of_not_isUnion hsingle)
    (Assign.lasts_self T p) (hhas p hp) hproper hclosed hsingle
  exact ⟨hpart.not_never hsound1, h1.accepts hp1 hyeshas
    (fun U _ hleU => (hpart.of_le hsound1.wellFormed hp1 hyeshas hleU).holds) .refl⟩

/-- The one side accepts what may be the constant, the other has the members that are not exactly
it. -/
theorem narrowByLiteral_selects (hT : T.Resolved) (ht : T.Has t) (htop : t.isTop = false)
    (hscalar : T.OfScalars t) (hc : T.Constant c d) (hn : 2 ≤ n) :
    ∃ s T1, t.narrowByLiteral c n T = some (s, T1) ∧
      (∀ m ∈ T.members t, T.Holds d m → overlooks T c m = false →
        s.yes ≠ .never ∧ ∃ p, (p = c ∨ p = m) ∧ T1.Accepts p s.yes) ∧
      ∀ m, m ≠ .never → (m ∈ splitMembers T1 s.no ↔
        m ∈ splitMembers T t ∧ isExactly T c m = false) := by
  have hwf := hT.truthful.sound.wellFormed
  have hms : ∀ m ∈ T.members t, T.Has m ∧ (T.shape m).isScalar = true := fun m hm =>
    ⟨hwf.has_member ht hm, hscalar m hm⟩
  obtain ⟨os, T1, hparts, hcalls, hos, hall⟩ := equalParts_spec hwf hc hms hT (le_refl T) hn
  have h1 := hT.calls hcalls
  have hle1 := (hT.truthful.succeeds hcalls).1.le
  have hwf1 := h1.truthful.sound.wellFormed
  -- the other side is made before the first one
  obtain ⟨no, T2, hno, -, hnomem⟩ := settles_selected hwf1 (has_of_le hle1 ht) htop
    ((splitMembers T1 t).filter fun m => m ≠ c && enumValue? T1 m ≠ some c)
    fun _ hm => List.mem_of_mem_filter hm
  have hle2 := hno.adds.le
  obtain ⟨hcall2, hnohas⟩ := Assign.called_unionOf hwf1
    (fun m hm => has_splitMembers hwf1 (has_of_le hle1 ht) (List.mem_of_mem_filter hm)) hno.result
  have hos2 : ∀ p ∈ os.filterMap id, T2.Constant p d := by
    intro p hp
    obtain ⟨o, ho, rfl⟩ := List.mem_filterMap.mp hp
    exact (hos p ho).of_le (hle1.trans hle2)
  obtain ⟨⟨yes, T3⟩, hyes⟩ : ∃ q, unionOf (os.filterMap id) T2 = q := ⟨_, rfl⟩
  obtain ⟨hle3, haccepts⟩ := unionOf_constants (h1.call hcall2) hos2 hyes
  refine ⟨⟨yes, no⟩, T3, ?_, fun m hm hv hseen => ?_, fun m hnever => ?_⟩
  · have hmembers : (liftM t.members : Typing (List Ty)) n T = some (T.members t, T) := rfl
    have hsecond : (liftM (t.filterMembers fun m => m ≠ c && enumValue? T1 m ≠ some c) : Typing Ty)
        n T1 = some (no, T2) := congrArg some hno.result
    have hfirst : (liftM (unionOf (os.filterMap id)) : Typing Ty) n T2 = some (yes, T3) :=
      congrArg some hyes
    unfold narrowByLiteral
    rw [Typing.bind_of_some (resolveMembers_of_ofScalars hscalar n), if_neg (by simp [htop]),
      Typing.bind_of_some hmembers, Typing.bind_of_some hparts, Typing.get_bind,
      Typing.bind_of_some hsecond, Typing.bind_of_some hfirst]
    rfl
  · obtain ⟨p, hp, heq⟩ := hall m hm hv hseen
    obtain ⟨hnever, hp⟩ := haccepts p (List.mem_filterMap.mpr ⟨some p, hp, rfl⟩)
    exact ⟨hnever, p, heq, hp⟩
  · rw [splitMembers_of_le hle3 hnohas, hnomem m hnever, List.mem_filter,
      splitMembers_of_le hle1 ht]
    refine and_congr_right fun hm => ?_
    rw [Assign.enumValue?_of_le hle1 (has_splitMembers hwf ht hm)]
    simp [isExactly]

/-- **The test of equality keeps the values.** If a member may be the constant and is not
overlooked, the one side is more than `never` and accepts the constant or the member. A member that
has another value, with `boolean` as two, is on the other side. -/
theorem narrowByLiteral_keeps (hT : T.Resolved) (ht : T.Has t) (hscalar : T.OfScalars t)
    (hc : T.Constant c d) (hn : 2 ≤ n) : ∃ s T1, t.narrowByLiteral c n T = some (s, T1) ∧
      (∀ m ∈ T.members t, T.Holds d m → overlooks T c m = false →
        s.yes ≠ .never ∧ (T1.Accepts c s.yes ∨ T1.Accepts m s.yes)) ∧
      ∀ m ∈ splitMembers T t, ∀ v, v ≠ d → T.Holds v m → m ∈ splitMembers T1 s.no := by
  have hwf := hT.truthful.sound.wellFormed
  cases htop : t.isTop with
  | true =>
    refine ⟨⟨c, t⟩, T, ?_, fun m _ _ _ => ⟨hc.single.1.2, .inl ?_⟩, fun m hm _ _ _ => hm⟩
    · unfold narrowByLiteral
      rw [Typing.bind_of_some (resolveMembers_of_ofScalars hscalar n), if_pos htop]
      rfl
    · exact hT.accepts hc.has hc.has (fun U _ _ => Assign.holds_refl U c) .refl
  | false =>
    obtain ⟨s, T1, hrun, hyes, hno⟩ := narrowByLiteral_selects hT ht htop hscalar hc hn
    refine ⟨s, T1, hrun, fun m hm hv hseen => ?_, fun m hm v hne hv => ?_⟩
    · obtain ⟨hnever, p, rfl | rfl, hp⟩ := hyes m hm hv hseen
      · exact ⟨hnever, .inl hp⟩
      · exact ⟨hnever, .inr hp⟩
    · have hnever : m ≠ .never := by
        rintro rfl
        exact not_holds_never hv
      have hmhas := has_splitMembers hwf ht hm
      exact (hno m hnever).mpr ⟨hm, isExactly_of_holds hwf hc hmhas hne hv⟩

/-- Where a number or a string is compared with a number, that is kept on the one side, and both are
on the other one. -/
theorem narrowByLiteral_keeps_number : ∃ s T1,
    (Ty.made 0).narrowByLiteral (.made 2) 2 chosen = some (s, T1) ∧
    (s.yes ≠ .never ∧ (T1.Accepts (.made 2) s.yes ∨ T1.Accepts .number s.yes)) ∧
    .number ∈ splitMembers T1 s.no ∧ .string ∈ splitMembers T1 s.no := by
  obtain ⟨-, -, -, -, hunion, -⟩ := facts_chosen
  have hzero : chosen.shape (.made 2) = .literal (.number (.ofNat 0)) := by
    with_unfolding_all decide
  have hmembers := members_of_union hunion
  have hscalar : chosen.OfScalars (.made 0) := by
    rw [OfScalars, hmembers]
    exact Interning.forall_mem_pair rfl rfl
  have hholds {l : Literal} {p : Primitive} (h : (RuntimeValue.literal l).IsOf p) :
      chosen.Holds (.literal l) (.prim p) := (holds_primitive rfl).mpr h
  obtain ⟨s, T1, hrun, hyes, hno⟩ := narrowByLiteral_keeps resolved_chosen (t := .made 0)
    (has_of_shape (by simp [hunion])) hscalar (.literal hzero) (le_refl 2)
  have hin : ∀ p ∈ [Ty.number, .string], p ∈ splitMembers chosen (.made 0) := by
    rw [splitMembers, hmembers]
    decide
  refine ⟨s, T1, hrun, hyes .number (by simp [hmembers]) (hholds rfl) rfl,
    hno _ (hin _ (by simp)) (.literal (.number (.ofNat 1))) (by decide) (hholds rfl),
    hno _ (hin _ (by simp)) (.literal (.string "a")) (by simp) (hholds rfl)⟩

/-- **A text that is a value of an enum is lost**: nothing remains of the enum where it equals the
text. -/
theorem not_narrowByLiteral_keeps_text : ∃ (T : Table) (t c : Ty) (v : RuntimeValue),
    T.Resolved ∧ T.Has t ∧ T.OfScalars t ∧ T.Constant c v ∧ t ∈ T.members t ∧ T.Holds v t ∧
    (t.narrowByLiteral c 9 T).map (·.1) = some ⟨.never, t⟩ := by
  obtain ⟨-, henum, hmember, -⟩ := facts_chosen
  have hvalue : chosen.shape (.made 1) = .literal (.string "b") := by with_unfolding_all decide
  refine ⟨chosen, .made 3, .made 1, .literal (.string "b"), resolved_chosen,
    has_of_shape (by simp [henum]), ?_, .literal hvalue, ?_,
    .enumeration henum (m := .made 4) (by simp [choice]) (by simp [enumValue?, hmember])
      (.literal hvalue rfl), ?_⟩
  · simp [OfScalars, Table.members, henum, Shape.isScalar]
  · simp [Table.members, henum]
  · with_unfolding_all decide

end Ty

end ShapeCheck
