import ShapeCheck.Proofs.SplitMembers
import ShapeCheck.Proofs.RuntimeValues
import ShapeCheck.Proofs.Narrowing
import ShapeCheck.Proofs.StandIns

/-!
# Narrowing member by member

The tests of the kind and of the truth look at each member of a type alone. A member whose values
all pass, or all fail, goes to that side, and one that has values of either sort to both. Two sorts
of members are put on one side only, though they have values on the other: enums with values of
several kinds and type parameters with such a bound, and the falsy literals `NaN` and `0n`.

* `Ty.narrowByTruthiness_selects` and `Ty.narrowByKind_selects` say which members each side has.
* `Ty.narrowByTruthiness_keeps` and `Ty.narrowByKind_keeps` say which values are kept.
-/

namespace ShapeCheck

open Relation (ReflTransGen)
open Typing

variable {l : Literal} {value : Ty} {x : TypeVar}

open Table

namespace Ty

variable {T T1 : Table} {t m : Ty} {v : RuntimeValue}

/-! ## Scalar members -/

theorem hasOpenHead_of_ofScalars (h : T.OfScalars t) : hasOpenHead T t = false := by
  by_cases hunion : (T.shape t).IsUnion
  · obtain ⟨ms, hms⟩ := hunion
    simp [hasOpenHead, hms]
  · exact hasOpenHead_of_isScalar (h t (by simp [Assign.members_of_not_isUnion hunion]))

theorem resolveMembers_of_ofScalars (h : T.OfScalars t) (n : Nat) :
    t.resolveMembers n T = some (t, T) :=
  resolveMembers_closed (hasOpenHead_of_ofScalars h)
    (fun m hm => hasOpenHead_of_isScalar (h m hm)) n

theorem ofScalars_of_isScalar (h : (T.shape t).isScalar = true) : T.OfScalars t := by
  intro m hm
  rw [Assign.members_of_not_isUnion, List.mem_singleton] at hm
  · rwa [hm]
  · rintro ⟨ms, hms⟩
    simp [hms, Shape.isScalar] at h

theorem isScalar_of_splitMembers (h : T.OfScalars t) (hm : m ∈ splitMembers T t) :
    (T.shape m).isScalar = true := by
  rcases mem_splitMembers_iff.mp hm with ⟨hm, -⟩ | ⟨⟨b, rfl⟩, -⟩
  · exact h m hm
  · rfl

/-! ## The test of the truth -/

/-- The literal that all values of a literal type or of a member of an enum are. -/
def value? (T : Table) (t : Ty) : Option Literal :=
  match T.shape t with
  | .literal l => some l
  | .enumMember _ _ value => T.literal? value
  | _ => none

theorem isFalsyLiteral_of_isTruthy (h : (RuntimeValue.literal l).isTruthy = true) :
    isFalsyLiteral l = false := by
  cases l with
  | number x => simp_all [RuntimeValue.isTruthy, isFalsyLiteral]
  | string s => simpa [RuntimeValue.isTruthy, isFalsyLiteral] using h
  | boolean b => simpa [RuntimeValue.isTruthy, isFalsyLiteral] using h
  | bigint n => rfl

theorem isFalsyLiteral_of_not_isTruthy (h : (RuntimeValue.literal l).isTruthy = false)
    (hl : l ≠ .number .nan ∧ l ≠ .bigint 0) : isFalsyLiteral l = true := by
  cases l with
  | number x => simp_all [RuntimeValue.isTruthy, isFalsyLiteral]
  | string s => simpa [RuntimeValue.isTruthy, isFalsyLiteral] using h
  | boolean b => simpa [RuntimeValue.isTruthy, isFalsyLiteral] using h
  | bigint n => simp_all [RuntimeValue.isTruthy]

theorem holds_of_value? (hl : value? T m = some l) : T.Holds v m ↔ v = .literal l := by
  unfold value? at hl
  cases hs : T.shape m with
  | literal k =>
    rw [hs] at hl
    exact Option.some.inj hl ▸ holds_literal hs
  | enumMember enum name value =>
    rw [hs] at hl
    exact (holds_enumMember hs).trans (holds_literal (shape_of_literal? hl))
  | _ => simp [hs] at hl

theorem exists_value? (hT : T.WellFormed) {enum : Ty} {name : String}
    (hs : T.shape m = .enumMember enum name value) :
    ∃ l, T.literal? value = some l ∧ value? T m = some l := by
  have hsome : (T.literal? value).isSome := by
    obtain ⟨n, e, rfl, he, hshape⟩ := exists_entry hs (by simp) (by simp)
    exact (hT.entry n e he).values _ _ _ hshape
  obtain ⟨l, hl⟩ := Option.isSome_iff_exists.mp hsome
  exact ⟨l, hl, by simp [value?, hs, hl]⟩

/-- A type with a value that counts as true does not always count as false. -/
theorem isFalsy_of_isTruthy (hT : T.WellFormed) (hv : T.Holds v m) (htruthy : v.isTruthy = true) :
    isFalsy T m = false := by
  cases hs : T.shape m with
  | literal l =>
    rw [(holds_literal hs).mp hv] at htruthy
    simpa [isFalsy, hs] using isFalsyLiteral_of_isTruthy htruthy
  | enumMember enum name value =>
    obtain ⟨l, hl, hvalue⟩ := exists_value? hT hs
    rw [(holds_of_value? hvalue).mp hv] at htruthy
    simpa [isFalsy, hs, hl] using isFalsyLiteral_of_isTruthy htruthy
  | _ =>
    simp only [isFalsy, hs]
    by_contra hnullish
    simp only [isNullish, Bool.not_eq_false, Bool.or_eq_true, decide_eq_true_eq] at hnullish
    rcases hnullish with (rfl | rfl) | rfl
    all_goals
      rw [holds_primitive rfl] at hv
      cases v with
      | literal l => cases l <;> simp [RuntimeValue.IsOf, Literal.base] at hv
      | _ => simp [RuntimeValue.IsOf, RuntimeValue.isTruthy] at hv htruthy

/-- A type with a value that counts as false can count as false, unless that value is `NaN` or the
bigint zero and the only one. -/
theorem canBeFalsy_of_not_isTruthy (hT : T.WellFormed) (hv : T.Holds v m)
    (htruthy : v.isTruthy = false)
    (hseen : ∀ l, value? T m = some l → l ≠ .number .nan ∧ l ≠ .bigint 0)
    (hscalar : (T.shape m).isScalar = true) : canBeFalsy T m = true := by
  cases hs : T.shape m with
  | literal l =>
    rw [(holds_literal hs).mp hv] at htruthy
    simpa [canBeFalsy, isFalsy, hs] using
      isFalsyLiteral_of_not_isTruthy htruthy (hseen l (by simp [value?, hs]))
  | enumMember enum name value =>
    obtain ⟨l, hl, hvalue⟩ := exists_value? hT hs
    rw [(holds_of_value? hvalue).mp hv] at htruthy
    simpa [canBeFalsy, isFalsy, hs, hl] using
      isFalsyLiteral_of_not_isTruthy htruthy (hseen l hvalue)
  | primitive p =>
    simp only [canBeFalsy, hs, decide_eq_true_eq]
    rintro rfl
    rw [holds_primitive hs] at hv
    cases v with
    | literal l => cases l <;> simp [RuntimeValue.IsOf, Literal.base] at hv
    | _ => simp [RuntimeValue.IsOf, RuntimeValue.isTruthy] at hv htruthy
  | enumeration | parameter => simp [canBeFalsy, hs]
  | _ => simp [hs, Shape.isScalar] at hscalar

/-- The sides have the members that do not always, and that can, count as false. -/
theorem narrowByTruthiness_selects (hT : T.WellFormed) (ht : T.Has t) (htop : t.isTop = false)
    (hclosed : ∀ n, t.resolveMembers n T = some (t, T)) :
    ∃ s T1, (∀ n, t.narrowByTruthiness n T = some (s, T1)) ∧ T ≤ T1 ∧ T1.WellFormed ∧
      s.Selects T T1 t (fun m => !isFalsy T m) (canBeFalsy T) := by
  obtain ⟨yes, T1, no, T2, hyes, hle1, hno, hle2, hT2, hselects⟩ :=
    sides_select hT ht htop (fun m => !isFalsy T m) (canBeFalsy T)
  refine ⟨⟨yes, no⟩, T2, fun n => ?_, hle1.trans hle2, hT2, hselects⟩
  unfold narrowByTruthiness
  rw [bind_of_some (hclosed n), if_neg (by simp [htop]), get_bind]
  have hfirst : (liftM (t.filterMembers fun m => !isFalsy T m) : Typing Ty) n T = some (yes, T1) :=
    congrArg some hyes
  have hsecond : (liftM (t.filterMembers (canBeFalsy T)) : Typing Ty) n T1 = some (no, T2) := by
    refine congrArg some (Eq.trans ?_ hno)
    change unionOf ((splitMembers T1 t).filter (canBeFalsy T)) T1 = _
    rw [splitMembers_of_le hle1 ht]
  rw [bind_of_some hfirst, bind_of_some hsecond]
  rfl

/-- **The test of the truth keeps the values.** A member that has a value that counts as true is on
the one side, and a member that has a value that counts as false is on the other, unless that is
`NaN` or the bigint zero and its only value. -/
theorem narrowByTruthiness_keeps (hT : ReflTransGen Operated {} T) (ht : T.Has t)
    (hscalar : T.OfScalars t) : ∃ s T1, (∀ n, t.narrowByTruthiness n T = some (s, T1)) ∧
      ∀ m ∈ splitMembers T t, ∀ v, T.Holds v m →
        (v.isTruthy = true → m ∈ splitMembers T1 s.yes) ∧
        (v.isTruthy = false → (∀ l, value? T m = some l → l ≠ .number .nan ∧ l ≠ .bigint 0) →
          m ∈ splitMembers T1 s.no) := by
  have hwf := (faithful_empty.operations hT).1.wellFormed
  have hclosed := resolveMembers_of_ofScalars hscalar
  cases htop : t.isTop with
  | true =>
    refine ⟨⟨t, t⟩, T, fun n => ?_, fun m hm v _ => ⟨fun _ => hm, fun _ _ => hm⟩⟩
    unfold narrowByTruthiness
    rw [bind_of_some (hclosed n), if_pos htop]
    rfl
  | false =>
    obtain ⟨s, T1, hrun, -, -, hselects⟩ := narrowByTruthiness_selects hwf ht htop hclosed
    refine ⟨s, T1, hrun, fun m hm v hv => ?_⟩
    have hne : m ≠ .never := by
      rintro rfl
      exact not_holds_never hv
    constructor
    · intro htruthy
      exact (hselects.yes m hne).mpr ⟨hm, by simp [isFalsy_of_isTruthy hwf hv htruthy]⟩
    · intro hfalsy hseen
      exact (hselects.no m hne).mpr ⟨hm, canBeFalsy_of_not_isTruthy hwf hv hfalsy hseen
        (isScalar_of_splitMembers hscalar hm)⟩

/-- `boolean` is split into its two values. -/
theorem narrowByTruthiness_keeps_boolean : ∃ s T1,
    (∀ n, Ty.boolean.narrowByTruthiness n {} = some (s, T1)) ∧
      .truth true ∈ splitMembers T1 s.yes ∧ .truth false ∈ splitMembers T1 s.no := by
  obtain ⟨s, T1, hrun, hkeeps⟩ := narrowByTruthiness_keeps .refl
    (has_prim {} .boolean) (t := .boolean)
    (by simp [OfScalars, Table.members, Table.shape, Shape.isScalar])
  have hin : ∀ b, .truth b ∈ splitMembers {} .boolean := by decide
  have hholds : ∀ b, ({} : Table).Holds (.literal (.boolean b)) (.truth b) :=
    fun b => .literal rfl rfl
  exact ⟨s, T1, hrun, (hkeeps _ (hin true) _ (hholds true)).1 rfl,
    (hkeeps _ (hin false) _ (hholds false)).2 rfl (by simp [value?, Table.shape])⟩

/-- **The bigint zero counts as false and is only kept on the other side.** -/
theorem not_narrowByTruthiness_keeps_bigint : ∃ (T : Table) (t : Ty) (v : RuntimeValue),
    ReflTransGen Operated {} T ∧ T.Has t ∧ T.OfScalars t ∧ t ∈ splitMembers T t ∧
    T.Holds v t ∧ v.isTruthy = false ∧
    (t.narrowByTruthiness 9 T).map (·.1) = some ⟨t, .never⟩ ∧ t ∉ splitMembers T .never := by
  let T := (literalOf (.bigint 0) {}).2
  have hT : ReflTransGen Operated {} T :=
    .single (.call (.construct (.literal (.bigint 0)) (by simp [Construction.inputs]) trivial))
  have hshape : T.shape (.made 0) = .literal (.bigint 0) := by with_unfolding_all decide
  refine ⟨T, .made 0, .literal (.bigint 0), hT, has_of_shape (by simp [hshape]), ?_, ?_,
    .literal hshape rfl, rfl, ?_, ?_⟩
  · simp [OfScalars, Table.members, hshape, Shape.isScalar]
  · simp [splitMembers, Table.members, hshape]
  · with_unfolding_all decide
  · decide

/-! ## The test of the kind -/

/-- An enum whose values are neither all strings nor all numbers. -/
def isMixed (T : Table) (t : Ty) : Bool :=
  match T.shape t with
  | .enumeration e => !allValues T e .string && !allValues T e .number
  | _ => false

/-- A type that has values of several kinds: a mixed enum, a union, a type parameter, or one of the
types that take every value. -/
def hasSeveralKinds (T : Table) (t : Ty) : Bool :=
  match T.shape t with
  | .union _ | .parameter _ => true
  | .primitive p => (Ty.prim p).isTop
  | _ => isMixed T t

theorem isMixed_of_hasSeveralKinds (h : hasSeveralKinds T t = false) : isMixed T t = false := by
  cases hs : T.shape t with
  | enumeration => simpa [hasSeveralKinds, hs] using h
  | _ => simp [isMixed, hs]

/-- The type that a member is taken for: the bound of a type parameter, else the member itself. -/
def apparent (T : Table) (t : Ty) : Ty :=
  match T.shape t with
  | .parameter x => (T.typeVar x).bound.getD t
  | _ => t

theorem apparent_of_unbounded (hs : T.shape m = .parameter x)
    (hb : (T.typeVar x).bound = none) : apparent T m = m := by
  simp [apparent, hs, hb]

theorem apparent_of_bound {b : Ty} (hs : T.shape m = .parameter x)
    (hb : (T.typeVar x).bound = some b) : apparent T m = b := by
  simp [apparent, hs, hb]

theorem holds_apparent (hv : T.Holds v m) : T.Holds v (apparent T m) := by
  cases hs : T.shape m with
  | parameter x =>
    cases hb : (T.typeVar x).bound with
    | none => rwa [apparent_of_unbounded hs hb]
    | some b =>
      rw [apparent_of_bound hs hb]
      cases hv with
      | bounded h hb' hv =>
        obtain rfl := Shape.parameter.inj (hs.symm.trans h)
        rw [Option.some.inj (hb'.symm.trans hb)] at hv
        exact hv
      | unbounded h hb' =>
        obtain rfl := Shape.parameter.inj (hs.symm.trans h)
        exact absurd (hb'.symm.trans hb) (by simp)
      | primitive h | literal h | union h | enumMember h | enumeration h => simp [hs] at h
  | _ => simpa only [apparent, hs] using hv

/-- The values of an enum that is not mixed are of the kind that is given for the enum. -/
theorem kind_of_enumeration {e : Enumeration} {p : Primitive}
    (hall : allValues T e p = true) (hm : m ∈ e.members) (hvalue : enumValue? T m = some value)
    (hv : T.Holds v value) : v.kind = p.text := by
  have hbase := of_decide_eq_true (List.all_eq_true.mp hall m hm)
  rw [hvalue] at hbase
  obtain ⟨l, hl, rfl⟩ := Option.map_eq_some_iff.mp hbase
  rw [(holds_literal (shape_of_literal? hl)).mp hv]
  rfl

/-- The kind that is given for a type is that of its values. There is none for types with values of
several kinds, mixed enums apart. -/
theorem kindOf_of_holds (hT : T.WellFormed) (hv : T.Holds v t) (hmixed : isMixed T t = false) :
    kindOf T t = if hasSeveralKinds T t then none else some v.kind := by
  cases hv with
  | @primitive _ p hs hv =>
    simp only [kindOf, hasSeveralKinds, hs]
    cases htop : (Ty.prim p).isTop with
    | true => cases p <;> first | rfl | exact absurd htop (by decide)
    | false => exact RuntimeValue.primitiveKind_of_isOf hv htop
  | @literal _ l hs hv =>
    rw [hv]
    cases l <;> simp [kindOf, hasSeveralKinds, isMixed, hs, RuntimeValue.kind] <;> rfl
  | enumMember hs hv =>
    obtain ⟨l, hl, -⟩ := exists_value? hT hs
    rw [(holds_literal (shape_of_literal? hl)).mp hv]
    cases l <;> simp [kindOf, hasSeveralKinds, isMixed, hs, hl, RuntimeValue.kind] <;> rfl
  | @enumeration _ m _ e hs hm hvalue hv =>
    have hsome : e.members.isEmpty = false := by
      simpa using List.ne_nil_of_mem hm
    simp only [isMixed, hs, Bool.and_eq_false_iff, Bool.not_eq_false'] at hmixed
    simp only [kindOf, hasSeveralKinds, isMixed, hs, isStringEnum, hsome, Bool.not_false,
      Bool.true_and]
    cases hstring : allValues T e .string with
    | true => simp [kind_of_enumeration hstring hm hvalue hv, Primitive.text]
    | false =>
      have hnumber := hmixed.resolve_left (by simp [hstring])
      simp [hnumber, kind_of_enumeration hnumber hm hvalue hv, Primitive.text]
  | union hs | bounded hs | unbounded hs => simp [kindOf, hasSeveralKinds, hs]

theorem has_apparent (hT : T.WellFormed) (hm : T.Has m) : T.Has (apparent T m) := by
  cases hs : T.shape m with
  | parameter x =>
    cases hb : (T.typeVar x).bound with
    | none => rwa [apparent_of_unbounded hs hb]
    | some b => rw [apparent_of_bound hs hb]; exact has_of_bound hT hb
  | _ => simpa only [apparent, hs] using hm

theorem kindOf_of_le (hT : T.WellFormed) (hle : T ≤ T1) (ht : T.Has t) :
    kindOf T1 t = kindOf T t := by
  unfold kindOf
  rw [shape_of_le hle ht]
  cases hs : T.shape t with
  | enumMember enum name value =>
    have hvalue : T.Has value := hT.has_part ht (by simp [hs, Shape.parts])
    simp only [literal?_of_le hle hvalue]
  | enumeration e =>
    have hmembers := Assign.has_enumMembers hT hs
    have hall : allValues T1 e .string = allValues T e .string := by
      unfold allValues
      rw [Bool.eq_iff_iff, List.all_eq_true, List.all_eq_true]
      refine forall₂_congr fun m hm => ?_
      rw [Assign.enumLiteral_of_le hT hle (hmembers m hm)]
    simp only [isStringEnum, hall]
    rfl
  | _ => rfl

/-- The kind of a member is the one of the type that it is taken for. -/
theorem hasKind_apparent (hT : T.WellFormed) (hle : T ≤ T1) (hm : T.Has m)
    (hclosed : hasOpenHead T (apparent T m) = false) (kind : String) (n : Nat) :
    hasKind kind m n T1 = some (decide ((kindOf T (apparent T m)).getD "" = kind), T1) := by
  have happarent := has_apparent hT hm
  rw [← kindOf_of_le hT hle happarent]
  unfold hasKind
  rw [get_bind, shape_of_le hle hm]
  cases hs : T.shape m with
  | parameter x =>
    dsimp only
    rw [typeVar_of_le hle (Assign.knows_of_shape hT hs)]
    cases hb : (T.typeVar x).bound with
    | none =>
      rw [apparent_of_unbounded hs hb]
      rfl
    | some b =>
      rw [apparent_of_bound hs hb] at hclosed happarent ⊢
      dsimp only
      rw [bind_of_some
        (resolve_closed n ((hasOpenHead_of_le hT hle happarent).trans hclosed))]
      rfl
  | _ =>
    simp only [apparent, hs]
    rfl

/-- The sides have the members that are, and that are not, taken to be of the kind. -/
theorem narrowByKind_selects (hT : T.WellFormed) (ht : T.Has t) (htop : t.isTop = false)
    (hclosed : ∀ n, t.resolveMembers n T = some (t, T))
    (hbounds : ∀ m ∈ splitMembers T t, hasOpenHead T (apparent T m) = false) (kind : String) :
    ∃ s T1, (∀ n, t.narrowByKind kind n T = some (s, T1)) ∧ T ≤ T1 ∧ T1.WellFormed ∧
      s.Selects T T1 t (fun m => decide ((kindOf T (apparent T m)).getD "" = kind))
        fun m => !decide ((kindOf T (apparent T m)).getD "" = kind) := by
  obtain ⟨yes, T1, no, T2, hyes, hle1, hno, hle2, hT2, hselects⟩ :=
    sides_select hT ht htop (fun m => decide ((kindOf T (apparent T m)).getD "" = kind))
      fun m => !decide ((kindOf T (apparent T m)).getD "" = kind)
  refine ⟨⟨yes, no⟩, T2, fun n => ?_, hle1.trans hle2, hT2, hselects⟩
  have hkind {U : Table} (hle : T ≤ U) (m : Ty) (hm : m ∈ splitMembers T t) :=
    hasKind_apparent hT hle (has_splitMembers hT ht hm) (hbounds m hm) kind n
  have hfirst : (liftM (unionOf ((splitMembers T t).filter fun m =>
      decide ((kindOf T (apparent T m)).getD "" = kind))) : Typing Ty) n T = some (yes, T1) :=
    congrArg some hyes
  have hsecond : (liftM (unionOf ((splitMembers T t).filter fun m =>
      !decide ((kindOf T (apparent T m)).getD "" = kind))) : Typing Ty) n T1 = some (no, T2) :=
    congrArg some hno
  unfold narrowByKind
  rw [bind_of_some (hclosed n), if_neg (by simp [htop]), get_bind]
  rw [bind_of_some (select_eq _ fun m hm => hkind (le_refl T) m hm),
    bind_of_some hfirst,
    bind_of_some (select_eq (p := fun m =>
      !decide ((kindOf T (apparent T m)).getD "" = kind)) _ fun m hm => ?_),
    bind_of_some hsecond]
  · rfl
  · rw [bind_of_some (hkind hle1 m hm)]
    rfl

theorem holds_of_isTop (htop : t.isTop = true) : T.Holds v t := by
  simp only [isTop, Bool.or_eq_true, decide_eq_true_eq] at htop
  rcases htop with (rfl | rfl) | rfl
  · exact .primitive rfl (by cases v <;> trivial)
  · exact .primitive rfl (by cases v <;> trivial)
  · exact .primitive rfl (by cases v <;> trivial)

/-- What a test of the kind proves of a value of any type. -/
theorem holds_provenByKind (htop : t.isTop = true) (v : RuntimeValue) :
    T.Holds v ((provenByKind v.kind).getD t) := by
  cases v with
  | literal l => cases l <;> exact .primitive rfl rfl
  | symbol => exact .primitive rfl rfl
  | undefined => exact .primitive rfl (.inl rfl)
  | null | object | function => exact holds_of_isTop htop

/-- The members are scalar if what they are taken for is. -/
theorem ofScalars_of_apparent (hT : T.WellFormed)
    (h : ∀ m ∈ T.members t, T.OfScalars (apparent T m)) : T.OfScalars t := by
  intro m hm
  cases hs : T.shape m with
  | parameter => rfl
  | union ms => exact absurd ⟨ms, hs⟩ (Assign.not_isUnion_of_member hT hm)
  | _ => simpa [apparent, Table.members, hs] using h m hm m

/-- Both halves of `boolean` are of its kind. -/
theorem kindOf_of_splitMembers (hT : T.WellFormed) (hm : m ∈ T.members t) :
    ∀ k ∈ splitMembers T m, kindOf T (apparent T k) = kindOf T (apparent T m) := by
  rw [splitMembers_member hT hm]
  split_ifs with hboolean
  · rw [hboolean]
    exact Interning.forall_mem_pair rfl rfl
  · simp

/-- **The test of the kind keeps the values.** A member that has a value of the kind is on the one
side, unless it is a type parameter or an enum with values of several kinds. A member that has a
value of another kind is on the other side, unless it is such an enum. A type parameter is judged by
its bound. Of a type that takes every value the first side is the primitive that the kind proves. -/
theorem narrowByKind_keeps (hT : ReflTransGen Operated {} T) (ht : T.Has t)
    (hscalar : ∀ m ∈ T.members t, T.OfScalars (apparent T m)) (kind : String) (hkind : kind ≠ "") :
    ∃ s T1, (∀ n, t.narrowByKind kind n T = some (s, T1)) ∧
      (t.isTop = true → s.no = t ∧ ∀ v, v.kind = kind → T1.Holds v s.yes) ∧
      (t.isTop = false → ∀ m ∈ T.members t, ∀ v, T.Holds v m →
        (v.kind = kind → hasSeveralKinds T (apparent T m) = false → m ∈ T1.members s.yes) ∧
        (v.kind ≠ kind → isMixed T (apparent T m) = false → m ∈ T1.members s.no)) := by
  have hwf := (faithful_empty.operations hT).1.wellFormed
  have hclosed := resolveMembers_of_ofScalars (ofScalars_of_apparent hwf hscalar)
  cases htop : t.isTop with
  | true =>
    refine ⟨⟨(provenByKind kind).getD t, t⟩, T, fun n => ?_, fun _ => ⟨rfl, ?_⟩, by simp⟩
    · unfold narrowByKind
      rw [bind_of_some (hclosed n), if_pos htop]
      rfl
    · rintro v rfl
      exact holds_provenByKind htop v
  | false =>
    have hbounds : ∀ m ∈ splitMembers T t, hasOpenHead T (apparent T m) = false := by
      intro m hm
      rcases mem_splitMembers_iff.mp hm with ⟨hm, -⟩ | ⟨⟨b, rfl⟩, -⟩
      · exact hasOpenHead_of_ofScalars (hscalar m hm)
      · rfl
    obtain ⟨s, T1, hrun, -, hT1, hselects⟩ := narrowByKind_selects hwf ht htop hclosed hbounds kind
    refine ⟨s, T1, hrun, by simp, fun _ m hm v hv => ?_⟩
    have hne : m ≠ .never := by
      rintro rfl
      exact not_holds_never hv
    have hgiven := kindOf_of_holds hwf (holds_apparent hv)
    refine ⟨fun hpasses hsingle => ?_, fun hfails hmixed => ?_⟩
    · refine mem_members_of_selected hwf hT1 hselects.yes hm hne fun k hk => ?_
      rw [kindOf_of_splitMembers hwf hm k hk, hgiven (isMixed_of_hasSeveralKinds hsingle), hsingle]
      simp [hpasses]
    · refine mem_members_of_selected hwf hT1 hselects.no hm hne fun k hk => ?_
      rw [kindOf_of_splitMembers hwf hm k hk, hgiven hmixed]
      split
      · simp [Ne.symm hkind]
      · simp [hfails]

end Ty

namespace Table

/-- A type parameter that is bounded by `string`, and the union of it and the numbers. -/
def parametric : Table :=
  (bounding .string {}).2.push ⟨.union [.made 0, .number], "U:1,64", "T | number"⟩

theorem prepared_parametric : parametric.Prepared := by
  obtain ⟨hhas, hmembers, hordered, hnew, htext⟩ : (bounding .string {}).2.Has (.made 0) ∧
      Ty.unionMembers (bounding .string {}).2 [.made 0, .number] = [.made 0, .number] ∧
      [Ty.made 0, .number].Pairwise (fun a b => (bounding .string {}).2.inOrder a b = true) ∧
      (bounding .string {}).2.find? "U:1,64" = none ∧
      (bounding .string {}).2.shapeText (.union [.made 0, .number]) = "T | number" := by
    with_unfolding_all decide
  refine (Prepared.bounding .empty (has_prim _ _)).push_union
    (Interning.forall_mem_pair hhas (has_prim _ _)) hmembers (by decide) hordered ?_ hnew htext
  -- the key has the members by their numbers
  have hsame : (Shape.union [.made 0, .number]).key = (Shape.union [.number, .made 0]).key :=
    (Shape.key_eq_iff (by simp [Shape.Tidy]) (by simp [Shape.Tidy])).mpr
      (sameMembers_eq_iff.mpr (by simp [or_comm]))
  exact hsame.trans (Shape.key_union_ordered (by decide))

end Table

namespace Ty

/-- A type parameter that is bounded by `string` is kept where a string is asked for, and the
numbers next to it are kept on the other side. -/
theorem narrowByKind_keeps_bounded : ∃ (s : Split) (T1 : Table),
    (∀ n, (Ty.made 1).narrowByKind "string" n parametric = some (s, T1)) ∧
    .made 0 ∈ T1.members s.yes ∧ .number ∈ T1.members s.no := by
  obtain ⟨hmembers, hp, hbound⟩ : parametric.members (.made 1) = [.made 0, .number] ∧
      parametric.shape (.made 0) = .parameter ⟨0⟩ ∧
      (parametric.typeVar ⟨0⟩).bound = some .string := by
    with_unfolding_all decide
  have happarent : apparent parametric (.made 0) = .string := apparent_of_bound hp hbound
  have hscalar : ∀ m ∈ parametric.members (.made 1),
    parametric.OfScalars (apparent parametric m) := by
    rw [hmembers]
    refine Interning.forall_mem_pair ?_ ?_
    · rw [happarent]
      simp [OfScalars, Table.members, Table.shape, Shape.isScalar]
    · simp [apparent, OfScalars, Table.members, Table.shape, Shape.isScalar]
  obtain ⟨s, T1, hrun, -, hkeeps⟩ := narrowByKind_keeps prepared_parametric.operated (t := .made 1)
    (by with_unfolding_all decide) hscalar "string" (by decide)
  have hkeeps := hkeeps rfl
  rw [hmembers] at hkeeps
  refine ⟨s, T1, hrun, ?_, ?_⟩
  · refine (hkeeps _ (by simp) (.literal (.string "a"))
      (.bounded hp hbound (.primitive rfl rfl))).1 rfl ?_
    rw [happarent]
    rfl
  · refine (hkeeps _ (by simp) (.literal (.number .zero)) ?_).2 (by decide) rfl
    exact (holds_primitive (p := .number) rfl).mpr rfl

/-- **An enum with values of several kinds is taken for one of numbers**: the test for strings
leaves nothing of it, though one of its values is a string. -/
theorem not_narrowByKind_keeps_mixed : ∃ (T : Table) (t : Ty) (v : RuntimeValue),
    ReflTransGen Operated {} T ∧ T.Has t ∧ t ∈ T.members t ∧ T.OfScalars (apparent T t) ∧
    T.Holds v t ∧ v.kind = "string" ∧
    (t.narrowByKind "string" 9 T).map (·.1) = some ⟨.never, t⟩ ∧ t ∉ T.members .never := by
  obtain ⟨-, henum, hmember, -⟩ := facts_chosen
  have hvalue : chosen.shape (.made 1) = .literal (.string "b") := by with_unfolding_all decide
  refine ⟨chosen, .made 3, .literal (.string "b"), resolved_chosen.operated,
    has_of_shape (by simp [henum]), ?_, ?_,
    .enumeration henum (m := .made 4) (by simp [choice]) (by simp [enumValue?, hmember])
      (.literal hvalue rfl), rfl, ?_, ?_⟩
  · simp [Table.members, henum]
  · simp [apparent, OfScalars, Table.members, henum, Shape.isScalar]
  · with_unfolding_all decide
  · simp [Table.members, Table.shape]

end Ty

end ShapeCheck
