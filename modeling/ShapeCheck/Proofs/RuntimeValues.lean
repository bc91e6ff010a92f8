import ShapeCheck.Ty.Narrowing
import ShapeCheck.Proofs.Values

/-!
# Values at run time

The values of primitives, literals, enums, members of enums and type parameters, as the tests of a
program see them: a value has a kind, which `typeof` gives, and counts as true or false. An enum has
the values of its members, a type parameter those of its bound, and any value if it has no bound.

* `RuntimeValue` is a value, `Table.Holds` says that it is one of a type.
-/

namespace ShapeCheck

variable {p : Primitive} {l : Literal}

/-- A value at run time. Of symbols, objects and functions only their identity is known. -/
inductive RuntimeValue where
  | literal (l : Literal)
  | symbol (identity : Nat)
  | null
  | undefined
  | object (identity : Nat)
  | function (identity : Nat)
  deriving DecidableEq, Repr

namespace RuntimeValue

/-- What `typeof` gives for the value. -/
def kind : RuntimeValue → String
  | literal l => l.base.text
  | symbol _ => "symbol"
  | null | object _ => "object"
  | undefined => "undefined"
  | function _ => "function"

/-- Whether the value counts as true. The false ones are `false`, both zeros, the bigint zero,
`NaN`, the empty string and what is missing. -/
def isTruthy : RuntimeValue → Bool
  | literal (.number x) => !x.isZero && x ≠ .nan
  | literal (.string s) => !s.isEmpty
  | literal (.boolean b) => b
  | literal (.bigint n) => n ≠ 0
  | null | undefined => false
  | symbol _ | object _ | function _ => true

/-- The value is one of a primitive. -/
def IsOf : RuntimeValue → Primitive → Prop
  | _, .any | _, .unknown | _, .invalid => True
  | literal l, p => l.base = p
  | symbol _, p => p = .symbol
  | null, p => p = .null
  | undefined, p => p = .undefined ∨ p = .void
  | object _, _ | function _, _ => False

/-- A value of a primitive has the kind of the primitive, unless that has the values of all
kinds. -/
theorem primitiveKind_of_isOf {v : RuntimeValue} (hv : v.IsOf p)
    (htop : (Ty.prim p).isTop = false) : Ty.primitiveKind p = some v.kind := by
  cases p with
  | any | unknown | invalid => exact absurd htop (by decide)
  | _ =>
    cases v with
    | literal l => cases l <;> first | rfl | exact absurd hv (by simp [IsOf, Literal.base])
    | _ => first | rfl | exact absurd hv (by simp [IsOf])

theorem isOf_literal (htop : (Ty.prim p).isTop = false) : (literal l).IsOf p ↔ l.base = p := by
  cases p with
  | any | unknown | invalid => exact absurd htop (by decide)
  | _ => rfl

theorem not_isOf_never (v : RuntimeValue) : ¬v.IsOf .never := by
  cases v with
  | literal l => cases l <;> simp [IsOf, Literal.base]
  | _ => simp [IsOf]

end RuntimeValue

namespace Table

/-- The value is one of the type. -/
inductive Holds (T : Table) (v : RuntimeValue) : Ty → Prop
  | primitive {t : Ty} {p : Primitive} (h : T.shape t = .primitive p) (hv : v.IsOf p) : Holds T v t
  | literal {t : Ty} {l : Literal} (h : T.shape t = .literal l) (hv : v = .literal l) : Holds T v t
  | union {t m : Ty} {ms : List Ty} (h : T.shape t = .union ms) (hm : m ∈ ms) (hv : Holds T v m) :
    Holds T v t
  | enumMember {t enum value : Ty} {name : String} (h : T.shape t = .enumMember enum name value)
    (hv : Holds T v value) : Holds T v t
  | enumeration {t m value : Ty} {e : Enumeration} (h : T.shape t = .enumeration e)
    (hm : m ∈ e.members) (hvalue : Ty.enumValue? T m = some value)
    (hv : Holds T v value) : Holds T v t
  /-- A type parameter stands for some type that fits its bound. -/
  | bounded {t b : Ty} {x : TypeVar} (h : T.shape t = .parameter x)
    (hb : (T.typeVar x).bound = some b) (hv : Holds T v b) : Holds T v t
  | unbounded {t : Ty} {x : TypeVar} (h : T.shape t = .parameter x)
    (hb : (T.typeVar x).bound = none) : Holds T v t

section Holds

variable {T : Table} {v : RuntimeValue} {t c : Ty}

theorem holds_primitive (h : T.shape t = .primitive p) : T.Holds v t ↔ v.IsOf p := by
  refine ⟨fun hv => ?_, .primitive h⟩
  cases hv with
  | primitive h' hv => rwa [Shape.primitive.inj (h.symm.trans h')]
  | literal h' | union h' | enumMember h' | enumeration h' | bounded h' | unbounded h' =>
    simp [h] at h'

theorem holds_literal (h : T.shape t = .literal l) : T.Holds v t ↔ v = .literal l := by
  refine ⟨fun hv => ?_, .literal h⟩
  cases hv with
  | literal h' hv => rwa [Shape.literal.inj (h.symm.trans h')]
  | primitive h' | union h' | enumMember h' | enumeration h' | bounded h' | unbounded h' =>
    simp [h] at h'

theorem holds_enumMember {enum value : Ty} {name : String}
    (h : T.shape t = .enumMember enum name value) : T.Holds v t ↔ T.Holds v value := by
  refine ⟨fun hv => ?_, .enumMember h⟩
  cases hv with
  | enumMember h' hv =>
    obtain ⟨-, -, rfl⟩ := Shape.enumMember.inj (h.symm.trans h')
    exact hv
  | primitive h' | union h' | literal h' | enumeration h' | bounded h' | unbounded h' =>
    simp [h] at h'

theorem not_holds_never : ¬T.Holds v .never := by
  rw [holds_primitive (show T.shape .never = .primitive .never from rfl)]
  exact v.not_isOf_never

end Holds

end Table

namespace Shape

/-- The shapes of primitives, literals, enums, members of enums and type parameters. -/
def isScalar : Shape → Bool
  | primitive _ | literal _ | enumeration _ | enumMember _ _ _ | parameter _ => true
  | _ => false

end Shape

namespace Table

/-- All members of the type are scalar. -/
def OfScalars (T : Table) (t : Ty) : Prop := ∀ m ∈ T.members t, (T.shape m).isScalar = true

section Scalars

variable {T : Table} {t m : Ty}

theorem hasOpenHead_of_isScalar (h : (T.shape t).isScalar = true) : Ty.hasOpenHead T t = false := by
  unfold Ty.hasOpenHead
  cases hs : T.shape t with
  | reference | intersection => simp [hs, Shape.isScalar] at h
  | _ => rfl

end Scalars

/-- The type has a single value: it is a literal, a member of an enum, null or undefined. -/
inductive Constant (T : Table) : Ty → RuntimeValue → Prop
  | literal {c : Ty} {l : Literal} (h : T.shape c = .literal l) : Constant T c (.literal l)
  | enumMember {c enum value : Ty} {name : String} {l : Literal}
    (h : T.shape c = .enumMember enum name value) (hl : T.shape value = .literal l) :
    Constant T c (.literal l)
  | null : Constant T .null .null
  | undefined : Constant T .undefined .undefined

theorem Constant.holds_iff {T : Table} {c : Ty} {d v : RuntimeValue} (hc : T.Constant c d) :
    T.Holds v c ↔ v = d := by
  cases hc with
  | literal h => exact holds_literal h
  | enumMember h hl => exact (holds_enumMember h).trans (holds_literal hl)
  | null =>
    rw [holds_primitive (show T.shape .null = .primitive .null from rfl)]
    cases v with
    | literal l => cases l <;> simp [RuntimeValue.IsOf, Literal.base]
    | _ => simp [RuntimeValue.IsOf]
  | undefined =>
    rw [holds_primitive (show T.shape .undefined = .primitive .undefined from rfl)]
    cases v with
    | literal l => cases l <;> simp [RuntimeValue.IsOf, Literal.base]
    | _ => simp [RuntimeValue.IsOf]

end Table

end ShapeCheck
