import ShapeCheck.Number.Decimal
import ShapeCheck.Text.Quoted

/-!
# Types

A type is named by its identity `Ty`: one of the primitives, one of the two truth values, or the
number of an entry in a table of types. What such an entry says is its `Shape`, whose parts are
again identities. A table keeps one entry per shape, so two types are the same exactly when their
identities are.

* `Ty` and `Shape` are the two views of a type.
-/

namespace ShapeCheck

/-- The key type of an index signature. -/
inductive IndexKey where
  | string
  | number
  deriving DecidableEq, Repr, Inhabited

/-- The spelling of an index key type. -/
def IndexKey.text : IndexKey → String
  | .string => "string"
  | .number => "number"

/-- The fixed types. -/
inductive Primitive where
  | number
  | string
  | boolean
  | bigint
  | symbol
  | null
  | undefined
  | void
  | never
  | unknown
  | any
  /-- Stands for a type that failed to resolve; it fits everything in both directions. -/
  | invalid
  deriving DecidableEq, Repr, Inhabited

namespace Primitive

/-- The spelling of a primitive. -/
def text : Primitive → String
  | number => "number"
  | string => "string"
  | boolean => "boolean"
  | bigint => "bigint"
  | symbol => "symbol"
  | null => "null"
  | undefined => "undefined"
  | void => "void"
  | never => "never"
  | unknown => "unknown"
  | any => "any"
  | invalid => "<error>"

/-- The place of a primitive in the fixed order. -/
def ordinal : Primitive → Nat
  | number => 1
  | string => 2
  | boolean => 3
  | bigint => 4
  | symbol => 5
  | null => 6
  | undefined => 7
  | void => 8
  | never => 9
  | unknown => 10
  | any => 11
  | invalid => 12

/-- The primitive that a source can name so. -/
def ofName? : String → Option Primitive
  | "number" => some number
  | "string" => some string
  | "boolean" => some boolean
  | "bigint" => some bigint
  | "symbol" => some symbol
  | "null" => some null
  | "undefined" => some undefined
  | "void" => some void
  | "never" => some never
  | "unknown" => some unknown
  | "any" => some any
  | _ => none

end Primitive

/-- The identity of a type. -/
inductive Ty where
  | prim (p : Primitive)
  | truth (b : Bool)
  | made (n : Nat)
  deriving DecidableEq, Repr, Inhabited

namespace Ty

@[match_pattern] abbrev number : Ty := .prim .number
@[match_pattern] abbrev string : Ty := .prim .string
@[match_pattern] abbrev boolean : Ty := .prim .boolean
@[match_pattern] abbrev bigint : Ty := .prim .bigint
@[match_pattern] abbrev symbol : Ty := .prim .symbol
@[match_pattern] abbrev null : Ty := .prim .null
@[match_pattern] abbrev undefined : Ty := .prim .undefined
@[match_pattern] abbrev void : Ty := .prim .void
@[match_pattern] abbrev never : Ty := .prim .never
@[match_pattern] abbrev unknown : Ty := .prim .unknown
@[match_pattern] abbrev any : Ty := .prim .any
@[match_pattern] abbrev invalid : Ty := .prim .invalid

/-- The number of a type. The primitives come first, then the truth values, then the entries of the
table in the order in which they were made. -/
def serial : Ty → Nat
  | prim p => p.ordinal
  | truth true => 20
  | truth false => 21
  | made n => 64 + n

/-- The identity of a type as it is kept: its number in a word of 32 bits, in which counting starts
again from zero after the last one. -/
def word (t : Ty) : UInt32 := .ofNat t.serial

/-- How far up the table a type stands; the parts of an entry stand below it. -/
def rank : Ty → Nat
  | made n => n + 1
  | _ => 0

/-- Whether the type is null, undefined or void. -/
def isNullish (t : Ty) : Bool := t = null || t = undefined || t = void

/-- Whether the type is one of those that take every value. -/
def isTop (t : Ty) : Bool := t = any || t = unknown || t = invalid

end Ty

/-- A literal value. -/
inductive Literal where
  | number (value : Binary64)
  | string (value : String)
  | boolean (value : Bool)
  | bigint (value : Int)
  deriving DecidableEq, Repr, Inhabited

namespace Literal

/-- The text of a literal type. -/
def text : Literal → String
  | number v => v.text
  | string s => Text.quoted s
  | boolean b => if b then "true" else "false"
  | bigint n => toString n ++ "n"

/-- The primitive a literal belongs to. -/
def base : Literal → Primitive
  | number _ => .number
  | string _ => .string
  | boolean _ => .boolean
  | bigint _ => .bigint

end Literal

/-- The identity of a type parameter. -/
structure TypeVar where
  /-- Its place in the table's list of parameters. -/
  number : Nat
  deriving DecidableEq, Repr, Inhabited

/-- The identity of a type parameter as it is kept, counted from one in a word of 32 bits. -/
def TypeVar.word (v : TypeVar) : UInt32 := .ofNat (v.number + 1)

/-- A named member of an object type. -/
structure Field where
  name : String
  type : Ty
  optional : Bool := false
  readonly : Bool := false
  deriving DecidableEq, Repr, Inhabited

/-- An index signature of an object type. -/
structure Index where
  key : IndexKey
  value : Ty
  deriving DecidableEq, Repr, Inhabited

/-- A parameter of a function type. A rest parameter has the type of the whole array. -/
structure Parameter where
  /-- The name; it does not count for the identity of the function type. -/
  name : String
  type : Ty
  optional : Bool := false
  deriving DecidableEq, Repr, Inhabited

/-- What a function type says. -/
structure Callable where
  typeParams : List TypeVar := []
  params : List Parameter := []
  rest : Option Parameter := none
  /-- The type of the receiver, if it is declared. -/
  receiver : Option Ty := none
  result : Ty := .void
  deriving DecidableEq, Repr, Inhabited

namespace Callable

/-- The number of parameters a caller has to supply: those in front of the first optional one. -/
def required (c : Callable) : Nat := (c.params.takeWhile (!·.optional)).length

/-- Whether so many arguments fit the parameter list. -/
def acceptsArity (c : Callable) (n : Nat) : Bool :=
  decide (c.required ≤ n) && (c.rest.isSome || decide (n ≤ c.params.length))

/-- Whether the function declares type parameters. -/
def isGeneric (c : Callable) : Bool := !c.typeParams.isEmpty

end Callable

/-- What an object type says. Several call signatures form an overload set. -/
structure Members where
  fields : List Field := []
  index : Option Index := none
  calls : List Ty := []
  deriving DecidableEq, Repr, Inhabited

namespace Members

/-- The field of that name. -/
def field? (m : Members) (name : String) : Option Field := m.fields.find? (·.name = name)

/-- Whether the object says nothing at all. -/
def isEmpty (m : Members) : Bool := m.fields.isEmpty && m.index.isNone && m.calls.isEmpty

end Members

/-- One fixed place of a tuple. -/
structure Slot where
  type : Ty
  optional : Bool := false
  deriving DecidableEq, Repr, Inhabited

/-- What a tuple type says. -/
structure Tuple where
  /-- The fixed places; after an optional one all are optional. -/
  slots : List Slot := []
  rest : Option Ty := none
  readonly : Bool := false
  deriving DecidableEq, Repr, Inhabited

namespace Tuple

/-- The number of leading places that have to be present. -/
def required (t : Tuple) : Nat := (t.slots.takeWhile (!·.optional)).length

/-- The type at a place, the rest past the fixed ones. -/
def element? (t : Tuple) (i : Int) : Option Ty :=
  if i < 0 then none
  else match t.slots[i.toNat]? with
    | some s => some s.type
    | none => t.rest

/-- Whether a fixed place may be absent. -/
def isOptional (t : Tuple) (i : Int) : Bool :=
  if i < 0 then false
  else match t.slots[i.toNat]? with
    | some s => s.optional
    | none => false

/-- Every element type, the rest last. -/
def elements (t : Tuple) : List Ty := t.slots.map Slot.type ++ t.rest.toList

end Tuple

/-- What an enum type says. -/
structure Enumeration where
  name : String
  isConst : Bool := false
  members : List Ty := []
  deriving DecidableEq, Repr, Inhabited

/-- What a type says. -/
inductive Shape where
  | primitive (p : Primitive)
  | literal (l : Literal)
  /-- A union of at least two members, none a union. -/
  | union (members : List Ty)
  /-- An intersection of at least two members, none an intersection and at most one an object. -/
  | intersection (members : List Ty)
  | object (m : Members)
  | array (element : Ty) (readonly : Bool)
  | tuple (t : Tuple)
  | function (c : Callable)
  | parameter (v : TypeVar)
  | reference (name : String) (arguments : List Ty)
  | enumeration (e : Enumeration)
  /-- A member of an enum with its value, a literal type. -/
  | enumMember (enum : Ty) (name : String) (value : Ty)
  /-- A class as a value: the object type of its instances and its constructor, a function type. -/
  | classValue (name : String) (instanceType constructor : Ty)
  deriving DecidableEq, Repr, Inhabited

namespace Shape

/-- Whether the type has to stand in parentheses inside another one. -/
def isComposite : Shape → Bool
  | function _ | union _ | intersection _ => true
  | _ => false

/-- Whether the shape is a reference to an alias. -/
def isReference : Shape → Bool
  | reference _ _ => true
  | _ => false

end Shape

end ShapeCheck
