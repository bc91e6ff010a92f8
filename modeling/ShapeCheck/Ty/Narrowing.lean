import ShapeCheck.Ty.Assignable

/-!
# Narrowing

A run-time test splits the type of a binding in two: the type it has where the test succeeds and the
type it has where it fails. An empty side is `never`.

* `Ty.narrowByKind` is the test `typeof x === kind`.
* `Ty.narrowByLiteral` is the test `x === literal`.
* `Ty.narrowByDiscriminant` is the test `x.field === literal` on a union of objects.
* `Ty.narrowByTruthiness` is the test of the value itself.
-/

namespace ShapeCheck

/-- The two sides of a test. -/
structure Split where
  yes : Ty
  no : Ty
  deriving DecidableEq, Repr, Inhabited

namespace Ty

/-- What `typeof` gives for values of a primitive; nothing when that varies. -/
def primitiveKind : Primitive → Option String
  | .number => some "number"
  | .string => some "string"
  | .boolean => some "boolean"
  | .bigint => some "bigint"
  | .symbol => some "symbol"
  | .undefined | .void => some "undefined"
  | .null => some "object"
  | _ => none

/-- Whether every member of an enum has a value of the given primitive. -/
def allValues (table : Table) (e : Enumeration) (p : Primitive) : Bool :=
  e.members.all fun m => ((enumValue? table m).bind table.literal?).map Literal.base = some p

/-- Whether an enum has members and all have strings for values. -/
def isStringEnum (table : Table) (e : Enumeration) : Bool :=
  !e.members.isEmpty && allValues table e .string

/-- What `typeof` gives for values of a type; nothing when that varies. -/
def kindOf (table : Table) (t : Ty) : Option String :=
  match table.shape t with
  | .primitive p => primitiveKind p
  | .literal l => primitiveKind l.base
  | .enumMember _ _ value => (table.literal? value).bind fun l => primitiveKind l.base
  | .enumeration e => some (if isStringEnum table e then "string" else "number")
  | .function _ | .classValue _ _ _ => some "function"
  | .object m => some (if m.calls.isEmpty then "object" else "function")
  | .array _ _ | .tuple _ => some "object"
  | _ => none

/-- Whether a type has exactly one value that can be compared with. -/
def isUnit (table : Table) (t : Ty) : Bool :=
  (table.literal? t).isSome || t = .null || t = .undefined

/-- Whether a type is an enum member. -/
def isEnumMember (table : Table) (t : Ty) : Bool := (enumValue? table t).isSome

/-- The type with its head and the heads of its union members resolved. -/
def resolveMembers (t : Ty) : Typing Ty := do
  let t ← t.resolve
  match (← get).shape t with
  | .union ms =>
    let resolved ← ms.mapM resolve
    if resolved = ms then return t else unionOf resolved
  | _ => return t

/-- The primitive that a `typeof` test proves. -/
def provenByKind : String → Option Ty
  | "number" => some .number
  | "string" => some .string
  | "boolean" => some .boolean
  | "bigint" => some .bigint
  | "symbol" => some .symbol
  | "undefined" => some .undefined
  | _ => none

/-- The types in a list that pass a test. -/
def select (test : Ty → Typing Bool) : List Ty → Typing (List Ty)
  | [] => return []
  | t :: rest => do
    if ← test t then return t :: (← select test rest) else select test rest

/-- Whether `typeof` gives the kind for values of a member; a type parameter is taken for its
bound. -/
def hasKind (kind : String) (m : Ty) : Typing Bool := do
  let table ← get
  let seen ← match table.shape m with
    | .parameter v =>
      match (table.typeVar v).bound with
      | some bound => bound.resolve
      | none => pure m
    | _ => pure m
  return (kindOf (← get) seen).getD "" = kind

/-- Splits a type by `typeof x === kind`. -/
def narrowByKind (t : Ty) (kind : String) : Typing Split := do
  let t ← t.resolveMembers
  if t.isTop then return ⟨(provenByKind kind).getD t, t⟩
  let ms := splitMembers (← get) t
  let yes ← unionOf (← select (hasKind kind) ms)
  let no ← unionOf (← select (fun m => return !(← hasKind kind m)) ms)
  return ⟨yes, no⟩

/-- What remains of a member where `x === literal` holds. -/
def equalPart (literal m : Ty) : Typing (Option Ty) := do
  let table ← get
  if m = literal || enumValue? table m = some literal then return some m
  if m = .boolean && (literal = .truth true || literal = .truth false) then return some literal
  if m = .void && literal = .undefined then return some literal
  if isUnit table m || isEnumMember table m then return none
  if ← literal.isAssignableTo m then return some literal else return none

/-- Splits a type by `x === literal`, for a literal, null or undefined. -/
def narrowByLiteral (t literal : Ty) : Typing Split := do
  let t ← t.resolveMembers
  if t.isTop then return ⟨literal, t⟩
  let parts ← (← t.members).mapM (equalPart literal)
  let table ← get
  let no ← t.filterMembers fun m => m ≠ literal && enumValue? table m ≠ some literal
  let yes ← unionOf (parts.filterMap id)
  return ⟨yes, no⟩

/-- On which sides of `x.field === literal` a member stays. -/
def discriminantSides (field : String) (literal m : Ty) : Typing (Bool × Bool) := do
  match ← m.property? field with
  | none => return (false, true)
  | some f =>
    let type ← f.type.resolveMembers
    let admits ← literal.isAssignableTo type
    let table ← get
    return (admits, type ≠ literal && enumValue? table type ≠ some literal)

/-- Splits a union of objects by `x.field === literal`. The one side keeps the members whose field
admits the literal, the other drops those whose field is exactly the literal. -/
def narrowByDiscriminant (t : Ty) (field : String) (literal : Ty) : Typing Split := do
  let t ← t.resolveMembers
  if t.isTop then return ⟨t, t⟩
  let ms ← t.members
  let sides ← ms.mapM (discriminantSides field literal)
  let yes ← unionOf ((ms.zip sides).filterMap fun (m, s) => if s.1 then some m else none)
  let no ← unionOf ((ms.zip sides).filterMap fun (m, s) => if s.2 then some m else none)
  return ⟨yes, no⟩

/-- Whether a literal counts as false. -/
def isFalsyLiteral : Literal → Bool
  | .number v => v.isZero
  | .string s => s.isEmpty
  | .boolean b => !b
  | .bigint _ => false

/-- Whether every value of the type counts as false. -/
def isFalsy (table : Table) (t : Ty) : Bool :=
  match table.shape t with
  | .literal l => isFalsyLiteral l
  | .enumMember _ _ value => ((table.literal? value).map isFalsyLiteral).getD false
  | _ => t.isNullish

/-- Whether some value of the type counts as false. -/
def canBeFalsy (table : Table) (t : Ty) : Bool :=
  match table.shape t with
  | .primitive p => p ≠ .symbol
  | .literal _ | .enumMember _ _ _ => isFalsy table t
  | .enumeration _ | .parameter _ => true
  | _ => false

/-- Splits a type by the truth of its values. -/
def narrowByTruthiness (t : Ty) : Typing Split := do
  let t ← t.resolveMembers
  if t.isTop then return ⟨t, t⟩
  let table ← get
  let yes ← t.filterMembers fun m => !isFalsy table m
  let no ← t.filterMembers (canBeFalsy table)
  return ⟨yes, no⟩

end Ty

end ShapeCheck
