import ShapeCheck.Check.Body

/-!
# Operators and literals

The types of operator applications, of type assertions, and of array and object literals.
-/

namespace ShapeCheck.Operator

open Check

/-- What `typeof` can give. -/
def kinds : List String :=
  ["string", "number", "bigint", "boolean", "symbol", "undefined", "object", "function"]

/-- The type of a `typeof` expression. -/
def typeof : Check Ty := do
  Ty.unionOf (← kinds.mapM fun k => (Ty.literalOf (.string k) : Interning Ty))

/-- The type of a negation. -/
def negate (position : Position) (t : Ty) : Check Ty := do
  if t.isTop then return .number
  match (← table).literal? t with
  | some (.number v) => Ty.literalOf (.number v.neg)
  | some (.bigint n) => Ty.literalOf (.bigint (-n))
  | _ =>
    if ← t.isAssignableTo .number then return .number
    if ← t.isAssignableTo .bigint then return .bigint
    report position (.unaryOperand .negate t)
    return .invalid

/-- Whether both types fit a third one. -/
def bothFit (left right target : Ty) : Check Bool := do
  if ← left.isAssignableTo target then right.isAssignableTo target else return false

/-- Whether one of two types fits the other. -/
def related (a b : Ty) : Check Bool := do
  if ← a.isAssignableTo b then return true else b.isAssignableTo a

/-- Whether values of the types could be equal. Anything can be compared with what is missing. -/
def comparable (a b : Ty) : Check Bool := do
  if a.isTop || b.isTop || a.isNullish || b.isNullish then return true
  if ← related a b then return true
  let a' ← a.widen
  let b' ← b.widen
  related a' b'

/-- Whether values of the types can be ordered. -/
def ordered (left right : Ty) : Check Bool := do
  if left.isTop || right.isTop then return true
  if ← bothFit left right .number then return true
  if ← bothFit left right .bigint then return true
  bothFit left right .string

/-- The type of an arithmetic operation, and whether its operands are right for it. -/
def arithmetic (left right : Ty) : Check (Bool × Ty) := do
  if left = .unknown || right = .unknown then return (false, .number)
  if left.isTop || right.isTop then return (true, .number)
  if ← bothFit left right .number then return (true, .number)
  if ← bothFit left right .bigint then return (true, .bigint)
  return (false, .invalid)

/-- The type of an addition, and whether its operands are right for it. -/
def addition (left right : Ty) : Check (Bool × Ty) := do
  if left = .any || right = .any || left = .invalid || right = .invalid then return (true, .any)
  if ← left.isAssignableTo .string then return (true, .string)
  if ← right.isAssignableTo .string then return (true, .string)
  arithmetic left right

/-- The type of an operator between two values, and whether they are right for it. -/
def strict (op : BinaryOp) (left right : Ty) : Check (Bool × Ty) := do
  match op with
  | .strictEqual | .strictNotEqual | .equal | .notEqual =>
    return (← comparable left right, .boolean)
  | .less | .greater | .lessEqual | .greaterEqual => return (← ordered left right, .boolean)
  | .add => addition left right
  | _ => arithmetic left right

/-- The type of an operator between two values. -/
def binary (position : Position) (op : BinaryOp) (left right : Ty) : Check Ty := do
  let (valid, t) ← strict op left right
  if !valid then report position (.binaryOperands op left right)
  return t

/-- The type of `left ?? right`. -/
def coalesce (left right : Ty) : Check Ty := do
  let resolved ← left.resolve
  let present ← resolved.filterMembers (!·.isNullish)
  Ty.unionOf [present, right]

/-- The type of a type assertion. One of the types has to fit the other. -/
def assertion (position : Position) (target : Ty) (value : ExprPart) : Check Ty := do
  let t ← value.check (some target)
  if !(← t.isAssignableTo target) then
    let widened ← t.widen
    if !(← target.isAssignableTo widened) then
      report position (.unassignable t target .assertion)
  return target

/-- What a tuple says, if it can hold so many elements. -/
def holds? (table : Table) (count : Nat) (t : Ty) : Option Tuple :=
  match table.shape t with
  | .tuple u =>
    let tooMany := u.rest.isNone && decide (u.slots.length < count)
    if count < u.required || tooMany then none else some u
  | _ => none

/-- The members of what is expected, with their heads resolved. -/
def expectedMembers (expected : Ty) : Check (List Ty) := do
  let resolved ← expected.resolve
  ((← table).members resolved).mapM fun m => (m.resolve : Check Ty)

/-- The only tuple that is expected and can hold so many elements. -/
def expectedTuple (expected : Option Ty) (count : Nat) : Check (Option Tuple) := do
  match expected with
  | none => return none
  | some e =>
    let members ← expectedMembers e
    let table ← table
    match members.filterMap (holds? table count) with
    | [only] => return some only
    | _ => return none

/-- The element type of an array. -/
def element? (table : Table) (t : Ty) : Option Ty :=
  match table.shape t with
  | .array element _ => some element
  | _ => none

/-- The element type of the array that is expected. -/
def expectedElement (expected : Option Ty) : Check (Option Ty) := do
  match expected with
  | none => return none
  | some e =>
    let members ← expectedMembers e
    let table ← table
    match members.filterMap (element? table) with
    | [] => return none
    | ts => return some (← Ty.unionOf ts)

/-- The type of an element or a property, widened unless it fits an expected type that asks for
literals. -/
def widenElement (t : Ty) (expected : Option Ty) : Check Ty := do
  match expected with
  | none => t.deepWiden
  | some e =>
    if ← t.isAssignableTo e then
      if ← Body.asksForLiterals e then return t else t.deepWiden
    else t.deepWiden

/-- The type of an array literal: a tuple where one is expected, else an array of the union of its
elements. -/
def array (elements : List ExprPart) (expected : Option Ty) : Check Ty := do
  match ← expectedTuple expected elements.length with
  | some t =>
    let slots ← elements.zipIdx.mapM fun (e, i) => do
      return ({ type := ← e.check (t.element? i) } : Slot)
    Ty.tupleOf { slots }
  | none =>
    let element ← expectedElement expected
    if elements.isEmpty then Ty.arrayOf .never
    else
      let types ← elements.mapM fun e => e.check element
      let union ← Ty.unionOf types
      Ty.arrayOf (← widenElement union element)

/-- One entry of an object literal. -/
structure PropertyPart where
  position : Position
  key : String
  value : ExprPart

/-- The type expected of a property. -/
def expectedProperty (expected : Option Ty) (key : String) : Check (Option Ty) := do
  match expected with
  | none => return none
  | some e => return (← e.property? key).map Field.type

/-- The fields of an object literal; a repeated key is reported and does not count. -/
def fields (expected : Option Ty) : List PropertyPart → List Field → Check (List Field)
  | [], done => return done
  | p :: rest, done => do
    let context ← expectedProperty expected p.key
    let t ← p.value.check context
    if done.any (·.name = p.key) then
      report p.position .repeatedProperty
      fields expected rest done
    else
      let type ← widenElement t context
      fields expected rest (done ++ [{ name := p.key, type }])

/-- The type of an object literal. -/
def object (properties : List PropertyPart) (expected : Option Ty) : Check Ty := do
  Ty.objectOf { fields := ← fields expected properties [] }

end ShapeCheck.Operator
