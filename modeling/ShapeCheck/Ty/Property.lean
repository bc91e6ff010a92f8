import ShapeCheck.Ty.Alias

/-!
# Properties and call signatures

What a property access and a call see of a type. A union has a property when all its members have
it, an intersection when one of them has.

* `Ty.property?` is the field that a property access finds.
* `Ty.callSignatures` lists the function types that a call may use, in order.
-/

namespace ShapeCheck

namespace Ty

/-- The length of a tuple: a literal, unless places may be absent or more may follow. -/
def tupleLength (t : Tuple) : Interning Ty :=
  if t.rest.isSome || t.required ≠ t.slots.length then return .number
  else literalOf (.number (Binary64.ofNat t.slots.length))

/-- The property of a tuple: its length, or an element at a decimal place. -/
def tupleProperty? (t : Tuple) (name : String) : Interning (Option Field) := do
  if name = "length" then
    return some { name, type := ← tupleLength t, readonly := true }
  match Decimal.integer? name with
  | none => return none
  | some i =>
    return (t.element? i).map fun type =>
      { name, type, optional := t.isOptional i, readonly := t.readonly }

/-- The property of an object: its field, or what its index signature says. -/
def memberProperty? (m : Members) (name : String) : Option Field :=
  match m.field? name, m.index with
  | some f, _ => some f
  | none, some i =>
    if i.key = .string || Decimal.isNumeric name then some { name, type := i.value } else none
  | none, none => none

/-- The property of an array: its length, or an element under a numeric name. -/
def arrayProperty? (element : Ty) (readonly : Bool) (name : String) : Option Field :=
  if name = "length" then some { name, type := .number }
  else if Decimal.isNumeric name then some { name, type := element, readonly }
  else none

/-- The property of a primitive. -/
def primitiveProperty? (p : Primitive) (name : String) : Option Field :=
  match p with
  | .any | .invalid => some { name, type := .any }
  | .string => if name = "length" then some { name, type := .number, readonly := true } else none
  | _ => none

/-- The property of a function. -/
def functionProperty? (name : String) : Option Field :=
  match name with
  | "length" => some { name, type := .number, readonly := true }
  | "name" => some { name, type := .string, readonly := true }
  | _ => none

/-- The name of an enum member. -/
def enumMemberName? (table : Table) (t : Ty) : Option String :=
  match table.shape t with
  | .enumMember _ name _ => some name
  | _ => none

/-- The member of an enum with that name, the first of several. -/
def enumMember? (table : Table) (e : Enumeration) (name : String) : Option Ty :=
  e.members.find? fun m => enumMemberName? table m = some name

/-- The property of a union of found fields. -/
def unionField (name : String) (fields : List Field) : Interning Field := do
  return { name, type := ← unionOf (fields.map Field.type)
           optional := fields.any Field.optional, readonly := fields.any Field.readonly }

/-- The property of an intersection of found fields. -/
def intersectionField (name : String) (fields : List Field) : Interning Field := do
  return { name, type := ← intersectionOf (fields.map Field.type)
           optional := fields.all Field.optional, readonly := fields.any Field.readonly }

/-- Asks the members in turn and stops at the first without the property. -/
def propertyOfAll (property? : Ty → Typing (Option Field)) : List Ty → Typing (Option (List Field))
  | [] => return some []
  | m :: rest => do
    match ← property? m with
    | none => return none
    | some f => return (← propertyOfAll property? rest).map (f :: ·)

/-- The property of a type, found in at most so many nested steps. -/
def propertyAt (name : String) : Nat → Ty → Typing (Option Field)
  | 0, _ => Typing.outOfSteps
  | depth + 1, t => do
    let t ← t.resolve
    let table ← get
    match table.shape t with
    | .primitive p => return primitiveProperty? p name
    | .literal l => return primitiveProperty? l.base name
    | .enumMember _ _ value => propertyAt name depth value
    | .object m => return memberProperty? m name
    | .array element readonly => return arrayProperty? element readonly name
    | .tuple u => tupleProperty? u name
    | .function _ => return functionProperty? name
    | .enumeration e =>
      return (enumMember? table e name).map fun type => { name, type, readonly := true }
    | .parameter v =>
      match (table.typeVar v).bound with
      | some bound => propertyAt name depth bound
      | none => return none
    | .union ms =>
      match ← propertyOfAll (propertyAt name depth) ms with
      | some fields => return some (← unionField name fields)
      | none => return none
    | .intersection ms =>
      match (← ms.mapM (propertyAt name depth)).filterMap id with
      | [] => return none
      | fields => return some (← intersectionField name fields)
    | .reference _ _ | .classValue _ _ _ => return none

/-- The field that a property access finds on a type. -/
def property? (t : Ty) (name : String) : Typing (Option Field) :=
  Typing.bounded fun depth => propertyAt name depth t

/-- The field that an object has of that name; for other types the one that a property access
finds. -/
def ownField? (t : Ty) (name : String) : Typing (Option Field) := do
  match (← get).shape t with
  | .object m => return m.field? name
  | _ => t.property? name

/-- Whether assigning to the property is forbidden. -/
def isReadonlyProperty (t : Ty) (name : String) : Typing Bool := do
  match ← t.property? name with
  | some f => return f.readonly
  | none => return false

/-- The function types that a call may use, found in at most so many nested steps. -/
def callSignaturesAt : Nat → Ty → Typing (List Ty)
  | 0, _ => Typing.outOfSteps
  | depth + 1, t => do
    let t ← t.resolve
    let table ← get
    match table.shape t with
    | .function _ => return [t]
    | .object m => return m.calls
    | .intersection ms => return (← ms.mapM (callSignaturesAt depth)).flatten
    | .parameter v =>
      match (table.typeVar v).bound with
      | some bound => callSignaturesAt depth bound
      | none => return []
    | _ => return []

/-- The function types that a call may use, in order. -/
def callSignatures (t : Ty) : Typing (List Ty) :=
  Typing.bounded fun depth => callSignaturesAt depth t

/-- The element type of the type of a rest parameter. -/
def restElement (table : Table) (t : Ty) : Ty :=
  match table.shape t with
  | .array element _ => element
  | .tuple u => u.rest.getD .any
  | _ => .any

/-- The type declared for an argument position, the rest past the fixed parameters; none when the
position is not accepted. -/
def parameterAt? (table : Table) (c : Callable) (i : Nat) : Option Ty :=
  match c.params[i]?, c.rest with
  | some p, _ => some p.type
  | none, some r => some (restElement table r.type)
  | none, none => none

end Ty

end ShapeCheck
