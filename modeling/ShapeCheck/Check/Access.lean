import ShapeCheck.Check.Body

/-!
# Access and assignment

What a property access, an index access and an assignment mean.

* `Access.member` and `Access.index` give the type that is read.
* `Access.assignVariable`, `Access.assignMember` and `Access.assignIndex` check a write. A variable
  is narrowed to the members of its type that the value fits.
-/

namespace ShapeCheck.Access

open Check

/-- The members of a type that are null, undefined or void. -/
def nullishMembers (table : Table) (t : Ty) : List Ty := (table.members t).filter Ty.isNullish

/-- The type of a property of a value that is not missing. -/
def presentMember (position : Position) (object subject : Ty) (name : String) (orUndefined : Bool) :
    Check Ty := do
  match ← subject.property? name with
  | none =>
    report position (.unknownProperty name object)
    return .invalid
  | some f =>
    if f.optional || orUndefined then Ty.unionOf [f.type, .undefined] else return f.type

/-- The type of `object.name`, or of `object?.name` if the access is optional. -/
def member (position : Position) (object : Ty) (name : String) (optional : Bool) : Check Ty := do
  let resolved ← object.resolve
  if resolved = .any || resolved = .invalid then return .any
  let missing := nullishMembers (← table) resolved
  if missing.isEmpty then presentMember position object resolved name false
  else
    let subject ← resolved.filterMembers (!·.isNullish)
    if !optional then report position (.possiblyMissing (← Ty.unionOf missing))
    if subject = .never then return .undefined
    presentMember position object subject name optional

/-- The literal of a literal type or of an enum member. -/
def literal? (table : Table) (t : Ty) : Option Literal :=
  match Ty.enumValue? table t with
  | some value => table.literal? value
  | none => table.literal? t

/-- The key that a literal spells. -/
def key : Literal → String
  | .string s => s
  | .number v => v.text
  | .boolean b => if b then "true" else "false"
  | .bigint n => toString n

/-- The type of an enum under an index: a member under its name, a name under a number. -/
def enumIndex (enum : Ty) (e : Enumeration) (index : Ty) : Check (Except Problem Ty) := do
  let table ← table
  match literal? table index with
  | some (.string name) =>
    match Ty.enumMember? table e name with
    | some m => return .ok m
    | none => return .error (.unknownProperty name enum)
  | _ =>
    let widened ← index.widen
    let numeric ← widened.isAssignableTo .number
    if !numeric || !Assign.hasNumericMember table e then return .error (.notAnIndex index enum)
    if e.isConst then return .error .constEnumLookup
    return .ok .string

/-- The type of one member of an object type under a key that is not constant. -/
def elementOf (m index : Ty) : Check (Option Ty) := do
  let numeric ← index.isAssignableTo .number
  match (← table).shape m with
  | .array element _ => return if numeric then some element else none
  | .tuple t => if numeric then return some (← Ty.elementUnion t) else return none
  | .object o =>
    return o.index.bind fun i => if i.key = .string || numeric then some i.value else none
  | .primitive p =>
    return if p = .string && numeric then some .string else if m.isTop then some .any else none
  | .literal l => return if l.base = .string && numeric then some .string else none
  | _ => return none

/-- The types of several members under a key, if all have one. -/
def elementsOf (index : Ty) : List Ty → Check (Option (List Ty))
  | [] => return some []
  | m :: rest => do
    match ← elementOf (← m.resolve) index with
    | none => return none
    | some t => return (← elementsOf index rest).map (t :: ·)

/-- The type under a key that is not a property name. An enum counts as the union of its values. -/
def byKey (object resolved index : Ty) : Check (Except Problem Ty) := do
  let widened ← index.widen
  let key ← match (← table).shape widened with
    | .enumeration e => do (← Ty.valueUnion e).widen
    | _ => pure widened
  match ← elementsOf key ((← table).members resolved) with
  | some ts => return .ok (← Ty.unionOf ts)
  | none => return .error (.notAnIndex index object)

/-- The type under a constant key that names no property. -/
def noProperty (object resolved index : Ty) (l : Literal) : Check (Except Problem Ty) := do
  match (← table).shape resolved, l with
  | .tuple t, _ => return .error (.noSuchPlace object t.slots.length (key l))
  | _, .number _ => byKey object resolved index
  | _, _ => return .error (.unknownProperty (key l) object)

/-- The type of `object[index]`, or what is wrong with it. -/
def index (object index : Ty) : Check (Except Problem Ty) := do
  let resolved ← object.resolve
  if resolved = .any || resolved = .invalid then return .ok .any
  let table ← table
  match table.shape resolved, literal? table index with
  | .enumeration e, _ => enumIndex resolved e index
  | _, some l =>
    match ← resolved.property? (key l) with
    | some f =>
      if f.optional then return .ok (← Ty.unionOf [f.type, .undefined]) else return .ok f.type
    | none => noProperty object resolved index l
  | _, none => byKey object resolved index

/-- Whether writing under an index is forbidden for one member of the object type. -/
def isReadonlyPlace (index m : Ty) : Check Bool := do
  let m ← m.resolve
  let table ← table
  match table.shape m, literal? table index with
  | .array _ readonly, _ => return readonly
  | .tuple t, _ => return t.readonly
  | .object _, some l => m.isReadonlyProperty (key l)
  | _, _ => return false

/-- Whether some member passes, tried in order. -/
def anyMember (test : Ty → Check Bool) : List Ty → Check Bool
  | [] => return false
  | m :: rest => do if ← test m then return true else anyMember test rest

/-- Whether writing `object[index]` is forbidden. -/
def isReadonlyIndex (object index : Ty) : Check Bool := do
  let resolved ← object.resolve
  anyMember (isReadonlyPlace index) ((← table).members resolved)

/-- Whether one of some types fits a member. -/
def someFits (parts : List Ty) (m : Ty) : Typing Bool := Assign.any (·.isAssignableTo m) parts

/-- Narrows a variable after it is assigned. A value that fits the current type leaves the members
it fits; any other value puts the variable back to its declared type. -/
def narrowAfterAssignment (name : String) (value : ValueDecl) (assigned : Ty) : Check Unit := do
  let current := (← lookup name).getD value.type
  let resolved ← current.resolve
  if resolved.isTop || assigned.isTop then bind name value.type
  else if ← assigned.isAssignableTo current then
    let a ← assigned.resolve
    let parts := (← table).members a
    let members := Ty.splitMembers (← table) resolved
    let kept ← Ty.unionOf (← Ty.select (someFits parts) members)
    bind name (if kept = .never then current else kept)
  else bind name value.type

/-- The type of an assignment to a variable. -/
def assignVariable (site : Site) (name : String) (value : ExprPart) : Check Ty := do
  match ← value? name with
  | none =>
    report site.position (.unresolved name)
    value.check none
  | some decl =>
    record site .identifier decl.type
    if decl.isConst then
      report site.position (.constantAssigned name)
      value.check (some decl.type)
    else
      let t ← value.check (some decl.type)
      if ← fits value.position t decl.type .assignment then
        match ← value? name with
        | some decl => narrowAfterAssignment name decl t
        | none => pure ()
      return t

/-- Whether the object is the instance that a constructor is about to fill. -/
def isInitializing (objectIsThis : Bool) : Check Bool := do
  return objectIsThis && (((← walker).function.map FunctionContext.isConstructor).getD false)

/-- The type of an assignment to a property. -/
def assignMember (site : Site) (object : ExprPart) (objectIsThis : Bool) (name : String)
    (value : ExprPart) : Check Ty := do
  let o ← object.check none
  match ← o.property? name with
  | none =>
    report site.position (.unknownProperty name o)
    value.check none
  | some f =>
    record site .member f.type
    if f.readonly && !(← isInitializing objectIsThis) then
      report site.position (.readonlyProperty name)
    let t ← value.check (some f.type)
    let _ ← fits value.position t f.type .assignment
    return t

/-- The type of an assignment under an index. -/
def assignIndex (site : Site) (object key value : ExprPart) : Check Ty := do
  let o ← object.check none
  let i ← key.check none
  match ← index o i with
  | .error problem =>
    report site.position problem
    value.check none
  | .ok element =>
    record site .index element
    if ← isReadonlyIndex o i then report site.position (.readonlyIndex o)
    let t ← value.check (some element)
    let _ ← fits value.position t element .assignment
    return t

/-- The type of an assignment to anything else. -/
def assignOther (position : Position) (value : ExprPart) : Check Ty := do
  report position .badTarget
  value.check none

end ShapeCheck.Access
