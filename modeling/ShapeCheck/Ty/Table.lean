import ShapeCheck.Ty.Key
import ShapeCheck.Tree.Print

/-!
# The table of types

Every composite type is an entry of a table, made through the constructors here. A constructor first
looks for an entry with the same key; only when there is none does it add one. The table
only grows: an entry keeps its number, and its shape changes in one case, when an enum that was made
without members is given some.

* `Interning` is the state of a table, `Typing` adds a bound on the number of nested steps, so that
  running out of steps shows as `none`.
* `Table.shape` and `Table.text` say what a type is and how it is printed.
* `Ty.arrayOf`, `Ty.tupleOf`, `Ty.objectOf`, `Ty.functionOf`, `Ty.literalOf`, `Ty.referenceTo`,
  `Ty.parameterOf`, `Ty.enumOf` and `Ty.classOf` are the constructors.
-/

namespace ShapeCheck

/-- An entry of the table. -/
structure Entry where
  shape : Shape
  key : String
  text : String
  deriving Inhabited

/-- What is known of a type parameter. -/
structure TypeVarInfo where
  name : String
  bound : Option Ty := none
  default : Option Ty := none
  deriving Inhabited

/-- What the resolution of an alias came to. -/
inductive AliasOutcome where
  | resolved (t : Ty)
  /-- The alias refers to itself; the chain starts and ends with it. -/
  | cyclic (chain : List String)
  deriving Inhabited

/-- A defined alias. -/
structure Alias where
  name : String
  params : List TypeVar := []
  target : Ty
  /-- What its resolution came to, once it is done. -/
  outcome : Option AliasOutcome := none
  deriving Inhabited

/-- The types of one checking pass. -/
structure Table where
  /-- The composite types in the order in which they were made. -/
  entries : Array Entry := #[]
  /-- The type parameters in the order in which they were made. -/
  typeVars : Array TypeVarInfo := #[]
  /-- The aliases in the order of their definitions. -/
  aliases : List Alias := []
  /-- What references, and intersections with references, resolve to. -/
  instances : List (Ty × Ty) := []
  frozen : Bool := false
  /-- The answers given about assignability since the table was frozen. -/
  verdicts : List ((Ty × Ty) × Bool) := []
  deriving Inhabited

/-- Work on a table that always succeeds. -/
abbrev Interning := StateM Table

/-- Work on a table in at most so many nested steps. -/
abbrev Typing := ReaderT Nat (StateT Table Option)

instance : MonadLift Interning Typing := ⟨fun work _ table => some (work.run table)⟩

/-- The number of nested steps that is allowed where nothing else is said. -/
def Typing.defaultSteps : Nat := 10000

/-- No result, because the nesting went too deep. -/
def Typing.outOfSteps {α : Type} : Typing α := fun _ _ => none

/-- Runs recursive work with the number of nested steps that is allowed. -/
def Typing.bounded {α : Type} (work : Nat → Typing α) : Typing α := do work (← read)

namespace Table

/-- What a type says. -/
def shape (table : Table) : Ty → Shape
  | .prim p => .primitive p
  | .truth b => .literal (.boolean b)
  | .made n =>
    match table.entries[n]? with
    | some e => e.shape
    | none => .primitive .invalid

/-- The printed form of a type. -/
def text (table : Table) : Ty → String
  | .prim p => p.text
  | .truth b => (Literal.boolean b).text
  | .made n =>
    match table.entries[n]? with
    | some e => e.text
    | none => Primitive.invalid.text

/-- What is known of a type parameter. -/
def typeVar (table : Table) (v : TypeVar) : TypeVarInfo :=
  (table.typeVars[v.number]?).getD { name := "" }

/-- The name of the type parameter that stands where no type is given. -/
def nothingName : String := "<nil>"

/-- Whether a type stands for no type. -/
def isNothing (table : Table) (t : Ty) : Bool :=
  match table.shape t with
  | .parameter v => (table.typeVar v).name = nothingName
  | _ => false

/-- The declaration of a type parameter as it is printed. -/
def typeVarText (table : Table) (v : TypeVar) : String :=
  let info := table.typeVar v
  let bound := match info.bound with
    | some t => " extends " ++ table.text t
    | none => ""
  let default := match info.default with
    | some t => " = " ++ table.text t
    | none => ""
  info.name ++ bound ++ default

/-- A type printed as a part of a larger one. -/
def wrapped (table : Table) (t : Ty) : String :=
  if (table.shape t).isComposite then "(" ++ table.text t ++ ")" else table.text t

/-- The text of a parameter; one without a name is numbered. -/
def parameterText (table : Table) (i : Nat) (p : Parameter) : String :=
  (if p.name.isEmpty then "arg" ++ toString i else p.name) ++
    (if p.optional then "?" else "") ++ ": " ++ table.text p.type

/-- The text of a rest parameter. -/
def restText (table : Table) (p : Parameter) : String :=
  "..." ++ (if p.name.isEmpty then "rest" else p.name) ++ ": " ++ table.text p.type

/-- A function with the given mark in front of its result. -/
def callableText (table : Table) (mark : String) (c : Callable) : String :=
  let receiver := c.receiver.toList.map fun t => "this: " ++ table.text t
  let params := c.params.zipIdx.map fun (p, i) => table.parameterText i p
  let rest := c.rest.toList.map table.restText
  angled (c.typeParams.map table.typeVarText) ++
    "(" ++ joinWith ", " (receiver ++ params ++ rest) ++ ")" ++ mark ++ table.text c.result

/-- The text of a field. -/
def fieldText (table : Table) (f : Field) : String :=
  (if f.readonly then "readonly " else "") ++ f.name ++ (if f.optional then "?" else "") ++ ": " ++
    table.text f.type

/-- The text of a call signature inside an object. -/
def callText (table : Table) (t : Ty) : String :=
  match table.shape t with
  | .function c => table.callableText ": " c
  | _ => table.text t

/-- The text of an object. -/
def membersText (table : Table) (m : Members) : String :=
  let index := m.index.toList.map fun i => "[key: " ++ i.key.text ++ "]: " ++ table.text i.value
  let parts := m.fields.map table.fieldText ++ index ++ m.calls.map table.callText
  if parts.isEmpty then "\x7b\x7d" else "\x7b " ++ joinWith "; " parts ++ " \x7d"

/-- The text of a tuple. -/
def tupleText (table : Table) (t : Tuple) : String :=
  let slots := t.slots.map fun s => table.text s.type ++ (if s.optional then "?" else "")
  let rest := t.rest.toList.map fun r => "..." ++ table.wrapped r ++ "[]"
  (if t.readonly then "readonly " else "") ++ "[" ++ joinWith ", " (slots ++ rest) ++ "]"

/-- The printed form of a shape whose parts are in the table. -/
def shapeText (table : Table) : Shape → String
  | .primitive p => p.text
  | .literal l => l.text
  | .union ms => joinWith " | " (ms.map table.wrapped)
  | .intersection ms => joinWith " & " (ms.map table.wrapped)
  | .object m => table.membersText m
  | .array element readonly =>
    (if readonly then "readonly " else "") ++ table.wrapped element ++ "[]"
  | .tuple t => table.tupleText t
  | .function c => table.callableText " => " c
  | .parameter v => (table.typeVar v).name
  | .reference name arguments => name ++ angled (arguments.map table.text)
  | .enumeration e => e.name
  | .enumMember enum name _ => table.text enum ++ "." ++ name
  | .classValue name _ _ => "typeof " ++ name

/-- The type with the given key, if there is one. -/
def find? (table : Table) (key : String) : Option Ty :=
  (table.entries.findIdx? fun e => e.key == key).map .made

/-- The canonical order of union and intersection members: by printed form, then by number. -/
def inOrder (table : Table) (a b : Ty) : Bool :=
  let x := table.text a
  let y := table.text b
  if x = y then decide (a.serial ≤ b.serial) else decide (x < y)

/-- Members in their canonical order. -/
def sortMembers (table : Table) (ts : List Ty) : List Ty := ts.mergeSort table.inOrder

/-- The members of a union; any other type is its own only member. -/
def members (table : Table) (t : Ty) : List Ty :=
  match table.shape t with
  | .union ms => ms
  | _ => [t]

/-- The literal a type stands for. -/
def literal? (table : Table) (t : Ty) : Option Literal :=
  match table.shape t with
  | .literal l => some l
  | _ => none

/-- What a function type says; nothing for other types. -/
def callable? (table : Table) (t : Ty) : Option Callable :=
  match table.shape t with
  | .function c => some c
  | _ => none

/-- The alias of that name. -/
def alias? (table : Table) (name : String) : Option Alias :=
  table.aliases.find? (·.name = name)

/-- The table with one alias changed. -/
def updateAlias (table : Table) (name : String) (change : Alias → Alias) : Table :=
  { table with aliases := table.aliases.map fun a => if a.name = name then change a else a }

end Table

namespace Ty

/-- What a type says. -/
def shape (t : Ty) : Interning Shape := return (← get).shape t

/-- The printed form of a type. -/
def text (t : Ty) : Interning String := return (← get).text t

/-- The members of a union; any other type is its own only member. -/
def members (t : Ty) : Interning (List Ty) := return (← get).members t

/-- Adds an entry and gives its type. -/
def add (s : Shape) : Interning Ty := fun table =>
  (.made table.entries.size,
    { table with entries := table.entries.push ⟨s, s.key, table.shapeText s⟩ })

/-- The type with the given shape: the one in the table with the same key, or a new one. -/
def intern (s : Shape) : Interning Ty := do
  match (← get).find? s.key with
  | some t => return t
  | none => add s

/-- The type made of some members in their canonical order; a single member is the type itself. -/
def combine (shape : List Ty → Shape) : List Ty → Interning Ty
  | [m] => return m
  | ms => do intern (shape ((← get).sortMembers ms))

/-- The literal type of a value. -/
def literalOf : Literal → Interning Ty
  | .boolean b => return .truth b
  | l => intern (.literal l)

/-- The array type with the given element type. -/
def arrayOf (element : Ty) (readonly : Bool := false) : Interning Ty :=
  intern (.array element readonly)

/-- Places in which everything after an optional one is optional, since only trailing places can be
left out. -/
def trailingOptional (seen : Bool) : List Slot → List Slot
  | [] => []
  | s :: rest =>
    let optional := seen || s.optional
    { s with optional } :: trailingOptional optional rest

/-- The tuple type with the given places. -/
def tupleOf (t : Tuple) : Interning Ty :=
  intern (.tuple { t with slots := trailingOptional false t.slots })

/-- Puts a field in the place of the one with the same name, or at the end. -/
def putField (fields : List Field) (f : Field) : List Field :=
  if fields.any (·.name = f.name) then fields.map fun g => if g.name = f.name then f else g
  else fields ++ [f]

/-- The object type with the given members. Of several fields with one name the last counts, in the
place of the first. -/
def objectOf (m : Members) : Interning Ty :=
  intern (.object { m with fields := m.fields.foldl putField [] })

/-- The function type with the given signature. -/
def functionOf (c : Callable) : Interning Ty := intern (.function c)

/-- The reference to an alias. -/
def referenceTo (name : String) (arguments : List Ty) : Interning Ty :=
  intern (.reference name arguments)

/-- The reference to a type parameter. -/
def parameterOf (v : TypeVar) : Interning Ty := intern (.parameter v)

/-- A new type parameter, different from every other one. -/
def newTypeVar (info : TypeVarInfo) : Interning TypeVar := fun table =>
  (⟨table.typeVars.size⟩, { table with typeVars := table.typeVars.push info })

/-- Changes what is known of a type parameter. -/
def modifyTypeVar (v : TypeVar) (change : TypeVarInfo → TypeVarInfo) : Interning Unit :=
  modify fun table => { table with typeVars := table.typeVars.modify v.number change }

/-- Gives a type parameter a bound. -/
def setBound (v : TypeVar) (t : Ty) : Interning Unit := modifyTypeVar v ({ · with bound := some t })

/-- Gives a type parameter a default. -/
def setDefault (v : TypeVar) (t : Ty) : Interning Unit :=
  modifyTypeVar v ({ · with default := some t })

/-- The class value with the given instances and constructor. -/
def classOf (name : String) (instanceType : Ty) (constructor : Callable) : Interning Ty := do
  let fn ← functionOf constructor
  intern (.classValue name instanceType fn)

/-- Sets the shape of an entry, which keeps its identity and its text. -/
def setShape (t : Ty) (s : Shape) : Interning Unit :=
  match t with
  | .made n => modify fun table =>
    { table with entries := table.entries.modify n fun e => { e with shape := s } }
  | _ => return ()

/-- The enum of that name. The first definition of a name counts, but one without members can be
given some later. -/
def enumOf (name : String) (isConst : Bool) (members : List (String × Ty)) : Interning Ty := do
  let enum ← intern (.enumeration { name, isConst })
  match (← get).shape enum with
  | .enumeration e =>
    if e.members.isEmpty && !members.isEmpty then
      let made ← members.mapM fun (member, value) => add (.enumMember enum member value)
      setShape enum (.enumeration { e with members := made })
  | _ => pure ()
  return enum

end Ty

end ShapeCheck
