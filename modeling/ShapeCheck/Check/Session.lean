import ShapeCheck.Environment
import ShapeCheck.Problem
import ShapeCheck.Ty.Inference

/-!
# Checking sessions

The state of one checking pass and the context in which a part of a program is checked. Findings and
the types of expressions are kept with the declaration they belong to; while checking is quiet,
neither is recorded.

* `Session` is the state: the table of types, the environments, the declared names, what was found.
* `Walker` is the context: the declaration, its environment, the type parameters and the function
  around the place being checked.
* `Check` is work in a session; work on types is work in a session.
-/

namespace ShapeCheck

/-- How a pass is configured. -/
structure CheckOptions where
  /-- Whether parameters and fields without any type are reported. -/
  noImplicitAny : Bool := false
  deriving Inhabited

/-- A declared type name. -/
structure TypeName where
  kind : NameKind
  params : Nat := 0
  required : Nat := 0
  unit : Option Nat := none
  deriving Inhabited

/-- An abstract method that is not implemented yet. -/
structure AbstractMethod where
  name : String
  owner : String
  deriving Inhabited

/-- What is known of a class. -/
structure ClassInfo where
  type : Ty
  /-- The type of its instances as written: a reference to the class name. -/
  reference : Ty
  instanceType : Ty
  unit : Option Nat := none
  isAbstract : Bool := false
  params : List TypeVar := []
  /-- The inherited object type, its type arguments applied. -/
  base : Option Ty := none
  /-- The abstract methods that nothing on the way to the root implements. -/
  abstracts : List AbstractMethod := []
  deriving Inhabited

/-- How far the inference of a result type has come. -/
inductive Progress where
  | waiting
  | running
  | done
  deriving DecidableEq, Repr, Inhabited

/-- A function whose result type is inferred from its body. -/
structure PendingResult where
  name : String
  unit : Nat
  progress : Progress := .waiting
  deriving Inhabited

/-- An overload signature of a function. -/
structure OverloadSignature where
  type : Ty
  unit : Nat
  position : Position
  deriving Inhabited

/-- A problem in a declaration. -/
structure Finding where
  unit : Nat
  position : Position
  problem : Problem
  deriving Inhabited

/-- The type found for an expression or a variable. -/
structure Recorded where
  position : Position
  kind : NodeKind
  type : Ty
  deriving Inhabited

/-- The state of a pass. -/
structure Session where
  table : Table := {}
  scopes : Scopes := (({} : Scopes).add none).2
  names : List (String × TypeName) := []
  enums : List (String × Ty) := []
  classes : List (String × ClassInfo) := []
  registering : List Nat := []
  implementations : List (Nat × Ty) := []
  overloads : List (Nat × List OverloadSignature) := []
  pending : List PendingResult := []
  /-- The types returned so far by the function being checked, in order. -/
  returns : List Ty := []
  findings : Array Finding := #[]
  /-- The types of expressions and variables by their numbers. -/
  recorded : Array (Option Recorded) := #[]
  deriving Inhabited

/-- The function around a place. -/
structure FunctionContext where
  result : Option Ty
  isConstructor : Bool
  deriving Inhabited

/-- The context of a place. -/
structure Walker where
  options : CheckOptions := {}
  /-- The number of nested steps allowed for work on types. -/
  steps : Nat := Typing.defaultSteps
  unit : Nat := 0
  environment : Nat := 0
  typeVars : List (String × TypeVar) := []
  function : Option FunctionContext := none
  quiet : Bool := false
  deriving Inhabited

/-- Work in a session. -/
abbrev Check := ReaderT Walker (StateT Session Option)

/-- Work on types inside a session. -/
def Check.ofTyping {α : Type} (work : Typing α) : Check α := fun walker session =>
  let table := session.table
  let session := { session with table := {} }
  match work walker.steps table with
  | some (a, table) => some (a, { session with table })
  | none => none

instance : MonadLift Typing Check := ⟨Check.ofTyping⟩

namespace Check

/-- The state of the session. -/
def session : Check Session := getThe Session

/-- Changes the state of the session. -/
def update (change : Session → Session) : Check Unit := modifyThe Session change

/-- Changes the state of the session and gives a value. -/
def updateGet {α : Type} (change : Session → α × Session) : Check α := modifyGetThe Session change

/-- The context of the place. -/
def walker : Check Walker := readThe Walker

/-- The table of types. -/
def table : Check Table := return (← session).table

/-- Records a problem, unless checking is quiet. -/
def report (position : Position) (problem : Problem) : Check Unit := do
  let walker ← walker
  if !walker.quiet then
    update fun s => { s with findings := s.findings.push ⟨walker.unit, position, problem⟩ }

/-- Records the type of an expression or a variable, unless checking is quiet. -/
def record (site : Site) (kind : NodeKind) (type : Ty) : Check Unit := do
  if !(← walker).quiet then
    update fun s => { s with
      recorded := s.recorded.setIfInBounds site.number (some ⟨site.position, kind, type⟩) }

/-- Work of which nothing is recorded. -/
def speculate {α : Type} (work : Check α) : Check α := withReader ({ · with quiet := true }) work

/-- Reports a value whose type does not fit, and says whether it fits. -/
def fits (position : Position) (source target : Ty) (reason : FitReason) : Check Bool := do
  if ← source.isAssignableTo target then return true
  report position (.unassignable source target reason)
  return false

/-- Changes the environments. -/
def modifyScopes (change : Nat → Scopes → Scopes) : Check Unit := do
  let e := (← walker).environment
  update fun s => { s with scopes := change e s.scopes }

/-- Work in a new frame of the environment. -/
def inFrame {α : Type} (work : Check α) : Check α := do
  modifyScopes fun e s => s.enter e
  let a ← work
  modifyScopes fun e s => s.exit e
  return a

/-- The type of a name in scope. -/
def lookup (name : String) : Check (Option Ty) := do
  return (← session).scopes.lookup (← walker).environment name

/-- The declaration of a name in scope. -/
def value? (name : String) : Check (Option ValueDecl) := do
  return (← session).scopes.value? (← walker).environment name

/-- Declares a name in an environment; false when it is declared there already. -/
def defineIn (e : Nat) (name : String) (value : ValueDecl) : Check Bool :=
  updateGet fun s =>
    let (done, scopes) := s.scopes.define e name value
    (done, { s with scopes })

/-- Declares a name in the innermost frame; false when it is declared there already. -/
def define (name : String) (type : Ty) (isConst : Bool) : Check Bool := do
  defineIn (← walker).environment name ⟨type, isConst⟩

/-- Narrows a name in the innermost frame. -/
def bind (name : String) (t : Ty) : Check Unit := modifyScopes fun e s => s.bind e name t

/-- Narrows several names in the innermost frame. -/
def apply (bindings : Bindings) : Check Unit := bindings.forM fun (name, t) => bind name t

/-- The narrowings of the innermost frame for names declared outside it. -/
def narrowed : Check Bindings := do return (← session).scopes.narrowed (← walker).environment

/-- The place of the global environment. -/
def globals : Nat := 0

/-- Work on a declaration in a new environment inside the global one. -/
def inUnit {α : Type} (unit : Nat) (work : Check α) : Check α := do
  let e ← updateGet fun s =>
    let (e, scopes) := s.scopes.add (some globals)
    (e, { s with scopes })
  withReader (fun w => { options := w.options, steps := w.steps, unit, environment := e }) work

end Check

end ShapeCheck
