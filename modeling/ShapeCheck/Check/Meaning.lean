import ShapeCheck.Check.Session

/-!
# The meaning of written types

What written types, type parameters and signatures mean in a session. The recursion over the tree is
elsewhere: a rule here gets the parts of a node as actions that it runs when their turn comes.

* `ExprPart`, `TypeParamPart`, `ParamPart` and `SignaturePart` are nodes with their parts as
  actions.
* `Meaning.reference` is the type that a name stands for.
* `Meaning.declareTypeVars` makes type parameters, `Meaning.signature` makes a function type.
-/

namespace ShapeCheck

/-- An expression that can be checked, given what is expected of it. -/
structure ExprPart where
  position : Position
  check : Option Ty → Check Ty
  /-- Whether its type depends on what is expected. -/
  isContextSensitive : Bool := false

/-- A type parameter with its annotations as actions. -/
structure TypeParamPart where
  position : Position
  name : String
  bound : Option (Check Ty)
  default : Option (Check Ty)

/-- A parameter with its annotation and initializer as actions. -/
structure ParamPart where
  position : Position
  name : String
  written : Option (Check Ty)
  optional : Bool
  initial : Option ExprPart

/-- A signature with its parts as actions. -/
structure SignaturePart where
  typeParams : List TypeParamPart := []
  params : List ParamPart := []
  rest : Option ParamPart := none
  receiver : Option (Check Ty) := none
  result : Option (Check Ty) := none

namespace Meaning

open Check

/-- The enum member that a dotted name stands for. -/
def enumMember (position : Position) (enum member : String) : Check Ty := do
  match (← session).enums.lookup enum with
  | none =>
    report position (.unresolved enum)
    return .invalid
  | some t =>
    let table ← table
    let found := match table.shape t with
      | .enumeration e => Ty.enumMember? table e member
      | _ => none
    match found with
    | some m => return m
    | none =>
      report position (.unknownProperty member t)
      return .invalid

/-- Complains about type arguments that a name does not take. -/
def refuseArguments (position : Position) (arguments : List Ty) : Check Unit := do
  if !arguments.isEmpty then
    report position (.arity .typeArguments 0 (some 0) arguments.length)

/-- The only type argument of a built-in name. -/
def onlyArgument (position : Position) (arguments : List Ty) (make : Ty → Check Ty) : Check Ty := do
  match arguments with
  | [t] => make t
  | _ =>
    report position (.arity .typeArguments 1 (some 1) arguments.length)
    return .invalid

/-- What a name stands for that is not declared. -/
def builtin (position : Position) (name : String) (arguments : List Ty) : Check Ty := do
  match name with
  | "Array" => onlyArgument position arguments fun t => Ty.arrayOf t
  | "ReadonlyArray" => onlyArgument position arguments fun t => Ty.arrayOf t true
  | "object" => Ty.objectOf {}
  | _ =>
    if name = readonlyName then onlyArgument position arguments fun t => Ty.referenceTo name [t]
    else
      report position (.unresolved name)
      return .invalid

/-- What a declared name stands for. An alias with a wrong number of arguments is still referred
to, with the arguments in excess dropped. -/
def declared (position : Position) (name : String) (decl : TypeName) (arguments : List Ty) :
    Check Ty := do
  if decl.kind = .enumeration then
    refuseArguments position arguments
    return ((← session).enums.lookup name).getD .invalid
  let count := arguments.length
  if decl.params < count || count < decl.required then
    report position (.arity .typeArguments decl.required (some decl.params) count)
  Ty.referenceTo name (arguments.take decl.params)

/-- Splits a dotted name at its first dot, unless the dot comes first. -/
def dotted? (name : String) : Option (String × String) :=
  let cs := name.toList
  match cs.takeWhile (· ≠ '.'), cs.dropWhile (· ≠ '.') with
  | [], _ => none
  | head, _ :: rest => some (String.ofList head, String.ofList rest)
  | _, [] => none

/-- The type that a name with type arguments stands for. -/
def reference (position : Position) (name : String) (arguments : List Ty) : Check Ty := do
  match (← walker).typeVars.lookup name, Primitive.ofName? name, dotted? name with
  | some v, _, _ =>
    refuseArguments position arguments
    Ty.parameterOf v
  | none, some p, _ =>
    refuseArguments position arguments
    return .prim p
  | none, none, some (enum, member) => enumMember position enum member
  | none, none, none =>
    match (← session).names.lookup name with
    | none => builtin position name arguments
    | some decl => declared position name decl arguments

/-- The literal type of some digits. -/
def bigint (position : Position) (digits : String) : Check Ty := do
  match Decimal.whole? digits with
  | some n => Ty.literalOf (.bigint n)
  | none =>
    report position (.badBigint digits)
    return .invalid

/-- The type of a written literal. -/
def literal (position : Position) : LiteralSpelling → Check Ty
  | .number v => Ty.literalOf (.number v)
  | .string s => Ty.literalOf (.string s)
  | .boolean b => Ty.literalOf (.boolean b)
  | .bigint digits => bigint position digits

/-- Work with more type parameters in scope; of several with one name the last counts. -/
def withTypeVars {α : Type} (vars : List (String × TypeVar)) (work : Check α) : Check α :=
  withReader (fun w : Walker => { w with typeVars := vars.reverse ++ w.typeVars }) work

/-- Makes a type parameter for each name, and reports those that come twice. -/
def makeTypeVars : List TypeParamPart → List (String × TypeVar) → Check (List (String × TypeVar))
  | [], done => return done
  | p :: rest, done => do
    let v ← Ty.newTypeVar { name := p.name }
    if (done.lookup p.name).isSome then report p.position (.duplicate p.name)
    makeTypeVars rest (done ++ [(p.name, v)])

/-- Gives a type parameter its bound and its default. -/
def completeTypeVar (part : TypeParamPart) (v : TypeVar) : Check Unit := do
  match part.bound with
  | some action =>
    let t ← action
    Ty.setBound v t
  | none => pure ()
  match part.default with
  | some action =>
    let t ← action
    Ty.setDefault v t
  | none => pure ()

/-- Makes the type parameters of a declaration. Their bounds and defaults may mention all of
them. -/
def declareTypeVars (parts : List TypeParamPart) : Check (List (String × TypeVar)) := do
  let vars ← makeTypeVars parts []
  withTypeVars vars do
    (parts.zip (vars.map Prod.snd)).forM fun (part, v) => completeTypeVar part v
  return vars

/-- The type of a parameter: its annotation, else what is expected of it, else the widened type of
its initializer, else `any`. -/
def parameterType (p : ParamPart) (expected : Option Ty) : Check Ty := do
  match p.written, expected, p.initial with
  | some action, _, _ => action
  | none, some t, _ => return t
  | none, none, some initial => do
    let t ← speculate (initial.check none)
    t.deepWiden
  | none, none, none => do
    if (← walker).options.noImplicitAny then report p.position (.implicitAny p.name)
    return .any

/-- What a function type expects at a parameter position. -/
def expectedAt (expected : Option Callable) (i : Nat) : Check (Option Ty) := do
  let table ← table
  return expected.bind fun c => Ty.parameterAt? table c i

/-- The parameters of a signature. The initializer of each may read those before it. -/
def parameters (expected : Option Callable) : Nat → List ParamPart → Check (List Parameter)
  | _, [] => return []
  | i, p :: rest => do
    let type ← parameterType p (← expectedAt expected i)
    let _ ← define p.name type false
    let others ← parameters expected (i + 1) rest
    return { name := p.name, type, optional := p.optional || p.initial.isSome } :: others

/-- The rest parameter of a signature; one of type `any` is an array of these. -/
def restParameter (expected : Option Callable) : Option ParamPart → Check (Option Parameter)
  | none => return none
  | some p => do
    let t ← parameterType p ((expected.bind Callable.rest).map Parameter.type)
    let type ← if t = .any then Ty.arrayOf .any else pure t
    return some { name := p.name, type }

/-- Runs an action that may be missing. -/
def optional : Option (Check Ty) → Check (Option Ty)
  | none => return none
  | some action => return some (← action)

/-- What a signature says; without a result it gives `void`. Parameters without annotations take
their types from the expected function. -/
def callable (s : SignaturePart) (expected : Option Callable) : Check Callable := do
  let vars ← declareTypeVars s.typeParams
  withTypeVars vars <| inFrame do
    let params ← parameters expected 0 s.params
    let rest ← restParameter expected s.rest
    let receiver ← optional s.receiver
    let result ← optional s.result
    return { typeParams := vars.map Prod.snd, params, rest, receiver, result := result.getD .void }

/-- The function type of a signature. -/
def signature (s : SignaturePart) (expected : Option Callable) : Check Ty := do
  Ty.functionOf (← callable s expected)

end Meaning

end ShapeCheck
