import ShapeCheck.Check.Meaning

/-!
# Calls

A call finds the signatures of what is called, binds their type parameters, chooses one, and then
checks every argument against it. Before that the types of arguments are found quietly, and once for
each type expected of them.

* `Call.invoke` checks a call against some signatures.
* `Call.call` and `Call.construct` check the two kinds of calls.
-/

namespace ShapeCheck.Call

open Check

/-- The types of arguments found so far, by place and expected type. -/
abbrev Cache := List ((Nat × Option Ty) × Ty)

/-- Work on the arguments of one call. -/
abbrev OnArguments := StateT Cache Check

/-- The type of an argument, found quietly. -/
def argumentType (parts : List ExprPart) (i : Nat) (expected : Option Ty) : OnArguments Ty := do
  match (← get).lookup (i, expected) with
  | some t => return t
  | none =>
    let t ← match parts[i]? with
      | some part => liftM (m := Check) (speculate (part.check expected))
      | none => pure .invalid
    modify (((i, expected), t) :: ·)
    return t

/-- The arguments of a call. -/
def arguments (parts : List ExprPart) : Arguments OnArguments where
  count := parts.length
  type := argumentType parts
  isContextSensitive i := ((parts[i]?).map ExprPart.isContextSensitive).getD false

/-- Checks arguments of which nothing is expected. -/
def checkFreely (parts : List ExprPart) : Check Unit := parts.forM fun p => do
  let _ ← p.check none

/-- Checks an argument against what it has to fit; none fits a parameter without a type. -/
def checkArgument (part : ExprPart) (target : Ty) : Check Unit := do
  if (← table).isNothing target then
    let t ← part.check none
    report part.position (.unassignable t target .argument)
  else
    let t ← part.check (some target)
    let _ ← fits part.position t target .argument

/-- Checks the arguments from a place on against a signature. -/
def checkArguments (c : Callable) : Nat → List ExprPart → Check Unit
  | _, [] => return ()
  | i, part :: rest => do
    match ← Overload.parameterTarget? c i with
    | none => let _ ← part.check none
    | some target => checkArgument part target
    checkArguments c (i + 1) rest

/-- Checks a call against the signature it uses and gives its result. -/
def applySignature (position : Position) (signature : Ty) (parts : List ExprPart) : Check Ty := do
  match (← table).callable? signature with
  | none => return .invalid
  | some c =>
    if !c.acceptsArity parts.length then
      let greatest := if c.rest.isSome then none else some c.params.length
      report position (.arity .arguments c.required greatest parts.length)
    checkArguments c 0 parts
    return c.result

/-- The signature that a call uses, with its type parameters bound. -/
def select (signatures : List Ty) (parts : List ExprPart) (explicit : List Ty) :
    Check (Except Problem Ty) :=
  match signatures with
  | [only] => (Inference.infer only (arguments parts) explicit).run' []
  | _ => (Overload.choose signatures (arguments parts) explicit).run' []

/-- Checks a call against some signatures and gives its result. -/
def invoke (position : Position) (signatures : List Ty) (parts : List ExprPart)
    (explicit : Check (List Ty)) : Check Ty := do
  let explicit ← explicit
  match ← select signatures parts explicit with
  | .ok signature => applySignature position signature parts
  | .error problem =>
    report position problem
    checkFreely parts
    return .invalid

/-- The type of a call. -/
def call (position : Position) (callee : ExprPart) (explicit : Check (List Ty))
    (parts : List ExprPart) : Check Ty := do
  let t ← callee.check none
  let resolved ← t.resolve
  if resolved = .any || resolved = .invalid then
    checkFreely parts
    return .any
  match ← resolved.callSignatures with
  | [] =>
    report callee.position (.notCallable t)
    checkFreely parts
    return .invalid
  | signatures => invoke position signatures parts explicit

/-- Whether a class value belongs to a class declared abstract. -/
def isAbstractClass (t : Ty) (name : String) : Check Bool := do
  match (← session).classes.lookup name with
  | some info => return info.type = t && info.isAbstract
  | none => return false

/-- The type of a construction. A class that is not generic gives its instance type even where the
arguments are wrong. -/
def construct (position : Position) (callee : ExprPart) (explicit : Check (List Ty))
    (parts : List ExprPart) : Check Ty := do
  let t ← callee.check none
  let resolved ← t.resolve
  if resolved = .any || resolved = .invalid then
    checkFreely parts
    return .any
  match (← table).shape resolved with
  | .classValue name _ constructor =>
    if ← isAbstractClass resolved name then report position .abstractConstruction
    let made ← invoke position [constructor] parts explicit
    match (← table).callable? constructor with
    | some c => return if made = .invalid && !c.isGeneric then c.result else made
    | none => return made
  | _ =>
    report callee.position (.notConstructable t)
    checkFreely parts
    return .invalid

end ShapeCheck.Call
