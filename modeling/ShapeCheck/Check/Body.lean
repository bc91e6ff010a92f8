import ShapeCheck.Check.Meaning

/-!
# Function bodies

A body is checked with the parameters of its function in scope. Its result type is the declared one,
or else the widened union of what it returns.

* `Body.check` checks a body against a function type and gives its result type.
* `Body.literal` is the type of a function expression.
-/

namespace ShapeCheck

/-- What a function does. -/
inductive BodyPart where
  | expression (part : ExprPart)
  /-- It runs statements; the action says whether they always leave the function. -/
  | block (statements : Check Bool)

/-- A function body to be checked. -/
structure BodySpec where
  position : Position
  type : Callable
  params : List ParamPart
  rest : Option ParamPart
  body : BodyPart
  declared : Bool
  /-- What is expected of the result when it is not written. -/
  expected : Option Ty := none
  isConstructor : Bool := false

namespace Body

open Check

/-- Whether a type has a literal or an enum member among its members. -/
def hasLiteralMember (table : Table) (t : Ty) : Bool :=
  (table.members t).any fun m => (table.literal? m).isSome || Ty.isEnumMember table m

/-- Whether a type asks for literals: what it stands for has one among its members. -/
def asksForLiterals (t : Ty) : Check Bool := do
  let resolved ← t.resolve
  return hasLiteralMember (← table) resolved

/-- A returned type, widened unless it fits an expected type that asks for literals. -/
def widenResult (t : Ty) (expected : Option Ty) : Check Ty := do
  match expected with
  | none => t.deepWiden
  | some e =>
    if ← asksForLiterals e then
      if ← t.isAssignableTo e then return t else t.deepWiden
    else t.deepWiden

/-- Declares the parameters of a function inside its body. One with an initializer has its type
without `undefined`, an optional one with it. -/
def declareParams : List (ParamPart × Parameter) → Check Unit
  | [] => return ()
  | (part, p) :: rest => do
    let type ← match part.initial with
      | some initial => do
        let t ← initial.check (some p.type)
        let _ ← fits initial.position t p.type .assignment
        pure p.type
      | none => do if p.optional then Ty.unionOf [p.type, .undefined] else pure p.type
    if !(← define part.name type false) then report part.position (.duplicate part.name)
    declareParams rest

/-- Declares what a function sees in its body. -/
def declareAll (spec : BodySpec) : Check Unit := do
  declareParams (spec.params.zip spec.type.params)
  match spec.rest, spec.type.rest with
  | some part, some p => let _ ← define part.name p.type false
  | _, _ => pure ()
  match spec.type.receiver with
  | some t => let _ ← define "this" t true
  | none => pure ()

/-- Runs the statements of a body; gives whether they always leave it, and what they return. -/
def collectReturns (statements : Check Bool) : Check (Bool × List Ty) := do
  let before ← updateGet fun s => (s.returns, { s with returns := [] })
  let exits ← statements
  let returns ← updateGet fun s => (s.returns, { s with returns := before })
  return (exits, returns)

/-- The result type of a body made of an expression. -/
def ofExpression (spec : BodySpec) (part : ExprPart) : Check Ty := do
  if spec.declared then
    let t ← part.check (some spec.type.result)
    let _ ← fits part.position t spec.type.result .assignment
    return spec.type.result
  else
    let t ← part.check spec.expected
    widenResult t spec.expected

/-- Whether a function whose declared result stands for the given type may end without returning a
value. -/
def mayFallThrough (resolved : Ty) : Check Bool := do
  if resolved.isTop || resolved = .void then return true
  Ty.undefined.isAssignableTo resolved

/-- The result type of a body made of statements. -/
def ofStatements (spec : BodySpec) (statements : Check Bool) : Check Ty := do
  let (exits, returns) ← collectReturns statements
  if spec.declared then
    let resolved ← spec.type.result.resolve
    if !exits then
      if !(← mayFallThrough resolved) then report spec.position .missingReturn
    return spec.type.result
  if returns.isEmpty then return .void
  let t ← Ty.unionOf (if exits then returns else returns ++ [.undefined])
  widenResult t spec.expected

/-- The type parameters of a function by their names. -/
def namedTypeVars (table : Table) (c : Callable) : List (String × TypeVar) :=
  c.typeParams.map fun v => ((table.typeVar v).name, v)

/-- Checks a body and gives its result type. -/
def check (spec : BodySpec) : Check Ty := do
  let vars := namedTypeVars (← table) spec.type
  let context : FunctionContext :=
    { result := if spec.declared then some spec.type.result else none
      isConstructor := spec.isConstructor }
  Meaning.withTypeVars vars <| inFrame do
    declareAll spec
    withReader (fun w : Walker => { w with function := some context }) do
      match spec.body with
      | .expression part => ofExpression spec part
      | .block statements => ofStatements spec statements

/-- The only signature among those of some types that have just one, given the one found before.
Nothing when there are two; the types behind the second are not looked at. -/
def onlySignature (found : Option Ty) : List Ty → Check (Option Ty)
  | [] => return found
  | m :: rest => do
    match ← m.callSignatures, found with
    | [only], none => onlySignature (some only) rest
    | [_], some _ => return none
    | _, _ => onlySignature found rest

/-- The only function type among the members of what is expected. -/
def expectedSignature (expected : Option Ty) : Check (Option Callable) := do
  match expected with
  | none => return none
  | some e =>
    let resolved ← e.resolve
    let only ← onlySignature none ((← table).members resolved)
    return only.bind (← table).callable?

/-- The type of a function expression. Its receiver is not declared. -/
def literal (position : Position) (s : SignaturePart) (body : ExprPart) (expected : Option Ty) :
    Check Ty := do
  let contextual ← expectedSignature expected
  let fn ← Meaning.signature { s with receiver := none } contextual
  match (← table).callable? fn with
  | none => return fn
  | some c =>
    let result ← check { position, type := c, params := s.params, rest := s.rest
                         body := .expression body, declared := s.result.isSome
                         expected := contextual.map Callable.result }
    if s.result.isSome then return fn else Ty.functionOf { c with result }

end Body

end ShapeCheck
