import ShapeCheck.Check.Expression

/-!
# Statements in a session

Statements are checked in order. Each says whether it always leaves the function around it. A branch
is checked under what its condition proves, and what holds at the ends of the branches holds after
the statement; a branch that leaves the function contributes nothing.

* `Walk.statement`, `Walk.statements` and `Walk.block` are the recursion over statements.
* `Walk.join` is what two branches agree on.
-/

namespace ShapeCheck

namespace Walk

open Check

/-- The type of a name at the end of a branch: as narrowed there, else its current type. -/
def atEnd (branch : Bindings) (name : String) : Check (Option Ty) := do
  match branch.lookup name with
  | some t => return some t
  | none => lookup name

/-- The narrowings after two branches: for every name narrowed in one of them, the union of its
types at their ends. -/
def join (a b : Bindings) : Check Bindings := do
  let joined ← (Guard.names a b).mapM fun name => do
    match ← atEnd a name, ← atEnd b name with
    | some s, some t => return some (name, ← Ty.unionOf [s, t])
    | _, _ => return none
  return joined.filterMap id

/-- What holds at the end of a branch that starts under the given narrowings, and whether the branch
always leaves the function. -/
def branch (start : Bindings) (body : Check Bool) : Check (Bindings × Bool) :=
  inFrame do
    apply start
    let exits ← body
    return (← narrowed, exits)

/-- A conditional statement. -/
def conditional (condition : Check Ty) (guard : Check Guard) (yes : Check Bool)
    (no : Option (Check Bool)) : Check Bool := do
  let _ ← condition
  let g ← guard
  let (afterYes, yesExits) ← branch g.whenTrue yes
  let (afterNo, noExits) ← match no with
    | some body => branch g.whenFalse body
    | none => pure (g.whenFalse, false)
  match yesExits, noExits with
  | true, true => return true
  | true, false => apply afterNo; return false
  | false, true => apply afterYes; return false
  | false, false => do
    apply (← join afterYes afterNo)
    return false

/-- A block: its narrowings of outer names outlive it, unless it always leaves the function. -/
def inBlock (statements : Check Bool) : Check Bool := do
  let (after, exits) ← inFrame do
    let exits ← statements
    return (← narrowed, exits)
  if !exits then apply after
  return exits

/-- The type of a variable: its annotation, or else that of its value, widened unless the variable
is a constant. -/
def variableType (v : Variable) (written : Option (Check Ty)) (value : Option ExprPart) :
    Check Ty := do
  let declared ← Meaning.optional written
  match value, declared with
  | none, _ =>
    if v.kind = .const then report v.site.position .constWithoutValue
    return declared.getD .any
  | some part, some t =>
    let own ← part.check (some t)
    let _ ← fits part.position own t .assignment
    return t
  | some part, none =>
    let t ← part.check none
    if v.kind = .const then return t else t.deepWiden

/-- A variable declaration. -/
def declareVariable (v : Variable) (written : Option (Check Ty)) (value : Option ExprPart) :
    Check Unit := do
  let t ← variableType v written value
  if ← define v.name t (v.kind = .const) then record v.site .variable t
  else report v.site.position (.redeclared v.name)

/-- Notes a type that the function returns. -/
def returned (t : Ty) : Check Unit := update fun s => { s with returns := s.returns ++ [t] }

/-- A return statement. -/
def leave (position : Position) (value : Option ExprPart) : Check Unit := do
  match (← walker).function, value with
  | none, value =>
    report position .strayReturn
    match value with
    | some part => let _ ← part.check none
    | none => pure ()
  | some f, none =>
    match f.result with
    | some t => if !f.isConstructor then let _ ← fits position .undefined t .assignment
    | none => pure ()
    returned .undefined
  | some f, some part =>
    let t ← part.check f.result
    match f.result with
    | some result => let _ ← fits part.position t result .assignment
    | none => pure ()
    returned t

section Recursion

variable (settle : String → Check Unit)

/-- A variable declaration in the tree. -/
def varStatement (v : Variable) : Check Unit :=
  declareVariable v (optionalType settle v.type) (initialPart settle v.value)

mutual

/-- Checks a statement and says whether it always leaves the function around it. -/
def statement : Stmt → Check Bool
  | .variable v => do varStatement settle v; return false
  | .expression _ e => do
    let _ ← check settle e none
    return false
  | .block b => block b
  | .conditional _ condition yes no =>
    conditional (check settle condition none) (guard settle condition) (block yes)
      (optionalBlock no)
  | .exit position value => do leave position (initialPart settle value); return true
  | .raise _ value => do
    let _ ← check settle value none
    return true

/-- Checks a block in its own scope. -/
def block : Block → Check Bool
  | .mk _ ss => inBlock (statements ss)

/-- A block that may be missing, as an action. -/
def optionalBlock : Option Block → Option (Check Bool)
  | none => none
  | some b => some (block b)

/-- Checks statements in order and says whether one of them always leaves the function. -/
def statements : List Stmt → Check Bool
  | [] => return false
  | s :: ss => do
    let first ← statement s
    let rest ← statements ss
    return first || rest

end

/-- A function declaration as a body to be checked. -/
def bodyOf (d : FunctionDecl) (type : Callable) (declared : Bool) : BodySpec :=
  let s := signature settle d.signature
  { position := d.position, type, params := s.params, rest := s.rest
    body := .block ((d.body.map fun b => statements settle b.statements).getD (return false))
    declared }

end Recursion

end Walk

end ShapeCheck
