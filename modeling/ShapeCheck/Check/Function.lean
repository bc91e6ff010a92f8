import ShapeCheck.Check.Statement

/-!
# Function declarations

All declarations of one name are one function: overload signatures, and one body behind them.
Callers of an overloaded function see its overload signatures only. A result type that is not
written is inferred from the body, at the latest when it is needed.

* `Function.declareAll` declares the functions of a program.
* `Function.settleAt` infers the result type of a function before its name is used.
* `Function.inferAll` infers what is left and compares bodies with overload signatures.
-/

namespace ShapeCheck.Function

open Check

/-- The function declarations of one name with their places in the program. -/
structure Group where
  name : String
  decls : List (Nat × FunctionDecl)
  deriving Inhabited

/-- Adds a declaration to the group of its name. -/
def addTo (groups : List Group) (unit : Nat) (d : FunctionDecl) : List Group :=
  if groups.any (·.name = d.name) then
    groups.map fun g => if g.name = d.name then { g with decls := g.decls ++ [(unit, d)] } else g
  else groups ++ [⟨d.name, [(unit, d)]⟩]

/-- The function declarations grouped by name, in the order in which the names first appear. -/
def groups (units : List (Nat × Declaration)) : List Group :=
  units.foldl (fun gs (unit, d) =>
    match d with
    | .function f => addTo gs unit f
    | _ => gs) []

/-- Reports a problem in a declaration. -/
def reportIn (unit : Nat) (position : Position) (problem : Problem) : Check Unit :=
  withReader (fun w : Walker => { w with unit, quiet := false }) (report position problem)

section Declaring

variable (settle : String → Check Unit)

/-- The overload signatures of a group. -/
def overloadsOf : List (Nat × FunctionDecl) → Bool → Check (List OverloadSignature)
  | [], _ => return []
  | (unit, d) :: rest, hasBody => do
    match d.body with
    | none =>
      let type ← inUnit unit (Meaning.signature (Walk.signature settle d.signature) none)
      return { type, unit, position := d.position } :: (← overloadsOf rest hasBody)
    | some _ =>
      if hasBody then reportIn unit d.position .duplicateImplementation
      overloadsOf rest true

/-- The function type of a body. Without a written result it gives `any` until the body is looked
at. -/
def implementation (unit : Nat) (d : FunctionDecl) : Check Ty := do
  let fn ← inUnit unit (Meaning.signature (Walk.signature settle d.signature) none)
  match d.signature.result, (← table).callable? fn with
  | none, some c =>
    update fun s => { s with pending := s.pending ++ [{ name := d.name, unit }] }
    Ty.functionOf { c with result := .any }
  | _, _ => return fn

/-- The type that callers of a function see. -/
def symbolType (overloads : List OverloadSignature) (implementation : Option Ty) : Check Ty := do
  match overloads with
  | [] => return implementation.getD .invalid
  | [only] => return only.type
  | _ => Ty.objectOf { calls := overloads.map OverloadSignature.type }

/-- The first declaration of a group with a body. -/
def bodyOf? (g : Group) : Option (Nat × FunctionDecl) := g.decls.find? fun (_, d) => d.body.isSome

/-- Declares the functions of one name. -/
def declare (g : Group) : Check Unit := do
  let overloads ← overloadsOf settle g.decls false
  let body := bodyOf? g
  let type ← match body with
    | none => pure none
    | some (unit, d) => do
      let t ← implementation settle unit d
      update fun s => { s with implementations := (unit, t) :: s.implementations }
      pure (some t)
  let symbol ← symbolType overloads type
  match overloads.getLast?, body with
  | some last, none => reportIn last.unit last.position .missingImplementation
  | some _, some (unit, _) =>
    update fun s => { s with overloads := (unit, overloads) :: s.overloads }
  | none, _ => pure ()
  if !(← defineIn globals g.name ⟨symbol, true⟩) then
    match g.decls with
    | (unit, d) :: _ => reportIn unit d.position (.duplicate g.name)
    | [] => return ()

/-- Declares all functions of a program. -/
def declareAll (units : List (Nat × Declaration)) : Check Unit :=
  (groups units).forM (declare settle)

end Declaring

/-- Notes how far the inference of a result type has come. -/
def setProgress (unit : Nat) (progress : Progress) : Check Unit :=
  update fun s => { s with
    pending := s.pending.map fun p => if p.unit = unit then { p with progress } else p }

/-- Keeps the inferred type of a function. Callers of an overloaded one do not see it. -/
def keepInferred (unit : Nat) (name : String) (t : Ty) : Check Unit :=
  update fun s =>
    let scopes := if (s.overloads.lookup unit).isSome then s.scopes
      else (s.scopes.redefine globals name t).2
    { s with implementations := (unit, t) :: s.implementations, scopes }

/-- Infers the result type of a function from its body, quietly. References to the function inside
its own body see `any`. -/
def infer (settle : String → Check Unit) (unit : Nat) (d : FunctionDecl) : Check Unit := do
  setProgress unit .running
  match ((← session).implementations.lookup unit).bind (← table).callable? with
  | none => return ()
  | some c =>
    let result ← inUnit unit (speculate (Body.check (Walk.bodyOf settle d c false)))
    let t ← Ty.functionOf { c with result }
    keepInferred unit d.name t
    setProgress unit .done

/-- Infers the result type of the function at a place, if that is still to be done. -/
def inferUnit (units : Array Declaration) (settle : String → Check Unit) (unit : Nat) :
    Check Unit := do
  match (← session).pending.find? fun p => p.unit = unit && p.progress = .waiting, units[unit]? with
  | some _, some (.function d) => infer settle unit d
  | _, _ => return ()

/-- Infers the result type of the function of that name before the name is used, if that is still to
be done; inferences nest at most so deep. -/
def settleAt (units : Array Declaration) : Nat → String → Check Unit
  | 0, _ => return ()
  | depth + 1, name => do
    match (← session).pending.find? fun p => p.name = name with
    | some p => inferUnit units (settleAt units depth) p.unit
    | none => return ()

/-- Infers the result type of the function of that name before the name is used. No function is
inferred inside its own inference, so inferences nest no deeper than the program has
declarations. -/
def settle (units : Array Declaration) : String → Check Unit := settleAt units (units.size + 1)

/-- Compares a body with an overload signature. Its parameters have to be taken, and one of the
results has to fit the other. -/
def checkOverload (implementation : Ty) (o : OverloadSignature) : Check Unit := do
  let erased ← implementation.erase
  let target ← o.type.erase
  let table ← table
  match table.callable? erased, table.callable? target with
  | some own, some wanted =>
    let candidate ← if ← wanted.result.isAssignableTo own.result then
        Ty.functionOf { own with result := wanted.result }
      else pure erased
    if !(← candidate.isAssignableTo target) then
      reportIn o.unit o.position (.unassignable implementation o.type .overload)
  | _, _ => return ()

/-- Compares the body at a place with the overload signatures in front of it. -/
def checkOverloads (unit : Nat) : Check Unit := do
  let s ← session
  match s.implementations.lookup unit, s.overloads.lookup unit with
  | some t, some overloads => overloads.forM (checkOverload t)
  | _, _ => return ()

/-- Infers all result types that are left, then compares bodies with overload signatures. -/
def inferAll (units : Array Declaration) : Check Unit := do
  let places := List.range units.size
  places.forM (inferUnit units (settle units))
  places.forM checkOverloads

/-- Checks the body of the function at a place. -/
def checkBody (units : Array Declaration) (unit : Nat) (d : FunctionDecl) : Check Unit := do
  match ((← session).implementations.lookup unit).bind (← table).callable? with
  | none => return ()
  | some c => let _ ← Body.check (Walk.bodyOf (settle units) d c d.signature.result.isSome)

end ShapeCheck.Function
