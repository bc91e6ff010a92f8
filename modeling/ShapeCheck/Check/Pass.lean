import ShapeCheck.Check.Class
import ShapeCheck.Check.Enum
import ShapeCheck.Check.Function
import ShapeCheck.Check.Prelude
import ShapeCheck.Diagnostic
import ShapeCheck.Tree.Numbering

/-!
# Checking passes

A pass over a program: all type names are declared, then enums, aliases, interfaces and classes are
defined, aliases are resolved, functions and variables are declared, result types are inferred, and
at last all bodies are checked. Names are declared first, so declarations may refer to each other in
any order.

* `Pass.run` is the pass as work in a session.
* `Checked` is what a pass gives: diagnostics in the order of the declarations, the types of the
  top-level names, and the types of expressions and variables in the order of the tree.
* `Program.check` checks a program.
-/

namespace ShapeCheck

namespace Pass

open Check

/-- Reserves a type name. A name declared before is reported, and its declaration is skipped. -/
def declareName (unit : Nat) (position : Position) (name : String) (kind : NameKind)
    (params : List TypeParam) : Check Bool := do
  match (← session).names.lookup name with
  | some before =>
    let problem : Problem :=
      if before.kind = kind then .duplicate name else .duplicateKind name before.kind
    Function.reportIn unit position problem
    return false
  | none =>
    let required := (params.takeWhile fun p => p.default.isNone).length
    let decl : TypeName := { kind, params := params.length, required, unit := some unit }
    update fun s => { s with names := (name, decl) :: s.names }
    return true

/-- Reserves the type name of a declaration; only the first interface of a name reserves it. -/
def declareUnit (interfaces : List Interface.Group) (unit : Nat) : Declaration → Check Bool
  | .alias d => declareName unit d.position d.name .alias d.typeParams
  | .interface d =>
    if interfaces.any fun g => (g.decls.head?.map Prod.fst) = some unit then
      declareName unit d.position d.name .interface d.typeParams
    else return false
  | .enumeration d => declareName unit d.position d.name .enumeration []
  | .classDecl d => declareName unit d.position d.name .classDecl d.typeParams
  | _ => return false

/-- The declarations whose type names could be reserved. -/
def declareUnits (interfaces : List Interface.Group) :
    List (Nat × Declaration) → Check (List (Nat × Declaration))
  | [] => return []
  | (unit, d) :: rest => do
    if ← declareUnit interfaces unit d then return (unit, d) :: (← declareUnits interfaces rest)
    else declareUnits interfaces rest

/-- Defines an enum. -/
def defineEnum (unit : Nat) : Declaration → Check Unit
  | .enumeration d => inUnit unit (Enum.register d)
  | _ => return ()

/-- Defines an alias or an interface. -/
def defineAliasOrInterface (settle : String → Check Unit) (interfaces : List Interface.Group)
    (unit : Nat) : Declaration → Check Unit
  | .alias d => inUnit unit (registerAlias settle d)
  | .interface d =>
    match interfaces.find? (·.name = d.name) with
    | some g => Interface.register settle g
    | none => return ()
  | _ => return ()

/-- Defines a class. -/
def defineClass (settle : String → Check Unit) (units : Array Declaration) (unit : Nat) :
    Declaration → Check Unit
  | .classDecl _ => Class.register settle units unit
  | _ => return ()

/-- Declares and defines all types of a program. Enums come first because their values may appear
anywhere, classes last because their fields may be typed from expressions. -/
def defineTypes (units : Array Declaration) : Check Unit := do
  let all := units.toList.zipIdx.map fun (d, i) => (i, d)
  let interfaces := Interface.groups all
  let settle := Function.settle units
  let reserved ← declareUnits interfaces all
  Prelude.declare
  reserved.forM fun (unit, d) => defineEnum unit d
  reserved.forM fun (unit, d) => defineAliasOrInterface settle interfaces unit d
  reserved.forM fun (unit, d) => defineClass settle units unit d

/-- Reports a cyclic alias at its declaration. -/
def reportCycle (units : Array Declaration) (e : AliasError) : Check Unit := do
  match e with
  | .cyclic name chain =>
    match ((← session).names.lookup name).bind TypeName.unit with
    | some unit =>
      match units[unit]? with
      | some d => Function.reportIn unit d.position (.cyclicAlias name chain)
      | none => return ()
    | none => return ()
  | _ => return ()

/-- Resolves all aliases and ends their definition. -/
def resolveAliases (units : Array Declaration) : Check Unit := do
  let errors ← Alias.resolveAll
  errors.forM (reportCycle units)
  Alias.freeze

/-- Declares the variable at a place in the global environment. -/
def declareVariable (units : Array Declaration) (unit : Nat) : Declaration → Check Unit
  | .variable v => withReader (fun w : Walker => { w with unit, environment := globals })
      (Walk.varStatement (Function.settle units) v)
  | _ => return ()

/-- Checks the body of the declaration at a place. -/
def checkUnit (units : Array Declaration) (unit : Nat) : Declaration → Check Unit
  | .function d =>
    if d.body.isSome then inUnit unit (Function.checkBody units unit d) else return ()
  | .classDecl d => inUnit unit (Class.check (Function.settle units) unit d)
  | .statement _ s => inUnit unit do
      let _ ← Walk.statement (Function.settle units) s
  | _ => return ()

/-- The whole pass. -/
def run (units : Array Declaration) : Check Unit := do
  let all := units.toList.zipIdx.map fun (d, i) => (i, d)
  defineTypes units
  resolveAliases units
  Function.declareAll (Function.settle units) all
  all.forM fun (unit, d) => declareVariable units unit d
  Function.inferAll units
  all.forM fun (unit, d) => checkUnit units unit d

end Pass

/-- What a pass over a program gives. -/
structure Checked where
  diagnostics : List Diagnostic
  symbols : List (String × Ty)
  /-- The types of expressions and variables in the order of the tree. -/
  types : List Recorded
  table : Table
  deriving Inhabited

namespace Pass

/-- The diagnostics of the declaration at a place. -/
def diagnosticsOf (source : Source) (s : Session) (unit : Nat) (d : Declaration) :
    List Diagnostic :=
  (s.findings.toList.filter (·.unit = unit)).map fun f =>
    { source := some source, position := f.position, kind := f.problem.kind.text
      message := f.problem.message s.table, declaration := d.name }

/-- What a finished session gives. -/
def result (program : Program) (s : Session) : Checked where
  diagnostics := program.declarations.zipIdx.flatMap fun (d, unit) =>
    diagnosticsOf program.source s unit d
  symbols := (s.scopes.declared Check.globals).map fun (name, v) => (name, v.type)
  types := s.recorded.toList.filterMap id
  table := s.table

end Pass

/-- Checks a program, with at most so many nested steps for each piece of work on types. -/
def Program.checkWithin (steps : Nat) (options : CheckOptions) (program : Program) :
    Option Checked :=
  let (program, count) := program.numbered
  let start : Session := { recorded := Array.replicate (count + 1) none }
  match Pass.run program.declarations.toArray { options, steps } start with
  | some ((), s) => some (Pass.result program s)
  | none => none

/-- Checks a program. -/
def Program.check (options : CheckOptions) (program : Program) : Option Checked :=
  program.checkWithin Typing.defaultSteps options

end ShapeCheck
