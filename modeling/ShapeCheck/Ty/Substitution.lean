import ShapeCheck.Ty.Union
import ShapeCheck.Ty.Intersection

/-!
# Substitution

A substitution binds type parameters to types. Applying it rebuilds a type through the constructors
of the table, so that the result is in normal form again; a function type loses the parameters that
are bound.

* `Ty.substitute` applies a substitution.
* `Ty.erase` replaces the parameters that a function declares by `any`.
* `Ty.mentions` says whether a type refers to one of some parameters.
-/

namespace ShapeCheck

/-- Types for some type parameters. -/
abbrev Substitution := List (TypeVar × Ty)

namespace Ty

section Parts

-- How a part is rebuilt.
variable (part : Ty → Interning Ty)

/-- Rebuilds a part that may be missing. -/
def rebuildOption : Option Ty → Interning (Option Ty)
  | none => return none
  | some t => return some (← part t)

/-- Rebuilds a parameter. -/
def rebuildParameter (p : Parameter) : Interning Parameter :=
  return { p with type := ← part p.type }

/-- Rebuilds a rest parameter. -/
def rebuildRest : Option Parameter → Interning (Option Parameter)
  | none => return none
  | some p => return some (← rebuildParameter part p)

/-- Rebuilds the parts of a signature, without the type parameters that are dropped. -/
def rebuildCallable (dropped : TypeVar → Bool) (c : Callable) : Interning Callable := do
  let result ← part c.result
  let receiver ← rebuildOption part c.receiver
  let params ← c.params.mapM (rebuildParameter part)
  let rest ← rebuildRest part c.rest
  return { typeParams := c.typeParams.filter (!dropped ·), params, rest, receiver, result }

/-- Rebuilds a call signature of an object. -/
def rebuildCall (dropped : TypeVar → Bool) (t : Ty) : Interning Ty := do
  match (← get).callable? t with
  | some c => functionOf (← rebuildCallable part dropped c)
  | none => return t

/-- Rebuilds the fields of an object. -/
def rebuildFields (fields : List Field) : Interning (List Field) :=
  fields.mapM fun f => return { f with type := ← part f.type }

/-- Rebuilds an index signature. -/
def rebuildIndex : Option Index → Interning (Option Index)
  | none => return none
  | some i => return some { i with value := ← part i.value }

/-- Rebuilds the members of an object. -/
def rebuildMembers (dropped : TypeVar → Bool) (m : Members) : Interning Members := do
  let fields ← rebuildFields part m.fields
  let index ← rebuildIndex part m.index
  let calls ← m.calls.mapM (rebuildCall part dropped)
  return { fields, index, calls }

/-- Rebuilds the places of a tuple. -/
def rebuildTuple (t : Tuple) : Interning Tuple := do
  let slots ← t.slots.mapM fun s => return { s with type := ← part s.type }
  let rest ← rebuildOption part t.rest
  return { t with slots, rest }

end Parts

/-- Whether the substitution binds the parameter. -/
def binds (subs : Substitution) (v : TypeVar) : Bool := (subs.lookup v).isSome

/-- One level of a substitution. -/
def substituteStep (subs : Substitution) (part : Ty → Interning Ty) (t : Ty) : Interning Ty := do
  match (← get).shape t with
  | .parameter v => return (subs.lookup v).getD t
  | .union ms => unionOf (← ms.mapM part)
  | .intersection ms => intersectionOf (← ms.mapM part)
  | .array element readonly => arrayOf (← part element) readonly
  | .tuple u => tupleOf (← rebuildTuple part u)
  | .object m => objectOf (← rebuildMembers part (binds subs) m)
  | .function c => functionOf (← rebuildCallable part (binds subs) c)
  | .reference name arguments =>
    if arguments.isEmpty then return t
    referenceTo name (← arguments.mapM part)
  | _ => return t

/-- A substitution in a type that nests at most so deep. -/
def substituteAt (subs : Substitution) : Nat → Ty → Interning Ty
  | 0, t => return t
  | depth + 1, t => substituteStep subs (substituteAt subs depth) t

/-- The type with every bound parameter replaced. -/
def substitute (t : Ty) (subs : Substitution) : Interning Ty :=
  if subs.isEmpty then return t else substituteAt subs (t.rank + 1) t

/-- The signature with every bound parameter replaced; bound parameters are no longer declared. -/
def substituteCallable (c : Callable) (subs : Substitution) : Interning Callable :=
  rebuildCallable (·.substitute subs) (binds subs) c

/-- The signature with its own type parameters replaced by `any`. -/
def eraseCallable (c : Callable) : Interning Callable :=
  substituteCallable c (c.typeParams.map fun v => (v, .any))

/-- The function type with its own type parameters replaced by `any`. -/
def erase (t : Ty) : Interning Ty := do
  match (← get).callable? t with
  | some c => if c.isGeneric then functionOf (← eraseCallable c) else return t
  | none => return t

/-- The parts in which a type can mention a parameter. The receiver of a function is not looked
at. -/
def mentionParts : Shape → List Ty
  | .union ms | .intersection ms => ms
  | .array element _ => [element]
  | .tuple t => t.elements
  | .object m => m.fields.map Field.type ++ (m.index.map Index.value).toList ++ m.calls
  | .function c => c.params.map Parameter.type ++ (c.rest.map Parameter.type).toList ++ [c.result]
  | .reference _ arguments => arguments
  | _ => []

/-- Whether a type that nests at most so deep refers to one of the parameters. -/
def mentionsAt (table : Table) (vars : List TypeVar) : Nat → Ty → Bool
  | 0, _ => false
  | depth + 1, t =>
    match table.shape t with
    | .parameter v => vars.contains v
    | s => (mentionParts s).any (mentionsAt table vars depth)

/-- Whether the type refers to one of the parameters. -/
def mentions (table : Table) (vars : List TypeVar) (t : Ty) : Bool :=
  mentionsAt table vars (t.rank + 1) t

end Ty

end ShapeCheck
