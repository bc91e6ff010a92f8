import ShapeCheck.Problem
import ShapeCheck.Ty.Assignable

/-!
# Type parameters without a type

Written type arguments may stop in front of a parameter with a default. A parameter behind it that
has no default then has no type at all. This nothing drops out of unions and intersections, gives
way to `any` in arrays, tuples and fields and to `void` as a result, and is no receiver. It
satisfies no bound, and no argument fits it. Where something has to stand, as the type of a
parameter, of an index signature or as the argument of a reference, a type parameter of its own
stands for it.

* `Omission.nothing` is the type that stands for nothing.
* `Omission.substitute` replaces parameters some of which are without a type.
* `Omission.instantiate` applies type arguments of which some are left out.
-/

namespace ShapeCheck

namespace Omission

/-- The type that stands for nothing; it is made once. -/
def nothing : Interning Ty := do
  match (← get).typeVars.findIdx? (·.name = Table.nothingName) with
  | some i => Ty.parameterOf ⟨i⟩
  | none => Ty.parameterOf (← Ty.newTypeVar { name := Table.nothingName })

section Parts

-- What stands for nothing.
variable (nil : Ty)

/-- The members that are there. -/
def present (ts : List Ty) : List Ty := ts.filter (· ≠ nil)

/-- A type in a place that holds anything if nothing is given. -/
def orAny (t : Ty) : Ty := if t = nil then .any else t

/-- A tuple that ends where its rest is nothing. -/
def tuple (t : Tuple) : Tuple :=
  { t with
    slots := t.slots.map fun s => { s with type := orAny nil s.type }
    rest := t.rest.filter (· ≠ nil) }

/-- A signature without a receiver, or with the result `void`, where nothing is given. -/
def signature (c : Callable) : Callable :=
  { c with
    receiver := c.receiver.filter (· ≠ nil)
    result := if c.result = nil then .void else c.result }

/-- The members of an object with their parts rebuilt. -/
def members (part : Ty → Interning Ty) (m : Members) : Interning Members := do
  let fields ← Ty.rebuildFields part m.fields
  let index ← Ty.rebuildIndex part m.index
  let calls ← m.calls.mapM part
  return { fields := fields.map fun f => { f with type := orAny nil f.type }, index, calls }

/-- One level of a substitution. -/
def substituteStep (subs : Substitution) (part : Ty → Interning Ty) (t : Ty) : Interning Ty := do
  match (← get).shape t with
  | .parameter v => return (subs.lookup v).getD t
  | .union ms => Ty.unionOf (present nil (← ms.mapM part))
  | .intersection ms => Ty.intersectionOf (present nil (← ms.mapM part))
  | .array element readonly => Ty.arrayOf (orAny nil (← part element)) readonly
  | .tuple u => Ty.tupleOf (tuple nil (← Ty.rebuildTuple part u))
  | .object m => Ty.objectOf (← members nil part m)
  | .function c => Ty.functionOf (signature nil (← Ty.rebuildCallable part (Ty.binds subs) c))
  | .reference name arguments =>
    if arguments.isEmpty then return t
    Ty.referenceTo name (← arguments.mapM part)
  | _ => return t

end Parts

-- What stands for nothing, and the types for the parameters.
variable (nil : Ty) (subs : Substitution)

/-- A substitution in a type that nests at most so deep. -/
def substituteAt : Nat → Ty → Interning Ty
  | 0, t => return t
  | depth + 1, t => substituteStep nil subs (substituteAt depth) t

/-- The type with every bound parameter replaced, also those without a type. -/
def substitute (t : Ty) : Interning Ty := substituteAt nil subs (t.rank + 1) t

/-- The signature with every bound parameter replaced. -/
def substituteCallable (c : Callable) : Interning Callable :=
  return signature nil (← Ty.rebuildCallable (substitute nil subs) (Ty.binds subs) c)

/-- The types for some parameters: the written arguments, then the defaults, else nothing. -/
def bind (nil : Ty) : List TypeVar → List Ty → Substitution → Interning Substitution
  | [], _, subs => return subs
  | v :: vars, a :: rest, subs => bind nil vars rest (subs ++ [(v, a)])
  | v :: vars, [], subs => do
    let t ← match ((← get).typeVar v).default with
      | some d => substitute nil subs d
      | none => pure nil
    bind nil vars [] (subs ++ [(v, t)])

/-- Whether a type fits another; nothing fits nothing. -/
def fits (t bound : Ty) : Typing Bool :=
  if t = nil ∨ bound = nil then return false else t.isAssignableTo bound

/-- The first parameter whose binding violates its bound. -/
def violation? : List TypeVar → Typing (Option Problem)
  | [] => return none
  | v :: rest => do
    let info := (← get).typeVar v
    match info.bound with
    | none => violation? rest
    | some bound =>
      let bound ← substitute nil subs bound
      let own := (subs.lookup v).getD .invalid
      if ← fits nil own bound then violation? rest
      else return some (.outOfBound info.name bound own)

/-- The signature with its parameters bound to the written arguments, or the bound that is
violated. -/
def instantiate (c : Callable) (explicit : List Ty) : Typing (Except Problem Ty) := do
  let nil ← nothing
  let subs ← bind nil c.typeParams explicit []
  match ← violation? nil subs c.typeParams with
  | some problem => return .error problem
  | none => return .ok (← Ty.functionOf (← substituteCallable nil subs c))

end Omission

end ShapeCheck
