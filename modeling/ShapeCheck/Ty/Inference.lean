import ShapeCheck.Ty.Narrowing
import ShapeCheck.Ty.Omission
import ShapeCheck.Ty.Widening

/-!
# Inference of type arguments and choice of overloads

A call of a generic function binds its type parameters: each to the union of the types found at its
places in the arguments, widened unless its bound needs the literals. A call of an overloaded
function takes the first signature that accepts the arguments.

The types of arguments may depend on what is expected of them, so they are asked for one at a time.
Both `Inference.infer` and `Overload.choose` work in any monad in which types can be asked for.

* `Inference.unifyAt` compares a parameter type with an argument type and collects evidence.
* `Inference.infer` gives the signature with its type parameters bound.
* `Overload.choose` gives the first signature that takes the arguments.
-/

namespace ShapeCheck

/-- The arguments of a call. -/
structure Arguments (m : Type → Type) where
  count : Nat
  /-- The type of one, given what is expected of it. -/
  type : Nat → Option Ty → m Ty
  /-- Whether its type depends on what is expected. -/
  isContextSensitive : Nat → Bool

/-- Arguments whose types are known. -/
def Arguments.ofTypes (ts : List Ty) : Arguments Typing where
  count := ts.length
  type i _ := return (ts[i]?).getD .invalid
  isContextSensitive _ := false

namespace Inference

/-- What the arguments say about the type parameters. -/
structure Evidence where
  found : List (TypeVar × Ty) := []
  visited : List (Ty × Ty) := []
  deriving Inhabited

/-- The types found for one parameter. -/
def Evidence.candidates (e : Evidence) (v : TypeVar) : List Ty :=
  e.found.filterMap fun (w, t) => if w = v then some t else none

/-- Work that collects evidence. -/
abbrev Unify := StateT Evidence Typing

/-- The table at hand. -/
def table : Unify Table := getThe Table

section Rules

-- The parameters to be bound, and how parts are compared.
variable (vars : List TypeVar) (compare : Ty → Ty → Unify Unit)

/-- Compares parts pairwise. -/
def pairwise (pairs : List (Ty × Ty)) : Unify Unit := pairs.forM fun (p, a) => compare p a

/-- The pairs of places of two tuples. -/
def tuplePairs (p a : Tuple) : List (Ty × Ty) :=
  let fixed := p.slots.zipIdx.filterMap fun (s, i) => (a.element? i).map fun t => (s.type, t)
  let rest := match p.rest with
    | none => []
    | some r => ((a.slots.drop p.slots.length).map fun s => (r, s.type)) ++
        (a.rest.map fun t => (r, t)).toList
  fixed ++ rest

/-- Compares a tuple with an argument. -/
def tuple (p : Tuple) (argument : Ty) : Unify Unit := do
  let a ← argument.resolve
  match (← table).shape a with
  | .tuple a => pairwise compare (tuplePairs p a)
  | .array element _ => pairwise compare (p.elements.map fun t => (t, element))
  | _ => return ()

/-- Compares an array with an argument. -/
def array (element argument : Ty) : Unify Unit := do
  let a ← argument.resolve
  match (← table).shape a with
  | .array own _ => compare element own
  | .tuple a => do compare element (← Ty.elementUnion a)
  | _ => return ()

/-- Compares a reference with an argument: by its arguments when both refer to one alias, else by
what it stands for. -/
def reference (p : Ty) (name : String) (arguments : List Ty) (argument : Ty) : Unify Unit := do
  match (← table).shape argument with
  | .reference other others =>
    if other = name && others.length = arguments.length then
      pairwise compare (arguments.zip others)
    else compare (← p.resolve) argument
  | _ => do compare (← p.resolve) argument

/-- The pairs that an index signature of a parameter makes with the members of an object. -/
def indexPairs (p : Members) (a : Members) : List (Ty × Ty) :=
  match p.index with
  | none => []
  | some i => (a.index.map fun j => (i.value, j.value)).toList ++
      a.fields.map fun f => (i.value, f.type)

/-- Compares an object with an argument: the fields it has, what its index signature ranges over,
and its call signatures in order. -/
def object (p : Members) (argument : Ty) : Unify Unit := do
  let a ← argument.resolve
  p.fields.forM fun f => do
    match ← a.property? f.name with
    | some g => compare f.type g.type
    | none => return ()
  match (← table).shape a with
  | .object m => pairwise compare (indexPairs p m)
  | _ => pure ()
  let signatures ← a.callSignatures
  pairwise compare (p.calls.zip signatures)

/-- Compares a function with the first signature of an argument. -/
def function (p : Callable) (argument : Ty) : Unify Unit := do
  match ← (← argument.resolve).callSignatures with
  | [] => return ()
  | first :: _ =>
    let erased ← first.erase
    let table ← table
    match table.callable? erased with
    | none => return ()
    | some a =>
      let params := p.params.zipIdx.filterMap fun (q, i) =>
        (Ty.parameterAt? table a i).map fun t => (q.type, t)
      let rest := match p.rest, a.rest with
        | some r, some s => [(r.type, s.type)]
        | _, _ => []
      pairwise compare (params ++ rest ++ [(p.result, a.result)])

/-- Compares a union with an argument. Parts of the argument that fit the members without parameters
say nothing about the one member with some. -/
def union (members : List Ty) (argument : Ty) : Unify Unit := do
  let table ← table
  let (generic, fixed) := members.partition (Ty.mentions table vars)
  match generic, fixed with
  | [g], [] => compare g argument
  | [g], _ =>
    let others ← Ty.unionOf fixed
    let a ← argument.resolve
    let parts := Ty.splitMembers (← getThe Table) a
    let rest ← Ty.unionOf (← Ty.select (fun m => return !(← m.isAssignableTo others)) parts)
    if rest ≠ .never then compare g rest
  | _, _ => pairwise compare (generic.map fun g => (g, argument))

/-- Compares a parameter type with an argument type by the shape of the parameter type. -/
def byShape (p argument : Ty) : Unify Unit := do
  match (← table).shape p with
  | .parameter v => modify fun e => { e with found := e.found ++ [(v, argument)] }
  | .reference name arguments => reference compare p name arguments argument
  | .array element _ => array compare element argument
  | .tuple t => tuple compare t argument
  | .object m => object compare m argument
  | .function c => function compare c argument
  | .union ms => union vars compare ms argument
  | .intersection ms => pairwise compare (ms.map fun m => (m, argument))
  | _ => return ()

end Rules

/-- Compares a parameter type with an argument type, in at most so many nested steps. Pairs that
were compared before, and types without parameters to be bound, say nothing new. -/
def unifyAt (vars : List TypeVar) : Nat → Ty → Ty → Unify Unit
  | 0, _, _ => Typing.outOfSteps (α := Unit)
  | depth + 1, p, argument => do
    if !Ty.mentions (← table) vars p then return ()
    if (← get).visited.contains (p, argument) then return ()
    modify fun e => { e with visited := (p, argument) :: e.visited }
    byShape vars (unifyAt vars depth) p argument

/-- Adds what an argument says to the evidence. -/
def unify (vars : List TypeVar) (evidence : Evidence) (p argument : Ty) : Typing Evidence :=
  Typing.bounded fun depth => return ((← (unifyAt vars depth p argument).run evidence).2)

/-- A binding with its literals widened, unless the bound of the parameter needs them. -/
def widen (v : TypeVar) (t : Ty) (subs : Substitution) : Typing Ty := do
  let widened ← t.widen
  match ((← get).typeVar v).bound with
  | none => return widened
  | some bound =>
    if widened = t then return widened
    let bound ← bound.substitute subs
    if ← widened.isAssignableTo bound then return widened
    if ← t.isAssignableTo bound then return t else return widened

/-- The first parameter whose binding violates its bound. -/
def violation? (subs : Substitution) : List TypeVar → Typing (Option Problem)
  | [] => return none
  | v :: rest => do
    let info := (← get).typeVar v
    match info.bound with
    | none => violation? subs rest
    | some bound =>
      let bound ← bound.substitute subs
      let own := (subs.lookup v).getD .invalid
      if ← own.isAssignableTo bound then violation? subs rest
      else return some (.outOfBound info.name bound own)

/-- The signature with its parameters bound, or the bound that is violated. -/
def instantiate (c : Callable) (subs : Substitution) : Typing (Except Problem Ty) := do
  match ← violation? subs c.typeParams with
  | some problem => return .error problem
  | none => return .ok (← Ty.functionOf (← Ty.substituteCallable c subs))

/-- How many of some parameters come before the first with a default. -/
def requiredCount (table : Table) (vars : List TypeVar) : Nat :=
  (vars.takeWhile fun v => (table.typeVar v).default.isNone).length

/-- Binds the parameters to written arguments. Those from the first one with a default on may be
missing; if one of them has no default itself, it is left without a type. -/
def bindExplicit (c : Callable) (explicit : List Ty) : Typing (Except Problem Ty) := do
  let table ← get
  let required := requiredCount table c.typeParams
  if explicit.length < required || c.typeParams.length < explicit.length then
    return .error (.arity .typeArguments required c.typeParams.length explicit.length)
  if (c.typeParams.drop explicit.length).all fun v => (table.typeVar v).default.isSome then
    instantiate c (← Expansion.bindArguments c.typeParams explicit [])
  else Omission.instantiate c explicit

/-- The bindings that evidence gives to the parameters: the union of what was found, else the
default, else `unknown`. -/
def bindings (evidence : Evidence) : List TypeVar → Substitution → Typing Substitution
  | [], subs => return subs
  | v :: rest, subs => do
    let bound ← match evidence.candidates v, ((← get).typeVar v).default with
      | [], some d => d.substitute subs
      | [], none => pure .unknown
      | found, _ => do widen v (← Ty.unionOf found) subs
    bindings evidence rest (subs ++ [(v, bound)])

/-- The bindings known before the context-sensitive arguments are looked at. -/
def partialBindings (evidence : Evidence) : List TypeVar → Typing Substitution
  | [] => return []
  | v :: rest => do
    match evidence.candidates v with
    | [] => partialBindings evidence rest
    | found =>
      let t ← widen v (← Ty.unionOf found) []
      return (v, t) :: (← partialBindings evidence rest)

section Calls

variable {m : Type → Type} [Monad m] [MonadLiftT Typing m]

/-- Adds what some arguments say, each seen with what the given bindings expect of it. -/
def collect (c : Callable) (arguments : Arguments m) (subs : Substitution) :
    List Nat → Evidence → m Evidence
  | [], evidence => return evidence
  | i :: rest, evidence => do
    let table : Table ← liftM (m := Typing) get
    match Ty.parameterAt? table c i with
    | none => collect c arguments subs rest evidence
    | some p =>
      let expected : Ty ← liftM (m := Typing) (p.substitute subs)
      let t ← arguments.type i (some expected)
      let evidence : Evidence ← liftM (unify c.typeParams evidence p t)
      collect c arguments subs rest evidence

/-- The evidence of all arguments: first of those whose types stand on their own, then of the
context-sensitive ones, which see the parameters bound so far. -/
def evidenceOf (c : Callable) (arguments : Arguments m) : m Evidence := do
  let places := List.range arguments.count
  let evidence ← collect c arguments [] (places.filter (!arguments.isContextSensitive ·)) {}
  let table : Table ← liftM (m := Typing) get
  match places.filter fun i =>
      arguments.isContextSensitive i && (Ty.parameterAt? table c i).isSome with
  | [] => return evidence
  | sensitive =>
    let subs : Substitution ← liftM (partialBindings evidence c.typeParams)
    collect c arguments subs sensitive evidence

/-- The function type with its type parameters bound for a call. Written type arguments are taken
instead of inferred ones. -/
def infer (signature : Ty) (arguments : Arguments m) (explicit : List Ty) :
    m (Except Problem Ty) := do
  let table : Table ← liftM (m := Typing) get
  match table.callable? signature with
  | none => return .ok signature
  | some c =>
    if !c.isGeneric then
      if explicit.isEmpty then return .ok signature
      return .error (.arity .typeArguments 0 (some 0) explicit.length)
    if !explicit.isEmpty then
      liftM (bindExplicit c explicit)
    else
      let evidence ← evidenceOf c arguments
      liftM (m := Typing) do instantiate c (← bindings evidence c.typeParams [])

end Calls

end Inference

namespace Overload

/-- What an argument has to fit; an optional parameter also takes `undefined`, and only that if it
has no type. -/
def parameterTarget? (c : Callable) (i : Nat) : Interning (Option Ty) := do
  let table ← get
  match Ty.parameterAt? table c i with
  | none => return none
  | some t =>
    if ((c.params[i]?).map Parameter.optional).getD false then
      return some (← Ty.unionOf ([t, .undefined].filter (!table.isNothing ·)))
    else return some t

/-- What is expected of an argument: nothing for a parameter without a type. -/
def expectation (table : Table) (target : Ty) : Option Ty :=
  if table.isNothing target then none else some target

/-- Whether an argument fits what it has to; none fits a parameter without a type. -/
def fitsTarget (t target : Ty) : Typing Bool := do
  if (← get).isNothing target then return false else t.isAssignableTo target

section Calls

variable {m : Type → Type} [Monad m] [MonadLiftT Typing m]

/-- Whether every argument from a place on fits its parameter. -/
def acceptsAll (c : Callable) (arguments : Arguments m) : List Nat → m Bool
  | [] => return true
  | i :: rest => do
    let target : Option Ty ← liftM (m := Typing) (parameterTarget? c i)
    match target with
    | none => return false
    | some target =>
      let table : Table ← liftM (m := Typing) get
      let t ← arguments.type i (expectation table target)
      let fits : Bool ← liftM (fitsTarget t target)
      if fits then acceptsAll c arguments rest else return false

/-- Whether every argument fits its parameter. -/
def accepts (signature : Ty) (arguments : Arguments m) : m Bool := do
  let table : Table ← liftM (m := Typing) get
  match table.callable? signature with
  | none => return false
  | some c => acceptsAll c arguments (List.range arguments.count)

/-- The signature as a call would use it, if it takes the arguments. -/
def attempt (signature : Ty) (arguments : Arguments m) (explicit : List Ty) : m (Option Ty) := do
  let table : Table ← liftM (m := Typing) get
  match table.callable? signature with
  | none => return none
  | some c =>
    if !c.acceptsArity arguments.count then return none
    match ← Inference.infer signature arguments explicit with
    | .error _ => return none
    | .ok candidate => if ← accepts candidate arguments then return some candidate else return none

/-- The first of some signatures that takes the arguments. -/
def firstAccepting (arguments : Arguments m) (explicit : List Ty) : List Ty → m (Option Ty)
  | [] => return none
  | s :: rest => do
    match ← attempt s arguments explicit with
    | some t => return some t
    | none => firstAccepting arguments explicit rest

/-- The first signature that takes the arguments, with its type parameters bound. -/
def choose (signatures : List Ty) (arguments : Arguments m) (explicit : List Ty) :
    m (Except Problem Ty) := do
  match ← firstAccepting arguments explicit signatures with
  | some t => return .ok t
  | none =>
    let types ← (List.range arguments.count).mapM fun i => arguments.type i none
    return .error (.noOverload signatures types)

end Calls

end Overload

end ShapeCheck
