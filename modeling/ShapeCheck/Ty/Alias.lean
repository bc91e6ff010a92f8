import ShapeCheck.Ty.Substitution

/-!
# Aliases

An alias names a type, perhaps with parameters. A reference to it is a type of its own that is only
looked up when it is resolved, so the fields of an object may refer to the alias that contains it.
An alias that comes back to itself before it reaches a structural type is cyclic; it stands for the
error type, and so do all aliases on its cycle.

* `Alias.define` adds an alias to the table, until the table is frozen.
* `Ty.resolve` replaces the references at the top of a type, and in the members of an intersection.
* `Alias.resolveAll` resolves every alias in the order of the definitions.
* `Expansion.Chain` is the chain of aliases being expanded, on which cycles are found.
-/

namespace ShapeCheck

/-- Why an alias cannot be defined or resolved. -/
inductive AliasError where
  | frozen (name : String)
  | duplicate (name : String)
  | undefined (name : String)
  /-- The alias refers to itself along the chain, which starts and ends with it. -/
  | cyclic (name : String) (chain : List String)
  deriving Inhabited

/-- The wording of an alias error. A chain is shown when it has more than one step. -/
def AliasError.message : AliasError → String
  | .frozen name => "define alias " ++ Text.quoted name ++ ": type table is frozen"
  | .duplicate name => "type alias " ++ Text.quoted name ++ " is already defined"
  | .undefined name => "unknown type alias " ++ Text.quoted name
  | .cyclic name chain =>
    "type alias '" ++ name ++ "' circularly references itself" ++
      (if chain.length ≤ 2 then "" else " (" ++ joinWith " -> " chain ++ ")")

/-- The name of the alias whose reference to one argument makes that argument readonly, unless an
alias of this name is defined. -/
def readonlyName : String := "Readonly"

namespace Ty

/-- Marks every field readonly. -/
def freezeFields (fields : List Field) : List Field := fields.map ({ · with readonly := true })

/-- The type with its fields, or its elements, readonly. Heads are resolved in the given way;
members of unions and intersections nest at most so deep. -/
def readonlyAt (head : Ty → Typing Ty) : Nat → Ty → Typing Ty
  | 0, _ => Typing.outOfSteps
  | depth + 1, t => do
    let t ← head t
    match (← get).shape t with
    | .object m => objectOf { m with fields := freezeFields m.fields }
    | .array element _ => arrayOf element true
    | .tuple u => tupleOf { u with readonly := true }
    | .intersection ms => do intersectionOf (← ms.mapM (readonlyAt head depth))
    | .union ms => do unionOf (← ms.mapM (readonlyAt head depth))
    | _ => return t

/-- Whether an intersection has a reference among its members. -/
def hasReference (table : Table) (ms : List Ty) : Bool :=
  ms.any fun m => (table.shape m).isReference

end Ty

namespace Expansion

/-- One step of a chain: what is being expanded, and the alias it belongs to. -/
structure Link where
  /-- The reference as it is printed, or the name of the alias. -/
  key : String
  name : String
  deriving DecidableEq, Repr, Inhabited

/-- The aliases being expanded, outermost first. -/
abbrev Chain := List Link

/-- How often one alias may be instantiated inside its own expansion. -/
def nestingLimit : Nat := 32

/-- Whether a key is on the chain. -/
def onChain (chain : Chain) (key : String) : Bool := chain.any (·.key = key)

/-- The names of some links, repetitions in a row left out. -/
def runNames : Chain → List String
  | [] => []
  | [l] => [l.name]
  | l :: m :: rest =>
    if l.name = m.name then runNames (m :: rest) else l.name :: runNames (m :: rest)

/-- The aliases on the cycle that closes at a key. -/
def cycleNames (chain : Chain) (key : String) : List String :=
  runNames (chain.dropWhile (·.key ≠ key))

/-- The chain of names around a cycle, from its place back to itself. -/
def rotation (names : List String) (i : Nat) : List String :=
  names.drop i ++ names.take i ++ (names[i]?).toList

/-- Remembers what a type resolves to; the latest answer counts. -/
def remember (t result : Ty) : Interning Unit :=
  modify fun table => { table with instances := (t, result) :: table.instances }

/-- Marks one alias of a cycle, unless its resolution is done. -/
def poison (names : List String) (name : String) (i : Nat) : Interning Unit := do
  if ((← get).alias? name).any (·.outcome.isNone) then
    modify (·.updateAlias name fun a => { a with outcome := some (.cyclic (rotation names i)) })
    remember (← Ty.referenceTo name []) .invalid

/-- Marks every alias on the cycle that closes at a key. -/
def markCycle (chain : Chain) (key : String) : Interning Unit :=
  let names := cycleNames chain key
  names.zipIdx.forM fun (name, i) => poison names name i

/-- The type for a parameter without an argument: its default, or `unknown`. -/
def defaultFor (v : TypeVar) (subs : Substitution) : Interning Ty := do
  match ((← get).typeVar v).default with
  | some d => d.substitute subs
  | none => return .unknown

/-- The types for the parameters of an alias: the arguments, then the defaults, then `unknown`. -/
def bindArguments : List TypeVar → List Ty → Substitution → Interning Substitution
  | [], _, subs => return subs
  | v :: vars, a :: rest, subs => bindArguments vars rest (subs ++ [(v, a)])
  | v :: vars, [], subs => do bindArguments vars [] (subs ++ [(v, ← defaultFor v subs)])

/-- What an outcome stands for. -/
def outcomeType : AliasOutcome → Ty
  | .resolved t => t
  | .cyclic _ => .invalid

section Steps

-- The expansion of a type with a given chain, one level below.
variable (expand : Chain → Ty → Typing Ty)

/-- Expands the target of an alias, and keeps the result unless a cycle was found meanwhile. -/
def complete (chain : Chain) (a : Alias) : Typing Ty := do
  let result ← expand (chain ++ [⟨a.name, a.name⟩]) a.target
  match ((← get).alias? a.name).bind Alias.outcome with
  | some outcome => return outcomeType outcome
  | none =>
    modify (·.updateAlias a.name fun b => { b with outcome := some (.resolved result) })
    if a.params.isEmpty then remember (← Ty.referenceTo a.name []) result
    return result

/-- The type that an alias stands for. -/
def resolveAlias (chain : Chain) (a : Alias) : Typing Ty := do
  match a.outcome with
  | some outcome => return outcomeType outcome
  | none =>
    if onChain chain a.name then
      markCycle chain a.name
      return .invalid
    complete expand chain a

/-- The type that a reference with arguments stands for. -/
def instantiate (chain : Chain) (ref : Ty) (name : String) (arguments : List Ty) : Typing Ty := do
  let table ← get
  match table.instances.lookup ref with
  | some t => return t
  | none =>
    match table.alias? name with
    | none => return .invalid
    | some a =>
      if (a.outcome.map outcomeType) = some .invalid then return .invalid
      let key := table.text ref
      if onChain chain key then
        markCycle chain key
        return .invalid
      let own := chain.filter (·.name = name)
      if nestingLimit ≤ own.length then
        markCycle chain ((own.head?.map Link.key).getD "")
        return .invalid
      let subs ← bindArguments a.params arguments []
      let result ← expand (chain ++ [⟨key, name⟩]) (← a.target.substitute subs)
      remember ref result
      return result

/-- One level of an expansion. -/
def expandStep (depth : Nat) (chain : Chain) (t : Ty) : Typing Ty := do
  let table ← get
  match table.shape t with
  | .reference name arguments =>
    match table.alias? name, arguments with
    | none, [argument] =>
      if name = readonlyName then Ty.readonlyAt pure depth (← expand chain argument)
      else instantiate expand chain t name arguments
    | some a, [] =>
      if a.params.isEmpty then resolveAlias expand chain a
      else instantiate expand chain t name arguments
    | _, _ => instantiate expand chain t name arguments
  | .union ms => do Ty.unionOf (← ms.mapM (expand chain))
  | .intersection ms => do Ty.intersectionOf (← ms.mapM (expand chain))
  | _ => return t

end Steps

/-- Replaces the references at the top of a type and in the members of unions and intersections, in
at most so many nested steps. -/
def expandAt : Nat → Chain → Ty → Typing Ty
  | 0, _, _ => Typing.outOfSteps
  | depth + 1, chain, t => expandStep (expandAt depth) depth chain t

end Expansion

namespace Ty

/-- Whether a type has a head to resolve: it is a reference, or an intersection with one. -/
def hasOpenHead (table : Table) (t : Ty) : Bool :=
  match table.shape t with
  | .reference _ _ => true
  | .intersection ms => hasReference table ms
  | _ => false

/-- The type with the references at its top replaced, so that its shape shows. An unknown or cyclic
alias gives the error type. -/
def resolve (t : Ty) : Typing Ty := do
  let table ← get
  if !hasOpenHead table t then return t
  match table.instances.lookup t with
  | some result => return result
  | none =>
    let result ← Typing.bounded fun depth => Expansion.expandAt depth [] t
    if !(table.shape t).isReference && (← get).frozen then Expansion.remember t result
    return result

/-- The type with its fields, or its elements, readonly. -/
def readonly (t : Ty) : Typing Ty := Typing.bounded fun depth => readonlyAt resolve depth t

end Ty

namespace Alias

/-- Defines an alias. -/
def define (name : String) (params : List TypeVar) (target : Ty) :
    Interning (Except AliasError Unit) := do
  let table ← get
  if table.frozen then return .error (.frozen name)
  if (table.alias? name).isSome then return .error (.duplicate name)
  modify fun table => { table with aliases := table.aliases ++ [{ name, params, target }] }
  return .ok ()

/-- The type an alias stands for, with the reason if that is the error type because of a cycle or an
unknown name. -/
def resolve (name : String) : Typing (Ty × Option AliasError) := do
  match (← get).alias? name with
  | none => return (.invalid, some (.undefined name))
  | some a =>
    let t ← Typing.bounded fun depth => Expansion.resolveAlias (Expansion.expandAt depth) [] a
    match ((← get).alias? name).bind Alias.outcome with
    | some (.cyclic chain) => return (t, some (.cyclic name chain))
    | _ => return (t, none)

/-- Resolves every alias in the order of the definitions and gives the errors. -/
def resolveAll : Typing (List AliasError) := do
  let names := (← get).aliases.map Alias.name
  return (← names.mapM resolve).filterMap Prod.snd

/-- Marks the end of the definitions. -/
def freeze : Interning Unit := modify ({ · with frozen := true })

end Alias

end ShapeCheck
