import ShapeCheck.Ty.Property

/-!
# Assignability

Whether a value of one type can be given to a variable of another. The rules compare the two types
by their shapes; a pair that is already being compared further out is taken to hold, which makes the
comparison end on recursive types. The relation is loose in two places on purpose: `any` fits in
both directions, and the parameters of functions are compared in both directions.

* `Assign.step` is one layer of the rules, over the relation on the parts.
* `Ty.isAssignableTo` is the decision; once the table is frozen its answers are kept.
-/

namespace ShapeCheck

namespace Assign

/-- A way to compare two types. -/
abbrev Compare := Ty → Ty → Typing Bool

section Rules

-- How the parts are compared.
variable (compare : Compare)

/-- Whether all parts pass, tried in order up to the first that fails. -/
def all {α : Type} (test : α → Typing Bool) : List α → Typing Bool
  | [] => return true
  | a :: rest => do if ← test a then all test rest else return false

/-- Whether some part passes, tried in order up to the first that does. -/
def any {α : Type} (test : α → Typing Bool) : List α → Typing Bool
  | [] => return false
  | a :: rest => do if ← test a then return true else any test rest

/-- Two types of which one fits the other. -/
def eitherWay (a b : Ty) : Typing Bool := do
  if ← compare b a then return true else compare a b

/-- The parameter types of two functions at the positions that both accept. -/
def parameterPairs (table : Table) (source target : Callable) : List (Ty × Ty) :=
  (List.range (max source.params.length target.params.length)).filterMap fun i =>
    match Ty.parameterAt? table source i, Ty.parameterAt? table target i with
    | some s, some t => some (s, t)
    | _, _ => none

/-- The rest elements of two functions, if both have a rest. -/
def restPairs (table : Table) (source target : Callable) : List (Ty × Ty) :=
  match source.rest, target.rest with
  | some s, some t => [(Ty.restElement table s.type, Ty.restElement table t.type)]
  | _, _ => []

/-- The receivers of two functions, if both declare one. -/
def receiverPairs (source target : Callable) : List (Ty × Ty) :=
  match source.receiver, target.receiver with
  | some s, some t => [(s, t)]
  | _, _ => []

/-- Compares two functions without type parameters of their own. A source may ignore trailing
parameters but must not require more than the target supplies. -/
def callables (source target : Callable) : Typing Bool := do
  if target.rest.isNone && decide (target.params.length < source.required) then return false
  let table ← get
  let pairs := parameterPairs table source target ++ restPairs table source target ++
    receiverPairs source target
  if ← all (fun (s, t) => eitherWay compare s t) pairs then
    if target.result = .void then return true
    compare source.result target.result
  else return false

/-- Compares two function types, their own type parameters erased. -/
def functions (source target : Ty) : Typing Bool := do
  let source ← source.erase
  let target ← target.erase
  let table ← get
  match table.callable? source, table.callable? target with
  | some s, some t => callables compare s t
  | _, _ => return false

/-- The places that a target tuple has and a source tuple may have. The source may omit places that
are optional in the target. -/
def slots (sourceRest targetRest : Option Ty) : List Slot → List Slot → Typing Bool
  | [], [] => return true
  | [], t :: target => do
    if !t.optional then return false
    match sourceRest with
    | none => slots sourceRest targetRest [] target
    | some r => if ← compare r t.type then slots sourceRest targetRest [] target else return false
  | s :: source, [] => do
    match targetRest with
    | none => return false
    | some r => if ← compare s.type r then slots sourceRest targetRest source [] else return false
  | s :: source, t :: target => do
    if s.optional && !t.optional then return false
    if ← compare s.type t.type then slots sourceRest targetRest source target else return false

/-- Compares two tuples place by place, then their rests. -/
def tuples (source target : Tuple) : Typing Bool := do
  if ← slots compare source.rest target.rest source.slots target.slots then
    match source.rest, target.rest with
    | none, _ => return true
    | some _, none => return false
    | some s, some t => compare s t
  else return false

/-- Compares one field of a target with what was found under its name. -/
def found (target : Field) : Option Field → Typing Bool
  | none => return target.optional
  | some f => if f.optional && !target.optional then return false else compare f.type target.type

/-- Compares one field of a target with what the source has under its name. -/
def field (source : Ty) (target : Field) : Typing Bool := do
  found compare target (← source.ownField? target.name)

/-- Compares every member that an index signature of the target ranges over. A numeric index looks
at numeric names only. -/
def index (source : Ty) (target : Index) : Typing Bool := do
  match (← get).shape source with
  | .object m =>
    let fields := m.fields.filter fun f => target.key = .string || Decimal.isNumeric f.name
    if ← all (fun f : Field => compare f.type target.value) fields then
      match m.index with
      | some i =>
        if i.key = target.key || target.key = .number then compare i.value target.value
        else return true
      | none => return true
    else return false
  | .array element _ => if target.key = .number then compare element target.value else return false
  | .tuple u =>
    if target.key = .number then compare (← Ty.elementUnion u) target.value else return false
  | _ => return false

/-- Compares a source with an object: each field, the index signature, each call signature. -/
def toObject (source : Ty) (target : Members) : Typing Bool := do
  if ← all (field compare source) target.fields then
    if ← all (index compare source) target.index.toList then
      if target.calls.isEmpty then return true
      let signatures ← source.callSignatures
      all (fun wanted => any (fun s => functions compare s wanted) signatures) target.calls
    else return false
  else return false

/-- Compares a source with an object, a function, an array or a tuple. -/
def structural (source target : Ty) : Typing Bool := do
  let table ← get
  match table.shape target with
  | .object m => toObject compare source m
  | .function _ => any (fun s => functions compare s target) (← source.callSignatures)
  | .array element _ =>
    match table.shape source with
    | .array own _ => compare own element
    | .tuple u => compare (← Ty.elementUnion u) element
    | _ => return false
  | .tuple t =>
    match table.shape source with
    | .tuple s => tuples compare s t
    | _ => return false
  | _ => return false

end Rules

/-- Whether an enum has a numeric member, so that it takes plain numbers. -/
def hasNumericMember (table : Table) (e : Enumeration) : Bool :=
  e.members.any fun m =>
    match (Ty.enumValue? table m).bind table.literal? with
    | some (.number _) => true
    | _ => false

/-- Whether a type is `number` or a number literal. -/
def isNumber (table : Table) (t : Ty) : Bool :=
  t = .number || (match table.literal? t with
    | some (.number _) => true
    | _ => false)

/-- The rules for enums and enum members as targets; nothing when they do not apply. -/
def toEnum (table : Table) (source target : Ty) : Option Bool :=
  match table.shape target with
  | .enumeration e =>
    match table.shape source with
    | .enumMember enum _ _ => some (enum = target)
    | .literal _ | .primitive _ => some (isNumber table source && hasNumericMember table e)
    | .intersection _ => none
    | _ => some false
  | .enumMember _ _ value =>
    match table.shape source with
    | .literal l => some (l.base = .number && source = value)
    | .intersection _ => none
    | _ => some false
  | _ => none

/-- The rules that need no look at the shapes: identity and the types that fit everything. -/
def byIdentity (source target : Ty) : Option Bool :=
  if source = target then some true
  else if source = .any || target = .any || source = .invalid || target = .invalid then some true
  else if target = .unknown then some true
  else if source = .unknown then some false
  else if source = .never then some true
  else if target = .never then some false
  else none

/-- The rules for primitives and literals, and for the empty object, which takes every value that is
not nullish; nothing when the shapes have to be compared. -/
def byAtom (table : Table) (source target : Ty) : Option Bool :=
  match table.shape target with
  | .primitive p =>
    match table.shape source with
    | .literal l => some (l.base = p)
    | .primitive q => some (q = .undefined && p = .void)
    | _ => some false
  | .literal _ => some false
  | .object m => if m.isEmpty then some (!source.isNullish) else
      if source.isNullish then some false else none
  | _ => if source.isNullish then some false else none

/-- The rules for a source and a target without references and without a union as source.
`compare` is the relation on the parts, and `inner` the one under the assumption that this pair
holds. -/
def stepResolved (assumed : Bool) (compare inner : Compare) (source target : Ty) :
    Typing Bool := do
  let table ← get
  match toEnum table source target with
  | some verdict => return verdict
  | none =>
  match table.shape target with
  | .union ms =>
    if source = .boolean && ms.contains (.truth true) && ms.contains (.truth false) then return true
    any (compare source) ms
  | .intersection ms => all (compare source) ms
  | targetShape =>
  match table.shape source with
  | .enumMember _ _ value => compare value target
  | .enumeration e => do compare (← Ty.valueUnion e) target
  | .intersection ms => any (compare · target) ms
  | .parameter v => compare ((table.typeVar v).bound.getD .unknown) target
  | _ =>
    match targetShape, byAtom table source target with
    | .parameter _, _ => return false
    | _, some verdict => return verdict
    | _, none => if assumed then return true else structural inner source target

/-- One layer of the rules. `assumed` says whether the pair is already being compared further out;
`compare` is the relation on the parts, and `inner` the one under the assumption that this pair
holds. -/
def step (assumed : Bool) (compare inner : Compare) (source target : Ty) : Typing Bool := do
  match byIdentity source target with
  | some verdict => return verdict
  | none =>
  let table ← get
  match table.shape source, table.shape target with
  | .reference _ _, _ =>
    if assumed then return true else inner (← source.resolve) target
  | _, .reference _ _ =>
    if assumed then return true else inner source (← target.resolve)
  | .union ms, _ => all (compare · target) ms
  | .intersection _, _ =>
    let resolved ← source.resolve
    if resolved = source then stepResolved assumed compare inner source target
    else if assumed then return true
    else inner resolved target
  | _, _ => stepResolved assumed compare inner source target

/-- The decision in at most so many nested steps, with the pairs being compared. -/
def decideAt : Nat → List (Ty × Ty) → Compare
  | 0, _, _, _ => Typing.outOfSteps
  | depth + 1, pairs, source, target =>
    step (pairs.contains (source, target)) (decideAt depth pairs)
      (decideAt depth ((source, target) :: pairs)) source target

end Assign

namespace Ty

/-- Whether a value of the source type can be given to a variable of the target type. -/
def isAssignableTo (source target : Ty) : Typing Bool := do
  if source = target then return true
  let table ← get
  match if table.frozen then table.verdicts.lookup (source, target) else none with
  | some verdict => return verdict
  | none =>
    let verdict ← Typing.bounded fun depth => Assign.decideAt depth [] source target
    if table.frozen then
      modify fun table => { table with verdicts := ((source, target), verdict) :: table.verdicts }
    return verdict

end Ty

end ShapeCheck
