import ShapeCheck.Check.Access

/-!
# Guards

What a condition proves about the names in it: their types where it holds and where it fails. Guards
are `typeof` tests, comparisons of a name or of a field of a name with a constant, the truth of a
name, and combinations of these.

* `Guard` is the proof in both directions; a name that a side does not list keeps its type there.
* `Guard.equality`, `Guard.both` and `Guard.either` build guards from their parts.
-/

namespace ShapeCheck

/-- What a condition proves. -/
structure Guard where
  whenTrue : Bindings := []
  whenFalse : Bindings := []
  deriving Inhabited

namespace Guard

open Check

/-- The guard of the negated condition. -/
def negated (g : Guard) : Guard := ⟨g.whenFalse, g.whenTrue⟩

/-- A guard about one name. -/
def single (name : String) (s : Split) : Guard := ⟨[(name, s.yes)], [(name, s.no)]⟩

/-- The side of a comparison that is tested. -/
inductive Subject where
  | name (name : String)
  | field (name property : String)
  | kind (name : String)
  | otherKind
  | other
  deriving DecidableEq, Repr, Inhabited

/-- How an expression is tested by a comparison. -/
def subjectOf : Expr → Subject
  | .identifier _ name => .name name
  | .member _ (.identifier _ name) property false => .field name property
  | .typeof _ (.identifier _ name) => .kind name
  | .typeof _ _ => .otherKind
  | _ => .other

/-- The text of a string literal. -/
def string? : Expr → Option String
  | .string _ s => some s
  | _ => none

/-- One side of a comparison. -/
structure Side where
  subject : Subject
  string : Option String
  constant : Check (Option Ty)

/-- The type of an expression that denotes a single value: a literal, null, undefined or an enum
member. -/
def constantOf (e : Expr) (check : Check Ty) : Check (Option Ty) := do
  match e with
  | .null _ => return some .null
  | .undefined _ => return some .undefined
  | _ =>
    let t ← speculate check
    let table ← table
    return if Ty.isUnit table t || Ty.isEnumMember table t then some t else none

/-- Splits a type by equality with a constant. Loose equality with null or undefined matches both.
-/
def splitByValue (t constant : Ty) (loose : Bool) : Typing Split := do
  if loose && constant.isNullish then
    let null ← t.narrowByLiteral .null
    let undefined ← t.narrowByLiteral .undefined
    let resolved ← t.resolve
    if resolved.isTop then return ⟨← Ty.unionOf [.null, .undefined], t⟩
    let no ← resolved.filterMembers (!·.isNullish)
    let yes ← Ty.unionOf [null.yes, undefined.yes]
    return ⟨yes, no⟩
  else t.narrowByLiteral constant

section Names

-- How the type of a name in scope is found.
variable (typeOf : String → Check (Option Ty))

/-- A guard about the type of a name, if the name is in scope. -/
def onName (name : String) (split : Ty → Check Split) : Check (Option Guard) := do
  match ← typeOf name with
  | none => return none
  | some t => return some (single name (← split t))

/-- The guard of the truth of a name. -/
def truth (name : String) : Check Guard := do
  return (← onName typeOf name fun t => t.narrowByTruthiness).getD {}

/-- The guard of a test of the first side against the second. -/
def tested (loose : Bool) (subject other : Side) : Check (Option Guard) := do
  match subject.subject with
  | .kind name =>
    match other.string with
    | some kind => onName typeOf name fun t => t.narrowByKind kind
    | none => return none
  | .otherKind => return none
  | s =>
    match ← other.constant with
    | none => return none
    | some constant =>
      match s with
      | .name name => onName typeOf name fun t => splitByValue t constant loose
      | .field name property =>
        onName typeOf name fun t => t.narrowByDiscriminant property constant
      | _ => return none

/-- The guard of an equality, with either side as the one that is tested. -/
def equality (loose : Bool) (left right : Side) : Check Guard := do
  match ← tested typeOf loose left right with
  | some g => return g
  | none => return (← tested typeOf loose right left).getD {}

/-- The type of a name on a side of a guard: what the first of the layers that has it says, else its
current type. -/
def sideOf (name : String) : List Bindings → Check Ty
  | [] => return (← typeOf name).getD .invalid
  | layer :: rest =>
    match layer.lookup name with
    | some t => return t
    | none => sideOf name rest

/-- The names of two lists of bindings, each once. -/
def names (a b : Bindings) : List String := (a.map Prod.fst ++ b.map Prod.fst).eraseDups

/-- For each name bound on a side, the union of its type where the first condition decides and its
type where the second one does, after the first left the given types. -/
def joined (first second after : Bindings) : Check Bindings :=
  (names first second).mapM fun name => do
    let a ← sideOf typeOf name [first]
    let b ← sideOf typeOf name [second, after]
    return (name, ← Ty.unionOf [a, b])

/-- The guard of `left && right`: it holds where both hold. The right side is seen where the left
one holds. -/
def both (left right : Check Guard) : Check Guard := do
  let l ← left
  let r ← inFrame do
    apply l.whenTrue
    right
  return { whenTrue := l.whenTrue.override r.whenTrue
           whenFalse := ← joined typeOf l.whenFalse r.whenFalse l.whenTrue }

/-- The guard of `left || right`: it fails where both fail. The right side is seen where the left
one fails. -/
def either (left right : Check Guard) : Check Guard := do
  let l ← left
  let r ← inFrame do
    apply l.whenFalse
    right
  return { whenTrue := ← joined typeOf l.whenTrue r.whenTrue l.whenFalse
           whenFalse := l.whenFalse.override r.whenFalse }

end Names

end Guard

end ShapeCheck
