import ShapeCheck.Ty.Table

/-!
# Intersections

Building an intersection flattens nested ones, drops repetitions and `unknown`, and keeps the most
specific of its primitives and literals; two that share no value make it `never`. Its objects are
merged into one. Unions are not distributed over.

* `Ty.intersectionOf` builds the intersection of some types.
* `Ty.mergeObjects` merges objects: a field found in several has the intersection of its types.
-/

namespace ShapeCheck

namespace Ty

/-- Whether the first type is a literal of the second, a primitive. -/
def isLiteralOf (table : Table) (a b : Ty) : Bool :=
  match table.literal? a with
  | some l => b = .prim l.base
  | none => false

/-- The most specific of some primitives and literals, as far as they share a value. Nothing when
two of them share none. -/
def reduceAtoms (table : Table) (best : Option Ty) : List Ty → Option (Option Ty)
  | [] => some best
  | a :: rest =>
    match best with
    | none => reduceAtoms table (some a) rest
    | some b =>
      if a = b || isLiteralOf table b a then reduceAtoms table (some b) rest
      else if isLiteralOf table a b then reduceAtoms table (some a) rest
      else none

/-- The members of an intersection; any other type is its own only member. -/
def intersectionMembers (table : Table) (t : Ty) : List Ty :=
  match table.shape t with
  | .intersection ms => ms
  | _ => [t]

/-- Whether the type is a primitive or a literal. -/
def isAtom (table : Table) (t : Ty) : Bool :=
  match table.shape t with
  | .primitive _ | .literal _ => true
  | _ => false

/-- What an object type says. -/
def members? (table : Table) (t : Ty) : Option Members :=
  match table.shape t with
  | .object m => some m
  | _ => none

/-- Adds a field to merged ones; the meet of two types is given. -/
def mergeField (meet : Ty → Ty → Interning Ty) (fields : List Field) (f : Field) :
    Interning (List Field) := do
  match fields.find? (·.name = f.name) with
  | none => return fields ++ [f]
  | some g =>
    let type ← meet g.type f.type
    return putField fields
      { name := f.name, type, optional := g.optional && f.optional
        readonly := g.readonly || f.readonly }

/-- Merges two index signatures. Of two with different keys the later counts. -/
def mergeIndex (meet : Ty → Ty → Interning Ty) (a b : Option Index) : Interning (Option Index) := do
  match a, b with
  | a, none => return a
  | none, some j => return some j
  | some i, some j =>
    if i.key = j.key then return some { key := i.key, value := ← meet i.value j.value }
    else return some j

/-- Merges the members of a second object into those of a first. -/
def mergeMembers (meet : Ty → Ty → Interning Ty) (a b : Members) : Interning Members := do
  let fields ← b.fields.foldlM (mergeField meet) a.fields
  let index ← mergeIndex meet a.index b.index
  return { fields, index, calls := (a.calls ++ b.calls).eraseDups }

/-- The object type that merges some objects. -/
def mergeWith (meet : Ty → Ty → Interning Ty) (objects : List Members) : Interning Ty := do
  objectOf (← objects.foldlM (mergeMembers meet) {})

/-- The primitives and literals among some types; `unknown` adds nothing. -/
def atomsAmong (table : Table) (ts : List Ty) : List Ty :=
  ts.filter fun t => isAtom table t && t ≠ .unknown

/-- The objects among some types. -/
def objectsAmong (table : Table) (ts : List Ty) : List Ty :=
  ts.filter fun t => (members? table t).isSome

/-- The types among some that are neither primitives, literals nor objects. -/
def othersAmong (table : Table) (ts : List Ty) : List Ty :=
  ts.filter fun t => !isAtom table t && (members? table t).isNone

/-- The members of some types as parts of an intersection, each once. -/
def allIntersected (table : Table) (ts : List Ty) : List Ty :=
  (ts.flatMap (intersectionMembers table)).eraseDups

/-- Several objects as one object. -/
def mergeAmong (meet : Ty → Ty → Interning Ty) (table : Table) (objects : List Ty) :
    Interning (List Ty) :=
  match objects with
  | [] | [_] => return objects
  | _ => do return [← mergeWith meet (objects.filterMap (members? table))]

/-- The members of the intersection of some types; the meet of two types is given. -/
def meetMembers (meet : Ty → Ty → Interning Ty) (ts : List Ty) : Interning (List Ty) := do
  let table ← get
  let all := allIntersected table ts
  if all.contains .invalid then return [.invalid]
  if all.contains .never then return [.never]
  if all.contains .any then return [.any]
  match reduceAtoms table none (atomsAmong table all) with
  | none => return [.never]
  | some atom =>
    match atom.toList ++ (← mergeAmong meet table (objectsAmong table all)) ++
      othersAmong table all with
    | [] => return [.unknown]
    | ms => return ms

/-- The intersection of some types whose nesting is at most the given depth. -/
def intersectionAt : Nat → List Ty → Interning Ty
  | 0, _ => return .never
  | depth + 1, ts => do
    combine .intersection (← meetMembers (fun a b => intersectionAt depth [a, b]) ts)

/-- How far up the table the highest of some types stands. -/
def height (ts : List Ty) : Nat := ts.foldl (fun h t => max h t.rank) 0

/-- The intersection of some types. Objects nest less deep than they stand up the table. -/
def intersectionOf (ts : List Ty) : Interning Ty := intersectionAt (height ts + 1) ts

/-- The object type that merges some objects, as several declarations of one interface do. -/
def mergeObjects (objects : List Members) : Interning Ty :=
  mergeWith (fun a b => intersectionOf [a, b]) objects

end Ty

end ShapeCheck
