import ShapeCheck.Ty.Table

/-!
# Unions

A union is the set of its members. Building one flattens nested unions, drops repetitions, `never`
and literals whose primitive is present, joins the two truth values to `boolean`, and lets the error
type, `any` and `unknown` absorb everything. What remains is kept in one canonical order, so a union
of the same set is the same type.

* `Ty.unionOf` builds the union of some types.
* `Ty.filterMembers` keeps the members that pass a test, with `boolean` split into its two values.
* `Ty.without` removes one member.
-/

namespace ShapeCheck

namespace Ty

/-- Whether the two truth values are both there, and `boolean` is not. -/
def splitsBoolean (ts : List Ty) : Bool :=
  ts.contains (.truth true) && ts.contains (.truth false) && !ts.contains .boolean

/-- Whether a member adds nothing to a union of the given members: it is `never`, it is a literal
whose primitive is there, or it is one half of a split `boolean`. -/
def isAbsorbed (table : Table) (all : List Ty) (m : Ty) : Bool :=
  m = .never ||
  (match table.literal? m with
    | some l => all.contains (.prim l.base)
    | none => false) ||
  ((m = .truth true || m = .truth false) && splitsBoolean all)

/-- The members that count, before they are put in order. -/
def essentialMembers (table : Table) (all : List Ty) : List Ty :=
  all.filter (fun m => !isAbsorbed table all m) ++ (if splitsBoolean all then [.boolean] else [])

/-- The members of some types, each once. -/
def allMembers (table : Table) (ts : List Ty) : List Ty := (ts.flatMap table.members).eraseDups

/-- The members of the union of some types. -/
def unionMembers (table : Table) (ts : List Ty) : List Ty :=
  let all := allMembers table ts
  if all.contains .invalid then [.invalid]
  else if all.contains .any then [.any]
  else if all.contains .unknown then [.unknown]
  else match essentialMembers table all with
    | [] => [.never]
    | ms => ms

/-- The union of some types. -/
def unionOf (ts : List Ty) : Interning Ty := do combine .union (unionMembers (← get) ts)

/-- The members of a type with `boolean` split into its two values. -/
def splitMembers (table : Table) (t : Ty) : List Ty :=
  (table.members t).flatMap fun m =>
    if m = .boolean then [.truth true, .truth false] else [m]

/-- The union of the members that pass a test. -/
def filterMembers (t : Ty) (keep : Ty → Bool) : Interning Ty := do
  unionOf ((splitMembers (← get) t).filter keep)

/-- The type without the members equal to the given one. -/
def without (t target : Ty) : Interning Ty := t.filterMembers (· ≠ target)

/-- The element type of the array that a tuple is. -/
def elementUnion (t : Tuple) : Interning Ty := unionOf t.elements

/-- The value of an enum member. -/
def enumValue? (table : Table) (t : Ty) : Option Ty :=
  match table.shape t with
  | .enumMember _ _ value => some value
  | _ => none

/-- The union of the values of an enum. -/
def valueUnion (e : Enumeration) : Interning Ty := do
  let table ← get
  unionOf (e.members.filterMap (enumValue? table))

end Ty

end ShapeCheck
