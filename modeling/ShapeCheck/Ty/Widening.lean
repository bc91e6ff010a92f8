import ShapeCheck.Ty.Substitution

/-!
# Widening

A binding that may change is not held to the literal it starts with: its literals become their
primitives and its enum members their enums.

* `Ty.widen` widens a type at the top and in the members of a union.
* `Ty.deepWiden` also widens the fields of objects and the elements of arrays and tuples.
-/

namespace ShapeCheck

namespace Ty

/-- The type a literal or an enum member widens to; any other type is kept. -/
def widenMember (table : Table) (t : Ty) : Ty :=
  match table.shape t with
  | .literal l => .prim l.base
  | .enumMember enum _ _ => enum
  | _ => t

/-- The type with its literals and enum members widened. -/
def widen (t : Ty) : Interning Ty := do
  let table ← get
  match table.shape t with
  | .union ms => unionOf (ms.map (widenMember table))
  | _ => return widenMember table t

/-- Widens a type that nests at most so deep. -/
def deepWidenAt : Nat → Ty → Interning Ty
  | 0, t => return t
  | depth + 1, t => do
    match (← get).shape t with
    | .object m =>
      let fields ← rebuildFields (deepWidenAt depth) m.fields
      if fields = m.fields then return t
      objectOf { m with fields }
    | .array element readonly => arrayOf (← deepWidenAt depth element) readonly
    | .tuple u => tupleOf (← rebuildTuple (deepWidenAt depth) u)
    | _ => t.widen

/-- The type with the literals in its fields and elements widened too. -/
def deepWiden (t : Ty) : Interning Ty := deepWidenAt (t.rank + 1) t

end Ty

end ShapeCheck
