import ShapeCheck.Check.Access
import ShapeCheck.Tree.Print

/-!
# Enum declarations

The values of an enum are constants. A member without a value continues the numbering of the number
before it, from zero; after a string every member needs a value.

* `Enum.constant` is the value of a constant expression.
* `Enum.number` gives the members of an enum their values.
-/

namespace ShapeCheck.Enum

open Check

/-- The value of an operation on two constants. Strings can only be joined, with numbers too. -/
def fold (op : BinaryOp) (left right : Literal) : Option Literal :=
  match left, right with
  | .number a, .number b =>
    match op with
    | .add => some (.number (a.add b))
    | .subtract => some (.number (a.sub b))
    | .multiply => some (.number (a.mul b))
    | .divide => some (.number (a.div b))
    | .remainder => some (.number (a.rem b))
    | _ => none
  | .string _, _ | _, .string _ =>
    if op = .add then some (.string (Access.key left ++ Access.key right)) else none
  | _, _ => none

/-- What a name, or a member of a name, stands for in a constant expression. -/
structure Known where
  enum : String
  earlier : List (String × Literal)
  others : String → String → Option Literal

/-- The value of a member of an enum by its name. -/
def Known.member? (known : Known) (enum member : String) : Option Literal :=
  if enum = known.enum then known.earlier.lookup member else known.others enum member

/-- A value that has to be there. -/
def orRefuse (e : Expr) : Option Literal → Except Expr Literal
  | some l => .ok l
  | none => .error e

/-- The value of a constant expression, or the part of it that is no constant. -/
def constant (known : Known) : Expr → Except Expr Literal
  | .number _ v => .ok (.number v)
  | .string _ s => .ok (.string s)
  | .identifier site name => orRefuse (.identifier site name) (known.earlier.lookup name)
  | .member site (.identifier own enum) name optional =>
    orRefuse (.member site (.identifier own enum) name optional) (known.member? enum name)
  | .unary site op operand => do
    match ← constant known operand, op with
    | .number v, .negate => return .number v.neg
    | _, _ => throw (.unary site op operand)
  | .binary site left op right => do
    let l ← constant known left
    let r ← constant known right
    orRefuse (.binary site left op right) (fold op l r)
  | e => .error e

/-- The value of a member of a declared enum. -/
def memberValue? (s : Session) (enum member : String) : Option Literal := do
  let t ← s.enums.lookup enum
  match s.table.shape t with
  | .enumeration e =>
    let m ← Ty.enumMember? s.table e member
    Access.literal? s.table m
  | _ => none

/-- The value of one member. The next number is missing after a string. -/
def value? (known : Known) (next : Option Binary64) (m : EnumMember) :
    Except (Position × Problem) Literal :=
  match m.value, next with
  | none, none => .error (m.position, .enumMemberWithoutValue)
  | none, some n => .ok (.number n)
  | some e, _ =>
    match constant known e with
    | .ok l => .ok l
    | .error part => .error (e.position, .enumNotConstant part.text)

/-- The number after a value. -/
def following : Literal → Option Binary64
  | .number v => some (v.add Binary64.one)
  | _ => none

/-- The members with their values; those without one are reported and left out. -/
def number (known : Known) (next : Option Binary64) :
    List EnumMember → Check (List (String × Literal))
  | [] => return known.earlier
  | m :: rest => do
    if (known.earlier.lookup m.name).isSome then
      report m.position (.duplicate m.name)
      number known next rest
    else
      match value? known next m with
      | .error (position, problem) =>
        report position problem
        number known next rest
      | .ok l => number { known with earlier := known.earlier ++ [(m.name, l)] } (following l) rest

/-- Declares an enum as a type and as a constant. -/
def register (d : EnumDecl) : Check Unit := do
  let others := memberValue? (← session)
  let values ← number { enum := d.name, earlier := [], others } (some Binary64.zero) d.members
  let members ← values.mapM fun (name, l) => return (name, ← (Ty.literalOf l : Check Ty))
  let t ← Ty.enumOf d.name d.isConst members
  update fun s => { s with enums := s.enums ++ [(d.name, t)] }
  if !(← defineIn globals d.name ⟨t, true⟩) then report d.position (.duplicate d.name)

end ShapeCheck.Enum
