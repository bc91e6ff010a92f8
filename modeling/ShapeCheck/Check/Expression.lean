import ShapeCheck.Check.Call
import ShapeCheck.Check.Guard
import ShapeCheck.Check.Operator

/-!
# Types and expressions in a session

The recursion over written types and expressions. Each node is handed to its rule with its parts as
actions, so the recursion is on the tree alone.

* `Walk.typeOf` is the type that a written type means.
* `Walk.check` is the type of an expression, given what is expected of it; it is recorded.
* `Walk.guard` is what a condition proves.

A name may be that of a function whose result type is still to be inferred; `settle` sees to that
before the name is looked up.
-/

namespace ShapeCheck

/-- Whether the type of an expression depends on what is expected of it: it is a function with a
parameter that has neither annotation nor initializer. -/
def Expr.isContextSensitive : Expr → Bool
  | .function _ s _ =>
    s.params.any (fun p => p.type.isNone && p.initial.isNone) ||
      ((s.rest.map fun p => p.type.isNone).getD false)
  | _ => false

/-- Whether an expression is `this`. -/
def Expr.isThis : Expr → Bool
  | .this _ => true
  | _ => false

namespace Walk

open Check

/-- The type of a name in scope, its inference settled first. -/
def typeOfName (settle : String → Check Unit) (name : String) : Check (Option Ty) := do
  settle name
  lookup name

/-- The type of a name used as an expression. -/
def identifier (settle : String → Check Unit) (position : Position) (name : String) : Check Ty := do
  match ← typeOfName settle name with
  | some t => return t
  | none =>
    report position (.unresolved name)
    return .invalid

/-- The type of `left && right` and `left || right`. The right side is checked where the left one
does not decide. -/
def logical (isAnd : Bool) (left : Check Ty) (guard : Check Guard) (right : Check Ty) :
    Check Ty := do
  let l ← left
  let g ← guard
  let r ← inFrame do
    apply (if isAnd then g.whenTrue else g.whenFalse)
    right
  let split ← l.narrowByTruthiness
  Ty.unionOf [if isAnd then split.no else split.yes, r]

/-- The guard of a comparison; nothing for other operators. -/
def comparison (settle : String → Check Unit) (op : BinaryOp) (left right : Guard.Side) :
    Check Guard := do
  match op with
  | .strictEqual => Guard.equality (typeOfName settle) false left right
  | .equal => Guard.equality (typeOfName settle) true left right
  | .strictNotEqual => return (← Guard.equality (typeOfName settle) false left right).negated
  | .notEqual => return (← Guard.equality (typeOfName settle) true left right).negated
  | _ => return {}

/-- The type of an access under an index. -/
def indexAccess (position : Position) (object key : Check Ty) : Check Ty := do
  let o ← object
  let k ← key
  match ← Access.index o k with
  | .ok t => return t
  | .error problem =>
    report position problem
    return .invalid

/-- Records the type of an expression. -/
def recorded (site : Site) (kind : NodeKind) (type : Check Ty) : Check Ty := do
  let t ← type
  record site kind t
  return t

section Recursion

variable (settle : String → Check Unit)

mutual

/-- The type that a written type means. -/
def typeOf : TypeExpr → Check Ty
  | .reference p name arguments => do Meaning.reference p name (← typesOf arguments)
  | .literal p v => Meaning.literal p v
  | .union _ ms => do Ty.unionOf (← typesOf ms)
  | .intersection _ ms => do Ty.intersectionOf (← typesOf ms)
  | .array _ element readonly => do Ty.arrayOf (← typeOf element) readonly
  | .tuple _ slots rest readonly => do
    let slots ← slotsOf slots
    let rest ← Meaning.optional (optionalType rest)
    Ty.tupleOf { slots, rest, readonly }
  | .object _ members => do Ty.objectOf (← membersOf members)
  | .function s => Meaning.signature (signature s) none

/-- The types that several written types mean. -/
def typesOf : List TypeExpr → Check (List Ty)
  | [] => return []
  | t :: ts => do
    let first ← typeOf t
    return first :: (← typesOf ts)

/-- A written type that may be missing, as an action. -/
def optionalType : Option TypeExpr → Option (Check Ty)
  | none => none
  | some t => some (typeOf t)

/-- The places of a written tuple. -/
def slotsOf : List TupleSlot → Check (List Slot)
  | [] => return []
  | .mk t optional :: ss => do
    let type ← typeOf t
    return { type, optional } :: (← slotsOf ss)

/-- The members of a written object. -/
def membersOf : MemberList → Check Members
  | .mk properties index calls => do
    let fields ← fieldsOf properties
    let index ← indexOf index
    let calls ← callsOf calls
    return { fields, index, calls }

/-- The fields of a written object. -/
def fieldsOf : List PropertySpec → Check (List Field)
  | [] => return []
  | .mk _ name t optional readonly :: ps => do
    let type ← typeOf t
    return { name, type, optional, readonly } :: (← fieldsOf ps)

/-- The index signature of a written object. -/
def indexOf : Option IndexSpec → Check (Option Index)
  | none => return none
  | some (.mk _ key t) => do return some { key, value := ← typeOf t }

/-- The call signatures of a written object. -/
def callsOf : List Signature → Check (List Ty)
  | [] => return []
  | s :: ss => do
    let first ← Meaning.signature (signature s) none
    return first :: (← callsOf ss)

/-- A written signature with its parts as actions. -/
def signature : Signature → SignaturePart
  | .mk _ tps ps rest receiver result =>
    { typeParams := typeParams tps, params := params ps, rest := restParam rest
      receiver := optionalType receiver, result := optionalType result }

/-- Written type parameters with their parts as actions. -/
def typeParams : List TypeParam → List TypeParamPart
  | [] => []
  | .mk position name bound default :: ps =>
    { position, name, bound := optionalType bound, default := optionalType default } ::
      typeParams ps

/-- Written parameters with their parts as actions. -/
def params : List Param → List ParamPart
  | [] => []
  | .mk position name type optional initial :: ps =>
    { position, name, written := optionalType type, optional, initial := initialPart initial } ::
      params ps

/-- A written rest parameter with its parts as actions. -/
def restParam : Option Param → Option ParamPart
  | none => none
  | some (.mk position name type optional initial) =>
    some { position, name, written := optionalType type, optional
           initial := initialPart initial }

/-- A written initializer as an action. -/
def initialPart : Option Expr → Option ExprPart
  | none => none
  | some e => some ⟨e.position, check e, e.isContextSensitive⟩

/-- The type of an expression. -/
def check : Expr → Option Ty → Check Ty
  | .identifier site name, _ => recorded site .identifier (identifier settle site.position name)
  | .number site v, _ => recorded site .number (Ty.literalOf (.number v))
  | .string site s, _ => recorded site .string (Ty.literalOf (.string s))
  | .boolean site b, _ => recorded site .boolean (Ty.literalOf (.boolean b))
  | .bigint site digits, _ => recorded site .bigint (Meaning.bigint site.position digits)
  | .null site, _ => recorded site .null (return .null)
  | .undefined site, _ => recorded site .undefined (return .undefined)
  | .this site, _ => recorded site .this (return (← lookup "this").getD .any)
  | .array site es, expected => recorded site .array (Operator.array (parts es) expected)
  | .object site ps, expected => recorded site .object (Operator.object (properties ps) expected)
  | .function site s body, expected =>
    recorded site .function
      (Body.literal site.position (signature s) ⟨body.position, check body, false⟩ expected)
  | .call site callee ts as, _ =>
    recorded site .call
      (Call.call site.position ⟨callee.position, check callee, false⟩ (typesOf ts) (parts as))
  | .construct site callee ts as, _ =>
    recorded site .construct
      (Call.construct site.position ⟨callee.position, check callee, false⟩ (typesOf ts) (parts as))
  | .member site object name optional, _ =>
    recorded site .member do
      let o ← check object none
      Access.member site.position o name optional
  | .index site object key, _ =>
    recorded site .index (indexAccess site.position (check object none) (check key none))
  | .typeof site operand, _ =>
    recorded site .typeof do
      let _ ← check operand none
      Operator.typeof
  | .unary site .not operand, _ =>
    recorded site .unary do
      let _ ← check operand none
      return .boolean
  | .unary site .negate operand, _ =>
    recorded site .unary do
      let t ← check operand none
      Operator.negate site.position t
  | .binary site left .and right, _ =>
    recorded site .binary (logical true (check left none) (guard left) (check right none))
  | .binary site left .or right, _ =>
    recorded site .binary (logical false (check left none) (guard left) (check right none))
  | .binary site left .coalesce right, _ =>
    recorded site .binary do
      let l ← check left none
      let r ← check right none
      Operator.coalesce l r
  | .binary site left op right, _ =>
    recorded site .binary do
      let l ← check left none
      let r ← check right none
      Operator.binary site.position op l r
  | .assign site (.identifier own name) value, _ =>
    recorded site .assign (Access.assignVariable own name ⟨value.position, check value, false⟩)
  | .assign site (.member own object name _) value, _ =>
    recorded site .assign
      (Access.assignMember own ⟨object.position, check object, false⟩ object.isThis name
        ⟨value.position, check value, false⟩)
  | .assign site (.index own object key) value, _ =>
    recorded site .assign
      (Access.assignIndex own ⟨object.position, check object, false⟩
        ⟨key.position, check key, false⟩
        ⟨value.position, check value, false⟩)
  | .assign site target value, _ =>
    recorded site .assign
      (Access.assignOther target.position ⟨value.position, check value, false⟩)
  | .assertion site value type, _ =>
    recorded site .assertion do
      let target ← typeOf type
      Operator.assertion site.position target ⟨value.position, check value, false⟩

/-- Several expressions as actions. -/
def parts : List Expr → List ExprPart
  | [] => []
  | e :: es => ⟨e.position, check e, e.isContextSensitive⟩ :: parts es

/-- The entries of an object literal as actions. -/
def properties : List Property → List Operator.PropertyPart
  | [] => []
  | .mk position key value :: ps =>
    ⟨position, key, ⟨value.position, check value, false⟩⟩ :: properties ps

/-- What a condition proves. -/
def guard : Expr → Check Guard
  | .identifier _ name => Guard.truth (typeOfName settle) name
  | .unary _ .not operand => return (← guard operand).negated
  | .binary _ left .and right => Guard.both (typeOfName settle) (guard left) (guard right)
  | .binary _ left .or right => Guard.either (typeOfName settle) (guard left) (guard right)
  | .binary _ left op right =>
    comparison settle op
      ⟨Guard.subjectOf left, Guard.string? left, Guard.constantOf left (check left none)⟩
      ⟨Guard.subjectOf right, Guard.string? right, Guard.constantOf right (check right none)⟩
  | _ => return {}

end

end Recursion

end Walk

end ShapeCheck
