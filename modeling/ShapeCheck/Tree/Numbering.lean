import ShapeCheck.Tree

/-!
# Numbering a tree

Every expression and every variable statement gets a number: a node before its parts, parts in the
order in which they are written down in the tree. The numbers tell apart nodes that share a
position, such as a call and the callee it starts with, and ordering by number is tree order.
-/

namespace ShapeCheck

/-- The next number to give out. -/
abbrev Counting := StateM Nat

/-- Gives the site the next number. -/
def Site.numbered (s : Site) : Counting Site := fun n => ({ s with number := n }, n + 1)

mutual

/-- Numbers the expressions inside a written type. -/
def TypeExpr.numbered : TypeExpr → Counting TypeExpr
  | .reference p name arguments => return .reference p name (← numberTypes arguments)
  | .literal p v => return .literal p v
  | .union p members => return .union p (← numberTypes members)
  | .intersection p members => return .intersection p (← numberTypes members)
  | .array p element readonly => return .array p (← element.numbered) readonly
  | .tuple p slots rest readonly =>
    return .tuple p (← numberSlots slots) (← numberType? rest) readonly
  | .object p members => return .object p (← members.numbered)
  | .function s => return .function (← s.numbered)

/-- Numbers several types. -/
def numberTypes : List TypeExpr → Counting (List TypeExpr)
  | [] => return []
  | t :: ts => return (← t.numbered) :: (← numberTypes ts)

/-- Numbers a type that may be missing. -/
def numberType? : Option TypeExpr → Counting (Option TypeExpr)
  | none => return none
  | some t => return some (← t.numbered)

/-- Numbers the places of a tuple. -/
def numberSlots : List TupleSlot → Counting (List TupleSlot)
  | [] => return []
  | .mk t optional :: ss => return .mk (← t.numbered) optional :: (← numberSlots ss)

/-- Numbers the members of an object type. -/
def MemberList.numbered : MemberList → Counting MemberList
  | .mk properties index calls =>
    return .mk (← numberSpecs properties) (← numberIndex index) (← numberSignatures calls)

/-- Numbers properties. -/
def numberSpecs : List PropertySpec → Counting (List PropertySpec)
  | [] => return []
  | .mk p name t optional readonly :: ps =>
    return .mk p name (← t.numbered) optional readonly :: (← numberSpecs ps)

/-- Numbers an index signature. -/
def numberIndex : Option IndexSpec → Counting (Option IndexSpec)
  | none => return none
  | some (.mk p key value) => return some (.mk p key (← value.numbered))

/-- Numbers signatures. -/
def numberSignatures : List Signature → Counting (List Signature)
  | [] => return []
  | s :: ss => return (← s.numbered) :: (← numberSignatures ss)

/-- Numbers a signature. -/
def Signature.numbered : Signature → Counting Signature
  | .mk p typeParams params rest receiver result =>
    return .mk p (← numberTypeParams typeParams) (← numberParams params) (← numberParam? rest)
      (← numberType? receiver) (← numberType? result)

/-- Numbers type parameters. -/
def numberTypeParams : List TypeParam → Counting (List TypeParam)
  | [] => return []
  | .mk p name bound default :: ps =>
    return .mk p name (← numberType? bound) (← numberType? default) :: (← numberTypeParams ps)

/-- Numbers a parameter. -/
def Param.numbered : Param → Counting Param
  | .mk p name type optional initial =>
    return .mk p name (← numberType? type) optional (← numberExpr? initial)

/-- Numbers parameters. -/
def numberParams : List Param → Counting (List Param)
  | [] => return []
  | p :: ps => return (← p.numbered) :: (← numberParams ps)

/-- Numbers a parameter that may be missing. -/
def numberParam? : Option Param → Counting (Option Param)
  | none => return none
  | some p => return some (← p.numbered)

/-- Numbers an expression: itself first, then its parts. -/
def Expr.numbered : Expr → Counting Expr
  | .identifier s name => return .identifier (← s.numbered) name
  | .number s v => return .number (← s.numbered) v
  | .string s v => return .string (← s.numbered) v
  | .boolean s v => return .boolean (← s.numbered) v
  | .bigint s v => return .bigint (← s.numbered) v
  | .null s => return .null (← s.numbered)
  | .undefined s => return .undefined (← s.numbered)
  | .this s => return .this (← s.numbered)
  | .array s elements => return .array (← s.numbered) (← numberExprs elements)
  | .object s properties => return .object (← s.numbered) (← numberProperties properties)
  | .call s callee typeArguments arguments =>
    return .call (← s.numbered) (← callee.numbered) (← numberTypes typeArguments)
      (← numberExprs arguments)
  | .construct s callee typeArguments arguments =>
    return .construct (← s.numbered) (← callee.numbered) (← numberTypes typeArguments)
      (← numberExprs arguments)
  | .member s object property optional =>
    return .member (← s.numbered) (← object.numbered) property optional
  | .index s object key => return .index (← s.numbered) (← object.numbered) (← key.numbered)
  | .typeof s operand => return .typeof (← s.numbered) (← operand.numbered)
  | .unary s op operand => return .unary (← s.numbered) op (← operand.numbered)
  | .binary s left op right =>
    return .binary (← s.numbered) (← left.numbered) op (← right.numbered)
  | .assign s target value => return .assign (← s.numbered) (← target.numbered) (← value.numbered)
  | .assertion s value type => return .assertion (← s.numbered) (← value.numbered) (← type.numbered)
  | .function s signature body =>
    return .function (← s.numbered) (← signature.numbered) (← body.numbered)

/-- Numbers several expressions. -/
def numberExprs : List Expr → Counting (List Expr)
  | [] => return []
  | e :: es => return (← e.numbered) :: (← numberExprs es)

/-- Numbers an expression that may be missing. -/
def numberExpr? : Option Expr → Counting (Option Expr)
  | none => return none
  | some e => return some (← e.numbered)

/-- Numbers the entries of an object literal. -/
def numberProperties : List Property → Counting (List Property)
  | [] => return []
  | .mk p key value :: ps => return .mk p key (← value.numbered) :: (← numberProperties ps)

end

/-- Numbers a variable declaration. -/
def Variable.numbered (v : Variable) : Counting Variable := do
  let site ← v.site.numbered
  let type ← numberType? v.type
  let value ← numberExpr? v.value
  return { v with site, type, value }

mutual

/-- Numbers a statement. -/
def Stmt.numbered : Stmt → Counting Stmt
  | .variable v => return .variable (← v.numbered)
  | .expression p e => return .expression p (← e.numbered)
  | .block b => return .block (← b.numbered)
  | .conditional p condition yes no =>
    return .conditional p (← condition.numbered) (← yes.numbered) (← numberBlock? no)
  | .exit p value => return .exit p (← numberExpr? value)
  | .raise p value => return .raise p (← value.numbered)

/-- Numbers a block. -/
def Block.numbered : Block → Counting Block
  | .mk p statements => return .mk p (← numberStmts statements)

/-- Numbers a block that may be missing. -/
def numberBlock? : Option Block → Counting (Option Block)
  | none => return none
  | some b => return some (← b.numbered)

/-- Numbers several statements. -/
def numberStmts : List Stmt → Counting (List Stmt)
  | [] => return []
  | s :: ss => return (← s.numbered) :: (← numberStmts ss)

end

/-- Numbers a function declaration. -/
def FunctionDecl.numbered (d : FunctionDecl) : Counting FunctionDecl := do
  let signature ← d.signature.numbered
  let body ← numberBlock? d.body
  return { d with signature, body }

/-- Numbers a class field. -/
def ClassField.numbered (f : ClassField) : Counting ClassField := do
  let type ← numberType? f.type
  let value ← numberExpr? f.value
  return { f with type, value }

/-- Numbers a class declaration. -/
def ClassDecl.numbered (d : ClassDecl) : Counting ClassDecl := do
  let typeParams ← numberTypeParams d.typeParams
  let base ← match d.base with
    | none => pure none
    | some b => do
      let arguments ← numberTypes b.arguments
      pure (some { b with arguments })
  let implementing ← numberTypes d.implementing
  let fields ← d.fields.mapM ClassField.numbered
  let construction ← match d.construction with
    | none => pure none
    | some c => do pure (some (← c.numbered))
  let methods ← d.methods.mapM FunctionDecl.numbered
  return { d with typeParams, base, implementing, fields, construction, methods }

/-- Numbers an enum member. -/
def EnumMember.numbered (m : EnumMember) : Counting EnumMember := do
  let value ← numberExpr? m.value
  return { m with value }

/-- Numbers a declaration. -/
def Declaration.numbered : Declaration → Counting Declaration
  | .alias d => do
    let typeParams ← numberTypeParams d.typeParams
    let type ← d.type.numbered
    return .alias { d with typeParams, type }
  | .interface d => do
    let typeParams ← numberTypeParams d.typeParams
    let bases ← numberTypes d.bases
    let members ← d.members.numbered
    return .interface { d with typeParams, bases, members }
  | .enumeration d => do
    let members ← d.members.mapM EnumMember.numbered
    return .enumeration { d with members }
  | .function d => return .function (← d.numbered)
  | .classDecl d => return .classDecl (← d.numbered)
  | .variable v => return .variable (← v.numbered)
  | .statement p s => return .statement p (← s.numbered)

/-- The program with its nodes numbered from zero, and the number of nodes. -/
def Program.numbered (p : Program) : Program × Nat :=
  let (declarations, count) := (p.declarations.mapM Declaration.numbered).run 0
  ({ p with declarations }, count)

end ShapeCheck
