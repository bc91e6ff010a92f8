import ShapeCheck.Snippet.ExpressionRules

/-!
# Snippets

A snippet is a type, an expression, a signature, an object member, a type parameter, a class field
or an enum member written inside a declaration file. Reading one gives a tree, if there is one, and
the errors in order. The nesting of the grammar is bounded by the number of tokens, because every
rule is entered at a later token than the one it was called from.
-/

namespace ShapeCheck.Snippet

/-- The grammar with the given number of levels. -/
def grammar : Nat → Grammar
  | 0 => ⟨fun _ => outOfSteps, outOfSteps⟩
  | n + 1 =>
    let g := grammar n
    ⟨expressionRule g, typeRule g⟩

/-- What reading a snippet gives: the tree, if there is one, and the errors in order. -/
structure Reading (α : Type) where
  tree : Option α
  errors : List SyntaxError

/-- Runs a rule on a text whose first character stands at `base`. -/
def read {α : Type} (rule : Grammar → Parse α) (text : String) (base : Position) : Reading α :=
  let reader := Reader.ofText text base
  match (rule (grammar (reader.tokens.size + 1))).run reader with
  | some (tree, reader) => { tree, errors := reader.errors.reverse }
  | none => { tree := none, errors := [] }

/-- Runs a rule and then demands the end of the snippet, whether the rule succeeded or not. -/
def toEnd {α : Type} (rule : Parse α) : Parse α := do
  let result ← attempt rule
  expectEnd
  result.elim failure pure

/-- Reads a type. -/
def readType : String → Position → Reading TypeExpr :=
  read fun g => toEnd (typeRule g)

/-- Reads an expression. -/
def readExpression : String → Position → Reading Expr :=
  read fun g => toEnd (expressionRule g lowest)

/-- Runs a rule and, if it succeeded, demands the end of the snippet. -/
def thenEnd {α : Type} (rule : Parse α) : Parse α := do
  let result ← rule
  expectEnd
  return result

/-- Reads a signature. -/
def readSignature : String → Position → Reading Signature :=
  read fun g => thenEnd (signature g .colon)

/-- Reads an object member and adds it to the members before it. -/
def readMember (members : MemberList) : String → Position → Reading MemberList :=
  read fun g => thenEnd (objectMember g members)

/-- Reads a type parameter. -/
def readTypeParameter : String → Position → Reading TypeParam :=
  read fun g => thenEnd (typeParameter g)

/-- A class field: a head, an annotation and an initializer. -/
def classField (g : Grammar) : Parse ClassField := do
  let head ← propertyHead
  let type ←
    if ← peekIsSymbol .colon then
      advance
      advance
      pure (some (← g.type))
    else pure none
  let value ←
    if ← peekIsSymbol .assign then
      advance
      advance
      pure (some (← g.expression lowest))
    else pure none
  return { position := head.position, name := head.name, type, optional := head.optional,
           readonly := head.readonly, value }

/-- Reads a class field. -/
def readClassField : String → Position → Reading ClassField :=
  read fun g => thenEnd (classField g)

/-- An enum member: a name and an optional value. -/
def enumMember (g : Grammar) : Parse EnumMember := do
  let t ← current
  if !isPropertyName t then reject t (.noEnumMemberName t)
  let position ← positionOf t
  let value ←
    if ← peekIsSymbol .assign then
      advance
      advance
      pure (some (← g.expression lowest))
    else pure none
  return { position, name := t.text, value }

/-- Reads an enum member. -/
def readEnumMember : String → Position → Reading EnumMember :=
  read fun g => thenEnd (enumMember g)

end ShapeCheck.Snippet
