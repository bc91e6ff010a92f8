import ShapeCheck.Snippet.Reader
import ShapeCheck.Number.Decimal

/-!
# Rules for types and signatures

Each rule starts on its first token and ends on its last. The rules take the grammar of the level
below for the types and expressions inside them.
-/

namespace ShapeCheck.Snippet

variable (g : Grammar)

/-- Type arguments between angle brackets; starts on the opening one. -/
def typeArguments : Parse (List TypeExpr) := do
  let arguments ← loop ([] : List TypeExpr) fun done => do
    advance
    let argument ← g.type
    let done := argument :: done
    if ← peekIsSymbol .comma then
      advance
      return .inl done
    else return .inr done.reverse
  expectSymbol .greater
  return arguments

/-- A dotted name: a point followed by an identifier extends it. -/
def dottedName (first : String) : Parse String :=
  loop first fun name => do
    if (← peekIsSymbol .dot) && (← peekAt 2).kind = .identifier then
      advance
      advance
      return .inl (name ++ "." ++ (← current).text)
    else return .inr name

/-- The value of the current number token. -/
def numberValue : Parse Binary64 := do
  let t ← current
  match Decimal.read? t.text with
  | .ok v => return v
  | .error _ => reject t (.badNumber t.text)

/-- A rest element of a tuple; starts on the three dots. -/
def restElement : Parse TypeExpr := do
  advance
  let t ← current
  match ← g.type with
  | .array _ element _ => return element
  | _ => reject t .restElementNotArray

/-- One fixed place of a tuple. -/
def tupleSlot : Parse TupleSlot := do
  let type ← g.type
  if ← peekIsSymbol .question then
    advance
    return .mk type true
  else return .mk type false

/-- A tuple type; starts on the opening bracket. -/
def tupleType : Parse TypeExpr := do
  let position ← positionOf (← current)
  let (slots, rest) ← loop (([] : List TupleSlot), (none : Option TypeExpr)) fun (slots, rest) => do
    if ← peekIsSymbol .rightBracket then return .inr (slots.reverse, rest)
    advance
    if rest.isSome then reject (← current) .restElementNotLast
    let (slots, rest) ←
      if ← currentIsSymbol .spread then pure (slots, some (← restElement g))
      else pure ((← tupleSlot g) :: slots, rest)
    if !(← peekIsSymbol .rightBracket) then expectSymbol .comma
    return .inl (slots, rest)
  advance
  return .tuple position slots rest false

/-- A type parameter: a name with an optional bound and an optional default. -/
def typeParameter : Parse TypeParam := do
  let t ← current
  if t.kind ≠ .identifier then reject t (.noTypeParameterName t)
  let position ← positionOf t
  let bound ←
    if ← peekIs (.keyword .extends) then
      advance
      advance
      pure (some (← g.type))
    else pure none
  let default ←
    if ← peekIsSymbol .assign then
      advance
      advance
      pure (some (← g.type))
    else pure none
  return .mk position t.text bound default

/-- Type parameters between angle brackets; starts on the opening one and ends on the closing one.
-/
def typeParameters : Parse (List TypeParam) := do
  let params ← loop ([] : List TypeParam) fun done => do
    expect .identifier
    let p ← typeParameter g
    let done := p :: done
    if ← peekIsSymbol .comma then
      advance
      return .inl done
    else return .inr done.reverse
  expectSymbol .greater
  return params

/-- A parameter after its optional dots: a name, a question mark, an annotation, an initializer. -/
def parameter (spread : Bool) : Parse Param := do
  let t ← current
  if t.kind ≠ .identifier && t.kind ≠ .keyword .this then reject t (.noParameterName t)
  let position ← positionOf t
  let optional ← peekIsSymbol .question
  if optional then advance
  let type ←
    if ← peekIsSymbol .colon then
      advance
      advance
      pure (some (← g.type))
    else pure none
  let initial ←
    if ← peekIsSymbol .assign then
      advance
      if optional || spread then reject (← current) (.initializerClash t.text)
      advance
      pure (some (← g.expression lowest))
    else pure none
  return .mk position t.text type optional initial

/-- A parameter list; starts on the opening parenthesis and ends on the closing one. -/
def parameterList : Parse (List Param × Option Param) := do
  let result ← loop (([] : List Param), (none : Option Param)) fun (params, rest) => do
    if ← peekIsSymbol .rightParen then return .inr (params.reverse, rest)
    advance
    if rest.isSome then reject (← current) .restParameterNotLast
    let spread ← currentIsSymbol .spread
    if spread then advance
    let p ← parameter g spread
    if !(← peekIsSymbol .rightParen) then expectSymbol .comma
    return .inl (if spread then (params, some p) else (p :: params, rest))
  advance
  return result

/-- A signature whose result type follows the given symbol. After an arrow the result is required,
after a colon it may be left out. A first parameter named `this` declares the receiver. -/
def signature (separator : Symbol) : Parse Signature := do
  let position ← positionOf (← current)
  let typeParams ←
    if ← currentIsSymbol .less then
      let ps ← typeParameters g
      expectSymbol .leftParen
      pure ps
    else pure []
  let t ← current
  if t.kind ≠ .symbol .leftParen then reject t (.noParameterList t)
  let (params, rest) ← parameterList g
  let (receiver, params) := match params with
    | p :: ps => if p.name = "this" then (p.type, ps) else (none, p :: ps)
    | [] => (none, [])
  if separator = .arrow && !(← peekIsSymbol .arrow) then rejectNext (.symbol .arrow)
  let result ←
    if ← peekIsSymbol separator then
      advance
      advance
      pure (some (← g.type))
    else pure none
  return .mk position typeParams params rest receiver result

/-- A function type; its parameters have no initializers. -/
def functionType : Parse TypeExpr := do
  let s ← signature g .arrow
  if s.params.any (·.initial.isSome) then reject (← current) .initializerInType
  return .function s

/-- What is written in front of the type of a property. -/
structure PropertyHead where
  position : Position
  name : String
  optional : Bool
  readonly : Bool

/-- The head of a property; ends on the name or on the question mark. -/
def propertyHead : Parse PropertyHead := do
  let position ← positionOf (← current)
  let readonly := (← currentIs (.keyword .readonly)) && isPropertyName (← peek)
  if readonly then advance
  let t ← current
  if !isPropertyName t then reject t (.noPropertyName t)
  let optional ← peekIsSymbol .question
  if optional then advance
  return { position, name := t.text, optional, readonly }

/-- An index signature; starts on the opening bracket. -/
def indexSignature (taken : Bool) : Parse IndexSpec := do
  let position ← positionOf (← current)
  advance
  advance
  expect .identifier
  let t ← current
  let key ← match t.text with
    | "string" => pure IndexKey.string
    | "number" => pure IndexKey.number
    | _ => reject t .indexKeyType
  expectSymbol .rightBracket
  expectSymbol .colon
  advance
  let value ← g.type
  if taken then reject (← current) .duplicateIndex
  return .mk position key value

/-- A member of an object type, added to the members before it: a call signature, an index
signature, a property or a method. -/
def objectMember (members : MemberList) : Parse MemberList := do
  let .mk properties index calls := members
  let t ← current
  if t.kind = .symbol .leftParen || t.kind = .symbol .less then
    let s ← signature g .colon
    return .mk properties index (calls ++ [s])
  if t.kind = .symbol .leftBracket && (← peek).kind = .identifier &&
      (← peekAt 2).kind = .symbol .colon then
    let i ← indexSignature g index.isSome
    return .mk properties (some i) calls
  let head ← propertyHead
  let type ←
    if ← peekIsSymbol .colon then
      advance
      advance
      g.type
    else if (← peekIsSymbol .leftParen) || (← peekIsSymbol .less) then
      advance
      pure (TypeExpr.function (← signature g .colon))
    else rejectNext (.symbol .colon)
  let property := .mk head.position head.name type head.optional head.readonly
  return .mk (properties ++ [property]) index calls

/-- An object type; starts on the opening brace. -/
def objectType : Parse TypeExpr := do
  let position ← positionOf (← current)
  let members ← loop (default : MemberList) fun members => do
    if ← peekIsSymbol .rightBrace then return .inr members
    advance
    let members ← objectMember g members
    if (← peekIsSymbol .semicolon) || (← peekIsSymbol .comma) then advance
    else if !(← peekIsSymbol .rightBrace) then rejectNext (.symbol .semicolon)
    return .inl members
  advance
  return .object position members

/-- A type without operators. -/
def primaryType : Parse TypeExpr := do
  let t ← current
  let position ← positionOf t
  match t.kind with
  | .identifier =>
    let name ← dottedName t.text
    if ← peekIsSymbol .less then
      advance
      return .reference position name (← typeArguments g)
    else return .reference position name []
  | .keyword .null | .keyword .undefined => return .reference position t.text []
  | .string => return .literal position (.string t.text)
  | .keyword .true => return .literal position (.boolean true)
  | .keyword .false => return .literal position (.boolean false)
  | .bigint => return .literal position (.bigint t.text)
  | .number => return .literal position (.number (← numberValue))
  | .symbol .minus =>
    expect .number
    return .literal position (.number (← numberValue).neg)
  | .symbol .leftBrace => objectType g
  | .symbol .leftBracket => tupleType g
  | .symbol .leftParen =>
    advance
    let inner ← g.type
    expectSymbol .rightParen
    return inner
  | _ => reject t (.noType t)

/-- A primary type followed by pairs of brackets. -/
def arraySuffix : Parse TypeExpr := do
  let position ← positionOf (← current)
  let first ← primaryType g
  loop first fun t => do
    if (← peekIsSymbol .leftBracket) && (← peekAt 2).kind = .symbol .rightBracket then
      advance
      advance
      return .inl (.array position t false)
    else return .inr t

/-- An array type, a tuple type or a primary type; readonly marks may precede the first two. -/
def postfixType : Nat → Parse TypeExpr
  | 0 => outOfSteps
  | n + 1 => do
    let start ← current
    if start.kind = .keyword .readonly then
      advance
      match ← postfixType n with
      | .array p element _ => return .array p element true
      | .tuple p slots rest _ => return .tuple p slots rest true
      | _ => reject start .readonlyModifier
    else arraySuffix g

/-- Members separated by a symbol, of which there is at least one. -/
def separated (s : Symbol) (member : Parse TypeExpr) : Parse (List TypeExpr) := do
  let first ← member
  loop [first] fun done => do
    if ← peekIsSymbol s then
      advance
      advance
      return .inl ((← member) :: done)
    else return .inr done.reverse

/-- An intersection of postfix types; a single one stands for itself. -/
def intersectionType : Parse TypeExpr := do
  let position ← positionOf (← current)
  let depth := (← get).tokens.size + 1
  match ← separated .ampersand (postfixType g depth) with
  | [t] => return t
  | members => return .intersection position members

/-- A type: a function type, or a union of intersections with an optional leading bar. -/
def typeRule : Parse TypeExpr := do
  if ← currentIsSymbol .less then functionType g
  else if (← currentIsSymbol .leftParen) && (← parenFollowedBy [.symbol .arrow]) then functionType g
  else
    let position ← positionOf (← current)
    if ← currentIsSymbol .pipe then advance
    match ← separated .pipe (intersectionType g) with
    | [t] => return t
    | members => return .union position members

end ShapeCheck.Snippet
