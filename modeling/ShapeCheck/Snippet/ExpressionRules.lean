import ShapeCheck.Snippet.TypeRules

/-!
# Rules for expressions

An expression is an operand followed by infix operators, as long as they bind tighter than the
context asks for. A less-than sign may open the type arguments of a call; if no call follows, the
reader goes back and takes it for a comparison.
-/

namespace ShapeCheck.Snippet

variable (g : Grammar)

/-- The body of an arrow function; starts on the arrow. -/
def arrowBody (site : Site) (typeParams : List TypeParam) (params : List Param)
    (rest : Option Param) (result : Option TypeExpr) : Parse Expr := do
  let t ← peek
  if t.kind = .symbol .leftBrace then reject t .inlineBlock
  advance
  let body ← g.expression lowest
  return .function site (.mk site.position typeParams params rest none result) body

/-- The result type and the body of an arrow function; starts on the closing parenthesis. -/
def arrowTail (site : Site) (typeParams : List TypeParam) (params : List Param)
    (rest : Option Param) : Parse Expr := do
  let result ←
    if ← peekIsSymbol .colon then
      advance
      advance
      attempt g.type
    else pure none
  expectSymbol .arrow
  arrowBody g site typeParams params rest result

/-- An arrow function from its parameter list on. -/
def arrowFunction (site : Site) (typeParams : List TypeParam) : Parse Expr := do
  let (params, rest) := (← attempt (parameterList g)).getD ([], none)
  arrowTail g site typeParams params rest

/-- Expressions separated by commas up to the closing symbol; starts on the opening one. An element
that fails has recorded its error and the list goes on. -/
def expressionList (close : Symbol) : Parse (List Expr) := do
  if ← peekIsSymbol close then
    advance
    return []
  advance
  let first ← attempt (g.expression lowest)
  let elements ← loop first.toList fun done => do
    if ← peekIsSymbol .comma then
      advance
      if ← peekIsSymbol close then return .inr done
      advance
      let e ← attempt (g.expression lowest)
      return .inl (e.toList ++ done)
    else return .inr done
  expectSymbol close
  return elements.reverse

/-- One entry of an object literal. A name alone stands for itself. -/
def property : Parse Property := do
  let t ← current
  if !isPropertyName t then reject t (.noPropertyName t)
  let position ← positionOf t
  if ← peekIsSymbol .colon then
    advance
    advance
    return .mk position t.text (← g.expression lowest)
  else if t.kind = .identifier then
    return .mk position t.text (.identifier { position } t.text)
  else rejectNext (.symbol .colon)

/-- An object literal; starts on the opening brace. -/
def objectLiteral : Parse Expr := do
  let site ← siteOf (← current)
  let properties ← loop ([] : List Property) fun done => do
    if ← peekIsSymbol .rightBrace then return .inr done.reverse
    advance
    let p ← property g
    if !(← peekIsSymbol .rightBrace) then expectSymbol .comma
    return .inl (p :: done)
  advance
  return .object site properties

/-- A constructor call; starts on `new`. -/
def construction : Parse Expr := do
  let site ← siteOf (← current)
  advance
  let callee ← g.expression callStrength
  let typeArgs ←
    if ← peekIsSymbol .less then
      advance
      pure ((← attempt (typeArguments g)).getD [])
    else pure []
  let args ←
    if ← peekIsSymbol .leftParen then
      advance
      pure ((← attempt (expressionList g .rightParen)).getD [])
    else pure []
  return .construct site callee typeArgs args

/-- A parenthesized expression or an arrow function; starts on the opening parenthesis. -/
def grouped : Parse Expr := do
  if ← parenFollowedBy [.symbol .arrow, .symbol .colon] then
    arrowFunction g (← siteOf (← current)) []
  else
    advance
    let e ← attempt (g.expression lowest)
    expectSymbol .rightParen
    e.elim failure pure

/-- An arrow function with type parameters; starts on the opening angle bracket. -/
def genericArrow : Parse Expr := do
  let site ← siteOf (← current)
  let typeParams := (← attempt (typeParameters g)).getD []
  expectSymbol .leftParen
  arrowFunction g site typeParams

/-- A name, or an arrow function with one bare parameter. -/
def nameOrArrow : Parse Expr := do
  let t ← current
  let site ← siteOf t
  if ← peekIsSymbol .arrow then
    advance
    arrowBody g site [] [.mk site.position t.text none false none] none none
  else return .identifier site t.text

/-- The operand at the current token, prefix operators included. -/
def operand : Parse Expr := do
  let t ← current
  let site ← siteOf t
  match t.kind with
  | .identifier => nameOrArrow g
  | .number => return .number site (← numberValue)
  | .bigint => return .bigint site t.text
  | .string => return .string site t.text
  | .keyword .true => return .boolean site true
  | .keyword .false => return .boolean site false
  | .keyword .null => return .null site
  | .keyword .undefined => return .undefined site
  | .keyword .this => return .this site
  | .symbol .bang =>
    advance
    return .unary site .not (← g.expression operandStrength)
  | .symbol .minus =>
    advance
    return .unary site .negate (← g.expression operandStrength)
  | .keyword .typeof =>
    advance
    return .typeof site (← g.expression operandStrength)
  | .symbol .leftParen => grouped g
  | .symbol .less => genericArrow g
  | .symbol .leftBracket =>
    return .array site ((← attempt (expressionList g .rightBracket)).getD [])
  | .symbol .leftBrace => objectLiteral g
  | .keyword .new => construction g
  | _ => reject t (.noOperand t)

/-- Tries to read type arguments and a call after `left`; starts on the opening angle bracket. If no
call follows, the reader is back where it was, with the errors it had. -/
def genericCall? (left : Expr) : Parse (Option Expr) := do
  let saved ← get
  match ← attempt (typeArguments g) with
  | some typeArgs =>
    if (← get).errors.length = saved.errors.length && (← peekIsSymbol .leftParen) then
      advance
      let args := (← attempt (expressionList g .rightParen)).getD []
      return some (.call left.site left typeArgs args)
    else
      set saved
      return none
  | none =>
    set saved
    return none

/-- The right operand of a binary operator. -/
def binaryRight (left : Expr) (t : Token) (op : BinaryOp) : Parse Expr := do
  advance
  let right ← g.expression (strength t.kind)
  return .binary (← siteOf t) left op right

/-- A member access; starts on the point. -/
def memberAccess (object : Expr) (optional : Bool) : Parse Expr := do
  advance
  let t ← current
  if !isPropertyName t || t.kind = .string || t.kind = .number then reject t (.noPropertyAfterDot t)
  return .member (← siteOf t) object t.text optional

/-- What the infix operator at the current token makes of the expression to its left. -/
def infixStep (left : Expr) : Parse Expr := do
  let t ← current
  match t.kind with
  | .symbol .assign =>
    advance
    let value ← g.expression lowest
    return .assign (← siteOf t) left value
  | .keyword .as =>
    advance
    let type ← g.type
    return .assertion (← siteOf t) left type
  | .symbol .leftParen => return .call left.site left [] (← expressionList g .rightParen)
  | .symbol .dot => memberAccess left false
  | .symbol .optionalChain => memberAccess left true
  | .symbol .leftBracket =>
    advance
    let key ← g.expression lowest
    expectSymbol .rightBracket
    return .index (← siteOf t) left key
  | .symbol s =>
    match binaryOp? s with
    | none => failure
    | some op =>
      if s = .less then
        match ← genericCall? g left with
        | some call => return call
        | none => binaryRight g left t op
      else binaryRight g left t op
  | _ => failure

/-- An expression whose infix operators bind tighter than `least`. -/
def expressionRule (least : Nat) : Parse Expr := do
  let first ← operand g
  loop first fun left => do
    if least < strength (← peek).kind then
      advance
      return .inl (← infixStep g left)
    else return .inr left

end ShapeCheck.Snippet
