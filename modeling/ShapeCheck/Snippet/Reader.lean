import ShapeCheck.Snippet.Error
import ShapeCheck.Token.Scan
import ShapeCheck.Tree

/-!
# Reading tokens

A snippet is tokenized up front. A reader stands on one of its tokens, looks ahead, moves on and
collects errors. A rule of the grammar is a `Parse`: it may fail, and what it recorded stays. The
reader never moves past the last token, which is the end of the input.
-/

namespace ShapeCheck.Snippet

/-- The tokens of a snippet, the place of the reader and the errors found, newest first. -/
structure Reader where
  /-- The tokens; the last is the end of the input. -/
  tokens : Array Token
  place : Nat := 0
  /-- The position of the first character of the snippet. -/
  base : Position
  errors : List SyntaxError := []

/-- A grammar rule. A failed rule keeps the place and the errors it reached; a rule that runs out of
steps gives nothing at all. -/
abbrev Parse := OptionT (StateT Reader Option)

/-- No result, because the nesting went too deep or a list too long. -/
def outOfSteps {α : Type} : Parse α := OptionT.mk fun _ => none

/-- The end of an empty snippet. -/
def endToken : Token := ⟨.endOfInput, [], 1, 1⟩

/-- The token with the given index; past the end it is the last one. -/
def Reader.tokenAt (r : Reader) (i : Nat) : Token :=
  (r.tokens[min i (r.tokens.size - 1)]?).getD endToken

/-- A reader on the first token of a text. -/
def Reader.ofText (text : String) (base : Position) : Reader :=
  { tokens := (Scan.ofText text).toArray, base }

/-- The position of a token in the file. The first line of the snippet starts at its base; on later
lines the column is the one inside the snippet. -/
def Reader.positionOf (r : Reader) (t : Token) : Position :=
  if t.line = 1 then { r.base with column := r.base.column + t.column - 1 }
  else { line := r.base.line + t.line - 1, column := t.column }

/-- The current token. -/
def current : Parse Token := return (← get).tokenAt (← get).place

/-- The token a number of places ahead. -/
def peekAt (n : Nat) : Parse Token := return (← get).tokenAt ((← get).place + n)

/-- The next token. -/
def peek : Parse Token := peekAt 1

/-- Moves to the next token, but not past the last one. -/
def advance : Parse Unit :=
  modify fun r => if r.place + 1 < r.tokens.size then { r with place := r.place + 1 } else r

/-- Whether the current token is of the kind. -/
def currentIs (k : TokenKind) : Parse Bool := return (← current).kind = k

/-- Whether the next token is of the kind. -/
def peekIs (k : TokenKind) : Parse Bool := return (← peek).kind = k

/-- Whether the current token is the symbol. -/
def currentIsSymbol (s : Symbol) : Parse Bool := currentIs (.symbol s)

/-- Whether the next token is the symbol. -/
def peekIsSymbol (s : Symbol) : Parse Bool := peekIs (.symbol s)

/-- The position of a token. -/
def positionOf (t : Token) : Parse Position := return (← get).positionOf t

/-- The site of a token. -/
def siteOf (t : Token) : Parse Site := return { position := ← positionOf t }

/-- Records a problem at a token. -/
def complain (t : Token) (p : SyntaxProblem) : Parse Unit :=
  modify fun r => { r with errors := ⟨r.positionOf t, p⟩ :: r.errors }

/-- Records a problem at a token and fails. -/
def reject {α : Type} (t : Token) (p : SyntaxProblem) : Parse α := do
  complain t p
  failure

/-- Fails because the next token is of another kind than expected. -/
def rejectNext {α : Type} (wanted : TokenKind) : Parse α := do
  let t ← peek
  reject t (.expected wanted t)

/-- Moves to the next token, which has to be of the kind. -/
def expect (k : TokenKind) : Parse Unit := do
  if ← peekIs k then advance else rejectNext k

/-- Moves to the next token, which has to be the symbol. -/
def expectSymbol (s : Symbol) : Parse Unit := expect (.symbol s)

/-- Records an error unless the snippet ends after the current token. -/
def expectEnd : Parse Unit := do
  let t ← peek
  if t.kind = .endOfInput then pure () else complain t (.unexpected t)

/-- Runs a rule and goes on whether it succeeds or not. -/
def attempt {α : Type} (p : Parse α) : Parse (Option α) := OptionT.lift p.run

/-- Repeats a step that carries a value until it answers with a result. Every step of the grammar's
lists consumes a token, so the number of tokens bounds the rounds. -/
def rounds {σ α : Type} (step : σ → Parse (σ ⊕ α)) : Nat → σ → Parse α
  | 0, _ => outOfSteps
  | n + 1, s => do
    match ← step s with
    | .inl s' => rounds step n s'
    | .inr a => pure a

/-- Repeats a step as often as there are tokens. -/
def loop {σ α : Type} (start : σ) (step : σ → Parse (σ ⊕ α)) : Parse α := do
  rounds step ((← get).tokens.size + 1) start

/-- Whether the parenthesis that opens a list of tokens closes in front of a token of one of the
given kinds. -/
def closesBefore (kinds : List TokenKind) : Nat → List Token → Bool
  | _, [] => false
  | depth, t :: rest =>
    if t.kind = .symbol .leftParen then closesBefore kinds (depth + 1) rest
    else if t.kind = .symbol .rightParen then
      if depth ≤ 1 then
        match rest with
        | next :: _ => kinds.contains next.kind
        | [] => false
      else closesBefore kinds (depth - 1) rest
    else if t.kind = .endOfInput then false
    else closesBefore kinds depth rest

/-- Whether the parenthesized list that opens at the current token is followed by one of the given
kinds. -/
def parenFollowedBy (kinds : List TokenKind) : Parse Bool := do
  let r ← get
  return closesBefore kinds 0 (r.tokens.toList.drop r.place)

/-- Whether a token can name a property. Reserved words can. -/
def isPropertyName (t : Token) : Bool :=
  match t.kind with
  | .identifier | .string | .number | .keyword _ => true
  | _ => false

/-- The binding strength of operators; a greater number binds tighter. -/
def lowest : Nat := 1

/-- The binding strength of a prefix operator's operand. -/
def operandStrength : Nat := 10

/-- The binding strength of a constructor call's callee. -/
def callStrength : Nat := 12

/-- The binding strength of a token as an infix operator. -/
def strength : TokenKind → Nat
  | .symbol .assign => 2
  | .symbol .coalesce => 3
  | .symbol .logicalOr => 4
  | .symbol .logicalAnd => 5
  | .symbol .equal | .symbol .notEqual | .symbol .strictEqual | .symbol .strictNotEqual => 6
  | .symbol .less | .symbol .greater | .symbol .lessEqual | .symbol .greaterEqual => 7
  | .symbol .plus | .symbol .minus => 8
  | .symbol .asterisk | .symbol .slash | .symbol .percent => 9
  | .keyword .as => 11
  | .symbol .leftParen => callStrength
  | .symbol .dot | .symbol .optionalChain | .symbol .leftBracket => 13
  | _ => lowest

/-- The binary operator a symbol stands for. -/
def binaryOp? : Symbol → Option BinaryOp
  | .coalesce => some .coalesce
  | .logicalOr => some .or
  | .logicalAnd => some .and
  | .equal => some .equal
  | .notEqual => some .notEqual
  | .strictEqual => some .strictEqual
  | .strictNotEqual => some .strictNotEqual
  | .less => some .less
  | .greater => some .greater
  | .lessEqual => some .lessEqual
  | .greaterEqual => some .greaterEqual
  | .plus => some .add
  | .minus => some .subtract
  | .asterisk => some .multiply
  | .slash => some .divide
  | .percent => some .remainder
  | _ => none

/-- The two rules that every other rule refers to. They call each other, so each level of the
grammar takes them from the level below. -/
structure Grammar where
  /-- An expression whose operators bind tighter than the given strength. -/
  expression : Nat → Parse Expr
  type : Parse TypeExpr

end ShapeCheck.Snippet
