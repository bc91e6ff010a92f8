import ShapeCheck.Yaml.Node

/-!
# YAML tokens

The words of a YAML text: indicators, scalars, and the beginnings and ends of block collections that
indentation implies. `Scanner` is the state in which a text is cut into tokens.
-/

namespace ShapeCheck.Yaml

/-- The kind of a token. -/
inductive TokenKind where
  | streamStart
  | streamEnd
  | version (major minor : Nat)
  | tagDirective (handle replacement : String)
  | documentStart
  | documentEnd
  | blockSequenceStart
  | blockMappingStart
  | blockEnd
  | flowSequenceStart
  | flowSequenceEnd
  | flowMappingStart
  | flowMappingEnd
  | blockEntry
  | flowEntry
  | key
  | value
  | alias (name : String)
  | anchor (name : String)
  | tag (handle suffix : String)
  | scalar (text : String) (style : Style)
  deriving DecidableEq, Inhabited

/-- A token with the places where it starts and ends. -/
structure Token where
  kind : TokenKind
  start : Mark
  stop : Mark
  deriving Inhabited

/-- A token that turns out to be a mapping key if a colon follows it on its line. -/
structure SimpleKey where
  required : Bool
  token : Nat
  mark : Mark

/-- A text being cut into tokens. -/
structure Scanner where
  rest : List Char
  mark : Mark := {}
  flow : Nat := 0
  /-- The column of the innermost block collection; `-1` outside. -/
  indent : Int := -1
  indents : List Int := []
  keyAllowed : Bool := true
  /-- The possible simple key of each open flow level, innermost first. -/
  keys : List (Option SimpleKey) := [none]
  tokens : List Token := []
  count : Nat := 0

/-- A step of scanning. What was read before an error stays. -/
abbrev Scan := ExceptT Error (StateM Scanner)

/-- Whether the character ends a line. -/
def isBreak (c : Char) : Bool :=
  c = '\n' || c = '\r' || c = '\u0085' || c = '\u2028' || c = '\u2029'

/-- Spaces and tabs. -/
def isBlank (c : Char) : Bool := c = ' ' || c = '\t'

/-- Whether a blank, a line break or the end stands at the front. -/
def startsGap : List Char → Bool
  | [] => true
  | c :: _ => isBlank c || isBreak c

/-- Whether a line break or the end stands at the front. -/
def startsBreak : List Char → Bool
  | [] => true
  | c :: _ => isBreak c

/-- Whether the text goes on with the three characters of a document marker and a gap. -/
def startsMarker (c : Char) : List Char → Bool
  | a :: b :: d :: rest => a = c && b = c && d = c && startsGap rest
  | _ => false

/-- Whether a document marker stands at the front of a line. -/
def Scanner.atMarker (s : Scanner) : Bool :=
  s.mark.column = 0 && (startsMarker '-' s.rest || startsMarker '.' s.rest)

/-- Moves past one character. -/
def Scanner.skip (s : Scanner) : Scanner :=
  { s with rest := s.rest.tail,
           mark := { s.mark with index := s.mark.index + 1, column := s.mark.column + 1 } }

/-- Moves past a number of characters. -/
def Scanner.skipMany (s : Scanner) : Nat → Scanner
  | 0 => s
  | n + 1 => s.skip.skipMany n

/-- Moves past a line break, if one stands here, and gives the text it stands for. -/
def Scanner.takeLine (s : Scanner) : List Char × Scanner :=
  let past (n : Nat) (rest : List Char) : Scanner :=
    { s with rest, mark := { index := s.mark.index + n, line := s.mark.line + 1, column := 0 } }
  match s.rest with
  | '\r' :: '\n' :: rest => (['\n'], past 2 rest)
  | c :: rest =>
    if c = '\u2028' || c = '\u2029' then ([c], past 1 rest)
    else if isBreak c then (['\n'], past 1 rest)
    else ([], s)
  | [] => ([], s)

/-- Moves past the characters that satisfy a predicate and gives them. -/
def Scanner.takeWhile (s : Scanner) (p : Char → Bool) : List Char × Scanner :=
  let taken := s.rest.takeWhile p
  let n := taken.length
  (taken, { s with rest := s.rest.drop n,
                   mark := { s.mark with index := s.mark.index + n, column := s.mark.column + n } })

/-- The line a scanning message names: the one of its context if that is not the first, the current
one otherwise; the first line is never named. -/
def Scanner.errorLine (s : Scanner) (context : Mark) : Nat :=
  if context.line ≠ 0 then context.line + 1
  else if s.mark.line ≠ 0 then s.mark.line + 1
  else 0

/-- Stops with an error. -/
def fail {α : Type} (context : Mark) (problem : String) : Scan α := do
  throw { line := (← get).errorLine context, problem }

/-- Appends a token. -/
def emit (kind : TokenKind) (start stop : Mark) : Scan Unit :=
  modify fun s => { s with tokens := ⟨kind, start, stop⟩ :: s.tokens, count := s.count + 1 }

/-- Inserts a token in front of the token with the given number. -/
def insertToken (number : Nat) (kind : TokenKind) (mark : Mark) : Scan Unit :=
  modify fun s =>
    let after := s.count - number
    { s with tokens := s.tokens.take after ++ ⟨kind, mark, mark⟩ :: s.tokens.drop after,
             count := s.count + 1 }

/-- Runs a scanner function that gives a value. -/
def run {α : Type} (f : Scanner → α × Scanner) : Scan α := modifyGet f

/-- Moves past a number of characters. -/
def skipMany (n : Nat) : Scan Unit := modify (·.skipMany n)

end ShapeCheck.Yaml
