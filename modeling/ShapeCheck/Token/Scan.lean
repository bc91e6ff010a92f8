import ShapeCheck.Token

/-!
# Scanning

A snippet is scanned byte by byte into tokens. `lexeme` reads the word at the front of the bytes and
says how many bytes it takes; it knows nothing of positions. `Cursor` carries the line and the
column along, and `tokens` repeats the two until the end of the input. A zero byte ends the input.
-/

namespace ShapeCheck.Scan

/-- The blank bytes between words. -/
def isBlank (b : UInt8) : Bool := b = 0x20 || b = 0x09 || b = 0x0a || b = 0x0d

/-- Decimal digits. -/
def isDigit (b : UInt8) : Bool := decide (0x30 ≤ b) && decide (b ≤ 0x39)

/-- Letters and the underscore. -/
def isLetter (b : UInt8) : Bool :=
  decide (0x61 ≤ b) && decide (b ≤ 0x7a) || decide (0x41 ≤ b) && decide (b ≤ 0x5a) || b = 0x5f

/-- The bytes that start an identifier. -/
def startsName (b : UInt8) : Bool := isLetter b || b = 0x24

/-- The bytes that continue an identifier. -/
def continuesName (b : UInt8) : Bool := isLetter b || isDigit b || b = 0x24

/-- A word at the front of the input: its kind, its literal and how many bytes it takes. -/
structure Lexeme where
  kind : TokenKind
  literal : List UInt8
  size : Nat

/-- A run of digits with single underscores between them: the digits and the length of the run. -/
def digits : List UInt8 → List UInt8 × Nat
  | [] => ([], 0)
  | b :: rest =>
    if isDigit b then
      let (ds, n) := digits rest
      (b :: ds, n + 1)
    else if b = 0x5f then
      match rest with
      | c :: _ =>
        if isDigit c then
          let (ds, n) := digits rest
          (ds, n + 1)
        else ([], 0)
      | [] => ([], 0)
    else ([], 0)

/-- A fraction: a point followed by at least one digit. -/
def fraction : List UInt8 → List UInt8 × Nat
  | 0x2e :: b :: rest =>
    if isDigit b then
      let (ds, n) := digits (b :: rest)
      (0x2e :: ds, n + 1)
    else ([], 0)
  | _ => ([], 0)

/-- An exponent: the mark, a sign or a digit, and the digits that follow. The mark is kept in lower
case. -/
def exponent : List UInt8 → List UInt8 × Nat
  | e :: b :: rest =>
    if e = 0x65 || e = 0x45 then
      if b = 0x2b || b = 0x2d then
        let (ds, n) := digits rest
        (0x65 :: b :: ds, n + 2)
      else if isDigit b then
        let (ds, n) := digits (b :: rest)
        (0x65 :: ds, n + 1)
      else ([], 0)
    else ([], 0)
  | _ => ([], 0)

/-- A number: digits, an optional fraction and an optional exponent; a final `n` makes it a bigint.
-/
def number (bytes : List UInt8) : Lexeme :=
  let (whole, n1) := digits bytes
  let (frac, n2) := fraction (bytes.drop n1)
  let (exp, n3) := exponent (bytes.drop (n1 + n2))
  let size := n1 + n2 + n3
  let literal := whole ++ frac ++ exp
  match bytes.drop size with
  | 0x6e :: _ => ⟨.bigint, literal, size + 1⟩
  | _ => ⟨.number, literal, size⟩

/-- The byte that an escape stands for. -/
def unescape? (b : UInt8) : Option UInt8 :=
  if b = 0x6e then some 0x0a
  else if b = 0x74 then some 0x09
  else if b = 0x72 then some 0x0d
  else if b = 0x5c || b = 0x22 || b = 0x27 then some b
  else none

/-- The inside of a string up to its closing quote: the decoded bytes, or nothing when the string
does not end on its line or has an unknown escape; and the number of bytes read. A failed string
stops in front of the byte at fault. -/
def stringBody (quote : UInt8) : List UInt8 → Option (List UInt8) × Nat
  | [] => (none, 0)
  | b :: rest =>
    if b = quote then (some [], 1)
    else if b = 0x0a || b = 0x0d then (none, 0)
    else if b = 0x5c then
      match rest with
      | [] => (none, 1)
      | c :: rest' =>
        match unescape? c with
        | none => (none, 1)
        | some d =>
          let (body, n) := stringBody quote rest'
          (body.map (d :: ·), n + 2)
    else
      let (body, n) := stringBody quote rest
      (body.map (b :: ·), n + 1)

/-- The reserved word with the given spelling. -/
def keyword? (literal : List UInt8) : Option Keyword :=
  Keyword.all.find? fun k => utf8Bytes k.text = literal

/-- An identifier or a reserved word. -/
def name (bytes : List UInt8) : Lexeme :=
  let literal := bytes.takeWhile continuesName
  match keyword? literal with
  | some k => ⟨.keyword k, literal, literal.length⟩
  | none => ⟨.identifier, literal, literal.length⟩

/-- Whether the symbol stands at the front. A question mark and a point in front of a digit are a
conditional with a decimal and no optional access. -/
def symbolAt (bytes : List UInt8) (s : Symbol) : Bool :=
  (utf8Bytes s.text).isPrefixOf bytes &&
    !(s = .optionalChain && (match bytes.drop 2 with
      | b :: _ => isDigit b
      | [] => false))

/-- The UTF-8 form of the character with the code of a byte. -/
def byteAsText (b : UInt8) : List UInt8 := utf8Bytes (String.singleton (Char.ofNat b.toNat))

/-- The literal of a string that is cut off. -/
def invalidString : List UInt8 := utf8Bytes "invalid string literal"

/-- The word at the front of input that does not start with a blank. -/
def lexeme : List UInt8 → Lexeme
  | [] => ⟨.endOfInput, [], 0⟩
  | b :: rest =>
    if b = 0x22 || b = 0x27 then
      match stringBody b rest with
      | (some literal, n) => ⟨.string, literal, n + 1⟩
      | (none, n) => ⟨.illegal, invalidString, n + 1⟩
    else if startsName b then name (b :: rest)
    else if isDigit b then number (b :: rest)
    else match Symbol.all.find? (symbolAt (b :: rest)) with
      | some s => ⟨.symbol s, utf8Bytes s.text, (utf8Bytes s.text).length⟩
      | none => ⟨.illegal, byteAsText b, 1⟩

/-- A place in the input: the bytes that are left, and the line and column of the first of them. -/
structure Cursor where
  rest : List UInt8
  line : Nat := 1
  column : Nat := 1

/-- Moves past a number of bytes. -/
def Cursor.advance : Nat → Cursor → Cursor
  | 0, c => c
  | n + 1, c =>
    match c.rest with
    | [] => c
    | b :: rest =>
      if b = 0x0a then advance n ⟨rest, c.line + 1, 1⟩
      else advance n ⟨rest, c.line, c.column + 1⟩

/-- Moves past the blanks. -/
def Cursor.skipBlanks (c : Cursor) : Cursor :=
  c.advance (c.rest.takeWhile isBlank).length

/-- The next token and the place after it. -/
def next (c : Cursor) : Token × Cursor :=
  let c := c.skipBlanks
  let l := lexeme c.rest
  (⟨l.kind, l.literal, c.line, c.column⟩, c.advance l.size)

/-- The tokens up to the end of the input, of which there is at most one per byte. -/
def collect : Nat → Cursor → List Token
  | 0, c => [(next c).1]
  | fuel + 1, c =>
    let (t, c') := next c
    if t.kind = .endOfInput then [t] else t :: collect fuel c'

/-- The tokens of a byte string, the end of the input included. -/
def tokens (bytes : List UInt8) : List Token :=
  let input := bytes.takeWhile (· ≠ 0)
  collect input.length ⟨input, 1, 1⟩

/-- The tokens of a text. -/
def ofText (text : String) : List Token := tokens (utf8Bytes text)

end ShapeCheck.Scan
