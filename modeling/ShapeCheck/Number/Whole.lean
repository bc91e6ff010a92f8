import ShapeCheck.Number.Decimal

/-!
# Whole numbers

Whole numbers of 64 bits as they are written on a command line or in settings: a sign, a mark for
the base, and digits that underscores may separate.

* `Whole.read` reads a number with a sign, `Whole.readUnsigned` one without.
-/

namespace ShapeCheck.Whole

open Decimal (ReadError)

/-- The value of a digit in any base up to 36. -/
def digit? (c : Char) : Option Nat :=
  let l := c.toLower
  if c.isDigit then some (c.toNat - '0'.toNat)
  else if 'a' ≤ l ∧ l ≤ 'z' then some (l.toNat - 'a'.toNat + 10)
  else none

/-- The base of a number, and its digits. A zero in front marks base eight, the letters `b`, `o` and
`x` after it base two, eight and sixteen when digits follow them. -/
def splitBase : List Char → Nat × List Char
  | '0' :: m :: d :: ds =>
    match m.toLower with
    | 'b' => (2, d :: ds)
    | 'o' => (8, d :: ds)
    | 'x' => (16, d :: ds)
    | _ => (8, m :: d :: ds)
  | '0' :: ds => (8, ds)
  | ds => (10, ds)

/-- Reads digits in a base, underscores skipped. The first fault counts: a character that is no
digit, or a value that takes more than 64 bits. -/
def readDigits (base n : Nat) : List Char → Except ReadError Nat
  | [] => .ok n
  | '_' :: cs => readDigits base n cs
  | c :: cs =>
    match digit? c with
    | none => .error .malformed
    | some d =>
      if base ≤ d then .error .malformed
      else if Word.size ≤ base * n + d then .error .outOfRange
      else readDigits base (base * n + d) cs

/-- Whether each underscore follows a digit or the mark of the base and comes before a digit;
`separable` says whether an underscore may come next. -/
def underscoresSeparate (hex separable pending : Bool) : List Char → Bool
  | [] => !pending
  | '_' :: cs => separable && underscoresSeparate hex false true cs
  | c :: cs =>
    if c.isDigit || (hex && (Decimal.hexDigit? c).isSome) then underscoresSeparate hex true false cs
    else !pending && underscoresSeparate hex false false cs

/-- Whether the underscores of a number without its sign separate digits. -/
def underscoresFit : List Char → Bool
  | '0' :: m :: cs =>
    if ['b', 'o', 'x'].contains m.toLower then
      underscoresSeparate (m.toLower = 'x') true false cs
    else underscoresSeparate false false false ('0' :: m :: cs)
  | cs => underscoresSeparate false false false cs

/-- The magnitude of a number without its sign. -/
def magnitude (cs : List Char) : Except ReadError Nat :=
  if cs.isEmpty then .error .malformed
  else
    let (base, digits) := splitBase cs
    match readDigits base 0 digits with
    | .ok n => if cs.contains '_' && !underscoresFit cs then .error .malformed else .ok n
    | .error e => .error e

/-- Reads a number without a sign. -/
def readUnsigned (text : String) : Except ReadError Nat := magnitude text.toList

/-- Reads a number with an optional sign. -/
def read (text : String) : Except ReadError Int := do
  let (negative, cs) := Decimal.splitSign text.toList
  let n ← magnitude cs
  if n < Word.half ∨ (negative ∧ n = Word.half) then return if negative then -(n : Int) else n
  else throw .outOfRange

/-- The whole part of a double as a word of 64 bits holds it; what does not fit is the least number
of all. -/
def ofBinary64 : Binary64 → Int
  | .finite negative m e =>
    let (num, den) := Binary64.magnitude m e
    let n := num / den
    if n < Word.half then if negative then -(n : Int) else n else -Word.half
  | _ => -Word.half

end ShapeCheck.Whole
