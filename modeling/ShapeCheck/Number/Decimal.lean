import ShapeCheck.Number.Binary64

/-!
# Numbers as text

Reading takes the decimal and hexadecimal spellings of a double and rounds once. Writing finds the
fewest significant digits that read back as the same double and lays them out: positional notation
for decimal exponents from `-4` to `5`, an exponent of at least two digits otherwise.

* `Decimal.shortest` is the digit string of a finite double.
* `Binary64.text` is the printed form.
* `Decimal.read?` reads a spelling and tells a malformed one from one that is out of range.
-/

namespace ShapeCheck

namespace Decimal

/-- `digits * 10 ^ exponent` rounded to the nearest double. Exponents far outside the range of
doubles are settled without forming the power. -/
def toBinary64 (negative : Bool) (digits : Nat) (exponent : Int) : Binary64 :=
  let size : Int := (Nat.toDigits 10 digits).length
  if digits = 0 then .signedZero negative
  else if 400 < size + exponent then .infinite negative
  else if size + exponent < -400 then .signedZero negative
  else if 0 ≤ exponent then .ofRatio negative (digits * Nat.pow 10 exponent.toNat) 1
  else .ofRatio negative digits (Nat.pow 10 (-exponent).toNat)

/-- The quotient `num / den` compared with `10 ^ x`: whether the power is not greater. -/
def powerLe (x : Int) (num den : Nat) : Bool :=
  if 0 ≤ x then decide (den * Nat.pow 10 x.toNat ≤ num)
  else decide (den ≤ num * Nat.pow 10 (-x).toNat)

/-- The decimal exponent of the nonzero quotient `num / den`: the greatest `x` with
`10 ^ x ≤ num / den`. The binary size gives a guess that is off by at most one. -/
def exponentOf (num den : Nat) : Int :=
  let bits : Int := (Nat.log2 num : Int) - (Nat.log2 den : Int)
  let guess := Int.fdiv (bits * 30103) 100000
  if powerLe (guess + 1) num den then guess + 1
  else if powerLe guess num den then guess
  else guess - 1

/-- The open or closed interval of reals that round to one double, over a common denominator. -/
structure Rounding where
  low : Nat
  value : Nat
  high : Nat
  den : Nat
  closed : Bool

/-- The rounding interval of `mantissa * 2 ^ exponent`. Below a power of two the neighbour is half
as far away. -/
def rounding (mantissa : Nat) (exponent : Int) : Rounding :=
  let narrow := mantissa = Binary64.leastFullMantissa && exponent != Binary64.leastExponent
  let (scale, den) := Binary64.magnitude 1 exponent
  { low := (4 * mantissa - (if narrow then 1 else 2)) * scale
    value := 4 * mantissa * scale
    high := (4 * mantissa + 2) * scale
    den := 4 * den
    closed := mantissa % 2 = 0 }

/-- Whether `num / den` lies in the interval. -/
def Rounding.contains (r : Rounding) (num den : Nat) : Bool :=
  let x := num * r.den
  let lo := r.low * den
  let hi := r.high * den
  if r.closed then decide (lo ≤ x) && decide (x ≤ hi) else decide (lo < x) && decide (x < hi)

/-- The best `count` digit decimal in the interval, if there is one: of the two neighbours of the
value on the grid of that many digits, the nearer one that lies in the interval. The result is a
digit string as a number and the power of ten of its last digit. -/
def onGrid (r : Rounding) (x : Int) (count : Nat) : Option (Nat × Int) :=
  let unit := x - (count : Int) + 1
  let (num, den) := if 0 ≤ unit then (r.value, r.den * Nat.pow 10 unit.toNat)
    else (r.value * Nat.pow 10 (-unit).toNat, r.den)
  let down := num / den
  let left := num % den
  let asRatio (k : Nat) : Nat × Nat :=
    if 0 ≤ unit then (k * Nat.pow 10 unit.toNat, 1) else (k, Nat.pow 10 (-unit).toNat)
  let fits (k : Nat) : Bool := let (n, d) := asRatio k; 0 < k && r.contains n d
  let up := down + 1
  let nearer := if 2 * left < den then down
    else if den < 2 * left then up
    else if down % 2 = 0 then down else up
  let other := if nearer = down then up else down
  if left = 0 && fits down then some (down, unit)
  else if fits nearer then some (nearer, unit)
  else if fits other then some (other, unit)
  else none

/-- A digit string with the power of ten of its first digit; trailing zeros removed. -/
structure Digits where
  digits : List Char
  exponent : Int

/-- Removes the trailing zeros of a digit string. -/
def trimZeros (ds : List Char) : List Char :=
  (ds.reverse.dropWhile (· = '0')).reverse

/-- The digits of `k * 10 ^ unit`. -/
def Digits.ofScaled (k : Nat) (unit : Int) : Digits :=
  let ds := Nat.toDigits 10 k
  { digits := trimZeros ds, exponent := unit + ds.length - 1 }

/-- The fewest digits that read back as the nonzero double `mantissa * 2 ^ exponent`. Seventeen are
always enough. -/
def shortest (mantissa : Nat) (exponent : Int) : Digits :=
  let (num, den) := Binary64.magnitude mantissa exponent
  let x := exponentOf num den
  let r := rounding mantissa exponent
  let found := (List.range 17).findSome? fun n => onGrid r x (n + 1)
  match found with
  | some (k, unit) => .ofScaled k unit
  | none => .ofScaled num 0

/-- An exponent mark with its sign and at least two digits. -/
def exponentMark (x : Int) : String :=
  let digits := toString x.natAbs
  let padded := if digits.length < 2 then "0" ++ digits else digits
  (if x < 0 then "e-" else "e+") ++ padded

/-- Lays digits out in positional notation. -/
def Digits.positional (d : Digits) : String :=
  let x := d.exponent
  if x < 0 then
    "0." ++ String.ofList (List.replicate (-x - 1).toNat '0' ++ d.digits)
  else
    let whole := x.toNat + 1
    let front := d.digits.take whole ++ List.replicate (whole - d.digits.length) '0'
    match d.digits.drop whole with
    | [] => String.ofList front
    | fraction => String.ofList (front ++ '.' :: fraction)

/-- Lays digits out: positional notation for exponents `-4` to `5`, scientific otherwise. -/
def Digits.layout (d : Digits) : String :=
  let x := d.exponent
  if x < -4 ∨ 6 ≤ x then
    match d.digits with
    | [] => "0"
    | [c] => String.singleton c ++ exponentMark x
    | c :: rest => String.ofList (c :: '.' :: rest) ++ exponentMark x
  else d.positional

end Decimal

/-- The printed form of a double. -/
def Binary64.text : Binary64 → String
  | .nan => "NaN"
  | .infinite false => "+Inf"
  | .infinite true => "-Inf"
  | .finite negative 0 _ => if negative then "-0" else "0"
  | .finite negative m e =>
    (if negative then "-" else "") ++ (Decimal.shortest m e).layout

/-- A double in positional notation. -/
def Binary64.positional : Binary64 → String
  | .finite negative m e =>
    if m = 0 then (Binary64.finite negative m e).text
    else (if negative then "-" else "") ++ (Decimal.shortest m e).positional
  | x => x.text

namespace Decimal

/-- Why a spelling is not a number. -/
inductive ReadError where
  | malformed
  | outOfRange
  deriving DecidableEq, Repr

/-- The value of a hexadecimal digit. -/
def hexDigit? (c : Char) : Option Nat :=
  if '0' ≤ c ∧ c ≤ '9' then some (c.toNat - '0'.toNat)
  else if 'a' ≤ c ∧ c ≤ 'f' then some (c.toNat - 'a'.toNat + 10)
  else if 'A' ≤ c ∧ c ≤ 'F' then some (c.toNat - 'A'.toNat + 10)
  else none

/-- The value of a digit in base ten or sixteen. -/
def digit? (hex : Bool) (c : Char) : Option Nat :=
  if hex then hexDigit? c
  else if '0' ≤ c ∧ c ≤ '9' then some (c.toNat - '0'.toNat)
  else none

/-- What has been read of a mantissa. -/
structure Mantissa where
  value : Nat := 0
  fraction : Nat := 0
  sawDigit : Bool := false
  sawPoint : Bool := false

/-- Reads the mantissa: digits, underscores and at most one point. -/
def readMantissa (hex : Bool) (acc : Mantissa) : List Char → Mantissa × List Char
  | [] => (acc, [])
  | c :: rest =>
    if c = '_' then readMantissa hex acc rest
    else if c = '.' then
      if acc.sawPoint then (acc, c :: rest)
      else readMantissa hex { acc with sawPoint := true } rest
    else match digit? hex c with
      | some d =>
        readMantissa hex
          { value := acc.value * (if hex then 16 else 10) + d
            fraction := if acc.sawPoint then acc.fraction + 1 else acc.fraction
            sawDigit := true
            sawPoint := acc.sawPoint } rest
      | none => (acc, c :: rest)

/-- Reads exponent digits and underscores; digits past ten thousand no longer count. -/
def readExponent (acc : Nat) : List Char → Nat × List Char
  | [] => (acc, [])
  | c :: rest =>
    if c = '_' then readExponent acc rest
    else match digit? false c with
      | some d => readExponent (if acc < 10000 then acc * 10 + d else acc) rest
      | none => (acc, c :: rest)

/-- What stood before the current character of a spelling, as far as underscores care. -/
inductive Separated where
  | start
  | digit
  | underscore
  | other
  deriving DecidableEq

/-- An underscore stands between two digits, or between the base mark and a digit. -/
def underscoresSeparate (hex : Bool) : Separated → List Char → Bool
  | saw, [] => saw != .underscore
  | saw, c :: rest =>
    if (digit? hex c).isSome then underscoresSeparate hex .digit rest
    else if c = '_' then saw = .digit && underscoresSeparate hex .underscore rest
    else saw != .underscore && underscoresSeparate hex .other rest

/-- Splits a leading sign off. -/
def splitSign : List Char → Bool × List Char
  | '-' :: rest => (true, rest)
  | '+' :: rest => (false, rest)
  | cs => (false, cs)

/-- A signed exponent after its mark, or `none` when no digit follows. -/
def exponentAfter (cs : List Char) : Option (Int × List Char) :=
  let (negative, body) := splitSign cs
  match body with
  | c :: _ =>
    if (digit? false c).isSome then
      let (n, rest) := readExponent 0 body
      some (if negative then -(n : Int) else n, rest)
    else none
  | [] => none

/-- Reads an unsigned number in base ten or sixteen; all of the text has to be used. -/
def readUnsigned (negative hex : Bool) (cs : List Char) : Except ReadError Binary64 :=
  let (m, rest) := readMantissa hex {} cs
  let marked (c : Char) : Bool := if hex then c = 'p' || c = 'P' else c = 'e' || c = 'E'
  let before : Separated := if hex then .digit else .start
  if !m.sawDigit || !underscoresSeparate hex before cs then .error .malformed
  else
    let exponent : Option Int := match rest with
      | [] => if hex then none else some 0
      | c :: tail =>
        if marked c then
          match exponentAfter tail with
          | some (x, []) => some x
          | _ => none
        else none
    match exponent with
    | none => .error .malformed
    | some x =>
      let value :=
        if hex then
          let (n, d) := Binary64.magnitude m.value (max (min (x - 4 * m.fraction) 5000) (-100000))
          Binary64.ofRatio negative n d
        else toBinary64 negative m.value (x - m.fraction)
      match value with
      | .infinite _ => .error .outOfRange
      | v => .ok v

/-- Reads a double: a sign, then `inf`, `infinity` or `nan` in any case, a hexadecimal number with a
binary exponent, or a decimal number. -/
def read? (text : String) : Except ReadError Binary64 :=
  let all := text.toList
  let (negative, cs) := splitSign all
  let lower := String.ofList (cs.map Char.toLower)
  if lower = "inf" ∨ lower = "infinity" then .ok (.infinite negative)
  else if lower = "nan" ∧ cs.length = all.length then .ok .nan
  else match cs with
    | '0' :: x :: rest =>
      if x = 'x' || x = 'X' then readUnsigned negative true rest
      else readUnsigned negative false cs
    | _ => readUnsigned negative false cs

/-- Whether a name spells a number, so that it counts as a numeric key. -/
def isNumeric (text : String) : Bool :=
  match read? text with
  | .ok _ => true
  | .error _ => false

/-- The integer that a text spells: an optional sign and at least one decimal digit. -/
def whole? (text : String) : Option Int :=
  let (negative, digits) := splitSign text.toList
  if digits.isEmpty || !digits.all Char.isDigit then none
  else
    let n : Int := digits.foldl (fun acc c => 10 * acc + (c.toNat - '0'.toNat)) 0
    some (if negative then -n else n)

/-- Reads a signed machine integer of 64 bits. -/
def integer? (text : String) : Option Int :=
  (whole? text).filter Word.holds

end Decimal

end ShapeCheck
