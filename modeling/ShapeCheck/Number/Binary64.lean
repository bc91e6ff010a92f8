/-!
# Binary floating-point numbers, exactly

A number of the checked language is a double: a sign, a mantissa below `2 ^ 53` and a power of two.
The arithmetic here is exact arithmetic on naturals followed by one rounding step, so that every
result is a value a proof can compute with. No machine floating-point operation is involved.

* `Binary64.ofRatio` rounds a quotient to the nearest double, ties to the even mantissa.
* `Binary64.add`, `sub`, `mul`, `div`, `rem` are the usual operations, each rounded once.
-/

namespace ShapeCheck

/-- A double. A finite value is `± mantissa * 2 ^ exponent`; the functions of this module build only
the normal form in which `exponent` is at least `-1074` and `mantissa` has 53 bits unless the
exponent is the least one, so equal values are equal terms. Zero keeps its sign. -/
inductive Binary64 where
  | nan
  | infinite (negative : Bool)
  | finite (negative : Bool) (mantissa : Nat) (exponent : Int)
  deriving DecidableEq, Repr, Inhabited, Hashable

namespace Binary64

/-- The least exponent of a finite double. -/
def leastExponent : Int := -1074

/-- The greatest exponent of a finite double in normal form. -/
def greatestExponent : Int := 971

/-- The first mantissa that takes more than 53 bits: two to the fifty-third. -/
def mantissaLimit : Nat := 9007199254740992

/-- The least mantissa of 53 bits: two to the fifty-second. -/
def leastFullMantissa : Nat := 4503599627370496

/-- The zero with the given sign. -/
def signedZero (negative : Bool) : Binary64 := .finite negative 0 leastExponent

/-- Positive zero. -/
def zero : Binary64 := signedZero false

/-- `num / den` rounded to the nearest integer, a tie to the even one. -/
def roundQuotient (num den : Nat) : Nat :=
  let q := num / den
  let twice := 2 * (num % den)
  if twice < den then q
  else if den < twice then q + 1
  else if q % 2 = 0 then q else q + 1

/-- The quotient `num / (den * 2 ^ e)` as a pair of naturals. -/
def scaleDown (num den : Nat) (e : Int) : Nat × Nat :=
  if 0 ≤ e then (num, den * Nat.pow 2 e.toNat) else (num * Nat.pow 2 (-e).toNat, den)

/-- The exponent at which the nonzero quotient `num / den` has a 53 bit integer part, but never less
than `leastExponent`. -/
def exponentOf (num den : Nat) : Int :=
  let guess : Int := (Nat.log2 num : Int) - (Nat.log2 den : Int) - 53
  let (n, d) := scaleDown num den guess
  let e := if n / d < mantissaLimit then guess else guess + 1
  max e leastExponent

/-- The double nearest to `num / den`, with the given sign; a tie goes to the even mantissa and a
value beyond the greatest finite double becomes infinite. -/
def ofRatio (negative : Bool) (num den : Nat) : Binary64 :=
  if num = 0 ∨ den = 0 then signedZero negative
  else
    let e := exponentOf num den
    let (n, d) := scaleDown num den e
    let m := roundQuotient n d
    let (m, e) := if m = mantissaLimit then (leastFullMantissa, e + 1) else (m, e)
    if greatestExponent < e then .infinite negative
    else if m = 0 then signedZero negative
    else .finite negative m e

/-- The double nearest to a natural number. -/
def ofNat (n : Nat) : Binary64 := ofRatio false n 1

/-- The magnitude of a finite double as a quotient of naturals. -/
def magnitude (mantissa : Nat) (exponent : Int) : Nat × Nat :=
  if 0 ≤ exponent then (mantissa * Nat.pow 2 exponent.toNat, 1)
  else (mantissa, Nat.pow 2 (-exponent).toNat)

/-- The value with the other sign. -/
def neg : Binary64 → Binary64
  | .nan => .nan
  | .infinite s => .infinite (!s)
  | .finite s m e => .finite (!s) m e

/-- Whether the value equals zero, of either sign. -/
def isZero : Binary64 → Bool
  | .finite _ 0 _ => true
  | _ => false

/-- The sum of two finite doubles, rounded once. An exact zero sum is positive unless both terms are
negative. -/
def addFinite (s1 : Bool) (m1 : Nat) (e1 : Int) (s2 : Bool) (m2 : Nat) (e2 : Int) : Binary64 :=
  let e := min e1 e2
  let a : Int := (m1 * Nat.pow 2 (e1 - e).toNat : Nat)
  let b : Int := (m2 * Nat.pow 2 (e2 - e).toNat : Nat)
  let sum := (if s1 then -a else a) + (if s2 then -b else b)
  if sum = 0 then signedZero (s1 && s2)
  else
    let (n, d) := magnitude sum.natAbs e
    ofRatio (decide (sum < 0)) n d

/-- Addition. -/
def add : Binary64 → Binary64 → Binary64
  | .nan, _ => .nan
  | _, .nan => .nan
  | .infinite s, .infinite t => if s = t then .infinite s else .nan
  | .infinite s, .finite .. => .infinite s
  | .finite .., .infinite t => .infinite t
  | .finite s1 m1 e1, .finite s2 m2 e2 => addFinite s1 m1 e1 s2 m2 e2

/-- Subtraction. -/
def sub (x y : Binary64) : Binary64 := add x (neg y)

/-- Multiplication. -/
def mul : Binary64 → Binary64 → Binary64
  | .nan, _ => .nan
  | _, .nan => .nan
  | .infinite s, .infinite t => .infinite (s != t)
  | .infinite s, .finite t m _ => if m = 0 then .nan else .infinite (s != t)
  | .finite s m _, .infinite t => if m = 0 then .nan else .infinite (s != t)
  | .finite s1 m1 e1, .finite s2 m2 e2 =>
    let (n, d) := magnitude (m1 * m2) (e1 + e2)
    ofRatio (s1 != s2) n d

/-- Division. -/
def div : Binary64 → Binary64 → Binary64
  | .nan, _ => .nan
  | _, .nan => .nan
  | .infinite _, .infinite _ => .nan
  | .infinite s, .finite t _ _ => .infinite (s != t)
  | .finite s _ _, .infinite t => signedZero (s != t)
  | .finite s1 m1 e1, .finite s2 m2 e2 =>
    if m2 = 0 then (if m1 = 0 then .nan else .infinite (s1 != s2))
    else
      let (n1, d1) := magnitude m1 e1
      let (n2, d2) := magnitude m2 e2
      ofRatio (s1 != s2) (n1 * d2) (d1 * n2)

/-- The remainder of a truncating division; it has the sign of the dividend. -/
def rem : Binary64 → Binary64 → Binary64
  | .nan, _ => .nan
  | _, .nan => .nan
  | .infinite _, _ => .nan
  | .finite s m e, .infinite _ => .finite s m e
  | .finite s1 m1 e1, .finite _ m2 e2 =>
    if m2 = 0 then .nan
    else
      let e := min e1 e2
      let r := (m1 * Nat.pow 2 (e1 - e).toNat) % (m2 * Nat.pow 2 (e2 - e).toNat)
      let (n, d) := magnitude r e
      ofRatio s1 n d

/-- The number one. -/
def one : Binary64 := ofNat 1

/-- A negation undoes itself. -/
@[simp] theorem neg_neg (x : Binary64) : neg (neg x) = x := by
  cases x <;> simp [neg]

/-- Negation keeps zero and nothing else at zero. -/
@[simp] theorem isZero_neg (x : Binary64) : isZero (neg x) = isZero x := by
  cases x with
  | nan => rfl
  | infinite s => rfl
  | finite s m e => cases m <;> rfl

end Binary64

/-! ## Machine words

Whole numbers are held in words of 64 bits. A signed word reaches from `-half` to `half - 1`, and a
sum that leaves this range wraps around. -/

namespace Word

/-- How many values a word has: two to the sixty-fourth. -/
def size : Nat := 18446744073709551616

/-- The first number that a signed word does not hold: two to the sixty-third. -/
def half : Nat := 9223372036854775808

/-- A number as a signed word holds it: what is too large wraps around. -/
def wrap (n : Int) : Int := Int.bmod n size

/-- Whether a signed word holds the number. -/
def holds (n : Int) : Bool := decide (-(half : Int) ≤ n) && decide (n < half)

end Word

end ShapeCheck
