import ShapeCheck.Proofs.Numerals
import Mathlib.Data.Nat.Log
import Mathlib.Tactic.IntervalCases
import Mathlib.Tactic.Ring

/-!
# Natural numbers as text

A natural number of at most 53 bits is a double, and reading the row of its decimal digits gives
this double. Its shortest form is the same row, without exponent and without point, if the number is
below a million; from there on the shortest form has an exponent.

* `Binary64.ofNat_normal` — a number of at most 53 bits is shifted until its mantissa is full.
* `Decimal.onGrid_whole` — a grid of tens, hundreds and so on has a point in the rounding interval
  of a whole number exactly if the number lies on the grid.
* `Decimal.shortest_whole` — the shortest form has the digits of the number, up to zeros at the end.
* `Decimal.read?_toDigits` — **the digits are read**.
* `Binary64.text_ofNat_eq_iff` — **the digits are printed** exactly if the number is below a
  million.
-/

namespace ShapeCheck

namespace Binary64

/-- How far a number is shifted to fill a mantissa. -/
def shift (n : Nat) : Nat := 52 - Nat.log2 n

variable {n : Nat}

theorem scaleDown_neg (k num den : Nat) : scaleDown num den (-(k : Int)) = (num * 2 ^ k, den) := by
  rcases Nat.eq_zero_or_pos k with rfl | hk
  · simp [scaleDown]
  · unfold scaleDown
    rw [if_neg (by omega), Int.neg_neg, Int.toNat_natCast]
    rfl

theorem magnitude_neg (k m : Nat) : magnitude m (-(k : Int)) = (m, 2 ^ k) := by
  rcases Nat.eq_zero_or_pos k with rfl | hk
  · simp [magnitude]
  · unfold magnitude
    rw [if_neg (by omega), Int.neg_neg, Int.toNat_natCast]
    rfl

theorem log2_le (h : n < 2 ^ 53) : Nat.log2 n ≤ 52 := by
  rcases Nat.eq_zero_or_pos n with rfl | hpos
  · decide
  · exact Nat.le_of_lt_succ ((Nat.log2_lt hpos.ne').mpr h)

theorem mantissa_full (hpos : 0 < n) (h : n < 2 ^ 53) :
    leastFullMantissa ≤ n * 2 ^ shift n ∧ n * 2 ^ shift n < mantissaLimit := by
  have hlog := log2_le h
  have hsum : 52 = Nat.log2 n + shift n := by unfold shift; omega
  have hnext : 53 = Nat.log2 n + 1 + shift n := by omega
  constructor
  · calc leastFullMantissa = 2 ^ (Nat.log2 n + shift n) := by rw [← hsum]; rfl
      _ = 2 ^ Nat.log2 n * 2 ^ shift n := Nat.pow_add ..
      _ ≤ n * 2 ^ shift n := Nat.mul_le_mul_right _ (Nat.log2_self_le hpos.ne')
  · calc n * 2 ^ shift n < 2 ^ (Nat.log2 n + 1) * 2 ^ shift n :=
          Nat.mul_lt_mul_of_pos_right Nat.lt_log2_self (Nat.two_pow_pos _)
      _ = 2 ^ (Nat.log2 n + 1 + shift n) := (Nat.pow_add ..).symm
      _ = mantissaLimit := by rw [← hnext]; rfl

theorem exponentOf_whole (hpos : 0 < n) (h : n < 2 ^ 53) : exponentOf n 1 = -(shift n : Int) := by
  have hlog := log2_le h
  have hone : Nat.log2 1 = 0 := by decide
  have hguess : (Nat.log2 n : Int) - (Nat.log2 1 : Int) - 53 = -((shift n + 1 : Nat) : Int) := by
    unfold shift; omega
  have hfull : ¬n * 2 ^ (shift n + 1) < mantissaLimit := by
    have := (mantissa_full hpos h).1
    unfold leastFullMantissa at this
    unfold mantissaLimit
    rw [Nat.pow_succ, ← Nat.mul_assoc]
    omega
  unfold exponentOf
  rw [hguess]
  dsimp only
  rw [scaleDown_neg]
  dsimp only
  rw [Nat.div_one, if_neg hfull]
  have hleast : leastExponent = -1074 := rfl
  unfold shift at *
  omega

theorem ofNat_normal (hpos : 0 < n) (h : n < 2 ^ 53) :
    ofNat n = .finite false (n * 2 ^ shift n) (-(shift n : Int)) := by
  obtain ⟨hleast, hlimit⟩ := mantissa_full hpos h
  have hround : roundQuotient (n * 2 ^ shift n) 1 = n * 2 ^ shift n := by
    unfold roundQuotient
    rw [Nat.mod_one, Nat.div_one]
    rfl
  unfold ofNat ofRatio
  rw [if_neg (by omega), exponentOf_whole hpos h]
  dsimp only
  rw [scaleDown_neg]
  dsimp only
  rw [hround, if_neg hlimit.ne]
  dsimp only
  have hgreatest : greatestExponent = 971 := rfl
  have hpos' : n * 2 ^ shift n ≠ 0 := by unfold leastFullMantissa at hleast; omega
  rw [if_neg (by omega), if_neg hpos']

end Binary64

namespace Decimal

open Binary64 (shift)

variable {n : Nat}

theorem log2_mul_two_pow (hpos : 0 < n) (k : Nat) : Nat.log2 (n * 2 ^ k) = Nat.log2 n + k := by
  have hne : n * 2 ^ k ≠ 0 := Nat.mul_ne_zero hpos.ne' (Nat.two_pow_pos k).ne'
  refine (Nat.log2_eq_iff hne).mpr ⟨?_, ?_⟩
  · rw [Nat.pow_add]
    exact Nat.mul_le_mul_right _ (Nat.log2_self_le hpos.ne')
  · rw [Nat.add_right_comm, Nat.pow_add]
    exact Nat.mul_lt_mul_of_pos_right Nat.lt_log2_self (Nat.two_pow_pos k)

theorem powerLe_whole (x k : Nat) : powerLe x (n * 2 ^ k) (2 ^ k) = decide (10 ^ x ≤ n) := by
  unfold powerLe
  rw [if_pos (by omega), Int.toNat_natCast, Nat.mul_comm n]
  exact decide_eq_decide.mpr (Nat.mul_le_mul_left_iff (Nat.two_pow_pos k))

/-- The decimal exponent of a natural number is the number of its digits less one. -/
theorem exponentOf_whole (hpos : 0 < n) (h : n < 2 ^ 53) (k : Nat) :
    ∃ x : Nat, exponentOf (n * 2 ^ k) (2 ^ k) = x ∧ 10 ^ x ≤ n ∧ n < 10 ^ (x + 1) := by
  have hlog := Binary64.log2_le h
  have hlow : 2 ^ Nat.log2 n ≤ n := Nat.log2_self_le hpos.ne'
  have hhigh : n < 2 ^ (Nat.log2 n + 1) := Nat.lt_log2_self
  -- the guess is right or one too small, for each of the sizes
  have hsizes : ∀ b ≤ 52, 10 ^ (b * 30103 / 100000) ≤ 2 ^ b ∧
      2 ^ (b + 1) ≤ 10 ^ (b * 30103 / 100000 + 2) := by decide
  obtain ⟨hguess, hnext⟩ := hsizes _ hlog
  have hbits : ((Nat.log2 (n * 2 ^ k) : Int) - (Nat.log2 (2 ^ k) : Int)) = Nat.log2 n := by
    rw [log2_mul_two_pow hpos, Nat.log2_two_pow]
    omega
  have hfdiv : Int.fdiv ((Nat.log2 n : Int) * 30103) 100000 =
      ((Nat.log2 n * 30103 / 100000 : Nat) : Int) := by
    rw [Int.fdiv_eq_ediv_of_nonneg _ (by decide)]
    push_cast
    rfl
  unfold exponentOf
  dsimp only
  rw [hbits, hfdiv]
  generalize Nat.log2 n * 30103 / 100000 = g at hguess hnext
  rw [← Nat.cast_succ, powerLe_whole, powerLe_whole]
  by_cases hmore : 10 ^ (g + 1) ≤ n
  · exact ⟨g + 1, by simp [hmore], hmore, hhigh.trans_le hnext⟩
  · exact ⟨g, by simp [hmore, hguess.trans hlow], hguess.trans hlow, Nat.lt_of_not_le hmore⟩

/-- The rounding interval of a whole number. -/
theorem rounding_whole (hpos : 0 < n) :
    ∃ r : Rounding, rounding (n * 2 ^ shift n) (-(shift n : Int)) = r ∧
      r.den = 4 * 2 ^ shift n ∧ r.value = n * r.den ∧
      n * r.den - 2 ≤ r.low ∧ r.low < n * r.den ∧ r.high = n * r.den + 2 := by
  have hvalue : 4 * (n * 2 ^ shift n) = n * (4 * 2 ^ shift n) := by ring
  have hsome : 0 < n * (4 * 2 ^ shift n) :=
    Nat.mul_pos hpos (Nat.mul_pos (by decide) (Nat.two_pow_pos _))
  refine ⟨_, rfl, ?_⟩
  unfold rounding
  rw [Binary64.magnitude_neg]
  dsimp only
  refine ⟨rfl, ?_, ?_, ?_, ?_⟩
  · rw [hvalue, Nat.mul_one]
  · rw [hvalue, Nat.mul_one]; split <;> omega
  · rw [hvalue, Nat.mul_one]; split <;> omega
  · rw [hvalue, Nat.mul_one]

/-- Of the whole numbers only the number itself lies in its rounding interval. -/
theorem contains_whole {r : Rounding} {m : Nat} (hden : 2 < r.den)
    (hlow : n * r.den - 2 ≤ r.low) (hlow' : r.low < n * r.den) (hhigh : r.high = n * r.den + 2) :
    r.contains m 1 = true ↔ m = n := by
  unfold Rounding.contains
  simp only [Nat.mul_one]
  constructor
  · intro hin
    have hbounds : r.low ≤ m * r.den ∧ m * r.den ≤ r.high := by
      split at hin <;> simp only [Bool.and_eq_true, decide_eq_true_eq] at hin <;> omega
    rcases Nat.lt_trichotomy m n with hlt | heq | hgt
    · have := Nat.mul_le_mul_right r.den (Nat.succ_le_of_lt hlt)
      rw [Nat.succ_mul] at this
      omega
    · exact heq
    · have := Nat.mul_le_mul_right r.den (Nat.succ_le_of_lt hgt)
      rw [Nat.succ_mul] at this
      omega
  · rintro rfl
    split <;> simp only [Bool.and_eq_true, decide_eq_true_eq] <;> omega

/-- **The grid of the multiples of a power of ten.** It has a point in the rounding interval of a
whole number only if the number is such a multiple. -/
theorem onGrid_whole {r : Rounding} (hpos : 0 < n) (hden : 2 < r.den) (hvalue : r.value = n * r.den)
    (hlow : n * r.den - 2 ≤ r.low) (hlow' : r.low < n * r.den) (hhigh : r.high = n * r.den + 2)
    {x c u : Nat} (hu : u + c = x) :
    onGrid r x (c + 1) = if 10 ^ u ∣ n then some (n / 10 ^ u, (u : Int)) else none := by
  have hunit : (x : Int) - ((c + 1 : Nat) : Int) + 1 = (u : Int) := by omega
  have hten : 0 < 10 ^ u := Nat.pow_pos (by decide)
  have hdown : r.value / (r.den * 10 ^ u) = n / 10 ^ u := by
    rw [hvalue, Nat.mul_comm n, Nat.mul_div_mul_left _ _ (by omega)]
  have hleft : r.value % (r.den * 10 ^ u) = r.den * (n % 10 ^ u) := by
    rw [hvalue, Nat.mul_comm n, Nat.mul_mod_mul_left]
  have hfits : ∀ m, (decide (0 < m) && r.contains (m * 10 ^ u) 1) = true ↔ m * 10 ^ u = n := by
    intro m
    rw [Bool.and_eq_true, decide_eq_true_eq, contains_whole hden hlow hlow' hhigh]
    refine ⟨fun hm => hm.2, fun hm => ⟨?_, hm⟩⟩
    exact Nat.pos_of_ne_zero fun hzero => by simp [hzero] at hm; omega
  unfold onGrid
  simp only [hunit, Int.natCast_nonneg, if_true, Int.toNat_natCast, Nat.pow_eq, hdown, hleft]
  by_cases hdvd : 10 ^ u ∣ n
  · have hmod : n % 10 ^ u = 0 := Nat.mod_eq_zero_of_dvd hdvd
    have hback : n / 10 ^ u * 10 ^ u = n := Nat.div_mul_cancel hdvd
    simp only [hmod, Nat.mul_zero, decide_true, Bool.true_and, (hfits _).mpr hback, if_true,
      if_pos hdvd]
  · have hmod : r.den * (n % 10 ^ u) ≠ 0 :=
      Nat.mul_ne_zero (by omega) fun hzero => hdvd (Nat.dvd_of_mod_eq_zero hzero)
    have hno : ∀ m, (decide (0 < m) && r.contains (m * 10 ^ u) 1) = false := fun m =>
      Bool.eq_false_iff.mpr fun hm => hdvd ⟨m, by rw [← (hfits m).mp hm, Nat.mul_comm]⟩
    simp only [hno, decide_eq_false hmod, Bool.false_and, Bool.false_eq_true, if_false, if_neg hdvd]

theorem toDigits_mul_pow (hpos : 0 < n) (u : Nat) :
    Nat.toDigits 10 (n * 10 ^ u) = Nat.toDigits 10 n ++ List.replicate u '0' := by
  induction u with
  | zero => simp
  | succ u ih =>
    have hmore : 0 < n * 10 ^ u := Nat.mul_pos hpos (Nat.pow_pos (by decide))
    have hstep := Nat.toDigits_append_toDigits (by decide : 1 < 10) hmore (by decide : 0 < 10)
    have hten : n * 10 ^ (u + 1) = 10 * (n * 10 ^ u) + 0 := by ring
    rw [hten, ← hstep, ih, Nat.toDigits_zero, List.append_assoc, ← List.replicate_succ']

/-- The zeros trimmed from a row of digits are what is missing from its length. -/
theorem trimZeros_append (ds : List Char) :
    trimZeros ds ++ List.replicate (ds.length - (trimZeros ds).length) '0' = ds := by
  have hzeros : (ds.reverse.takeWhile (· = '0')).reverse =
      List.replicate (ds.reverse.takeWhile (· = '0')).length '0' :=
    List.eq_replicate_iff.mpr ⟨List.length_reverse, fun c hc => by
      simpa using List.all_eq_true.mp List.all_takeWhile c (List.mem_reverse.mp hc)⟩
  have hsplit := congrArg List.reverse
    (List.takeWhile_append_dropWhile (p := (· = '0')) (l := ds.reverse))
  rw [List.reverse_append, List.reverse_reverse, hzeros] at hsplit
  have hlength := congrArg List.length hsplit
  rw [List.length_append, List.length_replicate] at hlength
  have hmissing : ds.length - (trimZeros ds).length =
      (ds.reverse.takeWhile (· = '0')).length := by
    unfold trimZeros
    omega
  rw [hmissing]
  exact hsplit

section Scaled

variable {q u x : Nat}

/-- A multiple of a power of ten has its own digits and so many zeros more. -/
theorem length_toDigits_scaled (hq : 0 < q) (hlow : 10 ^ x ≤ q * 10 ^ u)
    (hhigh : q * 10 ^ u < 10 ^ (x + 1)) : (Nat.toDigits 10 q).length + u = x + 1 := by
  have hall := congrArg List.length (toDigits_mul_pow hq u)
  rw [List.length_append, List.length_replicate] at hall
  have hle := (Nat.length_toDigits_le_iff (b := 10) (by decide) (Nat.succ_pos x)).mpr hhigh
  rcases Nat.eq_zero_or_pos x with rfl | hxpos
  · have := Nat.length_toDigits_pos (b := 10) (n := q)
    omega
  · have hmore := mt (Nat.length_toDigits_le_iff (b := 10) (by decide) hxpos).mp
      (Nat.not_lt.mpr hlow)
    omega

theorem exponent_ofScaled (hq : 0 < q) (hlow : 10 ^ x ≤ q * 10 ^ u)
    (hhigh : q * 10 ^ u < 10 ^ (x + 1)) : (Digits.ofScaled q u).exponent = x := by
  have hlength := length_toDigits_scaled hq hlow hhigh
  unfold Digits.ofScaled
  dsimp only
  omega

/-- A multiple of a power of ten is laid out by its own digits. -/
theorem layout_ofScaled (hq : 0 < q) (hlow : 10 ^ x ≤ q * 10 ^ u)
    (hhigh : q * 10 ^ u < 10 ^ (x + 1)) (hx : x < 6) :
    (Digits.ofScaled q u).layout = String.ofList (Nat.toDigits 10 (q * 10 ^ u)) := by
  have hlength := length_toDigits_scaled hq hlow hhigh
  have hexponent := exponent_ofScaled hq hlow hhigh
  have hrow := trimZeros_append (Nat.toDigits 10 q)
  have hshort : (trimZeros (Nat.toDigits 10 q)).length ≤ (Nat.toDigits 10 q).length := by
    have := congrArg List.length hrow
    rw [List.length_append] at this
    omega
  have hfront : trimZeros (Nat.toDigits 10 q) ++
      List.replicate (x + 1 - (trimZeros (Nat.toDigits 10 q)).length) '0' =
        Nat.toDigits 10 (q * 10 ^ u) := by
    have hcount : x + 1 - (trimZeros (Nat.toDigits 10 q)).length =
        ((Nat.toDigits 10 q).length - (trimZeros (Nat.toDigits 10 q)).length) + u := by omega
    rw [hcount, ← List.replicate_append_replicate, ← List.append_assoc, hrow, toDigits_mul_pow hq]
  unfold Digits.layout
  dsimp only
  rw [hexponent, if_neg (by omega)]
  unfold Digits.positional
  dsimp only
  rw [hexponent, if_neg (by omega), Int.toNat_natCast]
  have hdrop : (Digits.ofScaled q u).digits.drop (x + 1) = [] :=
    List.drop_eq_nil_of_le (by unfold Digits.ofScaled; dsimp only; omega)
  have htake : (Digits.ofScaled q u).digits.take (x + 1) = trimZeros (Nat.toDigits 10 q) :=
    List.take_of_length_le (by unfold Digits.ofScaled; dsimp only; omega)
  rw [hdrop, htake]
  dsimp only
  rw [← hfront]
  rfl

theorem mem_exponentMark (x : Int) : 'e' ∈ (exponentMark x).toList := by
  unfold exponentMark
  split <;> simp

/-- A larger one gets an exponent. -/
theorem layout_ofScaled_ne (hq : 0 < q) (hlow : 10 ^ x ≤ q * 10 ^ u)
    (hhigh : q * 10 ^ u < 10 ^ (x + 1)) (hx : 6 ≤ x) :
    (Digits.ofScaled q u).layout ≠ String.ofList (Nat.toDigits 10 (q * 10 ^ u)) := by
  intro heq
  have hdigits : ∀ c ∈ (Digits.ofScaled q u).layout.toList, c.isDigit = true := by
    rw [heq, String.toList_ofList]
    exact fun c hc => Nat.isDigit_of_mem_toDigits (by decide) (by decide) hc
  have hsize : (Digits.ofScaled q u).layout.toList.length = x + 1 := by
    rw [heq, String.toList_ofList, toDigits_mul_pow hq, List.length_append, List.length_replicate,
      length_toDigits_scaled hq hlow hhigh]
  unfold Digits.layout at hdigits hsize
  rw [exponent_ofScaled hq hlow hhigh] at hdigits hsize
  simp only [if_pos (Or.inr (show (6 : Int) ≤ x by omega) : (x : Int) < -4 ∨ (6 : Int) ≤ x)]
    at hdigits hsize
  split at hdigits
  case h_1 hnone =>
    rw [hnone] at hsize
    dsimp only at hsize
    have hone : "0".toList.length = 1 := by decide
    omega
  all_goals exact absurd (hdigits 'e' (by simp [mem_exponentMark])) (by decide)

end Scaled

/-- **The shortest form of a whole number** has its digits, up to zeros at the end. -/
theorem shortest_whole (hpos : 0 < n) (h : n < 2 ^ 53) : ∃ q u x : Nat,
    shortest (n * 2 ^ shift n) (-(shift n : Int)) = .ofScaled q u ∧ 0 < q ∧ q * 10 ^ u = n ∧
      10 ^ x ≤ n ∧ n < 10 ^ (x + 1) := by
  obtain ⟨x, hx, hlow, hhigh⟩ := exponentOf_whole hpos h (shift n)
  have hxsmall : x < 16 := (Nat.pow_lt_pow_iff_right (a := 10) (by decide)).mp
    (hlow.trans_lt (h.trans (by decide)))
  obtain ⟨r, hr, hden, hvalue, hrlow, hrlow', hrhigh⟩ := rounding_whole hpos
  have hwide : 2 < r.den := by
    have := Nat.two_pow_pos (shift n)
    omega
  have hgrid : ∀ c, ∀ hc : c ≤ x, onGrid r x (c + 1) =
      if 10 ^ (x - c) ∣ n then some (n / 10 ^ (x - c), ((x - c : Nat) : Int)) else none :=
    fun c hc => onGrid_whole hpos hwide hvalue hrlow hrlow' hrhigh (by omega)
  -- the grid of the ones has the number itself, so the search ends at the latest there
  have hsome : ((List.range (x + 1)).findSome? fun c => onGrid r x (c + 1)).isSome = true := by
    rw [List.findSome?_isSome_iff]
    refine ⟨x, by simp, ?_⟩
    rw [hgrid x le_rfl, if_pos (by simp)]
    rfl
  obtain ⟨found, hfound⟩ := Option.isSome_iff_exists.mp hsome
  obtain ⟨c, hc, hat⟩ := List.exists_of_findSome?_eq_some hfound
  have hcx : c ≤ x := Nat.le_of_lt_succ (List.mem_range.mp hc)
  rw [hgrid c hcx] at hat
  split at hat
  case isFalse => exact absurd hat (by simp)
  case isTrue hdvd =>
    obtain rfl := Option.some.inj hat
    have hall : ((List.range 17).findSome? fun c => onGrid r x (c + 1)) =
        some (n / 10 ^ (x - c), ((x - c : Nat) : Int)) := by
      have hsplit : List.range 17 = List.range (x + 1) ++ List.range' (x + 1) (17 - (x + 1)) := by
        interval_cases x <;> rfl
      rw [hsplit, List.findSome?_append, hfound]
      rfl
    refine ⟨n / 10 ^ (x - c), x - c, x, ?_, ?_, Nat.div_mul_cancel hdvd, hlow, hhigh⟩
    · unfold shortest
      rw [Binary64.magnitude_neg]
      dsimp only
      rw [hx, hr, hall]
    · exact Nat.div_pos (Nat.le_of_dvd hpos hdvd) (Nat.pow_pos (by decide))

/-- **The shortest form of a whole number is its decimal digits** exactly below a million. -/
theorem layout_shortest_eq_iff (hpos : 0 < n) (h : n < 2 ^ 53) :
    (shortest (n * 2 ^ shift n) (-(shift n : Int))).layout = String.ofList (Nat.toDigits 10 n) ↔
      n < 10 ^ 6 := by
  obtain ⟨q, u, x, hshortest, hq, hback, hlow, hhigh⟩ := shortest_whole hpos h
  rw [hshortest]
  subst hback
  rcases Nat.lt_or_ge x 6 with hx | hx
  · refine iff_of_true (layout_ofScaled hq hlow hhigh hx) (hhigh.trans_le ?_)
    exact Nat.pow_le_pow_right (by decide) (by omega)
  · refine iff_of_false (layout_ofScaled_ne hq hlow hhigh hx) (Nat.not_lt.mpr (le_trans ?_ hlow))
    exact Nat.pow_le_pow_right (by decide) hx

end Decimal

/-- **A natural number is printed as its decimal digits** exactly if it is below a million. -/
theorem Binary64.text_ofNat_eq_iff {n : Nat} (h : n < 2 ^ 53) :
    (Binary64.ofNat n).text = String.ofList (Nat.toDigits 10 n) ↔ n < 10 ^ 6 := by
  rcases Nat.eq_zero_or_pos n with rfl | hpos
  · decide
  · have hfull := (mantissa_full hpos h).1
    rw [ofNat_normal hpos h, ← Decimal.layout_shortest_eq_iff hpos h]
    cases hm : n * 2 ^ shift n with
    | zero => rw [hm] at hfull; exact absurd hfull (by decide)
    | succ m =>
      rw [Binary64.text]
      · rfl
      · simp

theorem Binary64.text_ofNat {n : Nat} (h : n < 10 ^ 6) :
    (Binary64.ofNat n).text = String.ofList (Nat.toDigits 10 n) :=
  (Binary64.text_ofNat_eq_iff (h.trans (by decide))).mpr h

/-- **The decimal digits of a natural number are read as the number.** -/
theorem Decimal.read?_toDigits {n : Nat} (h : n < 2 ^ 53) :
    Decimal.read? (String.ofList (Nat.toDigits 10 n)) = .ok (Binary64.ofNat n) := by
  have hdigits : ∀ c ∈ Nat.toDigits 10 n, c.isDigit = true := fun c hc =>
    Nat.isDigit_of_mem_toDigits (by decide) (by decide) hc
  have hsome : Nat.toDigits 10 n ≠ [] := Nat.toDigits_ne_nil
  have hvalue : digitsValue 0 (Nat.toDigits 10 n) = n := by
    rw [digitsValue, ← Nat.ofDigitChars_eq_foldl, Nat.ofDigitChars_ten_toDigits]
  have hsplit : splitSign (String.ofList (Nat.toDigits 10 n)).toList =
      (false, Nat.toDigits 10 n) := by
    rw [String.toList_ofList]
    obtain ⟨d, ds, hd⟩ := List.exists_cons_of_ne_nil hsome
    have hdigit := hdigits d (by simp [hd])
    rw [hd]
    unfold splitSign
    split
    next heq =>
      rw [(List.cons.inj heq).1] at hdigit
      exact absurd hdigit (by decide)
    next heq =>
      rw [(List.cons.inj heq).1] at hdigit
      exact absurd hdigit (by decide)
    · rfl
  have hlength : (Nat.toDigits 10 n).length ≤ 16 :=
    (Nat.length_toDigits_le_iff (by decide) (by decide)).mpr (h.trans (by decide))
  rw [read?_digits hsplit hdigits hsome,
    readUnsigned_digits hdigits hsome (by rw [hvalue]; exact h.trans (by decide)), hvalue]
  unfold toBinary64
  dsimp only
  split
  next hzero =>
    rw [hzero]
    rfl
  · rw [if_neg (by omega), if_neg (by omega), if_pos le_rfl, Int.toNat_zero, Nat.pow_eq,
      Nat.pow_zero, Nat.mul_one]
    rfl

end ShapeCheck
