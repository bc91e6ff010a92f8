import ShapeCheck.Number.Decimal
import Mathlib.Data.Nat.Digits.Defs

/-!
# Integers among the numerals

A text that spells an integer of a machine word spells a number: it is read as a decimal number, and
it is far from the greatest double.

* `Binary64.ofRatio_finite` says that a quotient with a small numerator is no infinite double.
* `Decimal.isNumeric_of_integer?` says that every integer is a number.
-/

namespace ShapeCheck

namespace Binary64

/-- A numerator of less than so many bits does not overflow. -/
theorem ofRatio_finite {num den : Nat} (negative : Bool) (h : num < 2 ^ 64) :
    ∃ m e, ofRatio negative num den = .finite negative m e := by
  unfold ofRatio
  split
  · exact ⟨0, leastExponent, rfl⟩
  next hpos =>
    have hlog : Nat.log2 num < 64 := (Nat.log2_lt (by omega)).mpr h
    have hexp : exponentOf num den ≤ 12 := by
      unfold exponentOf
      dsimp only
      have hleast : leastExponent ≤ 12 := by decide
      split
      · exact max_le (by omega) hleast
      · exact max_le (by omega) hleast
    generalize exponentOf num den = e at hexp
    dsimp only
    have hgreatest : greatestExponent = 971 := rfl
    split
    · dsimp only
      rw [if_neg (by omega)]
      split
      · exact ⟨0, leastExponent, rfl⟩
      · exact ⟨_, _, rfl⟩
    · dsimp only
      rw [if_neg (by omega)]
      split
      · exact ⟨0, leastExponent, rfl⟩
      · exact ⟨_, _, rfl⟩

end Binary64

namespace Decimal

/-- The number that decimal digits spell, after what was read before. -/
def digitsValue (acc : Nat) (digits : List Char) : Nat :=
  digits.foldl (fun acc c => 10 * acc + (c.toNat - '0'.toNat)) acc

section Digits

variable {digits : List Char}

theorem digit?_of_isDigit {c : Char} (h : c.isDigit = true) :
    digit? false c = some (c.toNat - '0'.toNat) ∧ c ≠ '_' ∧ c ≠ '.' := by
  have hrange : '0' ≤ c ∧ c ≤ '9' := by
    simpa [Char.isDigit, Char.le_def] using h
  refine ⟨by simp [digit?, hrange], ?_, ?_⟩
  · rintro rfl
    exact absurd h (by decide)
  · rintro rfl
    exact absurd h (by decide)

/-- Digits are a mantissa, without a point. -/
theorem readMantissa_digits (h : ∀ c ∈ digits, c.isDigit = true) (acc : Mantissa)
    (hacc : acc.sawPoint = false) :
    readMantissa false acc digits = ({ acc with
      value := digitsValue acc.value digits
      sawDigit := acc.sawDigit || !digits.isEmpty }, []) := by
  induction digits generalizing acc with
  | nil => simp [readMantissa, digitsValue]
  | cons c digits ih =>
    obtain ⟨hdigit, hunderscore, hpoint⟩ := digit?_of_isDigit (h c (by simp))
    rw [readMantissa, if_neg hunderscore, if_neg hpoint, hdigit]
    have hrest := ih (fun d hd => h d (by simp [hd])) { acc with
      value := acc.value * 10 + (c.toNat - '0'.toNat)
      sawDigit := true } hacc
    simpa [digitsValue, hacc, Nat.mul_comm] using hrest

theorem underscoresSeparate_digits (h : ∀ c ∈ digits, c.isDigit = true) {saw : Separated}
    (hsaw : saw ≠ .underscore) : underscoresSeparate false saw digits = true := by
  induction digits generalizing saw with
  | nil => simpa [underscoresSeparate] using hsaw
  | cons c digits ih =>
    obtain ⟨hdigit, -⟩ := digit?_of_isDigit (h c (by simp))
    rw [underscoresSeparate, hdigit, Option.isSome_some, if_pos rfl]
    exact ih (fun d hd => h d (by simp [hd])) (by simp)

/-- Digits of a number that is not too large are read. -/
theorem readUnsigned_digits (h : ∀ c ∈ digits, c.isDigit = true) (hsome : digits ≠ [])
    (hsmall : digitsValue 0 digits < 2 ^ 64) (negative : Bool) :
    readUnsigned negative false digits = .ok (toBinary64 negative (digitsValue 0 digits) 0) := by
  unfold readUnsigned
  rw [readMantissa_digits h _ rfl]
  have hfinite : ∃ m e, toBinary64 negative (digitsValue 0 digits) 0 = .finite negative m e := by
    unfold toBinary64
    have hsize : (Nat.toDigits 10 (digitsValue 0 digits)).length ≤ 20 :=
      Nat.toDigits_length 10 _ 20 (by omega) (Nat.lt_of_lt_of_le hsmall (by decide))
    dsimp only
    split
    · exact ⟨0, Binary64.leastExponent, rfl⟩
    · rw [if_neg (by omega), if_neg (by omega), if_pos (by omega)]
      simpa using Binary64.ofRatio_finite negative hsmall
  obtain ⟨m, e, hm⟩ := hfinite
  have hseparate : underscoresSeparate false .start digits = true :=
    underscoresSeparate_digits h (by simp)
  simp [hseparate, hsome, hm]

/-- A signed decimal number is read digit by digit. -/
theorem read?_digits {text : String} {negative : Bool}
    (hsplit : splitSign text.toList = (negative, digits)) (h : ∀ c ∈ digits, c.isDigit = true)
    (hsome : digits ≠ []) : read? text = readUnsigned negative false digits := by
  obtain ⟨d, ds, rfl⟩ := List.exists_cons_of_ne_nil hsome
  have hd := h d (by simp)
  have hlow : d.toLower = d := by
    refine dif_neg fun hupper => ?_
    simp only [Char.isDigit, Bool.and_eq_true, decide_eq_true_eq] at hd
    exact absurd (UInt32.le_trans hupper.1 hd.2) (by decide)
  have hword : ∀ {c : Char} {rest : List Char}, c.isDigit = false →
      String.ofList ((d :: ds).map Char.toLower) ≠ String.ofList (c :: rest) := by
    intro c rest hc heq
    have hsame := String.ofList_injective heq
    rw [List.map_cons, List.cons.injEq, hlow] at hsame
    rw [← hsame.1, hd] at hc
    exact absurd hc (by simp)
  unfold read?
  dsimp only
  rw [hsplit]
  dsimp only
  rw [if_neg, if_neg]
  · split
    next x rest hcs =>
      rw [if_neg]
      obtain ⟨-, rfl⟩ := List.cons.inj hcs
      have hx := h x (by simp)
      simp only [Bool.or_eq_true, decide_eq_true_eq]
      rintro (rfl | rfl)
      · exact absurd hx (by decide)
      · exact absurd hx (by decide)
    · rfl
  · exact fun hnan => hword (by decide) hnan.1
  · rintro (hinf | hinf)
    · exact hword (by decide) hinf
    · exact hword (by decide) hinf

/-- The digits of an integer are read without a sign. -/
theorem foldl_digits (h : ∀ c ∈ digits, c.isDigit = true) (acc : Nat) :
    digits.foldl (fun (acc : Int) c => 10 * acc + (c.toNat - '0'.toNat)) acc =
      digitsValue acc digits := by
  induction digits generalizing acc with
  | nil => rfl
  | cons c digits ih =>
    have hc : '0'.toNat ≤ c.toNat := by
      have := h c (by simp)
      simp only [Char.isDigit, Bool.and_eq_true, decide_eq_true_eq] at this
      exact this.1
    rw [List.foldl_cons, digitsValue, List.foldl_cons]
    have hstep : (10 * (acc : Int) + (c.toNat - '0'.toNat)) =
        ((10 * acc + (c.toNat - '0'.toNat) : Nat) : Int) := by omega
    rw [hstep]
    exact ih (fun d hd => h d (by simp [hd])) _

/-- **An integer is a number.** -/
theorem isNumeric_of_integer? {text : String} {i : Int} (h : integer? text = some i) :
    isNumeric text = true := by
  obtain ⟨hwhole, hholds⟩ := Option.filter_eq_some_iff.mp h
  unfold whole? at hwhole
  cases hsplit : splitSign text.toList with
  | mk negative digits =>
  rw [hsplit] at hwhole
  dsimp only at hwhole
  split at hwhole
  · exact absurd hwhole (by simp)
  next hdigits =>
    simp only [Bool.or_eq_true, List.isEmpty_iff, Bool.not_eq_true', not_or, Bool.not_eq_false,
      List.all_eq_true] at hdigits
    have hvalue := foldl_digits hdigits.2 0
    have hsmall : digitsValue 0 digits < 2 ^ 64 := by
      have hword : -(Word.half : Int) ≤ i ∧ i < Word.half := by simpa [Word.holds] using hholds
      unfold Word.half at hword
      have hi := Option.some.inj hwhole
      rw [← Nat.cast_zero, hvalue] at hi
      split at hi <;> omega
    rw [isNumeric, read?_digits hsplit hdigits.2 hdigits.1,
      readUnsigned_digits hdigits.2 hdigits.1 hsmall negative]

end Digits

end Decimal

end ShapeCheck
