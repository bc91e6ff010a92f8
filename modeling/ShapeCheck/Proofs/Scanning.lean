import ShapeCheck.Token.Scan

/-!
# Scanning to the end

The tokens of a text end with the end of the input, and no token before is one.

* `Scan.lexeme_size_pos`: a word takes at least one byte.
* `Scan.tokens_ended`: the tokens of a byte string are words and the end of the input.
-/

namespace ShapeCheck.Scan

theorem Cursor.rest_advance (n : Nat) (c : Cursor) : (c.advance n).rest = c.rest.drop n := by
  induction n generalizing c with
  | zero => rfl
  | succ n ih =>
    rcases hc : c.rest with _ | ⟨b, rest⟩
    · simp [Cursor.advance, hc]
    · simp only [Cursor.advance, hc]
      split <;> simp [ih]

theorem Cursor.rest_skipBlanks (c : Cursor) : c.skipBlanks.rest = c.rest.dropWhile isBlank := by
  rw [Cursor.skipBlanks, Cursor.rest_advance]
  have h := @List.drop_left _ (c.rest.takeWhile isBlank) (c.rest.dropWhile isBlank)
  rwa [List.takeWhile_append_dropWhile] at h

theorem rest_next (c : Cursor) :
    (next c).2.rest = c.skipBlanks.rest.drop (lexeme c.skipBlanks.rest).size :=
  Cursor.rest_advance ..

theorem digits_pos {b : UInt8} {rest : List UInt8} (h : isDigit b = true) :
    1 ≤ (digits (b :: rest)).2 := by
  simp [digits, h]

theorem symbol_text_pos (s : Symbol) : 1 ≤ (utf8Bytes s.text).length := by
  cases s <;> decide +kernel

/-- A word takes at least one byte. -/
theorem lexeme_size_pos {bytes : List UInt8} (h : bytes ≠ []) : 1 ≤ (lexeme bytes).size := by
  obtain ⟨b, rest, rfl⟩ := List.exists_cons_of_ne_nil h
  simp only [lexeme]
  split
  · split <;> simp
  split
  case isTrue hname =>
    have hcontinues : continuesName b = true := by
      grind [startsName, continuesName]
    simp only [name]
    split <;> simp [hcontinues]
  split
  case isTrue hdigit =>
    have := @digits_pos _ rest hdigit
    simp only [number]
    split <;> simp only <;> omega
  split
  case h_1 s _ => exact symbol_text_pos s
  case h_2 => simp

/-- Only where no byte is left is the end of the input. -/
theorem lexeme_kind {bytes : List UInt8} : (lexeme bytes).kind = .endOfInput ↔ bytes = [] := by
  rcases bytes with _ | ⟨b, rest⟩
  · simp [lexeme]
  simp only [lexeme, reduceCtorEq, iff_false]
  split
  · split <;> simp
  split
  · simp only [name]
    split <;> simp
  split
  · simp only [number]
    split <;> simp
  split <;> simp

theorem collect_ended {fuel : Nat} {c : Cursor} (h : c.rest.length ≤ fuel) :
    ∃ ws e, collect fuel c = ws ++ [e] ∧ e.kind = .endOfInput ∧ ∀ t ∈ ws, t.kind ≠ .endOfInput := by
  have hkind : (next c).1.kind = .endOfInput ↔ c.skipBlanks.rest = [] := lexeme_kind
  induction fuel generalizing c with
  | zero =>
    have hrest : c.rest = [] := List.length_eq_zero_iff.mp (by omega)
    exact ⟨[], _, rfl, hkind.mpr (by simp [Cursor.rest_skipBlanks, hrest]), by simp⟩
  | succ fuel ih =>
    simp only [collect]
    split
    case isTrue hend => exact ⟨[], _, rfl, hend, by simp⟩
    case isFalse hword =>
      have hne : c.skipBlanks.rest ≠ [] := fun h => hword (hkind.mpr h)
      have hsize := lexeme_size_pos hne
      have hshort : (next c).2.rest.length ≤ fuel := by
        have hpos := List.length_pos_iff.mpr hne
        have hskip : c.skipBlanks.rest.length ≤ c.rest.length := by
          rw [Cursor.rest_skipBlanks]
          exact List.IsSuffix.length_le (List.dropWhile_suffix _)
        rw [rest_next, List.length_drop]
        omega
      obtain ⟨ws, e, hc, he, hws⟩ := ih hshort lexeme_kind
      exact ⟨(next c).1 :: ws, e, by simp [hc], he, by simpa using ⟨hword, hws⟩⟩

/-- The tokens of a byte string are words, and behind them the end of the input. -/
theorem tokens_ended (bytes : List UInt8) :
    ∃ ws e, tokens bytes = ws ++ [e] ∧ e.kind = .endOfInput ∧ ∀ t ∈ ws, t.kind ≠ .endOfInput :=
  collect_ended (by simp)

end ShapeCheck.Scan
