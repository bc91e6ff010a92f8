import Mathlib.Data.List.TakeWhile
import ShapeCheck.Proofs.Scanning

/-!
# The words tile the input

Every byte of the input is passed once: the scanner passes over the blanks in front of a word, takes
the bytes of the word and goes on behind them.

* `Piece` is what one step takes from the input, and `pieces` is the scan that keeps these pieces;
  its tokens are those of `collect`.
* `Cursor.Behind` says that a place has the line and the column of what lies behind given bytes. A
  step keeps it (`Cursor.Behind.advance`).
* `Tiling` is what the pieces of a whole scan are, and `tokens_tile` says that every scan is one.
-/

namespace ShapeCheck

variable {fuel : Nat} {before : List UInt8} {c : Cursor}

/-- The kinds of words whose literal is the text of the word as it stands. -/
def TokenKind.isVerbatim : TokenKind → Bool
  | .identifier | .keyword _ | .symbol _ => true
  | _ => false

namespace Scan

/-! ## Pieces of the input -/

/-- The bytes between a place and a later one. -/
def Cursor.upTo (c d : Cursor) : List UInt8 := c.rest.take (c.rest.length - d.rest.length)

/-- What one step takes from the input. -/
structure Piece where
  gap : List UInt8
  slice : List UInt8
  token : Token

/-- All the bytes of a piece. -/
def Piece.bytes (p : Piece) : List UInt8 := p.gap ++ p.slice

/-- The piece that the next step takes. -/
def piece (c : Cursor) : Piece :=
  ⟨c.upTo c.skipBlanks, c.skipBlanks.upTo (next c).2, (next c).1⟩

/-- The pieces up to the end of the input. -/
def pieces : Nat → Cursor → List Piece
  | 0, c => [piece c]
  | fuel + 1, c =>
    if (next c).1.kind = .endOfInput then [piece c] else piece c :: pieces fuel (next c).2

theorem map_token_pieces (fuel : Nat) (c : Cursor) :
    (pieces fuel c).map Piece.token = collect fuel c := by
  induction fuel generalizing c with
  | zero => rfl
  | succ fuel ih =>
    simp only [pieces, collect]
    split
    · rfl
    · rw [List.map_cons, ih]
      rfl

/-- A piece is taken at some place, where no more is left than at the start. -/
theorem exists_of_mem_pieces {p : Piece} (h : p ∈ pieces fuel c) :
    ∃ d : Cursor, d.rest <:+ c.rest ∧ p = piece d := by
  induction fuel generalizing c with
  | zero => exact ⟨c, List.suffix_refl _, List.mem_singleton.mp h⟩
  | succ fuel ih =>
    simp only [pieces] at h
    split at h
    · exact ⟨c, List.suffix_refl _, List.mem_singleton.mp h⟩
    rcases List.mem_cons.mp h with rfl | h
    · exact ⟨c, List.suffix_refl _, rfl⟩
    obtain ⟨d, hd, rfl⟩ := ih h
    refine ⟨d, hd.trans ?_, rfl⟩
    rw [rest_next, Cursor.rest_skipBlanks]
    exact (List.drop_suffix _ _).trans (List.dropWhile_suffix _)

theorem Cursor.upTo_advance (c : Cursor) (n : Nat) : c.upTo (c.advance n) = c.rest.take n := by
  rw [Cursor.upTo, Cursor.rest_advance, List.length_drop]
  by_cases hn : n ≤ c.rest.length
  · congr 1
    omega
  · rw [List.take_of_length_le (by omega), List.take_of_length_le (by omega)]

theorem gap_piece (c : Cursor) : (piece c).gap = c.rest.takeWhile isBlank := by
  have h := @List.take_left _ (c.rest.takeWhile isBlank) (c.rest.dropWhile isBlank)
  rw [List.takeWhile_append_dropWhile] at h
  exact (c.upTo_advance _).trans h

theorem slice_piece (c : Cursor) :
    (piece c).slice = c.skipBlanks.rest.take (lexeme c.skipBlanks.rest).size :=
  c.skipBlanks.upTo_advance _

theorem bytes_piece (c : Cursor) : (piece c).bytes ++ (next c).2.rest = c.rest := by
  rw [Piece.bytes, gap_piece, slice_piece, rest_next, List.append_assoc, List.take_append_drop,
    Cursor.rest_skipBlanks, List.takeWhile_append_dropWhile]

theorem gap_blank (c : Cursor) : (piece c).gap.all isBlank = true := by
  rw [gap_piece, List.all_eq_true]
  exact fun b hb => List.mem_takeWhile_imp hb

/-- A word does not start with a blank. -/
theorem not_isBlank_of_slice {b : UInt8} {bs : List UInt8} (h : (piece c).slice = b :: bs) :
    isBlank b = false := by
  have hhead : (c.rest.dropWhile isBlank).head? = some b := by
    rw [slice_piece, Cursor.rest_skipBlanks] at h
    rw [← List.take_append_drop (lexeme (c.rest.dropWhile isBlank)).size
      (c.rest.dropWhile isBlank), h]
    rfl
  simpa [hhead] using List.head?_dropWhile_not isBlank c.rest

/-! ## Literals -/

/-- The literal of a name, a reserved word or a symbol is what stands in the input. -/
theorem lexeme_literal {bytes : List UInt8} (h : (lexeme bytes).kind.isVerbatim = true) :
    (lexeme bytes).literal = bytes.take (lexeme bytes).size := by
  rcases bytes with _ | ⟨b, rest⟩
  · rfl
  have hname : (name (b :: rest)).literal = (b :: rest).take (name (b :: rest)).size := by
    have h := @List.take_left _ ((b :: rest).takeWhile continuesName)
      ((b :: rest).dropWhile continuesName)
    rw [List.takeWhile_append_dropWhile] at h
    simp only [name]
    split <;> exact h.symm
  simp only [lexeme] at h ⊢
  split at h
  · split at h <;> simp [TokenKind.isVerbatim] at h
  rw [if_neg ‹_›]
  split at h
  case isTrue hstarts => rwa [if_pos hstarts]
  rw [if_neg ‹_›]
  split at h
  · simp only [number] at h
    split at h <;> simp [TokenKind.isVerbatim] at h
  rw [if_neg ‹_›]
  split at h
  case h_1 s hfound =>
    have hat : symbolAt (b :: rest) s = true := List.find?_some hfound
    simp only [symbolAt, Bool.and_eq_true] at hat
    exact List.prefix_iff_eq_take.mp (List.isPrefixOf_iff_prefix.mp hat.1)
  case h_2 => simp [TokenKind.isVerbatim] at h

/-! ## Lines and columns -/

/-- The line on which the byte behind the given ones stands. -/
def lineAfter (before : List UInt8) : Nat := 1 + before.count 0x0a

/-- The column at which the byte behind the given ones stands. -/
def columnAfter (before : List UInt8) : Nat := 1 + (before.reverse.takeWhile (· ≠ 0x0a)).length

/-- The place has the line and the column of what lies behind the given bytes. -/
structure Cursor.Behind (before : List UInt8) (c : Cursor) : Prop where
  line : c.line = lineAfter before
  column : c.column = columnAfter before

/-- Moving on by some bytes leads behind these bytes. -/
theorem Cursor.Behind.advance (h : c.Behind before) (n : Nat) :
    (c.advance n).Behind (before ++ c.rest.take n) := by
  induction n generalizing before c with
  | zero => simpa [Cursor.advance] using h
  | succ n ih =>
    rcases hc : c.rest with _ | ⟨b, rest⟩
    · simpa [Cursor.advance, hc] using h
    simp only [Cursor.advance, hc, List.take_succ_cons]
    rw [← List.singleton_append, ← List.append_assoc]
    split
    case isTrue hb =>
      subst hb
      refine @ih (before ++ [0x0a]) ⟨rest, c.line + 1, 1⟩ ⟨?_, ?_⟩
      · simp [h.line, lineAfter, Nat.add_assoc]
      · simp [columnAfter]
    case isFalse hb =>
      refine @ih (before ++ [b]) ⟨rest, c.line, c.column + 1⟩ ⟨?_, ?_⟩
      · simp [h.line, lineAfter, hb]
      · simp [h.column, columnAfter, hb, Nat.add_assoc]

/-- The token of a piece has the place of the first byte behind the blanks. -/
theorem Cursor.Behind.token (h : c.Behind before) :
    (piece c).token.line = lineAfter (before ++ (piece c).gap) ∧
      (piece c).token.column = columnAfter (before ++ (piece c).gap) := by
  have hskip := h.advance (c.rest.takeWhile isBlank).length
  rw [← c.upTo_advance] at hskip
  exact ⟨hskip.line, hskip.column⟩

/-- A step leads behind its piece. -/
theorem Cursor.Behind.next {before : List UInt8} {c : Cursor} (h : c.Behind before) :
    (next c).2.Behind (before ++ (piece c).bytes) := by
  have hskip := h.advance (c.rest.takeWhile isBlank).length
  have hword := hskip.advance (lexeme c.skipBlanks.rest).size
  rw [← c.upTo_advance, List.append_assoc] at hword
  rw [Piece.bytes, slice_piece]
  exact hword

/-! ## Whole scans -/

/-- The pieces, the last of them at the end of the input, tile the bytes that follow the ones
before: every byte is a blank in front of a word or belongs to one word. -/
structure Tiling (before bytes : List UInt8) (ps : List Piece) (last : Piece) : Prop where
  /-- Put together in their order, the pieces are the bytes. -/
  covers : ps.flatMap Piece.bytes ++ last.gap = bytes
  blank : ∀ p ∈ ps ++ [last], p.gap.all isBlank = true
  nonempty : ∀ p ∈ ps, p.slice ≠ [] ∧ p.token.kind ≠ .endOfInput
  ended : last.slice = [] ∧ last.token.kind = .endOfInput
  /-- Names, reserved words and symbols keep their text. -/
  verbatim : ∀ p ∈ ps, p.token.kind.isVerbatim = true → p.token.literal = p.slice
  /-- Every token has the line and the column of its first byte. -/
  placed : ∀ left p right, ps ++ [last] = left ++ p :: right →
    p.token.line = lineAfter (before ++ left.flatMap Piece.bytes ++ p.gap) ∧
      p.token.column = columnAfter (before ++ left.flatMap Piece.bytes ++ p.gap)

/-- Where only blanks are left, the scan ends. -/
theorem Tiling.last (hc : c.Behind before)
    (hend : c.skipBlanks.rest = []) : Tiling before c.rest [] (piece c) := by
  have hslice : (piece c).slice = [] := by rw [slice_piece, hend, List.take_nil]
  have hnext : (next c).2.rest = [] := by rw [rest_next, hend, List.drop_nil]
  have hbytes := bytes_piece c
  rw [Piece.bytes, hslice, hnext, List.append_nil, List.append_nil] at hbytes
  refine ⟨by simpa using hbytes, by simpa using gap_blank c, by simp, ⟨hslice, ?_⟩, by simp, ?_⟩
  · exact lexeme_kind.mpr hend
  · intro left p right heq
    obtain ⟨rfl, hp⟩ := List.append_eq_singleton_iff.mp heq.symm |>.resolve_right (by simp)
    cases hp
    simpa using hc.token

/-- A word in front of a tiling gives a tiling. -/
theorem Tiling.word {ps : List Piece} {last : Piece}
    (hc : c.Behind before) (hword : c.skipBlanks.rest ≠ [])
    (h : Tiling (before ++ (piece c).bytes) (next c).2.rest ps last) :
    Tiling before c.rest (piece c :: ps) last := by
  have hslice : (piece c).slice ≠ [] := by
    have hsize := lexeme_size_pos hword
    rw [slice_piece, Ne, List.take_eq_nil_iff]
    exact fun h => h.elim (by omega) hword
  have hkind : (piece c).token.kind ≠ .endOfInput := fun h => hword (lexeme_kind.mp h)
  have hliteral : (piece c).token.kind.isVerbatim = true →
      (piece c).token.literal = (piece c).slice := by
    rw [slice_piece]
    exact lexeme_literal
  refine ⟨?_, ?_, ?_, h.ended, ?_, ?_⟩
  · rw [List.flatMap_cons, List.append_assoc, h.covers, bytes_piece]
  · rw [List.cons_append]
    exact List.forall_mem_cons.mpr ⟨gap_blank c, h.blank⟩
  · exact List.forall_mem_cons.mpr ⟨⟨hslice, hkind⟩, h.nonempty⟩
  · exact List.forall_mem_cons.mpr ⟨hliteral, h.verbatim⟩
  · intro left p right heq
    rcases left with _ | ⟨q, left⟩
    · obtain ⟨rfl, -⟩ := List.cons.inj heq
      simpa using hc.token
    · obtain ⟨rfl, hrest⟩ := List.cons.inj heq
      simpa [List.append_assoc] using h.placed left p right hrest

/-- A scan with a step for every byte tiles the bytes it is given. -/
theorem tiling_pieces (hc : c.Behind before) (hfuel : c.rest.length ≤ fuel) :
    ∃ ps last, pieces fuel c = ps ++ [last] ∧ Tiling before c.rest ps last := by
  have hkind : (next c).1.kind = .endOfInput ↔ c.skipBlanks.rest = [] := lexeme_kind
  induction fuel generalizing before c with
  | zero =>
    have hrest : c.rest = [] := List.length_eq_zero_iff.mp (by omega)
    have hend : c.skipBlanks.rest = [] := by simp [Cursor.rest_skipBlanks, hrest]
    exact ⟨[], piece c, rfl, .last hc hend⟩
  | succ fuel ih =>
    simp only [pieces]
    by_cases hend : c.skipBlanks.rest = []
    · rw [if_pos (hkind.mpr hend)]
      exact ⟨[], piece c, rfl, .last hc hend⟩
    rw [if_neg fun h => hend (hkind.mp h)]
    have hshort : (next c).2.rest.length ≤ fuel := by
      have hsize := lexeme_size_pos hend
      have hpos := List.length_pos_iff.mpr hend
      have hskip : c.skipBlanks.rest.length ≤ c.rest.length := by
        rw [Cursor.rest_skipBlanks]
        exact (List.dropWhile_suffix _).length_le
      rw [rest_next, List.length_drop]
      omega
    obtain ⟨ps, last, hps, htiling⟩ := ih hc.next hshort lexeme_kind
    exact ⟨piece c :: ps, last, by rw [hps, List.cons_append], htiling.word hc hend⟩

/-- There are no more words than bytes. -/
theorem Tiling.length_le {bytes : List UInt8} {ps : List Piece} {last : Piece}
    (h : Tiling before bytes ps last) : ps.length ≤ bytes.length := by
  have hwords : ∀ qs : List Piece, (∀ p ∈ qs, p.slice ≠ []) →
      qs.length ≤ (qs.flatMap Piece.bytes).length := by
    intro qs hqs
    induction qs with
    | nil => simp
    | cons q qs ih =>
      obtain ⟨hq, hrest⟩ := List.forall_mem_cons.mp hqs
      have hpos := List.length_pos_iff.mpr hq
      have hlength := ih hrest
      rw [List.flatMap_cons, List.length_append, Piece.bytes, List.length_append, List.length_cons]
      omega
  have hlength := hwords ps fun p hp => (h.nonempty p hp).1
  rw [← h.covers, List.length_append]
  omega

/-- **The tokens tile the input.** Up to the first end of the input, a scan without zero bytes gives
at most one token for each byte, and the bytes that the tokens are read from lie one behind the
other with only blanks between them; each token has the line and the column of its first byte, and a
name, a reserved word or a symbol has its bytes as the literal. -/
theorem tokens_tile {bytes : List UInt8} (hzero : 0 ∉ bytes) :
    ∃ ps last, pieces bytes.length ⟨bytes, 1, 1⟩ = ps ++ [last] ∧
      tokens bytes = (ps ++ [last]).map Piece.token ∧
      ps.length ≤ bytes.length ∧ Tiling [] bytes ps last := by
  have hinput : bytes.takeWhile (· ≠ 0) = bytes :=
    List.takeWhile_eq_self_iff.mpr fun b hb => by
      have hb : b ≠ 0 := fun h => hzero (h ▸ hb)
      simpa using hb
  have hstart : (⟨bytes, 1, 1⟩ : Cursor).Behind [] := ⟨rfl, rfl⟩
  obtain ⟨ps, last, hps, htiling⟩ := tiling_pieces hstart (Nat.le_refl _)
  refine ⟨ps, last, hps, ?_, htiling.length_le, htiling⟩
  rw [tokens, hinput, ← map_token_pieces, ← hps]

/-- A string cut off by the end of its line, and a name behind it on the next line. -/
theorem tokens_tile_cutString :
    ∃ ps last, pieces 6 ⟨[0x22, 0x61, 0x0a, 0x20, 0x62, 0x09], 1, 1⟩ = ps ++ [last] ∧
      tokens [0x22, 0x61, 0x0a, 0x20, 0x62, 0x09] = (ps ++ [last]).map Piece.token ∧
      ps.length ≤ 6 ∧ Tiling [] [0x22, 0x61, 0x0a, 0x20, 0x62, 0x09] ps last :=
  @tokens_tile [0x22, 0x61, 0x0a, 0x20, 0x62, 0x09] (by decide)

end Scan

end ShapeCheck
