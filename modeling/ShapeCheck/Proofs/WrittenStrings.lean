import ShapeCheck.Proofs.ScannedWords
import ShapeCheck.Proofs.Tiling

/-!
# Strings as they are written

A string is written between two quotes of one kind. Inside, the backslash, this quote, the newline,
the carriage return and the tab stand as escapes, and every other byte stands for itself, the quote
of the other kind and the bytes of longer characters too.

* `stringBody_write`: the inside of a written string is read as the string, up to its closing quote.
* `tokens_write`: a written string is one token with the string for its literal, and so every string
  that was scanned can be written.
-/

namespace ShapeCheck.Scan

variable {s bytes : List UInt8}

/-- The two kinds of quotes. -/
inductive Quote where
  | single
  | double
  deriving DecidableEq, Repr

namespace Quote

/-- The byte of a quote. -/
def byte : Quote → UInt8
  | single => 0x27
  | double => 0x22

/-- What stands for a byte between the quotes. -/
def escape (q : Quote) (b : UInt8) : List UInt8 :=
  if b = 0x5c ∨ b = q.byte then [0x5c, b]
  else if b = 0x0a then [0x5c, 0x6e]
  else if b = 0x0d then [0x5c, 0x72]
  else if b = 0x09 then [0x5c, 0x74]
  else [b]

/-- A string with its quotes. -/
def write (q : Quote) (s : List UInt8) : List UInt8 := q.byte :: s.flatMap q.escape ++ [q.byte]

variable {q : Quote}

/-- A byte stands for itself, if it does not end the string and is no backslash, or it stands behind
a backslash as the mark that is read back as the byte. -/
theorem escape_cases (q : Quote) (b : UInt8) :
    (q.escape b = [b] ∧ b ∉ [q.byte, 0x0a, 0x0d, 0x5c]) ∨
      ∃ m, q.escape b = [0x5c, m] ∧ m ≠ 0 ∧ unescape? m = some b := by
  unfold escape
  split_ifs with hmark hnewline hreturn htab
  · refine .inr ⟨b, rfl, ?_⟩
    rcases hmark with rfl | rfl
    · decide
    · cases q <;> decide
  · exact .inr ⟨0x6e, rfl, by decide, hnewline ▸ rfl⟩
  · exact .inr ⟨0x72, rfl, by decide, hreturn ▸ rfl⟩
  · exact .inr ⟨0x74, rfl, by decide, htab ▸ rfl⟩
  · exact .inl ⟨rfl, by simp_all⟩

/-- The inside of a written string is read back. -/
theorem stringBody_write (s rest : List UInt8) :
    stringBody q.byte (s.flatMap q.escape ++ q.byte :: rest) =
      (some s, (s.flatMap q.escape).length + 1) := by
  have hbyte : q.byte ≠ 0x5c := by cases q <;> decide
  induction s with
  | nil => exact stringBody_close q.byte rest
  | cons b s ih =>
    rw [List.flatMap_cons, List.append_assoc]
    rcases q.escape_cases b with ⟨hb, hplain⟩ | ⟨m, hb, -, hm⟩
    · rw [hb, List.singleton_append, stringBody_plain hplain, ih]
      rfl
    · rw [hb, List.cons_append, List.singleton_append, stringBody_escape hbyte hm, ih]
      rfl

/-- A written string is one word. -/
theorem lexeme_write (s rest : List UInt8) :
    lexeme (q.write s ++ rest) = ⟨.string, s, (q.write s).length⟩ := by
  have hquote : (q.byte = 0x22 || q.byte = 0x27) = true := by cases q <;> rfl
  rw [write, List.append_assoc, List.cons_append, List.singleton_append, lexeme, hquote,
    stringBody_write]
  simp

theorem zero_notMem_write (hzero : 0 ∉ s) : 0 ∉ q.write s := by
  have hbyte : (0 : UInt8) ≠ q.byte := by cases q <;> decide
  have hinside : 0 ∉ s.flatMap q.escape := by
    intro hmem
    obtain ⟨b, hb, hmem⟩ := List.mem_flatMap.mp hmem
    rcases q.escape_cases b with ⟨heq, -⟩ | ⟨m, heq, hm, -⟩
    · rw [heq, List.mem_singleton] at hmem
      exact hzero (hmem ▸ hb)
    · rw [heq, List.mem_cons, List.mem_singleton] at hmem
      exact hmem.elim (by decide) fun h => hm h.symm
  simp [write, hbyte, hinside]

/-- The words of a written string are the string. -/
theorem scanned_write (hzero : 0 ∉ s) : Scanned (q.write s) [⟨.string, s⟩] := by
  have hstart : ∃ b, (q.write s).head? = some b ∧ isBlank b = false :=
    ⟨q.byte, rfl, by cases q <;> rfl⟩
  have h := Scanned.nil.cons (w := ⟨.string, s⟩) hstart
    (zero_notMem_write hzero) (lexeme_write s [])
  rwa [List.append_nil] at h

end Quote

/-! ## Strings that were scanned -/

theorem unescape?_ne_zero {b d : UInt8} (h : unescape? b = some d) : d ≠ 0 := by
  simp only [unescape?] at h
  grind

/-- A string has no zero byte if the input has none. -/
theorem zero_notMem_stringBody {quote : UInt8} (hzero : 0 ∉ bytes)
    (h : (stringBody quote bytes).1 = some s) : 0 ∉ s := by
  fun_induction stringBody quote bytes generalizing s with
  | case1 | case3 | case4 | case5 => simp at h
  | case2 => simp_all
  | case6 c rest d hd body n hbody _ _ ih =>
    obtain ⟨t, rfl, rfl⟩ := Option.map_eq_some_iff.mp h
    rw [List.mem_cons, List.mem_cons, not_or, not_or] at hzero
    rw [hbody] at ih
    simp [(unescape?_ne_zero hd).symm, ih hzero.2.2 rfl]
  | case7 b rest _ _ _ body n hbody ih =>
    obtain ⟨t, rfl, rfl⟩ := Option.map_eq_some_iff.mp h
    rw [List.mem_cons, not_or] at hzero
    rw [hbody] at ih
    simp [hzero.1, ih hzero.2 rfl]

/-- The literal of a string token was read between quotes. -/
theorem exists_stringBody (h : (lexeme bytes).kind = .string) :
    ∃ b rest, bytes = b :: rest ∧ (stringBody b rest).1 = some (lexeme bytes).literal := by
  rcases bytes with _ | ⟨b, rest⟩
  · simp [lexeme] at h
  refine ⟨b, rest, rfl, ?_⟩
  simp only [lexeme] at h ⊢
  split at h
  · rw [if_pos ‹_›]
    split at h
    next literal n heq =>
      rw [heq]
    · simp at h
  split at h
  · simp only [name] at h
    split at h <;> simp at h
  split at h
  · simp only [number] at h
    split at h <;> simp at h
  split at h <;> simp at h

/-- The literal of a string has no zero byte, since scanning ends at such a byte. -/
theorem zero_notMem_literal {t : Token} (ht : t ∈ tokens bytes)
    (hkind : t.kind = .string) : 0 ∉ t.literal := by
  rw [tokens, ← map_token_pieces] at ht
  obtain ⟨p, hp, rfl⟩ := List.mem_map.mp ht
  obtain ⟨c, hc, rfl⟩ := exists_of_mem_pieces hp
  have hinput : ∀ b ∈ c.skipBlanks.rest, b ≠ 0 := by
    intro b hb
    rw [Cursor.rest_skipBlanks] at hb
    have hb := List.mem_takeWhile_imp (hc.mem ((List.dropWhile_suffix _).mem hb))
    simpa using hb
  change (lexeme c.skipBlanks.rest).kind = .string at hkind
  obtain ⟨b, rest, hrest, hbody⟩ := exists_stringBody hkind
  refine zero_notMem_stringBody (fun hzero => ?_) hbody
  exact hinput 0 (hrest ▸ List.mem_cons_of_mem b hzero) rfl

/-- **Strings are read as they were written.** A string without zero bytes, written with quotes of
either kind, is one token with the string for its literal; and the literal of every string token of
an input can be written in this way, with quotes of either kind. -/
theorem tokens_write (q : Quote) :
    (∀ s, 0 ∉ s → (tokens (q.write s)).map Token.word = [⟨.string, s⟩, .endOfInput]) ∧
      ∀ bytes, ∀ t ∈ tokens bytes, t.kind = .string →
        (tokens (q.write t.literal)).map Token.word = [⟨.string, t.literal⟩, .endOfInput] :=
  ⟨fun _ hzero => (Quote.scanned_write hzero).tokens,
    fun _ _ ht hkind => (Quote.scanned_write (zero_notMem_literal ht hkind)).tokens⟩

/-- A string with a quote of each kind, a backslash in front of one of them, a newline and a
character of two bytes; and the same quote inside a string that was written by hand. -/
theorem tokens_write_mixed :
    (tokens (Quote.single.write [0x27, 0x5c, 0x22, 0x0a, 0xc3, 0xa9])).map Token.word =
        [⟨.string, [0x27, 0x5c, 0x22, 0x0a, 0xc3, 0xa9]⟩, .endOfInput] ∧
      (tokens (Quote.single.write [0x27])).map Token.word = [⟨.string, [0x27]⟩, .endOfInput] :=
  have hfirst : (tokens [0x20, 0x22, 0x5c, 0x27, 0x22, 0x2b])[0]? =
    some ⟨.string, [0x27], 1, 2⟩ := by
    rfl
  ⟨(tokens_write .single).1 _ (by decide),
    (tokens_write .single).2 _ _ (List.mem_of_getElem? hfirst) rfl⟩

end ShapeCheck.Scan
