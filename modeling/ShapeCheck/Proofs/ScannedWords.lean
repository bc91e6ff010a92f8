import Mathlib.Data.List.TakeWhile
import ShapeCheck.Proofs.Scanning
import ShapeCheck.Proofs.TextBytes

/-!
# Words in a row

When a text is put together from words, scanning gives these words back, as long as none of them
goes on into the next.

* `Scanned` says that a byte string is a row of words with blanks between them, and `Scanned.tokens`
  that its tokens are these words.
* `closesWord` says that a name or a number in front is not continued, `Symbol.Follows` the same of
  a symbol.
* The remaining lemmas put one word in front of a row: names, numbers, quoted text and symbols.
-/

namespace ShapeCheck

variable {bytes rest ds : List UInt8} {c : Char} {b quote : UInt8} {s : String}

/-- What a token says, without its place. -/
structure Word where
  kind : TokenKind
  literal : List UInt8
  deriving DecidableEq

/-- What the token says. -/
def Token.word (t : Token) : Word := ⟨t.kind, t.literal⟩

namespace Word

/-- A symbol as a word. -/
def symbol (s : Symbol) : Word := ⟨.symbol s, utf8Bytes s.text⟩

/-- A reserved word. -/
def keyword (k : Keyword) : Word := ⟨.keyword k, utf8Bytes k.text⟩

/-- The word behind the last one. -/
def endOfInput : Word := ⟨.endOfInput, []⟩

end Word

namespace Scan

/-! ## Rows of words -/

/-- The bytes are the words in this order, with blanks around them. -/
inductive Scanned : List UInt8 → List Word → Prop
  | nil : Scanned [] []
  | blank {b : UInt8} {rest : List UInt8} {ws : List Word} (hb : isBlank b = true)
    (h : Scanned rest ws) : Scanned (b :: rest) ws
  | word {b : UInt8} {bytes rest : List UInt8} {w : Word} {ws : List Word}
    (hb : isBlank b = false) (hzero : 0 ∉ b :: bytes)
    (hw : lexeme (b :: bytes ++ rest) = ⟨w.kind, w.literal, (b :: bytes).length⟩)
    (h : Scanned rest ws) : Scanned (b :: bytes ++ rest) (w :: ws)

theorem Scanned.zero_notMem {ws : List Word} (h : Scanned bytes ws) : 0 ∉ bytes := by
  induction h with
  | nil => simp
  | @blank b rest ws hb _ ih =>
    have hne : b ≠ 0 := by rintro rfl; simp [isBlank] at hb
    simp [ih, hne.symm]
  | word _ hzero _ _ ih => exact fun hmem => (List.mem_append.mp hmem).elim hzero ih

theorem Cursor.skipBlanks_blank {c : Cursor} (hc : c.rest = b :: rest) (hb : isBlank b = true) :
    c.skipBlanks = (c.advance 1).skipBlanks := by
  have hone : ∀ n, c.advance (n + 1) = (c.advance 1).advance n := by
    intro n
    simp only [Cursor.advance, hc]
    split <;> rfl
  have hrest : (c.advance 1).rest = rest := by
    rw [Cursor.rest_advance, hc, List.drop_one, List.tail_cons]
  rw [Cursor.skipBlanks, Cursor.skipBlanks, hrest, hc, List.takeWhile_cons_of_pos hb,
    List.length_cons, hone]

theorem Cursor.skipBlanks_word {c : Cursor}
    (hc : c.rest = b :: rest) (hb : isBlank b = false) : c.skipBlanks = c := by
  rw [Cursor.skipBlanks, hc, List.takeWhile_cons_of_neg (by simp [hb])]
  rfl

theorem collect_congr {fuel : Nat} {c c' : Cursor} (h : c.skipBlanks = c'.skipBlanks) :
    collect fuel c = collect fuel c' := by
  have hnext : next c = next c' := by simp only [next, h]
  cases fuel <;> simp only [collect, hnext]

theorem Scanned.collect {bytes : List UInt8} {ws : List Word} (h : Scanned bytes ws) :
    ∀ (c : Cursor) (fuel : Nat), c.rest = bytes → bytes.length ≤ fuel →
      (collect fuel c).map Token.word = ws ++ [Word.endOfInput] := by
  induction h with
  | nil =>
    intro c fuel hc _
    have hrest : c.skipBlanks.rest = [] := by rw [Cursor.rest_skipBlanks, hc, List.dropWhile_nil]
    have hnext : (next c).1.word = Word.endOfInput := by simp only [next, hrest]; rfl
    have hkind : (next c).1.kind = .endOfInput := congrArg Word.kind hnext
    cases fuel <;> simp [Scan.collect, hnext, hkind]
  | blank hb _ ih =>
    intro c fuel hc hfuel
    rw [collect_congr (Cursor.skipBlanks_blank hc hb)]
    refine ih _ fuel (by rw [Cursor.rest_advance, hc, List.drop_one, List.tail_cons]) ?_
    simp only [List.length_cons] at hfuel
    omega
  | @word b bytes rest w ws hb _ hw h ih =>
    intro c fuel hc hfuel
    have hskip : c.skipBlanks = c := Cursor.skipBlanks_word hc hb
    have hword : (next c).1.word = w := by simp only [next, hskip, hc, hw]; rfl
    have hrest : (next c).2.rest = rest := by
      rw [rest_next, hskip, hc, hw]
      exact List.drop_left
    have hkind : (next c).1.kind ≠ .endOfInput := by
      have : (next c).1.kind = (lexeme (b :: bytes ++ rest)).kind := by simp only [next, hskip, hc]
      rw [this, Ne, lexeme_kind]
      simp
    cases fuel with
    | zero => simp at hfuel
    | succ fuel =>
      simp only [List.length_append, List.length_cons] at hfuel
      simp only [Scan.collect, if_neg hkind, List.map_cons, hword, List.cons_append]
      rw [ih _ fuel hrest (by omega)]

/-- The tokens of a row of words are these words and the end of the input. -/
theorem Scanned.tokens {bytes : List UInt8} {ws : List Word} (h : Scanned bytes ws) :
    (tokens bytes).map Token.word = ws ++ [Word.endOfInput] := by
  have hall : bytes.takeWhile (· ≠ 0) = bytes := by
    have hne : ∀ b ∈ bytes, decide (b ≠ 0) = true := fun b hb =>
      decide_eq_true fun hzero => h.zero_notMem (hzero ▸ hb)
    exact List.takeWhile_eq_self_iff.mpr hne
  simp only [Scan.tokens, hall]
  exact h.collect _ _ rfl (Nat.le_refl _)

theorem Scanned.cons {w : Word} {ws : List Word} (h : Scanned rest ws)
    (hstart : ∃ b, bytes.head? = some b ∧ isBlank b = false) (hzero : 0 ∉ bytes)
    (hw : lexeme (bytes ++ rest) = ⟨w.kind, w.literal, bytes.length⟩) :
    Scanned (bytes ++ rest) (w :: ws) := by
  obtain ⟨b, hb, hblank⟩ := hstart
  obtain ⟨bs, rfl⟩ := List.head?_eq_some_iff.mp hb
  exact .word hblank hzero hw h

/-- Whether a name or a number in front of the bytes ends there. -/
def closesWord : List UInt8 → Bool
  | [] => true
  | b :: rest => !continuesName b && !(b = 0x2e && rest.head?.any isDigit)

/-! ## Names -/

/-- The characters that start a name: letters, the underscore and the dollar sign. -/
def isNameStart (c : Char) : Bool := c.isAlpha || c = '_' || c = '$'

/-- The characters that continue a name: these and digits. -/
def isNamePart (c : Char) : Bool := isNameStart c || c.isDigit

/-- Whether the text is a name, reserved or not. -/
def isName (s : String) : Bool :=
  s.toList.head?.any isNameStart && s.toList.all isNamePart

/-- Whether the text is a reserved word. -/
def isReserved (s : String) : Bool := Keyword.all.any fun k => k.text = s

theorem ascii_of_isNamePart (h : isNamePart c = true) : c.toNat < 128 := by
  have halpha : c.isAlpha = (decide (c.val ≥ 'A'.val ∧ c.val ≤ 'Z'.val) ||
      decide (c.val ≥ 'a'.val) && decide (c.val ≤ 'z'.val)) := rfl
  simp only [isNamePart, isNameStart, halpha, Char.isDigit, Bool.or_eq_true, Bool.and_eq_true,
    decide_eq_true_eq, UInt32.le_iff_toNat_le, ge_iff_le, Char.ext_iff, ← UInt32.toNat_inj] at h
  have hval : c.toNat = c.val.toNat := rfl
  have hZ : 'Z'.val.toNat = 90 := rfl
  have hz : 'z'.val.toNat = 122 := rfl
  have hunderscore : '_'.val.toNat = 95 := rfl
  have hdollar : '$'.val.toNat = 36 := rfl
  have hnine : '9'.val.toNat = 57 := rfl
  omega

theorem continuesName_asciiByte (h : c.toNat < 128) : continuesName (asciiByte c) = isNamePart c :=
  ascii_cases (P := fun c => continuesName (asciiByte c) = isNamePart c) (by decide) h

theorem startsName_asciiByte (h : c.toNat < 128) : startsName (asciiByte c) = isNameStart c :=
  ascii_cases (P := fun c => startsName (asciiByte c) = isNameStart c) (by decide) h

theorem isDigit_asciiByte (h : c.toNat < 128) : isDigit (asciiByte c) = c.isDigit :=
  ascii_cases (P := fun c => isDigit (asciiByte c) = c.isDigit) (by decide) h

/-- The bytes of a name: the first may start one, and all may continue one. -/
theorem utf8Bytes_of_isName (h : isName s = true) :
    (∃ b, (utf8Bytes s).head? = some b ∧ startsName b = true) ∧
      ∀ b ∈ utf8Bytes s, continuesName b = true := by
  simp only [isName, Bool.and_eq_true, List.all_eq_true, Option.any_eq_true] at h
  obtain ⟨⟨c, hc, hstart⟩, hall⟩ := h
  have hascii : ∀ c ∈ s.toList, c.toNat < 128 := fun c hc => ascii_of_isNamePart (hall c hc)
  have hbytes : utf8Bytes s = s.toList.map asciiByte := by
    rw [← utf8Bytes_ascii hascii, String.ofList_toList]
  rw [hbytes]
  refine ⟨⟨asciiByte c, by rw [List.head?_map, hc]; rfl, ?_⟩, ?_⟩
  · rw [startsName_asciiByte (hascii c (List.mem_of_head? hc)), hstart]
  · intro b hb
    obtain ⟨d, hd, rfl⟩ := List.mem_map.mp hb
    rw [continuesName_asciiByte (hascii d hd), hall d hd]

/-- The kind of the word that a name is. -/
def nameKind (s : String) : TokenKind := ((keyword? (utf8Bytes s)).map .keyword).getD .identifier

theorem nameKind_of_not_isReserved (h : isReserved s = false) : nameKind s = .identifier := by
  have hnone : keyword? (utf8Bytes s) = none := by
    refine List.find?_eq_none.mpr fun k hk => ?_
    simp only [isReserved, List.any_eq_false, decide_eq_true_eq] at h
    simp only [decide_eq_true_eq]
    intro hbytes
    refine h k hk ?_
    rw [← ofUtf8Bytes_utf8Bytes k.text, hbytes, ofUtf8Bytes_utf8Bytes]
  rw [nameKind, hnone]
  rfl

theorem nameKind_keyword (k : Keyword) : nameKind k.text = .keyword k := by
  cases k <;> with_unfolding_all rfl

/-- A name, reserved or not, is one word. -/
theorem lexeme_name (h : isName s = true) (hrest : closesWord rest = true) :
    lexeme (utf8Bytes s ++ rest) = ⟨nameKind s, utf8Bytes s, (utf8Bytes s).length⟩ := by
  obtain ⟨⟨b, hb, hstart⟩, hall⟩ := utf8Bytes_of_isName h
  obtain ⟨bs, hbs⟩ := List.head?_eq_some_iff.mp hb
  have hquote : (b = 0x22 || b = 0x27) = false := by
    by_cases hb : b = 0x22 ∨ b = 0x27
    · rcases hb with rfl | rfl <;> exact absurd hstart (by decide)
    · simpa using hb
  have hstop : rest.takeWhile continuesName = [] := by
    cases rest with
    | nil => rfl
    | cons c rest =>
      simp only [closesWord, Bool.and_eq_true, Bool.not_eq_true'] at hrest
      exact List.takeWhile_cons_of_neg (by simp [hrest.1])
  have hname : (utf8Bytes s ++ rest).takeWhile continuesName = utf8Bytes s := by
    rw [List.takeWhile_append_of_pos hall, hstop, List.append_nil]
  have hlexeme : lexeme (utf8Bytes s ++ rest) = name (utf8Bytes s ++ rest) := by
    rw [hbs, List.cons_append, lexeme, hquote, hstart]
    rfl
  rw [hlexeme, name, hname, nameKind]
  cases keyword? (utf8Bytes s) <;> rfl

/-! ## Numbers -/

theorem digits_append (hds : ∀ b ∈ ds, isDigit b = true)
    (hrest : digits rest = ([], 0)) : digits (ds ++ rest) = (ds, ds.length) := by
  induction ds with
  | nil => exact hrest
  | cons b ds ih =>
    have hb := hds b List.mem_cons_self
    have ih := ih fun d hd => hds d (List.mem_cons_of_mem b hd)
    simp [digits, hb, ih]

/-- Behind a whole number neither digits nor a fraction nor an exponent follow. -/
structure ClosesNumber (rest : List UInt8) : Prop where
  digits : digits rest = ([], 0)
  fraction : fraction rest = ([], 0)
  exponent : exponent rest = ([], 0)

theorem closesNumber_cons (hdigit : isDigit b = false)
    (hunderscore : b ≠ 0x5f) (hpoint : b = 0x2e → rest.head?.any isDigit = false)
    (hexponent : b ≠ 0x65 ∧ b ≠ 0x45) : ClosesNumber (b :: rest) := by
  refine ⟨?_, ?_, ?_⟩
  · simp [digits, hdigit, hunderscore]
  · unfold fraction
    split
    case h_1 c cs heq =>
      cases heq
      have := hpoint rfl
      simp only [List.head?_cons, Option.any_some] at this
      simp [this]
    case h_2 => rfl
  · cases rest <;> simp [exponent, hexponent]

theorem ClosesNumber.of_closesWord (h : closesWord rest = true) :
    ClosesNumber rest ∧ rest.head? ≠ some 0x6e := by
  cases rest with
  | nil => exact ⟨⟨rfl, rfl, rfl⟩, by simp⟩
  | cons b rest =>
    simp only [closesWord, Bool.and_eq_true, Bool.not_eq_true'] at h
    obtain ⟨hname, hpoint⟩ := h
    have hne : ∀ c, continuesName c = true → b ≠ c := by rintro c hc rfl; simp [hname] at hc
    refine ⟨closesNumber_cons ?_ (hne _ (by decide)) ?_ ⟨hne _ (by decide), hne _ (by decide)⟩, ?_⟩
    · simp only [continuesName, Bool.or_eq_false_iff] at hname
      exact hname.1.2
    · rintro rfl
      simpa using hpoint
    · simpa using hne 0x6e (by decide)

theorem ClosesNumber.of_mark (rest : List UInt8) : ClosesNumber (0x6e :: rest) :=
  closesNumber_cons (by decide) (by decide) (fun h => absurd h (by decide)) (by decide)

/-- Whether the text is a row of digits. -/
def isWhole (s : String) : Bool := !s.toList.isEmpty && s.toList.all Char.isDigit

theorem utf8Bytes_of_isWhole (h : isWhole s = true) :
    utf8Bytes s ≠ [] ∧ ∀ b ∈ utf8Bytes s, isDigit b = true := by
  simp only [isWhole, Bool.and_eq_true, Bool.not_eq_true', List.all_eq_true] at h
  obtain ⟨hne, hall⟩ := h
  have hascii : ∀ c ∈ s.toList, c.toNat < 128 := fun c hc =>
    ascii_of_isNamePart (by simp [isNamePart, hall c hc])
  have hbytes : utf8Bytes s = s.toList.map asciiByte := by
    rw [← utf8Bytes_ascii hascii, String.ofList_toList]
  rw [hbytes]
  refine ⟨by simpa using hne, fun b hb => ?_⟩
  obtain ⟨d, hd, rfl⟩ := List.mem_map.mp hb
  rw [isDigit_asciiByte (hascii d hd), hall d hd]

theorem lexeme_whole (hne : ds ≠ []) (hds : ∀ b ∈ ds, isDigit b = true)
    (hrest : ClosesNumber rest) :
    lexeme (ds ++ rest) = if rest.head? = some 0x6e then ⟨.bigint, ds, ds.length + 1⟩
      else ⟨.number, ds, ds.length⟩ := by
  obtain ⟨b, bs, rfl⟩ := List.exists_cons_of_ne_nil hne
  have hb := hds b List.mem_cons_self
  have hquote : (b = 0x22 || b = 0x27) = false := by grind [isDigit]
  have hname : startsName b = false := by grind [isDigit, startsName, isLetter]
  have hlexeme : lexeme (b :: bs ++ rest) = number (b :: bs ++ rest) := by
    rw [List.cons_append, lexeme, hquote, hname, hb]
    rfl
  rw [hlexeme, number, digits_append hds hrest.digits]
  dsimp only
  rw [List.drop_left, hrest.fraction]
  dsimp only
  rw [Nat.add_zero, List.drop_left, hrest.exponent]
  dsimp only
  rw [Nat.add_zero, List.drop_left, List.append_nil, List.append_nil]
  split
  case h_1 => rfl
  case h_2 hne =>
    have hhead : rest.head? ≠ some 0x6e := fun h => by
      obtain ⟨tail, htail⟩ := List.head?_eq_some_iff.mp h
      exact hne tail htail
    rw [if_neg hhead]

/-! ## Quoted text -/

/-- The characters whose quoted form is read back: printable ASCII, the newline, the tab and the
carriage return. -/
def isQuotable (c : Char) : Bool :=
  decide (0x20 ≤ c.toNat) && decide (c.toNat ≤ 0x7e) || c = '\n' || c = '\t' || c = '\r'

theorem ascii_of_isQuotable (h : isQuotable c = true) : c.toNat < 128 := by
  simp only [isQuotable, Bool.or_eq_true, Bool.and_eq_true, decide_eq_true_eq] at h
  obtain ((⟨-, h⟩ | rfl) | rfl) | rfl := h
  · omega
  all_goals decide

/-- The marks behind a backslash that quoting uses. -/
def escapeMarks : List Char := ['"', '\\', 'n', 't', 'r']

/-- Whether a quoted character is the character itself, or a backslash and the mark of an escape. -/
def isShown (c : Char) : Bool :=
  Text.quoteChar c == [c] && !([0x22, 0x0a, 0x0d, 0x5c].contains (asciiByte c)) ||
    escapeMarks.any fun m =>
      Text.quoteChar c == ['\\', m] && unescape? (asciiByte m) == some (asciiByte c)

theorem isShown_of_isQuotable (h : isQuotable c = true) : isShown c = true :=
  ascii_cases (P := fun c => isQuotable c = true → isShown c = true) (by decide +kernel)
    (ascii_of_isQuotable h) h

theorem shown_of_isQuotable (h : isQuotable c = true) :
    Text.quoteChar c = [c] ∧ asciiByte c ∉ [0x22, 0x0a, 0x0d, 0x5c] ∨
      ∃ m ∈ escapeMarks, Text.quoteChar c = ['\\', m] ∧
        unescape? (asciiByte m) = some (asciiByte c) := by
  have hshown := isShown_of_isQuotable h
  simp only [isShown, Bool.or_eq_true, Bool.and_eq_true, List.any_eq_true, beq_iff_eq,
    Bool.not_eq_true', List.contains_eq_mem, decide_eq_false_iff_not] at hshown
  exact hshown

theorem stringBody_plain (hb : b ∉ [quote, 0x0a, 0x0d, 0x5c]) :
    stringBody quote (b :: bytes) =
      ((stringBody quote bytes).1.map (b :: ·), (stringBody quote bytes).2 + 1) := by
  simp only [List.mem_cons, not_or] at hb
  rw [stringBody.eq_def]
  simp [hb]

theorem stringBody_escape {m : UInt8} (hquote : quote ≠ 0x5c) (hm : unescape? m = some b) :
    stringBody quote (0x5c :: m :: bytes) =
      ((stringBody quote bytes).1.map (b :: ·), (stringBody quote bytes).2 + 2) := by
  rw [stringBody.eq_def]
  simp [hm, hquote.symm]

theorem stringBody_close (quote : UInt8) (bytes : List UInt8) :
    stringBody quote (quote :: bytes) = (some [], 1) := by
  rw [stringBody.eq_def]
  simp

/-- The inside of quoted text is read back as it was. -/
theorem stringBody_quoted {cs : List Char} (h : ∀ c ∈ cs, isQuotable c = true) :
    stringBody 0x22 ((cs.flatMap Text.quoteChar).map asciiByte ++ 0x22 :: rest) =
      (some (cs.map asciiByte), (cs.flatMap Text.quoteChar).length + 1) := by
  induction cs with
  | nil => exact stringBody_close 0x22 rest
  | cons c cs ih =>
    have ih := ih fun d hd => h d (List.mem_cons_of_mem c hd)
    rw [List.flatMap_cons]
    rcases shown_of_isQuotable (h c List.mem_cons_self) with ⟨hquote, hplain⟩ | ⟨m, -, hquote, hm⟩
    · rw [hquote, List.singleton_append, List.map_cons, List.cons_append,
        stringBody_plain hplain, ih]
      rfl
    · rw [hquote, List.cons_append, List.singleton_append, List.map_cons, List.map_cons,
        List.cons_append, List.cons_append]
      have hbackslash : asciiByte '\\' = 0x5c := by decide
      rw [hbackslash, stringBody_escape (by decide) hm, ih]
      rfl

theorem utf8Bytes_of_isQuotable (h : ∀ c ∈ s.toList, isQuotable c = true) :
    utf8Bytes s = s.toList.map asciiByte := by
  rw [← utf8Bytes_ascii fun c hc => ascii_of_isQuotable (h c hc), String.ofList_toList]

theorem ascii_of_mem_quoteChar {d : Char} (h : isQuotable c = true) (hd : d ∈ Text.quoteChar c) :
    d.toNat < 128 := by
  rcases shown_of_isQuotable h with ⟨hquote, -⟩ | ⟨m, hm, hquote, -⟩
  · obtain rfl : d = c := by simpa [hquote] using hd
    exact ascii_of_isQuotable h
  · have hmarks : ∀ m ∈ escapeMarks, m.toNat < 128 := by simp [escapeMarks]
    obtain rfl | rfl : d = '\\' ∨ d = m := by simpa [hquote] using hd
    · decide
    · exact hmarks d hm

theorem utf8Bytes_quoted (h : ∀ c ∈ s.toList, isQuotable c = true) :
    utf8Bytes (Text.quoted s) =
      0x22 :: (s.toList.flatMap Text.quoteChar).map asciiByte ++ [0x22] := by
  have hquote : asciiByte '"' = 0x22 := by decide
  have hmark : '"'.toNat < 128 := by decide
  have hinside : ∀ d ∈ s.toList.flatMap Text.quoteChar, d.toNat < 128 := by
    intro d hd
    obtain ⟨c, hc, hd⟩ := List.mem_flatMap.mp hd
    exact ascii_of_mem_quoteChar (h c hc) hd
  have hall : ∀ d ∈ '"' :: s.toList.flatMap Text.quoteChar ++ ['"'], d.toNat < 128 := by
    intro d hd
    rcases List.mem_append.mp hd with hd | hd
    · rcases List.mem_cons.mp hd with rfl | hd
      · exact hmark
      · exact hinside d hd
    · exact List.mem_singleton.mp hd ▸ hmark
  rw [Text.quoted, utf8Bytes_ascii hall, List.map_append, List.map_cons, hquote]
  simp [hquote]

theorem lexeme_quoted (h : ∀ c ∈ s.toList, isQuotable c = true) :
    lexeme (utf8Bytes (Text.quoted s) ++ rest) =
      ⟨.string, utf8Bytes s, (utf8Bytes (Text.quoted s)).length⟩ := by
  have hbody := @stringBody_quoted rest _ h
  rw [utf8Bytes_quoted h, utf8Bytes_of_isQuotable h, List.append_assoc, List.cons_append,
    List.singleton_append, lexeme, hbody]
  simp

/-! ## Symbols -/

/-- The bytes of a symbol. -/
def symbolBytes : Symbol → List UInt8
  | .spread => [0x2e, 0x2e, 0x2e] | .strictEqual => [0x3d, 0x3d, 0x3d]
  | .strictNotEqual => [0x21, 0x3d, 0x3d]
  | .arrow => [0x3d, 0x3e] | .equal => [0x3d, 0x3d] | .notEqual => [0x21, 0x3d]
  | .lessEqual => [0x3c, 0x3d] | .greaterEqual => [0x3e, 0x3d]
  | .logicalAnd => [0x26, 0x26] | .logicalOr => [0x7c, 0x7c] | .coalesce => [0x3f, 0x3f]
  | .optionalChain => [0x3f, 0x2e]
  | .assign => [0x3d] | .plus => [0x2b] | .minus => [0x2d] | .bang => [0x21] | .asterisk => [0x2a]
  | .slash => [0x2f] | .percent => [0x25] | .less => [0x3c] | .greater => [0x3e] | .dot => [0x2e]
  | .pipe => [0x7c] | .ampersand => [0x26] | .comma => [0x2c] | .semicolon => [0x3b]
  | .colon => [0x3a] | .leftParen => [0x28] | .rightParen => [0x29] | .leftBrace => [0x7b]
  | .rightBrace => [0x7d] | .leftBracket => [0x5b] | .rightBracket => [0x5d] | .question => [0x3f]

theorem utf8Bytes_symbol (s : Symbol) : utf8Bytes s.text = symbolBytes s := by
  cases s <;> with_unfolding_all rfl

/-- The bytes that may extend a symbol to a longer one. -/
def extendsSymbol (b : UInt8) : Bool := b ∈ [0x2e, 0x3d, 0x3e, 0x26, 0x7c, 0x3f]

/-- The symbol is no beginning of a longer one. -/
def standsAlone : Symbol → Bool
  | .minus | .comma | .colon | .leftParen | .rightParen | .leftBrace | .rightBrace | .leftBracket
  | .rightBracket => true
  | _ => false

/-- Whether a symbol in front of the bytes ends there. -/
def closesSymbol (s : Symbol) (rest : List UInt8) : Bool :=
  standsAlone s || rest.head?.all fun b => !extendsSymbol b && !(s = .optionalChain && isDigit b)

theorem mem_all (s : Symbol) : s ∈ Symbol.all := by
  cases s <;> decide

/-- A longer symbol goes on with a byte that extends the shorter one. -/
theorem symbolBytes_longer {s t : Symbol} {bs : List UInt8}
    (h : symbolBytes t = symbolBytes s ++ b :: bs) :
    standsAlone s = false ∧ extendsSymbol b = true := by
  have hall : ∀ s ∈ Symbol.all, ∀ t ∈ Symbol.all, symbolBytes s <+: symbolBytes t →
      ∀ b ∈ (symbolBytes t).drop (symbolBytes s).length |>.head?,
        standsAlone s = false ∧ extendsSymbol b = true := by decide +kernel
  exact hall s (mem_all s) t (mem_all t) ⟨_, h.symm⟩ b (by rw [h, List.drop_left]; rfl)

/-- Only symbols that start the symbol stand at the front of it and of what does not extend it. -/
theorem symbolAt_append {s : Symbol} (h : closesSymbol s rest = true) (t : Symbol) :
    symbolAt (symbolBytes s ++ rest) t = (symbolBytes t).isPrefixOf (symbolBytes s) := by
  have hprefix : symbolBytes t <+: symbolBytes s ++ rest ↔ symbolBytes t <+: symbolBytes s := by
    refine ⟨fun hp => ?_, fun hp => hp.trans (List.prefix_append _ _)⟩
    obtain ⟨tail, htail⟩ := hp
    rcases List.append_eq_append_iff.mp htail with ⟨x, hx, -⟩ | ⟨x, hlonger, hrest⟩
    · exact ⟨x, hx.symm⟩
    cases x with
    | nil => exact ⟨[], by simp [hlonger]⟩
    | cons b bs =>
      obtain ⟨halone, hextends⟩ := symbolBytes_longer hlonger
      simp [closesSymbol, halone, hextends, hrest] at h
  rw [Bool.eq_iff_iff, symbolAt, utf8Bytes_symbol, Bool.and_eq_true, List.isPrefixOf_iff_prefix,
    List.isPrefixOf_iff_prefix, hprefix, and_iff_left_iff_imp]
  intro hp
  by_cases ht : t = .optionalChain
  · obtain rfl : s = .optionalChain := by
      subst ht
      revert hp
      cases s <;> decide
    subst ht
    rcases rest with _ | ⟨b, rest⟩
    · rfl
    · have hdigit : isDigit b = false := by
        simp only [closesSymbol, standsAlone, List.head?_cons, Option.all_some] at h
        simp_all
      simp [symbolBytes, hdigit]
  · simp [ht]

theorem find_symbolAt {s : Symbol} (h : closesSymbol s rest = true) :
    Symbol.all.find? (symbolAt (symbolBytes s ++ rest)) = some s := by
  rw [funext (symbolAt_append h)]
  cases s <;> rfl

theorem lexeme_symbol {s : Symbol} (h : closesSymbol s rest = true) :
    lexeme (utf8Bytes s.text ++ rest) = ⟨.symbol s, utf8Bytes s.text,
    (utf8Bytes s.text).length⟩ := by
  have hstart : ∃ b bs, symbolBytes s = b :: bs ∧ (b = 0x22 || b = 0x27) = false ∧
      startsName b = false ∧ isDigit b = false := by
    cases s <;> exact ⟨_, _, rfl, by decide⟩
  obtain ⟨b, bs, hbs, hquote, hname, hdigit⟩ := hstart
  have hfind := find_symbolAt h
  rw [utf8Bytes_symbol, hbs, List.cons_append, lexeme, hquote, hname, hdigit, ← List.cons_append,
    ← hbs, hfind]
  simp [utf8Bytes_symbol]

end Scan

end ShapeCheck
