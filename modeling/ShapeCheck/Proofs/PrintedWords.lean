import ShapeCheck.Proofs.OperatorChains
import ShapeCheck.Proofs.ScannedWords
import ShapeCheck.Proofs.SmallNumerals

/-!
# The words of a printed expression

Printing an expression puts every prefix and infix application in parentheses, and the words of its
text follow from the tree alone.

* `scanned_text`: scanning the printed text gives these words back, whatever stands behind it, as
  long as it does not go on with the last word.
-/

namespace ShapeCheck

variable {s : String} {c : Char} {bytes rest : List UInt8}

/-- The symbol that writes the operator. -/
def UnaryOp.symbol : UnaryOp → Symbol
  | .not => .bang
  | .negate => .minus

namespace Word

/-- A name, reserved or not, as a word. -/
def name (s : String) : Word := ⟨Scan.nameKind s, utf8Bytes s⟩

end Word

mutual

/-- The expression is made of names that are not reserved, natural numbers below a million, text of
printable characters, bigints, the literals with a word of their own, lists, objects, accesses,
calls without type arguments, and prefix and infix operators. A property may have any name. -/
def Expr.Elementary : Expr → Prop
  | .identifier _ name => Scan.isName name = true ∧ Scan.isReserved name = false
  | .number _ value => ∃ n < 10 ^ 6, value = Binary64.ofNat n
  | .string _ value => ∀ c ∈ value.toList, Scan.isQuotable c = true
  | .bigint _ digits => Scan.isWhole digits = true
  | .boolean .. | .null _ | .undefined _ | .this _ => True
  | .array _ elements => elementaryList elements
  | .object _ properties => elementaryEntries properties
  | .call _ callee typeArguments arguments =>
    callee.Elementary ∧ typeArguments = [] ∧ elementaryList arguments
  | .member _ object property _ => object.Elementary ∧ Scan.isName property = true
  | .index _ object key => object.Elementary ∧ key.Elementary
  | .unary _ _ operand => operand.Elementary
  | .binary _ left _ right => left.Elementary ∧ right.Elementary
  | .construct .. | .typeof .. | .assign .. | .assertion .. | .function .. => False

/-- All of the expressions are elementary. -/
def elementaryList : List Expr → Prop
  | [] => True
  | e :: es => e.Elementary ∧ elementaryList es

/-- All of the entries have a name for a key and an elementary value. -/
def elementaryEntries : List Property → Prop
  | [] => True
  | .mk _ key value :: ps => Scan.isName key = true ∧ value.Elementary ∧ elementaryEntries ps

end

mutual

/-- The words of an elementary expression from left to right. -/
def Expr.words : Expr → List Word
  | .identifier _ name => [.name name]
  | .number _ value => [⟨.number, utf8Bytes value.text⟩]
  | .string _ value => [⟨.string, utf8Bytes value⟩]
  | .bigint _ digits => [⟨.bigint, utf8Bytes digits⟩]
  | .boolean _ value => [.keyword (if value then .true else .false)]
  | .null _ => [.keyword .null]
  | .undefined _ => [.keyword .undefined]
  | .this _ => [.keyword .this]
  | .array _ elements => .symbol .leftBracket :: listWords elements ++ [.symbol .rightBracket]
  | .object _ properties => .symbol .leftBrace :: entryWords properties ++ [.symbol .rightBrace]
  | .call _ callee _ arguments =>
    callee.words ++ .symbol .leftParen :: listWords arguments ++ [.symbol .rightParen]
  | .member _ object property optional =>
    object.words ++ [.symbol (if optional then .optionalChain else .dot), .name property]
  | .index _ object key =>
    object.words ++ .symbol .leftBracket :: key.words ++ [.symbol .rightBracket]
  | .unary _ op operand =>
    .symbol .leftParen :: .symbol op.symbol :: operand.words ++ [.symbol .rightParen]
  | .binary _ left op right =>
    .symbol .leftParen :: left.words ++ .symbol op.symbol :: right.words ++ [.symbol .rightParen]
  | .construct .. | .typeof .. | .assign .. | .assertion .. | .function .. => []

/-- The words of expressions with commas between them. -/
def listWords : List Expr → List Word
  | [] => []
  | e :: es => e.words ++ moreWords es

/-- The words of expressions with a comma in front of each. -/
def moreWords : List Expr → List Word
  | [] => []
  | e :: es => .symbol .comma :: e.words ++ moreWords es

/-- The words of entries with commas between them. -/
def entryWords : List Property → List Word
  | [] => []
  | .mk _ key value :: ps => .name key :: .symbol .colon :: value.words ++ moreEntryWords ps

/-- The words of entries with a comma in front of each. -/
def moreEntryWords : List Property → List Word
  | [] => []
  | .mk _ key value :: ps =>
    .symbol .comma :: .name key :: .symbol .colon :: value.words ++ moreEntryWords ps

end

namespace Scan

/-! ## One word in front of a row -/

section OneWord

variable {ws : List Word}

theorem Scanned.symbol {s : Symbol} (hs : closesSymbol s rest = true) (h : Scanned rest ws) :
    Scanned (symbolBytes s ++ rest) (.symbol s :: ws) := by
  rw [← utf8Bytes_symbol]
  refine h.cons ?_ ?_ (lexeme_symbol hs)
  · rw [utf8Bytes_symbol]
    cases s <;> exact ⟨_, rfl, by decide⟩
  · rw [utf8Bytes_symbol]
    cases s <;> decide

theorem Scanned.name (hs : isName s = true) (hrest : closesWord rest = true)
    (h : Scanned rest ws) : Scanned (utf8Bytes s ++ rest) (.name s :: ws) := by
  obtain ⟨⟨b, hb, hstart⟩, hall⟩ := utf8Bytes_of_isName hs
  refine h.cons ⟨b, hb, ?_⟩ (fun hzero => absurd (hall 0 hzero) (by decide)) (lexeme_name hs hrest)
  grind [startsName, isLetter, isBlank]

theorem isName_keyword (k : Keyword) : isName k.text = true := by
  cases k <;> decide

theorem Scanned.keyword (k : Keyword) (hrest : closesWord rest = true) (h : Scanned rest ws) :
    Scanned (utf8Bytes k.text ++ rest) (.keyword k :: ws) := by
  have hword : Word.keyword k = .name k.text := by rw [Word.keyword, Word.name, nameKind_keyword]
  exact hword ▸ h.name (isName_keyword k) hrest

theorem start_of_digits {ds : List UInt8} (hne : ds ≠ []) (hds : ∀ b ∈ ds, isDigit b = true) :
    (∃ b, ds.head? = some b ∧ isBlank b = false) ∧ 0 ∉ ds := by
  obtain ⟨b, bs, rfl⟩ := List.exists_cons_of_ne_nil hne
  have hb := hds b List.mem_cons_self
  refine ⟨⟨b, rfl, by grind [isDigit, isBlank]⟩, fun hzero => absurd (hds 0 hzero) (by decide)⟩

theorem Scanned.number (hs : isWhole s = true) (hrest : closesWord rest = true)
    (h : Scanned rest ws) : Scanned (utf8Bytes s ++ rest) (⟨.number, utf8Bytes s⟩ :: ws) := by
  obtain ⟨hne, hds⟩ := utf8Bytes_of_isWhole hs
  obtain ⟨hstart, hzero⟩ := start_of_digits hne hds
  obtain ⟨hcloses, hmark⟩ := ClosesNumber.of_closesWord hrest
  refine h.cons hstart hzero ?_
  rw [lexeme_whole hne hds hcloses, if_neg hmark]

theorem Scanned.bigint (hs : isWhole s = true) (h : Scanned rest ws) :
    Scanned (utf8Bytes s ++ 0x6e :: rest) (⟨.bigint, utf8Bytes s⟩ :: ws) := by
  obtain ⟨hne, hds⟩ := utf8Bytes_of_isWhole hs
  obtain ⟨⟨b, hb, hblank⟩, hzero⟩ := start_of_digits hne hds
  have hbytes : utf8Bytes s ++ 0x6e :: rest = (utf8Bytes s ++ [0x6e]) ++ rest := by simp
  rw [hbytes]
  refine h.cons ⟨b, ?_, hblank⟩ (by simp [hzero]) ?_
  · obtain ⟨bs, hbs⟩ := List.head?_eq_some_iff.mp hb
    rw [hbs]
    rfl
  · rw [← hbytes, lexeme_whole hne hds (.of_mark rest)]
    simp

theorem asciiByte_ne_zero (h : isQuotable c = true) : asciiByte c ≠ 0 :=
  ascii_cases (P := fun c => isQuotable c = true → asciiByte c ≠ 0) (by decide)
    (ascii_of_isQuotable h) h

theorem asciiByte_ne_zero_of_mem_quoteChar {d : Char} (h : isQuotable c = true)
    (hd : d ∈ Text.quoteChar c) : asciiByte d ≠ 0 := by
  rcases shown_of_isQuotable h with ⟨hquote, -⟩ | ⟨m, hm, hquote, -⟩
  · obtain rfl : d = c := by simpa [hquote] using hd
    exact asciiByte_ne_zero h
  · have hmarks : escapeMarks.all (asciiByte · != 0) = true := by decide
    obtain rfl | rfl : d = '\\' ∨ d = m := by simpa [hquote] using hd
    · decide
    · exact bne_iff_ne.mp (List.all_eq_true.mp hmarks d hm)

theorem Scanned.quoted (hs : ∀ c ∈ s.toList, isQuotable c = true) (h : Scanned rest ws) :
    Scanned (utf8Bytes (Text.quoted s) ++ rest) (⟨.string, utf8Bytes s⟩ :: ws) := by
  have hzero : 0 ∉ (s.toList.flatMap Text.quoteChar).map asciiByte := by
    intro hmem
    obtain ⟨d, hd, hbyte⟩ := List.mem_map.mp hmem
    obtain ⟨c, hc, hd⟩ := List.mem_flatMap.mp hd
    exact asciiByte_ne_zero_of_mem_quoteChar (hs c hc) hd hbyte
  refine h.cons ⟨0x22, ?_, by decide⟩ ?_ (lexeme_quoted hs)
  · rw [utf8Bytes_quoted hs]
    rfl
  · rw [utf8Bytes_quoted hs]
    simpa using hzero

end OneWord

/-! ## Printed expressions -/

/-- Whether the bytes start a word that does not extend a symbol in front of it. -/
def opens (bytes : List UInt8) : Bool := bytes.head?.any fun b => !extendsSymbol b

theorem opens_append (h : opens bytes = true) : opens (bytes ++ rest) = true := by
  cases bytes with
  | nil => simp [opens] at h
  | cons b bytes => exact h

theorem closesSymbol_of_opens {s : Symbol} (h : opens bytes = true)
    (hs : s ≠ .optionalChain) : closesSymbol s bytes = true := by
  cases bytes with
  | nil => simp [opens] at h
  | cons b bytes =>
    have hextends : extendsSymbol b = false := by simpa [opens] using h
    simp [closesSymbol, hextends, hs]

theorem opens_name (h : isName s = true) : opens (utf8Bytes s) = true := by
  obtain ⟨⟨b, hb, hstart⟩, -⟩ := utf8Bytes_of_isName h
  simp only [opens, hb, Option.any_some]
  grind [startsName, isLetter, extendsSymbol]

theorem opens_whole (h : isWhole s = true) : opens (utf8Bytes s) = true := by
  obtain ⟨hne, hds⟩ := utf8Bytes_of_isWhole h
  obtain ⟨b, bs, hb⟩ := List.exists_cons_of_ne_nil hne
  have hdigit := hds b (by simp [hb])
  simp only [opens, hb, List.head?_cons, Option.any_some]
  grind [isDigit, extendsSymbol]

theorem isWhole_toDigits (n : Nat) : isWhole (String.ofList (Nat.toDigits 10 n)) = true := by
  have hdigits : ∀ c ∈ Nat.toDigits 10 n, c.isDigit = true := fun c hc =>
    Nat.isDigit_of_mem_toDigits (by decide) (by decide) hc
  have hne : (Nat.toDigits 10 n).isEmpty = false := by simp [Nat.toDigits_ne_nil]
  simp [isWhole, hne, List.all_eq_true.mpr hdigits]

theorem isWhole_text {n : Nat} (h : n < 10 ^ 6) : isWhole (Binary64.ofNat n).text = true := by
  rw [Binary64.text_ofNat h]
  exact isWhole_toDigits n

theorem opens_text : ∀ e : Expr, e.Elementary → opens (utf8Bytes e.text) = true
  | .identifier _ _, h => opens_name h.1
  | .number _ _, ⟨_, hn, hv⟩ => by
    rw [hv]
    exact opens_whole (isWhole_text hn)
  | .string _ value, h => by
    rw [Expr.text, utf8Bytes_quoted h]
    rfl
  | .bigint _ digits, h => by
    rw [Expr.text, utf8Bytes_append]
    exact opens_append (opens_whole h)
  | .boolean _ true, _ => opens_name (isName_keyword .true)
  | .boolean _ false, _ => opens_name (isName_keyword .false)
  | .null _, _ => opens_name (isName_keyword .null)
  | .undefined _, _ => opens_name (isName_keyword .undefined)
  | .this _, _ => opens_name (isName_keyword .this)
  | .array .., _ | .object .., _ | .unary .., _ | .binary .., _ => by
    simp only [Expr.text, utf8Bytes_append, List.append_assoc]
    exact opens_append (by decide +kernel)
  | .call _ object _ _, h | .member _ object _ _, h | .index _ object _, h => by
    simp only [Expr.text, utf8Bytes_append, List.append_assoc]
    exact opens_append (opens_text object h.1)

/-! ### Joined texts -/

theorem joinWith_nil (separator : String) : joinWith separator [] = "" := rfl

theorem joinWith_singleton (separator s : String) : joinWith separator [s] = s := by
  simp [joinWith]

theorem joinWith_cons_cons (separator s t : String) (parts : List String) :
    joinWith separator (s :: t :: parts) = s ++ (separator ++ joinWith separator (t :: parts)) := by
  simp [joinWith, String.intercalate_cons_cons, String.append_assoc]

/-- The bytes of the fixed texts that printing puts around the parts of an expression. -/
theorem utf8Bytes_fixed :
    utf8Bytes "(" = symbolBytes .leftParen ∧ utf8Bytes ")" = symbolBytes .rightParen ∧
    utf8Bytes "[" = symbolBytes .leftBracket ∧ utf8Bytes "]" = symbolBytes .rightBracket ∧
    utf8Bytes "\x7b " = symbolBytes .leftBrace ++ [0x20] ∧
    utf8Bytes " \x7d" = 0x20 :: symbolBytes .rightBrace ∧
    utf8Bytes ", " = symbolBytes .comma ++ [0x20] ∧ utf8Bytes ": " = symbolBytes .colon ++ [0x20] ∧
    utf8Bytes "." = symbolBytes .dot ∧ utf8Bytes "?." = symbolBytes .optionalChain ∧
    utf8Bytes " " = [0x20] ∧ utf8Bytes "n" = [0x6e] ∧ utf8Bytes "" = [] := by
  decide +kernel

theorem Scanned.space {ws : List Word} (h : Scanned rest ws) :
    Scanned (0x20 :: rest) ws := .blank (by decide) h

theorem utf8Bytes_unaryOp (op : UnaryOp) : utf8Bytes op.text = symbolBytes op.symbol := by
  cases op <;> with_unfolding_all rfl

theorem utf8Bytes_binaryOp (op : BinaryOp) : utf8Bytes op.text = symbolBytes op.symbol := by
  cases op <;> with_unfolding_all rfl

theorem closesSymbol_unaryOp (op : UnaryOp) (h : opens rest = true) :
    closesSymbol op.symbol rest = true :=
  closesSymbol_of_opens h (by cases op <;> simp [UnaryOp.symbol])

theorem closesSymbol_binaryOp (op : BinaryOp) (rest : List UInt8) :
    closesSymbol op.symbol (0x20 :: rest) = true :=
  closesSymbol_of_opens rfl (by cases op <;> simp [BinaryOp.symbol])

/-- A point, plain or conditional, closes what is in front of it when a name follows. -/
theorem closesWord_access {name : List UInt8} (optional : Bool)
    (hname : ∃ b, name.head? = some b ∧ startsName b = true) :
    closesWord (symbolBytes (if optional then .optionalChain else .dot) ++ (name ++ rest)) = true ∧
      closesSymbol (if optional then .optionalChain else .dot) (name ++ rest) = true := by
  obtain ⟨b, hb, hstart⟩ := hname
  obtain ⟨bs, rfl⟩ := List.head?_eq_some_iff.mp hb
  have hdigit : isDigit b = false := by grind [startsName, isLetter, isDigit]
  have hextends : extendsSymbol b = false := by grind [startsName, isLetter, extendsSymbol]
  cases optional <;>
    simp [closesWord, symbolBytes, closesSymbol, hdigit, hextends] <;> decide

mutual

/-- **Scanning a printed expression gives its words**, and then those of the rest. -/
theorem scanned_text : ∀ (e : Expr) {rest : List UInt8} {ws : List Word}, e.Elementary →
    closesWord rest = true → Scanned rest ws → Scanned (utf8Bytes e.text ++ rest) (e.words ++ ws)
  | .identifier _ name, rest, ws, h, hrest, hws => hws.name h.1 hrest
  | .number _ value, rest, ws, ⟨n, hn, hv⟩, hrest, hws => by
    subst hv
    exact hws.number (isWhole_text hn) hrest
  | .string _ value, rest, ws, h, _, hws => hws.quoted h
  | .bigint _ digits, rest, ws, h, _, hws => by
    simpa [Expr.text, Expr.words, utf8Bytes_fixed] using hws.bigint h
  | .boolean _ true, rest, ws, _, hrest, hws => hws.keyword .true hrest
  | .boolean _ false, rest, ws, _, hrest, hws => hws.keyword .false hrest
  | .null _, rest, ws, _, hrest, hws => hws.keyword .null hrest
  | .undefined _, rest, ws, _, hrest, hws => hws.keyword .undefined hrest
  | .this _, rest, ws, _, hrest, hws => hws.keyword .this hrest
  | .array _ elements, rest, ws, h, _, hws => by
    have hclose := hws.symbol (s := .rightBracket) rfl
    have hopen := (scanned_list elements h rfl hclose).symbol (s := .leftBracket) rfl
    simpa [Expr.text, Expr.words, utf8Bytes_fixed] using hopen
  | .object _ properties, rest, ws, h, _, hws => by
    have hclose := (hws.symbol (s := .rightBrace) rfl).space
    have hopen := (scanned_entries properties h rfl hclose).space.symbol (s := .leftBrace) rfl
    simpa [Expr.text, Expr.words, utf8Bytes_fixed] using hopen
  | .call _ callee typeArguments arguments, rest, ws, ⟨hcallee, hnone, harguments⟩, _, hws => by
    have hclose := hws.symbol (s := .rightParen) rfl
    have hopen := (scanned_list arguments harguments rfl hclose).symbol (s := .leftParen) rfl
    have hall := scanned_text callee hcallee rfl hopen
    simpa [Expr.text, Expr.words, utf8Bytes_fixed, hnone, typeTexts, angled] using hall
  | .member _ object property optional, rest, ws, ⟨hobject, hname⟩, hrest, hws => by
    obtain ⟨hpoint, hsymbol⟩ :=
      @closesWord_access rest _ optional (utf8Bytes_of_isName hname).1
    have hall := scanned_text object hobject hpoint ((hws.name hname hrest).symbol hsymbol)
    cases optional <;> simpa [Expr.text, Expr.words, utf8Bytes_fixed] using hall
  | .index _ object key, rest, ws, ⟨hobject, hkey⟩, _, hws => by
    have hclose := hws.symbol (s := .rightBracket) rfl
    have hopen := (scanned_text key hkey rfl hclose).symbol (s := .leftBracket) rfl
    have hall := scanned_text object hobject rfl hopen
    simpa [Expr.text, Expr.words, utf8Bytes_fixed] using hall
  | .unary _ op operand, rest, ws, h, _, hws => by
    have hclose := hws.symbol (s := .rightParen) rfl
    have hop := (scanned_text operand h rfl hclose).symbol
      (closesSymbol_unaryOp op (opens_append (opens_text operand h)))
    have hopen := hop.symbol (s := .leftParen) rfl
    simpa [Expr.text, Expr.words, utf8Bytes_fixed, utf8Bytes_unaryOp] using hopen
  | .binary _ left op right, rest, ws, ⟨hleft, hright⟩, _, hws => by
    have hclose := hws.symbol (s := .rightParen) rfl
    have hop := (scanned_text right hright rfl hclose).space.symbol (closesSymbol_binaryOp op _)
    have hopen := (scanned_text left hleft rfl hop.space).symbol (s := .leftParen) rfl
    simpa [Expr.text, Expr.words, utf8Bytes_fixed, utf8Bytes_binaryOp] using hopen

theorem scanned_list : ∀ (es : List Expr) {rest : List UInt8} {ws : List Word}, elementaryList es →
    closesWord rest = true → Scanned rest ws →
    Scanned (utf8Bytes (joinWith ", " (exprTexts es)) ++ rest) (listWords es ++ ws)
  | [], rest, ws, _, _, hws => by
    simpa [exprTexts, joinWith_nil, utf8Bytes_fixed, listWords] using hws
  | [e], rest, ws, h, hrest, hws => by
    simpa [exprTexts, joinWith_singleton, listWords, moreWords] using scanned_text e h.1 hrest hws
  | e :: e' :: es, rest, ws, h, hrest, hws => by
    have hmore := (scanned_list (e' :: es) h.2 hrest hws).space.symbol (s := .comma) rfl
    have hfirst := scanned_text e h.1 rfl hmore
    simpa [exprTexts, joinWith_cons_cons, utf8Bytes_fixed, listWords, moreWords] using hfirst

theorem scanned_entries : ∀ (ps : List Property) {rest : List UInt8} {ws : List Word},
    elementaryEntries ps → closesWord rest = true → Scanned rest ws →
    Scanned (utf8Bytes (joinWith ", " (propertyTexts ps)) ++ rest) (entryWords ps ++ ws)
  | [], rest, ws, _, _, hws => by
    simpa [propertyTexts, joinWith_nil, utf8Bytes_fixed, entryWords] using hws
  | [.mk _ key value], rest, ws, ⟨hkey, hvalue, _⟩, hrest, hws => by
    have hcolon := (scanned_text value hvalue hrest hws).space.symbol (s := .colon) rfl
    have hall := hcolon.name hkey rfl
    simpa [propertyTexts, joinWith_singleton, entryWords, moreEntryWords,
      utf8Bytes_fixed] using hall
  | .mk _ key value :: p :: ps, rest, ws, ⟨hkey, hvalue, hps⟩, hrest, hws => by
    have hmore := (scanned_entries (p :: ps) hps hrest hws).space.symbol (s := .comma) rfl
    have hcolon := (scanned_text value hvalue rfl hmore).space.symbol (s := .colon) rfl
    have hall := hcolon.name hkey rfl
    obtain ⟨_, key', value'⟩ := p
    simpa [propertyTexts, joinWith_cons_cons, entryWords, moreEntryWords,
      utf8Bytes_fixed] using hall

end

end Scan

end ShapeCheck
