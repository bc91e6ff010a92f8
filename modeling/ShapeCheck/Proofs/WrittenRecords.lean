import ShapeCheck.Proofs.PrintedExpressions

/-!
# Reading an object literal and a number behind it

The entries of an object literal are written with one word for the key and one for the value.
Reading such a literal with a number in brackets behind it keeps the text of each key, while the
number is read as a double.

* `readExpression_access` is the statement for a whole text.
-/

namespace ShapeCheck

variable {row : List Word} {bytes : List UInt8} {v : Binary64}

/-- The text of a word. -/
def Word.text (w : Word) : String := ofUtf8Bytes w.literal

/-- Whether a word can be a key. -/
def Word.isKey (w : Word) : Bool :=
  match w.kind with
  | .identifier | .string | .number | .keyword _ => true
  | _ => false

/-- The word is a literal and is read as this expression. -/
inductive Word.Reads : Word → Expr → Prop
  | number {bytes : List UInt8} {site : Site} {v : Binary64}
    (h : Decimal.read? (ofUtf8Bytes bytes) = .ok v) : Reads ⟨.number, bytes⟩ (.number site v)
  | string {bytes : List UInt8} {site : Site} :
    Reads ⟨.string, bytes⟩ (.string site (ofUtf8Bytes bytes))
  | bigint {bytes : List UInt8} {site : Site} :
    Reads ⟨.bigint, bytes⟩ (.bigint site (ofUtf8Bytes bytes))
  | true {bytes : List UInt8} {site : Site} : Reads ⟨.keyword .true, bytes⟩
    (.boolean site Bool.true)
  | false {bytes : List UInt8} {site : Site} : Reads ⟨.keyword .false, bytes⟩
    (.boolean site Bool.false)
  | null {bytes : List UInt8} {site : Site} : Reads ⟨.keyword .null, bytes⟩ (.null site)
  | undefined {bytes : List UInt8} {site : Site} :
    Reads ⟨.keyword .undefined, bytes⟩ (.undefined site)

namespace Snippet

/-- An entry of an object literal as it is written. -/
structure WrittenEntry where
  key : Word
  value : Word

/-- The entry has a key and a literal value. -/
structure WrittenEntry.IsPlain (x : WrittenEntry) : Prop where
  key : x.key.isKey = true
  value : ∃ e, x.value.Reads e

/-- The entry is read so: the text of the key is kept. -/
structure WrittenEntry.Reads (x : WrittenEntry) (p : Property) : Prop where
  key : p.key = x.key.text
  value : x.value.Reads p.value

/-- The words of entries. A comma stands between two of them, and may stand behind the last. -/
inductive EntryRow : List WrittenEntry → List Word → Prop
  | nil : EntryRow [] []
  | last {x : WrittenEntry} : EntryRow [x] [x.key, .symbol .colon, x.value]
  | more {x : WrittenEntry} {xs : List WrittenEntry} {ws : List Word} (h : EntryRow xs ws) :
    EntryRow (x :: xs) (x.key :: .symbol .colon :: x.value :: .symbol .comma :: ws)

open Reader

section Rules

variable {g : Grammar} {n : Nat} {r : Reader} {w next : Word} {ws : List Word}

/-- A literal that no operator follows. -/
theorem ends_literal {least : Nat} (hr : r.Valid) (hws : r.rest.map Token.word = w :: next :: ws)
    (hw : ∃ e, w.Reads e) (hnext : strength next.kind ≤ least) :
    Ends (expressionRule g least) (fun e r' => w.Reads e ∧ r' = r) (fun _ => False) r := by
  obtain ⟨hword, hfront⟩ := hr.words_eq hws
  have hoperand : Ends (operand g) (fun e r' => w.Reads e ∧ r' = r) (fun _ => False) r := by
    have hkind : r.token.kind = w.kind := congrArg Word.kind hword
    have hliteral : r.token.literal = w.literal := congrArg Word.literal hword
    unfold operand
    simp only [ends_bind, ends_current, ends_siteOf]
    obtain ⟨e, he⟩ := hw
    cases he with
    | @number bytes site v hread =>
      have hvalue : Decimal.read? r.token.text = .ok v := by rw [Token.text, hliteral]; exact hread
      simp only [hkind, numberValue, ends_bind, ends_current, hvalue, ends_pure]
      exact ⟨.number hread, trivial⟩
    | _ =>
      simp only [hkind, ends_pure, Token.text, hliteral]
      exact ⟨by constructor, trivial⟩
  unfold expressionRule
  rw [ends_bind]
  refine hoperand.mono ?_ fun _ h => h
  rintro e r1 ⟨he, rfl⟩
  refine ends_loop (fun left r' => left = e ∧ r' = r1) hr ⟨rfl, rfl⟩ ?_
  rintro left r2 - ⟨rfl, rfl⟩
  obtain ⟨hahead, -, -⟩ := hr.move hfront.ahead
  have hstop : ¬least < strength r2.next.kind := by
    have hkind : r2.next.kind = next.kind := congrArg Word.kind hahead
    rw [hkind]
    omega
  simp only [ends_bind, ends_peek, ends_ite, ends_pure]
  rw [if_neg hstop]
  exact ⟨he, trivial⟩

/-- An entry behind the current token. -/
theorem ends_writtenEntry {x : WrittenEntry} (hr : r.Valid) (hx : x.IsPlain)
    (hws : r.ahead.map Token.word = x.key :: .symbol .colon :: x.value :: next :: ws)
    (hnext : strength next.kind ≤ lowest) :
    Ends (property (grammar (n + 1)))
      (fun p r' => x.Reads p ∧ r.InFront (next :: ws) r' ∧ r.Past r') (fun _ => False) r.moved := by
  have hfront : r.InFront _ r := ⟨.refl r, rfl, hws⟩
  obtain ⟨-, hstart, hne⟩ := hr.move hws
  obtain ⟨hkey, -⟩ := hr.moved.words_eq hstart
  have hcolon := hfront.moved hr
  have hvalue := hcolon.moved hr
  obtain ⟨-, hrest, -⟩ := hr.moved.moved.move hvalue.ahead
  have hproperty : isPropertyName r.moved.token = true := by
    rw [← hx.key, ← hkey]
    rfl
  have htext : r.moved.token.text = x.key.text := by
    rw [← hkey]
    rfl
  unfold property
  simp only [ends_bind, ends_current, ends_ite, ends_reject, ends_positionOf, ends_peekIsSymbol,
    ends_advance, ends_pure, hproperty, kind_of_word (hr.moved.move hcolon.ahead).1, Bool.not_true,
    Bool.false_eq_true, if_false, decide_true, if_true]
  refine (ends_literal hr.moved.moved.moved hrest hx.value hnext).mono ?_ fun _ h => h
  rintro e _ ⟨he, rfl⟩
  exact ⟨⟨htext, he⟩, hvalue.moved hr, (Later.refl r.moved).moved.moved.past hr hne⟩

/-- An object literal; the reader stands on its brace. -/
theorem ends_writtenObject {xs : List WrittenEntry} (hr : r.Valid)
    (hrow : EntryRow xs row) (hxs : ∀ x ∈ xs, x.IsPlain)
    (hws : r.ahead.map Token.word = row ++ .symbol .rightBrace :: ws) :
    Ends (objectLiteral (grammar (n + 1)))
      (fun e r' => ∃ site ps, e = .object site ps ∧ List.Forall₂ WrittenEntry.Reads xs ps ∧
        r.InFront ws r') (fun _ => False) r := by
  unfold objectLiteral
  simp only [ends_bind, ends_current, ends_siteOf]
  refine ends_loop (fun done r' => ∃ before todo row, xs = before ++ todo ∧
    List.Forall₂ WrittenEntry.Reads before done.reverse ∧ EntryRow todo row ∧
    r.InFront (row ++ .symbol .rightBrace :: ws) r') hr
    ⟨[], xs, row, rfl, .nil, hrow, .refl r, rfl, hws⟩ ?_
  rintro done r1 hl ⟨before, todo, row, hxs', hdone, hrow, h1⟩
  have hr1 := hl.valid hr
  have hopen : ∀ {x us}, x ∈ xs → r1.ahead.map Token.word = x.key :: us →
      r1.next.kind ≠ .symbol .rightBrace := by
    intro x us hx hus hk
    have hkey := (hxs x hx).key
    rw [← (hr1.move hus).1, Word.isKey, Token.word, hk] at hkey
    exact absurd hkey (by simp)
  have hdone' : ∀ {x p}, WrittenEntry.Reads x p →
      List.Forall₂ WrittenEntry.Reads (before ++ [x]) (p :: done).reverse := by
    intro x p hp
    simpa using List.rel_append hdone (.cons hp .nil)
  simp only [ends_bind, ends_peekIsSymbol, ends_ite, ends_advance, ends_pure, ends_expectSymbol,
    decide_eq_true_eq, Bool.not_eq_true', decide_eq_false_iff_not, ite_not]
  cases hrow with
  | nil =>
    rw [if_pos (kind_of_word (hr1.move h1.ahead).1)]
    rw [List.append_nil] at hxs'
    exact ⟨_, _, rfl, hxs' ▸ hdone, h1.moved hr⟩
  | @last x =>
    have hx : x ∈ xs := by simp [hxs']
    rw [if_neg (hopen hx h1.ahead)]
    refine (ends_writtenEntry hr1 (hxs x hx) h1.ahead (by decide)).mono ?_ fun _ h => h
    rintro p r2 ⟨hp, h2, hpast⟩
    rw [if_pos (kind_of_word ((h2.toLater.valid hr1).move h2.ahead).1)]
    exact ⟨⟨before ++ [x], [], [], by simp [hxs'], hdone' hp, .nil, h1.trans h2⟩, hpast⟩
  | @more x xs1 row hrow =>
    have hx : x ∈ xs := by simp [hxs']
    rw [if_neg (hopen hx h1.ahead)]
    refine (ends_writtenEntry hr1 (hxs x hx) h1.ahead (by decide)).mono ?_ fun _ h => h
    rintro p r2 ⟨hp, h2, hpast⟩
    have hcomma := kind_of_word ((h2.toLater.valid hr1).move h2.ahead).1
    rw [if_neg (by simp [hcomma]), if_pos hcomma]
    exact ⟨⟨before ++ [x], xs1, row, by simp [hxs'], hdone' hp, hrow, (h1.trans h2).moved hr⟩,
      hpast.moved⟩

/-- The number in brackets behind an expression; the reader stands on the opening bracket. -/
theorem ends_writtenIndex {left : Expr} (hr : r.Valid) (hk : r.token.kind = .symbol .leftBracket)
    (hv : Decimal.read? (ofUtf8Bytes bytes) = .ok v)
    (hws : r.ahead.map Token.word = ⟨.number, bytes⟩ :: .symbol .rightBracket :: ws) :
    Ends (infixStep (grammar (n + 1)) left)
      (fun e r' => ∃ site inner, e = .index site left (.number inner v) ∧ r.InFront ws r')
      (fun _ => False) r := by
  have hfront : r.InFront _ r := ⟨.refl r, rfl, hws⟩
  have hnumber := hfront.moved hr
  obtain ⟨-, hrest, -⟩ := hr.move hws
  unfold infixStep
  simp only [ends_bind, ends_current, hk, ends_advance, ends_expectSymbol, ends_siteOf, ends_pure]
  refine (ends_literal hr.moved hrest ⟨.number {} v, .number hv⟩ (by decide)).mono ?_ fun _ h => h
  rintro e _ ⟨he, rfl⟩
  rw [if_pos (kind_of_word (hr.moved.move hnumber.ahead).1)]
  cases he with
  | number hv' =>
    obtain rfl := Except.ok.inj (hv'.symm.trans hv)
    exact ⟨_, _, rfl, hnumber.moved hr⟩

/-- An object literal with a number in brackets behind it. -/
theorem ends_writtenAccess {xs : List WrittenEntry}
    (hr : r.Valid) (hrow : EntryRow xs row) (hxs : ∀ x ∈ xs, x.IsPlain)
    (hv : Decimal.read? (ofUtf8Bytes bytes) = .ok v)
    (hws : r.rest.map Token.word = .symbol .leftBrace :: (row ++ [.symbol .rightBrace,
      .symbol .leftBracket, ⟨.number, bytes⟩, .symbol .rightBracket, .endOfInput])) :
    Ends (expressionRule (grammar (n + 1)) lowest)
      (fun e r' => ∃ site own inner ps, e = .index site (.object own ps) (.number inner v) ∧
        List.Forall₂ WrittenEntry.Reads xs ps ∧ r.InFront [.endOfInput] r') (fun _ => False) r := by
  obtain ⟨hbrace, hfront⟩ := hr.words_eq hws
  unfold expressionRule operand
  simp only [ends_bind, ends_current, ends_siteOf, kind_of_word hbrace]
  refine (ends_writtenObject hr hrow hxs hfront.ahead).mono ?_ fun _ h => h
  rintro _ r1 ⟨own, ps, rfl, hps, h1⟩
  refine ends_loop (fun left r' => (left = .object own ps ∧ r.InFront [.symbol .leftBracket,
    ⟨.number, bytes⟩, .symbol .rightBracket, .endOfInput] r') ∨ ∃ site inner,
      left = .index site (.object own ps) (.number inner v) ∧ r.InFront [.endOfInput] r')
    (h1.toLater.valid hr) (.inl ⟨rfl, h1⟩) ?_
  rintro left r2 - (⟨rfl, h2⟩ | ⟨site, inner, rfl, h2⟩)
  · have hr2 := h2.toLater.valid hr
    obtain ⟨hnext, hstart, hne⟩ := hr2.move h2.ahead
    obtain ⟨hbracket, -⟩ := hr2.moved.words_eq hstart
    have hmoved := h2.moved hr
    simp only [ends_bind, ends_peek, ends_ite, ends_advance, ends_pure]
    rw [if_pos (by rw [kind_of_word hnext]; decide)]
    refine (ends_writtenIndex hr2.moved (kind_of_word hbracket) hv hmoved.ahead).mono ?_
      fun _ h => h
    rintro _ r3 ⟨site, inner, rfl, h3⟩
    exact ⟨.inr ⟨site, inner, rfl, hmoved.trans h3⟩, h3.toLater.past hr2 hne⟩
  · obtain ⟨hnext, -, -⟩ := (h2.toLater.valid hr).move h2.ahead
    have hkind : r2.next.kind = .endOfInput := congrArg Word.kind hnext
    simp only [ends_bind, ends_peek, ends_ite, ends_pure]
    rw [if_neg (by rw [hkind]; decide)]
    exact ⟨site, own, inner, ps, rfl, hps, h2⟩

end Rules

/-- **The text of an object literal with a number in brackets behind it is read as an access.** The
keys keep their texts and the number is read as a double. -/
theorem readExpression_access {text : String} {xs : List WrittenEntry} (hrow : EntryRow xs row)
    (hxs : ∀ x ∈ xs, x.IsPlain)
    (hv : Decimal.read? (ofUtf8Bytes bytes) = .ok v)
    (hws : (Scan.ofText text).map Token.word = .symbol .leftBrace :: (row ++ [.symbol .rightBrace,
      .symbol .leftBracket, ⟨.number, bytes⟩, .symbol .rightBracket, .endOfInput]))
      (base : Position) :
    ∃ site own inner ps, readExpression text base =
        ⟨some (.index site (.object own ps) (.number inner v)), []⟩ ∧
      List.Forall₂ WrittenEntry.Reads xs ps := by
  have hvalid := Reader.ofText_valid text base
  have hrest : (Reader.ofText text base).rest.map Token.word = .symbol .leftBrace :: (row ++
      [.symbol .rightBrace, .symbol .leftBracket, ⟨.number, bytes⟩, .symbol .rightBracket,
        .endOfInput]) := by
    rw [← hws]
    simp [Reader.rest, Reader.ofText]
  have hend : Ends (toEnd (expressionRule
      (grammar ((Reader.ofText text base).tokens.size + 1)) lowest))
      (fun e r' => (∃ site own inner ps, e = .index site (.object own ps) (.number inner v) ∧
        List.Forall₂ WrittenEntry.Reads xs ps) ∧ r'.errors = []) (fun _ => False)
      (Reader.ofText text base) := by
    unfold toEnd
    simp only [ends_bind, ends_attempt]
    refine Ends.mono (ends_writtenAccess hvalid hrow hxs hv hrest) ?_ fun _ h => h.elim
    rintro e r' ⟨site, own, inner, ps, rfl, hps, h⟩
    obtain ⟨hnext, -, -⟩ := (h.toLater.valid hvalid).move h.ahead
    have hkind : r'.next.kind = .endOfInput := congrArg Word.kind hnext
    simp only [expectEnd, ends_bind, ends_peek, ends_ite, ends_pure, hkind, if_true]
    exact (ends_pure _).mpr ⟨⟨site, own, inner, ps, rfl, hps⟩, h.quiet⟩
  obtain ⟨e, r', hrun, ⟨site, own, inner, ps, rfl, hps⟩, herrors⟩ := hend.run
  refine ⟨site, own, inner, ps, ?_, hps⟩
  simp only [readExpression, read]
  rw [hrun]
  simp only [herrors]
  rfl

end Snippet

end ShapeCheck
