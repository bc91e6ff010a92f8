import ShapeCheck.Proofs.Parentheses

/-!
# Printed expressions are read back

Reading the text of an elementary expression gives the expression again, up to positions, and no
errors.

* `Link` is what an infix operator adds to the expression in front of it, and an expression is its
  head with its links (`onto_links`). The reader builds it in this order.
* `Grammar.Rereads` is what a level of the grammar does with words of a printed expression, and
  `grammar_rereads` that every level does it. An operand is read at a later token than the
  expression it is in, so each level takes from the one below what it needs.
* `readExpression_text` is the statement for a whole text.
-/

namespace ShapeCheck

variable {left e right : Expr} {least : Nat} {rest inner ws : List Word} {t : Token} {s : String}
  {W : Expr → Reader → Prop} {L : Reader → Prop} {close : Symbol} {es : List Expr} {w : Word}

namespace Snippet

/-! ## Heads and links -/

/-- What an infix operator adds to the expression in front of it. -/
inductive Link where
  | member (property : String) (optional : Bool)
  | index (key : Expr)
  | call (arguments : List Expr)
  | binary (op : BinaryOp) (right : Expr)

namespace Link

/-- The expression with the link behind it. -/
def onto (left : Expr) : Link → Expr
  | .member property optional => .member {} left property optional
  | .index key => .index {} left key
  | .call arguments => .call {} left [] arguments
  | .binary op right => .binary {} left op right

/-- The symbol that the link starts with. -/
def symbol : Link → Symbol
  | .member _ optional => if optional then .optionalChain else .dot
  | .index _ => .leftBracket
  | .call _ => .leftParen
  | .binary op _ => op.symbol

/-- The words of the link behind its symbol. -/
def more : Link → List Word
  | .member property _ => [.name property]
  | .index key => key.words ++ [.symbol .rightBracket]
  | .call arguments => listWords arguments ++ [.symbol .rightParen]
  | .binary _ right => right.words

/-- The words of the link. -/
def words (l : Link) : List Word := .symbol l.symbol :: l.more

/-- The parts of the link are elementary. -/
def Elementary : Link → Prop
  | .member property _ => Scan.isName property = true
  | .index key => key.Elementary
  | .call arguments => elementaryList arguments
  | .binary _ right => right.Elementary

/-- Whether the link is a binary operator. -/
def isBinary : Link → Bool
  | .binary .. => true
  | _ => false

end Link

end Snippet

open Snippet

/-- The expression without the accesses and calls behind it. -/
def Expr.head : Expr → Expr
  | .call _ callee _ _ => callee.head
  | .member _ receiver _ _ => receiver.head
  | .index _ receiver _ => receiver.head
  | e => e

/-- The accesses and calls behind the head of an expression. -/
def Expr.links : Expr → List Link
  | .call _ callee _ arguments => callee.links ++ [.call arguments]
  | .member _ receiver property optional => receiver.links ++ [.member property optional]
  | .index _ receiver key => receiver.links ++ [.index key]
  | _ => []

namespace Snippet

open Reader

/-- The words of several links. -/
def linksWords (ls : List Link) : List Word := ls.flatMap Link.words

theorem words_head : ∀ e : Expr, e.words = e.head.words ++ linksWords e.links
  | .call _ receiver _ _ | .member _ receiver _ _ | .index _ receiver _ => by
    simp [Expr.words, Expr.head, Expr.links, linksWords, Link.words, Link.more, Link.symbol,
      words_head receiver]
  | .identifier .. | .number .. | .string .. | .bigint .. | .boolean .. | .null _ | .undefined _
  | .this _ | .construct .. | .typeof .. | .assign .. | .assertion .. | .function .. | .array ..
  | .object .. | .unary .. | .binary .. => by simp [Expr.head, Expr.links, linksWords]

theorem links_head : ∀ e : Expr, e.head.links = []
  | .call _ receiver _ _ | .member _ receiver _ _ | .index _ receiver _ => links_head receiver
  | .identifier .. | .number .. | .string .. | .bigint .. | .boolean .. | .null _ | .undefined _
  | .this _ | .construct .. | .typeof .. | .assign .. | .assertion .. | .function .. | .array ..
  | .object .. | .unary .. | .binary .. => rfl

theorem bare_onto {left' : Expr} (h : left.bare = left'.bare) (l : Link) :
    (l.onto left).bare = (l.onto left').bare := by
  cases l <;> simp [Link.onto, Expr.bare, h]

/-- An elementary expression is its head with its links behind it. -/
theorem onto_links : ∀ e : Expr, e.Elementary → (e.links.foldl Link.onto e.head).bare = e.bare
  | .call _ callee _ arguments, ⟨hcallee, hnone, _⟩ => by
    simp [Expr.links, Expr.head, Link.onto, Expr.bare, onto_links callee hcallee, hnone]
  | .member _ receiver _ _, ⟨hobject, _⟩ | .index _ receiver _, ⟨hobject, _⟩ => by
    simp [Expr.links, Expr.head, Link.onto, Expr.bare, onto_links receiver hobject]
  | .identifier .., _ | .number .., _ | .string .., _ | .bigint .., _ | .boolean .., _ | .null _, _
  | .undefined _, _ | .this _, _ | .array .., _ | .object .., _ | .unary ..,
      _ | .binary .., _ => rfl

theorem head_elementary : ∀ e : Expr, e.Elementary → e.head.Elementary
  | .call _ receiver _ _, h | .member _ receiver _ _, h | .index _ receiver _, h =>
    head_elementary receiver h.1
  | .identifier .., h | .number .., h | .string .., h | .bigint .., h | .boolean .., h | .null _, h
  | .undefined _, h | .this _, h | .array .., h | .object .., h | .unary .., h | .binary .., h => h

/-- The links of an expression are elementary accesses and calls. -/
theorem links_elementary : ∀ e : Expr, e.Elementary →
    ∀ l ∈ e.links, l.Elementary ∧ l.isBinary = false
  | .call _ callee _ _, h => List.forall_mem_append.mpr
    ⟨links_elementary callee h.1, List.forall_mem_singleton.mpr ⟨h.2.2, rfl⟩⟩
  | .member _ receiver _ _, h | .index _ receiver _, h => List.forall_mem_append.mpr
    ⟨links_elementary receiver h.1, List.forall_mem_singleton.mpr ⟨h.2, rfl⟩⟩
  | .identifier .., _ | .number .., _ | .string .., _ | .bigint .., _ | .boolean .., _ | .null _, _
  | .undefined _, _ | .this _, _ | .array .., _ | .object .., _ | .unary .., _ | .binary .., _ => by
    simp [Expr.links]

/-! ## Where a reading stops -/

/-- The word ends an expression: a closing symbol, a comma or the end of the input. -/
def Ending (w : Word) : Prop :=
  w.kind ∈ [.symbol .rightParen, .symbol .rightBracket, .symbol .rightBrace, .symbol .comma,
    .endOfInput]

/-- An expression ends in front of the words. -/
def Closing (ws : List Word) : Prop := ∃ w rest, ws = w :: rest ∧ Ending w

theorem Ending.strength {w : Word} (h : Ending w) : strength w.kind = lowest := by
  simp only [Ending, List.mem_cons, List.not_mem_nil, or_false] at h
  rcases h with h | h | h | h | h <;> rw [h] <;> rfl

/-- The links are elementary and bind more tightly than the given strength, and behind them an
expression ends. A binary operator is the last of them and a closing parenthesis follows. -/
def Fits (least : Nat) : List Link → List Word → Prop
  | [], rest => Closing rest
  | l :: ls, rest => l.Elementary ∧ least < strength (.symbol l.symbol) ∧
    (l.isBinary = true → ls = [] ∧ ∃ ws, rest = .symbol .rightParen :: ws) ∧ Fits least ls rest

theorem fits_append {ls more : List Link}
    (hleast : least < callStrength) (hls : ∀ l ∈ ls, l.Elementary ∧ l.isBinary = false)
    (hmore : Fits least more rest) : Fits least (ls ++ more) rest := by
  induction ls with
  | nil => exact hmore
  | cons l ls ih =>
    obtain ⟨helementary, hplain⟩ := hls l List.mem_cons_self
    refine ⟨helementary, ?_, by simp [hplain], ih fun l hl => hls l (List.mem_cons_of_mem _ hl)⟩
    cases l with
    | binary => cases hplain
    | member _ optional => cases optional <;> exact Nat.lt_succ_of_lt hleast
    | index => exact Nat.lt_succ_of_lt hleast
    | call => exact hleast

theorem fits_links {ls : List Link} (hleast : least < callStrength)
    (hls : ∀ l ∈ ls, l.Elementary ∧ l.isBinary = false) (hrest : Closing rest) :
    Fits least ls rest := by
  rw [← List.append_nil ls]
  exact fits_append hleast hls hrest

/-- What follows an operand in a printed expression is neither an arrow nor a colon. -/
theorem Fits.start {ls : List Link} (h : Fits least ls rest) :
    ∃ w ws, linksWords ls ++ rest = w :: ws ∧ w.kind ≠ .symbol .arrow ∧
    w.kind ≠ .symbol .colon := by
  cases ls with
  | nil =>
    obtain ⟨w, ws, rfl, hw⟩ := h
    refine ⟨w, ws, rfl, ?_, ?_⟩ <;> intro hk <;> simp [Ending, hk] at hw
  | cons l ls =>
    refine ⟨.symbol l.symbol, _, rfl, ?_, ?_⟩ <;> cases l with
    | member _ optional => cases optional <;> simp [Link.symbol]
    | binary op => cases op <;> simp [Link.symbol, BinaryOp.symbol]
    | _ => simp [Link.symbol]

/-- A printed expression does not start with a word that ends one. -/
theorem words_start : ∀ e : Expr, e.Elementary → ∃ w ws, e.words = w :: ws ∧ ¬ Ending w
  | .identifier _ name, h => ⟨_, _, rfl, by
      simp [Ending, Word.name, Scan.nameKind_of_not_isReserved h.2]⟩
  | .number .., _ | .string .., _ | .bigint .., _ | .boolean .., _ | .null _, _
  | .undefined _, _ | .this _, _ | .array .., _ | .object .., _ | .unary .., _ | .binary .., _ =>
    ⟨_, _, rfl, by simp [Ending]⟩
  | .call _ receiver _ _, h | .member _ receiver _ _, h | .index _ receiver _, h => by
    obtain ⟨w, ws, hws, hw⟩ := words_start receiver h.1
    exact ⟨w, _, by rw [Expr.words, hws]; rfl, hw⟩

/-! ## Readers in front of words -/

namespace Reader

variable {r r' r1 r2 : Reader} {n : Nat}

/-- The second reader is a later one of a run without an error, and the given words are ahead of it.
-/
structure InFront (r : Reader) (ws : List Word) (r' : Reader) : Prop extends Later r r' where
  quiet : r'.errors = r.errors
  ahead : r'.ahead.map Token.word = ws

theorem InFront.trans {us : List Word} (h : r.InFront us r1) (h' : r1.InFront ws r2) :
    r.InFront ws r2 :=
  ⟨h.toLater.trans h'.toLater, h'.quiet.trans h.quiet, h'.ahead⟩

/-- The words from the current one on, and those ahead. -/
theorem Valid.words_eq (h : r.Valid) (hws : r.rest.map Token.word = w :: ws) :
    r.token.word = w ∧ r.InFront ws r := by
  rw [h.rest_eq, List.map_cons] at hws
  obtain ⟨hw, hws⟩ := List.cons.inj hws
  exact ⟨hw, .refl r, rfl, hws⟩

/-- A move to the first of the words ahead. -/
theorem Valid.move (h : r.Valid) (hws : r.ahead.map Token.word = w :: ws) :
    r.next.word = w ∧ r.moved.rest.map Token.word = w :: ws ∧ r.ahead ≠ [] := by
  obtain ⟨t, ts, hahead, rfl, rfl⟩ := List.map_eq_cons_iff.mp hws
  have hrest : r.rest = r.token :: t :: ts := by rw [h.rest_eq, hahead]
  exact ⟨congrArg _ (next_of_rest hrest), by rw [rest_moved_of_rest hrest]; rfl, by simp [hahead]⟩

theorem InFront.moved (h : r.InFront (w :: ws) r') (hr : r.Valid) : r.InFront ws r'.moved := by
  have hr' := h.toLater.valid hr
  obtain ⟨-, hrest, -⟩ := hr'.move h.ahead
  obtain ⟨-, hfront⟩ := hr'.moved.words_eq hrest
  exact ⟨h.toLater.moved, by simpa using h.quiet, hfront.ahead⟩

end Reader

theorem kind_of_word {s : Symbol} (h : t.word = .symbol s) : t.kind = .symbol s :=
  congrArg Word.kind h

theorem text_of_word {k : TokenKind} (h : t.word = ⟨k, utf8Bytes s⟩) : t.kind = k ∧ t.text = s := by
  have hliteral : t.literal = utf8Bytes s := congrArg Word.literal h
  exact ⟨congrArg Word.kind h, by rw [Token.text, hliteral, ofUtf8Bytes_utf8Bytes]⟩

theorem nameKind_cases (s : String) :
    Scan.nameKind s = .identifier ∨ ∃ k, Scan.nameKind s = .keyword k := by
  unfold Scan.nameKind
  cases Scan.keyword? (utf8Bytes s) with
  | none => exact .inl rfl
  | some k => exact .inr ⟨k, rfl⟩

theorem property_of_word (h : t.word = .name s) : isPropertyName t = true ∧ t.text = s := by
  obtain ⟨hkind, htext⟩ := text_of_word h
  refine ⟨?_, htext⟩
  rcases nameKind_cases s with hs | ⟨k, hs⟩ <;> simp [isPropertyName, hkind, hs]

/-! ## What a level of the grammar reads -/

/-- Reading the expression succeeds without an error and ends in front of the given words. -/
def Rereads (p : Parse Expr) (e : Expr) (rest : List Word) (r : Reader) : Prop :=
  Ends p (fun e' r' => e'.bare = e.bare ∧ r.InFront rest r') (fun _ => False) r

/-- The expressions of the grammar are read back when started with at most the given number of
tokens left: a head with links that fit, and a prefix operator with its operand. -/
structure Grammar.Rereads (g : Grammar) (n : Nat) : Prop where
  row : ∀ {least : Nat} {r : Reader} {e : Expr} {ls : List Link} {rest : List Word},
    lowest ≤ least → r.Ready n → e.Elementary → e.links = [] → Fits least ls rest →
    r.rest.map Token.word = e.words ++ (linksWords ls ++ rest) →
    Snippet.Rereads (g.expression least) (ls.foldl Link.onto e) rest r
  prefixed : ∀ {r : Reader} {op : UnaryOp} {e : Expr} {rest : List Word},
    r.Ready n → e.Elementary → Closing rest →
    r.rest.map Token.word = .symbol op.symbol :: e.words ++ rest →
    Snippet.Rereads (g.expression lowest) (.unary {} op e) rest r

section Rules

variable {g : Grammar} {n : Nat} {r : Reader}

/-- A whole expression behind the current token. -/
theorem Grammar.Rereads.next (hg : g.Rereads n) (hr : r.Ready (n + 1)) (hl : lowest ≤ least)
    (hleast : least < callStrength) (he : e.Elementary) (hrest : Closing rest)
    (hws : r.ahead.map Token.word = e.words ++ rest)
    (hW : ∀ e' r', e'.bare = e.bare → r.InFront rest r' → r.Past r' → W e' r') :
    Ends (g.expression least) W L r.moved := by
  obtain ⟨w, ws, hstart, -⟩ := words_start e he
  have hahead : r.ahead.map Token.word = w :: (ws ++ rest) := by
    rw [hws, hstart]
    rfl
  obtain ⟨-, hmoved, hne⟩ := hr.toValid.move hahead
  have hrow : r.moved.rest.map Token.word = e.head.words ++ (linksWords e.links ++ rest) := by
    rw [hmoved, ← List.append_assoc, ← words_head, hstart]
    rfl
  refine (hg.row hl (hr.moves hne) (head_elementary e he) (links_head e)
    (fits_links hleast (links_elementary e he) hrest) hrow).mono ?_ fun _ h => h.elim
  rintro e' r' ⟨hbare, hfront⟩
  refine hW e' r' (hbare.trans (onto_links e he)) ?_ (hfront.toLater.past hr.toValid hne)
  exact ⟨(Later.refl r).moved.trans hfront.toLater, by simpa using hfront.quiet, hfront.ahead⟩

theorem closing_more (hclose : Ending (.symbol close)) (es : List Expr) :
    Closing (moreWords es ++ .symbol close :: rest) := by
  cases es with
  | nil => exact ⟨_, _, rfl, hclose⟩
  | cons => exact ⟨_, _, rfl, by simp [Ending]⟩

/-- The expressions behind the first of a list. -/
theorem ends_rest {first : List Expr} {todo : List Expr} {r1 : Reader}
    {W : List Expr → Reader → Prop} (hg : g.Rereads n) (hr : r.Valid) (hr1 : r1.Ready (n + 1))
    (hclose : Ending (.symbol close)) (hes : elementaryList todo) (hcomma : close ≠ .comma)
    (hbare : bareList (first.reverse ++ todo) = bareList es)
    (h1 : r.InFront (moreWords todo ++ .symbol close :: rest) r1)
    (hW : ∀ es' r', bareList es'.reverse = bareList es → r.InFront (.symbol close :: rest) r' →
      W es' r') : Ends (moreElements g close first) W (fun _ => False) r1 := by
  refine ends_loop (fun done r' => ∃ todo, elementaryList todo ∧
    bareList (done.reverse ++ todo) = bareList es ∧
    r.InFront (moreWords todo ++ .symbol close :: rest) r') hr1.toValid ⟨todo, hes, hbare, h1⟩ ?_
  rintro done r2 hl ⟨todo, hes, hbare, h2⟩
  have hr2 := hr1.later hl
  simp only [ends_bind, ends_peekIsSymbol, ends_ite, ends_advance, ends_pure, ends_attempt,
    decide_eq_true_eq]
  cases todo with
  | nil =>
    obtain ⟨hnext, -, -⟩ := hr2.toValid.move h2.ahead
    rw [if_neg (by rw [kind_of_word hnext]; simpa using hcomma)]
    exact hW done r2 (by simpa using hbare) h2
  | cons e todo =>
    obtain ⟨hnext, -, hne⟩ := hr2.toValid.move h2.ahead
    have hmoved := h2.moved hr
    have hready := (hr2.moves hne).mono n.le_succ
    obtain ⟨w, ws, hstart, hword⟩ := words_start e hes.1
    have hahead : r2.moved.ahead.map Token.word =
        e.words ++ (moreWords todo ++ .symbol close :: rest) := by simpa using hmoved.ahead
    have hnotclose : r2.moved.next.kind ≠ .symbol close := by
      obtain ⟨hnext, -, -⟩ := hready.toValid.move (w := w) (by rw [hahead, hstart]; rfl)
      intro hk
      exact hword (by rw [← hnext]; simpa [Ending, Token.word, hk] using hclose)
    rw [if_pos (kind_of_word hnext), if_neg hnotclose]
    refine hg.next hready (Nat.le_refl _) (by decide) hes.1 (closing_more hclose todo) hahead
      fun e' r3 hbare' h3 hpast => ⟨⟨todo, hes.2, ?_, hmoved.trans h3⟩,
        hpast.toLater.past hr2.toValid hne⟩
    simpa [bareList_eq_map, hbare'] using hbare

/-- A list of expressions up to a closing symbol. -/
theorem ends_expressionList {W : List Expr → Reader → Prop}
    (hg : g.Rereads n) (hr : r.Ready (n + 1)) (hclose : Ending (.symbol close))
    (hcomma : close ≠ .comma) (hes : elementaryList es)
    (hws : r.ahead.map Token.word = listWords es ++ .symbol close :: rest)
    (hW : ∀ es' r', bareList es' = bareList es → r.InFront rest r' → W es' r') :
    Ends (expressionList g close) W (fun _ => False) r := by
  have hfront : r.InFront _ r := ⟨.refl r, rfl, hws⟩
  show Ends (do
    if ← peekIsSymbol close then
      advance
      return []
    advance
    let first ← attempt (g.expression lowest)
    let elements ← moreElements g close first.toList
    expectSymbol close
    return elements.reverse) W (fun _ => False) r
  simp only [ends_bind, ends_peekIsSymbol, ends_ite, ends_advance, ends_pure, ends_attempt,
    ends_expectSymbol, decide_eq_true_eq]
  cases es with
  | nil =>
    obtain ⟨hnext, -, -⟩ := hr.toValid.move hws
    rw [if_pos (kind_of_word hnext)]
    exact hW [] _ rfl (hfront.moved hr.toValid)
  | cons e es =>
    obtain ⟨w, ws, hstart, hword⟩ := words_start e hes.1
    have hahead : r.ahead.map Token.word = e.words ++ (moreWords es ++ .symbol close :: rest) := by
      simpa [listWords] using hws
    have hnotclose : r.next.kind ≠ .symbol close := by
      obtain ⟨hnext, -, -⟩ := hr.toValid.move (w := w) (by rw [hahead, hstart]; rfl)
      intro hk
      exact hword (by rw [← hnext]; simpa [Ending, Token.word, hk] using hclose)
    rw [if_neg hnotclose]
    refine hg.next hr (by decide) (by decide) hes.1 (closing_more hclose es) hahead
      fun e' r1 hbare h1 hpast => ?_
    have hfirst : bareList ((some e').toList.reverse ++ es) = bareList (e :: es) := by
      simp [bareList_eq_map, hbare]
    refine ends_rest hg hr.toValid (hr.later h1.toLater) hclose hes.2 hcomma hfirst h1
      fun es' r2 hbare h2 => ?_
    obtain ⟨hnext, -, -⟩ := (h2.toLater.valid hr.toValid).move h2.ahead
    rw [if_pos (kind_of_word hnext)]
    exact hW _ _ hbare (h2.moved hr.toValid)

/-- An entry of an object literal; the reader stands on its name. -/
theorem ends_entry {key : String} {value : Expr} {W : Property → Reader → Prop}
    (hg : g.Rereads n) (hr : r.Ready (n + 1)) (hvalue : value.Elementary) (hrest : Closing rest)
    (hname : r.token.word = .name key)
    (hws : r.ahead.map Token.word = .symbol .colon :: value.words ++ rest)
    (hW : ∀ q v r', v.bare = value.bare → r.InFront rest r' → W (.mk q key v) r') :
    Ends (property g) W (fun _ => False) r := by
  obtain ⟨hproperty, htext⟩ := property_of_word hname
  have hfront : r.InFront _ r := ⟨.refl r, rfl, hws⟩
  obtain ⟨hnext, -, -⟩ := hr.toValid.move hws
  have hmoved := hfront.moved hr.toValid
  unfold property
  simp only [ends_bind, ends_current, ends_ite, ends_reject, ends_positionOf, ends_peekIsSymbol,
    ends_advance, ends_pure, hproperty, kind_of_word hnext, Bool.not_true, Bool.false_eq_true,
    if_false, decide_true, if_true, htext]
  exact hg.next hr.moved (by decide) (by decide) hvalue hrest hmoved.ahead
    fun v r' hbare h _ => hW _ v r' hbare (hmoved.trans h)

theorem closing_moreEntries (ps : List Property) :
    Closing (moreEntryWords ps ++ .symbol .rightBrace :: rest) := by
  cases ps with
  | nil => exact ⟨_, _, rfl, by simp [Ending]⟩
  | cons p ps =>
    obtain ⟨_, key, value⟩ := p
    exact ⟨_, _, rfl, by simp [Ending]⟩

theorem ends_objectLiteral {site : Site} {ps : List Property} (hg : g.Rereads n)
    (hr : r.Ready (n + 1)) (hps : elementaryEntries ps)
    (hws : r.ahead.map Token.word = entryWords ps ++ .symbol .rightBrace :: rest) :
    Rereads (objectLiteral g) (.object site ps) rest r := by
  unfold Rereads objectLiteral
  simp only [ends_bind, ends_current, ends_siteOf]
  refine ends_loop (fun done r' => ∃ todo, elementaryEntries todo ∧
    bareProperties (done.reverse ++ todo) = bareProperties ps ∧
    r.InFront (entryWords todo ++ .symbol .rightBrace :: rest) r') hr.toValid
    ⟨ps, hps, rfl, .refl r, rfl, hws⟩ ?_
  rintro done r1 hl ⟨todo, htodo, hbare, h1⟩
  have hr1 := hr.later hl
  simp only [ends_bind, ends_peekIsSymbol, ends_ite, ends_advance, ends_pure, ends_expectSymbol,
    decide_eq_true_eq, Bool.not_eq_true', decide_eq_false_iff_not, ite_not]
  rcases todo with _ | ⟨⟨q, key, value⟩, todo⟩
  · obtain ⟨hnext, -, -⟩ := hr1.toValid.move h1.ahead
    rw [if_pos (kind_of_word hnext)]
    exact ⟨by simpa [Expr.bare] using hbare, h1.moved hr.toValid⟩
  · have hmoved := h1.moved hr.toValid
    obtain ⟨hnext, hstart, hne⟩ := hr1.toValid.move h1.ahead
    have hready := hr1.moves hne
    obtain ⟨hname, -⟩ := hready.toValid.words_eq hstart
    have hopen : r1.next.kind ≠ .symbol .rightBrace := by
      intro hk
      rcases nameKind_cases key with h | ⟨k, h⟩ <;>
        simp [Token.word, Word.name, hk, h] at hnext
    rw [if_neg hopen]
    refine ends_entry hg (hready.mono n.le_succ) htodo.2.1 (closing_moreEntries todo) hname
      (by simpa using hmoved.ahead) fun q' v r2 hv h2 => ?_
    have hfront := hmoved.trans h2
    have hr2 := hready.later h2.toLater
    have hpast : r1.Past r2 := h2.toLater.past hr1.toValid hne
    have hbare' : bareProperties ((.mk q' key v :: done).reverse ++ todo) = bareProperties ps := by
      rw [← hbare]
      simp [bareProperties_append, bareProperties, hv]
    cases todo with
    | nil =>
      obtain ⟨hafter, -, -⟩ := hr2.toValid.move h2.ahead
      rw [if_pos (kind_of_word hafter)]
      exact ⟨⟨[], htodo.2.2, hbare', hfront⟩, hpast⟩
    | cons p todo =>
      obtain ⟨_, key', value'⟩ := p
      obtain ⟨hafter, -, -⟩ := hr2.toValid.move h2.ahead
      have hcomma := kind_of_word hafter
      rw [if_neg (by simp [hcomma]), if_pos hcomma]
      exact ⟨⟨_, htodo.2.2, hbare', hfront.moved hr.toValid⟩, hpast.moved⟩

/-! ### Parentheses -/

theorem closesBefore_words {kinds : List TokenKind} {ts : List Token}
    (hinner : Balanced false (inner.map Word.kind))
    (hts : ts.map Token.word = .symbol .leftParen :: (inner ++ .symbol .rightParen :: w :: ws)) :
    closesBefore kinds 0 ts = kinds.contains w.kind := by
  obtain ⟨o, ts1, rfl, ho, hts1⟩ := List.map_eq_cons_iff.mp hts
  obtain ⟨toks, ts2, rfl, htoks, hts2⟩ := List.map_eq_append_iff.mp hts1
  obtain ⟨c, ts3, rfl, hc, hts3⟩ := List.map_eq_cons_iff.mp hts2
  obtain ⟨next, ts4, rfl, rfl, -⟩ := List.map_eq_cons_iff.mp hts3
  have hbalanced : Balanced false (toks.map Token.kind) := fun d => by
    have h := hinner d
    rwa [← htoks, List.map_map] at h
  exact closesBefore_parens (kind_of_word ho) hbalanced (kind_of_word hc)

/-- An expression in parentheses, in front of neither an arrow nor a colon. -/
theorem ends_grouped (hr : r.Valid)
    (hinner : Balanced false (inner.map Word.kind)) (harrow : w.kind ≠ .symbol .arrow)
    (hcolon : w.kind ≠ .symbol .colon) (hws : r.rest.map Token.word =
      .symbol .leftParen :: (inner ++ .symbol .rightParen :: w :: ws))
    (he : Rereads (g.expression lowest) e (.symbol .rightParen :: w :: ws) r.moved) :
    Rereads (grouped g) e (w :: ws) r := by
  have hplain : closesBefore [.symbol .arrow, .symbol .colon] 0 r.rest = false := by
    rw [closesBefore_words hinner hws]
    simp [harrow, hcolon]
  unfold Rereads grouped
  simp only [ends_bind, ends_parenFollowedBy, ends_ite, hplain, Bool.false_eq_true, if_false,
    ends_advance, ends_attempt, ends_expectSymbol]
  refine he.mono ?_ fun _ h => h.elim
  rintro e' r1 ⟨hbare, h1⟩
  have hfront : r.InFront _ r1 :=
    ⟨(Later.refl r).moved.trans h1.toLater, by simpa using h1.quiet, h1.ahead⟩
  obtain ⟨hnext, -, -⟩ := (hfront.toLater.valid hr).move h1.ahead
  rw [if_pos (kind_of_word hnext)]
  exact (ends_pure _).mpr ⟨hbare, hfront.moved hr⟩

/-! ### Comparisons -/

/-- **A comparison is no generic call.** Behind a less-than sign in front of a printed operand and a
closing parenthesis the reader goes back. -/
theorem ends_comparison {W : Option Expr → Reader → Prop} (hg : g.Reads n) (hr : r.Ready (n + 1))
    (hk : r.token.kind = .symbol .less)
    (hws : r.ahead.map Token.word = right.words ++ .symbol .rightParen :: rest) (hnone : W none r) :
    Ends (genericCall? g left) W L r := by
  unfold genericCall?
  simp only [ends_bind, ends_get, ends_attempt]
  refine (reads_typeArguments hg hr hk).mono (fun ts r1 h1 => ?_) fun r1 _ => ?_
  · simp only [ends_bind, ends_peekIsSymbol, ends_ite, ends_advance, ends_attempt, ends_pure,
      ends_set, Bool.and_eq_true, decide_eq_true_eq]
    split
    case isFalse => exact hnone
    case isTrue hcall =>
      obtain ⟨-, w, hahead, hspelled⟩ := h1.passed hcall.1
      obtain ⟨toks, ts', hrest, htoks, hts'⟩ := List.map_eq_append_iff.mp hws
      obtain ⟨c, ts', rfl, hc, -⟩ := List.map_eq_cons_iff.mp hts'
      have hbalanced : Balanced true (toks.map Token.kind) := fun d => by
        have h := words_balanced right d
        rwa [← htoks, List.map_map] at h
      have hnot : ¬ r.token :: w <+: r.token :: toks ++ c :: ts' :=
        not_angled hspelled (by simp) hbalanced (kind_of_word hc)
      exact absurd ⟨r1.ahead, by rw [List.cons_append, ← hahead, hrest, List.cons_append]⟩ hnot
  · simp only [ends_set, ends_pure]
    exact hnone

/-! ### Links -/

/-- What the reader makes of an operator and the operand to its right. -/
theorem ends_binary {op : BinaryOp}
    (hg : g.Rereads n) (hg' : g.Reads n) (hr : r.Ready (n + 1)) (hright : right.Elementary)
    (hk : r.token.kind = .symbol op.symbol)
    (hws : r.ahead.map Token.word = right.words ++ .symbol .rightParen :: rest)
    (hW : ∀ e' r', e'.bare = (Expr.binary {} left op right).bare →
      r.InFront (.symbol .rightParen :: rest) r' → W e' r') :
    Ends (infixStep g left) W (fun _ => False) r := by
  have hnext : Ends (g.expression (precedence op))
      (fun e' r' => W (.binary { position := r'.positionOf r.token } left op e') r')
      (fun _ => False) r.moved :=
    hg.next hr (Nat.le_of_lt (lowest_lt_precedence op))
      (Nat.lt_trans (precedence_lt_operandStrength op) (by decide)) hright
      ⟨_, _, rfl, by simp [Ending]⟩ hws fun e' r' hbare h _ =>
        hW _ r' (by simp [Expr.bare, hbare]) h
  by_cases hop : op = .less
  · subst hop
    have hless : r.token.kind = .symbol .less := hk
    unfold infixStep
    simp only [ends_bind, ends_current, hless, binaryOp?, if_true]
    refine ends_comparison hg' hr hless hws ?_
    unfold binaryRight
    simp only [ends_bind, ends_advance, ends_siteOf, ends_pure, hless]
    exact hnext
  · exact (ends_infixStep hk hop).mpr hnext

/-- What the reader makes of a link behind an expression; it stands on the symbol of the link. -/
theorem ends_link {l : Link} {ls : List Link} (hg : g.Rereads n) (hg' : g.Reads n)
    (hr : r.Ready (n + 1))
    (hfits : Fits least (l :: ls) rest) (hk : r.token.kind = .symbol l.symbol)
    (hws : r.ahead.map Token.word = l.more ++ (linksWords ls ++ rest))
    (hW : ∀ e' r', e'.bare = (l.onto left).bare → r.InFront (linksWords ls ++ rest) r' → W e' r') :
    Ends (infixStep g left) W (fun _ => False) r := by
  obtain ⟨hl, -, hlast, -⟩ := hfits
  have hfront : r.InFront _ r := ⟨.refl r, rfl, hws⟩
  cases l with
  | binary op right =>
    obtain ⟨rfl, ws, rfl⟩ := hlast rfl
    exact ends_binary hg hg' hr hl hk hws hW
  | call arguments =>
    have hparen : r.token.kind = .symbol .leftParen := hk
    unfold infixStep
    simp only [ends_bind, ends_current, hparen, ends_pure]
    refine ends_expressionList hg hr (by simp [Ending]) (by simp) hl
      (by simpa [Link.more] using hws)
      fun es' r' hbare h => hW _ r' ?_ h
    simp [Link.onto, Expr.bare, hbare]
  | index key =>
    have hbracket : r.token.kind = .symbol .leftBracket := hk
    unfold infixStep
    simp only [ends_bind, ends_current, hbracket, ends_advance, ends_expectSymbol, ends_siteOf,
      ends_pure]
    refine hg.next hr (Nat.le_refl _) (by decide) hl
      ⟨.symbol .rightBracket, _, rfl, by simp [Ending]⟩ (by simpa [Link.more] using hws)
      fun key' r' hbare h _ => ?_
    obtain ⟨hnext, -, -⟩ := (h.toLater.valid hr.toValid).move h.ahead
    rw [if_pos (kind_of_word hnext)]
    exact hW _ _ (by simp [Link.onto, Expr.bare, hbare]) (h.moved hr.toValid)
  | member property optional =>
    obtain ⟨-, hrest, -⟩ := hr.toValid.move hws
    obtain ⟨hname, -⟩ := hr.toValid.moved.words_eq hrest
    obtain ⟨hproperty, htext⟩ := property_of_word hname
    have hplain : r.moved.token.kind ≠ .string ∧ r.moved.token.kind ≠ .number := by
      have hkind : r.moved.token.kind = Scan.nameKind property := congrArg Word.kind hname
      rw [hkind]
      rcases nameKind_cases property with h | ⟨k, h⟩ <;> simp [h]
    have hmember : ∀ b, Ends (memberAccess left b)
        (fun e' r' => e'.bare = (Expr.member {} left property b).bare ∧ r' = r.moved)
        (fun _ => False) r := by
      intro b
      unfold memberAccess
      simp [hproperty, hplain, htext, Expr.bare]
    have hmoved := hfront.moved hr.toValid
    have hstep : Ends (memberAccess left optional) W (fun _ => False) r := by
      refine (hmember optional).mono ?_ fun _ h => h
      rintro e' _ ⟨hbare, rfl⟩
      exact hW e' _ hbare hmoved
    unfold infixStep
    cases optional with
    | false =>
      have hdot : r.token.kind = .symbol .dot := hk
      simp only [ends_bind, ends_current, hdot]
      exact hstep
    | true =>
      have hdot : r.token.kind = .symbol .optionalChain := hk
      simp only [ends_bind, ends_current, hdot]
      exact hstep

/-! ### Operands and expressions -/

/-- An operation in parentheses. Its links are those of its left operand and the operation itself,
and the loop behind the leftmost operand builds it up again. -/
theorem ends_groupedBinary {site : Site} {op : BinaryOp} (hg : g.Rereads n) (hr : r.Ready (n + 1))
    (he : (Expr.binary site left op right).Elementary) (harrow : w.kind ≠ .symbol .arrow)
    (hcolon : w.kind ≠ .symbol .colon) (hws : r.rest.map Token.word = .symbol .leftParen ::
      ((left.words ++ .symbol op.symbol :: right.words) ++ .symbol .rightParen :: w :: ws)) :
    Rereads (grouped g) (.binary site left op right) (w :: ws) r := by
  obtain ⟨-, hfront⟩ := hr.toValid.words_eq hws
  obtain ⟨u, us, hstart, -⟩ := words_start left he.1
  obtain ⟨-, -, hne⟩ := hr.toValid.move (w := u) (by rw [hfront.ahead, hstart]; rfl)
  have hmoved : r.moved.rest.map Token.word = left.head.words ++
      (linksWords (left.links ++ [.binary op right]) ++ .symbol .rightParen :: w :: ws) := by
    rw [rest_moved hr.toValid.rest_eq hne, hfront.ahead, words_head left]
    simp [linksWords, Link.words, Link.symbol, Link.more]
  have hfits : Fits lowest (left.links ++ [.binary op right]) (.symbol .rightParen :: w :: ws) :=
    fits_append (by decide) (links_elementary left he.1)
      ⟨he.2, lowest_lt_precedence op, fun _ => ⟨rfl, _, rfl⟩, _, _, rfl, by simp [Ending]⟩
  have hrow := hg.row (Nat.le_refl _) (hr.moves hne) (head_elementary left he.1) (links_head left)
    hfits hmoved
  refine ends_grouped hr.toValid (fun d => ?_) harrow hcolon hws ?_
  · simp [climb_of_shy (words_balanced left d), climb_of_shy (words_balanced right d),
      neutral_of_binaryOp (binaryOp?_eq_some.mpr rfl)]
  · refine hrow.mono ?_ fun _ h => h
    rintro e' r' ⟨hbare, h⟩
    refine ⟨hbare.trans ?_, h⟩
    rw [List.foldl_append]
    exact bare_onto (onto_links left he.1) (.binary op right)

/-- An operand without links: a name, a literal, a list, an object, or an expression in parentheses.
-/
theorem ends_leaf (hg : g.Rereads n) (hr : r.Ready (n + 1))
    (he : e.Elementary) (hleaf : e.links = []) (harrow : w.kind ≠ .symbol .arrow)
    (hcolon : w.kind ≠ .symbol .colon) (hws : r.rest.map Token.word = e.words ++ w :: ws) :
    Rereads (operand g) e (w :: ws) r := by
  unfold Rereads operand
  simp only [ends_bind, ends_current, ends_siteOf]
  cases e with
  | identifier _ name =>
    obtain ⟨hword, hfront⟩ := hr.toValid.words_eq hws
    obtain ⟨hkind, htext⟩ := text_of_word hword
    rw [Scan.nameKind_of_not_isReserved he.2] at hkind
    obtain ⟨hnext, -, -⟩ := hr.toValid.move hfront.ahead
    have hplain : r.next.kind ≠ .symbol .arrow := fun hk => harrow (by rw [← hnext, Token.word, hk])
    simp only [hkind, nameOrArrow, ends_bind, ends_current, ends_siteOf,
      ends_peekIsSymbol, ends_ite,
      hplain, decide_false, Bool.false_eq_true, if_false, ends_pure, htext]
    exact ⟨rfl, hfront⟩
  | number _ value =>
    obtain ⟨m, hm, rfl⟩ := he
    obtain ⟨hword, hfront⟩ := hr.toValid.words_eq hws
    obtain ⟨hkind, htext⟩ := text_of_word hword
    have hread : Decimal.read? r.token.text = .ok (Binary64.ofNat m) := by
      rw [htext, Binary64.text_ofNat hm, Decimal.read?_toDigits (hm.trans (by decide))]
    simp only [hkind, numberValue, ends_bind, ends_current, hread, ends_pure]
    exact ⟨rfl, hfront⟩
  | string | bigint =>
    obtain ⟨hword, hfront⟩ := hr.toValid.words_eq hws
    obtain ⟨hkind, htext⟩ := text_of_word hword
    simp only [hkind, ends_pure, htext]
    exact ⟨rfl, hfront⟩
  | boolean _ value =>
    obtain ⟨hword, hfront⟩ := hr.toValid.words_eq hws
    have hkind : r.token.kind = .keyword (if value then .true else .false) :=
      congrArg Word.kind hword
    cases value
    all_goals
      simp only [hkind, if_true, Bool.false_eq_true, if_false, ends_pure]
      exact ⟨rfl, hfront⟩
  | null | undefined | this =>
    obtain ⟨hword, hfront⟩ := hr.toValid.words_eq hws
    have hkind : r.token.kind = .keyword _ := congrArg Word.kind hword
    simp only [hkind, ends_pure]
    exact ⟨rfl, hfront⟩
  | array _ elements =>
    have hws : r.rest.map Token.word =
        .symbol .leftBracket :: (listWords elements ++ .symbol .rightBracket :: w :: ws) := by
      simpa [Expr.words] using hws
    obtain ⟨hword, hfront⟩ := hr.toValid.words_eq hws
    simp only [kind_of_word hword, ends_bind, ends_attempt, ends_pure]
    refine (ends_expressionList hg hr (by simp [Ending]) (by simp) he hfront.ahead
      (W := fun es' r' => bareList es' = bareList elements ∧ r.InFront (w :: ws) r')
      fun es' r' hbare h => ⟨hbare, h⟩).mono ?_ fun _ h => h.elim
    rintro es' r' ⟨hbare, h⟩
    exact ⟨by simp [Expr.bare, hbare], h⟩
  | object _ properties =>
    have hws : r.rest.map Token.word =
        .symbol .leftBrace :: (entryWords properties ++ .symbol .rightBrace :: w :: ws) := by
      simpa [Expr.words] using hws
    obtain ⟨hword, hfront⟩ := hr.toValid.words_eq hws
    simp only [kind_of_word hword]
    exact ends_objectLiteral hg hr he hfront.ahead
  | unary _ op x =>
    have hws : r.rest.map Token.word = .symbol .leftParen ::
        ((.symbol op.symbol :: x.words) ++ .symbol .rightParen :: w :: ws) := by
      simpa [Expr.words] using hws
    obtain ⟨hword, hfront⟩ := hr.toValid.words_eq hws
    obtain ⟨-, hmoved, hne⟩ := hr.toValid.move hfront.ahead
    simp only [kind_of_word hword]
    refine ends_grouped hr.toValid (fun d => ?_) harrow hcolon hws
      (hg.prefixed (hr.moves hne) he ⟨.symbol .rightParen, _, rfl, by simp [Ending]⟩ hmoved)
    simp [climb_of_shy (words_balanced x d)]
  | binary _ left op right =>
    have hws : r.rest.map Token.word = .symbol .leftParen ::
        ((left.words ++ .symbol op.symbol :: right.words) ++ .symbol .rightParen :: w :: ws) := by
      simpa [Expr.words] using hws
    obtain ⟨hword, -⟩ := hr.toValid.words_eq hws
    simp only [kind_of_word hword]
    exact ends_groupedBinary hg hr he harrow hcolon hws
  | call | member | index => simp [Expr.links] at hleaf
  | construct | typeof | assign | assertion | function => exact he.elim

/-- An operand and the links behind it. -/
theorem ends_row {ls : List Link} (hg : g.Rereads n) (hg' : g.Reads n)
    (hr : r.Ready (n + 1)) (hl : lowest ≤ least) (hfits : Fits least ls rest)
    (he : Rereads (operand g) e (linksWords ls ++ rest) r) :
    Rereads (expressionRule g least) (ls.foldl Link.onto e) rest r := by
  unfold Rereads expressionRule
  rw [ends_bind]
  refine he.mono ?_ fun _ h => h
  rintro first r1 ⟨hfirst, h1⟩
  have hr1 := hr.later h1.toLater
  refine ends_loop (fun left r' => ∃ done todo, ls = done ++ todo ∧
    left.bare = (done.foldl Link.onto e).bare ∧ Fits least todo rest ∧
    r.InFront (linksWords todo ++ rest) r') hr1.toValid ⟨[], ls, rfl, hfirst, hfits, h1⟩ ?_
  rintro left r2 hlater ⟨done, todo, hls, hbare, hfits, h2⟩
  have hr2 := hr1.later hlater
  simp only [ends_bind, ends_peek, ends_ite, ends_advance, ends_pure]
  cases todo with
  | nil =>
    obtain ⟨w, ws, rfl, hend⟩ := hfits
    obtain ⟨hnext, -, -⟩ := hr2.toValid.move h2.ahead
    have hstrength : strength r2.next.kind = lowest := by
      rw [← hend.strength, ← hnext]
      rfl
    rw [if_neg (by omega)]
    exact ⟨by simpa [hls] using hbare, h2⟩
  | cons l todo =>
    obtain ⟨hnext, hstart, hne⟩ := hr2.toValid.move h2.ahead
    have hkind := kind_of_word hnext
    have hready := hr2.moves hne
    obtain ⟨hword, -⟩ := hready.toValid.words_eq hstart
    have hmoved := h2.moved hr.toValid
    rw [if_pos (by rw [hkind]; exact hfits.2.1)]
    refine ends_link hg hg' (hready.mono n.le_succ) hfits (kind_of_word hword)
      (hmoved.ahead.trans (List.append_assoc ..)) fun e' r3 hbare' h3 =>
        ⟨⟨done ++ [l], todo, by simp [hls], ?_, hfits.2.2.2, hmoved.trans h3⟩,
          h3.toLater.past hr2.toValid hne⟩
    rw [hbare', List.foldl_append]
    exact bare_onto hbare l

/-- A prefix operator and its operand. -/
theorem ends_prefixed {op : UnaryOp} (hg : g.Rereads n) (hr : r.Ready (n + 1))
    (he : e.Elementary) (hrest : Closing rest)
    (hws : r.rest.map Token.word = .symbol op.symbol :: e.words ++ rest) :
    Rereads (operand g) (.unary {} op e) rest r := by
  obtain ⟨hword, hfront⟩ := hr.toValid.words_eq hws
  have hnext : ∀ s : Site, Ends (g.expression operandStrength)
      (fun e' r' => (Expr.unary s op e').bare = (Expr.unary {} op e).bare ∧ r.InFront rest r')
      (fun _ => False) r.moved := fun s =>
    hg.next hr (by decide) (by decide) he hrest hfront.ahead fun e' r' hbare h _ =>
      ⟨by simp [Expr.bare, hbare], h⟩
  unfold Rereads operand
  cases op
  all_goals
    have hkind := kind_of_word hword
    simp only [UnaryOp.symbol] at hkind
    simp only [ends_bind, ends_current, ends_siteOf, hkind, ends_advance, ends_pure]
    exact hnext _

end Rules

/-- **Every level of the grammar reads printed expressions back.** -/
theorem grammar_rereads : ∀ n, (grammar n).Rereads n := by
  intro n
  induction n with
  | zero =>
    refine ⟨fun _ hr => ?_, fun hr => ?_⟩ <;>
    · have := hr.levels
      have := hr.inside
      omega
  | succ n ih =>
    refine ⟨fun hl hr he hleaf hfits hws => ?_, fun hr he hrest hws => ?_⟩
    · obtain ⟨w, ws, hstart, harrow, hcolon⟩ := hfits.start
      exact ends_row ih (grammar_reads n) hr hl hfits
        (hstart ▸ ends_leaf ih hr he hleaf harrow hcolon (hstart ▸ hws))
    · have hfits : Fits lowest [] _ := hrest
      exact ends_row ih (grammar_reads n) hr (Nat.le_refl _) hfits
        (ends_prefixed ih hr he hrest hws)

theorem words_of_text (he : e.Elementary) :
    (Scan.ofText e.text).map Token.word = e.words ++ [Word.endOfInput] := by
  have hscanned : Scan.Scanned (utf8Bytes e.text ++ []) (e.words ++ []) :=
    Scan.scanned_text e he rfl .nil
  simpa [Scan.ofText] using hscanned.tokens

/-- **Printed expressions are read back.** Take an expression made of names that are not reserved,
natural numbers below a million, text of printable ASCII characters and line breaks and tabs,
bigints, booleans, `null`, `undefined` and `this`, lists, objects, accesses by name and by key,
calls without type arguments, and prefix and infix operators. Reading its text records no error and
gives the expression, up to positions. -/
theorem readExpression_text (e : Expr) (base : Position) (he : e.Elementary) :
    (readExpression e.text base).errors = [] ∧
      ∃ e', (readExpression e.text base).tree = some e' ∧ e'.bare = e.bare := by
  have hvalid := Reader.ofText_valid e.text base
  have hready : (Reader.ofText e.text base).Ready ((Reader.ofText e.text base).tokens.size + 2) :=
    ⟨hvalid, by omega⟩
  have hws : (Reader.ofText e.text base).rest.map Token.word =
      e.head.words ++ (linksWords e.links ++ [Word.endOfInput]) := by
    rw [← List.append_assoc, ← words_head, ← words_of_text he]
    simp [Reader.rest, Reader.ofText]
  have hclosing : Closing [Word.endOfInput] := ⟨_, _, rfl, by simp [Ending, Word.endOfInput]⟩
  have hrow := (grammar_rereads _).row (Nat.le_refl lowest) hready (head_elementary e he)
    (links_head e) (fits_links (by decide) (links_elementary e he) hclosing) hws
  have hend : Ends (toEnd (expressionRule
      (grammar ((Reader.ofText e.text base).tokens.size + 1)) lowest))
      (fun e' r' => e'.bare = e.bare ∧ r'.errors = []) (fun _ => False)
      (Reader.ofText e.text base) := by
    unfold toEnd
    simp only [ends_bind, ends_attempt]
    refine Ends.mono hrow ?_ fun _ h => h.elim
    rintro e' r' ⟨hbare, h⟩
    obtain ⟨hnext, -, -⟩ := (h.toLater.valid hvalid).move h.ahead
    have hkind : r'.next.kind = .endOfInput := congrArg Word.kind hnext
    simp only [expectEnd, ends_bind, ends_peek, ends_ite, ends_pure, hkind, if_true]
    exact (ends_pure e').mpr ⟨hbare.trans (onto_links e he), h.quiet⟩
  obtain ⟨e', r', hrun, hbare, herrors⟩ := hend.run
  have hread : readExpression e.text base = ⟨some e', []⟩ := by
    simp only [readExpression, read]
    rw [hrun]
    simp only [herrors]
    rfl
  exact ⟨by rw [hread], e', by rw [hread], hbare⟩

/-- A comparison whose right operand is a call with another comparison in it. -/
def nestedComparison : Expr :=
  .binary {} (.identifier {} "a") .less (.call {} (.identifier {} "f") []
    [.binary {} (.member {} (.identifier {} "b") "new" true) .greater (.string {} "\n")])

theorem readExpression_text_nestedComparison :
    nestedComparison.Elementary ∧ nestedComparison.text = "(a < f((b?.new > \"\\n\")))" ∧
      (readExpression nestedComparison.text {}).errors = [] ∧
      ∃ e, (readExpression nestedComparison.text {}).tree = some e ∧
        e.bare = nestedComparison.bare := by
  have htext : ∀ c ∈ "\n".toList, Scan.isQuotable c = true := by simp [Scan.isQuotable]
  have he : nestedComparison.Elementary := by
    refine ⟨⟨by decide, by decide⟩, ⟨by decide, by decide⟩, rfl, ?_, trivial⟩
    exact ⟨⟨⟨by decide, by decide⟩, by decide⟩, htext⟩
  exact ⟨he, by decide +kernel, readExpression_text nestedComparison {} he⟩

end Snippet

end ShapeCheck
