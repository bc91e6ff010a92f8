import ShapeCheck.Proofs.CompleteTrees
import ShapeCheck.Proofs.PrintedWords

/-!
# Levels of parentheses

A row of words is balanced when its parentheses match each other: read from any level of nesting it
leads back to this level and never below it. The end of the input is in no balanced row.

* `Spelled.balanced`: what spells a phrase is balanced.
* `closesBefore_balanced`: looking for the closing parenthesis passes over balanced words.
* `not_angled`: therefore no type arguments start between a less-than sign and the right operand
  that is printed behind it. The sign that would close them is inside parentheses that open after
  it.
-/

namespace ShapeCheck.Snippet

variable {α : Type} {s : Symbol} {ps : List Phrase} {f : α → Phrase} {o c : Token} {shy : Bool}
  {d : Nat} {toks rest u : List Token}

/-- The level of nesting behind a word, if the word may stand at the level in front of it. In a shy
row no greater-than sign stands outside parentheses. -/
def level (shy : Bool) (d : Nat) : TokenKind → Option Nat
  | .symbol .leftParen => some (d + 1)
  | .symbol .rightParen => if d = 0 then none else some (d - 1)
  | .symbol .greater => if shy && d = 0 then none else some d
  | .endOfInput => none
  | _ => some d

/-- The level of nesting behind a row of words. -/
def climb (shy : Bool) (d : Nat) (ks : List TokenKind) : Option Nat := ks.foldlM (level shy) d

/-- The row leads from every level back to it. -/
def Balanced (shy : Bool) (ks : List TokenKind) : Prop := ∀ d, climb shy d ks = some d

section Climbing

variable {e : Nat} {k : TokenKind} {ks ks' : List TokenKind}

@[simp] theorem climb_nil : climb shy d [] = some d := rfl

@[simp] theorem climb_cons : climb shy d (k :: ks) = (level shy d k).bind (climb shy · ks) := rfl

@[simp] theorem climb_append :
    climb shy d (ks ++ ks') = (climb shy d ks).bind (climb shy · ks') := by
  simp only [climb, List.foldlM_append]
  rfl

theorem Balanced.climb (h : Balanced shy ks) : Snippet.climb shy d ks = some d := h d

@[simp] theorem level_leftParen : level shy d (.symbol .leftParen) = some (d + 1) := rfl

@[simp] theorem level_rightParen : level shy (d + 1) (.symbol .rightParen) = some d := rfl

@[simp] theorem level_greater : level false d (.symbol .greater) = some d := rfl

@[simp] theorem level_greater_inside : level shy (d + 1) (.symbol .greater) = some (d + 1) := by
  simp [level]

@[simp] theorem level_symbol (hopen : s ≠ .leftParen) (hclose : s ≠ .rightParen)
    (hgreater : s ≠ .greater) : level shy d (.symbol s) = some d := by
  cases s <;> first | rfl | contradiction

@[simp] theorem level_keyword (k : Keyword) : level shy d (.keyword k) = some d := rfl

@[simp] theorem level_identifier : level shy d .identifier = some d := rfl

@[simp] theorem level_number : level shy d .number = some d := rfl

@[simp] theorem level_bigint : level shy d .bigint = some d := rfl

@[simp] theorem level_string : level shy d .string = some d := rfl

theorem level_of_shy (h : level shy d k = some e) : level false d k = some e := by
  unfold level at h ⊢
  grind

theorem climb_of_shy (h : climb shy d ks = some e) : climb false d ks = some e := by
  induction ks generalizing d with
  | nil => exact h
  | cons k ks ih =>
    obtain ⟨c, hc, hrest⟩ := Option.bind_eq_some_iff.mp h
    rw [climb_cons, level_of_shy hc]
    exact ih hrest

end Climbing

/-! ## Spelled phrases -/

/-- A word that does not change the level. -/
def Neutral (k : TokenKind) : Prop := ∀ d, level false d k = some d

/-- The word that the level behind a phrase depends on: its closing symbol, if it was given one. -/
def Phrase.closing : Phrase → TokenKind
  | .upTo close _ => .symbol close
  | _ => .identifier

mutual

/-- The symbols that stand between the parts of the phrase do not change the level. -/
def Phrase.Tame : Phrase → Prop
  | .separated s ps => Neutral (.symbol s) ∧ tameList ps
  | .ended ss _ ps => (∀ s ∈ ss, Neutral (.symbol s)) ∧ tameList ps
  | .angled ps => tameList ps
  | .clause k (some p) => Neutral k ∧ p.Tame ∧ p.closing = .identifier
  | .mark s _ => Neutral (.symbol s)
  | .signature s _ => Neutral (.symbol s)
  | _ => True

/-- All of the phrases are tame and without a closing symbol. -/
def tameList : List Phrase → Prop
  | [] => True
  | p :: ps => (p.Tame ∧ p.closing = .identifier) ∧ tameList ps

end

@[simp] theorem tameList_append {qs : List Phrase} :
    tameList (ps ++ qs) ↔ tameList ps ∧ tameList qs := by
  induction ps with
  | nil => simp [tameList]
  | cons p ps ih => simp [tameList, ih, and_assoc]

@[simp] theorem tameList_map {as : List α} :
    tameList (as.map f) ↔ ∀ a ∈ as, (f a).Tame ∧ (f a).closing = .identifier := by
  induction as with
  | nil => simp [tameList]
  | cons a as ih => simp [tameList, ih]

@[simp] theorem tame_clause {k : TokenKind} {o : Option α} :
    (Phrase.clause k (o.map f)).Tame ↔
      ∀ a ∈ o, Neutral k ∧ (f a).Tame ∧ (f a).closing = .identifier := by
  cases o <;> simp [Phrase.Tame]

theorem neutral_of_isPropertyName {t : Token} (h : isPropertyName t = true) (d : Nat) :
    level false d t.kind = some d := by
  revert h
  cases hk : t.kind <;> simp [isPropertyName, level, hk]

theorem neutral_of_binaryOp {op : BinaryOp} (h : binaryOp? s = some op) (d : Nat) :
    level false d (.symbol s) = some d := by
  obtain rfl := binaryOp?_eq_some.mp h
  cases op <;> rfl

theorem climb_of_spelled {p : Phrase} {ws : List Token} (h : Spelled p ws) :
    p.Tame → ∀ d, climb false d (ws.map Token.kind) = level false d p.closing := by
  induction h with
  | type_keyword ht => rcases ht with ht | ht <;> simp [Phrase.closing, ht]
  | parameter ht =>
    rcases ht with ht | ht <;> simp_all [Phrase.Tame, Phrase.closing, Neutral]
  | @access _ _ _ b _ _ _ hd hn =>
    rcases hn with hn | ⟨k, hn⟩ <;> cases b <;>
      simp_all [Phrase.Tame, Phrase.closing]
  | _ =>
    simp_all [Phrase.Tame, Phrase.closing, tameList, Neutral, neutral_of_isPropertyName,
      neutral_of_binaryOp]

/-! ## Printed expressions -/

@[simp] theorem level_name (s : String) : level shy d (Word.name s).kind = some d := by
  unfold Word.name Scan.nameKind
  cases Scan.keyword? (utf8Bytes s) <;> rfl

@[simp] theorem level_unaryOp (op : UnaryOp) : level shy d (.symbol op.symbol) = some d := by
  cases op <;> rfl

@[simp] theorem level_binaryOp (op : BinaryOp) :
    level shy (d + 1) (.symbol op.symbol) = some (d + 1) := by
  cases op <;> simp [BinaryOp.symbol]

@[simp] theorem kind_symbol (s : Symbol) : (Word.symbol s).kind = .symbol s := rfl

@[simp] theorem kind_keyword (k : Keyword) : (Word.keyword k).kind = .keyword k := rfl

mutual

/-- The words of a printed expression are balanced, and its greater-than signs stand in parentheses.
-/
theorem words_balanced : ∀ e : Expr, Balanced true (e.words.map Word.kind)
  | .identifier .., d | .number .., d | .string .., d | .bigint .., d | .boolean .., d
  | .null _, d | .undefined _, d | .this _, d | .construct .., d | .typeof .., d | .assign .., d
  | .assertion .., d | .function .., d => by simp [Expr.words]
  | .array _ elements, d => by simp [Expr.words, (listWords_balanced elements).climb]
  | .object _ properties, d => by simp [Expr.words, (entryWords_balanced properties).climb]
  | .call _ callee _ arguments, d => by
    simp [Expr.words, (words_balanced callee).climb, (listWords_balanced arguments).climb]
  | .member _ object _ optional, d => by
    cases optional <;> simp [Expr.words, (words_balanced object).climb]
  | .index _ object key, d => by
    simp [Expr.words, (words_balanced object).climb, (words_balanced key).climb]
  | .unary _ op operand, d => by simp [Expr.words, (words_balanced operand).climb]
  | .binary _ left op right, d => by
    simp [Expr.words, (words_balanced left).climb, (words_balanced right).climb]

theorem listWords_balanced : ∀ es : List Expr, Balanced true ((listWords es).map Word.kind)
  | [], d => by simp [listWords]
  | e :: es, d => by simp [listWords, (words_balanced e).climb, (moreWords_balanced es).climb]

theorem moreWords_balanced : ∀ es : List Expr, Balanced true ((moreWords es).map Word.kind)
  | [], d => by simp [moreWords]
  | e :: es, d => by simp [moreWords, (words_balanced e).climb, (moreWords_balanced es).climb]

theorem entryWords_balanced : ∀ ps : List Property, Balanced true ((entryWords ps).map Word.kind)
  | [], d => by simp [entryWords]
  | .mk _ _ value :: ps, d => by
    simp [entryWords, (words_balanced value).climb, (moreEntryWords_balanced ps).climb]

theorem moreEntryWords_balanced : ∀ ps : List Property,
    Balanced true ((moreEntryWords ps).map Word.kind)
  | [], d => by simp [moreEntryWords]
  | .mk _ _ value :: ps, d => by
    simp [moreEntryWords, (words_balanced value).climb, (moreEntryWords_balanced ps).climb]

end

/-! ## What the levels decide -/

theorem closesBefore_cons (kinds : List TokenKind) (depth : Nat) (t : Token) (rest : List Token) :
    closesBefore kinds depth (t :: rest) =
      if t.kind = .symbol .leftParen then closesBefore kinds (depth + 1) rest
      else if t.kind = .symbol .rightParen then
        if depth ≤ 1 then (rest.head?.any fun next => kinds.contains next.kind)
        else closesBefore kinds (depth - 1) rest
      else if t.kind = .endOfInput then false
      else closesBefore kinds depth rest := by
  rw [closesBefore.eq_def]
  cases rest <;> rfl

/-- Looking for the closing parenthesis passes over words that do not lead below the level. -/
theorem closesBefore_climb {kinds : List TokenKind} {rest : List Token} :
    ∀ {toks : List Token} {d e : Nat}, climb false d (toks.map Token.kind) = some e →
      closesBefore kinds (d + 1) (toks ++ rest) = closesBefore kinds (e + 1) rest
  | [], d, e, h => by
    cases h
    rfl
  | t :: toks, d, e, h => by
    obtain ⟨c, hc, hrest⟩ := Option.bind_eq_some_iff.mp h
    have ih := @closesBefore_climb kinds rest _ _ _ hrest
    rw [List.cons_append, closesBefore_cons]
    split
    case isTrue hopen =>
      obtain rfl : d + 1 = c := by simpa [hopen] using hc
      exact ih
    case isFalse hopen =>
    split
    case isTrue hclose =>
      cases d with
      | zero => simp [hclose, level] at hc
      | succ d =>
        obtain rfl : d = c := by simpa [hclose] using hc
        rw [if_neg (by omega)]
        exact ih
    case isFalse hclose =>
    have hsame : t.kind ≠ .endOfInput ∧ d = c := by
      revert hc
      unfold level
      grind
    obtain ⟨hend, rfl⟩ := hsame
    rw [if_neg hend]
    exact ih

/-- No closing parenthesis in a list of printed words is in front of an arrow or a colon. -/
theorem closesBefore_parens {kinds : List TokenKind} {next : Token}
    (ho : o.kind = .symbol .leftParen) (h : Balanced false (toks.map Token.kind))
    (hc : c.kind = .symbol .rightParen) :
    closesBefore kinds 0 (o :: toks ++ c :: next :: rest) = kinds.contains next.kind := by
  rw [List.cons_append, closesBefore_cons, if_pos ho, closesBefore_climb (h 0), closesBefore_cons,
    if_neg (by simp [hc]), if_pos hc, if_pos (by omega), List.head?_cons, Option.any_some]

theorem angled_cases (h : Spelled (.angled ps) u) :
    u = [] ∨ ∃ o v c, u = o :: v ++ [c] ∧ Spelled (.separated .comma ps) v ∧
      c.kind = .symbol .greater := by
  cases h with
  | angled_none => exact .inl rfl
  | angled_some _ hps hc => exact .inr ⟨_, _, _, rfl, hps, hc⟩

/-- **No type arguments in front of a printed operand.** Behind a less-than sign, balanced words
whose greater-than signs stand in parentheses, and a closing parenthesis do not begin like type
arguments. -/
theorem not_angled {ts : List TypeExpr} (hu : Spelled (.angled (ts.map .type)) u) (hne : u ≠ [])
    (htoks : Balanced true (toks.map Token.kind)) (hc : c.kind = .symbol .rightParen) :
    ¬ u <+: o :: toks ++ c :: rest := by
  obtain rfl | ⟨o', u', c', rfl, hps, hc'⟩ := angled_cases hu
  · exact absurd rfl hne
  · rintro ⟨tail, htail⟩
    have hinner : climb false 0 (u'.map Token.kind) = some 0 :=
      climb_of_spelled hps (by simp [Phrase.Tame, Neutral, Phrase.closing]) 0
    obtain ⟨-, hrow⟩ : o' = o ∧ u' ++ c' :: tail = toks ++ c :: rest := by simpa using htail
    rcases List.append_eq_append_iff.mp hrow with ⟨x, hx, hy⟩ | ⟨x, hx, hy⟩
    · cases x with
      | nil =>
        obtain ⟨rfl, -⟩ := List.cons.inj hy
        simp [hc] at hc'
      | cons b x =>
        obtain ⟨rfl, -⟩ := List.cons.inj hy
        have hlevel := htoks 0
        rw [hx, List.map_append, climb_append] at hlevel
        obtain ⟨d, hd, hrest⟩ := Option.bind_eq_some_iff.mp hlevel
        obtain rfl : d = 0 := by simpa [hinner] using (climb_of_shy hd).symm
        simp [hc', level] at hrest
    · cases x with
      | nil =>
        obtain ⟨rfl, -⟩ := List.cons.inj hy
        simp [hc] at hc'
      | cons b x =>
        obtain ⟨rfl, -⟩ := List.cons.inj hy
        rw [hx, List.map_append, climb_append, climb_of_shy (htoks 0)] at hinner
        simp [hc, level] at hinner

end ShapeCheck.Snippet
