import Mathlib.Data.List.Forall2
import ShapeCheck.Proofs.CompleteTrees

/-!
# Chains of operators

A chain is a row of operands with binary operators between them, without parentheses. An operand is
an identifier behind any number of prefix operators.

* `Expr.bare` forgets where the nodes of an expression stand and how they are numbered. Two
  expressions with the same bare form are equal up to positions. Types inside an expression keep
  theirs.
* `Yields` is the row of words of a tree from left to right, and `Grouped` says that its operators
  are nested by precedence and, among equals, to the left.
* `Grouped.unique`: a row of words has at most one grouped tree. Its topmost operator is the last of
  those that bind least tightly.
* `readsChain`: an expression of a given strength that starts in a chain stops in front of the first
  operator that does not bind more tightly. What holds in every round is that the operator on top of
  the tree so far binds at least as tightly as the next one.
* `readExpression_chain`: reading a chain gives the grouped tree of its words. The less-than sign is
  left out, since it may open the type arguments of a call.
-/

namespace ShapeCheck

variable {s s' : Site} {op o o' : BinaryOp} {e l r l' r' e' : Expr} {toks : List Token} {n : Nat}

/-! ## Trees without positions -/

mutual

/-- The expression without the positions of its nodes. -/
def Expr.bare : Expr → Expr
  | .identifier _ name => .identifier {} name
  | .number _ value => .number {} value
  | .string _ value => .string {} value
  | .boolean _ value => .boolean {} value
  | .bigint _ digits => .bigint {} digits
  | .null _ => .null {}
  | .undefined _ => .undefined {}
  | .this _ => .this {}
  | .array _ elements => .array {} (bareList elements)
  | .object _ properties => .object {} (bareProperties properties)
  | .call _ callee types arguments => .call {} callee.bare types (bareList arguments)
  | .construct _ callee types arguments => .construct {} callee.bare types (bareList arguments)
  | .member _ object property optional => .member {} object.bare property optional
  | .index _ object key => .index {} object.bare key.bare
  | .typeof _ operand => .typeof {} operand.bare
  | .unary _ op operand => .unary {} op operand.bare
  | .binary _ left op right => .binary {} left.bare op right.bare
  | .assign _ target value => .assign {} target.bare value.bare
  | .assertion _ value type => .assertion {} value.bare type
  | .function _ signature body => .function {} signature body.bare

/-- The expressions without positions. -/
def bareList : List Expr → List Expr
  | [] => []
  | e :: es => e.bare :: bareList es

/-- The entries of an object literal without positions. -/
def bareProperties : List Property → List Property
  | [] => []
  | .mk _ key value :: ps => .mk {} key value.bare :: bareProperties ps

end

theorem bareList_eq_map (es : List Expr) : bareList es = es.map Expr.bare := by
  induction es with
  | nil => rfl
  | cons e es ih => rw [bareList, ih, List.map_cons]

theorem bareProperties_append (ps qs : List Property) :
    bareProperties (ps ++ qs) = bareProperties ps ++ bareProperties qs := by
  induction ps with
  | nil => rfl
  | cons p ps ih =>
    obtain ⟨_, key, value⟩ := p
    rw [List.cons_append, bareProperties, bareProperties, ih, List.cons_append]

/-! ## Operators -/

/-- The symbol that writes the operator. -/
def BinaryOp.symbol : BinaryOp → Symbol
  | .coalesce => .coalesce
  | .or => .logicalOr
  | .and => .logicalAnd
  | .equal => .equal
  | .notEqual => .notEqual
  | .strictEqual => .strictEqual
  | .strictNotEqual => .strictNotEqual
  | .less => .less
  | .greater => .greater
  | .lessEqual => .lessEqual
  | .greaterEqual => .greaterEqual
  | .add => .plus
  | .subtract => .minus
  | .multiply => .asterisk
  | .divide => .slash
  | .remainder => .percent

namespace Snippet

open Reader

/-! ## Words of a chain -/

/-- The operators in front of an operand. -/
inductive FrontOp where
  | not
  | negate
  | typeof
  deriving DecidableEq, Repr

/-- The kind of token that writes the operator. -/
def FrontOp.kind : FrontOp → TokenKind
  | .not => .symbol .bang
  | .negate => .symbol .minus
  | .typeof => .keyword .typeof

theorem binaryOp?_eq_some {s : Symbol} : binaryOp? s = some op ↔ s = op.symbol := by
  cases s <;> cases op <;> simp [binaryOp?, BinaryOp.symbol]

/-- The precedence of a binary operator: how tightly it binds. -/
def precedence (op : BinaryOp) : Nat := strength (.symbol op.symbol)

theorem lowest_lt_precedence (op : BinaryOp) : lowest < precedence op := by
  cases op <;> decide

theorem precedence_lt_operandStrength (op : BinaryOp) : precedence op < operandStrength := by
  cases op <;> decide

/-- The operators by how tightly they bind, from `??` to the ones that multiply. -/
def levels : List (List BinaryOp) :=
  [[.coalesce], [.or], [.and], [.equal, .notEqual, .strictEqual, .strictNotEqual],
    [.less, .greater, .lessEqual, .greaterEqual], [.add, .subtract],
    [.multiply, .divide, .remainder]]

/-- **The order of the operators.** One binds tighter than another exactly if it stands on a later
level, so those of one level bind equally tightly. -/
theorem precedence_lt_iff (o p : BinaryOp) :
    precedence o < precedence p ↔ levels.findIdx (o ∈ ·) < levels.findIdx (p ∈ ·) := by
  have heach (op : BinaryOp) : precedence op = levels.findIdx (op ∈ ·) + 3 := by
    cases op <;> decide
  rw [heach, heach, Nat.add_lt_add_iff_right]

/-- One word of a chain. -/
inductive ChainWord where
  | front (op : FrontOp)
  | name (s : String)
  | between (op : BinaryOp)
  deriving DecidableEq, Repr

/-- The token writes the word. -/
def Writes (t : Token) : ChainWord → Prop
  | .front op => t.kind = op.kind
  | .name s => t.kind = .identifier ∧ t.text = s
  | .between op => t.kind = .symbol op.symbol

instance (t : Token) (w : ChainWord) : Decidable (Writes t w) := by
  cases w <;> unfold Writes <;> infer_instance

/-- An identifier behind operators. -/
structure Operand where
  ops : List FrontOp
  name : String

/-- The words of an operand. -/
def Operand.words (a : Operand) : List ChainWord := a.ops.map .front ++ [.name a.name]

/-- Operators, each followed by an operand. -/
def linkWords (links : List (BinaryOp × Operand)) : List ChainWord :=
  links.flatMap fun l => .between l.1 :: l.2.words

/-- The words of a chain: an operand and links. -/
def chainWords (first : Operand) (links : List (BinaryOp × Operand)) : List ChainWord :=
  first.words ++ linkWords links

/-! ## Trees over a chain -/

/-- The words of the tree from left to right. -/
inductive Yields : Expr → List ChainWord → Prop
  | identifier {s : Site} {name : String} : Yields (.identifier s name) [.name name]
  | not {s : Site} {e : Expr} {ws : List ChainWord} (he : Yields e ws) :
    Yields (.unary s .not e) (.front .not :: ws)
  | negate {s : Site} {e : Expr} {ws : List ChainWord} (he : Yields e ws) :
    Yields (.unary s .negate e) (.front .negate :: ws)
  | typeof {s : Site} {e : Expr} {ws : List ChainWord} (he : Yields e ws) :
    Yields (.typeof s e) (.front .typeof :: ws)
  | binary {s : Site} {l r : Expr} {op : BinaryOp} {us vs : List ChainWord} (hl : Yields l us)
    (hr : Yields r vs) : Yields (.binary s l op r) (us ++ .between op :: vs)

/-- The operator of an infix node. -/
def operator? : Expr → Option BinaryOp
  | .binary _ _ op _ => some op
  | _ => none

/-- The tree is an identifier behind operators. -/
def Plain : Expr → Prop
  | .identifier _ _ => True
  | .unary _ _ e => Plain e
  | .typeof _ e => Plain e
  | _ => False

/-- Operators in front apply to their identifier alone. Between operands, what is grouped to the
left of an operator binds at least as tightly, and what is grouped to its right more tightly. -/
def Grouped : Expr → Prop
  | .binary _ l op r =>
    Grouped l ∧ Grouped r ∧ (∀ o, operator? l = some o → precedence op ≤ precedence o) ∧
      (∀ o, operator? r = some o → precedence op < precedence o)
  | e => Plain e

/-! ## One tree at most -/

theorem Plain.grouped (h : Plain e) : Grouped e := by
  cases e <;> first | exact h | exact h.elim

theorem Plain.operator?_eq_none (h : Plain e) : operator? e = none := by
  cases e <;> first | rfl | exact h.elim

theorem Plain.no_between {ws : List ChainWord} (h : Plain e)
    (hy : Yields e ws) : .between op ∉ ws := by
  induction hy with
  | identifier => simp
  | not _ ih | negate _ ih | typeof _ ih => simpa using ih h
  | binary => exact h.elim

/-- An operator between operands stands in a tree with a topmost operator, and binds at least as
tightly. -/
theorem Grouped.between_mem {ws : List ChainWord} (h : Grouped e)
    (hy : Yields e ws) (hop : .between op ∈ ws) :
    ∃ o, operator? e = some o ∧ precedence o ≤ precedence op := by
  induction hy with
  | identifier => simp at hop
  | not he | negate he | typeof he =>
    exact absurd hop (Plain.no_between h (by constructor; exact he))
  | @binary s l r p us vs hl hr ihl ihr =>
    obtain ⟨hgl, hgr, hleft, hright⟩ := h
    refine ⟨p, rfl, ?_⟩
    rcases List.mem_append.mp hop with hmem | hmem
    · obtain ⟨o, ho, hle⟩ := ihl hgl hmem
      exact Nat.le_trans (hleft o ho) hle
    · rcases List.mem_cons.mp hmem with heq | hmem
      · obtain rfl : op = p := by simpa using heq
        exact Nat.le_refl _
      · obtain ⟨o, ho, hle⟩ := ihr hgr hmem
        exact Nat.le_trans (Nat.le_of_lt (hright o ho)) hle

/-- In a grouped tree the operators to the left of the topmost one bind at least as tightly. -/
theorem Grouped.left_le {us : List ChainWord}
    (h : Grouped (.binary s l o r)) (hl : Yields l us) (hmem : .between op ∈ us) :
    precedence o ≤ precedence op := by
  obtain ⟨p, hp, hle⟩ := h.1.between_mem hl hmem
  exact Nat.le_trans (h.2.2.1 p hp) hle

/-- In a grouped tree the operators to the right of the topmost one bind more tightly. -/
theorem Grouped.lt_right {vs : List ChainWord}
    (h : Grouped (.binary s l o r)) (hr : Yields r vs) (hmem : .between op ∈ vs) :
    precedence o < precedence op := by
  obtain ⟨p, hp, hle⟩ := h.2.1.between_mem hr hmem
  exact Nat.lt_of_lt_of_le (h.2.2.2 p hp) hle

/-- Of two topmost operators over the same words neither stands to the left of the other. -/
theorem Grouped.not_before
    {us vs us' vs' x : List ChainWord} (h : Grouped (.binary s l o r)) (hr : Yields r vs)
    (h' : Grouped (.binary s' l' o' r')) (hl' : Yields l' us')
    (hus : us' = us ++ .between o :: x) : vs ≠ x ++ .between o' :: vs' := by
  intro hvs
  have h1 : precedence o < precedence o' := h.lt_right hr (by simp [hvs])
  have h2 : precedence o' ≤ precedence o := h'.left_le hl' (by simp [hus])
  omega

/-- Two grouped trees over the same words have the same topmost operator at the same place. -/
theorem Grouped.same_split
    {us vs us' vs' : List ChainWord} (h : Grouped (.binary s l o r)) (hl : Yields l us)
    (hr : Yields r vs) (h' : Grouped (.binary s' l' o' r')) (hl' : Yields l' us')
    (hr' : Yields r' vs') (hws : us ++ .between o :: vs = us' ++ .between o' :: vs') :
    us = us' ∧ o = o' ∧ vs = vs' := by
  rcases List.append_eq_append_iff.mp hws with ⟨x, hx, hy⟩ | ⟨x, hx, hy⟩ <;>
    rcases x with _ | ⟨w, x⟩
  · simp_all
  · obtain ⟨rfl, hvs⟩ := List.cons_eq_cons.mp hy
    exact absurd hvs (h.not_before hr h' hl' hx)
  · simp_all
  · obtain ⟨rfl, hvs⟩ := List.cons_eq_cons.mp hy
    exact absurd hvs (h'.not_before hr' h hl hx)

/-- A tree over words without an operator between operands is plain. -/
theorem Grouped.plain {ws : List ChainWord} (h : Grouped e) (hy : Yields e ws)
    (hno : ∀ op, .between op ∉ ws) : Plain e := by
  cases hy with
  | identifier => trivial
  | not | negate | typeof => exact h
  | @binary _ _ _ op => exact absurd (by simp) (hno op)

theorem Plain.unique {ws : List ChainWord} (h : Plain e) (hy : Yields e ws)
    (h' : Plain e') (hy' : Yields e' ws) : e'.bare = e.bare := by
  induction hy generalizing e' with
  | identifier =>
    cases e' with
    | identifier => cases hy'; rfl
    | unary | typeof => cases hy'
    | _ => exact h'.elim
  | not _ ih | negate _ ih =>
    cases e' with
    | unary _ _ operand =>
      have hplain : Plain operand := h'
      cases hy'
      next he' => simp only [Expr.bare, ih h hplain he']
    | identifier | typeof => cases hy'
    | _ => exact h'.elim
  | typeof _ ih =>
    cases e' with
    | typeof _ operand =>
      have hplain : Plain operand := h'
      cases hy' with
      | typeof he' => simp only [Expr.bare, ih h hplain he']
    | identifier | unary => cases hy'
    | _ => exact h'.elim
  | binary => exact h.elim

/-- **One tree at most.** Two grouped trees over the same words are equal up to positions: the
topmost operator is the last of those that bind least tightly. -/
theorem Grouped.unique {ws : List ChainWord} (h : Grouped e) (hy : Yields e ws)
    (h' : Grouped e') (hy' : Yields e' ws) : e'.bare = e.bare := by
  induction hy generalizing e' with
  | identifier => exact Plain.unique h .identifier (h'.plain hy' (by simp)) hy'
  | not he _ | negate he _ | typeof he _ =>
    refine Plain.unique h (by constructor; exact he) (h'.plain hy' fun _ => ?_) hy'
    exact Plain.no_between h (by constructor; exact he)
  | @binary s l r o us vs hl hr ihl ihr =>
    cases e' with
    | binary s' l' o' r' =>
      generalize hws : us ++ .between o :: vs = ws at hy'
      cases hy' with
      | binary hl' hr' =>
        obtain ⟨rfl, rfl, rfl⟩ := h.same_split hl hr h' hl' hr' hws
        simp only [Expr.bare, ihl h.1 h'.1 hl', ihr h.2.1 h'.2.1 hr']
    | _ => exact absurd (List.mem_append_right us List.mem_cons_self) (Plain.no_between h' hy')

/-! ## Reading a chain -/

/-- The tokens write the words. -/
abbrev Write (ts : List Token) (ws : List ChainWord) : Prop := List.Forall₂ Writes ts ws

/-- What is left to read of a chain: links and the end of the input. -/
def Tail (toks : List Token) (links : List (BinaryOp × Operand)) : Prop :=
  ∃ ts last, toks = ts ++ [last] ∧ last.kind = .endOfInput ∧ Write ts (linkWords links)

/-- The tokens write an operand, and the links of a chain follow. -/
def Starts (toks : List Token) (first : Operand) (links : List (BinaryOp × Operand)) : Prop :=
  ∃ ts tail, toks = ts ++ tail ∧ Write ts first.words ∧ Tail tail links

theorem Starts.ne_nil {first : Operand} {links : List (BinaryOp × Operand)}
    (h : Starts toks first links) : toks ≠ [] := by
  obtain ⟨ts, tail, rfl, -, last, _, rfl, -⟩ := h
  simp

theorem Tail.nil (h : Tail toks []) : ∃ last, toks = [last] ∧ last.kind = .endOfInput := by
  obtain ⟨ts, last, rfl, hlast, hts⟩ := h
  obtain rfl : ts = [] := List.forall₂_nil_right_iff.mp hts
  exact ⟨last, rfl, hlast⟩

theorem Tail.cons {l : BinaryOp × Operand} {links : List (BinaryOp × Operand)}
    (h : Tail toks (l :: links)) :
    ∃ t rest, toks = t :: rest ∧ t.kind = .symbol l.1.symbol ∧ Starts rest l.2 links := by
  obtain ⟨ts, last, rfl, hlast, hts⟩ := h
  have hwords : linkWords (l :: links) = .between l.1 :: (l.2.words ++ linkWords links) := rfl
  rw [hwords] at hts
  obtain ⟨t, rest, ht, hrest, rfl⟩ := List.forall₂_cons_right_iff.mp hts
  refine ⟨t, rest ++ [last], rfl, ht, rest.take l.2.words.length,
    rest.drop l.2.words.length ++ [last], ?_, List.forall₂_take_append _ _ _ hrest, _, _, rfl,
    hlast, List.forall₂_drop_append _ _ _ hrest⟩
  rw [← List.append_assoc, List.take_append_drop]

theorem Tail.ne_nil {links : List (BinaryOp × Operand)} (h : Tail toks links) : toks ≠ [] := by
  obtain ⟨ts, last, rfl, -⟩ := h
  simp

/-- The first token of a tail is not an arrow. -/
theorem Tail.head_ne_arrow {t : Token} {rest : List Token} {links : List (BinaryOp × Operand)}
    (h : Tail (t :: rest) links) : t.kind ≠ .symbol .arrow := by
  cases links with
  | nil =>
    obtain ⟨last, hlast, hk⟩ := h.nil
    cases hlast
    simp [hk]
  | cons l links =>
    obtain ⟨_, _, heq, hk, -⟩ := h.cons
    cases heq
    rw [hk]
    cases l.1 <;> simp [BinaryOp.symbol]

theorem ends_infixStep {g : Grammar} {r : Reader} {left : Expr}
    {W : Expr → Reader → Prop} {L : Reader → Prop} (hk : r.token.kind = .symbol op.symbol)
    (hop : op ≠ .less) :
    Ends (infixStep g left) W L r ↔ Ends (g.expression (precedence op))
      (fun right r' => W (.binary { position := r'.positionOf r.token } left op right) r') L
      r.moved := by
  unfold infixStep
  cases op <;>
    simp_all [binaryOp?, BinaryOp.symbol, binaryRight, precedence]

/-- The reader went on without an error and stands in front of the links. -/
structure Reader.Before (r r' : Reader) (links : List (BinaryOp × Operand)) : Prop
    extends Later r r' where
  quiet : r'.errors = r.errors
  tail : Tail r'.ahead links

/-- The tree covers the first operand and the links that are done, and its operators bind more
tightly than the given strength. -/
structure Covers (least : Nat) (first : Operand) (done : List (BinaryOp × Operand)) (e : Expr) :
    Prop where
  grouped : Grouped e
  yields : Yields e (chainWords first done)
  tight : done = [] ∧ Plain e ∨ ∃ op, operator? e = some op ∧ least < precedence op

/-- What reading an expression of at least the given strength at the start of a chain comes to. -/
def ReadsChain (p : Parse Expr) (least : Nat) (r : Reader) (first : Operand)
    (links : List (BinaryOp × Operand)) : Prop :=
  Ends p (fun e r' => ∃ done rest, links = done ++ rest ∧ Covers least first done e ∧
    r.Before r' rest ∧ ∀ l ∈ rest.head?, precedence l.1 ≤ least) (fun _ => False) r

/-- Operators in front bind more tightly than those between operands, so that only the identifier
is left to them. -/
theorem Covers.plain {first : Operand} {done : List (BinaryOp × Operand)}
    (h : Covers operandStrength first done e) : done = [] ∧ Plain e := by
  rcases h.tight with h | ⟨op, -, hop⟩
  · exact h
  · have := precedence_lt_operandStrength op
    omega

theorem ends_operand {r : Reader} {first : Operand} {links : List (BinaryOp × Operand)}
    (ih : ∀ (r : Reader) (first : Operand), r.Ready n → Starts r.rest first links →
      ReadsChain ((grammar n).expression operandStrength) operandStrength r first links)
    (hr : r.Ready (n + 1)) (hstart : Starts r.rest first links) :
    Ends (operand (grammar n)) (fun e r' => Plain e ∧ Yields e first.words ∧ r.Before r' links)
      (fun _ => False) r := by
  obtain ⟨ops, name⟩ := first
  obtain ⟨ts, tail, hrest, hts, htail⟩ := hstart
  cases ops with
  | nil =>
    obtain ⟨t, ts', ⟨hk, rfl⟩, hnil, rfl⟩ := List.forall₂_cons_right_iff.mp hts
    obtain rfl : ts' = [] := List.forall₂_nil_right_iff.mp hnil
    have htoken : r.token = t := token_of_rest hrest
    have hahead : r.ahead = tail := ahead_of_rest hrest
    have hnext : r.next.kind ≠ .symbol .arrow := by
      obtain ⟨u, us, rfl⟩ := List.exists_cons_of_ne_nil htail.ne_nil
      rw [next_of_rest hrest]
      exact htail.head_ne_arrow
    unfold operand
    simp only [ends_bind, ends_current, ends_siteOf, htoken, hk, nameOrArrow, ends_peekIsSymbol,
      ends_ite, hnext, ends_pure, decide_false, Bool.false_eq_true, if_false]
    exact ⟨trivial, .identifier, .refl r, rfl, hahead ▸ htail⟩
  | cons op ops =>
    obtain ⟨t, ts', hk, hts', rfl⟩ := List.forall₂_cons_right_iff.mp hts
    have htoken : r.token = t := token_of_rest hrest
    have hne : ts' ++ tail ≠ [] := by simp [htail.ne_nil]
    have hready := hr.moves (ahead_of_rest hrest ▸ hne)
    have hinner := ih r.moved ⟨ops, name⟩ hready
      ⟨ts', tail, rest_moved hrest hne, hts', htail⟩
    cases op
    all_goals
      have hk : r.token.kind = _ := htoken ▸ hk
      unfold operand
      simp only [ends_bind, ends_current, ends_siteOf, hk, FrontOp.kind, ends_advance, ends_pure]
      refine hinner.mono ?_ fun _ h => h
      rintro e r' ⟨done, rest, rfl, hcovers, hbefore, -⟩
      obtain ⟨rfl, hplain⟩ := hcovers.plain
      have hyields : Yields e (Operand.words ⟨ops, name⟩) := by
        simpa [chainWords, linkWords] using hcovers.yields
      refine ⟨hplain, by constructor; exact hyields, (Later.refl r).moved.trans hbefore.toLater, ?_,
        hbefore.tail⟩
      simpa using hbefore.quiet

theorem readsChain : ∀ {least : Nat} (r : Reader) (first : Operand)
    (links : List (BinaryOp × Operand)), lowest ≤ least → r.Ready n → (∀ l ∈ links, l.1 ≠ .less) →
    Starts r.rest first links → ReadsChain ((grammar n).expression least) least r first links := by
  induction n with
  | zero =>
    intro least r first links _ hr _ _
    have := hr.levels
    have := hr.inside
    omega
  | succ n ih =>
    intro least r first links hleast hr hless hstart
    have hoperand := ends_operand
      (fun r first hr hs => ih r first links (by decide) hr hless hs) hr hstart
    unfold ReadsChain
    show Ends (expressionRule (grammar n) least) _ _ r
    unfold expressionRule
    rw [ends_bind]
    refine hoperand.mono (fun e r1 h1 => ?_) fun _ h => h
    obtain ⟨hplain, hyields, hbefore⟩ := h1
    have hr1 := hr.later hbefore.toLater
    refine ends_loop (fun left r' => ∃ done rest, links = done ++ rest ∧
      Covers least first done left ∧ r.Before r' rest ∧
      ∀ o, operator? left = some o → ∀ l ∈ rest.head?, precedence l.1 ≤ precedence o)
      hr1.toValid ⟨[], links, rfl, ⟨hplain.grouped, ?_, .inl ⟨rfl, hplain⟩⟩, hbefore, ?_⟩ ?_
    · simpa [chainWords, linkWords] using hyields
    · simp [hplain.operator?_eq_none]
    rintro left r2 hl ⟨done, rest, hlinks, hcovers, hbefore, htop⟩
    have hr2 := hr1.later hl
    simp only [ends_bind, ends_peek, ends_ite, ends_advance, ends_pure]
    cases rest with
    | nil =>
      obtain ⟨last, hahead, hend⟩ := hbefore.tail.nil
      have hrest : r2.rest = [r2.token, last] := by rw [hr2.toValid.rest_eq, hahead]
      have hstop : ¬ least < strength r2.next.kind := by
        rw [next_of_rest hrest, hend]
        exact Nat.not_lt.mpr hleast
      rw [if_neg hstop]
      exact ⟨done, [], hlinks, hcovers, hbefore, by simp⟩
    | cons l rest =>
      obtain ⟨t, toks, hahead, hk, hstarts⟩ := hbefore.tail.cons
      have hrest : r2.rest = r2.token :: t :: toks := by rw [hr2.toValid.rest_eq, hahead]
      have hstrength : strength r2.next.kind = precedence l.1 := by
        rw [next_of_rest hrest, hk, precedence]
      rw [hstrength]
      split
      case isFalse hloose =>
        exact ⟨done, l :: rest, hlinks, hcovers, hbefore, by simpa using hloose⟩
      case isTrue htight =>
        have hmoved := rest_moved_of_rest hrest
        have hkind : r2.moved.token.kind = .symbol l.1.symbol := token_of_rest hmoved ▸ hk
        have hne : r2.ahead ≠ [] := by simp [hahead]
        rw [ends_infixStep hkind (hless l (by simp [hlinks]))]
        refine (ih r2.moved.moved l.2 rest (Nat.le_of_lt (lowest_lt_precedence _))
          (hr2.moves hne).moved (fun l' h => hless l' (by simp [hlinks, h]))
          (rest_moved hmoved hstarts.ne_nil ▸ hstarts)).mono ?_ fun _ h => h
        rintro right r3 ⟨done', rest', hrest', hright, hbefore', hle⟩
        have hlater : r2.moved.Later r3 := (Later.refl _).moved.trans hbefore'.toLater
        refine ⟨⟨done ++ l :: done', rest', by simp [hlinks, hrest'], ⟨⟨hcovers.grouped,
          hright.grouped, fun o ho => htop o ho l (by simp), fun o ho => ?_⟩, ?_,
          .inr ⟨l.1, rfl, htight⟩⟩, ⟨hbefore.toLater.moved.trans hlater |>.trans (.refl _), ?_,
          hbefore'.tail⟩, ?_⟩, hlater.past hr2.toValid hne⟩
        · rcases hright.tight with ⟨-, hplain⟩ | ⟨o', ho', hlt⟩
          · rw [hplain.operator?_eq_none] at ho
            cases ho
          · rw [ho'] at ho
            cases ho
            exact hlt
        · simpa [chainWords, linkWords] using hcovers.yields.binary hright.yields
        · simpa using hbefore'.quiet.trans (by simpa using hbefore.quiet)
        · rintro o ho l' hl'
          cases ho
          exact hle l' hl'

theorem ends_toEnd_chain {r : Reader} {first : Operand}
    {links : List (BinaryOp × Operand)} (hr : r.Ready (n + 1)) (hless : ∀ l ∈ links, l.1 ≠ .less)
    (hstart : Starts r.rest first links) :
    Ends (toEnd (expressionRule (grammar n) lowest))
      (fun e r' => Covers lowest first links e ∧ r'.errors = r.errors) (fun _ => False) r := by
  have hchain := readsChain r first links (Nat.le_refl lowest) hr hless hstart
  unfold toEnd
  simp only [ends_bind, ends_attempt]
  refine hchain.mono ?_ fun _ h => h.elim
  rintro e r' ⟨done, rest, hlinks, hcovers, hbefore, hle⟩
  cases rest with
  | cons l rest =>
    have := hle l (by simp)
    have := lowest_lt_precedence l.1
    omega
  | nil =>
    obtain rfl : links = done := by simpa using hlinks
    obtain ⟨last, hahead, hend⟩ := hbefore.tail.nil
    have hrest : r'.rest = [r'.token, last] := by
      rw [(hbefore.toLater.valid hr.toValid).rest_eq, hahead]
    simp only [expectEnd, ends_bind, ends_peek, ends_ite, ends_pure, next_of_rest hrest, hend,
      if_true]
    exact (ends_pure e).mpr ⟨hcovers, hbefore.quiet⟩

/-- **Chains of operators are grouped by precedence and to the left.** A text whose words are
operands and binary operators between them, each operand an identifier behind any number of prefix
operators, is read without errors, unless one of the operators is a less-than sign. The tree has
these words from left to right and is grouped, and up to positions it is the only such tree. -/
theorem readExpression_chain (text : String) (base : Position) (first : Operand)
    (links : List (BinaryOp × Operand)) (hless : ∀ l ∈ links, l.1 ≠ .less)
    (hwords : Write (words text) (chainWords first links)) :
    ∃ e, (readExpression text base).tree = some e ∧ (readExpression text base).errors = [] ∧
      Yields e (chainWords first links) ∧ Grouped e ∧
      ∀ e', Yields e' (chainWords first links) → Grouped e' → e'.bare = e.bare := by
  obtain ⟨ws, last, htokens, hend, -⟩ := Scan.tokens_ended (utf8Bytes text)
  have hws : words text = ws := by simp [words, Scan.ofText, htokens]
  rw [hws] at hwords
  have hvalid := Reader.ofText_valid text base
  have hstart : Starts (Reader.ofText text base).rest first links := by
    refine ⟨ws.take first.words.length, ws.drop first.words.length ++ [last], ?_,
      List.forall₂_take_append _ _ _ hwords, _, _, rfl, hend, List.forall₂_drop_append _ _ _ hwords⟩
    rw [← List.append_assoc, List.take_append_drop, ← htokens]
    simp [Reader.rest, Reader.ofText, Scan.ofText]
  obtain ⟨e, r', hrun, hcovers, herrors⟩ := (ends_toEnd_chain
    (n := (Reader.ofText text base).tokens.size + 1) ⟨hvalid, by omega⟩ hless hstart).run
  have hread : readExpression text base = ⟨some e, []⟩ := by
    simp only [readExpression, read]
    rw [hrun]
    simp only [herrors]
    rfl
  refine ⟨e, by rw [hread], by rw [hread], hcovers.yields, hcovers.grouped, fun e' hy hg => ?_⟩
  exact hcovers.grouped.unique hcovers.yields hg hy

/-- In the text `a - !b - c * -typeof d == e` the operators stand at three levels. -/
theorem readExpression_chain_levels :
    (∀ l ∈ [(BinaryOp.subtract, Operand.mk [.not] "b"), (.subtract, .mk [] "c"),
      (.multiply, .mk [.negate, .typeof] "d"), (.equal, .mk [] "e")], l.1 ≠ .less) ∧
    Write (words "a - !b - c * -typeof d == e") (chainWords (.mk [] "a")
      [(.subtract, .mk [.not] "b"), (.subtract, .mk [] "c"),
        (.multiply, .mk [.negate, .typeof] "d"), (.equal, .mk [] "e")]) ∧
    ∃ e, (readExpression "a - !b - c * -typeof d == e" {}).tree = some e ∧ Grouped e := by
  have hless : ∀ l ∈ [(BinaryOp.subtract, Operand.mk [.not] "b"), (.subtract, .mk [] "c"),
      (.multiply, .mk [.negate, .typeof] "d"), (.equal, .mk [] "e")], l.1 ≠ .less := by
    simp
  have hwords : Write (words "a - !b - c * -typeof d == e") (chainWords (.mk [] "a")
      [(.subtract, .mk [.not] "b"), (.subtract, .mk [] "c"),
        (.multiply, .mk [.negate, .typeof] "d"), (.equal, .mk [] "e")]) := by
    decide +kernel
  obtain ⟨e, htree, -, -, hgrouped, -⟩ := readExpression_chain _ {} _ _ hless hwords
  exact ⟨hless, hwords, e, htree, hgrouped⟩

end Snippet

end ShapeCheck
