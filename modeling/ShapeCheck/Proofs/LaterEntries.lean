import ShapeCheck.Proofs.CompleteTrees
import ShapeCheck.Proofs.GrammarRefinement

/-!
# Every rule is entered at a later token

The rules for types and expressions call each other. Reading ends because no call is entered where
the call around it was: each is at least one token further on. The reader never leaves the list of
tokens on the way, whatever the tokens are.

* `Grammar.below` is a grammar whose rules run out of steps unless fewer tokens are left than a
  given number. `paced` is the grammar in which every call is held to that: it may only be entered
  behind the token at which the call around it was entered.
* `EntryPoint` and `Recursive` list the rules: those for whole snippets, and those that call each
  other, with the readers on which they are started.
* `Descends` says of a rule that the paced grammar makes no difference to it. It has the same
  outcome with every sufficient number of levels, and the outcome is in bounds.
* `reading_descends` says so of all rules.
-/

namespace ShapeCheck.Snippet

open Reader

variable {α β : Type} {g g' : Grammar} {n : Nat} {r r1 : Reader} {p : Parse α}
  {rule : Grammar → Parse α} {starts : Reader → Prop}

/-! ## Calls that have to be entered later -/

/-- The number of tokens from the current one on. -/
def Reader.left (r : Reader) : Nat := r.tokens.size - r.place

/-- Runs a rule if the reader is in bounds and has fewer than the given number of tokens left, and
runs out of steps otherwise. -/
def fewer (k : Nat) (p : Parse α) : Parse α := do
  let r ← get
  if r.place < r.tokens.size ∧ r.left < k then p else outOfSteps

/-- The grammar whose two rules may only be entered with fewer than the given number of tokens left.
-/
def Grammar.below (g : Grammar) (k : Nat) : Grammar where
  expression least := fewer k (g.expression least)
  type := fewer k g.type

/-- The grammar with the given number of levels in which every call of the two rules has to be
entered at a later token than the call around it. -/
def paced : Nat → Grammar
  | 0 => ⟨fun _ => outOfSteps, outOfSteps⟩
  | n + 1 =>
    { expression := fun least => do
        let r ← get
        expressionRule ((paced n).below r.left) least
      type := do
        let r ← get
        typeRule ((paced n).below r.left) }

/-- A type behind readonly marks, or without one. The given rule reads what follows a mark. -/
def postfixStep (g : Grammar) (inner : Parse TypeExpr) : Parse TypeExpr := do
  let start ← current
  if start.kind = .keyword .readonly then
    advance
    match ← inner with
    | .array p element _ => return .array p element true
    | .tuple p slots rest _ => return .tuple p slots rest true
    | _ => reject start .readonlyModifier
  else arraySuffix g

/-- The rule for postfix types in which what follows a readonly mark has to be entered at a later
token than the mark. -/
def pacedPostfix (g : Grammar) : Nat → Parse TypeExpr
  | 0 => outOfSteps
  | n + 1 => do
    let r ← get
    postfixStep g (fewer r.left (pacedPostfix g n))

/-- The rules for whole snippets. -/
inductive EntryPoint : {α : Type} → (Grammar → Parse α) → Prop
  | type : EntryPoint fun g => toEnd (typeRule g)
  | expression : EntryPoint fun g => toEnd (expressionRule g lowest)
  | signature : EntryPoint fun g => thenEnd (signature g .colon)
  | objectMember (members : MemberList) : EntryPoint fun g => thenEnd (objectMember g members)
  | typeParameter : EntryPoint fun g => thenEnd (typeParameter g)
  | classField : EntryPoint fun g => thenEnd (classField g)
  | enumMember : EntryPoint fun g => thenEnd (enumMember g)

/-- The rules that call each other, and the readers on which they are started. -/
inductive Recursive : {α : Type} → (Grammar → Parse α) → (Reader → Prop) → Prop
  | expression {least : Nat} (h : lowest ≤ least) :
    Recursive (expressionRule · least) fun _ => True
  | operand : Recursive operand fun _ => True
  | nameOrArrow : Recursive nameOrArrow (·.token.kind = .identifier)
  | grouped : Recursive grouped (·.token.kind = .symbol .leftParen)
  | genericArrow : Recursive genericArrow (·.token.kind = .symbol .less)
  | arrowTail (site : Site) (ts : List TypeParam) (ps : List Param) (rest : Option Param) :
    Recursive (arrowTail · site ts ps rest) fun _ => True
  | arrowBody (site : Site) (ts : List TypeParam) (ps : List Param) (rest : Option Param)
      (result : Option TypeExpr) :
    Recursive (arrowBody · site ts ps rest result) (·.token.kind = .symbol .arrow)
  | expressionList (close : Symbol) :
    Recursive (expressionList · close) (·.token.kind ≠ .endOfInput)
  | objectLiteral : Recursive objectLiteral (·.token.kind = .symbol .leftBrace)
  | construction : Recursive construction (·.token.kind = .keyword .new)
  | infixStep (left : Expr) : Recursive (infixStep · left) (lowest < strength ·.token.kind)
  | genericCall (left : Expr) : Recursive (genericCall? · left) (·.token.kind = .symbol .less)
  | type : Recursive typeRule fun _ => True
  | intersectionType : Recursive intersectionType fun _ => True
  | arraySuffix : Recursive arraySuffix fun _ => True
  | primaryType : Recursive primaryType fun _ => True
  | typeArguments : Recursive typeArguments (·.token.kind = .symbol .less)
  | tupleType : Recursive tupleType (·.token.kind = .symbol .leftBracket)
  | objectType : Recursive objectType (·.token.kind = .symbol .leftBrace)
  | objectMember (members : MemberList) : Recursive (objectMember · members) fun _ => True
  | indexSignature (taken : Bool) : Recursive (indexSignature · taken) fun r =>
    r.token.kind = .symbol .leftBracket ∧ r.next.kind = .identifier ∧
      r.moved.next.kind = .symbol .colon
  | functionType : Recursive functionType fun _ => True
  | signature (separator : Symbol) : Recursive (signature · separator) fun _ => True
  | parameterList : Recursive parameterList (·.token.kind = .symbol .leftParen)
  | typeParameters : Recursive typeParameters (·.token.kind = .symbol .less)
  | typeParameter : Recursive typeParameter fun _ => True

/-- Run from the reader, the rule has an outcome whose reader is a later one, on the same tokens and
in bounds. The outcome does not depend on the number of levels of the grammar, if there are as many
as tokens left, and it is the same if every call has to be entered at a later token than the call
around it. The first rule is the second one with such a check of its own calls of itself. -/
def Descends (checked rule : Grammar → Parse α) (r : Reader) : Prop :=
  ∃ out, r.Later out.2 ∧ ∀ n, r.left ≤ n + 1 →
    (checked ((paced n).below r.left)).run r = some out ∧ (rule (grammar n)).run r = some out

/-! ## Runs that come back -/

/-- A run of the rule from the reader has an outcome, and its reader is a later one. -/
def Returns (p : Parse α) (r : Reader) : Prop := Ends p (fun _ r' => r.Later r') r.Later r

section Returning

variable {S : α → List Token → Prop} {W : α → Reader → Prop} {L : Reader → Prop}

theorem Returns.from (h : Returns p r1) (hl : r.Later r1) (hW : ∀ a r', r.Later r' → W a r')
    (hL : ∀ r', r.Later r' → L r') : Ends p W L r1 :=
  Ends.mono h (fun a r' h' => hW a r' (hl.trans h')) fun r' h' => hL r' (hl.trans h')

/-- A rule that a run from an earlier reader ends with. -/
theorem Returns.last (h : Returns p r1) (hl : r.Later r1) :
    Ends p (fun _ r' => r.Later r') r.Later r1 :=
  h.from hl (fun _ _ h' => h') fun _ h' => h'

theorem Passes.returns (h : Passes p S r) : Returns p r :=
  Ends.mono h (fun _ _ h' => h'.toLater) fun _ h' => h'.toLater

theorem Returns.run (h : Returns p r) : ∃ out, p.run r = some out ∧ r.Later out.2 := by
  rw [Returns, ends_iff_run] at h
  split at h
  · exact ⟨_, ‹_›, h⟩
  · exact ⟨_, ‹_›, h⟩
  · exact h.elim

theorem returns_expectEnd : Returns expectEnd r := by
  simp only [Returns, expectEnd, ends_bind, ends_peek, ends_ite, ends_pure, ends_complain]
  split
  · rfl
  · exact ((Later.refl r).lost _ _).toLater

theorem Returns.thenEnd (h : Returns p r) : Returns (thenEnd p) r := by
  unfold Returns Snippet.thenEnd
  simp only [ends_bind, ends_pure]
  exact h.from (.refl r) (fun _ _ hl => returns_expectEnd.last hl) fun _ hl => hl

theorem Returns.toEnd (h : Returns p r) : Returns (toEnd p) r := by
  unfold Returns Snippet.toEnd
  simp only [ends_bind, ends_attempt]
  have hend : ∀ (result : Option α) r1, r.Later r1 → Ends expectEnd
      (fun _ r' => Ends (result.elim failure pure : Parse α) (fun _ r' => r.Later r') r.Later r')
      r.Later r1 := by
    intro result r1 hl
    refine returns_expectEnd.from hl (fun _ r' hl' => ?_) fun _ hl' => hl'
    cases result with
    | none => exact ends_failure.mpr hl'
    | some a => exact (ends_pure a).mpr hl'
  exact h.from (.refl r) (fun a r1 hl => hend (some a) r1 hl) fun r1 hl => hend none r1 hl

end Returning

theorem returns_memberAccess {object : Expr} {optional : Bool} :
    Returns (memberAccess object optional) r := by
  unfold Returns memberAccess
  simp only [ends_bind, ends_advance, ends_current, ends_ite, ends_reject, ends_siteOf, ends_pure]
  have h := (Later.refl r).moved
  split
  · exact (h.lost _ _).toLater
  · exact h

theorem returns_arrowTail {site : Site} {ts : List TypeParam} {ps : List Param}
    {rest : Option Param} (hg : g.Reads n) (hr : r.Ready (n + 1)) :
    Returns (arrowTail g site ts ps rest) r := by
  have harrow : ∀ (result : Option TypeExpr) r1, r.Later r1 → Ends (do
      expectSymbol .arrow
      arrowBody g site ts ps rest result) (fun _ r' => r.Later r') r.Later r1 := by
    intro result r1 hl
    simp only [ends_bind, ends_expectSymbol]
    split
    case isFalse => exact (hl.lost _ _).toLater
    case isTrue hk =>
      have hnext := (hr.later hl).toValid.next_eq (by simp [hk])
      exact (reads_arrowBody hg (hr.later hl).moved (hnext ▸ hk)).returns.last hl.moved
  unfold Returns arrowTail
  simp only [ends_bind, ends_peekIsSymbol, ends_ite, ends_advance, ends_attempt, ends_pure,
    decide_eq_true_eq]
  split
  case isFalse => exact (ends_bind _ _).mp (harrow none r (.refl r))
  case isTrue hcolon =>
    exact (hg.type _ (hr.moves_to hcolon (by simp)).moved).returns.from (Later.refl r).moved.moved
      (fun t r1 hl => (ends_bind _ _).mp (harrow (some t) r1 hl))
      fun r1 hl => (ends_bind _ _).mp (harrow none r1 hl)

theorem returns_genericCall {left : Expr} (hg : g.Reads n) (hr : r.Ready (n + 1))
    (hk : r.token.kind = .symbol .less) : Returns (genericCall? g left) r :=
  ends_genericCall hg hr hk (.refl r) fun _ _ _ h => h.toLater

theorem returns_objectMember {members : MemberList} (hg : g.Reads n) (hr : r.Ready (n + 1)) :
    Returns (objectMember g members) r :=
  Ends.mono (ends_objectMember hg hr) (fun _ _ ⟨_, _, h⟩ => h.toLater) fun _ h => h.toLater

/-- An operator and an operand behind it. -/
theorem Grammar.Reads.returns_right {least : Nat} (hg : g.Reads n) (hr : r.Ready (n + 1))
    (hne : r.ahead ≠ []) (hl : lowest ≤ least) :
    Ends (g.expression least) (fun _ r' => r.Later r') r.Later r.moved :=
  (hg.expression hl _ (hr.moves hne)).returns.last (Later.refl r).moved

/-- Also where the reader goes back because no call follows the type arguments, the right operand is
behind the operator. -/
theorem returns_infixStep {left : Expr} (hg : g.Reads n) (hr : r.Ready (n + 1))
    (hk : lowest < strength r.token.kind) : Returns (infixStep g left) r := by
  have hend : r.token.kind ≠ .endOfInput := by
    intro h
    rw [h] at hk
    exact absurd hk (by decide)
  have hne := hr.toValid.ahead_ne hend
  have hbinary : ∀ {op}, Returns (binaryRight g left r.token op) r := by
    intro op
    simp only [Returns, binaryRight, ends_bind, ends_advance, ends_siteOf, ends_pure]
    exact hg.returns_right hr hne (one_le_strength _)
  unfold Returns infixStep
  simp only [ends_bind, ends_current]
  split
  case h_1 =>
    simp only [ends_bind, ends_advance, ends_siteOf, ends_pure]
    exact hg.returns_right hr hne (by decide)
  case h_2 =>
    simp only [ends_bind, ends_advance, ends_siteOf, ends_pure]
    exact (hg.type _ (hr.moves hne)).returns.last (Later.refl r).moved
  case h_3 =>
    simp only [ends_bind, ends_pure]
    exact (passes_expressionList hg hr hend).returns
  case h_4 => exact returns_memberAccess
  case h_5 => exact returns_memberAccess
  case h_6 =>
    simp only [ends_bind, ends_advance, ends_expectSymbol, ends_siteOf, ends_pure]
    refine Ends.mono (hg.returns_right hr hne (by decide)) (fun e r2 hl => ?_) fun _ hl => hl
    split
    · exact hl.moved
    · exact (hl.lost _ _).toLater
  case h_7 s _ _ _ _ _ hs =>
    split
    case h_1 => exact ends_failure.mpr (.refl r)
    case h_2 =>
      split
      case isTrue hless =>
        rw [ends_bind]
        exact ends_genericCall hg hr (hless ▸ hs) hbinary fun _ _ _ h => (ends_pure _).mpr h.toLater
      case isFalse => exact hbinary
  case h_8 => exact ends_failure.mpr (.refl r)

/-! ## Checked grammars -/

theorem ends_fewer {k : Nat} {W : α → Reader → Prop} {L : Reader → Prop}
    (hin : r.place < r.tokens.size) (hk : r.left < k) (h : Ends p W L r) :
    Ends (fewer k p) W L r := by
  unfold fewer
  rwa [ends_bind, ends_get, if_pos ⟨hin, hk⟩]

@[gcongr]
theorem Refines.fewer {p q : Parse α} (h : Refines p q) (k : Nat) :
    Refines (fewer k p) (fewer k q) := by
  unfold Snippet.fewer
  gcongr

theorem refines_get_bind {f : Reader → Parse α} (h : ∀ r, Refines (f r) p) :
    Refines (get >>= f) p :=
  fun r out hr => h r r out hr

theorem fewer_refines (k : Nat) (p : Parse α) : Refines (fewer k p) p := by
  refine refines_get_bind fun r => ?_
  split
  · exact .refl p
  · exact refines_outOfSteps

theorem Grammar.Refines.below (h : g.Refines g') (k : Nat) : (g.below k).Refines (g'.below k) :=
  ⟨fun least => (h.expression least).fewer k, h.type.fewer k⟩

theorem Grammar.below_refines (g : Grammar) (k : Nat) : (g.below k).Refines g :=
  ⟨fun least => fewer_refines k (g.expression least), fewer_refines k g.type⟩

theorem Reader.Valid.left_pos (hr : r.Valid) : 0 < r.left := Nat.sub_pos_of_lt hr.inside

theorem Reader.Valid.ready (hr : r.Valid) (hn : r.left ≤ n) : r.Ready n :=
  ⟨hr, by unfold left at hn; omega⟩

theorem Reader.Ready.left_le (hr : r.Ready n) : r.left ≤ n := by
  have := hr.levels
  unfold left
  omega

theorem Grammar.Reads.anti {m : Nat} (hg : g.Reads n) (hm : m ≤ n) : g.Reads m :=
  ⟨fun hl r hr => hg.expression hl r (hr.mono hm), fun r hr => hg.type r (hr.mono hm)⟩

/-- With at most `n` tokens left a check for fewer than `n + 1` does no harm. -/
theorem Grammar.Reads.below (hg : g.Reads n) : (g.below (n + 1)).Reads n :=
  ⟨fun hl r hr => ends_fewer hr.inside (Nat.lt_succ_of_le hr.left_le) (hg.expression hl r hr),
    fun r hr => ends_fewer hr.inside (Nat.lt_succ_of_le hr.left_le) (hg.type r hr)⟩

/-- A grammar that reads what is behind the current token also reads it if its calls are held to be
entered behind that token. -/
theorem Grammar.Reads.below_left (hg : g.Reads n) (hr : r.Ready (n + 1)) :
    ∃ m, r.Ready (m + 1) ∧ (g.below r.left).Reads m := by
  have hpos := hr.left_pos
  have hle := hr.left_le
  have hleft : r.left - 1 + 1 = r.left := Nat.sub_add_cancel hpos
  refine ⟨r.left - 1, hr.toValid.ready (by omega), ?_⟩
  have h := (hg.anti (m := r.left - 1) (by omega)).below
  rwa [hleft] at h

/-- Every level of the paced grammar reads as many tokens as there are levels below it. -/
theorem paced_reads : ∀ n, (paced n).Reads n := by
  intro n
  induction n with
  | zero =>
    refine ⟨fun _ r hr => ?_, fun r hr => ?_⟩ <;>
    · have := hr.left_pos
      have := hr.left_le
      omega
  | succ n ih =>
    constructor
    case expression =>
      intro least hl r hr
      obtain ⟨m, hrm, hg⟩ := ih.below_left hr
      unfold Reads Passes paced
      rw [ends_bind, ends_get]
      exact reads_expressionRule hg hrm hl
    case type =>
      intro r hr
      obtain ⟨m, hrm, hg⟩ := ih.below_left hr
      unfold Reads Passes paced
      rw [ends_bind, ends_get]
      exact reads_typeRule hg hrm

theorem paced_mono : ∀ {m n : Nat}, m ≤ n → (paced m).Refines (paced n) := by
  intro m
  induction m with
  | zero => exact fun _ => ⟨fun _ => refines_outOfSteps, refines_outOfSteps⟩
  | succ m ih =>
    intro n hn
    obtain ⟨n, rfl⟩ := Nat.exists_eq_succ_of_ne_zero (Nat.ne_zero_of_lt hn)
    have h := ih (Nat.le_of_succ_le_succ hn)
    exact ⟨fun least => (Refines.refl _).bind fun r =>
      refines_expressionRule (h.below r.left) least,
      (Refines.refl _).bind fun r => refines_typeRule (h.below r.left)⟩

/-- Without the checks the rules read what they read with them. -/
theorem paced_refines : ∀ n, (paced n).Refines (grammar n) := by
  intro n
  induction n with
  | zero => exact ⟨fun _ => .refl _, .refl _⟩
  | succ n ih =>
    have hbelow (k : Nat) : ((paced n).below k).Refines (grammar n) :=
      ((paced n).below_refines k).trans ih
    exact ⟨fun least => refines_get_bind fun r => refines_expressionRule (hbelow r.left) least,
      refines_get_bind fun r => refines_typeRule (hbelow r.left)⟩

/-! ## Rules -/

/-- What is shown of a rule: it comes back when the grammar reads what is behind the current token,
and a grammar with more steps gives it no other outcome. -/
theorem descends_of_returns {checked : Grammar → Parse α} (hr : r.Valid)
    (hreturns : ∀ g n, g.Reads n → r.Ready (n + 1) → Returns (checked g) r)
    (hchecked : ∀ g g', g.Refines g' → Refines (checked g) (checked g'))
    (hrule : ∀ g g', g.Refines g' → Refines (checked g) (rule g')) : Descends checked rule r := by
  have hpos := hr.left_pos
  obtain ⟨m, hrm, hg⟩ := (paced_reads (r.left - 1)).below_left (hr.ready (by omega))
  obtain ⟨out, hout, hlater⟩ := (hreturns _ m hg hrm).run
  refine ⟨out, hlater, fun n hn => ?_⟩
  have hpaced : ((paced (r.left - 1)).below r.left).Refines ((paced n).below r.left) :=
    (paced_mono (by omega)).below r.left
  have hgrammar : ((paced (r.left - 1)).below r.left).Refines (grammar n) :=
    (Grammar.below_refines _ _).trans ((paced_mono (by omega)).trans (paced_refines n))
  exact ⟨hchecked _ _ hpaced r out hout, hrule _ _ hgrammar r out hout⟩

theorem EntryPoint.refines (hrule : EntryPoint rule)
    (h : g.Refines g') : Refines (rule g) (rule g') := by
  cases hrule <;> beta_reduce <;> gcongr

theorem EntryPoint.returns (hrule : EntryPoint rule) (hg : g.Reads n)
    (hr : r.Ready (n + 1)) : Returns (rule g) r := by
  cases hrule with
  | type => exact (reads_typeRule hg hr).returns.toEnd
  | expression => exact (reads_expressionRule hg hr (Nat.le_refl _)).returns.toEnd
  | signature => exact (reads_signature hg hr).returns.thenEnd
  | objectMember members => exact (returns_objectMember hg hr).thenEnd
  | typeParameter => exact (reads_typeParameter hg hr).returns.thenEnd
  | classField => exact (reads_classField hg hr).returns.thenEnd
  | enumMember => exact (reads_enumMember hg hr).returns.thenEnd

theorem Recursive.refines
    (hrule : Recursive rule starts) (h : g.Refines g') : Refines (rule g) (rule g') := by
  cases hrule <;> beta_reduce <;> gcongr

theorem Recursive.returns
    (hrule : Recursive rule starts) (hstart : starts r) (hg : g.Reads n) (hr : r.Ready (n + 1)) :
    Returns (rule g) r := by
  cases hrule with
  | expression hl => exact (reads_expressionRule hg hr hl).returns
  | operand => exact (reads_operand hg hr).returns
  | nameOrArrow => exact (reads_nameOrArrow hg hr hstart).returns
  | grouped => exact (reads_grouped hg hr hstart).returns
  | genericArrow => exact (reads_genericArrow hg hr hstart).returns
  | arrowTail site ts ps rest => exact returns_arrowTail hg hr
  | arrowBody site ts ps rest result => exact (reads_arrowBody hg hr hstart).returns
  | expressionList close => exact (passes_expressionList hg hr hstart).returns
  | objectLiteral => exact (reads_objectLiteral hg hr hstart).returns
  | construction => exact (reads_construction hg hr hstart).returns
  | infixStep left => exact returns_infixStep hg hr hstart
  | genericCall left => exact returns_genericCall hg hr hstart
  | type => exact (reads_typeRule hg hr).returns
  | intersectionType => exact (reads_intersectionType hg hr).returns
  | arraySuffix => exact (reads_arraySuffix hg hr).returns
  | primaryType => exact (reads_primaryType hg hr).returns
  | typeArguments => exact (reads_typeArguments hg hr hstart).returns
  | tupleType => exact (reads_tupleType hg hr hstart).returns
  | objectType => exact (reads_objectType hg hr hstart).returns
  | objectMember members => exact returns_objectMember hg hr
  | indexSignature taken =>
    obtain ⟨hk, hname, hcolon⟩ := hstart
    exact (reads_indexSignature hg hr hk hname hcolon).returns
  | functionType => exact (reads_functionType hg hr).returns
  | signature separator => exact (reads_signature hg hr).returns
  | parameterList => exact (reads_parameterList hg hr hstart).returns
  | typeParameters => exact (reads_typeParameters hg hr hstart).returns
  | typeParameter => exact (reads_typeParameter hg hr).returns

/-! ## Readonly marks -/

@[gcongr]
theorem refines_postfixStep {p q : Parse TypeExpr} (h : g.Refines g') (hp : Refines p q) :
    Refines (postfixStep g p) (postfixStep g' q) := by
  unfold postfixStep
  gcongr

theorem postfixType_succ (g : Grammar) (m : Nat) :
    postfixType g (m + 1) = postfixStep g (postfixType g m) := rfl

theorem refines_pacedPostfix (h : g.Refines g') (m : Nat) :
    Refines (pacedPostfix g m) (pacedPostfix g' m) := by
  induction m with
  | zero => rfl
  | succ m ih =>
    unfold pacedPostfix
    gcongr

theorem pacedPostfix_refines (h : g.Refines g') (m : Nat) :
    Refines (pacedPostfix g m) (postfixType g' m) := by
  induction m with
  | zero => rfl
  | succ m ih =>
    rw [postfixType_succ]
    exact refines_get_bind fun r => refines_postfixStep h ((fewer_refines r.left _).trans ih)

theorem returns_pacedPostfix (hg : g.Reads n) :
    ∀ (m : Nat) (r : Reader), r.Ready (n + 1) → r.left ≤ m → Returns (pacedPostfix g m) r := by
  intro m
  induction m with
  | zero =>
    intro r hr hm
    have := hr.left_pos
    omega
  | succ m ih =>
    intro r hr hm
    unfold Returns pacedPostfix postfixStep
    simp only [ends_bind, ends_get, ends_current, ends_ite, ends_advance]
    split
    case isFalse => exact (reads_arraySuffix hg hr).returns
    case isTrue hk =>
      have hplace := (hr.toValid.ahead_eq (hr.toValid.ahead_ne (by simp [hk]))).2.2
      have hless : r.moved.left < r.left := by
        have := hr.inside
        simp only [Reader.left, tokens_moved]
        omega
      have hinner := ih r.moved hr.moved (by omega)
      refine ends_fewer hr.moved.inside hless
        (hinner.from (Later.refl r).moved (fun t r1 hl => ?_) fun _ hl => hl)
      split
      case h_1 => exact (ends_pure _).mpr hl
      case h_2 => exact (ends_pure _).mpr hl
      case h_3 => exact (ends_reject _ _).mpr (hl.lost _ _).toLater

/-! ## Reading ends -/

/-- **Every rule is entered at a later token.** On whatever tokens of which the last, and no other,
is the end of the input, each rule for whole snippets and each rule that calls others comes to an
outcome in bounds, however the calls inside it nest. It comes to the same outcome if every call has
to be entered at a later token than the call around it, and more levels of the grammar do not change
it. This covers the rule for infix operators, where a less-than sign is read a second time after the
reader went back to it, and the marks in front of a postfix type. -/
theorem reading_descends (hr : r.Valid) :
    (∀ {α : Type} {rule : Grammar → Parse α}, EntryPoint rule → Descends rule rule r) ∧
    (∀ {α : Type} {rule : Grammar → Parse α} {starts : Reader → Prop}, Recursive rule starts →
      starts r → Descends rule rule r) ∧
    (∀ m, r.left ≤ m → Descends (pacedPostfix · m) (postfixType · m) r) ∧
    ∀ left n r', r.left ≤ n + 1 → r.token.kind = .symbol .less →
      (genericCall? (grammar n) left).run r = some (some none, r') → r' = r := by
  refine ⟨fun hrule => ?_, fun hrule hstart => ?_, fun m hm => ?_, fun left n r' hn hk hrun => ?_⟩
  · exact descends_of_returns hr (fun _ _ hg hrn => hrule.returns hg hrn)
      (fun _ _ h => hrule.refines h) fun _ _ h => hrule.refines h
  · exact descends_of_returns hr (fun _ _ hg hrn => hrule.returns hstart hg hrn)
      (fun _ _ h => hrule.refines h) fun _ _ h => hrule.refines h
  · exact descends_of_returns hr (fun _ _ hg hrn => returns_pacedPostfix hg m r hrn hm)
      (fun _ _ h => refines_pacedPostfix h m) fun _ _ h => pacedPostfix_refines h m
  · have hends : Ends (genericCall? (grammar n) left) (fun o r' => o = none → r' = r)
        (fun _ => True) r :=
      ends_genericCall (grammar_reads n) (hr.ready hn) hk (fun _ => rfl) fun _ _ _ _ h => nomatch h
    rw [ends_iff_run, hrun] at hends
    exact hends rfl

/-- The text looks like a generic call whose parenthesis is never closed. The reader stands on the
less-than sign. -/
theorem reading_descends_rewound :
    let r : Reader := { Reader.ofText "a<b>c(d" {} with place := 1 }
    r.Valid ∧ Descends (infixStep · (.this {})) (infixStep · (.this {})) r := by
  intro r
  have hvalid : r.Valid := ⟨by decide +kernel, (Reader.ofText_valid "a<b>c(d" {}).ended⟩
  exact ⟨hvalid, (reading_descends hvalid).2.1 (.infixStep (.this {})) (by decide +kernel)⟩

end ShapeCheck.Snippet
