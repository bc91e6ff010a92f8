import ShapeCheck.Proofs.Phrases
import ShapeCheck.Proofs.Readers

/-!
# What the rules for types read

Every rule of the grammar is followed through its runs from an arbitrary reader. Either it records
an error, or the tokens that it passes spell what it gives. A rule that fails always does the
former, so an unrecorded failure is impossible.

* `Passes` and `Reads` say this of one rule, `Grammar.Reads` of the two rules that the others refer
  to, as long as the levels of the grammar suffice for the tokens that are left.
* `ends_clause`, `Reader.Reaches.mark` and `Reader.Lists` treat optional parts and lists once for
  all rules that have them.
* `reads_signature`, `ends_objectMember` and `reads_typeRule` are the results that the other files
  use.
-/

namespace ShapeCheck.Snippet

open Reader

variable {α β : Type} {k : TokenKind} {s : Symbol} {L : Reader → Prop} {taken : Bool}

/-! ## What a rule does -/

/-- The reader has at most the given number of tokens left, so that many levels of the grammar are
enough. -/
structure Reader.Ready (n : Nat) (r : Reader) : Prop extends Valid r where
  levels : r.tokens.size ≤ r.place + n

/-- A run of the rule from the reader passes tokens as described, or records an error. -/
def Passes (p : Parse α) (S : α → List Token → Prop) (r : Reader) : Prop :=
  Ends p (fun a r' => r.Reaches (S a) r') r.Lost r

/-- A run of the rule from the reader gives a tree that the tokens from the current one to the last
one passed spell, or it records an error. -/
def Reads (p : Parse α) (phrase : α → Phrase) (r : Reader) : Prop :=
  Passes p (fun a w => Spelled (phrase a) (r.token :: w)) r

/-- The rules of the grammar read trees when started with at most the given number of tokens left.
-/
structure Grammar.Reads (g : Grammar) (n : Nat) : Prop where
  expression : ∀ {least : Nat}, lowest ≤ least → ∀ r, r.Ready n →
    Snippet.Reads (g.expression least) .expression r
  type : ∀ r, r.Ready n → Snippet.Reads g.type .type r

namespace Reader

variable {r r' r1 : Reader} {n : Nat}

theorem Ready.later (h : r.Ready n) (hl : r.Later r') : r'.Ready n :=
  ⟨hl.valid h.toValid, by rw [hl.tokens]; have := h.levels; have := hl.place; omega⟩

theorem Ready.moved (h : r.Ready n) : r.moved.Ready n := h.later (Later.refl r).moved

/-- A move uses up a level. -/
theorem Ready.moves (h : r.Ready (n + 1)) (hne : r.ahead ≠ []) : r.moved.Ready n := by
  refine ⟨h.toValid.moved, ?_⟩
  have := (h.toValid.ahead_eq hne).2.2
  have := h.levels
  simp only [tokens_moved]
  omega

/-- So does a move to a token that is not the end of the input. -/
theorem Ready.moves_to (h : r.Ready (n + 1)) (hk : r.next.kind = k)
    (hend : k ≠ .endOfInput) : r.moved.Ready n :=
  h.moves (h.toValid.ahead_ne_of_next (hk ▸ hend))

theorem Ready.mono {m : Nat} (h : r.Ready n) (hm : n ≤ m) : r.Ready m :=
  ⟨h.toValid, by have := h.levels; omega⟩

end Reader

section Passing

variable {r r1 : Reader} {p : Parse α} {S : α → List Token → Prop} {W : α → Reader → Prop}
  {P : List Token → Prop} {phrase : α → Phrase}

/-- Behind a token that is not the end of the input there is another one. -/
theorem Reader.Valid.moved_ahead_ne (hr : r.Valid) (hk : r.next.kind = k)
    (hend : k ≠ .endOfInput) : r.moved.ahead ≠ [] :=
  hr.moved.ahead_ne (hr.next_eq (hk ▸ hend) ▸ hk ▸ hend)

/-- What a rule passes is passed in a run that started earlier. -/
theorem Passes.from (h : Passes p S r1) (hl : r.Later r1)
    (hW : ∀ a r', r1.Reaches (S a) r' → W a r') : Ends p W r.Lost r1 :=
  h.mono hW fun _ hlost => hlost.after hl

/-- A rule that starts after a move. -/
theorem Reads.after_advance (hr : r.Valid) (hne : r.ahead ≠ []) (h : Reads p phrase r.moved) :
    Passes (do advance; p) (fun a w => Spelled (phrase a) w) r := by
  unfold Passes
  rw [ends_bind, ends_advance]
  refine h.from (Later.refl r).moved fun a r' ha => (ha.cons hr hne).mono ?_
  rintro _ ⟨v, rfl, hv⟩
  exact hv

/-- A rule behind an optional word. -/
def clause (k : TokenKind) (p : Parse α) : Parse (Option α) := do
  if ← peekIs k then
    advance
    some <$> p
  else return none

/-- A clause adds its words, if there are any, to those passed before. -/
theorem ends_clause {W : Option α → Reader → Prop} (hk : k ≠ .endOfInput)
    (hr : r.Valid) (h : r.Reaches P r1)
    (hp : r1.next.kind = k → Passes p (fun a w => Spelled (phrase a) w) r1.moved)
    (hW : ∀ o r', (r1.next.kind = k → o ≠ none) → r.Reaches (fun w => ∃ u v, w = u ++ v ∧ P u ∧
      Spelled (.clause k (o.map phrase)) v) r' → W o r') : Ends (clause k p) W r.Lost r1 := by
  simp only [clause, ends_bind, ends_peekIs, ends_ite, ends_advance, ends_map, ends_pure,
    decide_eq_true_eq]
  split
  case isTrue hnext =>
    have hne : r1.next.kind ≠ .endOfInput := hnext ▸ hk
    have hr1 := h.toLater.valid hr
    refine (hp hnext).from h.toLater.moved fun a r' ha => hW _ _ (by simp) ((h.step hr ha).mono ?_)
    rintro _ ⟨u, v, rfl, hu, hv⟩
    exact ⟨u, _, rfl, hu, .clause_some (hr1.next_eq hne ▸ hnext) hv⟩
  case isFalse hnext =>
    exact hW _ _ (absurd · hnext) (h.mono fun w hw => ⟨w, [], by simp, hw, .clause_none⟩)

/-- An optional symbol adds itself, if it is there, to the words passed before. -/
theorem Reader.Reaches.mark (hr : r.Valid) (h : r.Reaches P r1) :
    r.Reaches (fun w => ∃ u v, w = u ++ v ∧ P u ∧ Spelled (.mark s (r1.next.kind = .symbol s)) v)
      (if r1.next.kind = .symbol s then r1.moved else r1) := by
  split
  case isTrue hnext =>
    refine (h.snoc hr (by simp [hnext])).mono ?_
    rintro _ ⟨u, rfl, hu⟩
    exact ⟨u, _, rfl, hu, by simpa [hnext] using .mark_some hnext⟩
  case isFalse hnext =>
    exact h.mono fun w hw => ⟨w, [], by simp, hw, by simpa [hnext] using .mark_none⟩

end Passing

/-! ## Lists -/

/-- The reader has passed phrases that are each followed by a symbol. If the symbol behind the last
is missing, the closing one is next. -/
structure Reader.Lists (r : Reader) (ss : List Symbol) (close : Symbol) (ps : List Phrase)
    (r' : Reader) : Prop where
  reaches : r.Reaches (fun w => ∃ more, Spelled (.ended ss more ps) w ∧
    (more = false → r'.next.kind = .symbol close)) r'
  ahead : r'.ahead ≠ []

namespace Reader.Lists

variable {r r' r1 r2 : Reader} {ss : List Symbol} {close : Symbol} {ps : List Phrase} {p : Phrase}

theorem start (hr : r.Valid) (hk : r.token.kind ≠ .endOfInput) : r.Lists ss close [] r :=
  ⟨(Reaches.refl hr hk).mono fun _ hw => ⟨true, hw ▸ .ended_nil, nofun⟩, hr.ahead_ne hk⟩

/-- One more phrase, read after a move. -/
theorem item (hr : r.Valid) (h : r.Lists ss close ps r1) (hnext : r1.next.kind ≠ .symbol close)
    (hp : r1.moved.Reaches (fun w => Spelled p (r1.moved.token :: w)) r2) :
    r.Reaches (Spelled (.ended ss false (ps ++ [p]))) r2 := by
  refine (h.reaches.step hr hp).mono ?_
  rintro _ ⟨u, v, rfl, ⟨more, hu, hmore⟩, hv⟩
  cases more with
  | true => exact hu.ended_more hv
  | false => exact absurd (hmore rfl) hnext

/-- The closing symbol is next. -/
theorem stay (hr : r.Valid) (h : r.Reaches (Spelled (.ended ss false ps)) r1)
    (hnext : r1.next.kind = .symbol close) : r.Lists ss close ps r1 :=
  ⟨h.mono fun _ hw => ⟨false, hw, fun _ => hnext⟩,
    (h.toLater.valid hr).ahead_ne_of_next (by simp [hnext])⟩

/-- A symbol behind the last phrase. -/
theorem symbol (hr : r.Valid) (h : r.Reaches (Spelled (.ended ss false ps)) r1) (hs : s ∈ ss)
    (hnext : r1.next.kind = .symbol s) : r.Lists ss close ps r1.moved := by
  have hk : r1.next.kind ≠ .endOfInput := by simp [hnext]
  have hr1 := h.toLater.valid hr
  refine ⟨(h.snoc hr hk).mono ?_, hr1.moved.ahead_ne (hr1.next_eq hk ▸ hk)⟩
  rintro _ ⟨u, rfl, hu⟩
  exact ⟨true, hu.ended_symbol hs hnext, nofun⟩

/-- Behind a phrase either the closing symbol is next or a comma follows. -/
theorem comma (hr : r.Valid) (h : r.Reaches (Spelled (.ended [.comma] false ps)) r1)
    (hpast : r'.Past r1) :
    if r1.next.kind = .symbol close then r.Lists [.comma] close ps r1 ∧ r'.Past r1
    else if r1.next.kind = .symbol .comma then
      r.Lists [.comma] close ps r1.moved ∧ r'.Past r1.moved
    else r.Lost (r1.complaining r1.next (.expected (.symbol .comma) r1.next)) := by
  split
  · exact ⟨stay hr h ‹_›, hpast⟩
  split
  · exact ⟨symbol hr h List.mem_cons_self ‹_›, hpast.moved⟩
  · exact h.toLater.lost _ _

/-- The end of the list. -/
theorem closing (hr : r.Valid) (h : r.Lists ss close ps r1) (hnext : r1.next.kind = .symbol close) :
    r.Reaches (fun w => ∃ u more, w = u ++ [r1.next] ∧ Spelled (.ended ss more ps) u) r1.moved := by
  refine (h.reaches.snoc hr (by simp [hnext])).mono ?_
  rintro _ ⟨u, rfl, more, hu, -⟩
  exact ⟨u, more, rfl, hu⟩

end Reader.Lists

/-! ## Rules for types -/

section Rules

variable {g : Grammar} {n : Nat} {r : Reader}

theorem reads_separated {member : Parse TypeExpr} (hr : r.Valid)
    (hmember : ∀ r1, r.Later r1 → Reads member .type r1) :
    Reads (separated s member) (fun ts => .separated s (ts.map .type)) r := by
  unfold Reads Passes separated
  rw [ends_bind]
  refine (hmember r (.refl r)).from (.refl r) fun first r1 h1 => ?_
  have hr1 := h1.toLater.valid hr
  refine ends_loop (fun done r' => r.Reaches (fun w =>
    Spelled (.separated s (done.reverse.map .type)) (r.token :: w)) r') hr1
    (h1.mono fun _ hw => .separated_one hw) fun done r2 hl h2 => ?_
  have hr2 := hl.valid hr1
  simp only [ends_bind, ends_peekIsSymbol, ends_ite, ends_advance, ends_pure, decide_eq_true_eq]
  split
  case isFalse => exact h2
  case isTrue hnext =>
    have hk : r2.next.kind ≠ .endOfInput := by simp [hnext]
    have hl2 := h2.toLater.moved.moved
    refine (hmember _ hl2).from hl2 fun t r3 h3 => ⟨?_, ?_⟩
    · refine (h2.behind hr hk h3).mono ?_
      rintro _ ⟨u, v, rfl, hu, hv⟩
      simpa using hu.separated_more hnext hv
    · exact ((Later.refl _).moved.trans h3.toLater).past hr2 (hr2.ahead_ne_of_next hk)

/-- A list in angle brackets whose items are read by the given rule. The first step of a round
moves to the item or fails with an error. -/
theorem reads_angled {move : Parse Unit} {item : Parse β} {phrase : β → Phrase}
    (hr : r.Ready (n + 1)) (hk : r.token.kind = .symbol .less)
    (hmove : ∀ r1 (W : Unit → Reader → Prop), r.Later r1 → W () r1.moved → Ends move W r.Lost r1)
    (hitem : ∀ r1, r1.Ready n → Reads item phrase r1) :
    Reads (do
      let items ← loop ([] : List β) fun done => do
        move
        let i ← item
        let done := i :: done
        if ← peekIsSymbol .comma then
          advance
          return .inl done
        else return .inr done.reverse
      expectSymbol .greater
      return items) (fun is => .angled (is.map phrase)) r := by
  unfold Reads Passes
  rw [ends_bind]
  have hstart : r.token.kind ≠ .endOfInput := by simp [hk]
  refine ends_loop (fun done r' => r.Reaches (fun w => done = [] ∧ w = [] ∨
      ∃ u c, w = u ++ [c] ∧ Spelled (.separated .comma (done.reverse.map phrase)) u ∧
        c.kind = .symbol .comma) r' ∧ r'.ahead ≠ []) hr.toValid
    ⟨(Reaches.refl hr.toValid hstart).mono fun _ hw => .inl ⟨rfl, hw⟩, hr.toValid.ahead_ne hstart⟩
    fun done r1 hl ⟨h1, hne⟩ => ?_
  have hr1 := hr.later hl
  simp only [ends_bind, ends_peekIsSymbol, ends_ite, ends_advance, ends_pure, decide_eq_true_eq,
    ends_expectSymbol]
  refine hmove r1 _ hl ((hitem _ (hr1.moves hne)).from hl.moved fun i r2 h2 => ?_)
  have h : r.Reaches (Spelled (.separated .comma ((i :: done).reverse.map phrase))) r2 := by
    refine (h1.step hr.toValid h2).mono ?_
    rintro _ ⟨_, v, rfl, ⟨rfl, rfl⟩ | ⟨u, c, rfl, hu, hc⟩, hv⟩
    · exact .separated_one hv
    · simpa using hu.separated_more hc hv
  have hr2 := hr1.moved.later h2.toLater
  split
  case isTrue hcomma =>
    have hk : r2.next.kind ≠ .endOfInput := by simp [hcomma]
    refine ⟨⟨(h.snoc hr.toValid hk).mono ?_, ?_⟩, h2.toLater.moved.past hr1.toValid hne⟩
    · rintro _ ⟨u, rfl, hu⟩
      exact .inr ⟨u, _, rfl, hu, hcomma⟩
    · exact hr2.toValid.moved.ahead_ne (hr2.toValid.next_eq hk ▸ hk)
  case isFalse =>
    split
    case isTrue hclose =>
      refine (h.snoc hr.toValid (by simp [hclose])).mono ?_
      rintro _ ⟨u, rfl, hu⟩
      simpa using hu.angled_some hk hclose
    case isFalse => exact h.toLater.lost _ _

theorem reads_typeArguments (hg : g.Reads n) (hr : r.Ready (n + 1))
    (hk : r.token.kind = .symbol .less) :
    Reads (typeArguments g) (fun ts => .angled (ts.map .type)) r :=
  reads_angled hr hk (fun _ _ _ h => (ends_advance _).mpr h) fun _ h => hg.type _ h

theorem reads_dottedName (hr : r.Valid) (hk : r.token.kind = .identifier) :
    Reads (dottedName r.token.text) .name r := by
  unfold Reads Passes dottedName
  refine ends_loop (fun name r' => r.Reaches (fun w => Spelled (.name name) (r.token :: w)) r') hr
    ((Reaches.refl hr (by simp [hk])).mono fun _ hw => hw ▸ .name_one hk) fun name r1 hl h1 => ?_
  have hr1 := hl.valid hr
  simp only [ends_bind, ends_peekIsSymbol, ends_peekAt, ends_ite, ends_advance, ends_pure,
    ends_current, Bool.and_eq_true, decide_eq_true_eq]
  split
  case isFalse => exact h1
  case isTrue hnext =>
    obtain ⟨hdot, hname⟩ := hnext
    have hk1 : r1.next.kind ≠ .endOfInput := by simp [hdot]
    rw [hr1.tokenAt_two hk1] at hname
    have hk2 : r1.moved.next.kind ≠ .endOfInput := by simp [hname]
    have hnext := hr1.moved.next_eq hk2
    refine ⟨((h1.snoc hr hk1).snoc hr hk2).mono ?_,
      (Later.refl _).moved.past hr1 (hr1.ahead_ne_of_next hk1)⟩
    rintro _ ⟨_, rfl, u, rfl, hu⟩
    rw [← hnext]
    simpa using hu.name_more hdot hname

theorem passes_numberValue (hr : r.Valid) (hk : r.token.kind = .number) :
    Passes numberValue (fun v w => w = [] ∧ Decimal.read? r.token.text = .ok v) r := by
  unfold Passes numberValue
  simp only [ends_bind, ends_current]
  split
  case h_1 v hv =>
    rw [ends_pure]
    exact (Reaches.refl hr (by simp [hk])).mono fun _ hw => ⟨hw, hv⟩
  case h_2 =>
    rw [ends_reject]
    exact (Later.refl r).lost _ _

theorem reads_restElement (hg : g.Reads n) (hr : r.Ready n) (hk : r.token.kind = .symbol .spread) :
    Reads (restElement g) .restSlot r := by
  have hne := hr.toValid.ahead_ne (by simp [hk])
  unfold Reads Passes restElement
  simp only [ends_bind, ends_advance, ends_current]
  refine (hg.type _ hr.moved).from (Later.refl r).moved fun t r1 h1 => ?_
  split
  case h_1 =>
    refine (ends_pure _).mpr ((h1.cons hr.toValid hne).mono ?_)
    rintro _ ⟨v, rfl, hv⟩
    exact .restSlot hk hv
  case h_2 =>
    rw [ends_reject]
    exact ((Later.refl r).moved.trans h1.toLater).lost _ _

theorem reads_tupleSlot (hg : g.Reads n) (hr : r.Ready n) : Reads (tupleSlot g) .slot r := by
  unfold Reads Passes tupleSlot
  simp only [ends_bind, ends_peekIsSymbol, ends_ite, ends_advance, ends_pure, decide_eq_true_eq]
  refine (hg.type _ hr).from (Later.refl r) fun t r1 h1 => ?_
  have h := h1.mark (s := .question) hr.toValid
  split
  case isTrue hnext =>
    rw [if_pos hnext] at h
    refine h.mono ?_
    rintro _ ⟨u, v, rfl, hu, hv⟩
    simpa [hnext] using hu.slot hv
  case isFalse hnext =>
    rw [if_neg hnext] at h
    refine h.mono ?_
    rintro _ ⟨u, v, rfl, hu, hv⟩
    simpa [hnext] using hu.slot hv

theorem reads_tupleType (hg : g.Reads n) (hr : r.Ready (n + 1))
    (hk : r.token.kind = .symbol .leftBracket) : Reads (tupleType g) .type r := by
  unfold Reads Passes tupleType
  simp only [ends_bind, ends_current, ends_positionOf]
  refine ends_loop (fun done r' => r.Lists [.comma] .rightBracket
    (done.1.reverse.map .slot ++ done.2.toList.map .restSlot) r') hr.toValid
    (Lists.start hr.toValid (by simp [hk])) ?_
  rintro ⟨slots, rest⟩ r1 hl h1
  have hr1 := hr.later hl
  simp only [ends_bind, ends_peekIsSymbol, ends_ite, ends_advance, ends_pure, ends_reject,
    ends_current, ends_currentIsSymbol, ends_expectSymbol, decide_eq_true_eq, Bool.not_eq_true',
    decide_eq_false_iff_not, ite_not]
  split
  case isTrue hclose =>
    refine (h1.closing hr.toValid hclose).mono ?_
    rintro _ ⟨u, more, rfl, hu⟩
    exact .tuple hk hu hclose
  case isFalse hopen =>
    have hready := hr1.moves h1.ahead
    split
    case isTrue => exact hl.moved.lost _ _
    case isFalse hrest =>
    obtain rfl : rest = none := by simpa using hrest
    split
    case isTrue hspread =>
      refine (reads_restElement hg hready hspread).from hl.moved fun t r2 h2 => ?_
      exact Lists.comma hr.toValid (by simpa using h1.item hr.toValid hopen h2)
        (h2.toLater.past hr1.toValid h1.ahead)
    case isFalse =>
      refine (reads_tupleSlot hg hready).from hl.moved fun t r2 h2 => ?_
      exact Lists.comma hr.toValid (by simpa using h1.item hr.toValid hopen h2)
        (h2.toLater.past hr1.toValid h1.ahead)

theorem ends_typeParameter {W : TypeParam → Reader → Prop} :
    Ends (typeParameter g) W L r ↔ Ends (do
      let t ← current
      if t.kind ≠ .identifier then reject t (.noTypeParameterName t)
      let position ← positionOf t
      let bound ← clause (.keyword .extends) (do advance; g.type)
      let default ← clause (.symbol .assign) (do advance; g.type)
      return .mk position t.text bound default) W L r := by
  simp [typeParameter, clause]

/-- An annotation, a bound, a default: a type behind the word that introduces it. -/
theorem Grammar.Reads.type_after (hg : g.Reads n) (hr : r.Ready n) (hne : r.ahead ≠ []) :
    Passes (do advance; g.type) (fun t w => Spelled (.type t) w) r :=
  (hg.type _ hr.moved).after_advance hr.toValid hne

theorem Grammar.Reads.expression_after (hg : g.Reads n) (hr : r.Ready n) (hne : r.ahead ≠ []) :
    Passes (do advance; g.expression lowest) (fun e w => Spelled (.expression e) w) r :=
  (hg.expression (Nat.le_refl _) _ hr.moved).after_advance hr.toValid hne

theorem reads_typeParameter (hg : g.Reads n) (hr : r.Ready (n + 1)) :
    Reads (typeParameter g) .typeParameter r := by
  unfold Reads Passes
  simp only [ends_typeParameter, ends_bind, ends_current, ends_ite, ends_reject, ends_positionOf,
    ends_pure]
  split
  case isTrue => exact (Later.refl r).lost _ _
  case isFalse hname =>
  have hname : r.token.kind = .identifier := by simpa using hname
  refine ends_clause (by simp) hr.toValid (Reaches.refl hr.toValid (by simp [hname]))
    (fun hk => hg.type_after (hr.moves_to hk (by simp)) (hr.toValid.moved_ahead_ne hk (by simp)))
    fun bound r1 _ h1 => ?_
  have hr1 := hr.later h1.toLater
  refine ends_clause (by simp) hr.toValid h1
    (fun hk => hg.type_after (hr1.moves_to hk (by simp)) (hr1.toValid.moved_ahead_ne hk (by simp)))
    fun default r2 _ h2 => h2.mono ?_
  rintro _ ⟨_, v, rfl, ⟨_, u, rfl, rfl, hu⟩, hv⟩
  exact .typeParameter hname hu hv

theorem reads_typeParameters (hg : g.Reads n) (hr : r.Ready (n + 1))
    (hk : r.token.kind = .symbol .less) :
    Reads (typeParameters g) (fun ps => .angled (ps.map .typeParameter)) r := by
  refine reads_angled hr hk (fun r1 W hl h => ?_) fun _ h =>
    reads_typeParameter hg (h.mono n.le_succ)
  rw [ends_expect]
  split
  · exact h
  · exact hl.lost _ _

/-- A symbol that may be missing. -/
def mark (s : Symbol) : Parse Bool := do
  if ← peekIsSymbol s then
    advance
    return true
  else return false

theorem ends_mark {W : Bool → Reader → Prop} :
    Ends (mark s) W L r ↔ W (r.next.kind = .symbol s)
      (if r.next.kind = .symbol s then r.moved else r) := by
  simp only [mark, ends_bind, ends_peekIsSymbol, ends_ite, ends_advance, ends_pure,
    decide_eq_true_eq]
  split <;> simp [*]

/-- What follows the equals sign of a parameter that has an initializer. -/
def initializer (g : Grammar) (clash : Bool) (name : String) : Parse Expr := do
  if clash then reject (← current) (.initializerClash name)
  advance
  g.expression lowest

theorem passes_initializer {clash : Bool} {name : String} (hg : g.Reads n) (hr : r.Ready n)
    (hne : r.ahead ≠ []) :
    Passes (initializer g clash name) (fun e w => Spelled (.expression e) w) r := by
  unfold Passes initializer
  simp only [ends_bind, ends_ite, ends_current, ends_reject]
  split
  · exact (Later.refl r).lost _ _
  · have h := hg.expression_after hr hne
    simpa only [Passes, ends_bind] using h

theorem ends_parameter {W : Param → Reader → Prop} (spread : Bool) :
    Ends (parameter g spread) W L r ↔ Ends (do
      let t ← current
      if t.kind ≠ .identifier && t.kind ≠ .keyword .this then reject t (.noParameterName t)
      let position ← positionOf t
      let optional ← mark .question
      let type ← clause (.symbol .colon) (do advance; g.type)
      let initial ← clause (.symbol .assign) (initializer g (optional || spread) t.text)
      return .mk position t.text type optional initial) W L r := by
  by_cases h : r.next.kind = .symbol .question <;>
    simp [parameter, clause, initializer, ends_mark, h]

theorem reads_parameter (hg : g.Reads n) (hr : r.Ready n) (spread : Bool) :
    Reads (parameter g spread) .parameter r := by
  unfold Reads Passes
  simp only [ends_parameter, ends_bind, ends_current, ends_ite, ends_reject, ends_positionOf,
    ends_mark, ends_pure]
  split
  case isTrue => exact (Later.refl r).lost _ _
  case isFalse hname =>
  have hname : r.token.kind = .identifier ∨ r.token.kind = .keyword .this := by
    simpa [or_iff_not_imp_left] using hname
  have hstart : r.token.kind ≠ .endOfInput := by rcases hname with h | h <;> simp [h]
  have h0 := (Reaches.refl hr.toValid hstart).mark (s := .question) hr.toValid
  have hr0 := hr.later h0.toLater
  refine ends_clause (by simp) hr.toValid h0
    (fun hk => hg.type_after hr0.moved (hr0.toValid.moved_ahead_ne hk (by simp)))
    fun type r1 _ h1 => ?_
  have hr1 := hr.later h1.toLater
  refine ends_clause (by simp) hr.toValid h1
    (fun hk => passes_initializer hg hr1.moved (hr1.toValid.moved_ahead_ne hk (by simp)))
    fun initial r2 _ h2 => h2.mono ?_
  rintro _ ⟨_, w, rfl, ⟨_, v, rfl, ⟨_, u, rfl, rfl, hu⟩, hv⟩, hw⟩
  exact .parameter hname hu hv hw

theorem reads_parameterList (hg : g.Reads n) (hr : r.Ready (n + 1))
    (hk : r.token.kind = .symbol .leftParen) :
    Passes (parameterList g) (fun result w => ∃ u c more, w = u ++ [c] ∧
      Spelled (.ended [.comma] more
        (result.1.map .parameter ++ result.2.toList.map .restParameter)) u ∧
      c.kind = .symbol .rightParen) r := by
  unfold Passes parameterList
  rw [ends_bind]
  refine ends_loop (fun done r' => r.Lists [.comma] .rightParen
    (done.1.reverse.map .parameter ++ done.2.toList.map .restParameter) r') hr.toValid
    (Lists.start hr.toValid (by simp [hk])) ?_
  rintro ⟨params, rest⟩ r1 hl h1
  have hr1 := hr.later hl
  simp only [ends_bind, ends_peekIsSymbol, ends_ite, ends_advance, ends_pure, ends_reject,
    ends_current, ends_currentIsSymbol, ends_expectSymbol, decide_eq_true_eq, Bool.not_eq_true',
    decide_eq_false_iff_not, ite_not]
  split
  case isTrue hclose =>
    refine (h1.closing hr.toValid hclose).mono ?_
    rintro _ ⟨u, more, rfl, hu⟩
    exact ⟨u, _, more, rfl, hu, hclose⟩
  case isFalse hopen =>
    have hready := hr1.moves h1.ahead
    split
    case isTrue => exact hl.moved.lost _ _
    case isFalse hrest =>
    obtain rfl : rest = none := by simpa using hrest
    split
    case isTrue hspread =>
      have hne := hready.toValid.ahead_ne (by simp [hspread])
      refine (reads_parameter hg hready.moved _).from hl.moved.moved fun p r2 h2 => ?_
      have hp : r1.moved.Reaches (fun w => Spelled (.restParameter p) (r1.moved.token :: w)) r2 :=
        by
        refine (h2.cons hready.toValid hne).mono ?_
        rintro _ ⟨v, rfl, hv⟩
        exact .restParameter hspread hv
      exact Lists.comma hr.toValid (by simpa using h1.item hr.toValid hopen hp)
        (hp.toLater.past hr1.toValid h1.ahead)
    case isFalse =>
      refine (reads_parameter hg hready _).from hl.moved fun p r2 h2 => ?_
      exact Lists.comma hr.toValid (by simpa using h1.item hr.toValid hopen h2)
        (h2.toLater.past hr1.toValid h1.ahead)

/-- Type parameters and the opening parenthesis behind them, or nothing. -/
def leadingTypeParameters (g : Grammar) : Parse (List TypeParam) := do
  if ← currentIsSymbol .less then
    let ps ← typeParameters g
    expectSymbol .leftParen
    return ps
  else return []

theorem ends_signature {W : Signature → Reader → Prop} (s : Symbol) :
    Ends (signature g s) W L r ↔ Ends (do
      let position ← positionOf (← current)
      let typeParams ← leadingTypeParameters g
      let t ← current
      if t.kind ≠ .symbol .leftParen then reject t (.noParameterList t)
      let (params, rest) ← parameterList g
      if s = .arrow && !(← peekIsSymbol .arrow) then rejectNext (.symbol .arrow)
      let result ← clause (.symbol s) (do advance; g.type)
      return .mk position typeParams (splitReceiver params).2 rest (splitReceiver params).1 result)
      W L r := by
  simp only [signature, leadingTypeParameters, clause, ends_bind, ends_current, ends_positionOf,
    ends_currentIsSymbol, ends_expectSymbol, ends_ite, ends_reject, ends_rejectNext, ends_peekIs,
    ends_peekIsSymbol, ends_advance, ends_map, ends_pure]
  exact Iff.rfl

/-- Type parameters lead to the opening parenthesis; without them the reader is to stand on it. -/
theorem ends_leadingTypeParameters {W : List TypeParam → Reader → Prop} (hg : g.Reads n)
    (hr : r.Ready (n + 1)) (hW : ∀ ps r1, r.Later r1 → (r1.token.kind = .symbol .leftParen →
      r.Reaches (fun w => ∃ t, r.token :: w = t ++ [r1.token] ∧
        Spelled (.angled (ps.map .typeParameter)) t) r1) → W ps r1) :
    Ends (leadingTypeParameters g) W r.Lost r := by
  simp only [leadingTypeParameters, ends_bind, ends_currentIsSymbol, ends_ite, ends_expectSymbol,
    ends_pure, decide_eq_true_eq]
  split
  case isTrue hless =>
    refine (reads_typeParameters hg hr hless).from (.refl r) fun ps r1 h1 => ?_
    split
    case isFalse => exact h1.toLater.lost _ _
    case isTrue hparen =>
      have hk : r1.next.kind ≠ .endOfInput := by simp [hparen]
      refine hW ps _ h1.toLater.moved fun _ => (h1.snoc hr.toValid hk).mono ?_
      rintro _ ⟨u, rfl, hu⟩
      exact ⟨_, by rw [← (h1.toLater.valid hr.toValid).next_eq hk, List.cons_append], hu⟩
  case isFalse =>
    refine hW [] r (.refl r) fun hk => (Reaches.refl hr.toValid (by simp [hk])).mono ?_
    rintro _ rfl
    exact ⟨[], rfl, .angled_none⟩

theorem reads_signature (hg : g.Reads n) (hr : r.Ready (n + 1)) :
    Reads (signature g s) (.signature s) r := by
  unfold Reads Passes
  simp only [ends_signature, ends_bind, ends_current, ends_positionOf]
  refine ends_leadingTypeParameters hg hr fun ts r1 hl1 h1 => ?_
  simp only [ends_ite, ends_reject, ends_bind, ends_rejectNext, ends_peekIsSymbol, ends_pure]
  split
  case isTrue => exact hl1.lost _ _
  case isFalse hparen =>
  have hparen : r1.token.kind = .symbol .leftParen := by simpa using hparen
  refine (reads_parameterList hg (hr.later hl1) hparen).from hl1 fun ps r2 h2 => ?_
  have hl2 := hl1.trans h2.toLater
  have hr2 := (hr.later hl1).later h2.toLater
  split
  case isTrue => exact hl2.lost _ _
  case isFalse harrow =>
  have harrow : s = .arrow → r2.next.kind = .symbol .arrow := by simpa using harrow
  refine ends_clause (by simp) hr.toValid ((h1 hparen).trans h2)
    (fun hk => hg.type_after (hr2.moves (hr2.toValid.ahead_ne_of_next (by simp [hk])))
      (hr2.toValid.moved_ahead_ne hk (by simp))) fun result r3 hsome h3 => h3.mono ?_
  rintro _ ⟨_, v, rfl, ⟨w, _, rfl, ⟨t, ht, hts⟩, u, c, more, rfl, hps, hc⟩, hv⟩
  have hwords : r.token :: (w ++ (u ++ [c]) ++ v) = t ++ r1.token :: u ++ c :: v := by
    rw [← List.cons_append, ← List.cons_append, ht]
    simp
  rw [hwords]
  exact .signature hts hparen hps hc hv fun hs => hsome (hs ▸ harrow hs)

theorem kind_ne_of_isPropertyName {t : Token} (h : isPropertyName t = true) :
    t.kind ≠ .endOfInput := by
  intro hk
  simp [isPropertyName, hk] at h

theorem ends_propertyHead {W : PropertyHead → Reader → Prop} :
    Ends propertyHead W L r ↔ Ends (do
      let position ← positionOf (← current)
      let readonly := (← currentIs (.keyword .readonly)) && isPropertyName (← peek)
      if readonly then advance
      let t ← current
      if !isPropertyName t then reject t (.noPropertyName t)
      let optional ← mark .question
      return { position, name := t.text, optional, readonly }) W L r := by
  by_cases h : r.next.kind = .symbol .question <;>
    by_cases h' : r.moved.next.kind = .symbol .question <;>
    simp [propertyHead, ends_mark, h, h']

theorem reads_propertyHead (hr : r.Valid) : Reads propertyHead .head r := by
  unfold Reads Passes
  simp only [ends_propertyHead, ends_bind, ends_current, ends_positionOf, ends_currentIs, ends_peek,
    ends_ite, ends_advance, ends_reject, ends_mark, ends_pure]
  split
  case isTrue hreadonly =>
    have hkeyword : r.token.kind = .keyword .readonly ∧ isPropertyName r.next = true := by
      simpa using hreadonly
    have hnext := kind_ne_of_isPropertyName hkeyword.2
    have htoken := hr.next_eq hnext
    split
    case isTrue => exact (Later.refl r).moved.lost _ _
    case isFalse hname =>
    have h := ((Reaches.refl hr (by simp [hkeyword.1])).snoc hr hnext).mark (s := .question) hr
    refine h.mono ?_
    rintro _ ⟨_, v, rfl, ⟨_, rfl, rfl⟩, hv⟩
    rw [hreadonly]
    simpa [htoken] using Spelled.head_readonly hkeyword.1 (htoken ▸ hkeyword.2) hv
  case isFalse hplain =>
    split
    case isTrue => exact (Later.refl r).lost _ _
    case isFalse hname =>
    have hname : isPropertyName r.token = true := by simpa using hname
    refine ((Reaches.refl hr (kind_ne_of_isPropertyName hname)).mark (s := .question) hr).mono ?_
    rintro _ ⟨_, v, rfl, rfl, hv⟩
    simpa [hplain] using Spelled.head hname hv

/-- What follows the key type of an index signature. -/
def indexValue (g : Grammar) (position : Position) (taken : Bool) (key : IndexKey) :
    Parse IndexSpec := do
  expectSymbol .rightBracket
  expectSymbol .colon
  advance
  let value ← g.type
  if taken then reject (← current) .duplicateIndex
  return .mk position key value

theorem passes_indexValue {position : Position} {key : IndexKey} (hg : g.Reads n)
    (hr : r.Ready (n + 1)) (hk : r.token.kind ≠ .endOfInput) :
    Passes (indexValue g position taken key) (fun i w => ∃ t c d u, i = .mk position key t ∧
      w = c :: d :: u ∧ c.kind = .symbol .rightBracket ∧ d.kind = .symbol .colon ∧
      Spelled (.type t) u) r := by
  unfold Passes indexValue
  simp only [ends_bind, ends_expectSymbol, ends_advance]
  have h := Reaches.refl hr.toValid hk
  split
  case isFalse => exact h.toLater.lost _ _
  case isTrue hclose =>
  have h1 := h.snoc hr.toValid (by simp [hclose])
  have hr1 := hr.moves_to hclose (by simp)
  split
  case isFalse => exact h1.toLater.lost _ _
  case isTrue hcolon =>
  refine (hg.type _ hr1.moved.moved).from h1.toLater.moved.moved fun t r2 h2 => ?_
  simp only [ends_ite, ends_bind, ends_current, ends_reject, ends_pure]
  have h3 := h1.behind hr.toValid (by simp [hcolon]) h2
  split
  case isTrue => exact h3.toLater.lost _ _
  case isFalse =>
    refine h3.mono ?_
    rintro _ ⟨_, v, rfl, ⟨_, rfl, rfl⟩, hv⟩
    exact ⟨t, r.next, r.moved.next, _, rfl, by simp, hclose, hcolon, hv⟩

theorem reads_indexSignature (hg : g.Reads n) (hr : r.Ready (n + 1))
    (hk : r.token.kind = .symbol .leftBracket) (hname : r.next.kind = .identifier)
    (hcolon : r.moved.next.kind = .symbol .colon) :
    Reads (indexSignature g taken) (fun i => .member (.index i)) r := by
  unfold Reads Passes indexSignature
  simp only [ends_bind, ends_current, ends_positionOf, ends_advance, ends_expect]
  have h2 := ((Reaches.refl hr.toValid (by simp [hk])).snoc hr.toValid (by simp [hname])).snoc
    hr.toValid (by simp [hcolon])
  split
  case isFalse => exact h2.toLater.lost _ _
  case isTrue hkey =>
  have hend : r.moved.moved.next.kind ≠ .endOfInput := by simp [hkey]
  have h3 := h2.snoc hr.toValid hend
  have hnext := hr.moved.moved.toValid.next_eq hend
  have hvalue : ∀ key, (r.moved.moved.next.text = "string" ∧ key = .string ∨
      r.moved.moved.next.text = "number" ∧ key = .number) →
      Ends (indexValue g (r.positionOf r.token) taken key)
        (fun i r' => r.Reaches (fun w => Spelled (.member (.index i)) (r.token :: w)) r') r.Lost
        r.moved.moved.moved := by
    intro key htext
    refine (passes_indexValue hg hr.moved.moved.moved (hnext ▸ hend)).from h3.toLater
      fun i r4 h4 => (h3.trans h4).mono ?_
    rintro _ ⟨_, _, rfl, ⟨_, rfl, _, rfl, _, rfl, rfl⟩, t, c, d, u, rfl, rfl, hc, hd, ht⟩
    simpa using .member_index hk hname hcolon hkey htext hc hd ht
  rw [← hnext]
  split
  case h_1 htext => simpa [indexValue] using hvalue .string (.inl ⟨htext, rfl⟩)
  case h_2 htext => simpa [indexValue] using hvalue .number (.inr ⟨htext, rfl⟩)
  case h_3 =>
    rw [ends_bind, ends_reject]
    exact h3.toLater.lost _ _

theorem ends_objectMember {members : MemberList} (hg : g.Reads n) (hr : r.Ready (n + 1)) :
    Ends (objectMember g members) (fun after r' => ∃ m, after = members.add m ∧
      r.Reaches (fun w => Spelled (.member m) (r.token :: w)) r') r.Lost r := by
  obtain ⟨properties, index, calls⟩ := members
  unfold objectMember
  simp only [ends_bind, ends_current, ends_peek, ends_peekAt, ends_ite, ends_pure,
    ends_peekIsSymbol, ends_advance, ends_rejectNext, Bool.or_eq_true, Bool.and_eq_true,
    decide_eq_true_eq]
  split
  case isTrue =>
    exact (reads_signature hg hr).from (.refl r) fun s r1 h1 =>
      ⟨.call s, rfl, h1.mono fun _ hw => .member_call hw⟩
  case isFalse =>
  split
  case isTrue hindex =>
    obtain ⟨⟨hk, hname⟩, hcolon⟩ := hindex
    rw [hr.toValid.tokenAt_two (by simp [hname])] at hcolon
    exact (reads_indexSignature hg hr hk hname hcolon).from (.refl r) fun i r1 h1 =>
      ⟨.index i, rfl, h1⟩
  case isFalse =>
  refine (reads_propertyHead hr.toValid).from (.refl r) fun head r1 h1 => ?_
  have hr1 := hr.later h1.toLater
  split
  case isTrue hcolon =>
    refine (hg.type _ (hr1.moves_to hcolon (by simp)).moved).from h1.toLater.moved.moved
      fun t r2 h2 =>
      ⟨.property _, rfl, (h1.behind hr.toValid (by simp [hcolon]) h2).mono ?_⟩
    rintro _ ⟨u, v, rfl, hu, hv⟩
    exact .member_property hu hcolon hv
  case isFalse =>
  split
  case isTrue =>
    refine (reads_signature hg hr1.moved).from h1.toLater.moved fun s r2 h2 =>
      ⟨.property _, rfl, (h1.step hr.toValid h2).mono ?_⟩
    rintro _ ⟨u, v, rfl, hu, hv⟩
    exact .member_method hu hv
  case isFalse => exact h1.toLater.lost _ _

theorem reads_objectType (hg : g.Reads n) (hr : r.Ready (n + 1))
    (hk : r.token.kind = .symbol .leftBrace) : Reads (objectType g) .type r := by
  unfold Reads Passes objectType
  simp only [ends_bind, ends_current, ends_positionOf]
  refine ends_loop (fun members r' => ∃ ms, members = ms.foldl MemberList.add default ∧
    r.Lists [.semicolon, .comma] .rightBrace (ms.map .member) r') hr.toValid
    ⟨[], rfl, Lists.start hr.toValid (by simp [hk])⟩ ?_
  rintro _ r1 hl ⟨ms, rfl, h1⟩
  have hr1 := hr.later hl
  simp only [ends_bind, ends_peekIsSymbol, ends_ite, ends_advance, ends_pure, ends_rejectNext,
    decide_eq_true_eq, Bool.or_eq_true, Bool.not_eq_true', decide_eq_false_iff_not, ite_not]
  split
  case isTrue hclose =>
    refine (h1.closing hr.toValid hclose).mono ?_
    rintro _ ⟨u, more, rfl, hu⟩
    exact .type_object hk hu hclose
  case isFalse hopen =>
    refine (ends_objectMember hg hr1.moved).mono ?_ fun _ hlost => hlost.after hl.moved
    rintro _ r2 ⟨m, rfl, h2⟩
    have h : r.Reaches (Spelled (.ended [.semicolon, .comma] false ((ms ++ [m]).map .member))) r2 :=
      by
      simpa using h1.item hr.toValid hopen h2
    have hpast := h2.toLater.past hr1.toValid h1.ahead
    have hms : (ms.foldl MemberList.add default).add m =
      (ms ++ [m]).foldl MemberList.add default := by
      simp
    split
    case isTrue hnext =>
      refine ⟨⟨_, hms, ?_⟩, hpast.moved⟩
      rcases hnext with hnext | hnext <;> exact Lists.symbol hr.toValid h (by simp) hnext
    case isFalse =>
    split
    case isTrue hclose => exact ⟨⟨_, hms, Lists.stay hr.toValid h hclose⟩, hpast⟩
    case isFalse => exact h.toLater.lost _ _

/-- A tree of one word. -/
theorem reads_word {a : α} {phrase : α → Phrase} (hr : r.Valid) (hk : r.token.kind ≠ .endOfInput)
    (hp : Spelled (phrase a) [r.token]) : Reads (pure a) phrase r :=
  (ends_pure a).mpr ((Reaches.refl hr hk).mono fun _ hw => hw ▸ hp)

theorem reads_reference (hg : g.Reads n) (hr : r.Ready (n + 1)) (hk : r.token.kind = .identifier) :
    Reads (do
      let name ← dottedName r.token.text
      if ← peekIsSymbol .less then
        advance
        return .reference (r.positionOf r.token) name (← typeArguments g)
      else return .reference (r.positionOf r.token) name []) .type r := by
  unfold Reads Passes
  simp only [ends_bind, ends_peekIsSymbol, ends_ite, ends_advance, ends_pure, decide_eq_true_eq]
  refine (reads_dottedName hr.toValid hk).from (.refl r) fun name r1 h1 => ?_
  have hr1 := hr.later h1.toLater
  split
  case isTrue hless =>
    have hend : r1.next.kind ≠ .endOfInput := by simp [hless]
    have htoken := hr1.toValid.next_eq hend
    refine (reads_typeArguments hg hr1.moved (htoken ▸ hless)).from h1.toLater.moved
      fun ts r2 h2 => (h1.step hr.toValid h2).mono ?_
    rintro _ ⟨u, v, rfl, hu, hv⟩
    exact .reference hu hv
  case isFalse =>
    have hnone : Spelled (.angled (([] : List TypeExpr).map .type)) [] := .angled_none
    refine h1.mono fun w hw => ?_
    simpa using hw.reference hnone

theorem reads_numberLiteral (hr : r.Valid) (hk : r.token.kind = .number) :
    Reads (do return .literal (r.positionOf r.token) (.number (← numberValue))) .type r := by
  unfold Reads Passes
  simp only [ends_bind, ends_pure]
  refine (passes_numberValue hr hk).from (.refl r) fun v r1 h1 => h1.mono ?_
  rintro _ ⟨rfl, hv⟩
  exact .type_number hk hv

theorem reads_negativeLiteral (hr : r.Valid) (hk : r.token.kind = .symbol .minus) :
    Reads (do
      expect .number
      return .literal (r.positionOf r.token) (.number (← numberValue).neg)) .type r := by
  have h := Reaches.refl hr (by simp [hk])
  unfold Reads Passes
  simp only [ends_bind, ends_expect, ends_pure]
  split
  case isFalse => exact h.toLater.lost _ _
  case isTrue hnumber =>
  have hend : r.next.kind ≠ .endOfInput := by simp [hnumber]
  have hnumber' : r.moved.token.kind = .number := hr.next_eq hend ▸ hnumber
  refine (passes_numberValue hr.moved hnumber').from h.toLater.moved
    fun v r1 h1 => (h.step hr h1).mono ?_
  rintro _ ⟨_, _, rfl, rfl, rfl, hv⟩
  exact .type_negative hk hnumber' hv

theorem reads_groupedType (hg : g.Reads n) (hr : r.Ready (n + 1))
    (hk : r.token.kind = .symbol .leftParen) :
    Reads (do
      advance
      let inner ← g.type
      expectSymbol .rightParen
      return inner) .type r := by
  have hne := hr.toValid.ahead_ne (by simp [hk])
  unfold Reads Passes
  simp only [ends_bind, ends_advance, ends_expectSymbol, ends_pure]
  refine (hg.type _ (hr.moves hne)).from (Later.refl r).moved fun t r1 h1 => ?_
  have h := h1.cons hr.toValid hne
  split
  case isFalse => exact h.toLater.lost _ _
  case isTrue hclose =>
    refine (h.snoc hr.toValid (by simp [hclose])).mono ?_
    rintro _ ⟨_, rfl, v, rfl, hv⟩
    exact .type_grouped hk hv hclose

theorem reads_primaryType (hg : g.Reads n) (hr : r.Ready (n + 1)) :
    Reads (primaryType g) .type r := by
  unfold Reads Passes primaryType
  simp only [ends_bind, ends_current, ends_positionOf]
  split
  case h_1 hk => exact reads_reference hg hr hk
  case h_2 hk => exact reads_word hr.toValid (by simp [hk]) (.type_keyword (.inl hk))
  case h_3 hk => exact reads_word hr.toValid (by simp [hk]) (.type_keyword (.inr hk))
  case h_4 hk => exact reads_word hr.toValid (by simp [hk]) (.type_string hk)
  case h_5 hk => exact reads_word hr.toValid (by simp [hk]) (.type_true hk)
  case h_6 hk => exact reads_word hr.toValid (by simp [hk]) (.type_false hk)
  case h_7 hk => exact reads_word hr.toValid (by simp [hk]) (.type_bigint hk)
  case h_8 hk => exact reads_numberLiteral hr.toValid hk
  case h_9 hk => exact reads_negativeLiteral hr.toValid hk
  case h_10 hk => exact reads_objectType hg hr hk
  case h_11 hk => exact reads_tupleType hg hr hk
  case h_12 hk => exact reads_groupedType hg hr hk
  case h_13 =>
    rw [ends_reject]
    exact (Later.refl r).lost _ _

theorem reads_arraySuffix (hg : g.Reads n) (hr : r.Ready (n + 1)) :
    Reads (arraySuffix g) .type r := by
  unfold Reads Passes arraySuffix
  simp only [ends_bind, ends_current, ends_positionOf]
  refine (reads_primaryType hg hr).from (.refl r) fun first r1 h1 => ?_
  have hr1 := hr.later h1.toLater
  refine ends_loop (fun t r' => r.Reaches (fun w => Spelled (.type t) (r.token :: w)) r')
    hr1.toValid h1 fun t r2 hl h2 => ?_
  have hr2 := hr1.later hl
  simp only [ends_bind, ends_peekIsSymbol, ends_peekAt, ends_ite, ends_advance, ends_pure,
    Bool.and_eq_true, decide_eq_true_eq]
  split
  case isFalse => exact h2
  case isTrue hnext =>
    obtain ⟨hopen, hclose⟩ := hnext
    have hk : r2.next.kind ≠ .endOfInput := by simp [hopen]
    rw [hr2.toValid.tokenAt_two hk] at hclose
    refine ⟨((h2.snoc hr.toValid hk).snoc hr.toValid (by simp [hclose])).mono ?_,
      (Later.refl _).moved.past hr2.toValid (hr2.toValid.ahead_ne_of_next hk)⟩
    rintro _ ⟨_, rfl, u, rfl, hu⟩
    simpa using hu.type_array hopen hclose

theorem reads_postfixType (hg : g.Reads n) :
    ∀ (m : Nat) (r : Reader), r.Ready (n + 1) → r.tokens.size < r.place + m →
      Reads (postfixType g m) .type r := by
  intro m
  induction m with
  | zero =>
    intro r hr hm
    have := hr.inside
    omega
  | succ m ih =>
    intro r hr hm
    unfold Reads Passes postfixType
    simp only [ends_bind, ends_current, ends_ite, ends_advance]
    split
    case isFalse => exact reads_arraySuffix hg hr
    case isTrue hk =>
      have hne := hr.toValid.ahead_ne (by simp [hk])
      have hplace := (hr.toValid.ahead_eq hne).2.2
      refine (ih r.moved hr.moved (by simp; omega)).from (Later.refl r).moved fun t r1 h1 => ?_
      have h := h1.cons hr.toValid hne
      split
      case h_1 =>
        refine (ends_pure _).mpr (h.mono ?_)
        rintro _ ⟨v, rfl, hv⟩
        exact .readonly_array hk hv
      case h_2 =>
        refine (ends_pure _).mpr (h.mono ?_)
        rintro _ ⟨v, rfl, hv⟩
        exact .readonly_tuple hk hv
      case h_3 =>
        rw [ends_reject]
        exact h.toLater.lost _ _

/-- One member stands for itself, and several are at least two. -/
theorem Spelled.separated_cases {ps : List Phrase} {u : List Token}
    (h : Spelled (.separated s ps) u) : (∃ p, ps = [p] ∧ Spelled p u) ∨ 2 ≤ ps.length := by
  have hne : ∀ {qs v}, Spelled (.separated s qs) v → qs ≠ [] := by
    intro qs v hqs
    cases hqs <;> simp
  cases h with
  | separated_one hp => exact .inl ⟨_, rfl, hp⟩
  | separated_more hps _ _ =>
    have := List.length_pos_iff.mpr (hne hps)
    exact .inr (by simp; omega)

/-- Types between symbols make a type of their own, unless there is only one. -/
theorem ends_joined {r1 : Reader} {ts : List TypeExpr} {join : List TypeExpr → TypeExpr}
    (hjoin : ∀ ts u, 2 ≤ ts.length → Spelled (.separated s (ts.map .type)) u →
      Spelled (.type (join ts)) u)
    (h : r.Reaches (fun w => Spelled (.separated s (ts.map .type)) (r.token :: w)) r1) :
    Ends (match ts with
      | [t] => pure t
      | ts => pure (join ts))
      (fun t r' => r.Reaches (fun w => Spelled (.type t) (r.token :: w)) r') r.Lost r1 := by
  split
  case h_1 t =>
    refine (ends_pure _).mpr (h.mono fun w hw => ?_)
    obtain ⟨p, hp, hpw⟩ | hlen := hw.separated_cases
    · obtain rfl : .type t = p := by simpa using hp
      exact hpw
    · simp at hlen
  case h_2 _ hne =>
    refine (ends_pure _).mpr (h.mono fun w hw => hjoin ts _ ?_ hw)
    obtain ⟨p, hp, -⟩ | hlen := hw.separated_cases
    · obtain ⟨t, rfl, -⟩ := List.map_eq_singleton_iff.mp hp
      exact absurd rfl (hne t)
    · simpa using hlen

theorem reads_intersectionType (hg : g.Reads n) (hr : r.Ready (n + 1)) :
    Reads (intersectionType g) .type r := by
  unfold Reads Passes intersectionType
  simp only [ends_bind, ends_current, ends_positionOf, ends_get]
  have hmember : ∀ r1, r.Later r1 → Reads (postfixType g (r.tokens.size + 1)) .type r1 :=
    fun r1 hl => reads_postfixType hg _ r1 (hr.later hl) (by rw [hl.tokens]; omega)
  exact (reads_separated hr.toValid hmember).from (.refl r) fun ts r1 h1 =>
    ends_joined (fun _ _ => .intersection) h1

theorem reads_functionType (hg : g.Reads n) (hr : r.Ready (n + 1)) :
    Reads (functionType g) .type r := by
  unfold Reads Passes functionType
  simp only [ends_bind, ends_ite, ends_current, ends_reject, ends_pure]
  refine (reads_signature hg hr).from (.refl r) fun s r1 h1 => ?_
  split
  · exact h1.toLater.lost _ _
  · exact h1.mono fun _ hw => .type_function hw

theorem reads_typeRule (hg : g.Reads n) (hr : r.Ready (n + 1)) : Reads (typeRule g) .type r := by
  unfold Reads Passes typeRule
  simp only [ends_bind, ends_currentIsSymbol, ends_parenFollowedBy, ends_ite, ends_current,
    ends_positionOf, ends_advance]
  split
  case isTrue => exact reads_functionType hg hr
  case isFalse =>
  split
  case isTrue => exact reads_functionType hg hr
  case isFalse =>
  split
  case isTrue hbar =>
    have hbar : r.token.kind = .symbol .pipe := by simpa using hbar
    have hne := hr.toValid.ahead_ne (by simp [hbar])
    have hmember : ∀ r1, r.moved.Later r1 → Reads (intersectionType g) .type r1 :=
      fun r1 hl => reads_intersectionType hg (hr.moved.later hl)
    refine (reads_separated hr.toValid.moved hmember).from (Later.refl r).moved fun ts r1 h1 => ?_
    refine (ends_joined (fun _ _ => .union) h1).mono (fun t r2 h2 => ?_) fun _ h =>
      h.after (Later.refl r).moved
    refine (h2.cons hr.toValid hne).mono ?_
    rintro _ ⟨v, rfl, hv⟩
    exact .type_barred hbar hv
  case isFalse =>
    have hmember : ∀ r1, r.Later r1 → Reads (intersectionType g) .type r1 :=
      fun r1 hl => reads_intersectionType hg (hr.later hl)
    exact (reads_separated hr.toValid hmember).from (.refl r) fun ts r1 h1 =>
      ends_joined (fun _ _ => .union) h1

end Rules

end ShapeCheck.Snippet
