import ShapeCheck.Proofs.Scanning
import ShapeCheck.Proofs.TypeReadings

/-!
# Readings without errors are complete

A rule that fails has recorded an error, also where a caller goes on without its result, and where
the reader goes back to take a less-than sign for a comparison. So a reading that records no error
gives a tree, and this tree has all its parts: the words of the text spell it.

* `passes_expressionList`, `reads_operand` and `extends_infixStep` follow the rules for expressions,
  as the file on types follows the rules for types.
* `ends_genericCall`: a generic call that does not come off leaves the reader as it was.
* `readings_complete` is the statement for all seven kinds of snippets.
-/

namespace ShapeCheck.Snippet

open Reader

variable {α β : Type} {g : Grammar} {n : Nat} {r : Reader} {close : Symbol} {r1 : Reader}
  {site : Site} {ts : List TypeParam} {ps : List Param} {rest : Option Param}
  {result : Option TypeExpr} {W : Expr → Reader → Prop} {L : Reader → Prop} {least : Nat}
  {op : BinaryOp} {S : α → List Token → Prop} {rule : Parse α}

/-! ## Lists of expressions -/

/-- The elements of an expression list behind the first. -/
def moreElements (g : Grammar) (close : Symbol) (first : List Expr) : Parse (List Expr) :=
  loop first fun done => do
    if ← peekIsSymbol .comma then
      advance
      if ← peekIsSymbol close then return .inr done
      advance
      let e ← attempt (g.expression lowest)
      return .inl (e.toList ++ done)
    else return .inr done

theorem ends_moreElements {first : List Expr} (hg : g.Reads n)
    (hr : r.Ready (n + 1)) (hr1 : r1.Ready n)
    (h1 : r.Reaches (fun w => Spelled (.separated .comma (first.reverse.map .expression)) w) r1) :
    Ends (moreElements g close first)
      (fun done r' => if r'.next.kind = .symbol close then
          r.Reaches (fun w => Spelled (.upTo close done.reverse) w) r'.moved
        else r.Lost (r'.complaining r'.next (.expected (.symbol close) r'.next))) r.Lost r1 := by
  refine ends_loop (fun done r' =>
    r.Reaches (fun w => Spelled (.separated .comma (done.reverse.map .expression)) w) r')
    hr1.toValid h1 fun done r2 hl h2 => ?_
  have hr2 := hr1.later hl
  simp only [ends_bind, ends_peekIsSymbol, ends_ite, ends_advance, ends_pure, ends_attempt,
    decide_eq_true_eq]
  split
  case isTrue hcomma =>
    have hend : r2.next.kind ≠ .endOfInput := by simp [hcomma]
    have hne := hr2.toValid.ahead_ne_of_next hend
    split
    case isTrue hclose =>
      refine ((h2.snoc hr.toValid hend).snoc hr.toValid (by simp [hclose])).mono ?_
      rintro _ ⟨_, rfl, u, rfl, hu⟩
      simpa using hu.upTo_trailing hcomma hclose
    case isFalse =>
      refine (hg.expression (Nat.le_refl _) _ hr2.moved.moved).mono (fun e r3 h3 => ⟨?_, ?_⟩)
        fun r3 hlost => ⟨?_, ?_⟩
      · refine (h2.behind hr.toValid hend h3).mono ?_
        rintro _ ⟨u, v, rfl, hu, hv⟩
        simpa using hu.separated_more hcomma hv
      · exact ((Later.refl _).moved.trans h3.toLater).past hr2.toValid hne
      · exact .of_lost (hlost.after h2.toLater.moved.moved)
      · exact ((Later.refl _).moved.trans hlost.toLater).past hr2.toValid hne
  case isFalse =>
    split
    case isTrue hclose =>
      refine (h2.snoc hr.toValid (by simp [hclose])).mono ?_
      rintro _ ⟨u, rfl, hu⟩
      exact hu.upTo hclose
    case isFalse => exact h2.toLater.lost _ _

theorem passes_expressionList (hg : g.Reads n) (hr : r.Ready (n + 1))
    (hk : r.token.kind ≠ .endOfInput) :
    Passes (expressionList g close) (fun es w => Spelled (.upTo close es) w) r := by
  unfold Passes expressionList
  simp only [ends_bind, ends_peekIsSymbol, ends_ite, ends_advance, ends_pure, ends_attempt,
    ends_expectSymbol, decide_eq_true_eq]
  have hne := hr.toValid.ahead_ne hk
  have hready := hr.moves hne
  split
  case isTrue hclose =>
    refine ((Reaches.refl hr.toValid hk).snoc hr.toValid (by simp [hclose])).mono ?_
    rintro _ ⟨_, rfl, rfl⟩
    exact .upTo_none hclose
  case isFalse =>
    refine (hg.expression (by decide) _ hready).mono (fun e r1 h1 => ?_) fun r1 hlost => ?_
    · refine ends_moreElements hg hr (hready.later h1.toLater) ((h1.cons hr.toValid hne).mono ?_)
      rintro _ ⟨v, rfl, hv⟩
      exact .separated_one hv
    · exact ends_moreElements hg hr (hready.later hlost.toLater)
        (.of_lost (hlost.after (Later.refl r).moved))

/-! ## Operands -/

theorem reads_entry (hg : g.Reads n) (hr : r.Ready n) : Reads (property g) .entry r := by
  unfold Reads Passes property
  simp only [ends_bind, ends_current, ends_ite, ends_reject, ends_positionOf, ends_peekIsSymbol,
    ends_advance, ends_pure, ends_rejectNext, Bool.not_eq_true', decide_eq_true_eq]
  have hstart := Later.refl r
  split
  case isTrue => exact hstart.lost _ _
  case isFalse hname =>
  have hname : isPropertyName r.token = true := by simpa using hname
  have h := Reaches.refl hr.toValid (kind_ne_of_isPropertyName hname)
  split
  case isTrue hcolon =>
    refine (hg.expression (by decide) _ hr.moved.moved).from hstart.moved.moved fun e r' he => ?_
    refine (h.behind hr.toValid (by simp [hcolon]) he).mono ?_
    rintro _ ⟨_, v, rfl, rfl, hv⟩
    exact .entry hname hcolon hv
  case isFalse =>
  split
  case isTrue hk => exact h.mono fun w hw => hw ▸ .entry_short hk
  case isFalse => exact hstart.lost _ _

theorem reads_objectLiteral (hg : g.Reads n) (hr : r.Ready (n + 1))
    (hk : r.token.kind = .symbol .leftBrace) : Reads (objectLiteral g) .expression r := by
  unfold Reads Passes objectLiteral
  simp only [ends_bind, ends_current, ends_siteOf]
  refine ends_loop (fun done r' => r.Lists [.comma] .rightBrace (done.reverse.map .entry) r')
    hr.toValid (Lists.start hr.toValid (by simp [hk])) fun done r1 hl h1 => ?_
  have hr1 := hr.later hl
  simp only [ends_bind, ends_peekIsSymbol, ends_ite, ends_advance, ends_pure, ends_expectSymbol,
    decide_eq_true_eq, Bool.not_eq_true', decide_eq_false_iff_not, ite_not]
  split
  case isTrue hclose =>
    refine (h1.closing hr.toValid hclose).mono ?_
    rintro _ ⟨u, more, rfl, hu⟩
    exact .object hk hu hclose
  case isFalse hopen =>
    refine (reads_entry hg (hr1.moves h1.ahead)).from hl.moved fun p r2 h2 => ?_
    exact Lists.comma hr.toValid (by simpa using h1.item hr.toValid hopen h2)
      (h2.toLater.past hr1.toValid h1.ahead)

theorem reads_arrowBody (hg : g.Reads n) (hr : r.Ready (n + 1))
    (hk : r.token.kind = .symbol .arrow) :
    Passes (arrowBody g site ts ps rest result) (fun e w => ∃ body,
      e = .function site (.mk site.position ts ps rest none result) body ∧
      Spelled (.expression body) w) r := by
  unfold Passes arrowBody
  simp only [ends_bind, ends_peek, ends_ite, ends_reject, ends_advance, ends_pure]
  have hne := hr.toValid.ahead_ne (by simp [hk])
  split
  case isTrue => exact (Later.refl r).lost _ _
  case isFalse =>
    refine (hg.expression (by decide) _ (hr.moves hne)).from (Later.refl r).moved
      fun body r1 h1 => ?_
    refine (h1.cons hr.toValid hne).mono ?_
    rintro _ ⟨v, rfl, hv⟩
    exact ⟨body, rfl, hv⟩

/-- The words in front of the arrow of an arrow function. -/
def ArrowHead (ts : List TypeParam) (ps : List Param) (rest : Option Param)
    (result : Option TypeExpr) (ws : List Token) : Prop :=
  ∃ t o u c v more, ws = t ++ o :: u ++ c :: v ∧ Spelled (.angled (ts.map .typeParameter)) t ∧
    o.kind = .symbol .leftParen ∧
    Spelled (.ended [.comma] more (ps.map .parameter ++ rest.toList.map .restParameter)) u ∧
    c.kind = .symbol .rightParen ∧ Spelled (.clause (.symbol .colon) (result.map .type)) v

theorem ends_arrowEnd (hg : g.Reads n) (hr : r.Valid) (hr1 : r1.Ready (n + 1))
    (h1 : r.Reaches (fun w => ArrowHead ts ps rest result (r.token :: w)) r1) :
    Ends (do
      expectSymbol .arrow
      arrowBody g site ts ps rest result)
      (fun e r' => r.Reaches (fun w => Spelled (.expression e) (r.token :: w)) r') r.Lost r1 := by
  simp only [ends_bind, ends_expectSymbol]
  split
  case isFalse => exact h1.toLater.lost _ _
  case isTrue harrow =>
  have hend : r1.next.kind ≠ .endOfInput := by simp [harrow]
  have hnext := hr1.toValid.next_eq hend
  refine (reads_arrowBody hg hr1.moved (hnext ▸ harrow)).from h1.toLater.moved fun e r2 h2 =>
    (h1.step hr h2).mono ?_
  rintro _ ⟨w, v, rfl, ⟨t, o, u, c, v', more, hw, hts, ho, hps, hc, hv'⟩, body, rfl, hbody⟩
  rw [← List.cons_append, hw, ← hnext]
  exact .arrow hts ho hps hc hv' harrow hbody

theorem ends_arrowTail (hg : g.Reads n) (hr : r.Valid) (hr1 : r1.Ready (n + 1))
    (h1 : r.Reaches (fun w => ArrowHead ts ps rest none (r.token :: w)) r1) :
    Ends (arrowTail g site ts ps rest)
      (fun e r' => r.Reaches (fun w => Spelled (.expression e) (r.token :: w)) r') r.Lost r1 := by
  unfold arrowTail
  simp only [ends_bind, ends_peekIsSymbol, ends_ite, ends_advance, ends_attempt, ends_pure,
    decide_eq_true_eq]
  split
  case isFalse => exact (ends_bind _ _).mp (ends_arrowEnd hg hr hr1 h1)
  case isTrue hcolon =>
    have hend : r1.next.kind ≠ .endOfInput := by simp [hcolon]
    have hready := hr1.moves (hr1.toValid.ahead_ne_of_next hend)
    refine (hg.type _ hready.moved).mono (fun t r2 h2 => ?_) fun r2 hlost => ?_
    · refine (ends_bind _ _).mp (ends_arrowEnd hg hr (hr1.moved.moved.later h2.toLater)
        ((h1.behind hr hend h2).mono ?_))
      rintro _ ⟨w, v, rfl, ⟨t', o, u, c, v', more, hw, hts, ho, hps, hc, hv'⟩, hv⟩
      cases hv'
      exact ⟨t', o, u, c, _, more, by rw [← List.cons_append, hw]; simp, hts, ho, hps, hc,
        .clause_some hcolon hv⟩
    · exact (ends_bind _ _).mp (ends_arrowEnd hg hr (hr1.moved.moved.later hlost.toLater)
        (.of_lost (hlost.after h1.toLater.moved.moved)))

/-- An arrow function from its parameters on, behind its type parameters. -/
theorem ends_arrowFunction (hg : g.Reads n)
    (hr : r.Valid) (hr1 : r1.Ready (n + 1)) (hk : r1.token.kind = .symbol .leftParen)
    (h1 : r.Reaches (fun w => ∃ t, r.token :: w = t ++ [r1.token] ∧
      Spelled (.angled (ts.map .typeParameter)) t) r1) :
    Ends (arrowFunction g site ts)
      (fun e r' => r.Reaches (fun w => Spelled (.expression e) (r.token :: w)) r') r.Lost r1 := by
  unfold arrowFunction
  simp only [ends_bind, ends_attempt]
  refine (reads_parameterList hg hr1 hk).mono (fun ps r2 h2 => ?_) fun r2 hlost => ?_
  · refine ends_arrowTail hg hr (hr1.later h2.toLater) ((h1.trans h2).mono ?_)
    rintro _ ⟨w, _, rfl, ⟨t, ht, hts⟩, u, c, more, rfl, hps, hc⟩
    exact ⟨t, r1.token, u, c, [], more, by rw [← List.cons_append, ht]; simp, hts, hk, hps, hc,
      .clause_none⟩
  · exact ends_arrowTail hg hr (hr1.later hlost.toLater) (.of_lost (hlost.after h1.toLater))

theorem reads_grouped (hg : g.Reads n) (hr : r.Ready (n + 1))
    (hk : r.token.kind = .symbol .leftParen) : Reads (grouped g) .expression r := by
  unfold Reads Passes grouped
  simp only [ends_bind, ends_parenFollowedBy, ends_ite, ends_current, ends_siteOf, ends_advance,
    ends_attempt, ends_expectSymbol]
  have hend : r.token.kind ≠ .endOfInput := by simp [hk]
  have hne := hr.toValid.ahead_ne hend
  split
  case isTrue =>
    refine ends_arrowFunction hg hr.toValid hr hk ((Reaches.refl hr.toValid hend).mono ?_)
    rintro _ rfl
    exact ⟨[], rfl, .angled_none⟩
  case isFalse =>
    refine (hg.expression (by decide) _ (hr.moves hne)).mono (fun e r1 h1 => ?_) fun r1 hlost => ?_
    · have h := h1.cons hr.toValid hne
      split
      case isTrue hclose =>
        refine (ends_pure _).mpr ((h.snoc hr.toValid (by simp [hclose])).mono ?_)
        rintro _ ⟨_, rfl, v, rfl, hv⟩
        exact .grouped hk hv hclose
      case isFalse => exact h.toLater.lost _ _
    · have hlost := hlost.after (Later.refl r).moved
      split
      case isTrue => exact ends_failure.mpr hlost.moved
      case isFalse => exact hlost.toLater.lost _ _

theorem reads_genericArrow (hg : g.Reads n) (hr : r.Ready (n + 1))
    (hk : r.token.kind = .symbol .less) : Reads (genericArrow g) .expression r := by
  unfold Reads Passes genericArrow
  simp only [ends_bind, ends_current, ends_siteOf, ends_attempt, ends_expectSymbol]
  have hfunction : ∀ (ts : List TypeParam) (r1 : Reader),
      r.Reaches (fun w => Spelled (.angled (ts.map .typeParameter)) (r.token :: w)) r1 →
      if r1.next.kind = .symbol .leftParen then
        Ends (arrowFunction g { position := r.positionOf r.token } ts)
          (fun e r' => r.Reaches (fun w => Spelled (.expression e) (r.token :: w)) r') r.Lost
          r1.moved
      else r.Lost (r1.complaining r1.next (.expected (.symbol .leftParen) r1.next)) := by
    intro ts r1 h1
    split
    case isFalse => exact h1.toLater.lost _ _
    case isTrue hparen =>
      have hend : r1.next.kind ≠ .endOfInput := by simp [hparen]
      have hr1 := hr.later h1.toLater
      have hnext := hr1.toValid.next_eq hend
      refine ends_arrowFunction hg hr.toValid hr1.moved (hnext ▸ hparen)
        ((h1.snoc hr.toValid hend).mono ?_)
      rintro _ ⟨u, rfl, hu⟩
      exact ⟨_, by rw [hnext, List.cons_append], hu⟩
  exact (reads_typeParameters hg hr hk).mono (fun ts r1 h1 => hfunction ts r1 h1)
    fun r1 hlost => hfunction [] r1 (.of_lost hlost)

theorem reads_nameOrArrow (hg : g.Reads n) (hr : r.Ready (n + 1))
    (hk : r.token.kind = .identifier) :
    Reads (nameOrArrow g) .expression r := by
  unfold Reads Passes nameOrArrow
  simp only [ends_bind, ends_current, ends_siteOf, ends_peekIsSymbol, ends_ite, ends_advance,
    ends_pure, decide_eq_true_eq]
  have h := Reaches.refl hr.toValid (by simp [hk])
  split
  case isFalse => exact h.mono fun _ hw => hw ▸ .identifier hk
  case isTrue harrow =>
    have hend : r.next.kind ≠ .endOfInput := by simp [harrow]
    have hnext := hr.toValid.next_eq hend
    refine (reads_arrowBody hg hr.moved (hnext ▸ harrow)).from
      h.toLater.moved fun e r1 h1 => (h.step hr.toValid h1).mono ?_
    rintro _ ⟨_, v, rfl, rfl, body, rfl, hbody⟩
    exact .arrow_bare hk (hnext ▸ harrow) hbody

/-- The arguments of a constructor call, behind the callee and its type arguments. -/
def constructorArguments (g : Grammar) (site : Site) (callee : Expr) (ts : List TypeExpr) :
    Parse Expr := do
  if ← peekIsSymbol .leftParen then
    advance
    return .construct site callee ts ((← attempt (expressionList g .rightParen)).getD [])
  else return .construct site callee ts []

theorem ends_constructorArguments {callee : Expr} {ts : List TypeExpr}
    (hg : g.Reads n) (hr : r.Valid) (hr1 : r1.Ready (n + 1)) (hk : r.token.kind = .keyword .new)
    (h1 : r.Reaches (fun w => ∃ t u, w = t ++ u ∧ Spelled (.expression callee) t ∧
      Spelled (.angled (ts.map .type)) u) r1) :
    Ends (constructorArguments g site callee ts)
      (fun e r' => r.Reaches (fun w => Spelled (.expression e) (r.token :: w)) r') r.Lost r1 := by
  unfold constructorArguments
  simp only [ends_bind, ends_peekIsSymbol, ends_ite, ends_advance, ends_attempt, ends_pure,
    decide_eq_true_eq]
  split
  case isFalse =>
    refine h1.mono ?_
    rintro _ ⟨t, u, rfl, ht, hu⟩
    simpa using Spelled.construct hk ht hu .arguments_none
  case isTrue hparen =>
    have hend : r1.next.kind ≠ .endOfInput := by simp [hparen]
    have hnext := hr1.toValid.next_eq hend
    refine (passes_expressionList hg hr1.moved (hnext ▸ hend)).mono (fun es r2 h2 => ?_)
      fun r2 hlost => .of_lost (hlost.after h1.toLater.moved)
    refine (h1.step hr h2).mono ?_
    rintro _ ⟨_, v, rfl, ⟨t, u, rfl, ht, hu⟩, hv⟩
    simpa [← hnext] using Spelled.construct hk ht hu (.arguments_some hparen hv)

theorem ends_construction :
    Ends (construction g) W L r ↔ Ends (do
      let site ← siteOf (← current)
      advance
      let callee ← g.expression callStrength
      if ← peekIsSymbol .less then
        advance
        let ts ← attempt (typeArguments g)
        constructorArguments g site callee (ts.getD [])
      else constructorArguments g site callee []) W L r := by
  simp only [construction, constructorArguments, ends_bind, ends_current, ends_siteOf, ends_advance,
    ends_peekIsSymbol, ends_ite, ends_attempt, ends_pure]

theorem reads_construction (hg : g.Reads n) (hr : r.Ready (n + 1))
    (hk : r.token.kind = .keyword .new) : Reads (construction g) .expression r := by
  unfold Reads Passes
  simp only [ends_construction, ends_bind, ends_current, ends_siteOf, ends_advance,
    ends_peekIsSymbol, ends_ite, ends_attempt, decide_eq_true_eq]
  have hne := hr.toValid.ahead_ne (by simp [hk])
  refine (hg.expression (by decide) _ (hr.moves hne)).from (Later.refl r).moved
    fun callee r1 h1 => ?_
  have hr1 := hr.moved.later h1.toLater
  have h := h1.cons hr.toValid hne
  split
  case isFalse =>
    refine ends_constructorArguments hg hr.toValid hr1 hk (h.mono ?_)
    rintro _ ⟨v, rfl, hv⟩
    exact ⟨_, [], by simp, hv, .angled_none⟩
  case isTrue hless =>
    have hend : r1.next.kind ≠ .endOfInput := by simp [hless]
    have hnext := hr1.toValid.next_eq hend
    refine (reads_typeArguments hg hr1.moved (hnext ▸ hless)).mono (fun ts r2 h2 => ?_)
      fun r2 hlost => ?_
    · refine ends_constructorArguments hg hr.toValid (hr1.moved.later h2.toLater) hk
        ((h.step hr.toValid h2).mono ?_)
      rintro _ ⟨_, u, rfl, ⟨v, rfl, hv⟩, hu⟩
      exact ⟨_, _, rfl, hv, hu⟩
    · exact ends_constructorArguments hg hr.toValid (hr1.moved.later hlost.toLater) hk
        (.of_lost (hlost.after h.toLater.moved))

/-- A prefix operator and its operand. -/
theorem reads_prefixed {make : Expr → Expr} (hg : g.Reads n) (hr : r.Ready (n + 1))
    (hend : r.token.kind ≠ .endOfInput)
    (hmake : ∀ e u, Spelled (.expression e) u → Spelled (.expression (make e)) (r.token :: u)) :
    Reads (do
      advance
      return make (← g.expression operandStrength)) .expression r := by
  have hne := hr.toValid.ahead_ne hend
  unfold Reads Passes
  simp only [ends_bind, ends_advance, ends_pure]
  refine (hg.expression (by decide) _ (hr.moves hne)).from (Later.refl r).moved fun e r1 h1 =>
    (h1.cons hr.toValid hne).mono ?_
  rintro _ ⟨v, rfl, hv⟩
  exact hmake e _ hv

theorem reads_arrayLiteral (hg : g.Reads n) (hr : r.Ready (n + 1))
    (hk : r.token.kind = .symbol .leftBracket) :
    Reads (do
      let es ← attempt (expressionList g .rightBracket)
      return .array { position := r.positionOf r.token } (es.getD [])) .expression r := by
  unfold Reads Passes
  simp only [ends_bind, ends_attempt, ends_pure]
  exact (passes_expressionList hg hr (by simp [hk])).mono
    (fun es r1 h1 => h1.mono fun _ hw => .array hk hw) fun _ hlost => .of_lost hlost

theorem reads_numberOperand (hr : r.Valid) (hk : r.token.kind = .number) :
    Reads (do return .number { position := r.positionOf r.token } (← numberValue))
      .expression r := by
  unfold Reads Passes
  simp only [ends_bind, ends_pure]
  refine (passes_numberValue hr hk).from (.refl r) fun v r1 h1 => h1.mono ?_
  rintro _ ⟨rfl, hv⟩
  exact .number hk hv

theorem reads_operand (hg : g.Reads n) (hr : r.Ready (n + 1)) :
    Reads (operand g) .expression r := by
  unfold Reads Passes operand
  simp only [ends_bind, ends_current, ends_siteOf]
  split
  case h_1 hk => exact reads_nameOrArrow hg hr hk
  case h_2 hk => exact reads_numberOperand hr.toValid hk
  case h_3 hk => exact reads_word hr.toValid (by simp [hk]) (.bigint hk)
  case h_4 hk => exact reads_word hr.toValid (by simp [hk]) (.string hk)
  case h_5 hk => exact reads_word hr.toValid (by simp [hk]) (.true hk)
  case h_6 hk => exact reads_word hr.toValid (by simp [hk]) (.false hk)
  case h_7 hk => exact reads_word hr.toValid (by simp [hk]) (.null hk)
  case h_8 hk => exact reads_word hr.toValid (by simp [hk]) (.undefined hk)
  case h_9 hk => exact reads_word hr.toValid (by simp [hk]) (.this hk)
  case h_10 hk => exact reads_prefixed hg hr (by simp [hk]) fun _ _ => .not hk
  case h_11 hk => exact reads_prefixed hg hr (by simp [hk]) fun _ _ => .negate hk
  case h_12 hk => exact reads_prefixed hg hr (by simp [hk]) fun _ _ => .typeof hk
  case h_13 hk => exact reads_grouped hg hr hk
  case h_14 hk => exact reads_genericArrow hg hr hk
  case h_15 hk => exact reads_arrayLiteral hg hr hk
  case h_16 hk => exact reads_objectLiteral hg hr hk
  case h_17 hk => exact reads_construction hg hr hk
  case h_18 =>
    rw [ends_reject]
    exact (Later.refl r).lost _ _

/-! ## Infix forms -/

/-- The left operand has been read, and the reader stands on the word behind it. -/
def Reader.Left (r : Reader) (left : Expr) (r1 : Reader) : Prop :=
  r.Reaches (fun w => ∃ u, w = u ++ [r1.token] ∧ Spelled (.expression left) (r.token :: u)) r1

/-- What an infix rule does: it makes an expression that begins with the left operand. -/
def Extends (p : Parse Expr) (r r1 : Reader) : Prop :=
  Ends p (fun e r' => r1.Later r' ∧ r.Reaches (fun w => Spelled (.expression e) (r.token :: w)) r')
    r.Lost r1

section Infix

variable {left : Expr}

theorem extends_memberAccess {b : Bool} (hr : r.Valid) (h1 : r.Left left r1)
    (hk : r1.token.kind = .symbol (if b then .optionalChain else .dot)) :
    Extends (memberAccess left b) r r1 := by
  have hr1 := h1.toLater.valid hr
  unfold Extends memberAccess
  simp only [ends_bind, ends_advance, ends_current, ends_ite, ends_reject, ends_siteOf, ends_pure]
  split
  case isTrue => exact h1.toLater.moved.lost _ _
  case isFalse hname =>
  have hname : r1.moved.token.kind = .identifier ∨ ∃ k, r1.moved.token.kind = .keyword k := by
    revert hname
    cases hkind : r1.moved.token.kind <;> simp [isPropertyName, hkind]
  have hend : r1.moved.token.kind ≠ .endOfInput := by
    rcases hname with h | ⟨k, h⟩ <;> simp [h]
  refine ⟨(Later.refl r1).moved, (h1.step hr (Reaches.refl hr1.moved hend)).mono ?_⟩
  rintro _ ⟨_, _, rfl, ⟨u, rfl, hu⟩, rfl⟩
  simpa using hu.access hk hname

/-- An operator and the operand to its right. -/
theorem ends_right (hg : g.Reads n) (hr : r.Valid)
    (hr1 : r1.Ready n) (hl : lowest ≤ least) (h1 : r.Left left r1)
    (hW : ∀ e r', r1.Later r' → r.Reaches (fun w => ∃ u v, r.token :: w = u ++ r1.token :: v ∧
      Spelled (.expression left) u ∧ Spelled (.expression e) v) r' → W e r') :
    Ends (g.expression least) W r.Lost r1.moved := by
  refine (hg.expression hl _ hr1.moved).from h1.toLater.moved fun e r2 h2 =>
    hW e r2 ((Later.refl r1).moved.trans h2.toLater) ((h1.step hr h2).mono ?_)
  rintro _ ⟨_, v, rfl, ⟨u, rfl, hu⟩, hv⟩
  exact ⟨_, _, by simp, hu, hv⟩

theorem one_le_strength (k : TokenKind) : lowest ≤ strength k := by
  unfold strength
  split <;> decide

theorem extends_binaryRight {s : Symbol} (hg : g.Reads n) (hr : r.Valid)
    (hr1 : r1.Ready n) (h1 : r.Left left r1) (hk : r1.token.kind = .symbol s)
    (hop : binaryOp? s = some op) : Extends (binaryRight g left r1.token op) r r1 := by
  unfold Extends binaryRight
  simp only [ends_bind, ends_advance, ends_siteOf, ends_pure]
  refine ends_right hg hr hr1 (one_le_strength _) h1 fun e r2 hl h2 => ⟨hl, h2.mono ?_⟩
  rintro w ⟨u, v, hw, hu, hv⟩
  exact hw ▸ .binary hu hk hop hv

theorem extends_call (hg : g.Reads n) (hr1 : r1.Ready n) (h1 : r.Left left r1)
    (hk : r1.token.kind = .symbol .leftParen) :
    Extends (do return .call left.site left [] (← expressionList g .rightParen)) r r1 := by
  unfold Extends
  simp only [ends_bind, ends_pure]
  refine (passes_expressionList hg (hr1.mono n.le_succ) (by simp [hk])).from h1.toLater
    fun es r2 h2 => ⟨h2.toLater, (h1.trans h2).mono ?_⟩
  rintro _ ⟨_, v, rfl, ⟨u, rfl, hu⟩, hv⟩
  have hnone : Spelled (.angled (([] : List TypeExpr).map .type)) [] := .angled_none
  simpa using hu.call hnone hk hv

theorem ends_genericCall {W : Option Expr → Reader → Prop}
    (hg : g.Reads n) (hr : r.Ready (n + 1)) (hk : r.token.kind = .symbol .less) (hnone : W none r)
    (hsome : ∀ ts es r', r.Reaches (fun w => ∃ u o v, r.token :: w = u ++ o :: v ∧
      Spelled (.angled (ts.map .type)) u ∧ o.kind = .symbol .leftParen ∧
      Spelled (.upTo .rightParen es) v) r' → W (some (.call left.site left ts es)) r') :
    Ends (genericCall? g left) W L r := by
  unfold genericCall?
  simp only [ends_bind, ends_get, ends_attempt]
  refine (reads_typeArguments hg hr hk).mono (fun ts r1 h1 => ?_) fun r1 _ => ?_
  · simp only [ends_bind, ends_peekIsSymbol, ends_ite, ends_advance, ends_attempt,
      ends_pure, ends_set, Bool.and_eq_true, decide_eq_true_eq]
    split
    case isFalse => exact hnone
    case isTrue hcall =>
      obtain ⟨-, hparen⟩ := hcall
      have hend : r1.next.kind ≠ .endOfInput := by simp [hparen]
      have hr1 := hr.later h1.toLater
      have hnext := hr1.toValid.next_eq hend
      refine (passes_expressionList hg hr1.moved (hnext ▸ hend)).mono (fun es r2 h2 => ?_)
        fun r2 hlost => hsome _ _ _ (.of_lost (hlost.after h1.toLater.moved))
      refine hsome _ _ _ ((h1.step hr.toValid h2).mono ?_)
      rintro _ ⟨u, v, rfl, hu, hv⟩
      exact ⟨_, _, _, rfl, hu, hnext ▸ hparen, hv⟩
  · simp only [ends_set, ends_pure]
    exact hnone

theorem extends_less (hg : g.Reads n) (hr : r.Valid) (hr1 : r1.Ready n)
    (h1 : r.Left left r1) (hk : r1.token.kind = .symbol .less) (hop : binaryOp? .less = some op) :
    Extends (do
      match ← genericCall? g left with
      | some call => return call
      | none => binaryRight g left r1.token op) r r1 := by
  unfold Extends
  rw [ends_bind]
  refine ends_genericCall hg (hr1.mono n.le_succ) hk (extends_binaryRight hg hr hr1 h1 hk hop)
    fun ts es r2 h2 => (ends_pure _).mpr ⟨h2.toLater, (h1.trans h2).mono ?_⟩
  rintro _ ⟨_, w, rfl, ⟨t, rfl, ht⟩, u, o, v, hw, hu, ho, hv⟩
  have hwords : r.token :: (t ++ [r1.token] ++ w) = r.token :: t ++ u ++ o :: v := by
    rw [List.append_assoc, List.singleton_append, hw]
    simp
  exact hwords ▸ ht.call hu ho hv

theorem extends_infixStep (hg : g.Reads n) (hr : r.Valid) (hr1 : r1.Ready n) (h1 : r.Left left r1)
    (hk : lowest < strength r1.token.kind) : Extends (infixStep g left) r r1 := by
  unfold Extends infixStep
  simp only [ends_bind, ends_current]
  split
  case h_1 hassign =>
    simp only [ends_bind, ends_advance, ends_siteOf, ends_pure]
    refine ends_right hg hr hr1 (by decide) h1 fun e r2 hl h2 => ⟨hl, h2.mono ?_⟩
    rintro w ⟨u, v, hw, hu, hv⟩
    exact hw ▸ .assign hu hassign hv
  case h_2 has =>
    simp only [ends_bind, ends_advance, ends_siteOf, ends_pure]
    refine (hg.type _ hr1.moved).from h1.toLater.moved fun t r2 h2 =>
      ⟨(Later.refl r1).moved.trans h2.toLater, (h1.step hr h2).mono ?_⟩
    rintro _ ⟨_, v, rfl, ⟨u, rfl, hu⟩, hv⟩
    simpa using hu.assertion has hv
  case h_3 hparen => exact extends_call hg hr1 h1 hparen
  case h_4 hdot => exact extends_memberAccess hr h1 hdot
  case h_5 hdot => exact extends_memberAccess hr h1 hdot
  case h_6 hopen =>
    simp only [ends_bind, ends_advance, ends_expectSymbol, ends_siteOf, ends_pure]
    refine ends_right hg hr hr1 (by decide) h1 fun e r2 hl h2 => ?_
    split
    case isTrue hclose =>
      refine ⟨hl.moved, (h2.snoc hr (by simp [hclose])).mono ?_⟩
      rintro _ ⟨w, rfl, u, v, hw, hu, hv⟩
      rw [← List.cons_append, hw]
      exact hu.index hopen hv hclose
    case isFalse => exact h2.toLater.lost _ _
  case h_7 s hassign hparen hdot hoptional hbracket hs =>
    split
    case h_1 hnone =>
      rw [hs] at hk
      cases s <;> simp_all [binaryOp?, strength]
    case h_2 op hop =>
      split
      case isTrue hless =>
        subst hless
        exact extends_less hg hr hr1 h1 hs hop
      case isFalse => exact extends_binaryRight hg hr hr1 h1 hs hop
  case h_8 hassign has hparen hdot hoptional hbracket hsymbol =>
    cases hkind : r1.token.kind with
    | keyword k => cases k <;> simp_all [strength]
    | symbol s => exact absurd hkind (hsymbol s)
    | _ => simp [hkind, strength] at hk

end Infix

/-! ## Expressions and whole snippets -/

theorem reads_expressionRule (hg : g.Reads n) (hr : r.Ready (n + 1))
    (hl : lowest ≤ least) : Reads (expressionRule g least) .expression r := by
  unfold Reads Passes expressionRule
  rw [ends_bind]
  refine (reads_operand hg hr).from (.refl r) fun first r1 h1 => ?_
  have hr1 := hr.later h1.toLater
  refine ends_loop (fun left r' => r.Reaches (fun w =>
    Spelled (.expression left) (r.token :: w)) r')
    hr1.toValid h1 fun left r2 hlater h2 => ?_
  have hr2 := hr1.later hlater
  simp only [ends_bind, ends_peek, ends_ite, ends_advance, ends_pure]
  split
  case isFalse => exact h2
  case isTrue hstrength =>
    have hend : r2.next.kind ≠ .endOfInput := by
      intro h
      have : strength .endOfInput = lowest := rfl
      rw [h] at hstrength
      omega
    have hnext := hr2.toValid.next_eq hend
    have hne := hr2.toValid.ahead_ne_of_next hend
    have hleft : r.Left left r2.moved := by
      rw [Reader.Left, ← hnext]
      exact h2.snoc hr.toValid hend
    have htight : lowest < strength r2.moved.token.kind := by
      rw [← hnext]
      omega
    exact (extends_infixStep hg hr.toValid (hr2.moves hne) hleft htight).mono
      (fun e r3 h3 => ⟨h3.2, h3.1.past hr2.toValid hne⟩) fun _ h => h

/-- Every level of the grammar reads the snippets that have no more tokens left than there are
levels below it. -/
theorem grammar_reads : ∀ n, (grammar n).Reads n := by
  intro n
  induction n with
  | zero =>
    refine ⟨fun _ r hr => ?_, fun r hr => ?_⟩ <;>
    · have := hr.levels
      have := hr.inside
      omega
  | succ n ih =>
    exact ⟨fun hl _ hr => reads_expressionRule ih hr hl, fun _ hr => reads_typeRule ih hr⟩

theorem ends_classField {W : ClassField → Reader → Prop} :
    Ends (classField g) W L r ↔ Ends (do
      let head ← propertyHead
      let type ← clause (.symbol .colon) (do advance; g.type)
      let value ← clause (.symbol .assign) (do advance; g.expression lowest)
      return { position := head.position, name := head.name, type, optional := head.optional,
               readonly := head.readonly, value }) W L r := by
  simp [classField, clause]

theorem reads_classField (hg : g.Reads n) (hr : r.Ready (n + 1)) :
    Reads (classField g) .field r := by
  unfold Reads Passes
  simp only [ends_classField, ends_bind, ends_pure]
  refine (reads_propertyHead hr.toValid).from (.refl r) fun head r1 h1 => ?_
  have hr1 := hr.later h1.toLater
  refine ends_clause (by simp) hr.toValid h1
    (fun hk => hg.type_after (hr1.moves_to hk (by simp)) (hr1.toValid.moved_ahead_ne hk (by simp)))
    fun type r2 _ h2 => ?_
  have hr2 := hr.later h2.toLater
  refine ends_clause (by simp) hr.toValid h2
    (fun hk => hg.expression_after (hr2.moves_to hk (by simp))
      (hr2.toValid.moved_ahead_ne hk (by simp)))
    fun value r3 _ h3 => h3.mono ?_
  rintro _ ⟨_, w, rfl, ⟨u, v, rfl, hu, hv⟩, hw⟩
  exact .field hu hv hw

theorem ends_enumMember {W : EnumMember → Reader → Prop} :
    Ends (enumMember g) W L r ↔ Ends (do
      let t ← current
      if !isPropertyName t then reject t (.noEnumMemberName t)
      let position ← positionOf t
      let value ← clause (.symbol .assign) (do advance; g.expression lowest)
      return { position, name := t.text, value }) W L r := by
  simp [enumMember, clause]

theorem reads_enumMember (hg : g.Reads n) (hr : r.Ready (n + 1)) :
    Reads (enumMember g) .enumMember r := by
  unfold Reads Passes
  simp only [ends_enumMember, ends_bind, ends_current, ends_ite, ends_reject, ends_positionOf,
    ends_pure]
  split
  case isTrue => exact (Later.refl r).lost _ _
  case isFalse hname =>
  have hname : isPropertyName r.token = true := by simpa using hname
  refine ends_clause (by simp) hr.toValid
    (Reaches.refl hr.toValid (kind_ne_of_isPropertyName hname))
    (fun hk => hg.expression_after (hr.moves_to hk (by simp))
      (hr.toValid.moved_ahead_ne hk (by simp)))
    fun value r1 _ h1 => h1.mono ?_
  rintro _ ⟨_, v, rfl, rfl, hv⟩
  exact .enumMember hname hv

/-! ## Whole snippets -/

/-- The words of a text: its tokens without the end of the input. -/
def words (text : String) : List Token := (Scan.ofText text).dropLast

theorem Reader.ofText_valid (text : String) (base : Position) :
    (Reader.ofText text base).Valid := by
  obtain ⟨ws, e, htokens, he, hws⟩ := Scan.tokens_ended (utf8Bytes text)
  have h : (Reader.ofText text base).tokens.toList = ws ++ [e] := by
    simpa [Reader.ofText, Scan.ofText] using htokens
  refine ⟨?_, ws, e, h, he, hws⟩
  rw [← Array.length_toList, h]
  simp [Reader.ofText]

/-- What a run leads to that ends with the demand for the end of the snippet. -/
def Finished (S : α → List Token → Prop) (r : Reader) (a : α) (r' : Reader) : Prop :=
  r'.errors.length = r.errors.length → S a r.rest.dropLast

theorem Reader.Reaches.finished {a : α} {r' : Reader} (hr : r.Valid)
    (h : r.Reaches (fun w => S a (r.token :: w)) r') :
    Ends expectEnd (fun _ r'' => r.Later r'' ∧ Finished S r a r'') r.Lost r' := by
  simp only [expectEnd, ends_bind, ends_peek, ends_ite, ends_pure, ends_complain]
  split
  case isFalse =>
    have hlost := h.toLater.lost r'.next (.unexpected r'.next)
    exact ⟨hlost.toLater, fun hq => absurd hq (Nat.ne_of_gt hlost.more)⟩
  case isTrue hend =>
    refine ⟨h.toLater, fun hq => ?_⟩
    obtain ⟨hne, w, hw, hS⟩ := h.passed hq
    have hr' := h.toLater.valid hr
    obtain ⟨hahead, hnext, -⟩ := hr'.ahead_eq hne
    have hlast : r'.moved.ahead = [] := hr'.moved.ahead_eq_nil.mpr (hnext ▸ hend)
    have hrest : r.rest = (r.token :: w) ++ [r'.moved.token] := by
      rw [hr.rest_eq, hw, hahead, hlast, List.cons_append]
    rwa [hrest, List.dropLast_concat]

theorem ends_thenEnd (hr : r.Valid) (h : Passes rule (fun a w => S a (r.token :: w)) r) :
    Ends (thenEnd rule) (Finished S r) r.Lost r := by
  unfold thenEnd
  simp only [ends_bind, ends_pure]
  exact h.from (.refl r) fun a r' ha => (ha.finished hr).mono (fun _ _ hf => hf.2) fun _ hl => hl

theorem ends_toEnd (hr : r.Valid) (h : Passes rule (fun a w => S a (r.token :: w)) r) :
    Ends (toEnd rule) (Finished S r) r.Lost r := by
  unfold toEnd
  simp only [ends_bind, ends_attempt]
  refine h.mono (fun a r' ha => (ha.finished hr).mono
    (fun _ _ hf => (ends_pure a).mpr hf.2) fun _ hl => hl) ?_
  intro r' hlost
  simp only [expectEnd, ends_bind, ends_peek, ends_ite, ends_pure, ends_complain, Option.elim,
    ends_failure]
  split
  · exact hlost
  · exact hlost.toLater.lost _ _

/-- The reading is complete: if no error was recorded there is a tree, and the words of the text
spell it with all its parts. -/
def Reading.Complete (R : Reading α) (S : α → List Token → Prop) (text : String) : Prop :=
  R.errors = [] → ∃ a, R.tree = some a ∧ S a (words text)

theorem complete_read {rule : Grammar → Parse α} {text : String} {base : Position}
    (h : ∀ (g : Grammar) (n : Nat) (r : Reader), g.Reads n → r.Ready n →
      Ends (rule g) (Finished S r) r.Lost r) : (read rule text base).Complete S text := by
  have hvalid := Reader.ofText_valid text base
  have hrun := h (grammar ((Reader.ofText text base).tokens.size + 1)) _ _ (grammar_reads _)
    ⟨hvalid, by omega⟩
  have hrest : (Reader.ofText text base).rest.dropLast = words text := by
    simp [Reader.rest, Reader.ofText, words]
  rw [ends_iff_run] at hrun
  intro herrors
  simp only [read] at herrors ⊢
  split at hrun
  case h_1 a r' hr' =>
    rw [hr'] at herrors ⊢
    have hquiet : r'.errors.length = (Reader.ofText text base).errors.length := by
      rw [List.reverse_eq_nil_iff.mp herrors]
      rfl
    exact ⟨a, rfl, hrest ▸ hrun hquiet⟩
  case h_2 r' hr' =>
    rw [hr'] at herrors
    have hmore := hrun.more
    rw [List.reverse_eq_nil_iff.mp herrors] at hmore
    simp at hmore
  case h_3 => exact hrun.elim

/-- **Readings without errors are complete.** Whatever text is read as whatever kind of snippet: if
no error is recorded there is a tree, and the words of the text spell it, so that no part of it is
missing. -/
theorem readings_complete (text : String) (base : Position) :
    (readType text base).Complete (fun t => Spelled (.type t)) text ∧
    (readExpression text base).Complete (fun e => Spelled (.expression e)) text ∧
    (readSignature text base).Complete (fun s => Spelled (.signature .colon s)) text ∧
    (∀ members, (readMember members text base).Complete
      (fun after ws => ∃ m, after = members.add m ∧ Spelled (.member m) ws) text) ∧
    (readTypeParameter text base).Complete (fun p => Spelled (.typeParameter p)) text ∧
    (readClassField text base).Complete (fun f => Spelled (.field f)) text ∧
    (readEnumMember text base).Complete (fun m => Spelled (.enumMember m)) text := by
  refine ⟨?type, ?expression, ?signature, fun members => ?member, ?typeParameter, ?field,
    ?enumMember⟩
  case type =>
    exact complete_read fun g n r hg hr => ends_toEnd hr.toValid
      (reads_typeRule hg (hr.mono n.le_succ))
  case expression =>
    exact complete_read fun g n r hg hr =>
      ends_toEnd hr.toValid (reads_expressionRule hg (hr.mono n.le_succ) (Nat.le_refl _))
  case signature =>
    exact complete_read fun g n r hg hr =>
      ends_thenEnd hr.toValid (reads_signature hg (hr.mono n.le_succ))
  case member =>
    refine complete_read fun g n r hg hr => ends_thenEnd hr.toValid ?_
    refine (ends_objectMember hg (hr.mono n.le_succ)).mono ?_ fun _ h => h
    rintro _ r' ⟨m, rfl, h⟩
    exact h.mono fun w hw => ⟨m, rfl, hw⟩
  case typeParameter =>
    exact complete_read fun g n r hg hr =>
      ends_thenEnd hr.toValid (reads_typeParameter hg (hr.mono n.le_succ))
  case field =>
    exact complete_read fun g n r hg hr =>
      ends_thenEnd hr.toValid (reads_classField hg (hr.mono n.le_succ))
  case enumMember =>
    exact complete_read fun g n r hg hr =>
      ends_thenEnd hr.toValid (reads_enumMember hg (hr.mono n.le_succ))

/-- A generic call is read without errors, so its tree has the type argument and both arguments. -/
theorem readings_complete_genericCall : (readExpression "f<T>(a, [b, c < d])" {}).errors = [] ∧
    ∃ e, (readExpression "f<T>(a, [b, c < d])" {}).tree = some e ∧
      Spelled (.expression e) (words "f<T>(a, [b, c < d])") := by
  have herrors : (readExpression "f<T>(a, [b, c < d])" {}).errors = [] :=
    List.isEmpty_iff.mp (by decide +kernel)
  exact ⟨herrors, (readings_complete "f<T>(a, [b, c < d])" {}).2.1 herrors⟩

end ShapeCheck.Snippet
