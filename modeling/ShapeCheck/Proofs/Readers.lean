import Mathlib.Data.List.Basic
import ShapeCheck.Snippet

/-!
# Runs of grammar rules

A rule of the grammar is a program over a reader. This file says what such a program comes to, in
the form that all later facts about reading use.

* `Ends` is what a run of a rule leads to, one condition for its success and one for its failure.
  The lemmas tagged `simp` compute it for the steps that every rule is made of.
* `Reader.rest` and `Reader.ahead` are the tokens from the current one on and after it, and
  `Reader.Valid` says that the last token, and no other, is the end of the input.
* `Reader.Reaches` compares two readers of one run: the second stands later, and if no error was
  recorded in between, the tokens that were passed are of a given form.
-/

namespace ShapeCheck.Snippet

variable {α β σ : Type} {p : Parse α}

/-! ## Where a reader stands -/

namespace Reader

/-- The current token. -/
def token (r : Reader) : Token := r.tokenAt r.place

/-- The token after the current one. -/
def next (r : Reader) : Token := r.tokenAt (r.place + 1)

/-- The reader after a move. -/
def moved (r : Reader) : Reader :=
  if r.place + 1 < r.tokens.size then { r with place := r.place + 1 } else r

/-- The reader after a complaint. -/
def complaining (r : Reader) (t : Token) (p : SyntaxProblem) : Reader :=
  { r with errors := ⟨r.positionOf t, p⟩ :: r.errors }

/-- The tokens from the current one on. -/
def rest (r : Reader) : List Token := r.tokens.toList.drop r.place

/-- The tokens after the current one. -/
def ahead (r : Reader) : List Token := r.tokens.toList.drop (r.place + 1)

/-- The reader stands on one of its tokens, of which the last, and no other, is the end of the
input. -/
structure Valid (r : Reader) : Prop where
  inside : r.place < r.tokens.size
  ended : ∃ ws e, r.tokens.toList = ws ++ [e] ∧ e.kind = .endOfInput ∧
    ∀ t ∈ ws, t.kind ≠ .endOfInput

variable {r r' : Reader} {t u : Token} {ts : List Token}

@[simp] theorem tokens_moved (r : Reader) : r.moved.tokens = r.tokens := by
  unfold moved; split <;> rfl

@[simp] theorem errors_moved (r : Reader) : r.moved.errors = r.errors := by
  unfold moved; split <;> rfl

@[simp] theorem errors_complaining (r : Reader) (t : Token) (p : SyntaxProblem) :
    (r.complaining t p).errors = ⟨r.positionOf t, p⟩ :: r.errors := rfl

theorem ahead_eq_tail (r : Reader) : r.ahead = r.rest.tail := by
  simp [ahead, rest]

theorem length_rest (r : Reader) : r.rest.length = r.tokens.size - r.place := by
  simp [rest]

theorem length_ahead (r : Reader) : r.ahead.length = r.tokens.size - (r.place + 1) := by
  simp [ahead]

theorem tokenAt_eq (h : r.place + i < r.tokens.size) :
    r.rest[i]? = some (r.tokenAt (r.place + i)) := by
  have hmin : min (r.place + i) (r.tokens.size - 1) = r.place + i := by omega
  simp [rest, tokenAt, hmin, Array.getElem?_eq_getElem h]

/-- What the first tokens of the rest say about the current and the next one. -/
theorem token_of_rest (h : r.rest = t :: ts) : r.token = t := by
  have hl := congrArg List.length h
  rw [length_rest, List.length_cons] at hl
  have := tokenAt_eq (r := r) (i := 0) (by omega)
  rw [h] at this
  simpa [token] using this.symm

theorem tokenAt_of_rest (h : r.rest[i]? = some t) : r.tokenAt (r.place + i) = t := by
  obtain ⟨hi, -⟩ := List.getElem?_eq_some_iff.mp h
  rw [length_rest] at hi
  rw [tokenAt_eq (by omega)] at h
  exact Option.some.inj h

theorem next_of_rest (h : r.rest = t :: u :: ts) : r.next = u :=
  tokenAt_of_rest (i := 1) (by rw [h]; rfl)

theorem ahead_of_rest (h : r.rest = t :: ts) : r.ahead = ts := by
  rw [ahead_eq_tail, h, List.tail_cons]

theorem rest_moved_of_rest (h : r.rest = t :: u :: ts) : r.moved.rest = u :: ts := by
  have hl := congrArg List.length h
  rw [length_rest] at hl
  simp only [List.length_cons] at hl
  have hmoved : r.moved = { r with place := r.place + 1 } := if_pos (by omega)
  rw [hmoved]
  show r.ahead = _
  exact ahead_of_rest h

theorem rest_moved (h : r.rest = t :: ts) (hne : ts ≠ []) : r.moved.rest = ts := by
  obtain ⟨u, us, rfl⟩ := List.exists_cons_of_ne_nil hne
  exact rest_moved_of_rest h

namespace Valid

theorem rest_eq (h : r.Valid) : r.rest = r.token :: r.ahead := by
  have hl := r.length_rest
  obtain ⟨t, ts, ht⟩ := List.exists_cons_of_ne_nil (l := r.rest) (by
    intro hnil
    rw [hnil] at hl
    have := h.inside
    simp only [List.length_nil] at hl
    omega)
  rw [ht, token_of_rest ht, ahead_of_rest ht]

/-- The end of the input is where no token is ahead. -/
theorem ahead_eq_nil (h : r.Valid) : r.ahead = [] ↔ r.token.kind = .endOfInput := by
  obtain ⟨ws, e, htokens, he, hws⟩ := h.ended
  have hsize : r.tokens.size = ws.length + 1 := by
    rw [← Array.length_toList, htokens, List.length_append, List.length_singleton]
  have hinside := h.inside
  have hrest : r.rest = ws.drop r.place ++ [e] := by
    rw [rest, htokens, List.drop_append_of_le_length (by omega)]
  rcases hd : ws.drop r.place with _ | ⟨t, ts⟩
  · rw [hd, List.nil_append] at hrest
    simp only [ahead_of_rest hrest, token_of_rest hrest, he]
  · rw [hd, List.cons_append] at hrest
    have ht : t ∈ ws := List.mem_of_mem_drop (hd ▸ List.mem_cons_self)
    simp only [ahead_of_rest hrest, token_of_rest hrest, hws t ht, List.append_eq_nil_iff,
      List.cons_ne_nil, and_false]

/-- The next token is the end of the input, or the reader can move to it. -/
theorem ahead_eq (h : r.Valid) (hne : r.ahead ≠ []) :
    r.ahead = r.moved.token :: r.moved.ahead ∧ r.next = r.moved.token ∧
      r.moved.place = r.place + 1 := by
  obtain ⟨t, ts, ht⟩ := List.exists_cons_of_ne_nil hne
  have hrest := h.rest_eq
  rw [ht] at hrest
  have hmoved := rest_moved_of_rest hrest
  refine ⟨by rw [ht, token_of_rest hmoved, ahead_of_rest hmoved], ?_, ?_⟩
  · rw [token_of_rest hmoved, next_of_rest hrest]
  · have hl := r.length_ahead
    rw [ht, List.length_cons] at hl
    rw [moved, if_pos (by omega)]

theorem ahead_ne (h : r.Valid) (hk : r.token.kind ≠ .endOfInput) : r.ahead ≠ [] :=
  fun hnil => hk (h.ahead_eq_nil.mp hnil)

/-- Past the end of the input the next token is the end itself. -/
theorem ahead_ne_of_next (h : r.Valid) (hk : r.next.kind ≠ .endOfInput) : r.ahead ≠ [] := by
  intro hnil
  have hl := r.length_ahead
  rw [hnil, List.length_nil] at hl
  have hinside := h.inside
  have hsame : r.next = r.token := by
    simp only [next, token, tokenAt,
      show min (r.place + 1) (r.tokens.size - 1) = min r.place (r.tokens.size - 1) by omega]
  exact hk (hsame ▸ h.ahead_eq_nil.mp hnil)

theorem moved (h : r.Valid) : r.moved.Valid := by
  refine ⟨?_, by simpa using h.ended⟩
  have := h.inside
  unfold Reader.moved
  split <;> assumption

/-- A token that is looked at and is not the end of the input is the one a move leads to. -/
theorem next_eq (h : r.Valid) (hk : r.next.kind ≠ .endOfInput) : r.next = r.moved.token :=
  (h.ahead_eq (h.ahead_ne_of_next hk)).2.1

theorem tokenAt_two (h : r.Valid) (hk : r.next.kind ≠ .endOfInput) :
    r.tokenAt (r.place + 2) = r.moved.next := by
  rw [Reader.next, (h.ahead_eq (h.ahead_ne_of_next hk)).2.2, tokenAt, tokenAt, tokens_moved]

end Valid

/-! ## Later readers -/

/-- The second reader is one that a run from the first may lead to. -/
structure Later (r r' : Reader) : Prop where
  tokens : r'.tokens = r.tokens
  place : r.place ≤ r'.place
  inside : r.place < r.tokens.size → r'.place < r.tokens.size
  errors : r.errors.length ≤ r'.errors.length

/-- The second reader is a later one and has recorded more errors. -/
structure Lost (r r' : Reader) : Prop extends Later r r' where
  more : r.errors.length < r'.errors.length

/-- The second reader is a later one and stands on a later token. -/
structure Past (r r' : Reader) : Prop extends Later r r' where
  further : r.place < r'.place

namespace Later

@[refl] theorem refl (r : Reader) : r.Later r := ⟨rfl, Nat.le_refl _, id, Nat.le_refl _⟩

@[trans] theorem trans {r1 r2 r3 : Reader} (h : r1.Later r2) (h' : r2.Later r3) : r1.Later r3 :=
  ⟨h'.tokens.trans h.tokens, Nat.le_trans h.place h'.place,
    fun hi => h.tokens ▸ h'.inside (h.tokens ▸ h.inside hi), Nat.le_trans h.errors h'.errors⟩

theorem moved (h : r.Later r') : r.Later r'.moved := by
  refine h.trans ⟨by simp, ?_, ?_, by simp⟩ <;> unfold Reader.moved <;> split <;> simp_all

/-- A complaint loses the run. -/
theorem lost (h : r.Later r') (t : Token) (p : SyntaxProblem) : r.Lost (r'.complaining t p) :=
  ⟨⟨h.tokens, h.place, h.inside, by have := h.errors; simp; omega⟩,
    by have := h.errors; simp; omega⟩

theorem valid (h : r.Later r') (hr : r.Valid) : r'.Valid :=
  ⟨by rw [h.tokens]; exact h.inside hr.inside, by rw [h.tokens]; exact hr.ended⟩

theorem past (h : r.moved.Later r') (hr : r.Valid) (hne : r.ahead ≠ []) : r.Past r' :=
  ⟨(refl r).moved.trans h, by have := (hr.ahead_eq hne).2.2; have := h.place; omega⟩

end Later

theorem Past.moved (h : r.Past r') : r.Past r'.moved := by
  refine ⟨h.toLater.moved, Nat.lt_of_lt_of_le h.further ?_⟩
  exact ((Later.refl r').moved).place

theorem Lost.moved (h : r.Lost r') : r.Lost r'.moved :=
  ⟨h.toLater.moved, by simpa using h.more⟩

theorem Lost.after {r0 : Reader} (h : r.Lost r') (h0 : r0.Later r) : r0.Lost r' :=
  ⟨h0.trans h.toLater, Nat.lt_of_le_of_lt h0.errors h.more⟩

/-- A run from the first reader led to the second. If no error was recorded on the way, the second
does not stand on the end of the input and the tokens after the first one up to and including the
second one are as stated. -/
structure Reaches (r : Reader) (P : List Token → Prop) (r' : Reader) : Prop extends Later r r' where
  passed : r'.errors.length = r.errors.length → r'.ahead ≠ [] ∧ ∃ w, r.ahead = w ++ r'.ahead ∧ P w

namespace Reaches

variable {r1 r2 r3 : Reader} {P P' Q : List Token → Prop}

theorem refl (h : r.Valid) (hk : r.token.kind ≠ .endOfInput) : r.Reaches (· = []) r :=
  ⟨.refl r, fun _ => ⟨h.ahead_ne hk, [], rfl, rfl⟩⟩

theorem mono (h : r.Reaches P r') (hP : ∀ w, P w → Q w) : r.Reaches Q r' :=
  ⟨h.toLater, fun hq => (h.passed hq).imp_right fun ⟨w, hw, hp⟩ => ⟨w, hw, hP w hp⟩⟩

/-- Whatever is claimed of the tokens of a run that is lost. -/
theorem of_lost (h : r.Lost r') : r.Reaches P r' :=
  ⟨h.toLater, fun hq => absurd hq (Nat.ne_of_gt h.more)⟩

theorem trans (h : r1.Reaches P r2) (h' : r2.Reaches P' r3) :
    r1.Reaches (fun w => ∃ u v, w = u ++ v ∧ P u ∧ P' v) r3 := by
  refine ⟨h.toLater.trans h'.toLater, fun hq => ?_⟩
  have := h.errors
  have := h'.errors
  obtain ⟨-, u, hu, hp⟩ := h.passed (by omega)
  obtain ⟨hne, v, hv, hp'⟩ := h'.passed (by omega)
  exact ⟨hne, u ++ v, by rw [hu, hv, List.append_assoc], u, v, rfl, hp, hp'⟩

/-- A move in front of a run. -/
theorem cons (hr : r.Valid) (hne : r.ahead ≠ []) (h : r.moved.Reaches P r') :
    r.Reaches (fun w => ∃ v, w = r.moved.token :: v ∧ P v) r' := by
  refine ⟨(Later.refl r).moved.trans h.toLater, fun hq => ?_⟩
  obtain ⟨hne', v, hv, hp⟩ := h.passed (by simpa using hq)
  exact ⟨hne', _, by rw [(hr.ahead_eq hne).1, hv, List.cons_append], v, rfl, hp⟩

/-- A run, a move and another run. -/
theorem step (hr : r1.Valid) (h : r1.Reaches P r2) (h' : r2.moved.Reaches P' r3) :
    r1.Reaches (fun w => ∃ u v, w = u ++ r2.moved.token :: v ∧ P u ∧ P' v) r3 := by
  refine ⟨h.toLater.moved.trans h'.toLater, fun hq => ?_⟩
  have := h.errors
  have := h'.errors
  have hmoved : r2.moved.errors.length = r2.errors.length := by simp
  obtain ⟨hne2, u, hu, hp⟩ := h.passed (by omega)
  obtain ⟨hne, v, hv, hp'⟩ := h'.passed (by omega)
  have hr2 := h.toLater.valid hr
  exact ⟨hne, u ++ r2.moved.token :: v,
    by rw [hu, (hr2.ahead_eq hne2).1, hv, List.append_assoc, List.cons_append], u, v, rfl, hp, hp'⟩

/-- A run and a move to a token that is not the end of the input. -/
theorem snoc (hr : r1.Valid) (h : r1.Reaches P r2) (hk : r2.next.kind ≠ .endOfInput) :
    r1.Reaches (fun w => ∃ u, w = u ++ [r2.next] ∧ P u) r2.moved := by
  have hr2 := h.toLater.valid hr
  have hnext := hr2.next_eq hk
  refine (h.step hr (refl hr2.moved (hnext ▸ hk))).mono ?_
  rintro _ ⟨u, _, rfl, hp, rfl⟩
  exact ⟨u, by rw [hnext], hp⟩

/-- A run, a token that is not the end of the input, and a rule behind it. -/
theorem behind (hr : r1.Valid) (h : r1.Reaches P r2) (hk : r2.next.kind ≠ .endOfInput)
    (h' : r2.moved.moved.Reaches P' r3) :
    r1.Reaches (fun w => ∃ u v, w = u ++ r2.next :: r2.moved.moved.token :: v ∧ P u ∧ P' v) r3 := by
  have hr2 := h.toLater.valid hr
  have hnext := hr2.next_eq hk
  refine (h.step hr (h'.cons hr2.moved (hr2.moved.ahead_ne (hnext ▸ hk)))).mono ?_
  rintro _ ⟨u, _, rfl, hu, v, rfl, hv⟩
  exact ⟨u, v, by rw [hnext], hu, hv⟩

end Reaches

end Reader

/-! ## Runs -/

open Reader

theorem run_bind (p : Parse β) (f : β → Parse α) (r : Reader) : (p >>= f).run r =
    match p.run r with
    | some (some b, r') => (f b).run r'
    | some (none, r') => some (none, r')
    | none => none := by
  simp only [OptionT.run_bind, Option.elimM]
  show (p.run r).bind _ = _
  rcases (p.run r : Option (Option β × Reader)) with _ | ⟨_ | b, r'⟩ <;> rfl

theorem run_attempt (p : Parse α) (r : Reader) :
    (attempt p).run r = (p.run r).map fun x => (some x.1, x.2) := by
  show (p.run r).bind _ = _
  rcases (p.run r : Option (Option α × Reader)) with _ | ⟨a, r'⟩ <;> rfl

/-- A run of the rule from the reader succeeds with a value and a reader as the first condition
says, or fails with a reader as the second one says. It does not run out of steps. -/
def Ends (p : Parse α) (won : α → Reader → Prop) (lost : Reader → Prop) (r : Reader) : Prop :=
  match p.run r with
  | some (some a, r') => won a r'
  | some (none, r') => lost r'
  | none => False

section Steps

variable {won : α → Reader → Prop} {lost : Reader → Prop} {r : Reader}

theorem Ends.mono {won' : α → Reader → Prop} {lost' : Reader → Prop}
    (h : Ends p won lost r) (hwon : ∀ a r', won a r' → won' a r')
    (hlost : ∀ r', lost r' → lost' r') : Ends p won' lost' r := by
  unfold Ends at h ⊢
  split <;> simp_all

theorem ends_iff_run : Ends p won lost r ↔
    match p.run r with
    | some (some a, r') => won a r'
    | some (none, r') => lost r'
    | none => False := Iff.rfl

theorem Ends.run (h : Ends p won (fun _ => False) r) :
    ∃ a r', p.run r = some (some a, r') ∧ won a r' := by
  unfold Ends at h
  split at h
  · exact ⟨_, _, ‹_›, h⟩
  · exact h.elim
  · exact h.elim

@[simp] theorem ends_pure (a : α) : Ends (pure a) won lost r ↔ won a r := Iff.rfl

@[simp] theorem ends_failure : Ends (failure : Parse α) won lost r ↔ lost r := Iff.rfl

@[simp] theorem ends_bind (p : Parse β) (f : β → Parse α) :
    Ends (p >>= f) won lost r ↔ Ends p (fun b r' => Ends (f b) won lost r') lost r := by
  unfold Ends
  rw [run_bind]
  rcases (p.run r : Option (Option β × Reader)) with _ | ⟨_ | b, r'⟩ <;> rfl

@[simp] theorem ends_map (p : Parse β) (f : β → α) :
    Ends (f <$> p) won lost r ↔ Ends p (fun b r' => won (f b) r') lost r := by
  rw [map_eq_pure_bind, ends_bind]
  simp only [ends_pure]

@[simp] theorem ends_ite (c : Prop) [Decidable c] (p q : Parse α) :
    Ends (if c then p else q) won lost r ↔ if c then Ends p won lost r else Ends q won lost r := by
  split <;> rfl

@[simp] theorem ends_attempt (p : Parse α) (won : Option α → Reader → Prop) :
    Ends (attempt p) won lost r ↔
      Ends p (fun a r' => won (some a) r') (fun r' => won none r') r := by
  unfold Ends
  rw [run_attempt]
  rcases (p.run r : Option (Option α × Reader)) with _ | ⟨_ | a, r'⟩ <;> rfl

@[simp] theorem ends_get (won : Reader → Reader → Prop) : Ends get won lost r ↔ won r r := Iff.rfl

@[simp] theorem ends_set (won : PUnit → Reader → Prop) (s : Reader) :
    Ends (set s) won lost r ↔ won ⟨⟩ s := Iff.rfl

@[simp] theorem ends_current (won : Token → Reader → Prop) :
    Ends current won lost r ↔ won r.token r := Iff.rfl

@[simp] theorem ends_peek (won : Token → Reader → Prop) :
    Ends peek won lost r ↔ won r.next r := Iff.rfl

@[simp] theorem ends_peekAt (won : Token → Reader → Prop) (n : Nat) :
    Ends (peekAt n) won lost r ↔ won (r.tokenAt (r.place + n)) r := Iff.rfl

@[simp] theorem ends_currentIs (won : Bool → Reader → Prop) (k : TokenKind) :
    Ends (currentIs k) won lost r ↔ won (decide (r.token.kind = k)) r := Iff.rfl

@[simp] theorem ends_currentIsSymbol (won : Bool → Reader → Prop) (s : Symbol) :
    Ends (currentIsSymbol s) won lost r ↔ won (decide (r.token.kind = .symbol s)) r := Iff.rfl

@[simp] theorem ends_peekIs (won : Bool → Reader → Prop) (k : TokenKind) :
    Ends (peekIs k) won lost r ↔ won (decide (r.next.kind = k)) r := Iff.rfl

@[simp] theorem ends_peekIsSymbol (won : Bool → Reader → Prop) (s : Symbol) :
    Ends (peekIsSymbol s) won lost r ↔ won (decide (r.next.kind = .symbol s)) r := Iff.rfl

@[simp] theorem ends_positionOf (won : Position → Reader → Prop) (t : Token) :
    Ends (positionOf t) won lost r ↔ won (r.positionOf t) r := Iff.rfl

@[simp] theorem ends_siteOf (won : Site → Reader → Prop) (t : Token) :
    Ends (siteOf t) won lost r ↔ won { position := r.positionOf t } r := Iff.rfl

@[simp] theorem ends_parenFollowedBy (won : Bool → Reader → Prop) (ks : List TokenKind) :
    Ends (parenFollowedBy ks) won lost r ↔ won (closesBefore ks 0 r.rest) r := Iff.rfl

@[simp] theorem ends_advance (won : Unit → Reader → Prop) :
    Ends advance won lost r ↔ won () r.moved := Iff.rfl

@[simp] theorem ends_complain (won : Unit → Reader → Prop) (t : Token) (p : SyntaxProblem) :
    Ends (complain t p) won lost r ↔ won () (r.complaining t p) := Iff.rfl

@[simp] theorem ends_reject (t : Token) (p : SyntaxProblem) :
    Ends (reject t p) won lost r ↔ lost (r.complaining t p) := Iff.rfl

@[simp] theorem ends_rejectNext (k : TokenKind) :
    Ends (rejectNext k) won lost r ↔ lost (r.complaining r.next (.expected k r.next)) := Iff.rfl

@[simp] theorem ends_expect (won : Unit → Reader → Prop) (k : TokenKind) :
    Ends (expect k) won lost r ↔
      if r.next.kind = k then won () r.moved
      else lost (r.complaining r.next (.expected k r.next)) := by
  simp [expect]

@[simp] theorem ends_expectSymbol (won : Unit → Reader → Prop) (s : Symbol) :
    Ends (expectSymbol s) won lost r ↔
      if r.next.kind = .symbol s then won () r.moved
      else lost (r.complaining r.next (.expected (.symbol s) r.next)) :=
  ends_expect won (.symbol s)

end Steps

-- Runs are reasoned about through the lemmas above only: unfolded, they compute.
attribute [irreducible] Ends

/-! ## Loops -/

/-- A loop keeps what its rounds keep. The rounds do not run out, since each passes a token. -/
theorem ends_loop {won : α → Reader → Prop} {lost : Reader → Prop} {r : Reader}
    {step : σ → Parse (σ ⊕ α)} {start : σ} (I : σ → Reader → Prop) (hr : r.Valid)
    (hstart : I start r)
    (hstep : ∀ s r', r.Later r' → I s r' → Ends (step s)
      (fun x r'' => match x with
        | .inl s' => I s' r'' ∧ r'.Past r''
        | .inr a => won a r'') lost r') :
    Ends (loop start step) won lost r := by
  have hrounds : ∀ n s r', r.Later r' → I s r' → r.tokens.size < r'.place + n →
      Ends (rounds step n s) won lost r' := by
    intro n
    induction n with
    | zero =>
      intro s r' hl _ hn
      have := hl.inside hr.inside
      omega
    | succ n ih =>
      intro s r' hl hI hn
      rw [rounds, ends_bind]
      refine (hstep s r' hl hI).mono (fun x r'' hx => ?_) fun _ h => h
      cases x with
      | inr a => exact (ends_pure a).mpr hx
      | inl s' =>
        have := hx.2.further
        exact ih s' r'' (hl.trans hx.2.toLater) hx.1 (by omega)
  rw [loop, ends_bind, ends_get]
  exact hrounds _ _ _ (.refl r) hstart (by omega)

end ShapeCheck.Snippet
