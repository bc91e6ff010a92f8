import ShapeCheck.Check.Expression
import ShapeCheck.Proofs.Persistence
import Mathlib.Data.List.Forall2

/-!
# What checking leaves behind

A part of a program is checked in the innermost frame of an environment. Frames that it opens are
closed again, so of the environments that were there it changes that one frame, and nothing else.
The table of types is added to, and while checking is quiet nothing is recorded. Only the inference
of a result type, which checks another function in an environment of its own, gives a global name
another declared type.

* `Session.Kept` says that a session changed no more than that, in a sense that depends on whether
  all result types are settled.
* An `Effect` is what work may do to a session. The steps that checks are made of have it, and so
  does work before and after other work.
* `Check.Leaves` says of work in a session that it has an effect. `Effect.kept` is the effect of
  changing no more than `Session.Kept` says.
-/

namespace ShapeCheck

variable {α β : Type} {i : Nat} {change : List Frame → List Frame}
  {name : String} {x work : Check α}
  {f : α → Check β} {w : Walker} {s s' : Session} {b : Bindings} {a : α} {as : List α}

namespace Bindings

/-- The bindings of some names. -/
def only (keep : String → Bool) (b : Bindings) : Bindings := b.filter fun p => keep p.1

variable {keep : String → Bool} {t : Ty}

theorem only_map_of_not (h : keep name = false) :
    only keep (b.map fun (n, u) => if n = name then (n, t) else (n, u)) = only keep b := by
  induction b with
  | nil => rfl
  | cons p b ih =>
    obtain ⟨n, u⟩ := p
    unfold only at ih ⊢
    by_cases hn : n = name
    · subst hn
      simpa [List.filter_cons, h] using ih
    · simp only [List.map_cons, List.filter_cons, if_neg hn, ih]

theorem only_put (h : keep name = false) : only keep (b.put name t) = only keep b := by
  unfold put
  split
  · exact only_map_of_not h
  · simp [only, h]

theorem lookup_only (h : keep name = true) : (only keep b).lookup name = b.lookup name := by
  induction b with
  | nil => rfl
  | cons p b ih =>
    obtain ⟨n, u⟩ := p
    unfold only at ih ⊢
    by_cases hn : name = n
    · subst hn
      simp [h]
    · have hne : (name == n) = false := by simpa using hn
      by_cases hk : keep n = true
      · simp only [List.filter_cons, hk, if_true, List.lookup_cons, hne, ih]
      · simp only [List.filter_cons, hk, Bool.false_eq_true, if_false, List.lookup_cons, hne, ih]

end Bindings

/-- What may become of the innermost frame of an environment. -/
structure Change where
  /-- The names whose narrowings stay as they are. -/
  fixes : String → Bool
  declares : Bool

namespace Change

/-- Some names may be narrowed. -/
def narrowing (names : List String) : Change := ⟨fun n => !names.contains n, false⟩

/-- Names may be declared, and some may be narrowed. -/
def declaring (names : List String) : Change := ⟨fun n => !names.contains n, true⟩

/-- Everything may change. -/
def any : Change := ⟨fun _ => false, true⟩

end Change

namespace Frame

/-- A frame that narrows the same names to the same types. If all result types are settled, it
declares the same values too. -/
def Like (settled : Prop) (f f' : Frame) : Prop :=
  f'.narrowings = f.narrowings ∧ (settled → f'.values = f.values)

/-- A frame that differs by a change. -/
def Changed (settled : Prop) (C : Change) (f f' : Frame) : Prop :=
  Bindings.only C.fixes f'.narrowings = Bindings.only C.fixes f.narrowings ∧
    (settled → C.declares = false → f'.values = f.values)

variable {settled : Prop} {C : Change} {f g h : Frame}

theorem Like.refl (f : Frame) : f.Like settled f := ⟨rfl, fun _ => rfl⟩

theorem Like.trans (hfg : f.Like settled g) (hgh : g.Like settled h) : f.Like settled h :=
  ⟨hgh.1.trans hfg.1, fun hs => (hgh.2 hs).trans (hfg.2 hs)⟩

theorem Like.changed (hfg : f.Like settled g) : f.Changed settled C g :=
  ⟨by rw [hfg.1], fun hs _ => hfg.2 hs⟩

theorem Changed.trans (hfg : f.Changed settled C g) (hgh : g.Changed settled C h) :
    f.Changed settled C h :=
  ⟨hgh.1.trans hfg.1, fun hs hd => (hgh.2 hs hd).trans (hfg.2 hs hd)⟩

end Frame

/-- Frames that narrow and declare alike, one by one. -/
abbrev Frames.Like (settled : Prop) : List Frame → List Frame → Prop :=
  List.Forall₂ (Frame.Like settled)

theorem Frames.Like.refl {settled : Prop} (fs : List Frame) : Frames.Like settled fs fs :=
  List.forall₂_same.2 fun f _ => .refl f

namespace Scopes

/-- The environments that there were have as many frames as before. The innermost frame of one of
them differs by `own`, the others in the way allowed for their environment. -/
structure Differ (like : Nat → Frame → Frame → Prop) (own : Frame → Frame → Prop) (e : Nat)
    (σ σ' : Scopes) : Prop where
  grows : σ.environments.size ≤ σ'.environments.size
  outer : ∀ i < σ.environments.size,
    (σ'.environments[i]?).bind Environment.outer = (σ.environments[i]?).bind Environment.outer
  others : ∀ i < σ.environments.size, i ≠ e →
    List.Forall₂ (like i) (σ.framesOf i) (σ'.framesOf i)
  own : ∀ f rest, σ.framesOf e = f :: rest → ∃ f' rest', σ'.framesOf e = f' :: rest' ∧
    own f f' ∧ List.Forall₂ (like e) rest rest'

/-! ### Changing the frames of one environment -/

@[simp] theorem size_modifyFrames (σ : Scopes) (e : Nat) (change : List Frame → List Frame) :
    (σ.modifyFrames e change).environments.size = σ.environments.size := by
  simp [modifyFrames]

theorem outer_modifyFrames (σ : Scopes) (e : Nat) (change : List Frame → List Frame) (i : Nat) :
    ((σ.modifyFrames e change).environments[i]?).bind Environment.outer =
      (σ.environments[i]?).bind Environment.outer := by
  unfold modifyFrames
  rw [Array.getElem?_modify]
  split
  · cases σ.environments[i]? <;> rfl
  · rfl

theorem framesOf_modifyFrames_of_ne (σ : Scopes) {e : Nat} (change : List Frame → List Frame)
    (h : i ≠ e) : (σ.modifyFrames e change).framesOf i = σ.framesOf i := by
  unfold framesOf modifyFrames
  rw [Array.getElem?_modify, if_neg (Ne.symm h)]

/-- A change that leaves no frames where there are none. -/
theorem framesOf_modifyFrames (σ : Scopes) (e : Nat)
    (h : change [] = []) : (σ.modifyFrames e change).framesOf e = change (σ.framesOf e) := by
  unfold framesOf modifyFrames
  rw [Array.getElem?_modify, if_pos rfl]
  cases σ.environments[e]? with
  | none => exact h.symm
  | some env => rfl

theorem framesOf_add_of_lt (σ : Scopes) (outer : Option Nat)
    (h : i < σ.environments.size) : (σ.add outer).2.framesOf i = σ.framesOf i := by
  simp [Scopes.add, framesOf, Array.getElem?_push, h, Nat.ne_of_lt h]

/-! ### Frames that differ -/

variable {like : Nat → Frame → Frame → Prop} {own own' : Frame → Frame → Prop} {e : Nat}
  {σ σ' σ'' : Scopes}

theorem Differ.trans (hlike : ∀ i ⦃f g h⦄, like i f g → like i g h → like i f h)
    (hown : ∀ ⦃f g h⦄, own f g → own g h → own f h)
    (h : σ.Differ like own e σ') (h' : σ'.Differ like own e σ'') : σ.Differ like own e σ'' where
  grows := Nat.le_trans h.grows h'.grows
  outer i hi := (h'.outer i (Nat.lt_of_lt_of_le hi h.grows)).trans (h.outer i hi)
  others i hi hne :=
    forall₂_trans (hlike i) (h.others i hi hne) (h'.others i (Nat.lt_of_lt_of_le hi h.grows) hne)
  own f rest hf := by
    obtain ⟨f', rest', hf', hc, hl⟩ := h.own f rest hf
    obtain ⟨f'', rest'', hf'', hc', hl'⟩ := h'.own f' rest' hf'
    exact ⟨f'', rest'', hf'', hown hc hc', forall₂_trans (hlike e) hl hl'⟩

theorem Differ.modifyInnermost (hlike : ∀ i f, like i f f) {change : Frame → Frame}
    (h : ∀ f, own f (change f)) : σ.Differ like own e (σ.modifyInnermost e change) where
  grows := Nat.le_of_eq (size_modifyFrames ..).symm
  outer i _ := outer_modifyFrames ..
  others i _ hne := by
    rw [Scopes.modifyInnermost, framesOf_modifyFrames_of_ne _ _ hne]
    exact List.forall₂_same.2 fun f _ => hlike i f
  own f rest hf := by
    refine ⟨change f, rest, ?_, h f, List.forall₂_same.2 fun f _ => hlike e f⟩
    rw [Scopes.modifyInnermost, framesOf_modifyFrames _ _ rfl, hf]

section Alike

variable (hown : ∀ ⦃f f'⦄, like e f f' → own f f')
include hown

/-- Frames that are alike in all environments. -/
theorem Differ.of_alike (hgrows : σ.environments.size ≤ σ'.environments.size)
    (houter : ∀ i < σ.environments.size,
      (σ'.environments[i]?).bind Environment.outer = (σ.environments[i]?).bind Environment.outer)
    (h : ∀ i < σ.environments.size, List.Forall₂ (like i) (σ.framesOf i) (σ'.framesOf i)) :
    σ.Differ like own e σ' where
  grows := hgrows
  outer := houter
  others i hi _ := h i hi
  own f rest hf := by
    have he : e < σ.environments.size := by
      by_contra hlt
      simp [framesOf, hlt] at hf
    have halike := h e he
    rw [hf] at halike
    cases hf' : σ'.framesOf e with
    | nil => rw [hf'] at halike; cases halike
    | cons f' rest' =>
      rw [hf'] at halike
      cases halike with
      | cons hff hrest => exact ⟨f', rest', rfl, hown hff, hrest⟩

theorem Differ.refl (hlike : ∀ i f, like i f f) (σ : Scopes) : σ.Differ like own e σ :=
  .of_alike hown (Nat.le_refl _) (fun _ _ => rfl) fun i _ =>
    List.forall₂_same.2 fun f _ => hlike i f

/-- Frames that are alike in some environment, changed by what leaves no frames where there are
none. -/
theorem Differ.modifyFrames (hlike : ∀ i f, like i f f)
    (h : ∀ fs, List.Forall₂ (like i) fs (change fs)) :
    σ.Differ like own e (σ.modifyFrames i change) := by
  refine .of_alike hown (Nat.le_of_eq (size_modifyFrames ..).symm)
    (fun _ _ => outer_modifyFrames ..) fun j _ => ?_
  by_cases hj : j = i
  · subst hj
    rw [framesOf_modifyFrames _ _ (List.forall₂_nil_left_iff.1 (h []))]
    exact h _
  · rw [framesOf_modifyFrames_of_ne _ _ hj]
    exact List.forall₂_same.2 fun f _ => hlike j f

/-- Frames opened and closed around work that changes the opened frame in any way. -/
theorem Differ.frame (h : (σ.enter e).Differ like own' e σ') : σ.Differ like own e (σ'.exit e) where
  grows := by
    have := h.grows
    simpa [Scopes.enter, Scopes.exit] using this
  outer i hi := by
    have := h.outer i (by simpa [Scopes.enter] using hi)
    rw [Scopes.enter, outer_modifyFrames] at this
    rw [Scopes.exit, outer_modifyFrames, this]
  others i hi hne := by
    have := h.others i (by simpa [Scopes.enter] using hi) hne
    rw [Scopes.enter, framesOf_modifyFrames_of_ne _ _ hne] at this
    rwa [Scopes.exit, framesOf_modifyFrames_of_ne _ _ hne]
  own f rest hf := by
    have hentered : (σ.enter e).framesOf e = {} :: f :: rest := by
      unfold Scopes.enter framesOf Scopes.modifyFrames
      unfold framesOf at hf
      rw [Array.getElem?_modify, if_pos rfl]
      cases henv : σ.environments[e]? with
      | none => simp [henv] at hf
      | some env => simpa [henv] using hf
    obtain ⟨_, rest', hf', -, hl⟩ := h.own _ _ hentered
    cases hl with
    | cons hff hrest =>
      refine ⟨_, _, ?_, hown hff, hrest⟩
      rw [Scopes.exit, framesOf_modifyFrames _ _ rfl, hf']

/-- Work in a new environment changes none of those that were there but as all frames may
change. -/
theorem Differ.unit {outer : Option Nat}
    (h : (σ.add outer).2.Differ like own' (σ.add outer).1 σ') : σ.Differ like own e σ' := by
  have hsize : (σ.add outer).2.environments.size = σ.environments.size + 1 := by
    simp [Scopes.add]
  refine .of_alike hown (by have := h.grows; omega) (fun i hi => ?_) fun i hi => ?_
  · rw [h.outer i (by omega)]
    simp [Scopes.add, Array.getElem?_push, Nat.ne_of_lt hi]
  · have := h.others i (by omega) (Nat.ne_of_lt hi)
    rwa [framesOf_add_of_lt σ outer hi] at this

end Alike

/-! ### Frames that are kept -/

/-- The environments that there were are as before, but for a change of the innermost frame of one
of them. -/
structure Kept (settled : Prop) (C : Change) (e : Nat) (σ σ' : Scopes) : Prop extends
    Differ (fun _ => Frame.Like settled) (Frame.Changed settled C) e σ σ' where
  size : settled → σ'.environments.size = σ.environments.size

variable {settled : Prop} {C : Change}

theorem Kept.refl (σ : Scopes) : σ.Kept settled C e σ :=
  ⟨.refl (fun _ _ => Frame.Like.changed) (fun _ => .refl) σ, fun _ => rfl⟩

theorem Kept.trans (h : σ.Kept settled C e σ') (h' : σ'.Kept settled C e σ'') :
    σ.Kept settled C e σ'' where
  toDiffer := h.toDiffer.trans (fun _ _ _ _ => .trans) (fun _ _ _ => .trans) h'.toDiffer
  size hs := (h'.size hs).trans (h.size hs)

theorem Kept.modifyInnermost {change : Frame → Frame}
    (h : ∀ f : Frame, f.Changed settled C (change f)) :
    σ.Kept settled C e (σ.modifyInnermost e change) :=
  ⟨.modifyInnermost (fun _ => .refl) h, fun _ => size_modifyFrames ..⟩

theorem Kept.defineInnermost {v : ValueDecl} (h : C.declares = true) :
    σ.Kept settled C e (σ.define e name v).2 := by
  unfold Scopes.define
  split
  · exact .refl _
  · exact .modifyInnermost fun _ => ⟨rfl, fun _ hd => by simp [h] at hd⟩

theorem Kept.frame (h : (σ.enter e).Kept settled .any e σ') :
    σ.Kept settled C e (σ'.exit e) where
  toDiffer := h.toDiffer.frame fun _ _ => Frame.Like.changed
  size hs := by
    have := h.size hs
    simpa [Scopes.enter, Scopes.exit] using this

end Scopes

namespace Session

/-- No result type is still to be inferred. -/
def Settled (s : Session) : Prop := ∀ p ∈ s.pending, p.progress ≠ .waiting

/-- Of the environments that there were only the innermost frame of the walker's changed. If all
result types are settled, nothing else changed but the table of types and what was recorded, and
the latter only if checking is not quiet. -/
structure Kept (settled : Prop) (C : Change) (w : Walker) (s s' : Session) : Prop where
  scopes : s.scopes.Kept settled C w.environment s'.scopes
  table : s.table.Keeps s'.table
  rest : settled → s' = { s with
    table := s'.table, scopes := s'.scopes, findings := s'.findings, recorded := s'.recorded }
  quiet : settled → w.quiet = true → s'.findings = s.findings ∧ s'.recorded = s.recorded

variable {settled : Prop} {C : Change} {s'' : Session}

theorem Kept.refl (s : Session) : s.Kept settled C w s :=
  ⟨.refl _, .refl _, fun _ => rfl, fun _ _ => ⟨rfl, rfl⟩⟩

theorem Kept.trans (h : s.Kept settled C w s') (h' : s'.Kept settled C w s'') :
    s.Kept settled C w s'' where
  scopes := h.scopes.trans h'.scopes
  table := h.table.trans h'.table
  rest hs := by rw [h'.rest hs, h.rest hs]
  quiet hs hq := ⟨(h'.quiet hs hq).1.trans (h.quiet hs hq).1,
    (h'.quiet hs hq).2.trans (h.quiet hs hq).2⟩

theorem Kept.remains (h : s.Kept settled C w s') (hs : settled) (hset : s.Settled) :
    s'.Settled := by
  rw [h.rest hs]
  exact hset

end Session

/-- What work may do to a session. The fields say that it may do nothing, several things in turn,
and each of the steps that the check of an expression takes. -/
structure Effect where
  starts : Session → Prop
  /-- How the session may differ afterwards, if the innermost frame may change in the given way. -/
  change : Change → Walker → Session → Session → Prop
  remains : ∀ {C w s s'}, change C w s s' → starts s → starts s'
  starts_scopes : ∀ {s : Session} {σ : Scopes}, starts s → starts { s with scopes := σ }
  refl : ∀ {C w s}, change C w s s
  trans : ∀ {C w s s' s''}, change C w s s' → change C w s' s'' → change C w s s''
  types : ∀ {C w} {s : Session} {T : Table}, s.table.Keeps T → change C w s { s with table := T }
  /-- Something may be recorded, unless checking is quiet. -/
  notes : ∀ {C} {w : Walker} {s : Session} {findings : Array Finding}
    {recorded : Array (Option Recorded)}, w.quiet = false →
    change C w s { s with findings, recorded }
  /-- The context may differ in anything but the environment, and may be quiet. -/
  context : ∀ {C} {w w' : Walker} {s s'}, w'.environment = w.environment →
    (w.quiet = true → w'.quiet = true) → change C w' s s' → change C w s s'
  binds : ∀ {C : Change} {w : Walker} {s : Session} {name : String} {t : Ty}, C.fixes name = false →
    change C w s { s with scopes := s.scopes.bind w.environment name t }
  defines : ∀ {C : Change} {w : Walker} {s : Session} {name : String} {v : ValueDecl},
    C.declares = true → change C w s { s with scopes := (s.scopes.define w.environment name v).2 }
  /-- A frame may be opened and closed around other work. -/
  frame : ∀ {C} {w : Walker} {s s' : Session},
    change .any w { s with scopes := s.scopes.enter w.environment } s' →
    change C w s { s' with scopes := s'.scopes.exit w.environment }

/-- Work that has an effect, if the innermost frame of its environment may change in a given way. -/
def Check.Leaves (E : Effect) (C : Change) {α : Type} (work : Check α) : Prop :=
  ∀ ⦃w s a s'⦄, E.starts s → work w s = some (a, s') → E.change C w s s'

/-- Of the environments only the innermost frame changes, and what `Session.Kept` allows. -/
def Effect.kept (settled : Prop) : Effect where
  starts s := settled → s.Settled
  change := Session.Kept settled
  remains h hs hset := h.remains hset (hs hset)
  starts_scopes := id
  refl := .refl _
  trans := .trans
  types h := ⟨.refl _, h, fun _ => rfl, fun _ _ => ⟨rfl, rfl⟩⟩
  notes hloud := ⟨.refl _, .refl _, fun _ => rfl, fun _ hq => by simp [hloud] at hq⟩
  context henv hquiet h := ⟨henv ▸ h.scopes, h.table, h.rest, fun hs hq => h.quiet hs (hquiet hq)⟩
  binds h := ⟨.modifyInnermost fun _ => ⟨Bindings.only_put h, fun _ _ => rfl⟩, .refl _,
    fun _ => rfl, fun _ _ => ⟨rfl, rfl⟩⟩
  defines h := ⟨.defineInnermost h, .refl _, fun _ => rfl, fun _ _ => ⟨rfl, rfl⟩⟩
  frame h := ⟨.frame h.scopes, h.table, fun hs => by rw [h.rest hs], h.quiet⟩

/-- A proposition stands for the effect of keeping a session when it holds. -/
instance : Coe Prop Effect := ⟨Effect.kept⟩

namespace Check

variable {E : Effect} {C : Change}

theorem bind_eq_some {b : β} :
    (x >>= f) w s = some (b, s') ↔ ∃ a t, x w s = some (a, t) ∧ f a w t = some (b, s') := by
  change ((x w s).bind fun p => f p.1 w p.2) = _ ↔ _
  simp [Option.bind_eq_some_iff]

theorem bind_of_some {s1 : Session} (h : x w s = some (a, s1)) : (x >>= f) w s = f a w s1 := by
  change (x w s).bind (fun p => f p.1 w p.2) = _
  rw [h]
  rfl

/-- Work on types changes the table of the session and nothing else. -/
theorem typing_eq_some {work : Typing α} :
    (monadLift work : Check α) w s = some (a, s') ↔
      ∃ T, work w.steps s.table = some (a, T) ∧ s' = { s with table := T } := by
  change Check.ofTyping work w s = some (a, s') ↔ _
  unfold Check.ofTyping
  constructor
  · intro h
    cases hwork : work w.steps s.table with
    | none => simp [hwork] at h
    | some p =>
      simp only [hwork, Option.some.injEq, Prod.mk.injEq] at h
      obtain ⟨rfl, rfl⟩ := h
      exact ⟨p.2, rfl, rfl⟩
  · rintro ⟨T, hwork, rfl⟩
    dsimp only
    rw [hwork]

/-- Work on types that leaves the table as it is. -/
theorem typing_of_some {work : Typing α}
    (h : work w.steps s.table = some (a, s.table)) : (monadLift work : Check α) w s = some (a, s) :=
  typing_eq_some.mpr ⟨_, h, rfl⟩

@[grind ←]
theorem leaves_pure (a : α) : Leaves E C (pure a) := by
  intro w s a' s' _ h
  cases h
  exact E.refl

@[grind ←]
theorem leaves_bind (hx : Leaves E C x) (hf : ∀ a, Leaves E C (f a)) : Leaves E C (x >>= f) := by
  intro w s b s' hs h
  obtain ⟨a, t, ha, hb⟩ := bind_eq_some.1 h
  have hk := hx hs ha
  exact E.trans hk (hf a (E.remains hk hs) hb)

/-! ### Reading and work on types -/

@[grind ←]
theorem leaves_typing {work : Typing α} (hwork : work.Keeps) :
    Leaves E C (monadLift work : Check α) := by
  intro w s a s' _ h
  obtain ⟨T, hrun, rfl⟩ := typing_eq_some.mp h
  exact E.types (hwork hrun)

@[grind ←]
theorem leaves_interning {work : Interning α} (hwork : work.Keeps) :
    Leaves E C (monadLift work : Check α) :=
  leaves_typing (Typing.keeps_lift hwork)

@[grind ←]
theorem leaves_session : Leaves E C session := by
  intro w s a s' _ h
  cases h
  exact E.refl

@[grind ←]
theorem leaves_walker : Leaves E C walker := by
  intro w s a s' _ h
  cases h
  exact E.refl

@[grind ←]
theorem leaves_table : Leaves E C table := by
  unfold table
  grind

@[grind ←]
theorem leaves_lookup (name : String) : Leaves E C (lookup name) := by
  unfold lookup
  grind

@[grind ←]
theorem leaves_value? (name : String) : Leaves E C (value? name) := by
  unfold value?
  grind

@[grind ←]
theorem leaves_narrowed : Leaves E C narrowed := by
  unfold narrowed
  grind

/-! ### Recording -/

theorem leaves_note {note : Walker → Session → Session}
    (hnote : ∀ w s, w.quiet = false → E.change C w s (note w s)) :
    Leaves E C (do
      let w ← walker
      if !w.quiet then update (note w)) := by
  intro w s a s' _ h
  change (if !w.quiet then _ else _ : Check Unit) w s = some (a, s') at h
  split at h
  case isTrue hloud =>
    cases h
    exact hnote w s (by simpa using hloud)
  case isFalse =>
    cases h
    exact E.refl

@[grind ←]
theorem leaves_report (position : Position) (problem : Problem) :
    Leaves E C (report position problem) :=
  leaves_note fun _ _ hloud => E.notes hloud

@[grind ←]
theorem leaves_record (site : Site) (kind : NodeKind) (type : Ty) :
    Leaves E C (record site kind type) :=
  leaves_note fun _ _ hloud => E.notes hloud

@[grind ←]
theorem leaves_fits (position : Position) (source target : Ty) (reason : FitReason) :
    Leaves E C (fits position source target reason) := by
  unfold fits
  grind

/-- Work elsewhere in the same environment, and no louder. -/
theorem leaves_withReader {change : Walker → Walker}
    (henv : ∀ w, (change w).environment = w.environment)
    (hquiet : ∀ w, w.quiet = true → (change w).quiet = true) (h : Leaves E C work) :
    Leaves E C (withReader change work) := by
  intro w s a s' hs ha
  exact E.context (henv w) (hquiet w) (h hs (show work (change w) s = some (a, s') from ha))

@[grind ←]
theorem leaves_speculate (h : Leaves E C work) : Leaves E C (speculate work) :=
  leaves_withReader (fun _ => rfl) (fun _ _ => rfl) h

@[grind ←]
theorem leaves_withTypeVars {vars : List (String × TypeVar)}
    (h : Leaves E C work) : Leaves E C (Meaning.withTypeVars vars work) :=
  leaves_withReader (fun _ => rfl) (fun _ hq => hq) h

theorem leaves_inFunction {context : FunctionContext} (h : Leaves E C work) :
    Leaves E C (withReader (fun w : Walker => { w with function := some context }) work) :=
  leaves_withReader (fun _ => rfl) (fun _ hq => hq) h

/-! ### Frames -/

@[grind ←]
theorem leaves_bindName {t : Ty} (h : C.fixes name = false) : Leaves E C (Check.bind name t) := by
  intro w s a s' _ ha
  cases ha
  exact E.binds h

@[grind ←]
theorem leaves_define {type : Ty} {isConst : Bool} (h : C.declares = true) :
    Leaves E C (define name type isConst) := by
  intro w s a s' _ ha
  change some ((s.scopes.define w.environment name ⟨type, isConst⟩).1,
    { s with scopes := (s.scopes.define w.environment name ⟨type, isConst⟩).2 }) = _ at ha
  cases ha
  exact E.defines h

@[simp, grind =] theorem Change.declares_any : Change.any.declares = true := rfl

@[grind ←]
theorem leaves_inFrame (h : Leaves E .any work) : Leaves E C (inFrame work) := by
  intro w s a s' hs ha
  obtain ⟨_, t, ht, ha⟩ := bind_eq_some.1 ha
  obtain ⟨b, u, hu, ha⟩ := bind_eq_some.1 ha
  obtain ⟨_, v, hv, ha⟩ := bind_eq_some.1 ha
  cases ht
  cases hv
  cases ha
  exact E.frame (h (E.starts_scopes hs) hu)

/-! ### Lists -/

theorem sequential_leaves (E : Effect) (C : Change) :
    Sequential fun α (x : Check α) => Leaves E C x := ⟨leaves_pure, leaves_bind⟩

@[grind ←]
theorem leaves_mapM (h : ∀ a ∈ as, Leaves E C (f a)) : Leaves E C (as.mapM f) :=
  (sequential_leaves E C).mapM h

@[grind ←]
theorem leaves_forM {f : α → Check Unit} (h : ∀ a ∈ as, Leaves E C (f a)) :
    Leaves E C (as.forM f) := (sequential_leaves E C).forM h

@[grind ←]
theorem leaves_apply (h : ∀ p ∈ b, C.fixes p.1 = false) : Leaves E C (Check.apply b) := by
  unfold Check.apply
  grind

/-- Work in a frame of its own under some narrowings. -/
theorem leaves_under (h : Leaves E .any work) :
    Leaves E C (inFrame do Check.apply b; work) :=
  leaves_inFrame (leaves_bind (leaves_apply fun _ _ => rfl) fun _ => h)

end Check

end ShapeCheck
