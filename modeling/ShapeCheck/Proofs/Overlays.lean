import ShapeCheck.Proofs.Speculation
import ShapeCheck.Proofs.Narrowing

/-!
# Narrowings as overlays

The innermost frame of an environment lies over the others: it narrows some names and leaves the
rest as they are seen below. A frame that is opened, filled with narrowings and closed again leaves
the environment as it was, so all that a part of a function body does to its environment is to put
other narrowings into the innermost frame.

* `Scopes.Typed` says that some variables have declarable types, `Scopes.Models` that a store has
  values of these types.
* `Scopes.Typed.override` and `Scopes.Models.override` say what narrowings do to both.
-/

namespace ShapeCheck

variable {α : Type} {p : String × Ty} {x : String}

/-- The values of variables. -/
abbrev Store := String → Datum

namespace Bindings

variable {a b : Bindings} {name other : String} {t : Ty}

theorem mem_of_lookup (h : b.lookup name = some t) : (name, t) ∈ b := by
  induction b with
  | nil => simp at h
  | cons p b ih =>
    obtain ⟨n, u⟩ := p
    by_cases hn : name = n
    · subst hn
      simp only [List.lookup_cons, beq_self_eq_true, Option.some.injEq] at h
      simp [h]
    · rw [List.lookup_cons, beq_false_of_ne hn] at h
      exact List.mem_cons_of_mem _ (ih h)

theorem lookup_of_not_mem (h : name ∉ b.map Prod.fst) : b.lookup name = none := by
  cases hl : b.lookup name with
  | none => rfl
  | some t => exact absurd (List.mem_map.mpr ⟨_, mem_of_lookup hl, rfl⟩) h

theorem lookup_of_mem {b : List (String × α)} {t : α} (hb : (b.map Prod.fst).Nodup)
    (h : (name, t) ∈ b) : b.lookup name = some t := by
  induction b with
  | nil => exact absurd h List.not_mem_nil
  | cons p b ih =>
    obtain ⟨hnew, hrest⟩ := List.nodup_cons.mp hb
    rcases List.mem_cons.mp h with rfl | h
    · simp
    · have hne : name ≠ p.1 := by
        rintro rfl
        exact hnew (List.mem_map.mpr ⟨_, h, rfl⟩)
      rw [List.lookup_cons, beq_false_of_ne hne]
      exact ih hrest h

theorem nodup_put (hb : (b.map Prod.fst).Nodup) : ((b.put name t).map Prod.fst).Nodup := by
  unfold put
  split
  · rw [List.map_map, List.map_congr_left (g := Prod.fst)]
    · exact hb
    · intro p _
      simp only [Function.comp]
      split <;> rfl
  next hnone =>
    rw [List.map_append, List.nodup_append]
    refine ⟨hb, by simp, fun n hn m hm => ?_⟩
    obtain ⟨p, hp, rfl⟩ := List.mem_map.mp hn
    rintro rfl
    refine hnone ?_
    simp only [List.any_eq_true, decide_eq_true_eq]
    exact ⟨p, hp, by simpa using hm⟩

theorem nodup_override (ha : (a.map Prod.fst).Nodup) : ((a.override b).map Prod.fst).Nodup := by
  unfold override
  induction b generalizing a with
  | nil => exact ha
  | cons q b ih => exact ih (nodup_put ha)

theorem mem_put (h : p ∈ b.put name t) : p = (name, t) ∨ p ∈ b ∧ p.1 ≠ name := by
  unfold put at h
  split at h
  · obtain ⟨⟨n, u⟩, hq, rfl⟩ := List.mem_map.mp h
    by_cases hn : n = name
    · exact .inl (by simp [hn])
    · exact .inr (by simpa [hn] using hq)
  next hnone =>
    rcases List.mem_append.mp h with h | h
    · refine .inr ⟨h, fun hp => hnone ?_⟩
      simp only [List.any_eq_true, decide_eq_true_eq]
      exact ⟨p, h, hp⟩
    · exact .inl (List.mem_singleton.mp h)

theorem lookup_put_self : (b.put name t).lookup name = some t := by
  unfold put
  induction b with
  | nil => simp
  | cons p b ih =>
    obtain ⟨n, u⟩ := p
    by_cases hn : n = name
    · simp [hn]
    · have hne : (name == n) = false := beq_false_of_ne (Ne.symm hn)
      simp only [List.any_cons, decide_eq_false hn, Bool.false_or, List.map_cons, if_neg hn,
        List.cons_append]
      split
      next hany =>
        rw [if_pos hany] at ih
        rw [List.lookup_cons, hne]
        exact ih
      next hany =>
        rw [if_neg hany] at ih
        rw [List.lookup_cons, hne]
        exact ih

theorem lookup_put_of_ne (h : other ≠ name) : (b.put name t).lookup other = b.lookup other := by
  let keep : String → Bool := fun n => n == other
  have hkeep : keep other = true := by simp [keep]
  have hdrop : keep name = false := by simpa [keep] using Ne.symm h
  rw [← lookup_only hkeep, only_put hdrop, lookup_only hkeep]

/-- Of the first bindings those remain that the second do not override. -/
theorem mem_override (h : p ∈ a.override b) : p ∈ b ∨ p ∈ a ∧ p.1 ∉ b.map Prod.fst := by
  unfold override at h
  induction b generalizing a with
  | nil => exact .inr ⟨h, List.not_mem_nil⟩
  | cons q b ih =>
    rcases ih h with hb | ⟨ha, hnot⟩
    · exact .inl (List.mem_cons_of_mem _ hb)
    · rcases mem_put ha with rfl | ⟨ha, hne⟩
      · exact .inl List.mem_cons_self
      · refine .inr ⟨ha, ?_⟩
        simp only [List.map_cons, List.mem_cons, not_or]
        exact ⟨hne, hnot⟩

theorem lookup_override_of_not_mem (h : name ∉ b.map Prod.fst) :
    (a.override b).lookup name = a.lookup name := by
  unfold override
  induction b generalizing a with
  | nil => rfl
  | cons q b ih =>
    simp only [List.map_cons, List.mem_cons, not_or] at h
    rw [List.foldl_cons, ih h.2, lookup_put_of_ne h.1]

/-- A name that the second bindings override is bound as they say. -/
theorem lookup_override_of_mem (h : name ∈ b.map Prod.fst) :
    ∃ t, (a.override b).lookup name = some t ∧ (name, t) ∈ b := by
  unfold override
  induction b generalizing a with
  | nil => exact absurd h List.not_mem_nil
  | cons q b ih =>
    rw [List.foldl_cons]
    by_cases hlater : name ∈ b.map Prod.fst
    · obtain ⟨t, ht, hmem⟩ := ih (a := a.put q.1 q.2) hlater
      exact ⟨t, ht, List.mem_cons_of_mem _ hmem⟩
    · have hq : name = q.1 := by simpa [hlater] using h
      subst hq
      refine ⟨q.2, ?_, List.mem_cons_self⟩
      exact (lookup_override_of_not_mem hlater).trans lookup_put_self

end Bindings

namespace Scopes

/-- The environment with other narrowings in its innermost frame. -/
def narrowing (σ : Scopes) (e : Nat) (b : Bindings) : Scopes :=
  σ.modifyInnermost e ({ · with narrowings := b })

section Frames

variable {σ : Scopes} {e : Nat} {a b : Bindings} {f : Frame} {rest : List Frame} {name : String}

theorem modifyFrames_modifyFrames (σ : Scopes) (e : Nat) (g h : List Frame → List Frame) :
    (σ.modifyFrames e g).modifyFrames e h = σ.modifyFrames e (h ∘ g) := by
  unfold modifyFrames
  congr 1
  refine Array.ext_getElem? fun i => ?_
  rw [Array.getElem?_modify, Array.getElem?_modify, Array.getElem?_modify]
  split
  · cases σ.environments[i]? <;> rfl
  · rfl

/-- A change that does not touch the frames there are. -/
theorem modifyFrames_eq_self {change : List Frame → List Frame}
    (h : change (σ.framesOf e) = σ.framesOf e) : σ.modifyFrames e change = σ := by
  obtain ⟨environments⟩ := σ
  unfold modifyFrames
  congr 1
  refine Array.ext_getElem? fun i => ?_
  rw [Array.getElem?_modify]
  split
  next hi =>
    subst hi
    unfold framesOf at h
    cases henv : environments[e]? with
    | none => rfl
    | some env =>
      simp only [henv, Option.map_some, Option.getD_some] at h
      simp only [Option.map_some, h]
  · rfl

theorem modifyFrames_congr {g h : List Frame → List Frame}
    (heq : g (σ.framesOf e) = h (σ.framesOf e)) : σ.modifyFrames e g = σ.modifyFrames e h := by
  unfold modifyFrames
  congr 1
  refine Array.ext_getElem? fun i => ?_
  rw [Array.getElem?_modify, Array.getElem?_modify]
  split
  next hi =>
    subst hi
    unfold framesOf at heq
    cases henv : σ.environments[e]? with
    | none => rfl
    | some env =>
      simp only [henv, Option.map_some, Option.getD_some] at heq
      simp only [Option.map_some, heq]
  · rfl

theorem framesOf_narrowing (h : σ.framesOf e = f :: rest) :
    (σ.narrowing e b).framesOf e = { f with narrowings := b } :: rest := by
  rw [narrowing, modifyInnermost, framesOf_modifyFrames _ _ rfl, h]

theorem framesOf_narrowing_of_ne {i : Nat} (h : i ≠ e) :
    (σ.narrowing e b).framesOf i = σ.framesOf i := by
  rw [narrowing, modifyInnermost, framesOf_modifyFrames_of_ne _ _ h]

theorem framesOf_enter (h : σ.framesOf e = f :: rest) :
    (σ.enter e).framesOf e = {} :: f :: rest := by
  unfold framesOf at h ⊢
  unfold enter modifyFrames
  rw [Array.getElem?_modify, if_pos rfl]
  cases henv : σ.environments[e]? with
  | none => simp [henv] at h
  | some env => simpa [henv] using h

theorem narrowing_narrowing : (σ.narrowing e a).narrowing e b = σ.narrowing e b := by
  unfold narrowing modifyInnermost
  rw [modifyFrames_modifyFrames]
  congr 1
  funext fs
  cases fs with
  | nil => rfl
  | cons f rest => rfl

theorem narrowing_self : σ.narrowing e (σ.innermost e).narrowings = σ := by
  unfold narrowing modifyInnermost
  refine modifyFrames_eq_self ?_
  unfold innermost
  cases σ.framesOf e with
  | nil => rfl
  | cons f rest => rfl

theorem bind_eq_narrowing (σ : Scopes) (e : Nat) (name : String) (t : Ty) :
    σ.bind e name t = σ.narrowing e ((σ.innermost e).narrowings.put name t) := by
  unfold bind narrowing modifyInnermost
  refine modifyFrames_congr ?_
  unfold innermost
  cases σ.framesOf e with
  | nil => rfl
  | cons f rest => rfl

/-- A frame that is opened, filled with narrowings and closed leaves nothing. -/
theorem exit_narrowing_enter (h : σ.framesOf e ≠ []) : ((σ.enter e).narrowing e b).exit e = σ := by
  unfold enter narrowing modifyInnermost exit
  rw [modifyFrames_modifyFrames, modifyFrames_modifyFrames]
  refine modifyFrames_eq_self ?_
  obtain ⟨f, rest, hf⟩ := List.exists_cons_of_ne_nil h
  rw [hf]
  rfl

theorem innermost_narrowing (h : σ.framesOf e ≠ []) :
    (σ.narrowing e b).innermost e = { σ.innermost e with narrowings := b } := by
  obtain ⟨f, rest, hf⟩ := List.exists_cons_of_ne_nil h
  unfold innermost
  rw [framesOf_narrowing hf, hf]
  rfl

theorem innermost_enter (h : σ.framesOf e ≠ []) : (σ.enter e).innermost e = {} := by
  obtain ⟨f, rest, hf⟩ := List.exists_cons_of_ne_nil h
  unfold innermost
  rw [framesOf_enter hf]
  rfl

theorem kept_narrowing (C : Change) (h : ∀ f : Frame, f.Changed True C { f with narrowings := b }) :
    σ.Kept True C e (σ.narrowing e b) := .modifyInnermost h

theorem value?_narrowing (h : σ.framesOf e ≠ []) (name : String) :
    (σ.narrowing e b).value? e name = σ.value? e name :=
  (kept_narrowing ⟨fun _ => false, false⟩ fun _ =>
    ⟨by simp [Bindings.only], fun _ _ => rfl⟩).value? h rfl e name

/-- The type of a name under other narrowings. -/
theorem lookup_narrowing (h : σ.framesOf e ≠ []) (name : String) :
    (σ.narrowing e b).lookup e name = (b.lookup name).or ((σ.narrowing e []).lookup e name) := by
  obtain ⟨f, rest, hf⟩ := List.exists_cons_of_ne_nil h
  cases hb : b.lookup name with
  | some t =>
    have hchain : (σ.narrowing e b).visible e = { f with narrowings := b } :: (rest ++
        ((σ.narrowing e b).chain e).tail.flatMap (σ.narrowing e b).framesOf) := by
      unfold visible
      rw [chain, chainAt, List.flatMap_cons, framesOf_narrowing hf]
      rfl
    rw [lookup, hchain, List.findSome?_cons]
    simp [Frame.lookup, hb]
  | none =>
    -- neither frame narrows the name, so both leave it to what lies below
    have hsame : (σ.narrowing e []).Kept True ⟨fun n => n == name, false⟩ e (σ.narrowing e b) := by
      rw [← narrowing_narrowing (a := []) (b := b)]
      have hframes : (σ.narrowing e []).framesOf e = { f with narrowings := [] } :: rest :=
        framesOf_narrowing hf
      refine ⟨⟨Nat.le_of_eq (size_modifyFrames ..).symm, fun i _ => outer_modifyFrames ..,
        fun i _ hne => ?_, fun g rest' hg => ?_⟩, fun _ => size_modifyFrames ..⟩
      · have hother : ((σ.narrowing e []).narrowing e b).framesOf i =
            (σ.narrowing e []).framesOf i := framesOf_narrowing_of_ne hne
        rw [hother]
        exact Frames.Like.refl _
      · obtain ⟨rfl, rfl⟩ := List.cons.inj (hframes.symm.trans hg)
        refine ⟨_, _, framesOf_narrowing hg, ⟨?_, fun _ _ => rfl⟩, Frames.Like.refl _⟩
        have hnone : Bindings.only (fun n => n == name) b = [] := by
          refine List.filter_eq_nil_iff.mpr fun p hp hpn => ?_
          have hname : p.1 = name := by simpa using hpn
          rw [List.lookup_eq_none_iff] at hb
          exact absurd (hb p hp) (by simp [hname])
        simpa [Bindings.only] using hnone
    have hne : (σ.narrowing e []).framesOf e ≠ [] := by
      rw [framesOf_narrowing hf]
      exact List.cons_ne_nil _ _
    rw [hsame.lookup hne rfl e (by simp), Option.none_or]

end Frames

section Opening

variable {σ : Scopes} {e : Nat}

/-- An empty frame has nothing to say. -/
theorem visible_enter {read : Frame → Option α} (hread : read {} = none) :
    ((σ.enter e).visible e).findSome? read = (σ.visible e).findSome? read := by
  have hchain : ∀ n i, (σ.enter e).chainAt n i = σ.chainAt n i := by
    intro n
    induction n with
    | zero => exact fun _ => rfl
    | succ n ih =>
      intro i
      unfold chainAt
      rw [enter, outer_modifyFrames]
      cases (σ.environments[i]?).bind Environment.outer with
      | none => rfl
      | some o => simp only [← ih o, enter]
  have hframes : ∀ i, ((σ.enter e).framesOf i).findSome? read = (σ.framesOf i).findSome? read := by
    intro i
    by_cases hi : i = e
    · subst hi
      unfold framesOf enter modifyFrames
      rw [Array.getElem?_modify, if_pos rfl]
      cases σ.environments[i]? with
      | none => rfl
      | some env => simp [hread]
    · rw [enter, framesOf_modifyFrames_of_ne _ _ hi]
  unfold visible chain
  rw [hchain]
  induction σ.chainAt (e + 1) e with
  | nil => rfl
  | cons i is ih =>
    rw [List.flatMap_cons, List.flatMap_cons, List.findSome?_append, List.findSome?_append, hframes,
      ih]

theorem lookup_enter (name : String) : (σ.enter e).lookup e name = σ.lookup e name :=
  visible_enter rfl

theorem value?_enter (name : String) : (σ.enter e).value? e name = σ.value? e name :=
  visible_enter rfl

end Opening

end Scopes

namespace Bindings

/-- The bindings give declarable types to some variables. -/
def Typed (T : Table) (vars : List String) (b : Bindings) : Prop :=
  ∀ p ∈ b, p.1 ∈ vars ∧ T.Declarable p.2

/-- The values of the variables belong to the types they are bound to. -/
def Hold (T : Table) (ρ : Store) (b : Bindings) : Prop := ∀ p ∈ b, T.Inhabits (ρ p.1) p.2

variable {T T1 : Table} {vars : List String} {ρ : Store} {a b : Bindings}

theorem Typed.of_agrees (h : b.Typed T vars) (hT : T.WellFormed) (h1 : T.Agrees T1) :
    b.Typed T1 vars :=
  fun p hp => ⟨(h p hp).1, (h p hp).2.of_agrees hT h1⟩

theorem Typed.hold_iff (h : b.Typed T vars) (hT : T.WellFormed) (h1 : T.Agrees T1) :
    b.Hold T1 ρ ↔ b.Hold T ρ :=
  forall₂_congr fun p hp => (h p hp).2.toSimple.inhabits_iff hT h1

theorem Typed.override (ha : a.Typed T vars) (hb : b.Typed T vars) : (a.override b).Typed T vars :=
  fun p hp => (mem_override hp).elim (hb p) fun h => ha p h.1

theorem Hold.override (ha : a.Hold T ρ) (hb : b.Hold T ρ) : (a.override b).Hold T ρ :=
  fun p hp => (mem_override hp).elim (hb p) fun h => ha p h.1

end Bindings

namespace Scopes

/-- Some variables are declared with declarable types, and have such types. -/
structure Typed (T : Table) (vars : List String) (e : Nat) (σ : Scopes) : Prop where
  frame : σ.framesOf e ≠ []
  types : ∀ x ∈ vars, ∃ t, σ.lookup e x = some t ∧ T.Declarable t
  values : ∀ x ∈ vars, ∃ t, σ.value? e x = some ⟨t, false⟩ ∧ T.Declarable t
  narrowed : (σ.innermost e).narrowings.Typed T vars
  distinct : ((σ.innermost e).narrowings.map Prod.fst).Nodup

/-- The values of the variables belong to their types. -/
def Models (T : Table) (vars : List String) (e : Nat) (σ : Scopes) (ρ : Store) : Prop :=
  ∀ x ∈ vars, ∀ t, σ.lookup e x = some t → T.Inhabits (ρ x) t

/-- The values of the variables belong to the types that the bindings give them, and to those they
have where the bindings say nothing. -/
structure Fits (T : Table) (vars : List String) (e : Nat) (σ : Scopes) (ρ : Store) (b : Bindings) :
    Prop where
  hold : b.Hold T ρ
  others : ∀ x ∈ vars, x ∉ b.map Prod.fst → ∀ t, σ.lookup e x = some t → T.Inhabits (ρ x) t

section Values

variable {T T1 : Table} {vars : List String} {e : Nat} {σ : Scopes} {ρ : Store} {b : Bindings}

theorem Typed.of_agrees (h : σ.Typed T vars e) (hT : T.WellFormed) (h1 : T.Agrees T1) :
    σ.Typed T1 vars e where
  frame := h.frame
  types x hx := by
    obtain ⟨t, ht, hd⟩ := h.types x hx
    exact ⟨t, ht, hd.of_agrees hT h1⟩
  values x hx := by
    obtain ⟨t, ht, hd⟩ := h.values x hx
    exact ⟨t, ht, hd.of_agrees hT h1⟩
  narrowed := h.narrowed.of_agrees hT h1
  distinct := h.distinct

theorem Typed.models_iff (h : σ.Typed T vars e) (hT : T.WellFormed) (h1 : T.Agrees T1) :
    σ.Models T1 vars e ρ ↔ σ.Models T vars e ρ := by
  refine forall₂_congr fun x hx => forall₂_congr fun t ht => ?_
  obtain ⟨u, hu, hd⟩ := h.types x hx
  obtain rfl := Option.some.inj (ht.symm.trans hu)
  exact hd.toSimple.inhabits_iff hT h1

theorem Typed.fits_iff (h : σ.Typed T vars e) (hb : b.Typed T vars) (hT : T.WellFormed)
    (h1 : T.Agrees T1) : σ.Fits T1 vars e ρ b ↔ σ.Fits T vars e ρ b := by
  have hothers : ∀ x ∈ vars, ∀ t, σ.lookup e x = some t →
      (T1.Inhabits (ρ x) t ↔ T.Inhabits (ρ x) t) := by
    intro x hx t ht
    obtain ⟨u, hu, hd⟩ := h.types x hx
    obtain rfl := Option.some.inj (ht.symm.trans hu)
    exact hd.toSimple.inhabits_iff hT h1
  constructor
  · intro hρ
    exact ⟨(hb.hold_iff hT h1).mp hρ.hold, fun x hx hnot t ht =>
      (hothers x hx t ht).mp (hρ.others x hx hnot t ht)⟩
  · intro hρ
    exact ⟨(hb.hold_iff hT h1).mpr hρ.hold, fun x hx hnot t ht =>
      (hothers x hx t ht).mpr (hρ.others x hx hnot t ht)⟩

theorem Typed.enter (h : σ.Typed T vars e) : (σ.enter e).Typed T vars e where
  frame := by
    obtain ⟨f, rest, hf⟩ := List.exists_cons_of_ne_nil h.frame
    rw [framesOf_enter hf]
    exact List.cons_ne_nil _ _
  types x hx := by
    rw [lookup_enter]
    exact h.types x hx
  values x hx := by
    rw [value?_enter]
    exact h.values x hx
  narrowed := by
    rw [innermost_enter h.frame]
    exact fun p hp => absurd hp List.not_mem_nil
  distinct := by
    rw [innermost_enter h.frame]
    exact List.nodup_nil

theorem Models.enter (h : σ.Models T vars e ρ) : (σ.enter e).Models T vars e ρ := by
  intro x hx t ht
  rw [lookup_enter] at ht
  exact h x hx t ht

/-- What the innermost frame narrows holds of the values. -/
theorem Typed.hold (h : σ.Typed T vars e) (hρ : σ.Models T vars e ρ) :
    (σ.innermost e).narrowings.Hold T ρ := by
  rintro ⟨x, t⟩ hp
  refine hρ x (h.narrowed _ hp).1 t ?_
  rw [← narrowing_self (σ := σ) (e := e), lookup_narrowing h.frame,
    Bindings.lookup_of_mem h.distinct hp, Option.some_or]

/-- The environment with further narrowings in its innermost frame. -/
def overriding (σ : Scopes) (e : Nat) (b : Bindings) : Scopes :=
  σ.narrowing e ((σ.innermost e).narrowings.override b)

theorem overriding_nil : σ.overriding e [] = σ := narrowing_self

theorem overriding_cons (x : String) (t : Ty) :
    (σ.bind e x t).overriding e b = σ.overriding e ((x, t) :: b) := by
  rw [bind_eq_narrowing, overriding, narrowing_narrowing, overriding]
  by_cases hframe : σ.framesOf e = []
  · -- without frames there is nothing to narrow
    have hnone : ∀ a, σ.narrowing e a = σ := by
      intro a
      unfold narrowing modifyInnermost
      exact modifyFrames_eq_self (by rw [hframe])
    rw [hnone, hnone]
  · rw [innermost_narrowing hframe]
    rfl

theorem lookup_overriding_of_not_mem (h : σ.framesOf e ≠ [])
    (hx : x ∉ b.map Prod.fst) : (σ.overriding e b).lookup e x = σ.lookup e x := by
  let own := (σ.innermost e).narrowings
  calc (σ.overriding e b).lookup e x
      = ((own.override b).lookup x).or ((σ.narrowing e []).lookup e x) := lookup_narrowing h x
    _ = (own.lookup x).or ((σ.narrowing e []).lookup e x) := by
      rw [Bindings.lookup_override_of_not_mem hx]
    _ = (σ.narrowing e own).lookup e x := (lookup_narrowing h x).symm
    _ = σ.lookup e x := by rw [narrowing_self]

theorem lookup_overriding_of_mem (h : σ.framesOf e ≠ []) (hx : x ∈ b.map Prod.fst) :
    ∃ t, (σ.overriding e b).lookup e x = some t ∧ (x, t) ∈ b := by
  obtain ⟨t, ht, hmem⟩ := Bindings.lookup_override_of_mem (a := (σ.innermost e).narrowings) hx
  refine ⟨t, ?_, hmem⟩
  rw [overriding, lookup_narrowing h, ht, Option.some_or]

theorem Typed.override (h : σ.Typed T vars e) (hb : b.Typed T vars) :
    (σ.overriding e b).Typed T vars e where
  frame := by
    obtain ⟨f, rest, hf⟩ := List.exists_cons_of_ne_nil h.frame
    rw [overriding, framesOf_narrowing hf]
    exact List.cons_ne_nil _ _
  types x hx := by
    by_cases hmem : x ∈ b.map Prod.fst
    · obtain ⟨t, ht, hpair⟩ := lookup_overriding_of_mem h.frame hmem
      exact ⟨t, ht, (hb _ hpair).2⟩
    · rw [lookup_overriding_of_not_mem h.frame hmem]
      exact h.types x hx
  values x hx := by
    rw [overriding, value?_narrowing h.frame]
    exact h.values x hx
  narrowed := by
    rw [overriding, innermost_narrowing h.frame]
    exact h.narrowed.override hb
  distinct := by
    rw [overriding, innermost_narrowing h.frame]
    exact Bindings.nodup_override h.distinct

/-- Narrowings to types that the values belong to. -/
theorem Fits.override (hframe : σ.framesOf e ≠ []) (h : σ.Fits T vars e ρ b) :
    (σ.overriding e b).Models T vars e ρ := by
  intro x hx t ht
  by_cases hmem : x ∈ b.map Prod.fst
  · obtain ⟨u, hu, hpair⟩ := lookup_overriding_of_mem hframe hmem
    obtain rfl := Option.some.inj (ht.symm.trans hu)
    exact h.hold _ hpair
  · rw [lookup_overriding_of_not_mem hframe hmem] at ht
    exact h.others x hx hmem t ht

theorem Models.fits (h : σ.Models T vars e ρ) (hb : b.Hold T ρ) : σ.Fits T vars e ρ b :=
  ⟨hb, fun x hx _ => h x hx⟩

/-- What holds in a frame that was opened, as seen from outside. -/
theorem Typed.fits_narrowed (h : σ.Typed T vars e)
    (hin : ((σ.enter e).narrowing e b).Typed T vars e)
    (hρ : ((σ.enter e).narrowing e b).Models T vars e ρ) : σ.Fits T vars e ρ b := by
  have hframe := h.enter.frame
  refine ⟨?_, fun x hx hnot t ht => hρ x hx t ?_⟩
  · have hhold := hin.hold hρ
    rwa [innermost_narrowing hframe] at hhold
  · have hempty : (σ.enter e).narrowing e [] = σ.enter e := by
      have hself := narrowing_self (σ := σ.enter e) (e := e)
      rwa [innermost_enter h.frame] at hself
    rw [lookup_narrowing hframe, Bindings.lookup_of_not_mem hnot, Option.none_or, hempty,
      lookup_enter]
    exact ht

end Values

end Scopes

end ShapeCheck
