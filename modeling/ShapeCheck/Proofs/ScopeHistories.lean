import ShapeCheck.Proofs.Overlays

/-!
# Histories of scopes

A frame keeps declarations apart from narrowings and a look-up reads the narrowings first, so what a
name is taken for depends on what was done to the frames, and in which order. A history lists what
was done to the environment made last, and dates each operation by how many went before it. Every
frame in sight then has, for a name, the date of its declaration and that of its latest narrowing.

* `Scopes.Operation` and `Scopes.History.scopes` are the operations and what they lead to.
* `Scopes.History.dated` says what a date stands for, `Scopes.History.chronological` that a frame is
  narrowed only after the declarations below it.
* `Scopes.History.lookup_newest` says what a look-up finds: a narrowing made after the declaration
  of the name, unless the frame of that declaration narrowed the name already when it was made.
* `Scopes.History.lookup_newest_stale` is a declaration that the look-up does not see.
-/

namespace ShapeCheck

variable {i e : Nat} {value : ValueDecl}

namespace Scopes

/-- The environment that was made last. -/
def newest (σ : Scopes) : Nat := σ.environments.size - 1

/-- What is done to the newest environment. -/
inductive Operation where
  | enclose
  | enter
  | exit
  /-- Declares a name, if it is not declared in the innermost frame. -/
  | define (name : String) (value : ValueDecl)
  | redefine (name : String) (t : Ty)
  | bind (name : String) (t : Ty)
  deriving DecidableEq, Repr

/-- The scopes after an operation. -/
def Operation.act (σ : Scopes) : Operation → Scopes
  | .enclose => (σ.add (some σ.newest)).2
  | .enter => σ.enter σ.newest
  | .exit => σ.exit σ.newest
  | .define name value => (σ.define σ.newest name value).2
  | .redefine name t => (σ.redefine σ.newest name t).2
  | .bind name t => σ.bind σ.newest name t

/-- Operations, the latest first. The date of one is the number of those before it. -/
abbrev History := List Operation

/-- What operations lead to, from a single environment without declarations. -/
def History.scopes : History → Scopes
  | [] => (({} : Scopes).add none).2
  | op :: earlier => op.act (scopes earlier)

/-- When a frame came to declare a name, and when it was last narrowed there. -/
structure Dates where
  declared : Option Nat := none
  narrowed : Option Nat := none
  deriving DecidableEq, Repr

/-- The dates of a name in the frames of an environment to which something is done now. -/
def Operation.date (name : String) (now : Nat) : Operation → List Dates → List Dates
  | .enter, ds => {} :: ds
  | .exit, _ :: d :: rest => d :: rest
  | .define other _, d :: rest =>
    if other = name then { d with declared := d.declared.or (some now) } :: rest else d :: rest
  | .bind other _, d :: rest =>
    if other = name then { d with narrowed := some now } :: rest else d :: rest
  | _, ds => ds

namespace Dates

/-- The date of the declaration that is found first. -/
def declaredIn (ds : List Dates) : Option Nat := ds.findSome? declared

/-- The date of the narrowing that is found before any declaration further out. -/
def narrowedIn : List Dates → Option Nat
  | [] => none
  | ⟨_, some j⟩ :: _ => some j
  | ⟨some _, none⟩ :: _ => none
  | ⟨none, none⟩ :: rest => narrowedIn rest

/-- A frame is narrowed only after the declaration in a frame further out. -/
def Before (d below : Dates) : Prop :=
  ∀ i ∈ below.declared, ∀ j ∈ d.narrowed, i < j

end Dates

namespace History

/-- The dates of a name in the frames of an environment, innermost first. -/
def dates (name : String) : History → Nat → List Dates
  | [], i => if i = 0 then [{}] else []
  | .enclose :: earlier, i => if i = (scopes earlier).newest + 1 then [{}] else dates name earlier i
  | op :: earlier, i =>
    if i = (scopes earlier).newest then op.date name earlier.length (dates name earlier i)
    else dates name earlier i

/-- The dates of a name in the frames that the newest environment sees, innermost first. -/
def seen (h : History) (name : String) : List Dates :=
  (h.scopes.chain h.scopes.newest).flatMap (h.dates name)

/-- The date of the declaration of a name that is in sight. -/
def declaredAt (h : History) (name : String) : Option Nat := Dates.declaredIn (h.seen name)

/-- The date of the narrowing of a name that is in sight. -/
def narrowedAt (h : History) (name : String) : Option Nat := Dates.narrowedIn (h.seen name)

end History

end Scopes

/-! ## What a date stands for -/

open Scopes

/-- The dates of a name in a frame tell of a declaration and of a narrowing in the history. What was
narrowed before the declaration was narrowed in the frame in which the name was declared. -/
structure Frame.Dated (h : History) (name : String) (f : Frame) (d : Dates) : Prop where
  undeclared : d.declared = none → f.values.lookup name = none
  unnarrowed : d.narrowed = none → f.narrowings.lookup name = none
  declared : ∀ i, d.declared = some i → ∃ value, ∃ earlier : History,
    .define name value :: earlier <:+ h ∧ earlier.length = i ∧
      (∃ v, f.values.lookup name = some v ∧ v.isConst = value.isConst) ∧
      ∀ j, d.narrowed = some j → j < i →
        (earlier.scopes.innermost earlier.scopes.newest).narrowings.lookup name =
          f.narrowings.lookup name
  narrowed : ∀ j, d.narrowed = some j → ∃ t, ∃ earlier : History,
    .bind name t :: earlier <:+ h ∧ earlier.length = j ∧ f.narrowings.lookup name = some t

namespace Frame.Dated

variable {h : History} {op : Operation} {name : String} {f f' : Frame} {d : Dates}

theorem declared_lt (hd : f.Dated h name d) (hi : d.declared = some i) : i < h.length := by
  obtain ⟨value, earlier, hsuffix, rfl, -⟩ := hd.declared i hi
  exact hsuffix.length_le

/-- A frame that narrows the name alike and declares it with the same constancy has the dates, also
after another operation. -/
theorem of_like (hd : f.Dated h name d) (hn : f'.narrowings.lookup name = f.narrowings.lookup name)
    (hv : (f'.values.lookup name).map ValueDecl.isConst =
      (f.values.lookup name).map ValueDecl.isConst) : f'.Dated (op :: h) name d where
  undeclared hnone := by
    rw [hd.undeclared hnone] at hv
    simpa using hv
  unnarrowed hnone := hn.trans (hd.unnarrowed hnone)
  declared i hi := by
    obtain ⟨value, earlier, hsuffix, hlength, ⟨v, hlookup, hconst⟩, hstale⟩ := hd.declared i hi
    refine ⟨value, earlier, hsuffix.trans (List.suffix_cons op h), hlength, ?_, ?_⟩
    · rw [hlookup] at hv
      obtain ⟨v', hlookup', hconst'⟩ := Option.map_eq_some_iff.mp hv
      exact ⟨v', hlookup', hconst'.trans hconst⟩
    · intro j hj hji
      exact (hstale j hj hji).trans hn.symm
  narrowed j hj := by
    obtain ⟨t, earlier, hsuffix, hlength, hlookup⟩ := hd.narrowed j hj
    exact ⟨t, earlier, hsuffix.trans (List.suffix_cons op h), hlength, hn.trans hlookup⟩

theorem later (hd : f.Dated h name d) : f.Dated (op :: h) name d := hd.of_like rfl rfl

theorem empty : ({} : Frame).Dated h name {} where
  undeclared _ := rfl
  unnarrowed _ := rfl
  declared i hi := by cases hi
  narrowed j hj := by cases hj

/-- The frame that is narrowed. -/
theorem narrow (hd : f.Dated h name d) (t : Ty) :
    (f.narrow name t).Dated (.bind name t :: h) name { d with narrowed := some h.length } where
  undeclared hnone := hd.undeclared hnone
  unnarrowed hnone := by cases hnone
  declared i hi := by
    obtain ⟨value, earlier, hsuffix, hlength, hvalue, -⟩ := hd.declared i hi
    refine ⟨value, earlier, hsuffix.trans (List.suffix_cons _ h), hlength, hvalue, ?_⟩
    intro j hj hji
    -- the narrowing is later than the declaration
    have hpast : i < h.length := hd.declared_lt hi
    obtain rfl : h.length = j := Option.some.inj hj
    omega
  narrowed j hj := by
    obtain rfl : h.length = j := Option.some.inj hj
    exact ⟨t, h, List.suffix_refl _, rfl, Bindings.lookup_put_self⟩

/-- The frame in which the name is declared. -/
theorem declare (hd : f.Dated h name d) (hnew : f.values.lookup name = none)
    (hown : h.scopes.innermost h.scopes.newest = f) (value : ValueDecl) :
    (f.declare name value).Dated (.define name value :: h) name
      { d with declared := d.declared.or (some h.length) } where
  undeclared hnone := by simp at hnone
  unnarrowed hnone := hd.unnarrowed hnone
  declared i hi := by
    have hnone : d.declared = none := by
      cases hi : d.declared with
      | none => rfl
      | some k =>
        obtain ⟨-, -, -, -, ⟨v, hv, -⟩, -⟩ := hd.declared k hi
        simp [hnew] at hv
    obtain rfl : h.length = i := by simpa [hnone] using hi
    refine ⟨value, h, List.suffix_refl _, rfl, ⟨value, ?_, rfl⟩, ?_⟩
    · simp [Frame.declare, List.lookup_append, hnew]
    · intro j hj hji
      rw [hown]
      rfl
  narrowed j hj := by
    obtain ⟨t, earlier, hsuffix, hlength, hlookup⟩ := hd.narrowed j hj
    exact ⟨t, earlier, hsuffix.trans (List.suffix_cons _ h), hlength, hlookup⟩

end Frame.Dated

/-! ## Each operation -/

namespace Frame

variable {h : History} {op : Operation} {name other : String} {f : Frame} {d : Dates}

theorem lookup_declare_of_ne (f : Frame) (value : ValueDecl) (hne : other ≠ name) :
    (f.declare other value).values.lookup name = f.values.lookup name := by
  have hnone : List.lookup name [(other, value)] = none := by
    simpa using Ne.symm hne
  rw [Frame.declare, List.lookup_append, hnone, Option.or_none]

/-- Another type for a name leaves open only the type of a declaration. -/
theorem isConst_retype (f : Frame) (t : Ty) (name other : String) :
    ((f.retype other t).values.lookup name).map ValueDecl.isConst =
      (f.values.lookup name).map ValueDecl.isConst := by
  unfold Frame.retype
  induction f.values with
  | nil => rfl
  | cons p rest ih =>
    obtain ⟨n, v⟩ := p
    by_cases hn : name = n
    · subst hn
      by_cases ho : name = other
      · simp [ho]
      · simp [ho]
    · have hne : (name == n) = false := beq_false_of_ne hn
      rw [List.map_cons]
      by_cases ho : n = other
      · simpa only [if_pos ho, List.lookup_cons, hne] using ih
      · simpa only [if_neg ho, List.lookup_cons, hne] using ih

theorem Dated.retypeFirst {fs : List Frame} {ds : List Dates} (t : Ty) (other : String)
    (hd : List.Forall₂ (Frame.Dated h name) fs ds) :
    List.Forall₂ (Frame.Dated (op :: h) name) (Scopes.retypeFirst other t fs) ds := by
  induction hd with
  | nil => exact .nil
  | cons hf hrest ih =>
    unfold Scopes.retypeFirst
    split
    · exact .cons (hf.of_like rfl (isConst_retype _ t name other))
        (hrest.imp fun _ _ => Dated.later)
    · exact .cons hf.later ih

end Frame

namespace Scopes

variable {σ : Scopes} {name : String}

/-- A history in which everything is in order: an environment lies inside earlier ones only and has
frames, the frames are dated, and each was narrowed after the declarations below it. -/
structure History.Chronicle (h : History) (name : String) : Prop where
  made : 0 < h.scopes.environments.size
  outer : ∀ i o : Nat, (h.scopes.environments[i]?).bind Environment.outer = some o → o < i
  framed : ∀ i < h.scopes.environments.size, h.scopes.framesOf i ≠ []
  dated : ∀ i, List.Forall₂ (Frame.Dated h name) (h.scopes.framesOf i) (h.dates name i)
  within : ∀ i, (h.dates name i).Pairwise Dates.Before
  across : ∀ i k, i < k → ∀ d ∈ h.dates name k, ∀ below ∈ h.dates name i, d.Before below

/-! ### Dates -/

namespace Dates

variable {op : Operation} {now : Nat} {d : Dates} {ds : List Dates}

theorem before_empty (below : Dates) : ({} : Dates).Before below := by
  intro i _ j hj
  cases hj

/-- An operation narrows a frame now or not at all. -/
theorem narrowed_of_mem_date (hd : d ∈ op.date name now ds) :
    d.narrowed = none ∨ d.narrowed = some now ∨ ∃ d0 ∈ ds, d0.narrowed = d.narrowed := by
  cases op with
  | enclose => exact .inr (.inr ⟨d, hd, rfl⟩)
  | redefine other t => exact .inr (.inr ⟨d, hd, rfl⟩)
  | enter =>
    cases List.mem_cons.mp hd with
    | inl hnew => exact .inl (by rw [hnew])
    | inr hold => exact .inr (.inr ⟨d, hold, rfl⟩)
  | exit =>
    match ds with
    | [] => exact absurd hd List.not_mem_nil
    | [_] => exact .inr (.inr ⟨d, hd, rfl⟩)
    | _ :: _ :: _ => exact .inr (.inr ⟨d, List.mem_cons_of_mem _ hd, rfl⟩)
  | define other | bind other =>
    match ds with
    | [] => exact absurd hd List.not_mem_nil
    | d0 :: rest =>
      by_cases ho : other = name
      · simp only [Operation.date, if_pos ho] at hd
        rcases List.mem_cons.mp hd with rfl | hold
        · first
          | exact .inr (.inl rfl)
          | exact .inr (.inr ⟨d0, List.mem_cons_self, rfl⟩)
        · exact .inr (.inr ⟨d, List.mem_cons_of_mem _ hold, rfl⟩)
      · simp only [Operation.date, if_neg ho] at hd
        exact .inr (.inr ⟨d, hd, rfl⟩)

/-- Frames stay in order: an operation dates the innermost one only, and that one lies below no
other. -/
theorem pairwise_date (hds : ds.Pairwise Before)
    (hpast : ∀ d ∈ ds, ∀ i, d.declared = some i → i < now) :
    (op.date name now ds).Pairwise Before := by
  cases op with
  | enclose => exact hds
  | redefine other t => exact hds
  | enter => exact .cons (fun below _ => before_empty below) hds
  | exit =>
    match ds with
    | [] => exact hds
    | [_] => exact hds
    | _ :: _ :: _ => exact hds.of_cons
  | define other value =>
    match ds with
    | [] => exact hds
    | d :: rest =>
      have ⟨hfirst, hrest⟩ := List.pairwise_cons.mp hds
      simp only [Operation.date]
      split
      · exact .cons hfirst hrest
      · exact hds
  | bind other t =>
    match ds with
    | [] => exact hds
    | d :: rest =>
      have ⟨_, hrest⟩ := List.pairwise_cons.mp hds
      simp only [Operation.date]
      split
      · refine .cons ?_ hrest
        intro below hbelow i hi j hj
        obtain rfl : now = j := Option.some.inj hj
        exact hpast below (List.mem_cons_of_mem _ hbelow) i hi
      · exact hds

end Dates

/-! ### Frames -/

variable {op : Operation}

theorem framesOf_modifyFrames_of_lt (change : List Frame → List Frame)
    (he : e < σ.environments.size) :
    (σ.modifyFrames e change).framesOf e = change (σ.framesOf e) := by
  unfold framesOf modifyFrames
  rw [Array.getElem?_modify, if_pos rfl, Array.getElem?_eq_getElem he]
  rfl

/-- The environments there are stay, each with at least one frame if it had one. -/
structure Reframed (σ σ' : Scopes) : Prop where
  size : σ'.environments.size = σ.environments.size
  outer : ∀ i : Nat, (σ'.environments[i]?).bind Environment.outer =
    (σ.environments[i]?).bind Environment.outer
  framed : ∀ i < σ.environments.size, σ.framesOf i ≠ [] → σ'.framesOf i ≠ []

theorem Reframed.refl (σ : Scopes) : σ.Reframed σ := ⟨rfl, fun _ => rfl, fun _ _ h => h⟩

theorem reframed_modifyFrames (σ : Scopes) (e : Nat) {change : List Frame → List Frame}
    (hchange : ∀ f rest, change (f :: rest) ≠ []) : σ.Reframed (σ.modifyFrames e change) where
  size := size_modifyFrames ..
  outer := outer_modifyFrames σ e change
  framed i hi hframes := by
    by_cases hie : i = e
    · subst hie
      rw [framesOf_modifyFrames_of_lt change hi]
      obtain ⟨f, rest, hf⟩ := List.exists_cons_of_ne_nil hframes
      rw [hf]
      exact hchange f rest
    · rwa [framesOf_modifyFrames_of_ne _ _ hie]

/-- Only the making of an environment makes one. -/
theorem Operation.reframed_act (σ : Scopes) (hop : op ≠ .enclose) : σ.Reframed (op.act σ) := by
  cases op with
  | enclose => exact absurd rfl hop
  | enter => exact reframed_modifyFrames σ _ fun f rest => List.cons_ne_nil _ _
  | exit =>
    rw [Operation.act, Scopes.exit]
    refine reframed_modifyFrames σ _ fun f rest => ?_
    cases rest with
    | nil => exact List.cons_ne_nil _ _
    | cons g rest => exact List.cons_ne_nil _ _
  | define name value =>
    simp only [Operation.act, Scopes.define]
    split
    · exact .refl σ
    · change σ.Reframed (σ.modifyInnermost σ.newest (·.declare name value))
      rw [modifyInnermost]
      refine reframed_modifyFrames σ _ fun f rest => ?_
      exact List.cons_ne_nil _ _
  | redefine name t =>
    simp only [Operation.act, Scopes.redefine]
    split
    · refine reframed_modifyFrames σ _ fun f rest => ?_
      simp only [retypeFirst]
      split <;> exact List.cons_ne_nil _ _
    · exact .refl σ
  | bind name t =>
    rw [Operation.act, Scopes.bind, modifyInnermost]
    refine reframed_modifyFrames σ _ fun f rest => ?_
    exact List.cons_ne_nil _ _

/-- The frames of the environments after one was made. -/
theorem framesOf_add (σ : Scopes) (outer : Option Nat) (i : Nat) :
    (σ.add outer).2.framesOf i = if i = σ.environments.size then [{}] else σ.framesOf i := by
  unfold framesOf add
  rw [Array.getElem?_push]
  split <;> rfl

theorem outer_add (σ : Scopes) (outer : Option Nat) (i : Nat) :
    ((σ.add outer).2.environments[i]?).bind Environment.outer =
      if i = σ.environments.size then outer else (σ.environments[i]?).bind Environment.outer := by
  unfold add
  rw [Array.getElem?_push]
  split <;> rfl

namespace History

variable {h : History}

/-- No operation but the making of an environment dates the frames of any but the newest one. -/
theorem dates_cons (hop : op ≠ .enclose) (name : String) (h : History) (i : Nat) :
    dates name (op :: h) i = if i = h.scopes.newest then op.date name h.length (h.dates name i)
      else h.dates name i := by
  cases op with
  | enclose => exact absurd rfl hop
  | enter => rfl
  | exit => rfl
  | define other value => rfl
  | redefine other t => rfl
  | bind other t => rfl

namespace Chronicle

variable (c : Chronicle h name)
include c

theorem newest_lt : h.scopes.newest < h.scopes.environments.size := by
  have hmade := c.made
  unfold newest
  omega

theorem newest_succ : h.scopes.newest + 1 = h.scopes.environments.size := by
  have hmade := c.made
  unfold newest
  omega

/-- Environments that are not made yet have no frames to date. -/
theorem dates_eq_nil (hi : h.scopes.newest < i) : h.dates name i = [] := by
  have hnone : h.scopes.framesOf i = [] := by
    have hsize : ¬ i < h.scopes.environments.size := by
      rw [← c.newest_succ]
      omega
    simp [framesOf, hsize]
  have hdated := c.dated i
  rw [hnone] at hdated
  exact List.forall₂_nil_left_iff.mp hdated

theorem past {d : Dates} (hd : d ∈ h.dates name i) : ∃ f : Frame, f.Dated h name d := by
  have hdated := c.dated i
  obtain ⟨k, hk, rfl⟩ := List.getElem_of_mem hd
  have hlength := hdated.length_eq
  exact ⟨_, hdated.get (by omega) hk⟩

theorem enclose : Chronicle (.enclose :: h) name where
  made := by
    change 0 < (h.scopes.add (some h.scopes.newest)).2.environments.size
    simp [add]
  outer i o ho := by
    change ((h.scopes.add (some h.scopes.newest)).2.environments[i]?).bind _ = some o at ho
    rw [outer_add] at ho
    split at ho
    · have hlast := c.newest_lt
      obtain rfl : h.scopes.newest = o := Option.some.inj ho
      omega
    · exact c.outer i o ho
  framed i hi := by
    change (h.scopes.add (some h.scopes.newest)).2.framesOf i ≠ []
    rw [framesOf_add]
    split
    · exact List.cons_ne_nil _ _
    · have hsize : i < h.scopes.environments.size + 1 := by
        simpa [scopes, Operation.act, add] using hi
      exact c.framed i (by omega)
  dated i := by
    change List.Forall₂ _ ((h.scopes.add (some h.scopes.newest)).2.framesOf i) _
    rw [framesOf_add, dates, c.newest_succ]
    split
    · exact .cons .empty .nil
    · exact (c.dated i).imp fun _ _ => Frame.Dated.later
  within i := by
    rw [dates]
    split
    · exact List.pairwise_singleton _ _
    · exact c.within i
  across i k hik d hd below hbelow := by
    rw [dates] at hd hbelow
    split at hd
    · rw [List.mem_singleton.mp hd]
      exact Dates.before_empty below
    · split at hbelow
      · -- nothing lies inside the environment made last
        rw [c.dates_eq_nil (by omega)] at hd
        exact absurd hd List.not_mem_nil
      · exact c.across i k hik d hd below hbelow

/-- The frames of the newest environment are dated after an operation. -/
theorem dated_newest (hop : op ≠ .enclose) :
    List.Forall₂ (Frame.Dated (op :: h) name) ((op.act h.scopes).framesOf h.scopes.newest)
      (op.date name h.length (h.dates name h.scopes.newest)) := by
  obtain ⟨f, rest, hf⟩ := List.exists_cons_of_ne_nil (c.framed _ c.newest_lt)
  have hown : h.scopes.innermost h.scopes.newest = f := by
    unfold innermost
    rw [hf]
    rfl
  have hdated := c.dated h.scopes.newest
  rw [hf] at hdated
  obtain ⟨d, ds, hd, hds, hdates⟩ := List.forall₂_cons_left_iff.mp hdated
  rw [hdates]
  have hlater : List.Forall₂ (Frame.Dated (op :: h) name) rest ds :=
    hds.imp fun _ _ => Frame.Dated.later
  have hsame : List.Forall₂ (Frame.Dated (op :: h) name) (f :: rest) (d :: ds) :=
    .cons hd.later hlater
  cases op with
  | enclose => exact absurd rfl hop
  | enter =>
    rw [Operation.act, framesOf_enter hf]
    exact .cons .empty hsame
  | exit =>
    rw [Operation.act, Scopes.exit, framesOf_modifyFrames _ _ rfl, hf]
    cases hlater with
    | nil => exact hsame
    | cons hg hrest => exact .cons hg hrest
  | define other value =>
    simp only [Operation.act, Scopes.define, hown]
    split
    · next hdeclared =>
      rw [hf]
      simp only [Operation.date]
      split
      · next ho =>
        -- the name is declared already, and keeps the date
        subst ho
        cases hi : d.declared with
        | none => simp [Frame.declares, hd.undeclared hi] at hdeclared
        | some i =>
          have hd' : ({ d with declared := some i } : Dates) = d := by rw [← hi]
          rw [Option.some_or, hd']
          exact hsame
      · exact hsame
    · next hdeclared =>
      rw [modifyInnermost, framesOf_modifyFrames _ _ rfl, hf]
      simp only [Operation.date]
      split
      · next ho =>
        subst ho
        have hnew : f.values.lookup other = none :=
          Option.not_isSome_iff_eq_none.mp hdeclared
        exact .cons (hd.declare hnew hown value) hlater
      · next ho =>
        refine .cons (hd.of_like rfl ?_) hlater
        rw [Frame.lookup_declare_of_ne f value ho]
  | redefine other t =>
    simp only [Operation.act, Scopes.redefine]
    split
    · next i _ =>
      by_cases hi : h.scopes.newest = i
      · rw [← hi, framesOf_modifyFrames _ _ rfl, hf]
        exact Frame.Dated.retypeFirst t other (.cons hd hds)
      · rw [framesOf_modifyFrames_of_ne _ _ hi, hf]
        exact hsame
    · rw [hf]
      exact hsame
  | bind other t =>
    rw [Operation.act, Scopes.bind, modifyInnermost, framesOf_modifyFrames _ _ rfl, hf]
    simp only [Operation.date]
    split
    · next ho =>
      subst ho
      exact .cons (hd.narrow t) hlater
    · next ho =>
      exact .cons (hd.of_like (Bindings.lookup_put_of_ne (Ne.symm ho)) rfl) hlater

/-- The frames of the other environments keep their dates. -/
theorem dated_others (hop : op ≠ .enclose) (hi : i ≠ h.scopes.newest) :
    List.Forall₂ (Frame.Dated (op :: h) name) ((op.act h.scopes).framesOf i) (h.dates name i) := by
  have hsame : List.Forall₂ (Frame.Dated (op :: h) name) (h.scopes.framesOf i) (h.dates name i) :=
    (c.dated i).imp fun _ _ => Frame.Dated.later
  cases op with
  | enclose => exact absurd rfl hop
  | enter => rwa [Operation.act, Scopes.enter, framesOf_modifyFrames_of_ne _ _ hi]
  | exit => rwa [Operation.act, Scopes.exit, framesOf_modifyFrames_of_ne _ _ hi]
  | define other value =>
    simp only [Operation.act, Scopes.define]
    split
    · exact hsame
    · rwa [modifyInnermost, framesOf_modifyFrames_of_ne _ _ hi]
  | redefine other t =>
    simp only [Operation.act, Scopes.redefine]
    split
    · next k _ =>
      by_cases hk : i = k
      · rw [hk, framesOf_modifyFrames _ _ rfl, ← hk]
        exact Frame.Dated.retypeFirst t other (c.dated i)
      · rwa [framesOf_modifyFrames_of_ne _ _ hk]
    · exact hsame
  | bind other t =>
    rwa [Operation.act, Scopes.bind, modifyInnermost, framesOf_modifyFrames_of_ne _ _ hi]

/-- Every operation keeps a history in order. -/
theorem step (op : Operation) : Chronicle (op :: h) name := by
  by_cases hop : op = .enclose
  · subst hop
    exact c.enclose
  · have hr : h.scopes.Reframed (scopes (op :: h)) := Operation.reframed_act h.scopes hop
    constructor
    case made =>
      rw [hr.size]
      exact c.made
    case outer =>
      intro i o ho
      rw [hr.outer] at ho
      exact c.outer i o ho
    case framed =>
      intro i hi
      rw [hr.size] at hi
      exact hr.framed i hi (c.framed i hi)
    case dated =>
      intro i
      rw [dates_cons hop]
      split
      · next hi =>
        rw [hi]
        exact c.dated_newest hop
      · next hi => exact c.dated_others hop hi
    case within =>
      intro i
      rw [dates_cons hop]
      split
      · refine Dates.pairwise_date (c.within i) fun d hd k hk => ?_
        obtain ⟨f, hf⟩ := c.past hd
        exact hf.declared_lt hk
      · exact c.within i
    case across =>
      intro i k hik d hd below hbelow
      rw [dates_cons hop] at hd hbelow
      by_cases hk : k = h.scopes.newest
      · rw [if_pos hk] at hd
        rw [if_neg (by omega)] at hbelow
        intro a ha b hb
        obtain hnone | hnow | ⟨d0, hd0, hsame⟩ := Dates.narrowed_of_mem_date hd
        · simp [hnone] at hb
        · obtain ⟨f, hf⟩ := c.past hbelow
          obtain rfl : h.length = b := by simpa [hnow] using hb
          exact hf.declared_lt ha
        · exact c.across i k hik d0 hd0 below hbelow a ha b (hsame ▸ hb)
      · rw [if_neg hk] at hd
        split at hbelow
        · -- nothing lies inside the environment made last
          rw [c.dates_eq_nil (by omega)] at hd
          exact absurd hd List.not_mem_nil
        · exact c.across i k hik d hd below hbelow

end Chronicle

theorem chronicle (h : History) (name : String) : h.Chronicle name := by
  induction h with
  | nil =>
    constructor
    case made => exact Nat.one_pos
    case outer =>
      intro i o ho
      change ((({} : Scopes).add none).2.environments[i]?).bind _ = some o at ho
      rw [outer_add] at ho
      split at ho <;> simp at ho
    case framed =>
      intro i hi
      obtain rfl : i = 0 := Nat.lt_one_iff.mp hi
      exact List.cons_ne_nil _ _
    case dated =>
      intro i
      change List.Forall₂ _ ((({} : Scopes).add none).2.framesOf i) _
      rw [framesOf_add, dates]
      by_cases hi : i = 0
      · subst hi
        exact .cons .empty .nil
      · rw [if_neg hi, if_neg (show i ≠ (#[] : Array Environment).size from hi)]
        exact .nil
    case within =>
      intro i
      rw [dates]
      split
      · exact List.pairwise_singleton _ _
      · exact .nil
    case across =>
      intro i k hik d hd
      rw [dates, if_neg (by omega)] at hd
      exact absurd hd List.not_mem_nil
  | cons op h ih => exact ih.step op

end History

/-! ## Frames in sight -/

variable {h : History}

/-- An environment lies inside earlier ones only, so they are in sight in the order of their
making. -/
theorem chainAt_pairwise
    (houter : ∀ i o : Nat, (σ.environments[i]?).bind Environment.outer = some o → o < i)
    (n e : Nat) : (σ.chainAt n e).Pairwise (· > ·) ∧ ∀ i ∈ σ.chainAt n e, i ≤ e := by
  induction n generalizing e with
  | zero => exact ⟨.nil, fun i hi => absurd hi List.not_mem_nil⟩
  | succ n ih =>
    unfold chainAt
    cases ho : (σ.environments[e]?).bind Environment.outer with
    | none =>
      refine ⟨List.pairwise_singleton _ _, fun i hi => ?_⟩
      rw [List.mem_singleton.mp hi]
    | some o =>
      have hlt : o < e := houter e o ho
      obtain ⟨hpairwise, hle⟩ := ih o
      refine ⟨.cons (fun i hi => ?_) hpairwise, fun i hi => ?_⟩
      · have := hle i hi
        omega
      · cases List.mem_cons.mp hi with
        | inl hself => omega
        | inr hrest =>
          have := hle i hrest
          omega

namespace History

theorem dated (h : History) (name : String) :
    List.Forall₂ (Frame.Dated h name) (h.scopes.visible h.scopes.newest) (h.seen name) := by
  unfold visible seen
  induction h.scopes.chain h.scopes.newest with
  | nil => exact .nil
  | cons i rest ih =>
    rw [List.flatMap_cons, List.flatMap_cons]
    exact List.rel_append ((h.chronicle name).dated i) ih

theorem chronological (h : History) (name : String) : (h.seen name).Pairwise Dates.Before := by
  have c := h.chronicle name
  refine List.pairwise_flatMap.mpr ⟨fun i _ => c.within i, ?_⟩
  refine (chainAt_pairwise c.outer _ _).1.imp fun hgt d hd below hbelow => ?_
  exact c.across _ _ hgt d hd below hbelow

end History

namespace Dates

variable {fs : List Frame} {ds : List Dates}

/-- Where no narrowing comes before the declaration, the look-up gives the declared type. -/
theorem lookup_of_narrowedIn_eq_none (hdated : List.Forall₂ (Frame.Dated h name) fs ds)
    (hnone : narrowedIn ds = none) :
    fs.findSome? (·.lookup name) =
      (fs.findSome? (·.values.lookup name)).map ValueDecl.type := by
  induction hdated with
  | nil => rfl
  | @cons f d fs ds hf _ ih =>
    rw [List.findSome?_cons, List.findSome?_cons]
    match d with
    | ⟨_, some j⟩ => simp [narrowedIn] at hnone
    | ⟨some i, none⟩ =>
      obtain ⟨-, -, -, -, ⟨v, hv, -⟩, -⟩ := hf.declared i rfl
      simp [Frame.lookup, hf.unnarrowed rfl, hv]
    | ⟨none, none⟩ =>
      simp only [Frame.lookup, hf.unnarrowed rfl, hf.undeclared rfl, Option.map_none]
      exact ih hnone

/-- A narrowing that comes before the declaration is what the look-up gives. It was made after the
declaration, or in the frame of the declaration before that was made. -/
theorem lookup_of_narrowedIn_eq_some (hdated : List.Forall₂ (Frame.Dated h name) fs ds)
    (hordered : ds.Pairwise Before) {j : Nat} (hj : narrowedIn ds = some j) :
    ∃ t, ∃ before : History, .bind name t :: before <:+ h ∧ before.length = j ∧
      fs.findSome? (·.lookup name) = some t ∧
      ∀ i, declaredIn ds = some i → i < j ∨ ∃ value, ∃ earlier : History,
        .define name value :: earlier <:+ h ∧ earlier.length = i ∧
          (earlier.scopes.innermost earlier.scopes.newest).narrowings.lookup name = some t := by
  induction hdated with
  | nil => simp [narrowedIn] at hj
  | @cons f d fs ds hf hrest ih =>
    have ⟨hfirst, hfurther⟩ := List.pairwise_cons.mp hordered
    clear hordered
    rw [List.findSome?_cons]
    match d with
    | ⟨di, some k⟩ =>
      obtain rfl : k = j := Option.some.inj hj
      obtain ⟨t, before, hsuffix, hlength, ht⟩ := hf.narrowed k rfl
      refine ⟨t, before, hsuffix, hlength, by simp [Frame.lookup, ht], fun i hi => ?_⟩
      cases di with
      | none =>
        -- declared further out, hence before the frame was narrowed
        obtain ⟨below, hbelow, hi⟩ := List.exists_of_findSome?_eq_some
          (show ds.findSome? declared = some i from hi)
        exact .inl (hfirst below hbelow i hi k rfl)
      | some i' =>
        obtain rfl : i' = i := Option.some.inj hi
        obtain ⟨value, earlier, hdefined, hdate, -, hstale⟩ := hf.declared i' rfl
        by_cases hlt : i' < k
        · exact .inl hlt
        · have hne : k ≠ i' := by
            rintro rfl
            -- the two dates are of different operations
            have heq : Operation.bind name t :: before = .define name value :: earlier :=
              (List.suffix_of_suffix_length_le hsuffix hdefined
              (by simp [hlength, hdate])).eq_of_length
                (by simp [hlength, hdate])
            cases heq
          exact .inr ⟨value, earlier, hdefined, hdate, (hstale k rfl (by omega)).trans ht⟩
    | ⟨some i, none⟩ => simp [narrowedIn] at hj
    | ⟨none, none⟩ =>
      have hnone : f.lookup name = none := by
        simp [Frame.lookup, hf.unnarrowed rfl, hf.undeclared rfl]
      rw [hnone]
      exact ih hfurther hj

/-- The declaration that is found first was made at its date. -/
theorem declaredIn_of_value? (hdated : List.Forall₂ (Frame.Dated h name) fs ds)
    (hvalue : fs.findSome? (·.values.lookup name) = some value) :
    ∃ v, ∃ earlier : History, .define name v :: earlier <:+ h ∧
      declaredIn ds = some earlier.length ∧ v.isConst = value.isConst := by
  induction hdated with
  | nil => simp at hvalue
  | @cons f d fs ds hf _ ih =>
    rw [List.findSome?_cons] at hvalue
    rw [declaredIn, List.findSome?_cons]
    match d with
    | ⟨some i, _⟩ =>
      obtain ⟨v, earlier, hsuffix, rfl, ⟨own, hown, hconst⟩, -⟩ := hf.declared i rfl
      obtain rfl : own = value := by simpa [hown] using hvalue
      exact ⟨v, earlier, hsuffix, rfl, hconst.symm⟩
    | ⟨none, _⟩ =>
      rw [hf.undeclared rfl] at hvalue
      exact ih hvalue

end Dates

/-! ## What a look-up finds -/

theorem visible_of_framesOf {f : Frame} {rest : List Frame}
    (hf : σ.framesOf e = f :: rest) : ∃ further, σ.visible e = f :: further := by
  refine ⟨rest ++ (σ.chain e).tail.flatMap σ.framesOf, ?_⟩
  unfold visible
  rw [chain, chainAt, List.flatMap_cons, hf]
  rfl

/-- A name declared anew is seen as it was declared, unless the frame narrows it. -/
theorem define_eq_true (hframe : σ.framesOf e ≠ []) (hnew : (σ.define e name value).1 = true) :
    (σ.define e name value).2.value? e name = some value ∧
      (σ.define e name value).2.lookup e name =
        some (((σ.innermost e).narrowings.lookup name).getD value.type) := by
  obtain ⟨f, rest, hf⟩ := List.exists_cons_of_ne_nil hframe
  have hown : σ.innermost e = f := by
    unfold innermost
    rw [hf]
    rfl
  unfold define at hnew ⊢
  rw [hown] at hnew ⊢
  split at hnew
  · cases hnew
  · next hdeclared =>
    rw [if_neg hdeclared]
    have hframes : (σ.modifyInnermost e (·.declare name value)).framesOf e =
        f.declare name value :: rest := by
      rw [modifyInnermost, framesOf_modifyFrames _ _ rfl, hf]
    obtain ⟨further, hvisible⟩ := visible_of_framesOf hframes
    have hvalue : (f.declare name value).values.lookup name = some value := by
      have hnone : f.values.lookup name = none := Option.not_isSome_iff_eq_none.mp hdeclared
      simp [Frame.declare, List.lookup_append, hnone]
    have hnarrowings : (f.declare name value).narrowings = f.narrowings := rfl
    constructor
    · rw [value?, hvisible, List.findSome?_cons, hvalue]
    · rw [lookup, hvisible, List.findSome?_cons, Frame.lookup, hvalue, hnarrowings]
      cases f.narrowings.lookup name <;> rfl

namespace History

/-- The declaration of a name has a date in the history. A look-up gives the declared type, or the
type of a narrowing that was made after the declaration or that the frame of the declaration held
already. Right after a name was declared that frame alone can make the look-up give another type
than the declared one. -/
theorem lookup_newest (h : History) (name : String) :
    let σ := h.scopes
    (∀ value, σ.value? σ.newest name = some value → ∃ v, ∃ earlier : History,
      .define name v :: earlier <:+ h ∧ h.declaredAt name = some earlier.length ∧
        v.isConst = value.isConst) ∧
    (h.narrowedAt name = none →
      σ.lookup σ.newest name = (σ.value? σ.newest name).map ValueDecl.type) ∧
    (∀ j, h.narrowedAt name = some j → ∃ t, ∃ before : History,
      .bind name t :: before <:+ h ∧ before.length = j ∧ σ.lookup σ.newest name = some t ∧
        ∀ i, h.declaredAt name = some i → i < j ∨ ∃ v, ∃ earlier : History,
          .define name v :: earlier <:+ h ∧ earlier.length = i ∧
            (earlier.scopes.innermost earlier.scopes.newest).narrowings.lookup name = some t) ∧
    (∀ value, ∀ earlier : History, h = .define name value :: earlier →
      (earlier.scopes.define earlier.scopes.newest name value).1 = true →
        σ.value? σ.newest name = some value ∧ σ.lookup σ.newest name = some
          (((earlier.scopes.innermost earlier.scopes.newest).narrowings.lookup name).getD
            value.type)) := by
  intro σ
  have hdated := h.dated name
  refine ⟨?declaration, ?declared, ?narrowed, ?fresh⟩
  case declaration =>
    intro value hvalue
    exact Dates.declaredIn_of_value? hdated hvalue
  case declared =>
    intro hnone
    exact Dates.lookup_of_narrowedIn_eq_none hdated hnone
  case narrowed =>
    intro j hj
    exact Dates.lookup_of_narrowedIn_eq_some hdated (h.chronological name) hj
  case fresh =>
    intro value earlier hh hnew
    subst hh
    have c := earlier.chronicle name
    have hreframed : earlier.scopes.Reframed ((Operation.define name value).act earlier.scopes) :=
      Operation.reframed_act earlier.scopes nofun
    have hsize := hreframed.size
    have hnewest : σ.newest = earlier.scopes.newest := congrArg (· - 1) hsize
    rw [hnewest]
    exact define_eq_true (c.framed _ c.newest_lt) hnew

/-- A frame narrows an outer variable, then declares a variable of that name. The look-up gives the
type of the outer one as it was narrowed before the declaration. -/
theorem lookup_newest_stale :
    let outer : ValueDecl := ⟨.unknown, false⟩
    let inner : ValueDecl := ⟨.string, false⟩
    let before : History := [.bind "x" .number, .enter, .define "x" outer]
    let h : History := .define "x" inner :: before
    (before.scopes.define before.scopes.newest "x" inner).1 = true ∧
      h.scopes.value? h.scopes.newest "x" = some inner ∧
      h.scopes.lookup h.scopes.newest "x" = some .number ∧
      h.declaredAt "x" = some 3 ∧ h.narrowedAt "x" = some 2 := by
  decide

end History

end Scopes

end ShapeCheck
