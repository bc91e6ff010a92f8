import ShapeCheck.Proofs.GlobalScope

/-!
# What a check restores

The frames that a check opens are closed again, and what it found out about the function around it
is put back before the next step. Below the innermost frame of its environment nothing changes but
the declared types of global functions whose results are inferred meanwhile, and the innermost frame
at most gains values and narrowings.

* `Frame.Retyped` says which frames differ in declared types only, `Frame.Gained` which have gained
  something besides. `Scopes.Restored` puts them together.
* `Session.Restored` says of a session that it is as before in this sense. The types given to values
  are those of functions that waited for their inference before, and do not any more.
* `Effect.restored` makes it an effect, so that it goes through expressions, conditions and
  statements; `Function.restores_settle` is the inference of a result type.
* `Walk.restores` is the result. Inside the global environment itself, where the initializers of
  top-level variables are checked, a type that is inferred may be given to a local value of the
  same name (`Walk.retypes_local`).
-/

namespace ShapeCheck

variable {name : String} {t : Ty} {units : Array Declaration} {d : FunctionDecl}
  {progress : Progress} {frozen : Prop}

open Check

/-! ## Frames -/

/-- A name that is narrowed again keeps its place. -/
theorem Bindings.names_put (b : Bindings) (name : String) (t : Ty) :
    b.map Prod.fst <+: (b.put name t).map Prod.fst := by
  unfold put
  split
  · refine ⟨[], (List.append_nil _).trans ?_⟩
    rw [List.map_map, List.map_inj_left]
    rintro ⟨n, u⟩ -
    dsimp only [Function.comp]
    split <;> rfl
  · rw [List.map_append]
    exact List.prefix_append ..

namespace Frame

/-- A declared value, and the same with its type or with one that its name may be given. -/
structure Retypes (R : String → Ty → Prop) (p q : String × ValueDecl) : Prop where
  name : q.1 = p.1
  isConst : q.2.isConst = p.2.isConst
  type : q.2.type = p.2.type ∨ R p.1 q.2.type

/-- A frame that narrows the same names to the same types and declares the same values, some with
types that they may be given. -/
structure Retyped (R : String → Ty → Prop) (f f' : Frame) : Prop where
  narrowings : f'.narrowings = f.narrowings
  values : List.Forall₂ (Retypes R) f.values f'.values

/-- A frame that declares further values behind those that there were, and narrows further names. -/
structure Gained (R : String → Ty → Prop) (f f' : Frame) : Prop where
  values : List.Forall₂ (Retypes R) f.values (f'.values.take f.values.length)
  names : f.narrowings.map Prod.fst <+: f'.narrowings.map Prod.fst

variable {R R' : String → Ty → Prop} {p q r : String × ValueDecl} {f g h : Frame}

theorem Retypes.refl (p : String × ValueDecl) : Retypes R p p := ⟨rfl, rfl, .inl rfl⟩

theorem Retypes.trans (hpq : Retypes R p q) (hqr : Retypes R q r) : Retypes R p r where
  name := hqr.name.trans hpq.name
  isConst := hqr.isConst.trans hpq.isConst
  type := by
    rcases hqr.type with heq | hR
    · rw [heq]
      exact hpq.type
    · exact .inr (hpq.name ▸ hR)

theorem Retypes.mono (hR : ∀ name t, R name t → R' name t) (h : Retypes R p q) : Retypes R' p q :=
  ⟨h.name, h.isConst, h.type.imp_right (hR _ _)⟩

theorem Retyped.refl (f : Frame) : f.Retyped R f := ⟨rfl, List.forall₂_same.2 fun p _ => .refl p⟩

theorem Retyped.trans (hfg : f.Retyped R g) (hgh : g.Retyped R h) : f.Retyped R h :=
  ⟨hgh.narrowings.trans hfg.narrowings, forall₂_trans (fun _ _ _ => .trans) hfg.values hgh.values⟩

theorem Retyped.mono (hR : ∀ name t, R name t → R' name t) (h : f.Retyped R g) : f.Retyped R' g :=
  ⟨h.narrowings, h.values.imp fun _ _ => .mono hR⟩

theorem Retyped.gained (h : f.Retyped R g) : f.Gained R g where
  values := by
    rw [h.values.length_eq, List.take_length]
    exact h.values
  names := by rw [h.narrowings]

theorem Gained.trans (hfg : f.Gained R g) (hgh : g.Gained R h) : f.Gained R h where
  values := by
    have hlength : f.values.length ≤ g.values.length := by
      have := hfg.values.length_eq
      rw [List.length_take] at this
      omega
    have hrest := List.forall₂_take f.values.length hgh.values
    rw [List.take_take, Nat.min_eq_left hlength] at hrest
    exact forall₂_trans (fun _ _ _ => .trans) hfg.values hrest
  names := hfg.names.trans hgh.names

theorem Gained.mono (hR : ∀ name t, R name t → R' name t) (h : f.Gained R g) : f.Gained R' g :=
  ⟨h.values.imp fun _ _ => .mono hR, h.names⟩

theorem gained_declare (f : Frame) (name : String) (v : ValueDecl) :
    f.Gained R (f.declare name v) where
  values := by
    rw [declare, List.take_left]
    exact List.forall₂_same.2 fun p _ => .refl p
  names := List.prefix_rfl

theorem gained_narrow (f : Frame) (name : String) (t : Ty) : f.Gained R (f.narrow name t) where
  values := by
    rw [narrow, List.take_length]
    exact List.forall₂_same.2 fun p _ => .refl p
  names := Bindings.names_put ..

theorem retyped_retype (hR : R name t) (f : Frame) :
    f.Retyped R (f.retype name t) where
  narrowings := rfl
  values := by
    rw [retype, List.forall₂_map_right_iff, List.forall₂_same]
    rintro ⟨n, v⟩ -
    dsimp only
    split
    next hn =>
      exact ⟨rfl, rfl, .inr (hn ▸ hR)⟩
    · exact .refl _

end Frame

namespace Scopes

/-- The frames that there were are as before, but for types given to declared names and for what the
innermost frame of one environment gained. `R i` says which names in the frames of the `i`-th
environment may be given which types. -/
abbrev Restored (R : Nat → String → Ty → Prop) (e : Nat) (σ σ' : Scopes) : Prop :=
  σ.Differ (fun i => Frame.Retyped (R i)) (Frame.Gained (R e)) e σ'

variable {R R' : Nat → String → Ty → Prop} {e : Nat} {σ σ' σ'' : Scopes}

theorem Restored.refl (σ : Scopes) : σ.Restored R e σ :=
  Differ.refl (fun _ _ => Frame.Retyped.gained) (fun _ => .refl) σ

theorem Restored.trans (h : σ.Restored R e σ') (h' : σ'.Restored R e σ'') : σ.Restored R e σ'' :=
  Differ.trans (fun _ _ _ _ => .trans) (fun _ _ _ => .trans) h h'

theorem Restored.mono (hR : ∀ i name t, R i name t → R' i name t) (h : σ.Restored R e σ') :
    σ.Restored R' e σ' where
  grows := h.grows
  outer := h.outer
  others i hi hne := (h.others i hi hne).imp fun _ _ => .mono (hR i)
  own f rest hf := by
    obtain ⟨f', rest', hf', hg, hr⟩ := h.own f rest hf
    exact ⟨f', rest', hf', hg.mono (hR e), hr.imp fun _ _ => .mono (hR e)⟩

theorem Restored.define (name : String) (v : ValueDecl) : σ.Restored R e (σ.define e name v).2 := by
  unfold Scopes.define
  split
  · exact .refl _
  · exact .modifyInnermost (fun _ => .refl) fun f => f.gained_declare name v

theorem Restored.bind (name : String) (t : Ty) : σ.Restored R e (σ.bind e name t) :=
  .modifyInnermost (fun _ => .refl) fun f => f.gained_narrow name t

theorem Restored.frame (h : (σ.enter e).Restored R e σ') : σ.Restored R e (σ'.exit e) :=
  Differ.frame (fun _ _ => Frame.Retyped.gained) h

theorem Restored.unit (h : (σ.add (some globals)).2.Restored R (σ.add (some globals)).1 σ') :
    σ.Restored R e σ' :=
  Differ.unit (fun _ _ => Frame.Retyped.gained) h

theorem retyped_retypeFirst {S : String → Ty → Prop} (hS : S name t)
    (fs : List Frame) : List.Forall₂ (Frame.Retyped S) fs (retypeFirst name t fs) := by
  induction fs with
  | nil => exact .nil
  | cons f rest ih =>
    unfold retypeFirst
    split
    · exact .cons (Frame.retyped_retype hS f) (List.forall₂_same.2 fun f _ => .refl f)
    · exact .cons (.refl f) ih

/-- Nothing is around the global environment, so a name is given its type in a frame of it. -/
theorem Restored.redefine (hR : R globals name t) :
    σ.Restored R e (σ.redefine globals name t).2 := by
  unfold Scopes.redefine
  split
  next i hfound =>
    have hi : i = globals := by
      have hmem := List.mem_of_find?_eq_some hfound
      unfold chain chainAt at hmem
      rcases List.mem_cons.1 hmem with hi | hrest
      · exact hi
      · split at hrest <;> simp [globals, chainAt] at hrest
    subst hi
    exact .modifyFrames (fun _ _ => Frame.Retyped.gained) (fun _ => .refl)
      (retyped_retypeFirst hR)
  · exact .refl _

end Scopes

/-! ## Sessions -/

/-- The types that values may be given once types were inferred for functions: a value of the global
environment that of a function of its name. -/
def Inferred (units : Array Declaration) (inferred : List (Nat × Ty)) (e : Nat) (name : String)
    (t : Ty) : Prop :=
  e = globals ∧ ∃ unit d, (unit, t) ∈ inferred ∧ units[unit]? = some (.function d) ∧ d.name = name

theorem Inferred.mono {inferred more : List (Nat × Ty)}
    (hsub : inferred ⊆ more) (e : Nat) (name : String) (t : Ty)
    (h : Inferred units inferred e name t) : Inferred units more e name t := by
  obtain ⟨he, unit, d, hmem, hd⟩ := h
  exact ⟨he, unit, d, hsub hmem, hd⟩

namespace Session

/-- The result type of the function at a place is still to be inferred. -/
def Waits (s : Session) (unit : Nat) : Prop :=
  ∃ p ∈ s.pending, p.unit = unit ∧ p.progress = .waiting

/-- What a check restores. The types given to values are those that were inferred meanwhile, for
functions that waited before and do not wait any more. The types that the function around the place
returned so far are kept; if they are frozen, none are added either. -/
structure Restored (units : Array Declaration) (frozen : Prop) (w : Walker) (s s' : Session) :
    Prop where
  scopes : ∃ inferred, s'.implementations = inferred ++ s.implementations ∧
    (∀ p ∈ inferred, s.Waits p.1 ∧ ¬ s'.Waits p.1) ∧
    s.scopes.Restored (Inferred units inferred) w.environment s'.scopes
  waits : ∀ unit, s'.Waits unit → s.Waits unit
  returns : s.returns <+: s'.returns
  frozen : frozen → s'.returns = s.returns

variable {w : Walker} {s s' s'' : Session}

/-- Nothing but the frames of the environment changed. -/
theorem Restored.of_scopes (himpl : s'.implementations = s.implementations)
    (hpending : s'.pending = s.pending) (hreturns : s'.returns = s.returns)
    (hscopes : s.scopes.Restored (Inferred units []) w.environment s'.scopes) :
    s.Restored units frozen w s' where
  scopes := ⟨[], himpl, List.forall_mem_nil _, hscopes⟩
  waits unit h := by rwa [Waits, hpending] at h
  returns := by rw [hreturns]
  frozen _ := hreturns

theorem Restored.refl (s : Session) : s.Restored units frozen w s :=
  .of_scopes rfl rfl rfl (.refl _)

theorem Restored.trans (h : s.Restored units frozen w s') (h' : s'.Restored units frozen w s'') :
    s.Restored units frozen w s'' where
  scopes := by
    obtain ⟨old, himpl, hold, hscopes⟩ := h.scopes
    obtain ⟨new, himpl', hnew, hscopes'⟩ := h'.scopes
    refine ⟨new ++ old, by rw [himpl', himpl, List.append_assoc], fun p hp => ?_,
      (hscopes.mono (Inferred.mono (List.subset_append_right ..))).trans
        (hscopes'.mono (Inferred.mono (List.subset_append_left ..)))⟩
    rcases List.mem_append.1 hp with hp | hp
    · exact ⟨h.waits _ (hnew p hp).1, (hnew p hp).2⟩
    · exact ⟨(hold p hp).1, fun hw => (hold p hp).2 (h'.waits _ hw)⟩
  waits unit hw := h.waits unit (h'.waits unit hw)
  returns := h.returns.trans h'.returns
  frozen hf := (h'.frozen hf).trans (h.frozen hf)

/-- The type that was inferred for a function that waited is kept. -/
theorem Restored.keeping {unit : Nat} {σ : Scopes}
    (h : s.Restored units frozen w s') (hwaits : s.Waits unit) (hdone : ¬ s'.Waits unit)
    (hunit : units[unit]? = some (.function d))
    (hσ : σ = s'.scopes ∨ σ = (s'.scopes.redefine globals d.name t).2) :
    s.Restored units frozen w
      { s' with implementations := (unit, t) :: s'.implementations, scopes := σ } where
  scopes := by
    obtain ⟨inferred, himpl, hinferred, hscopes⟩ := h.scopes
    refine ⟨(unit, t) :: inferred, congrArg _ himpl, ?_,
      (hscopes.mono (Inferred.mono (List.subset_cons_self ..))).trans ?_⟩
    · rintro p (_ | ⟨_, hp⟩)
      exacts [⟨hwaits, hdone⟩, hinferred p hp]
    · rcases hσ with rfl | rfl
      · exact .refl _
      · exact .redefine ⟨rfl, unit, d, List.mem_cons_self, hunit, rfl⟩
  waits := h.waits
  returns := h.returns
  frozen := h.frozen

/-- The session once the inference for a function has come so far. -/
def inferring (s : Session) (unit : Nat) (progress : Progress) : Session :=
  { s with pending := s.pending.map fun p => if p.unit = unit then { p with progress } else p }

theorem waits_inferring {unit : Nat} (hp : progress ≠ .waiting) (u : Nat) :
    (s.inferring unit progress).Waits u ↔ s.Waits u ∧ u ≠ unit := by
  unfold Waits inferring
  simp only [List.mem_map]
  constructor
  · rintro ⟨_, ⟨p, hmem, rfl⟩, hu, hwaiting⟩
    split at hwaiting
    · exact absurd hwaiting hp
    next hne =>
      rw [if_neg hne] at hu
      exact ⟨⟨p, hmem, hu, hwaiting⟩, hu ▸ hne⟩
  · rintro ⟨⟨p, hmem, hu, hwaiting⟩, hne⟩
    exact ⟨p, ⟨p, hmem, if_neg (hu ▸ hne)⟩, hu, hwaiting⟩

theorem Restored.inferring {unit : Nat} (hp : progress ≠ .waiting) :
    s.Restored units frozen w (s.inferring unit progress) where
  scopes := ⟨[], rfl, List.forall_mem_nil _, .refl _⟩
  waits u h := ((waits_inferring hp u).1 h).1
  returns := List.prefix_rfl
  frozen _ := rfl

end Session

/-- The effect of restoring what there was. -/
def Effect.restored (units : Array Declaration) (frozen : Prop) : Effect where
  starts _ := True
  change _ := Session.Restored units frozen
  remains _ := id
  starts_scopes := id
  refl := .refl _
  trans := .trans
  types _ := .of_scopes rfl rfl rfl (.refl _)
  notes _ := .of_scopes rfl rfl rfl (.refl _)
  context henv _ h := ⟨henv ▸ h.scopes, h.waits, h.returns, h.frozen⟩
  binds _ := .of_scopes rfl rfl rfl (.bind ..)
  defines _ := .of_scopes rfl rfl rfl (.define ..)
  frame h := by
    obtain ⟨inferred, himpl, hinferred, hscopes⟩ := h.scopes
    exact ⟨⟨inferred, himpl, hinferred, hscopes.frame⟩, h.waits, h.returns, h.frozen⟩

/-! ## Bodies and the inference of results -/

namespace Check

variable {C : Change} {α : Type}

theorem restores_inUnit {unit : Nat} {work : Check α}
    (h : Leaves (Effect.restored units frozen) .any work) :
    Leaves (Effect.restored units frozen) C (inUnit unit work) := by
  intro w s a s' _ ha
  obtain ⟨e, t, ht, ha⟩ := bind_eq_some.1 ha
  cases ht
  have hr : Session.Restored units frozen _ _ s' := h trivial ha
  obtain ⟨inferred, himpl, hinferred, hscopes⟩ := hr.scopes
  exact ⟨⟨inferred, himpl, hinferred, hscopes.unit⟩, hr.waits, hr.returns, hr.frozen⟩

/-- What a body returns is noted apart from what the function around it returned. -/
theorem restores_collectReturns {statements : Check Bool}
    (h : Leaves (Effect.restored units False) C statements) :
    Leaves (Effect.restored units frozen) C (Body.collectReturns statements) := by
  intro w s a s' _ ha
  obtain ⟨before, t, ht, ha⟩ := bind_eq_some.1 ha
  obtain ⟨exits, u, hu, ha⟩ := bind_eq_some.1 ha
  obtain ⟨returns, v, hv, ha⟩ := bind_eq_some.1 ha
  cases ht
  cases hv
  cases ha
  have hr : Session.Restored units False w { s with returns := [] } u := h trivial hu
  exact ⟨hr.scopes, hr.waits, List.prefix_rfl, fun _ => rfl⟩

end Check

instance (units : Array Declaration) : Effect.Returning (Effect.restored units False) where
  returned _ t _ s a s' _ ha := by
    cases ha
    exact ⟨⟨[], rfl, List.forall_mem_nil _, .refl _⟩, fun _ h => h,
      List.prefix_append .., False.elim⟩
  collects := restores_collectReturns

namespace Function

variable {settle : String → Check Unit}

section Inference

variable (hsettle : ∀ frozen C name, Leaves (Effect.restored units frozen) C (settle name))
include hsettle

theorem restores_body (d : FunctionDecl) (c : Callable) (frozen : Prop) :
    Leaves (Effect.restored units frozen) .any (Body.check (Walk.bodyOf settle d c false)) :=
  Walk.leaves_checkCollecting (hsettle frozen) (d := d) rfl rfl
    (restores_collectReturns (Walk.leaves_bodyStatements (hsettle False) d.body))

theorem restores_infer {unit : Nat} {w : Walker}
    {s s' : Session} {a : Unit} (hunit : units[unit]? = some (.function d)) (hwaits : s.Waits unit)
    (ha : infer settle unit d w s = some (a, s')) : s.Restored units frozen w s' := by
  unfold infer at ha
  obtain ⟨_, _, h, ha⟩ := bind_eq_some.1 ha
  cases h
  obtain ⟨_, _, h, ha⟩ := bind_eq_some.1 ha
  cases h
  obtain ⟨_, _, h, ha⟩ := bind_eq_some.1 ha
  cases h
  have hrunning : s.Restored units frozen w (s.inferring unit .running) := .inferring (by decide)
  dsimp only at ha
  cases hc : (s.implementations.lookup unit).bind s.table.callable? with
  | none =>
    rw [hc] at ha
    cases ha
    exact hrunning
  | some c =>
    rw [hc] at ha
    obtain ⟨result, s1, h1, ha⟩ := bind_eq_some.1 ha
    obtain ⟨t, s2, h2, ha⟩ := bind_eq_some.1 ha
    obtain ⟨_, _, h, ha⟩ := bind_eq_some.1 ha
    cases h
    cases ha
    have hbody : (s.inferring unit .running).Restored units frozen w s1 :=
      restores_inUnit (C := .any) (leaves_speculate (restores_body hsettle d c frozen)) trivial h1
    have htype : s1.Restored units frozen w s2 :=
      leaves_interning (E := Effect.restored units frozen) (C := .any)
        (Interning.keeps_functionOf _) trivial h2
    have hdone : ¬ s2.Waits unit := fun hw =>
      ((Session.waits_inferring (by decide) unit).1 ((hbody.trans htype).waits unit hw)).2 rfl
    have hgiven := ite_eq_or_eq ((s2.overloads.lookup unit).isSome = true) s2.scopes
      (s2.scopes.redefine globals d.name t).2
    have hkept := ((hrunning.trans hbody).trans htype).keeping hwaits hdone hunit hgiven
    exact hkept.trans (.inferring (by decide))

theorem restores_inferUnit (unit : Nat) (frozen : Prop) (C : Change) :
    Leaves (Effect.restored units frozen) C (inferUnit units settle unit) := by
  intro w s a s' _ ha
  unfold inferUnit at ha
  obtain ⟨_, _, h, ha⟩ := bind_eq_some.1 ha
  cases h
  cases hfound : s.pending.find? fun p => p.unit = unit && p.progress = .waiting with
  | none =>
    rw [hfound] at ha
    cases ha
    exact .refl _
  | some p =>
    have hp : p.unit = unit ∧ p.progress = .waiting := by simpa using List.find?_some hfound
    rw [hfound] at ha
    rcases hunit : units[unit]? with _ | (_ | _ | _ | d | _ | _ | _) <;> rw [hunit] at ha
    case some.function =>
      exact restores_infer hsettle hunit ⟨p, List.mem_of_find?_eq_some hfound, hp⟩ ha
    all_goals
      cases ha
      exact .refl _

end Inference

/-- Inferences nest, so this is by induction on how deep they may. -/
theorem restores_settleAt (depth : Nat) (frozen : Prop) (C : Change) (name : String) :
    Leaves (Effect.restored units frozen) C (settleAt units depth name) := by
  induction depth generalizing frozen C name with
  | zero => exact leaves_pure ()
  | succ depth ih =>
    unfold settleAt
    refine leaves_bind leaves_session fun s => ?_
    split
    · exact restores_inferUnit ih _ frozen C
    · exact leaves_pure ()

theorem restores_settle (frozen : Prop) (C : Change) (name : String) :
    Leaves (Effect.restored units frozen) C (Function.settle units name) :=
  restores_settleAt _ frozen C name

end Function

/-! ## Statements, expressions and conditions -/

/-- Work that restores the session, and after which the next step has the context that it had. -/
def Check.Restores (units : Array Declaration) (frozen : Prop) {α : Type} (work : Check α) : Prop :=
  ∀ ⦃w s a s'⦄, work w s = some (a, s') → s.Restored units frozen w s' ∧
    ∀ {β : Type} (next : α → Check β), (work >>= next) w s = next a w s'

theorem Check.restores_of_leaves {α : Type}
    {work : Check α} (h : Leaves (Effect.restored units frozen) .any work) :
    Restores units frozen work :=
  fun _ _ _ _ ha => ⟨h trivial ha, fun _ => bind_of_some ha⟩

namespace Walk

/-- A check of a statement, of an expression or of what a condition proves restores what there was,
and the latter two note no returned type. -/
theorem restores (units : Array Declaration) :
    (∀ st : Stmt, Restores units False (statement (Function.settle units) st)) ∧
      (∀ (e : Expr) (expected : Option Ty),
        Restores units True (check (Function.settle units) e expected)) ∧
      ∀ e : Expr, Restores units True (guard (Function.settle units) e) := by
  have hsettle (frozen : Prop) (C : Change) (name : String) :
      Leaves (Effect.restored units frozen) C (Function.settle units name) :=
    Function.restores_settle frozen C name
  refine ⟨fun st => ?_, fun e expected => ?_, fun e => ?_⟩
  · exact restores_of_leaves (leaves_statement (hsettle False) st)
  · exact restores_of_leaves (leaves_check (hsettle True) .any e (fun _ _ => rfl) expected)
  · exact restores_of_leaves (leaves_guard (hsettle True) .any e fun _ _ => rfl)

/-- A function `f` that returns `true` and whose result type is not written. -/
def yielding : FunctionDecl :=
  { position := {}, name := "f", signature := .mk {} [] [] none none none
    body := some (.mk {} [.exit {} (some (.boolean {} true))]) }

/-- A session in which the result type of `yielding` is still to be inferred; its environments may
declare `f` with the type that it has so far. -/
def waiting (environments : Ty → Array Environment) : Session :=
  let (t, table) := (Ty.functionOf { result := .any }).run {}
  { table, scopes := ⟨environments t⟩, implementations := [(0, t)]
    pending := [{ name := "f", unit := 0 }] }

/-- Inside the global environment, which declares `f`. -/
def waitingInside : Session :=
  waiting fun t => #[{ frames := [{ values := [("f", ⟨t, true⟩)] }] }, { outer := some globals }]

/-- In the global environment, which declares `f`, in a frame with another `f`. -/
def waitingBehindLocal : Session :=
  waiting fun t => #[{ frames :=
    [{ values := [("f", ⟨.string, false⟩)] }, { values := [("f", ⟨t, true⟩)] }] }]

/-- A statement that calls `f` has its result inferred, and restores what there was. -/
theorem restores_calling : ∃ s',
    statement (Function.settle #[.function yielding])
        (.expression {} (.call {} (.identifier {} "f") [] [])) { environment := 1 } waitingInside =
      some (false, s') ∧
    s'.implementations.length = 2 ∧
    waitingInside.Restored #[.function yielding] False { environment := 1 } s' := by
  have hrun : (statement (Function.settle #[.function yielding])
      (.expression {} (.call {} (.identifier {} "f") [] [])) { environment := 1 }
      waitingInside).map (fun r => (r.1, r.2.implementations.length)) = some (false, 2) := by
    decide +kernel
  obtain ⟨⟨exits, s'⟩, hs, heq⟩ := Option.map_eq_some_iff.1 hrun
  obtain ⟨rfl, hlength⟩ := Prod.mk.inj heq
  exact ⟨s', hs, hlength, ((restores _).1 _ hs).1⟩

/-- Under a local `f` in the global environment, the type that is inferred for the function is given
to the local value, so the innermost frame does more than to gain values. -/
theorem retypes_local : ∃ t s',
    check (Function.settle #[.function yielding]) (.identifier {} "f") none {} waitingBehindLocal =
      some (t, s') ∧
    ¬ (waitingBehindLocal.scopes.innermost globals).values <+:
      (s'.scopes.innermost globals).values := by
  have hrun : (check (Function.settle #[.function yielding]) (.identifier {} "f") none {}
      waitingBehindLocal).map (fun r =>
        decide ((waitingBehindLocal.scopes.innermost globals).values <+:
          (r.2.scopes.innermost globals).values)) = some false := by
    decide +kernel
  obtain ⟨⟨t, s'⟩, hs, heq⟩ := Option.map_eq_some_iff.1 hrun
  exact ⟨t, s', hs, of_decide_eq_false heq⟩

end Walk

end ShapeCheck
