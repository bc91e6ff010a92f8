import ShapeCheck.Proofs.GuardLaws
import ShapeCheck.Proofs.Overlays

/-!
# What conditions prove

Conditions are made of the truth of a variable, the kind of its value, its equality with a constant
and its being missing, by negation, conjunction and disjunction. Where a condition holds, the values
of the variables belong to the types that its guard gives them there, and likewise where it fails.

* `Expr.IsTest` are the conditions, and `Expr.Decides` says how they come out in a store.
* `Guard.Sound` says that a guard is right about a condition, `Walk.proves_guard` that the guard of
  a condition is.
* `Walk.gives_check_test` says that checking a condition changes no environment.
-/

namespace ShapeCheck

variable {α β : Type} {c l r e : Expr} {d : Datum} {s s' : Session} {a : α} {work : Check α}
  {R : Table → β → Prop} {x : String} {f : α → Check β} {type : Check Ty} {Q : Table → α → Prop}
  {b : Bindings} {t : Ty} {loose : Bool} {T : Table}
  {site : Site} {op : BinaryOp}

/-! ## Conditions -/

namespace Expr

/-- The expression is written for one value. -/
inductive Constant : Expr → Datum → Prop
  | string {site : Site} {text : String} : Constant (.string site text) (.string text)
  | null {site : Site} : Constant (.null site) .null
  | undefined {site : Site} : Constant (.undefined site) .undefined

/-- A condition about some variables. -/
inductive IsTest (vars : List String) : Expr → Prop
  | name {site : Site} {x : String} (hx : x ∈ vars) : IsTest vars (.identifier site x)
  | kind {site own inner right : Site} {x k : String} {op : BinaryOp} (hx : x ∈ vars)
    (hop : op = .strictEqual ∨ op = .strictNotEqual) :
    IsTest vars (.binary site (.typeof own (.identifier inner x)) op (.string right k))
  | value {site own : Site} {x : String} {op : BinaryOp} {c : Expr} {d : Datum} (hx : x ∈ vars)
    (hop : op = .strictEqual ∨ op = .strictNotEqual) (hc : c.Constant d) :
    IsTest vars (.binary site (.identifier own x) op c)
  | missing {site own right : Site} {x : String} {op : BinaryOp} (hx : x ∈ vars)
    (hop : op = .equal ∨ op = .notEqual) :
    IsTest vars (.binary site (.identifier own x) op (.null right))
  | not {site : Site} {c : Expr} (hc : IsTest vars c) : IsTest vars (.unary site .not c)
  | and {site : Site} {l r : Expr} (hl : IsTest vars l) (hr : IsTest vars r) :
    IsTest vars (.binary site l .and r)
  | or {site : Site} {l r : Expr} (hl : IsTest vars l) (hr : IsTest vars r) :
    IsTest vars (.binary site l .or r)

/-- How a condition comes out. The right side of `&&` and `||` is only looked at where the left one
does not decide. -/
inductive Decides (ρ : Store) : Expr → Bool → Prop
  | name {site : Site} {x : String} : Decides ρ (.identifier site x) (ρ x).isTruthy
  | kind {site own inner right : Site} {x k : String} :
    Decides ρ (.binary site (.typeof own (.identifier inner x)) .strictEqual (.string right k))
      (decide ((ρ x).kind = k))
  | otherKind {site own inner right : Site} {x k : String} :
    Decides ρ (.binary site (.typeof own (.identifier inner x)) .strictNotEqual (.string right k))
      (!decide ((ρ x).kind = k))
  | value {site own : Site} {x : String} {c : Expr} {d : Datum} (hc : c.Constant d) :
    Decides ρ (.binary site (.identifier own x) .strictEqual c) (decide (ρ x = d))
  | otherValue {site own : Site} {x : String} {c : Expr} {d : Datum} (hc : c.Constant d) :
    Decides ρ (.binary site (.identifier own x) .strictNotEqual c) (!decide (ρ x = d))
  | missing {site own right : Site} {x : String} :
    Decides ρ (.binary site (.identifier own x) .equal (.null right)) (ρ x).isMissing
  | present {site own right : Site} {x : String} :
    Decides ρ (.binary site (.identifier own x) .notEqual (.null right)) (!(ρ x).isMissing)
  | not {site : Site} {c : Expr} {b : Bool} (hc : Decides ρ c b) :
    Decides ρ (.unary site .not c) (!b)
  | andFirst {site : Site} {l r : Expr} (hl : Decides ρ l false) :
    Decides ρ (.binary site l .and r) false
  | andSecond {site : Site} {l r : Expr} {b : Bool} (hl : Decides ρ l true) (hr : Decides ρ r b) :
    Decides ρ (.binary site l .and r) b
  | orFirst {site : Site} {l r : Expr} (hl : Decides ρ l true) :
    Decides ρ (.binary site l .or r) true
  | orSecond {site : Site} {l r : Expr} {b : Bool} (hl : Decides ρ l false) (hr : Decides ρ r b) :
    Decides ρ (.binary site l .or r) b

theorem Constant.unique {d' : Datum} (h : c.Constant d) (h' : c.Constant d') : d = d' := by
  cases h <;> cases h' <;> rfl

end Expr

/-! ## Work that leaves the environments as they are -/

/-- The second session has other types and findings at most; its answers are right, and it says the
same of the types that were there. -/
structure Session.Steady (s s' : Session) : Prop where
  faithful : s'.table.Faithful
  agrees : s.table.Agrees s'.table
  scopes : s'.scopes = s.scopes
  pending : s'.pending = s.pending
  findings : s.findings.size ≤ s'.findings.size

theorem Session.Steady.trans {s1 s2 : Session} (h : s.Steady s1) (h' : s1.Steady s2) :
    s.Steady s2 :=
  ⟨h'.faithful, h.agrees.trans h'.agrees, h'.scopes.trans h.scopes, h'.pending.trans h.pending,
    h.findings.trans h'.findings⟩

namespace Check

/-- Whatever the work gives, it leaves the environments as they are, and types of which `Q`
holds. -/
def Gives {α : Type} (w : Walker) (s : Session) (work : Check α) (Q : Table → α → Prop) : Prop :=
  ∀ a s', work w s = some (a, s') → s.Steady s' ∧ Q s'.table a

section Rules

variable {w : Walker}

theorem steady_refl (hT : s.table.Faithful) : s.Steady s := ⟨hT, .refl _, rfl, rfl, Nat.le_refl _⟩

theorem gives_pure (hT : s.table.Faithful) (ha : Q s.table a) : Gives w s (pure a) Q := by
  intro b s' hrun
  obtain ⟨rfl, rfl⟩ := Prod.mk.inj (Option.some.inj hrun)
  exact ⟨steady_refl hT, ha⟩

theorem Gives.imp {R : Table → α → Prop} (h : Gives w s work Q)
    (himp : ∀ a s', s.Steady s' → Q s'.table a → R s'.table a) : Gives w s work R := by
  intro a s' hrun
  obtain ⟨hs, hq⟩ := h a s' hrun
  exact ⟨hs, himp a s' hs hq⟩

theorem Gives.bind {x : Check α} (hx : Gives w s x Q)
    (hf : ∀ a s1, s.Steady s1 → Q s1.table a → Gives w s1 (f a) R) : Gives w s (x >>= f) R := by
  intro b s2 hrun
  obtain ⟨a, s1, ha, hb⟩ := bind_eq_some.1 hrun
  obtain ⟨h1, hq⟩ := hx a s1 ha
  obtain ⟨h2, hr⟩ := hf a s1 h1 hq b s2 hb
  exact ⟨h1.trans h2, hr⟩

/-- Work that gives a known result and changes nothing may come first. -/
theorem gives_of_result {x : Check α}
    (hx : x w s = some (a, s)) (hf : Gives w s (f a) R) : Gives w s (x >>= f) R := by
  intro b s' hrun
  obtain ⟨a', s1, ha, hb⟩ := bind_eq_some.1 hrun
  obtain ⟨rfl, rfl⟩ := Prod.mk.inj (Option.some.inj (hx.symm.trans ha))
  exact hf b s' hb

theorem gives_table_bind {f : Table → Check α} (h : Gives w s (f s.table) Q) :
    Gives w s (table >>= f) Q := gives_of_result rfl h

theorem gives_typing {work : Typing α} (h : Typing.Yields s.table work Q) :
    Gives w s (monadLift work : Check α) Q := by
  intro a s' hrun
  obtain ⟨T1, hwork, rfl⟩ := typing_eq_some.mp hrun
  obtain ⟨hT1, h1, hq⟩ := h _ _ _ hwork
  exact ⟨⟨hT1, h1, rfl, rfl, Nat.le_refl _⟩, hq⟩

theorem gives_interning (hT : s.table.Faithful) {work : Interning α}
    (h : Interning.Settles s.table work Q) : Gives w s (liftM work : Check α) Q :=
  gives_typing (Typing.yields_interning hT h)

/-- Something may be noted, unless checking is quiet. -/
theorem gives_note (hT : s.table.Faithful) {note : Walker → Session → Session}
    (hnote : s.Steady (note w s)) :
    Gives w s (do
      let w ← walker
      if !w.quiet then update (note w)) fun _ _ => True := by
  refine gives_of_result rfl ?_
  intro a s' hrun
  split at hrun
  · obtain ⟨-, rfl⟩ := Prod.mk.inj (Option.some.inj hrun)
    exact ⟨hnote, trivial⟩
  · obtain ⟨-, rfl⟩ := Prod.mk.inj (Option.some.inj hrun)
    exact ⟨steady_refl hT, trivial⟩

theorem gives_report (hT : s.table.Faithful) (position : Position) (problem : Problem) :
    Gives w s (report position problem) fun _ _ => True :=
  gives_note hT ⟨hT, .refl _, rfl, rfl, by simp⟩

theorem gives_record (hT : s.table.Faithful) (site : Site) (kind : NodeKind) (type : Ty) :
    Gives w s (record site kind type) fun _ _ => True :=
  gives_note hT ⟨hT, .refl _, rfl, rfl, Nat.le_refl _⟩

theorem gives_recorded {Q : Table → Ty → Prop} (site : Site) (kind : NodeKind)
    (hQ : ∀ T T1 : Table, ∀ t, T.Faithful → T.Agrees T1 → Q T t → Q T1 t)
    (h : Gives w s type Q) : Gives w s (Walk.recorded site kind type) Q := by
  refine h.bind fun t s1 h1 ht => ?_
  refine (gives_record h1.faithful site kind t).bind fun _ s2 h2 _ => ?_
  exact gives_pure h2.faithful (hQ _ _ t h1.faithful h2.agrees ht)

/-- Work on each of a list, when what it gives lasts. -/
theorem gives_mapM {P : Table → α → β → Prop}
    (hP : ∀ T T1 : Table, ∀ x b, T.Faithful → T.Agrees T1 → P T x b → P T1 x b)
    (hT : s.table.Faithful) (xs : List α)
    (hf : ∀ x ∈ xs, ∀ s1, s.Steady s1 → Gives w s1 (f x) fun T b => P T x b) :
    Gives w s (xs.mapM f) fun T bs => (∀ b ∈ bs, ∃ x ∈ xs, P T x b) ∧ ∀ x ∈ xs,
    ∃ b ∈ bs, P T x b := by
  induction xs generalizing s with
  | nil => exact gives_pure hT (by simp)
  | cons x xs ih =>
    rw [List.mapM_cons]
    refine (hf x (by simp) s (steady_refl hT)).bind fun b s1 h1 hb => ?_
    refine (ih h1.faithful fun y hy s2 h2 =>
      hf y (List.mem_cons_of_mem x hy) s2 (h1.trans h2)).bind fun bs s2 h2 hbs => ?_
    have hb2 := hP _ _ _ _ h1.faithful h2.agrees hb
    refine gives_pure h2.faithful ⟨fun c hc => ?_, fun y hy => ?_⟩
    · rcases List.mem_cons.mp hc with rfl | hc
      · exact ⟨x, by simp, hb2⟩
      · obtain ⟨y, hy, hyc⟩ := hbs.1 c hc
        exact ⟨y, List.mem_cons_of_mem x hy, hyc⟩
    · rcases List.mem_cons.mp hy with rfl | hy
      · exact ⟨b, by simp, hb2⟩
      · obtain ⟨c, hc, hyc⟩ := hbs.2 y hy
        exact ⟨c, List.mem_cons_of_mem b hc, hyc⟩

theorem gives_speculate (h : Gives { w with quiet := true } s work Q) :
    Gives w s (speculate work) Q := h

end Rules

/-! ### Frames -/

section Frames

variable {w : Walker}

/-- The session with a frame opened that narrows as the bindings say. -/
def layered (w : Walker) (b : Bindings) (s : Session) : Session :=
  { s with scopes := (s.scopes.enter w.environment).overriding w.environment b }

theorem apply_eq (b : Bindings) (w : Walker) (s : Session) :
    apply b w s = some ((), { s with scopes := s.scopes.overriding w.environment b }) := by
  induction b generalizing s with
  | nil =>
    rw [Scopes.overriding_nil]
    rfl
  | cons p b ih =>
    have hfirst : apply (p :: b) w s =
        apply b w { s with scopes := s.scopes.bind w.environment p.1 p.2 } := rfl
    rw [hfirst, ih, ← Scopes.overriding_cons]

theorem inFrame_eq_some (h : inFrame work w s = some (a, s')) :
    ∃ s1, work w { s with scopes := s.scopes.enter w.environment } = some (a, s1) ∧
      s' = { s1 with scopes := s1.scopes.exit w.environment } := by
  unfold inFrame at h
  obtain ⟨_, s0, henter, h⟩ := bind_eq_some.1 h
  obtain ⟨-, rfl⟩ := Prod.mk.inj (Option.some.inj henter)
  obtain ⟨b, s1, hwork, h⟩ := bind_eq_some.1 h
  obtain ⟨_, s2, hexit, h⟩ := bind_eq_some.1 h
  obtain ⟨-, rfl⟩ := Prod.mk.inj (Option.some.inj hexit)
  obtain ⟨rfl, rfl⟩ := Prod.mk.inj (Option.some.inj h)
  exact ⟨s1, hwork, rfl⟩

/-- Work under narrowings in a frame of its own. -/
theorem gives_inFrame
    (hframe : s.scopes.framesOf w.environment ≠ []) (h : Gives w (layered w b s) work Q) :
    Gives w s (inFrame do apply b; work) Q := by
  intro a s' hrun
  obtain ⟨s1, hwork, rfl⟩ := inFrame_eq_some hrun
  obtain ⟨_, s0, happly, hwork⟩ := bind_eq_some.1 hwork
  rw [apply_eq] at happly
  obtain ⟨-, rfl⟩ := Prod.mk.inj (Option.some.inj happly)
  obtain ⟨hsteady, hq⟩ := h a s1 hwork
  refine ⟨⟨hsteady.faithful, hsteady.agrees, ?_, hsteady.pending, hsteady.findings⟩, hq⟩
  dsimp only
  rw [hsteady.scopes]
  exact Scopes.exit_narrowing_enter hframe

end Frames

end Check

/-! ## Names -/

/-- No function that still waits for its result type has the name of one of the variables. -/
def Session.SettledFor (vars : List String) (s : Session) : Prop :=
  ∀ p ∈ s.pending, p.name ∈ vars → ∀ q ∈ s.pending, q.unit = p.unit → q.progress ≠ .waiting

theorem Function.settle_of_settledFor {units : Array Declaration} {vars : List String}
    {w : Walker} {a : Unit} (hs : s.SettledFor vars) (hx : x ∈ vars)
    (h : settle units x w s = some (a, s')) : s' = s := by
  obtain ⟨_, t, ht, h⟩ := Check.bind_eq_some.1 h
  cases ht
  cases hfind : s.pending.find? fun p => p.name = x with
  | none =>
    rw [hfind] at h
    cases h
    rfl
  | some p =>
    rw [hfind] at h
    obtain ⟨_, t, ht, h⟩ := Check.bind_eq_some.1 h
    cases ht
    have hname : p.name = x := by simpa using List.find?_some hfind
    cases hwaiting : s.pending.find? fun q => q.unit = p.unit && q.progress = .waiting with
    | none =>
      rw [hwaiting] at h
      cases h
      rfl
    | some q =>
      have hq := List.find?_some hwaiting
      simp only [Bool.and_eq_true, decide_eq_true_eq] at hq
      exact absurd hq.2 (hs p (List.mem_of_find?_eq_some hfind) (hname ▸ hx) q
        (List.mem_of_find?_eq_some hwaiting) hq.1)

/-- A session in which some variables have declarable types, and the function around the place has a
result type if that is declared. -/
structure Session.Ready (vars : List String) (w : Walker) (s : Session) : Prop where
  faithful : s.table.Faithful
  settled : s.SettledFor vars
  scopes : s.scopes.Typed s.table vars w.environment
  result : ∀ f, w.function = some f → ∀ t, f.result = some t → s.table.Has t

/-- The values of the variables belong to the types that the session gives them. -/
def Session.Models (vars : List String) (w : Walker) (s : Session) (ρ : Store) : Prop :=
  s.scopes.Models s.table vars w.environment ρ

namespace Session

variable {vars : List String} {w : Walker} {s1 : Session} {ρ : Store}

theorem Ready.steady (h : s.Ready vars w) (h1 : s.Steady s1) : s1.Ready vars w := by
  refine ⟨h1.faithful, ?_, ?_, fun f hf t ht => h1.agrees.has (h.result f hf t ht)⟩
  · unfold SettledFor
    rw [h1.pending]
    exact h.settled
  · rw [h1.scopes]
    exact h.scopes.of_agrees h.faithful.wellFormed h1.agrees

theorem Ready.models_iff (h : s.Ready vars w) (h1 : s.Steady s1) :
    s1.Models vars w ρ ↔ s.Models vars w ρ := by
  unfold Models
  rw [h1.scopes]
  exact h.scopes.models_iff h.faithful.wellFormed h1.agrees

theorem Ready.layered (h : s.Ready vars w) (hb : b.Typed s.table vars) :
    (Check.layered w b s).Ready vars w :=
  ⟨h.faithful, h.settled, h.scopes.enter.override hb, h.result⟩

theorem Ready.models_layered (h : s.Ready vars w) (hρ : s.Models vars w ρ)
    (hb : b.Hold s.table ρ) : (Check.layered w b s).Models vars w ρ :=
  (Scopes.Models.fits hρ.enter hb).override h.scopes.enter.frame

end Session

namespace Check

variable {vars : List String} {w : Walker} {units : Array Declaration}

/-- Looking up a variable. -/
theorem gives_typeOfName_bind {f : Option Ty → Check α} (hs : s.SettledFor vars) (hx : x ∈ vars)
    (h : Gives w s (f (s.scopes.lookup w.environment x)) Q) :
    Gives w s (Walk.typeOfName (Function.settle units) x >>= f) Q := by
  intro a s' hrun
  obtain ⟨o, s1, hname, hrest⟩ := bind_eq_some.1 hrun
  obtain ⟨_, s2, hsettle, hlookup⟩ := bind_eq_some.1 hname
  obtain rfl := Function.settle_of_settledFor hs hx hsettle
  obtain ⟨rfl, rfl⟩ := Prod.mk.inj (Option.some.inj hlookup)
  exact h a s' hrest

end Check

/-! ## Guards -/

/-- The guard is right about a condition: where it comes out true, the values of the variables
belong to the types given for this case, and likewise where it comes out false. -/
structure Guard.Sound (vars : List String) (T : Table) (decides : Store → Bool → Prop) (g : Guard) :
    Prop where
  typedTrue : g.whenTrue.Typed T vars
  typedFalse : g.whenFalse.Typed T vars
  holds : ∀ ρ, decides ρ true → g.whenTrue.Hold T ρ
  fails : ∀ ρ, decides ρ false → g.whenFalse.Hold T ρ

namespace Guard

variable {vars : List String} {T1 : Table} {decides : Store → Bool → Prop} {g : Guard}

theorem Sound.of_agrees (h : g.Sound vars T decides) (hT : T.WellFormed) (h1 : T.Agrees T1) :
    g.Sound vars T1 decides where
  typedTrue := h.typedTrue.of_agrees hT h1
  typedFalse := h.typedFalse.of_agrees hT h1
  holds ρ hρ := (h.typedTrue.hold_iff hT h1).mpr (h.holds ρ hρ)
  fails ρ hρ := (h.typedFalse.hold_iff hT h1).mpr (h.fails ρ hρ)

theorem Sound.negated (h : g.Sound vars T decides) :
    g.negated.Sound vars T fun ρ b => decides ρ !b :=
  ⟨h.typedFalse, h.typedTrue, h.fails, h.holds⟩

theorem Sound.imp {decides' : Store → Bool → Prop} (h : g.Sound vars T decides)
    (himp : ∀ ρ b, decides' ρ b → decides ρ b) : g.Sound vars T decides' :=
  ⟨h.typedTrue, h.typedFalse, fun ρ hρ => h.holds ρ (himp ρ _ hρ),
    fun ρ hρ => h.fails ρ (himp ρ _ hρ)⟩

/-- A guard about one variable, whose type is split by a test of its value. -/
theorem sound_single {test : Datum → Prop} {sides : Split} (hx : x ∈ vars)
    (hsides : sides.Parts T T1 t test)
    (hdecides : ∀ ρ b, decides ρ b → T.Inhabits (ρ x) t ∧ (b = true ↔ test (ρ x))) :
    (single x sides).Sound vars T1 decides where
  typedTrue p hp := by
    obtain rfl := List.mem_singleton.mp hp
    exact ⟨hx, hsides.yes⟩
  typedFalse p hp := by
    obtain rfl := List.mem_singleton.mp hp
    exact ⟨hx, hsides.no⟩
  holds ρ hρ p hp := by
    obtain rfl := List.mem_singleton.mp hp
    obtain ⟨hin, htest⟩ := hdecides ρ true hρ
    exact hsides.holds _ hin (htest.mp rfl)
  fails ρ hρ p hp := by
    obtain rfl := List.mem_singleton.mp hp
    obtain ⟨hin, htest⟩ := hdecides ρ false hρ
    exact hsides.fails _ hin fun h => absurd (htest.mpr h) (by simp)

section Names

open Check

variable {w : Walker} {units : Array Declaration} {test : Datum → Prop}

/-- The store suits the session, and the value of a variable passes the test or not. -/
def Tests (vars : List String) (w : Walker) (s : Session) (x : String) (test : Datum → Prop)
    (ρ : Store) (b : Bool) : Prop :=
  s.Models vars w ρ ∧ (b = true ↔ test (ρ x))

theorem gives_onName (hs : s.Ready vars w) (hx : x ∈ vars) {split : Ty → Check Split}
    (hsplit : ∀ t, s.table.Declarable t →
      Gives w s (split t) fun T1 sides => sides.Parts s.table T1 t test) :
    Gives w s (onName (Walk.typeOfName (Function.settle units)) x split) fun T o =>
      ∃ g, o = some g ∧ g.Sound vars T (Tests vars w s x test) := by
  obtain ⟨t, ht, hd⟩ := hs.scopes.types x hx
  refine gives_typeOfName_bind hs.settled hx ?_
  rw [ht]
  refine (hsplit t hd).bind fun sides s1 h1 hsides => gives_pure h1.faithful ⟨_, rfl, ?_⟩
  exact sound_single hx hsides fun ρ b hρ => ⟨hρ.1 x hx t ht, hρ.2⟩

theorem gives_truth (hs : s.Ready vars w) (hx : x ∈ vars) :
    Gives w s (truth (Walk.typeOfName (Function.settle units)) x) fun T g =>
      g.Sound vars T (Tests vars w s x (·.isTruthy = true)) := by
  refine (gives_onName hs hx fun t ht =>
    gives_typing (Ty.parts_narrowByTruthiness hs.faithful ht)).bind fun o s1 h1 ho => ?_
  obtain ⟨g, rfl, hg⟩ := ho
  exact gives_pure h1.faithful hg

/-- An equality whose first side is the tested one. -/
theorem gives_equality {left right : Side}
    (h : Gives w s (tested (Walk.typeOfName (Function.settle units)) loose left right) fun T o =>
      ∃ g, o = some g ∧ g.Sound vars T decides) :
    Gives w s (equality (Walk.typeOfName (Function.settle units)) loose left right) fun T g =>
      g.Sound vars T decides := by
  refine h.bind fun o s1 h1 ho => ?_
  obtain ⟨g, rfl, hg⟩ := ho
  exact gives_pure h1.faithful hg

theorem gives_tested_kind (hs : s.Ready vars w) (hx : x ∈ vars) {k : String}
    {left right : Side} (hleft : left.subject = .kind x) (hright : right.string = some k) :
    Gives w s (tested (Walk.typeOfName (Function.settle units)) loose left right) fun T o =>
      ∃ g, o = some g ∧ g.Sound vars T (Tests vars w s x (·.kind = k)) := by
  unfold tested
  rw [hleft, hright]
  exact gives_onName hs hx fun t ht => gives_typing (Ty.parts_narrowByKind hs.faithful ht k)

/-- A test of a variable against a constant. -/
theorem gives_tested_value (hs : s.Ready vars w) (hx : x ∈ vars) {left right : Side}
    (hleft : left.subject = .name x)
    (hconstant : Gives w s right.constant fun T o => ∃ c, o = some c ∧ T.Denotes c d)
    (hsplit : ∀ s1 : Session, s.Steady s1 → ∀ c, s1.table.Denotes c d → ∀ t, s1.table.Declarable t →
      Typing.Yields s1.table (splitByValue t c loose) fun T1 sides =>
        sides.Parts s1.table T1 t test) :
    Gives w s (tested (Walk.typeOfName (Function.settle units)) loose left right) fun T o =>
      ∃ g, o = some g ∧ g.Sound vars T (Tests vars w s x test) := by
  unfold tested
  rw [hleft]
  refine hconstant.bind fun o s1 h1 ho => ?_
  obtain ⟨c, rfl, hc⟩ := ho
  refine (gives_onName (hs.steady h1) hx fun t ht => gives_typing (hsplit s1 h1 c hc t ht)).imp
    fun o s2 _ ho => ?_
  obtain ⟨g, rfl, hg⟩ := ho
  exact ⟨g, rfl, hg.imp fun ρ b hρ => ⟨(hs.models_iff h1).mpr hρ.1, hρ.2⟩⟩

end Names

end Guard

/-! ## Constants and names -/

/-- A literal type for a string denotes it. -/
theorem Table.denotes_of_alike {text : String}
    (h : (T.shape t).Alike Eq (.literal (.string text))) : T.Denotes t (.string text) := by
  cases hs : T.shape t with
  | literal l =>
    rw [hs] at h
    obtain ⟨hbase, htext⟩ := h
    cases l with
    | string other =>
      obtain rfl := Key.quoted_injective htext
      exact .string hs
    | _ => simp [Literal.base] at hbase
  | _ => simp [hs, Shape.Alike] at h

namespace Walk

open Check

variable {vars : List String} {w : Walker} {units : Array Declaration}
  {settle : String → Check Unit}

theorem gives_check_constant (hc : c.Constant d) (hT : s.table.Faithful) (expected : Option Ty) :
    Gives w s (check settle c expected) fun T t => T.Denotes t d := by
  have hlasts : ∀ T T1 : Table, ∀ t, T.Faithful → T.Agrees T1 → T.Denotes t d → T1.Denotes t d :=
    fun T T1 t hT h ht => Ty.denotes_of_agrees hT ht h
  cases hc with
  | string =>
    rw [check]
    refine gives_recorded _ _ hlasts ?_
    refine (gives_interning hT (Interning.gives_literalOf hT.wellFormed _)).imp fun t s1 _ ht => ?_
    exact Table.denotes_of_alike ht.2
  | null =>
    rw [check]
    exact gives_recorded _ _ hlasts (gives_pure hT .null)
  | undefined =>
    rw [check]
    exact gives_recorded _ _ hlasts (gives_pure hT .undefined)

theorem gives_constantOf (hc : c.Constant d) (hT : s.table.Faithful) :
    Gives w s (Guard.constantOf c (check settle c none)) fun T o =>
      ∃ t, o = some t ∧ T.Denotes t d := by
  have hchecked : Gives { w with quiet := true } s (check settle c none) fun T t => T.Denotes t d :=
    gives_check_constant hc hT none
  cases hc with
  | null => exact gives_pure hT ⟨_, rfl, .null⟩
  | undefined => exact gives_pure hT ⟨_, rfl, .undefined⟩
  | string =>
    refine (gives_speculate hchecked).bind fun t s1 h1 ht => gives_table_bind ?_
    have hunit : Ty.isUnit s1.table t = true := by
      cases ht with
      | string h => simp [Ty.isUnit, Table.literal?, h]
    rw [if_pos (by simp [hunit])]
    exact gives_pure h1.faithful ⟨t, rfl, ht⟩

/-- The type of a variable is the one it has at the moment. -/
theorem gives_check_name (hs : s.Ready vars w) (hx : x ∈ vars) (site : Site)
    (expected : Option Ty) :
    Gives w s (check (Function.settle units) (.identifier site x) expected) fun T t =>
      s.scopes.lookup w.environment x = some t ∧ T.Declarable t := by
  obtain ⟨t, ht, hd⟩ := hs.scopes.types x hx
  rw [check]
  refine gives_recorded _ _ (fun T T1 u hT h hu => ⟨hu.1, hu.2.of_agrees hT.wellFormed h⟩) ?_
  refine gives_typeOfName_bind hs.settled hx ?_
  rw [ht]
  exact gives_pure hs.faithful ⟨rfl, hd⟩

end Walk

/-! ## Guards of compound conditions -/

namespace Guard

open Check

section Compound

variable {vars : List String} {w : Walker} {units : Array Declaration}

/-- A variable has the type that the first of some layers gives it, else its current one. -/
theorem gives_sideOf (hs : s.Ready vars w) (hx : x ∈ vars) (layers : List Bindings)
    (hlayers : ∀ layer ∈ layers, layer.Typed s.table vars) :
    Gives w s (sideOf (Walk.typeOfName (Function.settle units)) x layers) fun T t =>
      T.Declarable t ∧ ∀ ρ, s.Models vars w ρ → (∀ layer ∈ layers, layer.Hold s.table ρ) →
        T.Inhabits (ρ x) t := by
  induction layers with
  | nil =>
    obtain ⟨t, ht, hd⟩ := hs.scopes.types x hx
    refine gives_typeOfName_bind hs.settled hx ?_
    rw [ht]
    exact gives_pure hs.faithful ⟨hd, fun ρ hρ _ => hρ x hx t ht⟩
  | cons layer layers ih =>
    unfold sideOf
    cases hlookup : layer.lookup x with
    | some t =>
      have hmem := Bindings.mem_of_lookup hlookup
      refine gives_pure hs.faithful ⟨(hlayers layer (by simp) _ hmem).2, fun ρ _ hhold => ?_⟩
      exact hhold layer (by simp) _ hmem
    | none =>
      refine (ih fun l hl => hlayers l (List.mem_cons_of_mem _ hl)).imp fun t s1 _ ht => ?_
      exact ⟨ht.1, fun ρ hρ hhold => ht.2 ρ hρ fun l hl => hhold l (List.mem_cons_of_mem _ hl)⟩

theorem mem_names {a : Bindings} (h : x ∈ names a b) : x ∈ a.map Prod.fst ∨ x ∈ b.map Prod.fst := by
  unfold names at h
  exact List.mem_append.mp (List.mem_eraseDups.mp h)

theorem names_subset {a : Bindings} (ha : a.Typed T vars) (hb : b.Typed T vars)
    (h : x ∈ names a b) : x ∈ vars := by
  rcases mem_names h with h | h
  · obtain ⟨p, hp, rfl⟩ := List.mem_map.mp h
    exact (ha p hp).1
  · obtain ⟨p, hp, rfl⟩ := List.mem_map.mp h
    exact (hb p hp).1

/-- What holds either where the first condition decides or where the second one does. -/
theorem gives_joined (hs : s.Ready vars w) {first second after : Bindings}
    (hfirst : first.Typed s.table vars) (hsecond : second.Typed s.table vars)
    (hafter : after.Typed s.table vars) :
    Gives w s (joined (Walk.typeOfName (Function.settle units)) first second after) fun T b =>
      b.Typed T vars ∧ ∀ ρ, s.Models vars w ρ →
        first.Hold s.table ρ ∨ second.Hold s.table ρ ∧ after.Hold s.table ρ → b.Hold T ρ := by
  let holds (T : Table) (p : String × Ty) : Prop := p.1 ∈ vars ∧ T.Declarable p.2 ∧
    ∀ ρ, s.Models vars w ρ → first.Hold s.table ρ ∨ second.Hold s.table ρ ∧ after.Hold s.table ρ →
      T.Inhabits (ρ p.1) p.2
  have hlasts : ∀ T T1 : Table, ∀ p, T.Faithful → T.Agrees T1 → holds T p → holds T1 p := by
    intro T T1 p hT h hp
    refine ⟨hp.1, hp.2.1.of_agrees hT.wellFormed h, fun ρ hρ hcases => ?_⟩
    rw [hp.2.1.toSimple.inhabits_iff hT.wellFormed h]
    exact hp.2.2 ρ hρ hcases
  have hnames : Gives w s (joined (Walk.typeOfName (Function.settle units)) first second after)
      fun T b => ∀ p ∈ b, holds T p := by
    refine (gives_mapM (P := fun T _ p => holds T p) (fun T T1 _ => hlasts T T1) hs.faithful _
      fun x hx s1 h1 => ?_).imp fun b _ _ hb p hp => (hb.1 p hp).elim fun _ h => h.2
    have hT := hs.faithful.wellFormed
    have hx := names_subset hfirst hsecond hx
    have hs1 := hs.steady h1
    have hfirst1 := hfirst.of_agrees hT h1.agrees
    refine (gives_sideOf hs1 hx [first] (by simpa using hfirst1)).bind fun t s2 h2 ht => ?_
    have h12 := h1.trans h2
    have hs2 := hs1.steady h2
    have hsecond2 := hsecond.of_agrees hT h12.agrees
    have hafter2 := hafter.of_agrees hT h12.agrees
    refine (gives_sideOf hs2 hx [second, after] (by simpa using ⟨hsecond2, hafter2⟩)).bind
      fun u s3 h3 hu => ?_
    have ht3 := ht.1.of_agrees h2.faithful.wellFormed h3.agrees
    have hsides : ∀ k ∈ [t, u], s3.table.Declarable k := by simpa using ⟨ht3, hu.1⟩
    refine (gives_typing (Typing.yields_union h3.faithful hsides)).bind fun v s4 h4 hv => ?_
    refine gives_pure h4.faithful ⟨hx, hv.1, fun ρ hρ hcases => ?_⟩
    rcases hcases with hone | ⟨htwo, hrest⟩
    · refine hv.2 t (by simp) _ ?_
      rw [ht.1.toSimple.inhabits_iff h2.faithful.wellFormed h3.agrees]
      refine ht.2 ρ ((hs.models_iff h1).mpr hρ) fun layer hlayer => ?_
      obtain rfl := List.mem_singleton.mp hlayer
      exact (hfirst.hold_iff hT h1.agrees).mpr hone
    · refine hv.2 u (by simp) _ (hu.2 ρ ((hs.models_iff h12).mpr hρ) fun layer hlayer => ?_)
      rcases List.mem_pair.mp hlayer with rfl | rfl
      · exact (hsecond.hold_iff hT h12.agrees).mpr htwo
      · exact (hafter.hold_iff hT h12.agrees).mpr hrest
  refine hnames.imp fun b s1 _ hb => ⟨fun p hp => ⟨(hb p hp).1, (hb p hp).2.1⟩, ?_⟩
  exact fun ρ hρ hcases p hp => (hb p hp).2.2 ρ hρ hcases

/-- What the guard of a condition has to be. -/
def Proves (vars : List String) (w : Walker) (s : Session) (work : Check Guard) (e : Expr) : Prop :=
  Gives w s work fun T g => g.Sound vars T fun ρ b => s.Models vars w ρ ∧ e.Decides ρ b

variable {left right : Check Guard}

/-- The guard of the second of two conditions, in the frame where it is looked at. -/
theorem proves_second (hs : s.Ready vars w) (hb : b.Typed s.table vars)
    (hright : ∀ s1 : Session, s1.Ready vars w → Proves vars w s1 right r) :
    Gives w s (inFrame do apply b; right) fun T h => h.Sound vars T fun ρ c =>
      s.Models vars w ρ ∧ b.Hold s.table ρ ∧ r.Decides ρ c :=
  gives_inFrame hs.scopes.frame ((hright _ (hs.layered hb)).imp fun _ _ _ hsound =>
    hsound.imp fun _ _ hρ => ⟨hs.models_layered hρ.1 hρ.2.1, hρ.2.2⟩)

theorem proves_both (hs : s.Ready vars w) (hleft : Proves vars w s left l)
    (hright : ∀ s1 : Session, s1.Ready vars w → Proves vars w s1 right r) :
    Proves vars w s (both (Walk.typeOfName (Function.settle units)) left right)
      (.binary site l .and r) := by
  refine hleft.bind fun g s1 h1 hg => ?_
  have hs1 := hs.steady h1
  have hT1 := h1.faithful.wellFormed
  refine (proves_second hs1 hg.typedTrue hright).bind fun h s2 h2 hh => ?_
  have hg2 := hg.of_agrees hT1 h2.agrees
  refine (gives_joined (hs1.steady h2) hg2.typedFalse hh.typedFalse hg2.typedTrue).bind
    fun b s3 h3 hb => gives_pure h3.faithful ?_
  have hT2 := h2.faithful.wellFormed
  have hg3 := hg2.of_agrees hT2 h3.agrees
  have hh3 := hh.of_agrees hT2 h3.agrees
  have hmodels : ∀ ρ, s.Models vars w ρ → s1.Models vars w ρ := fun ρ => (hs.models_iff h1).mpr
  refine ⟨hg3.typedTrue.override hh3.typedTrue, hb.1, fun ρ hρ => ?_, fun ρ hρ => ?_⟩
  · obtain ⟨hρ, hdecides⟩ := hρ
    cases hdecides with
    | andSecond hl hr =>
      exact (hg3.holds ρ ⟨hρ, hl⟩).override (hh3.holds ρ ⟨hmodels ρ hρ, hg.holds ρ ⟨hρ, hl⟩, hr⟩)
  · obtain ⟨hρ, hdecides⟩ := hρ
    refine hb.2 ρ ((hs.models_iff (h1.trans h2)).mpr hρ) ?_
    cases hdecides with
    | andFirst hl => exact .inl (hg2.fails ρ ⟨hρ, hl⟩)
    | andSecond hl hr =>
      exact .inr ⟨hh.fails ρ ⟨hmodels ρ hρ, hg.holds ρ ⟨hρ, hl⟩, hr⟩, hg2.holds ρ ⟨hρ, hl⟩⟩

/-- What a negation proves. -/
theorem Proves.negated (h : Proves vars w s left l) :
    Proves vars w s (not left) (.unary site .not l) := by
  refine h.bind fun g s1 h1 hg => gives_pure h1.faithful (hg.negated.imp fun ρ b hρ => ?_)
  cases hρ.2 with
  | not hc => exact ⟨hρ.1, by simpa using hc⟩

theorem proves_either (hs : s.Ready vars w) (hleft : Proves vars w s left l)
    (hright : ∀ s1 : Session, s1.Ready vars w → Proves vars w s1 right r) :
    Proves vars w s (either (Walk.typeOfName (Function.settle units)) left right)
      (.binary site l .or r) := by
  -- a disjunction is the negation of the conjunction of its negated parts
  have hdual : either (Walk.typeOfName (Function.settle units)) left right =
      not (both (Walk.typeOfName (Function.settle units)) (not left) (not right)) := by
    rw [← either_not, not_not, not_not]
  have hboth : Proves vars w s (both (Walk.typeOfName (Function.settle units))
    (not left) (not right))
      (.binary site (.unary site .not l) .and (.unary site .not r)) :=
    proves_both hs hleft.negated fun s1 hs1 => (hright s1 hs1).negated
  rw [hdual]
  refine Gives.imp (hboth.negated : Proves vars w s _ (.unary site .not _)) fun g s1 _ hg =>
    hg.imp fun ρ b hρ => ⟨hρ.1, ?_⟩
  cases hρ.2 with
  | orFirst hl => exact .not (.andFirst (.not hl))
  | orSecond hl hr => simpa using Expr.Decides.not (.andSecond (.not hl) (.not hr))

end Compound

end Guard

namespace Walk

open Check

variable {vars : List String} {w : Walker} {units : Array Declaration}

theorem guard_binary {settle : String → Check Unit} (hand : op ≠ .and) (hor : op ≠ .or) :
    guard settle (.binary site l op r) = comparison settle op
      ⟨Guard.subjectOf l, Guard.string? l, Guard.constantOf l (check settle l none)⟩
      ⟨Guard.subjectOf r, Guard.string? r, Guard.constantOf r (check settle r none)⟩ := by
  rw [guard]
  · exact hand
  · exact hor

section Comparisons

variable {left right : Guard.Side} {test : Datum → Prop}

/-- An equality that tests the value of a variable. -/
theorem proves_equal (hguard : guard (Function.settle units) e =
      Guard.equality (typeOfName (Function.settle units)) loose left right)
    (h : Gives w s (Guard.tested (typeOfName (Function.settle units)) loose left right) fun T o =>
      ∃ g, o = some g ∧ g.Sound vars T (Guard.Tests vars w s x test))
    (hdecides : ∀ ρ b, e.Decides ρ b → (b = true ↔ test (ρ x))) :
    Guard.Proves vars w s (guard (Function.settle units) e) e := by
  rw [hguard]
  refine (Guard.gives_equality h).imp fun g s1 _ hg => hg.imp fun ρ b hρ => ?_
  exact ⟨hρ.1, hdecides ρ b hρ.2⟩

/-- An inequality that tests the value of a variable. -/
theorem proves_unequal
    (hguard : guard (Function.settle units) e = do
      return (← Guard.equality (typeOfName (Function.settle units)) loose left right).negated)
    (h : Gives w s (Guard.tested (typeOfName (Function.settle units)) loose left right) fun T o =>
      ∃ g, o = some g ∧ g.Sound vars T (Guard.Tests vars w s x test))
    (hdecides : ∀ ρ b, e.Decides ρ b → ((!b) = true ↔ test (ρ x))) :
    Guard.Proves vars w s (guard (Function.settle units) e) e := by
  rw [hguard]
  refine (Guard.gives_equality h).bind fun g s1 h1 hg => gives_pure h1.faithful ?_
  exact hg.negated.imp fun ρ b hρ => ⟨hρ.1, hdecides ρ b hρ.2⟩

end Comparisons

/-- **What conditions prove.** The guard of a condition is right about it. -/
theorem proves_guard (he : e.IsTest vars) (hs : s.Ready vars w) :
    Guard.Proves vars w s (guard (Function.settle units) e) e := by
  induction he generalizing s with
  | name hx =>
    rw [guard]
    refine (Guard.gives_truth hs hx).imp fun g s1 _ hg => hg.imp fun ρ b hρ => ⟨hρ.1, ?_⟩
    cases hρ.2
    rfl
  | @kind _ _ _ _ x k op hx hop =>
    rcases hop with rfl | rfl
    · refine proves_equal (guard_binary (by simp) (by simp)) (Guard.gives_tested_kind hs hx rfl rfl)
        fun ρ b hb => ?_
      cases hb
      simp
    · refine proves_unequal (guard_binary (by simp) (by simp))
        (Guard.gives_tested_kind hs hx rfl rfl) fun ρ b hb => ?_
      cases hb
      simp
  | @value _ _ x op c d hx hop hc =>
    have htested : ∀ left right, left.subject = .name x →
        (Gives w s right.constant fun T o => ∃ t, o = some t ∧ T.Denotes t d) →
        Gives w s (Guard.tested (typeOfName (Function.settle units)) false left right) fun T o =>
          ∃ g, o = some g ∧ g.Sound vars T (Guard.Tests vars w s x (· = d)) :=
      fun left right hleft hright => Guard.gives_tested_value hs hx hleft hright
        fun s1 h1 c' hc' t ht => Guard.parts_splitByValue h1.faithful hc' ht
    rcases hop with rfl | rfl
    · refine proves_equal (guard_binary (by simp) (by simp))
        (htested _ _ rfl (gives_constantOf hc hs.faithful)) fun ρ b hb => ?_
      cases hb with
      | value hc' => simp [hc'.unique hc]
    · refine proves_unequal (guard_binary (by simp) (by simp))
        (htested _ _ rfl (gives_constantOf hc hs.faithful)) fun ρ b hb => ?_
      cases hb with
      | otherValue hc' => simp [hc'.unique hc]
  | @missing _ _ right x op hx hop =>
    have hnull : Gives w s (Guard.constantOf (.null right)
      (check (Function.settle units) (.null right)
        none)) fun T o => ∃ t, o = some t ∧ T.Denotes t .null := gives_constantOf .null hs.faithful
    have htested : ∀ left right, left.subject = .name x →
        (Gives w s right.constant fun T o => ∃ t, o = some t ∧ T.Denotes t .null) →
        Gives w s (Guard.tested (typeOfName (Function.settle units)) true left right) fun T o =>
          ∃ g, o = some g ∧ g.Sound vars T (Guard.Tests vars w s x (·.isMissing = true)) := by
      refine fun left right hleft hright => Guard.gives_tested_value hs hx hleft hright
        fun s1 h1 c' hc' t ht => ?_
      cases hc'
      exact Guard.parts_splitByValue_loose h1.faithful ht
    rcases hop with rfl | rfl
    · refine proves_equal (guard_binary (by simp) (by simp)) (htested _ _ rfl hnull)
        fun ρ b hb => ?_
      cases hb
      rfl
    · refine proves_unequal (guard_binary (by simp) (by simp)) (htested _ _ rfl hnull)
        fun ρ b hb => ?_
      cases hb
      simp
  | not hc ih =>
    rw [guard]
    exact (ih hs).negated
  | and hl hr ihl ihr =>
    rw [guard]
    exact Guard.proves_both hs (ihl hs) fun s1 hs1 => ihr hs1
  | or hl hr ihl ihr =>
    rw [guard]
    exact Guard.proves_either hs (ihl hs) fun s1 hs1 => ihr hs1

end Walk

/-! ## Checking conditions -/

namespace Ty

open Typing

theorem firstOrder_splitMembers (ht : T.FirstOrder t) {m : Ty} (hm : m ∈ splitMembers T t) :
    T.FirstOrder m := by
  obtain ⟨k, hk, hm⟩ := List.mem_flatMap.mp hm
  split at hm
  · rcases List.mem_pair.mp hm with rfl | rfl
    · exact .literal rfl
    · exact .literal rfl
  · obtain rfl := List.mem_singleton.mp hm
    exact ht.member hk

theorem yields_filterMembers_firstOrder (hT : T.Faithful) (ht : T.FirstOrder t) (keep : Ty → Bool) :
    Yields T (liftM (t.filterMembers keep) : Typing Ty) Table.FirstOrder := by
  have hkept : ∀ m ∈ (splitMembers T t).filter keep, T.FirstOrder m := fun m hm =>
    firstOrder_splitMembers ht (List.mem_of_mem_filter hm)
  intro n u T1 hrun
  rw [Typing.lift_filterMembers] at hrun
  exact yields_unionOf hT hkept n u T1 hrun

theorem yields_narrowByTruthiness (hT : T.Faithful) (ht : T.FirstOrder t) :
    Yields T t.narrowByTruthiness fun T1 sides => T1.FirstOrder sides.yes ∧
    T1.FirstOrder sides.no := by
  unfold narrowByTruthiness
  refine yields_of_result (resolveMembers_firstOrder ht) ?_
  split
  · exact yields_pure hT ⟨ht, ht⟩
  · refine yields_get_bind ?_
    refine (yields_filterMembers_firstOrder hT ht _).bind fun yes T1 hT1 h1 hy => ?_
    refine (yields_filterMembers_firstOrder hT1 (ht.of_agrees h1) _).bind fun no T2 hT2 h2 hn => ?_
    exact yields_pure hT2 ⟨hy.of_agrees h2, hn⟩

theorem firstOrder_widenMember (ht : T.FirstOrder t) : T.FirstOrder (widenMember T t) := by
  unfold widenMember
  cases hs : T.shape t with
  | literal l =>
    cases l <;> exact .primitive (by simp [Literal.base]) (by simp [Literal.base])
  | enumMember =>
    cases ht with
    | primitive => simp [Table.shape] at hs
    | literal h | array h | tuple h | union h | object h => simp [h] at hs
  | _ => exact ht

theorem yields_widen (hT : T.Faithful) (ht : T.FirstOrder t) :
    Yields T (liftM t.widen : Typing Ty) Table.FirstOrder := by
  intro n u T1 hrun
  cases hs : T.shape t with
  | union ms =>
    have hwiden : t.widen T = unionOf (ms.map (widenMember T)) T := by
      unfold widen
      simp only [bind, StateT.bind, get, getThe, MonadStateOf.get, StateT.get, pure, hs]
    have hwidened : ∀ m ∈ ms.map (widenMember T), T.FirstOrder m := List.forall_mem_map.mpr
      fun k hk => firstOrder_widenMember (ht.member (by simpa [Table.members, hs] using hk))
    exact yields_unionOf hT hwidened n u T1 ((congrArg some hwiden.symm).trans hrun)
  | _ =>
    have hwiden : t.widen T = (widenMember T t, T) := by
      unfold widen
      simp only [bind, StateT.bind, get, getThe, MonadStateOf.get, StateT.get,
        pure, StateT.pure, hs]
    obtain ⟨rfl, rfl⟩ := Prod.mk.inj (hwiden.symm.trans (Option.some.inj hrun))
    exact ⟨hT, .refl T, firstOrder_widenMember ht⟩

end Ty

namespace Operator

open Check

variable {w : Walker} {a b : Ty}

theorem gives_isAssignableTo (hT : s.table.Faithful) (ha : s.table.FirstOrder a)
    (hb : s.table.FirstOrder b) :
    Gives w s (monadLift (a.isAssignableTo b) : Check Bool) fun _ _ => True :=
  (gives_typing (Typing.yields_isAssignableTo hT ha hb)).imp fun _ _ _ _ => trivial

theorem gives_related (hT : s.table.Faithful) (ha : s.table.FirstOrder a)
    (hb : s.table.FirstOrder b) : Gives w s (related a b) fun _ _ => True := by
  refine (gives_isAssignableTo hT ha hb).bind fun fits s1 h1 _ => ?_
  cases fits with
  | true => exact gives_pure h1.faithful trivial
  | false =>
    exact gives_isAssignableTo h1.faithful (hb.of_agrees h1.agrees) (ha.of_agrees h1.agrees)

theorem gives_comparable (hT : s.table.Faithful) (ha : s.table.FirstOrder a)
    (hb : s.table.FirstOrder b) : Gives w s (comparable a b) fun _ _ => True := by
  unfold comparable
  split
  · exact gives_pure hT trivial
  refine (gives_related hT ha hb).bind fun found s1 h1 _ => ?_
  cases found with
  | true => exact gives_pure h1.faithful trivial
  | false =>
    have ha1 := ha.of_agrees h1.agrees
    have hb1 := hb.of_agrees h1.agrees
    refine (gives_typing (Ty.yields_widen h1.faithful ha1)).bind fun a' s2 h2 ha' => ?_
    refine (gives_typing (Ty.yields_widen h2.faithful (hb1.of_agrees h2.agrees))).bind
      fun b' s3 h3 hb' => ?_
    exact gives_related h3.faithful (ha'.of_agrees h3.agrees) hb'

theorem gives_binary (hT : s.table.Faithful) (ha : s.table.FirstOrder a) (hb : s.table.FirstOrder b)
    (hop : op = .strictEqual ∨ op = .strictNotEqual ∨ op = .equal ∨ op = .notEqual)
    (position : Position) : Gives w s (binary position op a b) fun T t => T.FirstOrder t := by
  have hstrict : strict op a b = do return (← comparable a b, .boolean) := by
    rcases hop with rfl | rfl | rfl | rfl
    · rfl
    · rfl
    · rfl
    · rfl
  have hboolean : ∀ T : Table, T.FirstOrder .boolean := fun T => .primitive (by simp) (by simp)
  have hgives : Gives w s (strict op a b) fun _ result => result.2 = .boolean := by
    rw [hstrict]
    exact (gives_comparable hT ha hb).bind fun _ s1 h1 _ => gives_pure h1.faithful rfl
  refine hgives.bind fun result s1 h1 hresult => ?_
  obtain ⟨valid, t⟩ := result
  obtain rfl : t = .boolean := hresult
  cases valid with
  | true => exact gives_pure h1.faithful (hboolean _)
  | false =>
    refine (gives_report h1.faithful _ _).bind fun _ s2 h2 _ => ?_
    exact gives_pure h2.faithful (hboolean _)

theorem gives_typeof (hT : s.table.Faithful) : Gives w s typeof fun T t => T.FirstOrder t := by
  have hkinds : Gives w s (kinds.mapM fun k => (liftM (Ty.literalOf (.string k)) : Check Ty))
      fun T ts => ∀ t ∈ ts, T.FirstOrder t := by
    refine (gives_mapM (P := fun T _ t => T.FirstOrder t)
      (fun T T1 _ t _ h ht => ht.of_agrees h) hT _
      fun k _ s1 h1 => ?_).imp fun ts _ _ hts t ht => (hts.1 t ht).elim fun _ h => h.2
    refine (gives_interning h1.faithful (Interning.gives_literalOf h1.faithful.wellFormed _)).imp
      fun t s2 h2 ht => ?_
    exact (Ty.declarable_of_denotes (Table.denotes_of_alike ht.2)).firstOrder h2.faithful
  refine hkinds.bind fun ts s1 h1 hts => ?_
  exact gives_typing (Typing.yields_unionOf h1.faithful hts)

end Operator

namespace Walk

open Check

variable {vars : List String} {w : Walker} {units : Array Declaration}

theorem gives_recorded_firstOrder (site : Site) (kind : NodeKind)
    (h : Gives w s type fun T t => T.FirstOrder t) :
    Gives w s (recorded site kind type) fun T t => T.FirstOrder t :=
  gives_recorded site kind (fun _ _ _ _ h ht => ht.of_agrees h) h

theorem gives_logical (hs : s.Ready vars w) {isAnd : Bool} {left right : Check Ty}
    {guard : Check Guard} (hleft : Gives w s left fun T t => T.FirstOrder t)
    (hguard : ∀ s1 : Session, s1.Ready vars w → Gives w s1 guard fun T g =>
      g.whenTrue.Typed T vars ∧ g.whenFalse.Typed T vars)
    (hright : ∀ s1 : Session, s1.Ready vars w → Gives w s1 right fun T t => T.FirstOrder t) :
    Gives w s (logical isAnd left guard right) fun T t => T.FirstOrder t := by
  refine hleft.bind fun l s1 h1 hl => ?_
  have hs1 := hs.steady h1
  refine (hguard s1 hs1).bind fun g s2 h2 hg => ?_
  have hs2 := hs1.steady h2
  have htyped : (if isAnd then g.whenTrue else g.whenFalse).Typed s2.table vars := by
    split
    · exact hg.1
    · exact hg.2
  refine (gives_inFrame hs2.scopes.frame (hright _ (hs2.layered htyped))).bind fun r s3 h3 hr => ?_
  have hl3 : s3.table.FirstOrder l := (hl.of_agrees h2.agrees).of_agrees h3.agrees
  refine (gives_typing (Ty.yields_narrowByTruthiness h3.faithful hl3)).bind
    fun sides s4 h4 hsides => ?_
  refine gives_typing (Typing.yields_unionOf h4.faithful fun t ht => ?_)
  rcases List.mem_pair.mp ht with rfl | rfl
  · split
    · exact hsides.2
    · exact hsides.1
  · exact hr.of_agrees h4.agrees

theorem check_binary {settle : String → Check Unit}
    {expected : Option Ty} (hand : op ≠ .and) (hor : op ≠ .or) (hcoalesce : op ≠ .coalesce) :
    check settle (.binary site l op r) expected = recorded site .binary (do
      let a ← check settle l none
      let b ← check settle r none
      Operator.binary site.position op a b) := by
  rw [check]
  · exact hand
  · exact hor
  · exact hcoalesce

theorem gives_check_comparison (site : Site)
    (hop : op = .strictEqual ∨ op = .strictNotEqual ∨ op = .equal ∨ op = .notEqual)
    (hl : Gives w s (check (Function.settle units) l none) fun T t => T.FirstOrder t)
    (hr : ∀ s1 : Session, s1.table.Faithful →
      Gives w s1 (check (Function.settle units) r none) fun T t => T.FirstOrder t) :
    Gives w s (check (Function.settle units) (.binary site l op r) none)
      fun T t => T.FirstOrder t := by
  have hother : op ≠ .and ∧ op ≠ .or ∧ op ≠ .coalesce := by
    rcases hop with rfl | rfl | rfl | rfl <;> simp
  rw [check_binary hother.1 hother.2.1 hother.2.2]
  refine gives_recorded_firstOrder _ _ (hl.bind fun a s1 h1 ha => ?_)
  refine (hr s1 h1.faithful).bind fun b s2 h2 hb => ?_
  exact Operator.gives_binary h2.faithful (ha.of_agrees h2.agrees) hb hop _

theorem gives_check_name_firstOrder (hs : s.Ready vars w) (hx : x ∈ vars) (site : Site) :
    Gives w s (check (Function.settle units) (.identifier site x) none)
      fun T t => T.FirstOrder t :=
  (gives_check_name hs hx site none).imp fun _ _ h1 ht => ht.2.firstOrder h1.faithful

theorem gives_check_constant_firstOrder (hc : c.Constant d) (hT : s.table.Faithful) :
    Gives w s (check (Function.settle units) c none) fun T t => T.FirstOrder t :=
  (gives_check_constant hc hT none).imp fun _ _ h1 ht =>
    (Ty.declarable_of_denotes ht).firstOrder h1.faithful

theorem gives_guard_typed (he : e.IsTest vars) (hs : s.Ready vars w) :
    Gives w s (guard (Function.settle units) e) fun T g =>
      g.whenTrue.Typed T vars ∧ g.whenFalse.Typed T vars :=
  (proves_guard he hs).imp fun _ _ _ hg => ⟨hg.typedTrue, hg.typedFalse⟩

/-- Checking a condition changes no environment. -/
theorem gives_check_test (he : e.IsTest vars) (hs : s.Ready vars w) :
    Gives w s (check (Function.settle units) e none) fun T t => T.FirstOrder t := by
  induction he generalizing s with
  | name hx => exact gives_check_name_firstOrder hs hx _
  | kind hx hop =>
    refine gives_check_comparison _ (hop.imp_right .inl) ?_ fun s1 hT =>
      gives_check_constant_firstOrder .string hT
    rw [check]
    refine gives_recorded_firstOrder _ _ ?_
    exact (gives_check_name_firstOrder hs hx _).bind fun _ s1 h1 _ =>
      Operator.gives_typeof h1.faithful
  | value hx hop hc =>
    exact gives_check_comparison _ (hop.imp_right .inl) (gives_check_name_firstOrder hs hx _)
      fun s1 hT => gives_check_constant_firstOrder hc hT
  | missing hx hop =>
    exact gives_check_comparison _ (.inr (.inr hop)) (gives_check_name_firstOrder hs hx _)
      fun s1 hT => gives_check_constant_firstOrder .null hT
  | not hc ih =>
    rw [check]
    refine gives_recorded_firstOrder _ _ ((ih hs).bind fun _ s1 h1 _ => ?_)
    exact gives_pure h1.faithful (.primitive (by simp) (by simp))
  | and hl hr ihl ihr | or hl hr ihl ihr =>
    rw [check]
    exact gives_recorded_firstOrder _ _ (gives_logical hs (ihl hs) (fun _ => gives_guard_typed hl)
      fun _ => ihr)

end Walk

end ShapeCheck
