import ShapeCheck.Proofs.Conditions

/-!
# Flow typing

A plain function body assigns variables and constants to its parameters, branches on conditions
about them, nests blocks and returns. The walker follows such a body: wherever an execution comes,
the values of the variables belong to the types that the walker has for them there.

* `Stmt.IsPlain` are the statements, `Stmt.Runs` says how they are executed.
* `Place` is a place in a list of statements, `Stmt.Reaches` says with which values an execution
  comes there, and `Walk.upTo` is the walk up to it.
* `Check.Follows` says that a part of the walk follows the executions of a part of the body, and
  `Walk.follows_statements` that the walk follows a plain body.
* `Walk.statements_sound` is the soundness of the walk.
-/

namespace ShapeCheck

variable {α β : Type} {σ : Scopes} {e : Expr} {a b start : Bindings} {exits : Bool}
  {run : Store → Store → Prop}
  {x : Check α} {f : α → Check β} {parts : List Ty} {s' : Session} {body : Check Bool}
  {no : Option (Check Bool)} {ss : List Stmt}

/-! ## Plain bodies -/

namespace Expr

/-- What plain bodies assign. -/
inductive IsOperand (vars : List String) : Expr → Prop
  | name {site : Site} {x : String} (hx : x ∈ vars) : IsOperand vars (.identifier site x)
  | number {site : Site} {v : Binary64} : IsOperand vars (.number site v)
  | constant {c : Expr} {d : Datum} (hc : c.Constant d) : IsOperand vars c

/-- The value of what is assigned. -/
inductive HasValue (ρ : Store) : Expr → Datum → Prop
  | name {site : Site} {x : String} : HasValue ρ (.identifier site x) (ρ x)
  | number {site : Site} {v : Binary64} : HasValue ρ (.number site v) (.number v)
  | constant {c : Expr} {d : Datum} (hc : c.Constant d) : HasValue ρ c d

end Expr

namespace Stmt

/-- A statement of a plain body. -/
inductive IsPlain (vars : List String) : Stmt → Prop
  | assign {position : Position} {site own : Site} {x : String} {e : Expr} (hx : x ∈ vars)
    (he : e.IsOperand vars) : IsPlain vars (.expression position
    (.assign site (.identifier own x) e))
  | block {position : Position} {ss : List Stmt} (h : ∀ s ∈ ss, IsPlain vars s) :
    IsPlain vars (.block (.mk position ss))
  | conditional {position yesPosition : Position} {c : Expr} {yes : List Stmt} {no : Option Block}
    (hc : c.IsTest vars) (hyes : ∀ s ∈ yes, IsPlain vars s)
    (hno : ∀ noPosition ss, no = some (.mk noPosition ss) → ∀ s ∈ ss, IsPlain vars s) :
    IsPlain vars (.conditional position c (.mk yesPosition yes) no)
  | exit {position : Position} : IsPlain vars (.exit position none)

section Parts

variable {vars : List String} {position yesPosition : Position} {c : Expr} {other : Option Block}

theorem IsPlain.inner (h : (Stmt.block (.mk position ss)).IsPlain vars) :
    ∀ s ∈ ss, s.IsPlain vars := by
  cases h with
  | block h => exact h

theorem IsPlain.condition
    (h : (Stmt.conditional position c (.mk yesPosition ss) other).IsPlain vars) :
    c.IsTest vars := by
  cases h with
  | conditional hc => exact hc

theorem IsPlain.first (h : (Stmt.conditional position c (.mk yesPosition ss) other).IsPlain vars) :
    ∀ s ∈ ss, s.IsPlain vars := by
  cases h with
  | conditional _ hyes => exact hyes

theorem IsPlain.second {yes : Block} (h : (Stmt.conditional position c yes other).IsPlain vars) :
    ∀ noPosition ss, other = some (.mk noPosition ss) → ∀ s ∈ ss, s.IsPlain vars := by
  cases h with
  | conditional _ _ hno => exact hno

end Parts

mutual

/-- How a statement is executed: it ends with values of the variables, or leaves the function. -/
inductive Runs : Store → Stmt → Option Store → Prop
  | assign {ρ : Store} {position : Position} {site own : Site} {x : String} {e : Expr} {v : Datum}
    (he : e.HasValue ρ v) :
    Runs ρ (.expression position (.assign site (.identifier own x) e))
      (some (Function.update ρ x v))
  | block {ρ : Store} {position : Position} {ss : List Stmt} {o : Option Store}
    (h : RunsAll ρ ss o) : Runs ρ (.block (.mk position ss)) o
  | yes {ρ : Store} {position yesPosition : Position} {c : Expr}
    {ss : List Stmt} {no : Option Block}
    {o : Option Store} (hc : c.Decides ρ true) (h : RunsAll ρ ss o) :
    Runs ρ (.conditional position c (.mk yesPosition ss) no) o
  | no {ρ : Store} {position noPosition : Position} {c : Expr} {yes : Block} {ss : List Stmt}
    {o : Option Store} (hc : c.Decides ρ false) (h : RunsAll ρ ss o) :
    Runs ρ (.conditional position c yes (some (.mk noPosition ss))) o
  | skip {ρ : Store} {position : Position} {c : Expr} {yes : Block} (hc : c.Decides ρ false) :
    Runs ρ (.conditional position c yes none) (some ρ)
  | exit {ρ : Store} {position : Position} : Runs ρ (.exit position none) none

/-- How statements are executed one after the other. -/
inductive RunsAll : Store → List Stmt → Option Store → Prop
  | nil {ρ : Store} : RunsAll ρ [] (some ρ)
  | cons {ρ ρ1 : Store} {s : Stmt} {ss : List Stmt} {o : Option Store} (h : Runs ρ s (some ρ1))
    (hs : RunsAll ρ1 ss o) : RunsAll ρ (s :: ss) o
  | leave {ρ : Store} {s : Stmt} {ss : List Stmt} (h : Runs ρ s none) : RunsAll ρ (s :: ss) none

end

end Stmt

/-! ## Sessions along a walk -/

/-- The second session has other types and findings, and other narrowings of the variables in the
innermost frame. -/
structure Session.Moved (vars : List String) (w : Walker) (s s' : Session) : Prop where
  faithful : s'.table.Faithful
  agrees : s.table.Agrees s'.table
  pending : s'.pending = s.pending
  findings : s.findings.size ≤ s'.findings.size
  scopes : ∃ b : Bindings, b.Typed s'.table vars ∧ s'.scopes = s.scopes.overriding w.environment b

theorem Scopes.overriding_overriding {e : Nat} (h : σ.framesOf e ≠ []) :
    (σ.overriding e a).overriding e b = σ.overriding e (a ++ b) := by
  unfold overriding
  rw [narrowing_narrowing, innermost_narrowing h]
  simp only [Bindings.override, List.foldl_append]

namespace Session

variable {vars : List String} {w : Walker} {s s1 s2 : Session} {ρ : Store}

theorem Steady.moved (h : s.Steady s1) : s.Moved vars w s1 :=
  ⟨h.faithful, h.agrees, h.pending, h.findings, [], fun _ hp => absurd hp List.not_mem_nil, by
    rw [Scopes.overriding_nil, h.scopes]⟩

theorem Moved.trans (hs : s.Ready vars w) (h : s.Moved vars w s1) (h' : s1.Moved vars w s2) :
    s.Moved vars w s2 := by
  obtain ⟨a, ha, hscopes⟩ := h.scopes
  obtain ⟨b, hb, hscopes'⟩ := h'.scopes
  refine ⟨h'.faithful, h.agrees.trans h'.agrees, h'.pending.trans h.pending,
    h.findings.trans h'.findings, a ++ b, fun p hp => ?_, ?_⟩
  · rcases List.mem_append.mp hp with hp | hp
    · exact ha.of_agrees h.faithful.wellFormed h'.agrees p hp
    · exact hb p hp
  · rw [hscopes', hscopes, Scopes.overriding_overriding hs.scopes.frame]

theorem Ready.moved (hs : s.Ready vars w) (h : s.Moved vars w s1) : s1.Ready vars w := by
  obtain ⟨b, hb, hscopes⟩ := h.scopes
  refine ⟨h.faithful, ?_, ?_, fun f hf t ht => h.agrees.has (hs.result f hf t ht)⟩
  · unfold SettledFor
    rw [h.pending]
    exact hs.settled
  · rw [hscopes]
    exact (hs.scopes.of_agrees hs.faithful.wellFormed h.agrees).override hb

/-- Narrowings in the innermost frame. -/
theorem Ready.moved_overriding (hs : s.Ready vars w) (hb : b.Typed s.table vars) :
    s.Moved vars w { s with scopes := s.scopes.overriding w.environment b } :=
  ⟨hs.faithful, .refl _, rfl, Nat.le_refl _, b, hb, rfl⟩

/-- The walk between the two sessions follows the executions of a part of the body: unless something
was found, an execution that does not leave the function goes on with values of the types that the
walk ends with. -/
structure Follows (vars : List String) (w : Walker) (s s' : Session) (exits : Bool)
    (run : Store → Store → Prop) : Prop where
  moved : s.Moved vars w s'
  models : w.quiet = false → s'.findings.size = s.findings.size → ∀ ρ ρ', s.Models vars w ρ →
    run ρ ρ' → exits = false ∧ s'.Models vars w ρ'

theorem Follows.of_steady (hs : s.Ready vars w)
    (h : s.Steady s1) (h' : s1.Follows vars w s2 exits run) : s.Follows vars w s2 exits run := by
  refine ⟨Moved.trans hs h.moved h'.moved, fun hq hsize ρ ρ' hρ hrun => ?_⟩
  have hfirst := h.findings
  have hsecond := h'.moved.findings
  exact h'.models hq (by omega) ρ ρ' ((hs.models_iff h).mpr hρ) hrun

theorem Follows.steady (hs : s.Ready vars w)
    (h : s.Follows vars w s1 exits run) (h' : s1.Steady s2) : s.Follows vars w s2 exits run := by
  refine ⟨Moved.trans hs h.moved h'.moved, fun hq hsize ρ ρ' hρ hrun => ?_⟩
  have hfirst := h.moved.findings
  have hsecond := h'.findings
  obtain ⟨hexits, hmodels⟩ := h.models hq (by omega) ρ ρ' hρ hrun
  exact ⟨hexits, ((hs.moved h.moved).models_iff h').mpr hmodels⟩

/-- The session with a frame opened. -/
def entered (w : Walker) (s : Session) : Session :=
  { s with scopes := s.scopes.enter w.environment }

theorem Ready.entered (hs : s.Ready vars w) : (s.entered w).Ready vars w :=
  ⟨hs.faithful, hs.settled, hs.scopes.enter, hs.result⟩

end Session

namespace Check

/-- Whatever the work gives, it leaves a session of which `R` holds. -/
def Ensures {α : Type} (w : Walker) (s : Session) (work : Check α)
    (R : α → Session → Prop) : Prop :=
  ∀ a s', work w s = some (a, s') → R a s'

section Rules

variable {w : Walker} {s : Session} {Q : Table → α → Prop} {R : β → Session → Prop}

theorem Gives.ensures (hx : Gives w s x Q)
    (hf : ∀ a s1, s.Steady s1 → Q s1.table a → Ensures w s1 (f a) R) : Ensures w s (x >>= f) R := by
  intro b s2 hrun
  obtain ⟨a, s1, ha, hb⟩ := bind_eq_some.1 hrun
  obtain ⟨h1, hq⟩ := hx a s1 ha
  exact hf a s1 h1 hq b s2 hb

theorem Ensures.bind {S : α → Session → Prop} (hx : Ensures w s x S)
    (hf : ∀ a s1, S a s1 → Ensures w s1 (f a) R) : Ensures w s (x >>= f) R := by
  intro b s2 hrun
  obtain ⟨a, s1, ha, hb⟩ := bind_eq_some.1 hrun
  exact hf a s1 (hx a s1 ha) b s2 hb

theorem Ensures.imp {x : Check β} {S : β → Session → Prop} (h : Ensures w s x S)
    (himp : ∀ b s', S b s' → R b s') : Ensures w s x R :=
  fun b s' hrun => himp b s' (h b s' hrun)

theorem ensures_pure {b : β} (h : R b s) : Ensures w s (pure b) R := by
  intro b' s' hrun
  obtain ⟨rfl, rfl⟩ := Prod.mk.inj (Option.some.inj hrun)
  exact h

theorem ensures_of_result {a : α} (hx : x w s = some (a, s))
    (hf : Ensures w s (f a) R) : Ensures w s (x >>= f) R := by
  intro b s' hrun
  obtain ⟨a', s1, ha, hb⟩ := bind_eq_some.1 hrun
  obtain ⟨rfl, rfl⟩ := Prod.mk.inj (Option.some.inj (hx.symm.trans ha))
  exact hf b s' hb

end Rules

end Check

/-! ## Assignments -/

namespace Access

open Typing

variable {T : Table} {a t : Ty}

/-- Some of the parts fits the member. -/
theorem yields_someFits (hT : T.Faithful) (hparts : ∀ p ∈ parts, T.FirstOrder p)
    {m : Ty} (hm : T.FirstOrder m) :
    Yields T (someFits parts m) fun _ b =>
      b = true ↔ ∃ p ∈ parts, T.Fits (T.shape p) (T.shape m) := by
  unfold someFits
  induction parts generalizing T with
  | nil => exact yields_pure hT (by simp)
  | cons p parts ih =>
    have hp := hparts p (by simp)
    refine (yields_isAssignableTo hT hp hm).bind fun b T1 hT1 h1 hb => ?_
    cases b with
    | true => exact yields_pure hT1 (by simpa using .inl (hb.mp rfl))
    | false =>
      have hno : ¬T.Fits (T.shape p) (T.shape m) := fun h => absurd (hb.mpr h) (by simp)
      refine (ih hT1 (fun q hq => (hparts q (List.mem_cons_of_mem p hq)).of_agrees h1)
        (hm.of_agrees h1)).imp fun c T2 _ _ hc => hc.trans ?_
      simp only [List.mem_cons, exists_eq_or_imp, hno, false_or]
      refine exists_congr fun q => and_congr_right fun hq => ?_
      exact h1.fits_types_iff (hparts q (List.mem_cons_of_mem p hq)) hm

/-- The members of a type that some of the parts fits. -/
theorem yields_select (hT : T.Faithful) {ms : List Ty}
    (hparts : ∀ p ∈ parts, T.FirstOrder p) (hms : ∀ m ∈ ms, T.FirstOrder m) :
    Yields T (Ty.select (someFits parts) ms) fun _ kept =>
      (∀ m ∈ kept, m ∈ ms) ∧
        ∀ m ∈ ms, (∃ p ∈ parts, T.Fits (T.shape p) (T.shape m)) → m ∈ kept := by
  induction ms generalizing T with
  | nil => exact yields_pure hT (by simp)
  | cons m ms ih =>
    have hm := hms m (by simp)
    refine (yields_someFits hT hparts hm).bind fun b T1 hT1 h1 hb => ?_
    have hrest := ih hT1 (fun p hp => (hparts p hp).of_agrees h1)
      fun k hk => (hms k (List.mem_cons_of_mem m hk)).of_agrees h1
    have hlater : ∀ k ∈ ms, (∃ p ∈ parts, T.Fits (T.shape p) (T.shape k)) →
        ∃ p ∈ parts, T1.Fits (T1.shape p) (T1.shape k) := by
      rintro k hk ⟨p, hp, hfits⟩
      exact ⟨p, hp, (h1.fits_types_iff (hparts p hp) (hms k (List.mem_cons_of_mem m hk))).mpr hfits⟩
    cases b with
    | true =>
      refine hrest.bind fun kept T2 hT2 _ hkept =>
        yields_pure hT2 ⟨fun k hk => ?_, fun k hk hfits => ?_⟩
      · rcases List.mem_cons.mp hk with rfl | hk
        · exact List.mem_cons_self
        · exact List.mem_cons_of_mem m (hkept.1 k hk)
      · rcases List.mem_cons.mp hk with rfl | hk
        · exact List.mem_cons_self
        · exact List.mem_cons_of_mem m (hkept.2 k hk (hlater k hk hfits))
    | false =>
      refine hrest.imp fun kept T2 _ _ hkept => ⟨fun k hk => List.mem_cons_of_mem m (hkept.1 k hk),
        fun k hk hfits => ?_⟩
      rcases List.mem_cons.mp hk with rfl | hk
      · exact absurd (hb.mpr hfits) (by simp)
      · exact hkept.2 k hk (hlater k hk hfits)

/-- A value of the assigned type is in some part of it, and that fits a member of the current
type. -/
theorem exists_fitting (hT : T.Faithful) (ha : T.Simple a) (ht : T.Simple t)
    (hfits : T.Fits (T.shape a) (T.shape t)) {v : Datum} (hv : T.Inhabits v a) :
    ∃ m ∈ T.members t, (∃ p ∈ T.members a, T.Fits (T.shape p) (T.shape m)) ∧
    v.IsIn (T.shape m) := by
  have hwf := hT.wellFormed
  obtain ⟨p, hp, hin⟩ := hv
  have hpfits := ((ha.firstOrder hwf).fits_iff_members hwf).mp hfits p hp
  have hpsimple := (ha.of_member hp).resolve_left fun h => Table.not_isIn_never (h ▸ hin)
  obtain ⟨m, hm, hpm⟩ := Table.exists_member_of_fits hpsimple hpfits
  refine ⟨m, hm, ⟨p, hp, hpm⟩, hpm.isIn hpsimple ((ht.of_member hm).resolve_left ?_) hin⟩
  rintro rfl
  rw [hpm.never_right] at hpsimple
  exact absurd hpsimple (by simp [Shape.isSimple])

section Sessions

open Check

variable {vars : List String} {w : Walker} {s : Session} {x : String}

/-- The session with one variable narrowed to a type that has some values. -/
def Narrowed (w : Walker) (x : String) (holds : Datum → Prop) (s s' : Session) : Prop :=
  ∃ s1 u, s.Steady s1 ∧ s1.table.Declarable u ∧ (∀ v, holds v → s1.table.Inhabits v u) ∧
    s' = { s1 with scopes := s1.scopes.bind w.environment x u }

/-- An assigned variable has a type to which the assigned values belong. -/
theorem ensures_narrowAfterAssignment (hs : s.Ready vars w) (hx : x ∈ vars) {decl : Ty}
    (hdecl : s.table.Declarable decl) (ha : s.table.Simple a)
    (hfits : s.table.Fits (s.table.shape a) (s.table.shape decl)) :
    Ensures w s (narrowAfterAssignment x ⟨decl, false⟩ a) fun _ s' =>
      Narrowed w x (fun v => s.table.Inhabits v a) s s' := by
  have hwf := hs.faithful.wellFormed
  obtain ⟨t, ht, hd⟩ := hs.scopes.types x hx
  have hfirst := hd.firstOrder hs.faithful
  refine ensures_of_result (a := some t) (by rw [← ht]; rfl) ?_
  refine ensures_of_result (typing_of_some (Ty.resolve_firstOrder hfirst w.steps)) ?_
  rw [if_neg (by simp [Ty.not_isTop_of_declarable hd, Ty.not_isTop_of_simple ha])]
  refine (gives_typing (Typing.yields_isAssignableTo hs.faithful
    (ha.firstOrder hwf) hfirst)).ensures
    fun b s1 h1 hb => ?_
  have hback : ∀ {u : Ty}, s.table.Simple u → ∀ v, s1.table.Inhabits v u ↔ s.table.Inhabits v u :=
    fun hu v => hu.inhabits_iff hwf h1.agrees
  cases b with
  | false =>
    rintro _ s' hrun
    obtain ⟨-, rfl⟩ := Prod.mk.inj (Option.some.inj hrun)
    refine ⟨s1, decl, h1, hdecl.of_agrees hwf h1.agrees, fun v hv => ?_, rfl⟩
    exact (hback hdecl.toSimple v).mpr (ha.inhabits hwf hdecl.toSimple hfits hv)
  | true =>
    have hcurrent := hb.mp rfl
    have ha1 := ha.of_agrees hwf h1.agrees
    have hd1 := hd.of_agrees hwf h1.agrees
    have hfirst1 := ha1.firstOrder h1.faithful.wellFormed
    refine ensures_of_result (typing_of_some (Ty.resolve_firstOrder hfirst1 w.steps)) ?_
    refine ensures_of_result (a := s1.table) rfl ?_
    refine ensures_of_result (a := s1.table) rfl ?_
    dsimp only [Option.getD_some]
    rw [hd1.splitMembers_eq h1.faithful]
    have hwf1 := h1.faithful.wellFormed
    refine (gives_typing (yields_select h1.faithful (fun p hp => hfirst1.member hp) fun m hm =>
      (hd1.firstOrder h1.faithful).member hm)).ensures fun kept s2 h2 hkept => ?_
    have hdeclarable : ∀ m ∈ kept, s2.table.Declarable m := fun m hm =>
      (hd1.member h1.faithful (hkept.1 m hm)).1.of_agrees hwf1 h2.agrees
    refine (gives_typing (yields_union h2.faithful hdeclarable)).ensures fun u s3 h3 hu => ?_
    have hvalues : ∀ v, s.table.Inhabits v a → s3.table.Inhabits v u := by
      intro v hv
      have hfits1 := (h1.agrees.fits_types_iff (ha.firstOrder hwf) hfirst).mpr hcurrent
      obtain ⟨m, hm, hpart, hin⟩ :=
        exists_fitting h1.faithful ha1 hd1.toSimple hfits1 ((hback ha v).mpr hv)
      obtain ⟨hmember, hm1⟩ := hd1.member h1.faithful hm
      refine hu.2 m (hkept.2 m hm hpart) v ?_
      rw [hmember.toSimple.inhabits_iff hwf1 h2.agrees]
      exact (hm1 v).mpr hin
    rintro _ s' hrun
    obtain ⟨-, rfl⟩ := Prod.mk.inj (Option.some.inj hrun)
    refine ⟨s3, if u = .never then t else u, (h1.trans h2).trans h3, ?_, fun v hv => ?_, rfl⟩
    · split
      · exact (hd1.of_agrees hwf1 h2.agrees).of_agrees h2.faithful.wellFormed h3.agrees
      · exact hu.1
    · rw [if_neg]
      · exact hvalues v hv
      · rintro rfl
        exact Table.not_inhabits_never (hvalues v hv)

/-- An assignment of a value that fits the declared type. -/
theorem follows_of_narrowed (hs : s.Ready vars w) (hx : x ∈ vars)
    {holds : Datum → Prop} (h : Narrowed w x holds s s')
    (hholds : ∀ ρ v, s.Models vars w ρ → e.HasValue ρ v → holds v) :
    s.Follows vars w s' false fun ρ ρ' => ∃ v, e.HasValue ρ v ∧ ρ' = Function.update ρ x v := by
  obtain ⟨s1, u, h1, hu, hvalues, rfl⟩ := h
  have hs1 := hs.steady h1
  have hbind : s1.scopes.bind w.environment x u = s1.scopes.overriding w.environment [(x, u)] := by
    rw [← Scopes.overriding_cons, Scopes.overriding_nil]
  have htyped : Bindings.Typed s1.table vars [(x, u)] := by
    intro p hp
    obtain rfl := List.mem_singleton.mp hp
    exact ⟨hx, hu⟩
  rw [hbind]
  refine .of_steady hs h1 ⟨hs1.moved_overriding htyped, fun _ _ ρ ρ' hρ hrun => ⟨rfl, ?_⟩⟩
  obtain ⟨v, hv, rfl⟩ := hrun
  refine Scopes.Fits.override hs1.scopes.frame ⟨fun p hp => ?_, fun y hy hnot t ht => ?_⟩
  · obtain rfl := List.mem_singleton.mp hp
    rw [Function.update_self]
    exact hvalues v (hholds ρ v ((hs.models_iff h1).mp hρ) hv)
  · have hne : y ≠ x := by simpa using hnot
    rw [Function.update_of_ne hne]
    exact hρ y hy t ht

end Sessions

end Access

namespace Check

variable {w : Walker} {s : Session}

theorem size_of_report {position : Position} {problem : Problem} {a : Unit}
    (hq : w.quiet = false) (h : report position problem w s = some (a, s')) :
    s.findings.size < s'.findings.size := by
  obtain ⟨_, s1, hw, h⟩ := bind_eq_some.1 h
  obtain ⟨rfl, rfl⟩ := Prod.mk.inj (Option.some.inj hw)
  rw [if_pos (by simp [hq])] at h
  obtain ⟨-, rfl⟩ := Prod.mk.inj (Option.some.inj h)
  simp

/-- A value is compared with a type; that it does not fit is found. -/
theorem ensures_fits {a b : Ty} (hT : s.table.Faithful) (ha : s.table.Has a) (hb : s.table.Has b)
    (position : Position) (reason : FitReason) :
    Ensures w s (fits position a b reason) fun ok s' => s.Steady s' ∧
      (s.table.FirstOrder a → s.table.FirstOrder b → ok = true →
        s.table.Fits (s.table.shape a) (s.table.shape b)) ∧
      (ok = false → w.quiet = false → s.findings.size < s'.findings.size) := by
  have hasked : Gives w s (monadLift (a.isAssignableTo b) : Check Bool) fun _ ok =>
      s.table.FirstOrder a → s.table.FirstOrder b →
        (ok = true ↔ s.table.Fits (s.table.shape a) (s.table.shape b)) := by
    refine gives_typing fun n ok T1 hrun => ?_
    obtain ⟨hT1, h1⟩ := hT.asked ha hb hrun
    exact ⟨hT1, h1, fun ha hb => hT.answered ha hb hrun⟩
  refine hasked.ensures fun ok s1 h1 hok => ?_
  cases ok with
  | true => exact ensures_pure ⟨h1, fun ha hb _ => (hok ha hb).mp rfl, by simp⟩
  | false =>
    intro ok s2 hrun
    obtain ⟨_, s3, hreport, hrun⟩ := bind_eq_some.1 hrun
    obtain ⟨rfl, rfl⟩ := Prod.mk.inj (Option.some.inj hrun)
    refine ⟨h1.trans (gives_report h1.faithful _ _ _ _ hreport).1, by simp, fun _ hq => ?_⟩
    exact Nat.lt_of_le_of_lt h1.findings (size_of_report hq hreport)

end Check

namespace Walk

open Check

variable {vars : List String} {w : Walker} {s : Session} {units : Array Declaration}

theorem gives_check_number (hT : s.table.Faithful) (site : Site) (x : Binary64)
    (expected : Option Ty) :
    Gives w s (check (Function.settle units) (.number site x) expected) fun T t =>
      ∃ y : Binary64, T.shape t = .literal (.number y) ∧ x.text = y.text := by
  rw [check]
  refine gives_recorded _ _ (fun T T1 t _ h ht => ?_) ?_
  · obtain ⟨y, hy, htext⟩ := ht
    exact ⟨y, (h.shape_eq (.literal hy)).trans hy, htext⟩
  · refine (gives_interning hT (Interning.gives_literalOf hT.wellFormed _)).imp fun t s1 _ ht => ?_
    obtain ⟨-, halike⟩ := ht
    cases hs : s1.table.shape t with
    | literal l =>
      rw [hs] at halike
      cases l with
      | number y => exact ⟨y, rfl, halike.2.symm⟩
      | _ => simp [Shape.Alike, Literal.base] at halike
    | _ => simp [hs, Shape.Alike] at halike

/-- The type of what is assigned has its value. -/
theorem gives_check_operand (he : e.IsOperand vars) (hs : s.Ready vars w) (expected : Option Ty) :
    Gives w s (check (Function.settle units) e expected) fun T t =>
      T.Simple t ∧ ∀ ρ v, s.Models vars w ρ → e.HasValue ρ v → T.Inhabits v t := by
  have hwf := hs.faithful.wellFormed
  cases he with
  | @name site x hx =>
    obtain ⟨u, hu, hd⟩ := hs.scopes.types x hx
    refine (gives_check_name hs hx site expected).imp fun t s1 h1 ht => ⟨ht.2.toSimple, ?_⟩
    obtain rfl := Option.some.inj (hu.symm.trans ht.1)
    intro ρ v hρ hv
    rw [hd.toSimple.inhabits_iff hwf h1.agrees]
    cases hv with
    | name => exact hρ x hx u hu
    | constant hc => cases hc
  | @number site x =>
    refine (gives_check_number hs.faithful site x expected).imp fun t s1 h1 ht => ?_
    obtain ⟨y, hy, htext⟩ := ht
    have hsimple : (s1.table.shape t).isSimple = true := by rw [hy]; rfl
    have hhas := (Table.FirstOrder.literal hy).has
    refine ⟨Table.simple_of_isSimple hhas hsimple, fun ρ v _ hv => ⟨t, ?_, ?_⟩⟩
    · simp [Table.members_of_isSimple hsimple]
    · rw [hy]
      cases hv with
      | number => exact htext
      | constant hc => cases hc
  | @constant c d hc =>
    refine (gives_check_constant hc hs.faithful expected).imp fun t s1 h1 ht => ?_
    have hd := Ty.declarable_of_denotes ht
    refine ⟨hd.toSimple, fun ρ v _ hv => ?_⟩
    have hv : v = d := by
      cases hv with
      | name | number => cases hc
      | constant hc' => cases hc <;> cases hc' <;> rfl
    exact ⟨t, Ty.mem_members_of_denotes ht, (Ty.isIn_iff_of_denotes ht).mpr hv⟩

/-- An assignment is followed. -/
theorem follows_assign (he : e.IsOperand vars) (hs : s.Ready vars w) {x : String}
    (hx : x ∈ vars) (own : Site) (position : Position) :
    Ensures w s (Access.assignVariable own x ⟨position, check (Function.settle units) e, false⟩)
      fun _ s' => s.Follows vars w s' false fun ρ ρ' =>
        ∃ v, e.HasValue ρ v ∧ ρ' = Function.update ρ x v := by
  obtain ⟨decl, hvalue, hdecl⟩ := hs.scopes.values x hx
  refine ensures_of_result (a := some ⟨decl, false⟩) (by rw [← hvalue]; rfl) ?_
  refine (gives_record hs.faithful _ _ _).ensures fun _ s1 h1 _ => ?_
  rw [if_neg (by simp)]
  have hs1 := hs.steady h1
  refine (gives_check_operand he hs1 _).ensures fun t s2 h2 ht => ?_
  have hs2 := hs1.steady h2
  have hwf := hs.faithful.wellFormed
  have hdecl2 := hdecl.of_agrees hwf (h1.agrees.trans h2.agrees)
  have hfirst := ht.1.firstOrder h2.faithful.wellFormed
  refine (ensures_fits h2.faithful ht.1.has hdecl2.has position .assignment).bind fun ok s3 h => ?_
  obtain ⟨h3, hfits, hfound⟩ := h
  have h13 := (h1.trans h2).trans h3
  cases ok with
  | false =>
    refine ensures_pure ⟨h13.moved, fun hq hsize => ?_⟩
    have hgrows := hfound rfl hq
    have hbefore := (h1.trans h2).findings
    omega
  | true =>
    have hs3 := hs2.steady h3
    have hvalue3 : s3.scopes.value? w.environment x = some ⟨decl, false⟩ := by
      rw [h13.scopes, hvalue]
    have hwf2 := h2.faithful.wellFormed
    have hfirstDecl := hdecl2.firstOrder h2.faithful
    have ht3 := ht.1.of_agrees hwf2 h3.agrees
    have hfits3 := (h3.agrees.fits_types_iff hfirst hfirstDecl).mpr (hfits hfirst hfirstDecl rfl)
    have hnarrowed := Access.ensures_narrowAfterAssignment hs3 hx
      (hdecl2.of_agrees hwf2 h3.agrees) ht3
      hfits3
    refine ensures_of_result (a := some ⟨decl, false⟩) (by rw [← hvalue3]; rfl) ?_
    refine hnarrowed.bind fun _ s4 h4 => ensures_pure (.of_steady hs h13 ?_)
    refine Access.follows_of_narrowed hs3 hx h4 fun ρ v hρ hv => ?_
    rw [ht.1.inhabits_iff hwf2 h3.agrees]
    exact ht.2 ρ v ((hs1.models_iff (h2.trans h3)).mp hρ) hv

/-! ## Branches -/

/-- All narrowings of a frame that was just opened are of names declared outside it. -/
theorem narrowed_narrowing_enter {e : Nat} (h : σ.framesOf e ≠ [])
    (hin : (σ.enter e).framesOf e ≠ []) : ((σ.enter e).narrowing e b).narrowed e = b := by
  unfold Scopes.narrowed
  rw [Scopes.innermost_narrowing hin, Scopes.innermost_enter h]
  refine List.filter_eq_self.mpr fun p _ => ?_
  simp [Frame.declares]

/-- What a branch leaves: the session as it was, and what holds at the end of the branch. -/
structure Branched (vars : List String) (w : Walker) (s s' : Session) (start : Bindings)
    (run : Store → Store → Prop) (after : Bindings × Bool) : Prop where
  steady : s.Steady s'
  typed : after.1.Typed s'.table vars
  fits : w.quiet = false → s'.findings.size = s.findings.size → ∀ ρ ρ', s.Models vars w ρ →
    start.Hold s.table ρ → run ρ ρ' →
      after.2 = false ∧ s'.scopes.Fits s'.table vars w.environment ρ' after.1

theorem branch_eq_some {after : Bindings × Bool} (h : branch start body w s = some (after, s')) :
    ∃ s1, body w (layered w start s) = some (after.2, s1) ∧
      after.1 = s1.scopes.narrowed w.environment ∧
        s' = { s1 with scopes := s1.scopes.exit w.environment } := by
  obtain ⟨s1, hwork, rfl⟩ := inFrame_eq_some h
  obtain ⟨_, s0, happly, hwork⟩ := bind_eq_some.1 hwork
  rw [apply_eq] at happly
  obtain ⟨-, rfl⟩ := Prod.mk.inj (Option.some.inj happly)
  obtain ⟨exits, s2, hexits, hwork⟩ := bind_eq_some.1 hwork
  obtain ⟨_, s3, hnarrowed, hwork⟩ := bind_eq_some.1 hwork
  obtain ⟨rfl, rfl⟩ := Prod.mk.inj (Option.some.inj hnarrowed)
  obtain ⟨rfl, rfl⟩ := Prod.mk.inj (Option.some.inj hwork)
  exact ⟨s2, hexits, rfl, rfl⟩

theorem ensures_branch (hs : s.Ready vars w) (hstart : start.Typed s.table vars)
    (hbody : ∀ s1 : Session, s1.Ready vars w →
      Ensures w s1 body fun exits s' => s1.Follows vars w s' exits run) :
    Ensures w s (branch start body) fun after s' => Branched vars w s s' start run after := by
  intro after s' hrun
  obtain ⟨after, exits⟩ := after
  obtain ⟨s2, hexits, hafter, rfl⟩ := branch_eq_some hrun
  obtain rfl : after = s2.scopes.narrowed w.environment := hafter
  have hready := hs.layered hstart
  have hfollows := hbody _ hready exits s2 hexits
  obtain ⟨b, hb, hscopes⟩ := hfollows.moved.scopes
  have hframe := hs.scopes.frame
  have hin := hs.scopes.enter.frame
  have hover : s2.scopes =
      (s.scopes.enter w.environment).overriding w.environment (start ++ b) :=
    hscopes.trans (Scopes.overriding_overriding hin)
  obtain ⟨N, hN⟩ : ∃ N, s2.scopes = (s.scopes.enter w.environment).narrowing w.environment N :=
    ⟨_, hover⟩
  have hready2 := hready.moved hfollows.moved
  have htyped := hready2.scopes
  rw [hN] at htyped
  have hscopes' : s2.scopes.exit w.environment = s.scopes := by
    rw [hN, Scopes.exit_narrowing_enter hframe]
  have hnarrowings : s2.scopes.narrowed w.environment = N := by
    rw [hN, narrowed_narrowing_enter hframe hin]
  have houter := hs.scopes.of_agrees hs.faithful.wellFormed hfollows.moved.agrees
  refine ⟨⟨hfollows.moved.faithful, hfollows.moved.agrees, hscopes', hfollows.moved.pending,
    hfollows.moved.findings⟩, ?_, fun hq hsize ρ ρ' hρ hhold hrun => ?_⟩
  · dsimp only
    rw [hnarrowings]
    have hown := htyped.narrowed
    rwa [Scopes.innermost_narrowing hin] at hown
  · obtain ⟨hexits, hmodels⟩ :=
      hfollows.models hq hsize ρ ρ' (hs.models_layered hρ hhold) hrun
    refine ⟨hexits, ?_⟩
    dsimp only
    rw [hnarrowings, hscopes']
    unfold Session.Models at hmodels
    rw [hN] at hmodels
    exact houter.fits_narrowed htyped hmodels

/-- A block is a branch that starts under no condition. -/
theorem inBlock_eq (body : Check Bool) :
    inBlock body = (do
      let ended ← branch [] body
      if !ended.2 then apply ended.1
      return ended.2) := rfl

theorem follows_inBlock (hs : s.Ready vars w) (hbody : ∀ s1 : Session, s1.Ready vars w →
      Ensures w s1 body fun exits s' => s1.Follows vars w s' exits run) :
    Ensures w s (inBlock body) fun exits s' => s.Follows vars w s' exits run := by
  rw [inBlock_eq]
  have hnothing : Bindings.Typed s.table vars [] := fun p hp => absurd hp List.not_mem_nil
  refine (ensures_branch hs hnothing hbody).bind fun after s1 h1 => ?_
  obtain ⟨after, exits⟩ := after
  have hs1 := hs.steady h1.steady
  cases exits with
  | true =>
    refine ensures_pure ⟨h1.steady.moved, fun hq hsize ρ ρ' hρ hrun => ?_⟩
    have hfalse := (h1.fits hq hsize ρ ρ' hρ (fun p hp => absurd hp List.not_mem_nil) hrun).1
    exact absurd hfalse (by simp)
  | false =>
    intro exits s' hrun
    obtain ⟨_, s2, happly, hrun⟩ := bind_eq_some.1 hrun
    rw [apply_eq] at happly
    obtain ⟨-, rfl⟩ := Prod.mk.inj (Option.some.inj happly)
    obtain ⟨rfl, rfl⟩ := Prod.mk.inj (Option.some.inj hrun)
    refine ⟨.trans hs h1.steady.moved (hs1.moved_overriding h1.typed),
      fun hq hsize ρ ρ' hρ hrun => ⟨rfl, ?_⟩⟩
    have hfits := (h1.fits hq hsize ρ ρ' hρ (fun p hp => absurd hp List.not_mem_nil) hrun).2
    exact hfits.override hs1.scopes.frame

theorem gives_atEnd (hs : s.Ready vars w) {x : String} (hx : x ∈ vars) (hb : b.Typed s.table vars) :
    Gives w s (atEnd b x) fun T o => ∃ t, o = some t ∧ T.Declarable t ∧
      ∀ ρ, s.scopes.Fits s.table vars w.environment ρ b → T.Inhabits (ρ x) t := by
  unfold atEnd
  cases hlookup : b.lookup x with
  | some t =>
    have hmem := Bindings.mem_of_lookup hlookup
    exact gives_pure hs.faithful ⟨t, rfl, (hb _ hmem).2, fun ρ hρ => hρ.hold _ hmem⟩
  | none =>
    obtain ⟨t, ht, hd⟩ := hs.scopes.types x hx
    have hnot : x ∉ b.map Prod.fst := by
      intro h
      obtain ⟨p, hp, rfl⟩ := List.mem_map.mp h
      rw [List.lookup_eq_none_iff] at hlookup
      exact absurd (hlookup p hp) (by simp)
    intro o s' hrun
    obtain ⟨rfl, rfl⟩ := Prod.mk.inj (Option.some.inj hrun)
    exact ⟨steady_refl hs.faithful, t, ht, hd, fun ρ hρ => hρ.others x hx hnot t ht⟩

/-- What two branches agree on holds after either. -/
theorem gives_join (hs : s.Ready vars w) (ha : a.Typed s.table vars) (hb : b.Typed s.table vars) :
    Gives w s (join a b) fun T j => j.Typed T vars ∧ ∀ ρ,
      s.scopes.Fits s.table vars w.environment ρ a ∨ s.scopes.Fits s.table vars w.environment ρ b →
        s.scopes.Fits T vars w.environment ρ j := by
  let either (ρ : Store) : Prop := s.scopes.Fits s.table vars w.environment ρ a ∨
    s.scopes.Fits s.table vars w.environment ρ b
  let joins (T : Table) (x : String) (o : Option (String × Ty)) : Prop :=
    ∃ t, o = some (x, t) ∧ x ∈ vars ∧ T.Declarable t ∧ ∀ ρ, either ρ → T.Inhabits (ρ x) t
  have hlasts : ∀ T T1 : Table, ∀ x o, T.Faithful → T.Agrees T1 → joins T x o → joins T1 x o := by
    rintro T T1 x o hT h ⟨t, ho, hx, hd, ht⟩
    refine ⟨t, ho, hx, hd.of_agrees hT.wellFormed h, fun ρ hρ => ?_⟩
    rw [hd.toSimple.inhabits_iff hT.wellFormed h]
    exact ht ρ hρ
  have hT := hs.faithful.wellFormed
  refine (gives_mapM hlasts hs.faithful _ fun x hx s1 h1 => ?_).bind fun os s1 h1 hos =>
    gives_pure h1.faithful ?_
  · have hx := Guard.names_subset ha hb hx
    have hs1 := hs.steady h1
    have ha1 := ha.of_agrees hT h1.agrees
    refine (gives_atEnd hs1 hx ha1).bind fun o s2 h2 ho => ?_
    obtain ⟨t, rfl, ht, htvalues⟩ := ho
    have h12 := h1.trans h2
    refine (gives_atEnd (hs1.steady h2) hx (hb.of_agrees hT h12.agrees)).bind fun o s3 h3 ho => ?_
    obtain ⟨u, rfl, hu, huvalues⟩ := ho
    have hwf2 := h2.faithful.wellFormed
    have ht3 := ht.of_agrees hwf2 h3.agrees
    have hsides : ∀ k ∈ [t, u], s3.table.Declarable k := by simpa using ⟨ht3, hu⟩
    refine (gives_typing (Typing.yields_union h3.faithful hsides)).bind fun v s4 h4 hv => ?_
    refine gives_pure h4.faithful ⟨v, rfl, hx, hv.1, fun ρ hρ => ?_⟩
    rcases hρ with hρ | hρ
    · refine hv.2 t (by simp) _ ?_
      rw [ht.toSimple.inhabits_iff hwf2 h3.agrees]
      refine htvalues ρ ?_
      rw [h1.scopes, hs.scopes.fits_iff ha hT h1.agrees]
      exact hρ
    · refine hv.2 u (by simp) _ (huvalues ρ ?_)
      rw [h12.scopes, hs.scopes.fits_iff hb hT h12.agrees]
      exact hρ
  · have hmem : ∀ p ∈ os.filterMap id, p.1 ∈ vars ∧ s1.table.Declarable p.2 ∧
        ∀ ρ, either ρ → s1.table.Inhabits (ρ p.1) p.2 := by
      intro p hp
      obtain ⟨o, ho, rfl⟩ := List.mem_filterMap.mp hp
      obtain ⟨x, -, t, heq, hrest⟩ := hos.1 _ ho
      obtain rfl := Option.some.inj heq
      exact hrest
    refine ⟨fun p hp => ⟨(hmem p hp).1, (hmem p hp).2.1⟩,
      fun ρ hρ => ⟨fun p hp => (hmem p hp).2.2 ρ hρ, fun x hx hnot t ht => ?_⟩⟩
    · -- a name that is not joined was narrowed in neither branch
      have hneither : x ∉ a.map Prod.fst ∧ x ∉ b.map Prod.fst := by
        rw [← not_or]
        intro hor
        have hname : x ∈ Guard.names a b := List.mem_eraseDups.mpr (List.mem_append.mpr hor)
        obtain ⟨o, ho, u, rfl, -⟩ := hos.2 x hname
        exact hnot (List.mem_map.mpr ⟨(x, u), List.mem_filterMap.mpr ⟨_, ho, rfl⟩, rfl⟩)
      obtain ⟨u, hu, hd⟩ := hs.scopes.types x hx
      obtain rfl := Option.some.inj (ht.symm.trans hu)
      rw [hd.toSimple.inhabits_iff hT h1.agrees]
      exact hρ.elim (fun h => h.others x hx hneither.1 t ht) fun h => h.others x hx hneither.2 t ht

/-- Narrowings that hold may be applied. -/
theorem ensures_apply (hs : s.Ready vars w) (hb : b.Typed s.table vars) :
    Ensures w s (do apply b; return false) fun exits s' => s.Moved vars w s' ∧ exits = false ∧
      ∀ ρ, s.scopes.Fits s.table vars w.environment ρ b → s'.Models vars w ρ := by
  intro exits s' hrun
  obtain ⟨_, s1, happly, hrun⟩ := bind_eq_some.1 hrun
  rw [apply_eq] at happly
  obtain ⟨-, rfl⟩ := Prod.mk.inj (Option.some.inj happly)
  obtain ⟨rfl, rfl⟩ := Prod.mk.inj (Option.some.inj hrun)
  exact ⟨hs.moved_overriding hb, rfl, fun ρ hρ => hρ.override hs.scopes.frame⟩

/-- The second branch of a conditional: nothing happens where there is none. -/
def otherwise (start : Bindings) (no : Option (Check Bool)) : Check (Bindings × Bool) :=
  no.elim (pure (start, false)) (branch start)

/-- What follows on the branches of a conditional. -/
def merge (yes no : Bindings × Bool) : Check Bool := do
  match yes.2, no.2 with
  | true, true => return true
  | true, false => apply no.1; return false
  | false, true => apply yes.1; return false
  | false, false => do
    apply (← join yes.1 no.1)
    return false

theorem conditional_eq (condition : Check Ty) (guard : Check Guard) (yes : Check Bool)
    (no : Option (Check Bool)) :
    conditional condition guard yes no = (do
      let _ ← condition
      let g ← guard
      let afterYes ← branch g.whenTrue yes
      let afterNo ← otherwise g.whenFalse no
      merge afterYes afterNo) := by
  cases no <;> rfl

theorem ensures_otherwise (hs : s.Ready vars w) (hstart : start.Typed s.table vars)
    (hno : ∀ body, no = some body → ∀ s1 : Session, s1.Ready vars w →
      Ensures w s1 body fun exits s' => s1.Follows vars w s' exits run)
    (hskip : no = none → ∀ ρ ρ', run ρ ρ' → ρ' = ρ) :
    Ensures w s (otherwise start no) fun after s' => Branched vars w s s' start run after := by
  cases no with
  | some body => exact ensures_branch hs hstart (hno body rfl)
  | none =>
    refine ensures_pure ⟨steady_refl hs.faithful, hstart, fun _ _ ρ ρ' hρ hhold hrun => ⟨rfl, ?_⟩⟩
    rw [hskip rfl ρ ρ' hrun]
    exact Scopes.Models.fits hρ hhold

/-- What holds at the end of a branch that does not leave the function holds after both. -/
theorem ensures_merge (hs : s.Ready vars w) {yes no : Bindings × Bool}
    (hyes : yes.1.Typed s.table vars)
    (hno : no.1.Typed s.table vars) :
    Ensures w s (merge yes no) fun exits s' => s.Moved vars w s' ∧ ∀ ρ,
      yes.2 = false ∧ s.scopes.Fits s.table vars w.environment ρ yes.1 ∨
        no.2 = false ∧ s.scopes.Fits s.table vars w.environment ρ no.1 →
          exits = false ∧ s'.Models vars w ρ := by
  obtain ⟨yes, yesExits⟩ := yes
  obtain ⟨no, noExits⟩ := no
  cases yesExits <;> cases noExits
  · refine (gives_join hs hyes hno).ensures fun j s1 h1 hj => ?_
    refine (ensures_apply (hs.steady h1) hj.1).imp fun exits s' h =>
      ⟨.trans hs h1.moved h.1, fun ρ hρ => ⟨h.2.1, h.2.2 ρ ?_⟩⟩
    rw [h1.scopes]
    exact hj.2 ρ (hρ.imp And.right And.right)
  · refine (ensures_apply hs hyes).imp fun exits s' h => ⟨h.1, fun ρ hρ => ⟨h.2.1, h.2.2 ρ ?_⟩⟩
    exact (hρ.resolve_right fun h => absurd h.1 (by simp)).2
  · refine (ensures_apply hs hno).imp fun exits s' h => ⟨h.1, fun ρ hρ => ⟨h.2.1, h.2.2 ρ ?_⟩⟩
    exact (hρ.resolve_left fun h => absurd h.1 (by simp)).2
  · refine ensures_pure ⟨(steady_refl hs.faithful).moved, fun ρ hρ => ?_⟩
    rcases hρ with ⟨h, -⟩ | ⟨h, -⟩ <;> exact absurd h (by simp)

/-- A conditional goes on as its branches do. -/
theorem follows_conditional (hs : s.Ready vars w) {c : Expr} (hc : c.IsTest vars)
    {yes : Check Bool} {runYes runNo : Store → Store → Prop}
    (hyes : ∀ s1 : Session, s1.Ready vars w →
      Ensures w s1 yes fun exits s' => s1.Follows vars w s' exits runYes)
    (hno : ∀ body, no = some body → ∀ s1 : Session, s1.Ready vars w →
      Ensures w s1 body fun exits s' => s1.Follows vars w s' exits runNo)
    (hskip : no = none → ∀ ρ ρ', runNo ρ ρ' → ρ' = ρ) :
    Ensures w s (conditional (check (Function.settle units) c none)
    (guard (Function.settle units) c)
      yes no) fun exits s' => s.Follows vars w s' exits fun ρ ρ' =>
        c.Decides ρ true ∧ runYes ρ ρ' ∨ c.Decides ρ false ∧ runNo ρ ρ' := by
  rw [conditional_eq]
  refine (gives_check_test hc hs).ensures fun _ s1 h1 _ => ?_
  have hs1 := hs.steady h1
  refine (proves_guard hc hs1).ensures fun g s2 h2 hg => ?_
  have hs2 := hs1.steady h2
  refine (ensures_branch hs2 hg.typedTrue hyes).bind fun afterYes s3 h3 => ?_
  have hs3 := hs2.steady h3.steady
  have hg3 := hg.of_agrees h2.faithful.wellFormed h3.steady.agrees
  refine (ensures_otherwise hs3 hg3.typedFalse hno hskip).bind fun afterNo s4 h4 => ?_
  have hs4 := hs3.steady h4.steady
  have hsteady := ((h1.trans h2).trans h3.steady).trans h4.steady
  have hyesTyped := h3.typed.of_agrees h3.steady.faithful.wellFormed h4.steady.agrees
  have hended : w.quiet = false → s4.findings.size = s.findings.size → ∀ ρ ρ', s.Models vars w ρ →
      c.Decides ρ true ∧ runYes ρ ρ' ∨ c.Decides ρ false ∧ runNo ρ ρ' →
        afterYes.2 = false ∧ s4.scopes.Fits s4.table vars w.environment ρ' afterYes.1 ∨
          afterNo.2 = false ∧ s4.scopes.Fits s4.table vars w.environment ρ' afterNo.1 := by
    intro hq hsize ρ ρ' hρ hrun
    have hsize2 := (h1.trans h2).findings
    have hsize3 := h3.steady.findings
    have hsize4 := h4.steady.findings
    have hρ1 := (hs.models_iff h1).mpr hρ
    have hρ2 := (hs1.models_iff h2).mpr hρ1
    rcases hrun with ⟨hdecides, hrun⟩ | ⟨hdecides, hrun⟩
    · obtain ⟨hexits, hfits⟩ :=
        h3.fits hq (by omega) ρ ρ' hρ2 (hg.holds ρ ⟨hρ1, hdecides⟩) hrun
      refine .inl ⟨hexits, ?_⟩
      rw [h4.steady.scopes,
        hs3.scopes.fits_iff h3.typed h3.steady.faithful.wellFormed h4.steady.agrees]
      exact hfits
    · have hρ3 := (hs2.models_iff h3.steady).mpr hρ2
      exact .inr (h4.fits hq (by omega) ρ ρ' hρ3 (hg3.fails ρ ⟨hρ1, hdecides⟩) hrun)
  refine (ensures_merge hs4 hyesTyped h4.typed).imp fun exits s' h => ?_
  refine ⟨.trans hs hsteady.moved h.1, fun hq hsize ρ ρ' hρ hrun => h.2 ρ' ?_⟩
  have hbefore := hsteady.findings
  have hafter := h.1.findings
  exact hended hq (by omega) ρ ρ' hρ hrun

/-! ## Statements -/

theorem ensures_leave (hs : s.Ready vars w) (position : Position) :
    Ensures w s (leave position none) fun _ s' => s.Steady s' := by
  have hreturned : ∀ s1 : Session, s.Steady s1 →
      Ensures w s1 (returned .undefined) fun _ s' => s.Steady s' := by
    intro s1 h1 _ s' hrun
    obtain ⟨-, rfl⟩ := Prod.mk.inj (Option.some.inj hrun)
    exact ⟨h1.faithful, h1.agrees, h1.scopes, h1.pending, h1.findings⟩
  refine ensures_of_result (a := w) rfl ?_
  cases hf : w.function with
  | none => exact (gives_report hs.faithful _ _).ensures fun _ s1 h1 _ => ensures_pure h1
  | some f =>
    dsimp only
    cases ht : f.result with
    | none => exact hreturned s (steady_refl hs.faithful)
    | some t =>
      dsimp only
      split
      · have hhas := hs.result f hf t ht
        refine (ensures_fits hs.faithful (Table.has_prim _ _) hhas position .assignment).bind
          fun _ s1 h1 => hreturned s1 h1.1
      · exact hreturned s (steady_refl hs.faithful)

/-- The walk follows a statement. -/
def FollowsStatement (units : Array Declaration) (vars : List String) (w : Walker) (st : Stmt) :
    Prop :=
  ∀ s : Session, s.Ready vars w → Ensures w s (statement (Function.settle units) st) fun exits s' =>
    s.Follows vars w s' exits fun ρ ρ' => st.Runs ρ (some ρ')

/-- The walk follows statements one after the other. -/
theorem follows_all (hss : ∀ st ∈ ss, FollowsStatement units vars w st) (hs : s.Ready vars w) :
    Ensures w s (statements (Function.settle units) ss) fun exits s' =>
      s.Follows vars w s' exits fun ρ ρ' => Stmt.RunsAll ρ ss (some ρ') := by
  induction ss generalizing s with
  | nil =>
    rw [statements]
    refine ensures_pure ⟨(steady_refl hs.faithful).moved, fun _ _ ρ ρ' hρ hrun => ?_⟩
    cases hrun
    exact ⟨rfl, hρ⟩
  | cons st ss ih =>
    rw [statements]
    refine (hss st (by simp) s hs).bind fun first s1 h1 => ?_
    have hs1 := hs.moved h1.moved
    refine (ih (fun k hk => hss k (List.mem_cons_of_mem st hk)) hs1).bind fun rest s2 h2 => ?_
    refine ensures_pure ⟨.trans hs h1.moved h2.moved, fun hq hsize ρ ρ' hρ hrun => ?_⟩
    have hsize1 := h1.moved.findings
    have hsize2 := h2.moved.findings
    cases hrun with
    | cons hfirst hrest =>
      obtain ⟨rfl, hρ1⟩ := h1.models hq (by omega) _ _ hρ hfirst
      obtain ⟨rfl, hρ2⟩ := h2.models hq (by omega) _ _ hρ1 hrest
      exact ⟨rfl, hρ2⟩

theorem follows_block (hss : ∀ st ∈ ss, FollowsStatement units vars w st)
    (hs : s.Ready vars w) (position : Position) :
    Ensures w s (block (Function.settle units) (.mk position ss)) fun exits s' =>
      s.Follows vars w s' exits fun ρ ρ' => Stmt.RunsAll ρ ss (some ρ') := by
  rw [block]
  exact follows_inBlock hs fun s1 hs1 => follows_all hss hs1

/-- The execution of the second branch of a conditional, if it has one. -/
def RunsOtherwise (no : Option Block) (ρ ρ' : Store) : Prop :=
  (no = none → ρ' = ρ) ∧ ∀ position ss, no = some (.mk position ss) → Stmt.RunsAll ρ ss (some ρ')

theorem follows_optionalBlock {no : Option Block}
    (hno : ∀ position ss, no = some (.mk position ss) → ∀ st ∈ ss, FollowsStatement units vars w st)
    (hbody : optionalBlock (Function.settle units) no = some body) (hs : s.Ready vars w) :
    Ensures w s body fun exits s' => s.Follows vars w s' exits (RunsOtherwise no) := by
  cases no with
  | none =>
    rw [optionalBlock] at hbody
    cases hbody
  | some b =>
    obtain ⟨position, ss⟩ := b
    rw [optionalBlock] at hbody
    obtain rfl := Option.some.inj hbody
    refine (follows_block (hno position ss rfl) hs position).imp fun exits s' h => ⟨h.moved, ?_⟩
    exact fun hq hsize ρ ρ' hρ hrun => h.models hq hsize ρ ρ' hρ (hrun.2 position ss rfl)

theorem skips_of_runsOtherwise {no : Option Block}
    (h : optionalBlock (Function.settle units) no = none) (ρ ρ' : Store)
    (hrun : RunsOtherwise no ρ ρ') : ρ' = ρ := by
  cases no with
  | none => exact hrun.1 rfl
  | some b =>
    rw [optionalBlock] at h
    cases h

/-- **The walk follows plain statements.** -/
theorem follows_statement {st : Stmt} (h : st.IsPlain vars) : FollowsStatement units vars w st := by
  induction h with
  | @assign position site own x e hx he =>
    intro s hs
    rw [statement, check]
    have hassigned : Ensures w s (recorded site .assign (Access.assignVariable own x
        ⟨e.position, check (Function.settle units) e, false⟩)) fun _ s' =>
          s.Follows vars w s' false fun ρ ρ' => ∃ v, e.HasValue ρ v ∧ ρ' =
            Function.update ρ x v := by
      refine (follows_assign he hs hx own e.position).bind fun t s1 h1 => ?_
      refine (gives_record h1.moved.faithful site .assign t).ensures fun _ s2 h2 _ => ?_
      exact ensures_pure (h1.steady hs h2)
    refine hassigned.bind fun _ s1 h1 => ensures_pure ⟨h1.moved, ?_⟩
    intro hq hsize ρ ρ' hρ hrun
    cases hrun with
    | assign hv => exact h1.models hq hsize ρ _ hρ ⟨_, hv, rfl⟩
  | @block position ss hss ih =>
    intro s hs
    rw [statement]
    refine (follows_block ih hs position).imp fun exits s' h => ⟨h.moved, ?_⟩
    intro hq hsize ρ ρ' hρ hrun
    cases hrun with
    | block hrun => exact h.models hq hsize ρ ρ' hρ hrun
  | @conditional position yesPosition c yes no hc hyes hno ihyes ihno =>
    intro s hs
    rw [statement]
    refine (follows_conditional hs hc (fun s1 hs1 => follows_block ihyes hs1 yesPosition)
      (fun body hbody s1 hs1 => follows_optionalBlock ihno hbody hs1) skips_of_runsOtherwise).imp
      fun exits s' h => ⟨h.moved, fun hq hsize ρ ρ' hρ hrun => ?_⟩
    cases hrun with
    | yes hdecides hrun => exact h.models hq hsize ρ ρ' hρ (.inl ⟨hdecides, hrun⟩)
    | no hdecides hrun =>
      refine h.models hq hsize ρ ρ' hρ (.inr ⟨hdecides, by simp, fun _ _ heq => ?_⟩)
      cases heq
      exact hrun
    | skip hdecides => exact h.models hq hsize ρ ρ hρ (.inr ⟨hdecides, fun _ => rfl, by simp⟩)
  | @exit position =>
    intro s hs
    rw [statement, initialPart]
    refine (ensures_leave hs position).bind fun _ s1 h1 => ensures_pure ⟨h1.moved, ?_⟩
    intro hq hsize ρ ρ' hρ hrun
    cases hrun

end Walk

end ShapeCheck
