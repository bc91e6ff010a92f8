import ShapeCheck.Proofs.FlowTyping

/-!
# Flow typing is sound

A plain body is checked in a frame that declares its parameters. If nothing is found wrong in it,
then at every statement that an execution reaches the values of the parameters belong to the types
that they have when the walk comes to the statement; and where the walk says that a body always
leaves the function, no execution reaches its end.

* `Place` is a place in a list of statements, `Stmt.Reaches` says with which values an execution
  comes there.
* `Body.starts_declareParams` says with which sessions the walks over bodies start.
* `Walk.statements_sound` is the soundness of the walk.
-/

namespace ShapeCheck

variable {α : Type} {f : Frame} {a : α} {exits : Bool} {ss : List Stmt} {ρ ρ' : Store}
  {position : Position} {rest : List Frame} {params : List (ParamPart × Parameter)}

/-! ## Places -/

/-- A place in a list of statements. -/
inductive Place where
  | here
  | later (p : Place)
  | inside (p : Place)
  /-- In one of the branches of the first statement, a conditional. -/
  | branch (side : Bool) (p : Place)

namespace Stmt

/-- An execution that starts with some values comes to a place with some values. -/
inductive Reaches : Store → List Stmt → Place → Store → Prop
  | here {ρ : Store} {ss : List Stmt} : Reaches ρ ss .here ρ
  | later {ρ ρ1 ρ' : Store} {st : Stmt} {ss : List Stmt} {p : Place} (h : st.Runs ρ (some ρ1))
    (hp : Reaches ρ1 ss p ρ') : Reaches ρ (st :: ss) (.later p) ρ'
  | inside {ρ ρ' : Store} {position : Position} {inner ss : List Stmt} {p : Place}
    (hp : Reaches ρ inner p ρ') : Reaches ρ (.block (.mk position inner) :: ss) (.inside p) ρ'
  | yes {ρ ρ' : Store} {position yesPosition : Position} {c : Expr} {inner ss : List Stmt}
    {no : Option Block} {p : Place} (hc : c.Decides ρ true) (hp : Reaches ρ inner p ρ') :
    Reaches ρ (.conditional position c (.mk yesPosition inner) no :: ss) (.branch true p) ρ'
  | no {ρ ρ' : Store} {position noPosition : Position} {c : Expr} {yes : Block}
    {inner ss : List Stmt} {p : Place} (hc : c.Decides ρ false) (hp : Reaches ρ inner p ρ') :
    Reaches ρ (.conditional position c yes (some (.mk noPosition inner)) :: ss) (.branch false p) ρ'

end Stmt

/-! ## The walk up to a place -/

namespace Walk

open Check

/-- Opens a frame. -/
def opening : Check Unit := modifyScopes fun e σ => σ.enter e

/-- The walk up to a place. -/
def upTo (settle : String → Check Unit) : Place → List Stmt → Check Unit
  | .later p, st :: ss => do
    let _ ← statement settle st
    upTo settle p ss
  | .inside p, .block (.mk _ ss) :: _ => do
    opening
    upTo settle p ss
  | .branch true p, .conditional _ c (.mk _ ss) _ :: _ => do
    let _ ← check settle c none
    let g ← guard settle c
    opening
    apply g.whenTrue
    opening
    upTo settle p ss
  | .branch false p, .conditional _ c yes (some (.mk _ ss)) :: _ => do
    let _ ← check settle c none
    let g ← guard settle c
    let _ ← branch g.whenTrue (block settle yes)
    opening
    apply g.whenFalse
    opening
    upTo settle p ss
  | _, _ => return ()

/-! ## Sessions at places -/

variable {vars : List String} {w : Walker} {s s' : Session} {units : Array Declaration}

theorem opening_eq (w : Walker) (s : Session) : opening w s = some ((), s.entered w) := rfl

/-- The walk leads to a session of which the predicate holds. -/
def LeadsTo (w : Walker) (s : Session) (lead : Check Unit) (P : Session → Prop) : Prop :=
  ∃ s1, lead w s = some ((), s1) ∧ P s1

theorem leadsTo_bind {x : Check α} {f : α → Check Unit} {s1 : Session}
    {P : Session → Prop} (hx : x w s = some (a, s1)) (hf : LeadsTo w s1 (f a) P) :
    LeadsTo w s (x >>= f) P := by
  obtain ⟨s2, hrun, hP⟩ := hf
  exact ⟨s2, bind_eq_some.2 ⟨a, s1, hx, hrun⟩, hP⟩

theorem inBlock_eq_some {body : Check Bool} (h : inBlock body w s = some (exits, s')) :
    ∃ s1, body w (s.entered w) = some (exits, s1) ∧ s'.findings = s1.findings := by
  rw [inBlock_eq] at h
  obtain ⟨⟨after, exits'⟩, s1, hbranch, h⟩ := bind_eq_some.1 h
  obtain ⟨s2, hbody, -, rfl⟩ := branch_eq_some hbranch
  rw [layered, Scopes.overriding_nil] at hbody
  cases exits' with
  | true =>
    obtain ⟨rfl, rfl⟩ := Prod.mk.inj (Option.some.inj h)
    exact ⟨s2, hbody, rfl⟩
  | false =>
    obtain ⟨_, s3, happly, h⟩ := bind_eq_some.1 h
    rw [apply_eq] at happly
    obtain ⟨-, rfl⟩ := Prod.mk.inj (Option.some.inj happly)
    obtain ⟨rfl, rfl⟩ := Prod.mk.inj (Option.some.inj h)
    exact ⟨s2, hbody, rfl⟩

/-- What is to be shown of statements: the walk comes to every place that an execution reaches, with
types to which the values belong. -/
def Reached (units : Array Declaration) (vars : List String) (w : Walker)
    (ss : List Stmt) (p : Place)
    (ρ ρ' : Store) : Prop :=
  ∀ (s s' : Session) (exits : Bool), s.Ready vars w → s.Models vars w ρ →
    statements (Function.settle units) ss w s = some (exits, s') →
    s'.findings.size = s.findings.size →
      LeadsTo w s (upTo (Function.settle units) p ss) fun s1 =>
      s1.Ready vars w ∧ s1.Models vars w ρ'

/-- A place in a branch. -/
theorem reached_branch {p : Place} {start : Bindings}
    {after : Bindings × Bool} (hp : Reached units vars w ss p ρ ρ')
    (hs : s.Ready vars w) (hρ : s.Models vars w ρ) (hstart : start.Typed s.table vars)
    (hhold : start.Hold s.table ρ)
    (hrun : branch start (block (Function.settle units) (.mk position ss)) w s = some (after, s'))
    (hsize : s'.findings.size = s.findings.size) :
    LeadsTo w s (do opening; apply start; opening; upTo (Function.settle units) p ss) fun s1 =>
      s1.Ready vars w ∧ s1.Models vars w ρ' := by
  obtain ⟨s1, hblock, -, rfl⟩ := branch_eq_some hrun
  rw [block] at hblock
  obtain ⟨s2, hbody, hfindings⟩ := inBlock_eq_some hblock
  have hlayered := hs.layered hstart
  refine leadsTo_bind (opening_eq w s) (leadsTo_bind (apply_eq start w _) ?_)
  refine leadsTo_bind (opening_eq w _) (hp _ s2 _ hlayered.entered ?_ hbody ?_)
  · exact (hs.models_layered hρ hhold).enter
  · rw [← hfindings]
    exact hsize

/-- The walk over the first statement, and over the others. -/
theorem statements_cons_eq_some {st : Stmt}
    (hplain : ∀ k ∈ st :: ss, k.IsPlain vars) (hs : s.Ready vars w)
    (hrun : statements (Function.settle units) (st :: ss) w s = some (exits, s'))
    (hsize : s'.findings.size = s.findings.size) :
    ∃ first rest s1, statement (Function.settle units) st w s = some (first, s1) ∧
      s.Follows vars w s1 first (fun ρ ρ' => st.Runs ρ (some ρ')) ∧
      statements (Function.settle units) ss w s1 = some (rest, s') ∧
      s1.findings.size = s.findings.size ∧ s'.findings.size = s1.findings.size := by
  rw [statements] at hrun
  obtain ⟨first, s1, hfirst, hrun⟩ := bind_eq_some.1 hrun
  obtain ⟨rest, s2, hrest, hrun⟩ := bind_eq_some.1 hrun
  obtain ⟨-, rfl⟩ := Prod.mk.inj (Option.some.inj hrun)
  have h1 := follows_statement (hplain st (by simp)) s hs first s1 hfirst
  have h2 := follows_all (fun k hk => follows_statement (hplain k (List.mem_cons_of_mem st hk)))
    (hs.moved h1.moved) rest s2 hrest
  have hsize1 := h1.moved.findings
  have hsize2 := h2.moved.findings
  exact ⟨first, rest, s1, hfirst, h1, hrest, by omega, by omega⟩

/-- The walk over a conditional in which nothing is found: its condition, and its branches under
what the condition proves. -/
theorem conditional_eq_some {c : Expr} {yesPosition : Position}
    {yes : List Stmt} {no : Option Block} (hs : s.Ready vars w)
    (hplain : (Stmt.conditional position c (.mk yesPosition yes) no).IsPlain vars)
    (hrun : statement (Function.settle units)
    (.conditional position c (.mk yesPosition yes) no) w s =
      some (exits, s'))
    (hsize : s'.findings.size = s.findings.size) :
    ∃ t g s1 s2 afterYes s3 afterNo s4, check (Function.settle units) c none w s = some (t, s1) ∧
      guard (Function.settle units) c w s1 = some (g, s2) ∧ s.Steady s2 ∧
      (g.Sound vars s2.table fun ρ b => s.Models vars w ρ ∧ c.Decides ρ b) ∧
      branch g.whenTrue (block (Function.settle units) (.mk yesPosition yes)) w s2 =
        some (afterYes, s3) ∧ s2.Steady s3 ∧ s3.findings.size = s2.findings.size ∧
      otherwise g.whenFalse (optionalBlock (Function.settle units) no) w s3 = some (afterNo, s4) ∧
        s4.findings.size = s3.findings.size := by
  have hinner : ∀ st ∈ yes, FollowsStatement units vars w st := fun st hst =>
    follows_statement (hplain.first st hst)
  rw [statement] at hrun
  rw [conditional_eq] at hrun
  obtain ⟨t, s1, hcheck, hrun⟩ := bind_eq_some.1 hrun
  obtain ⟨g, s2, hguard, hrun⟩ := bind_eq_some.1 hrun
  obtain ⟨afterYes, s3, hbranch, hrun⟩ := bind_eq_some.1 hrun
  obtain ⟨afterNo, s4, hother, hrun⟩ := bind_eq_some.1 hrun
  obtain ⟨h1, -⟩ := gives_check_test hplain.condition hs t s1 hcheck
  have hs1 := hs.steady h1
  obtain ⟨h2, hg⟩ := proves_guard hplain.condition hs1 g s2 hguard
  have hs2 := hs1.steady h2
  have h3 := ensures_branch hs2 hg.typedTrue (fun s3 hs3 => follows_block hinner hs3 yesPosition)
    afterYes s3 hbranch
  have hs3 := hs2.steady h3.steady
  have hg3 := hg.of_agrees h2.faithful.wellFormed h3.steady.agrees
  have h4 := ensures_otherwise hs3 hg3.typedFalse (fun body hbody s4 hs4 => follows_optionalBlock
    (fun p ss hno st hst => follows_statement (hplain.second p ss hno st hst)) hbody hs4)
    skips_of_runsOtherwise afterNo s4 hother
  have htyped := h3.typed.of_agrees h3.steady.faithful.wellFormed h4.steady.agrees
  obtain ⟨h5, -⟩ := ensures_merge (hs3.steady h4.steady) htyped h4.typed exits s' hrun
  have hsize2 := (h1.trans h2).findings
  have hsize3 := h3.steady.findings
  have hsize4 := h4.steady.findings
  have hsize5 := h5.findings
  exact ⟨t, g, s1, s2, afterYes, s3, afterNo, s4, hcheck, hguard, h1.trans h2,
    hg.imp fun ρ b hρ => ⟨(hs.models_iff h1).mpr hρ.1, hρ.2⟩, hbranch, h3.steady, by omega, hother,
    by omega⟩

/-- **The walk comes to every place that an execution reaches**, with types to which the values of
the variables belong. -/
theorem reached {p : Place} (hq : w.quiet = false)
    (hplain : ∀ st ∈ ss, st.IsPlain vars) (h : Stmt.Reaches ρ ss p ρ') :
    Reached units vars w ss p ρ ρ' := by
  induction h with
  | here =>
    intro s s' exits hs hρ _ _
    refine ⟨s, ?_, hs, hρ⟩
    rw [upTo]
    · rfl
    · simp
    · simp
    · simp
    · simp
  | later hfirst hp ih =>
    intro s s' exits hs hρ hrun hsize
    obtain ⟨first, rest, s1, hst, h1, hrest, hsize1, hsize2⟩ :=
      statements_cons_eq_some hplain hs hrun hsize
    have hρ1 := (h1.models hq hsize1 _ _ hρ hfirst).2
    rw [upTo]
    exact leadsTo_bind hst (ih (fun k hk => hplain k (List.mem_cons_of_mem _ hk)) s1 s' rest
      (hs.moved h1.moved) hρ1 hrest hsize2)
  | inside hp ih =>
    intro s s' exits hs hρ hrun hsize
    obtain ⟨first, rest, s1, hst, h1, hrest, hsize1, hsize2⟩ :=
      statements_cons_eq_some hplain hs hrun hsize
    rw [statement, block] at hst
    obtain ⟨s2, hbody, hfindings⟩ := inBlock_eq_some hst
    have hinner := (hplain _ List.mem_cons_self).inner
    rw [upTo]
    refine leadsTo_bind (opening_eq w s) (ih hinner _ s2 _ hs.entered hρ.enter hbody ?_)
    rw [← hfindings]
    exact hsize1
  | yes hc hp ih =>
    intro s s' exits hs hρ hrun hsize
    obtain ⟨first, rest, s1, hst, -, -, hsize1, -⟩ := statements_cons_eq_some hplain hs hrun hsize
    have hfirst := hplain _ List.mem_cons_self
    obtain ⟨t, g, s1, s2, afterYes, s3, afterNo, s4, hcheck, hguard, h2, hg, hyes,
      h3, hsize3, -, -⟩ :=
      conditional_eq_some hs hfirst hst hsize1
    rw [upTo]
    refine leadsTo_bind hcheck (leadsTo_bind hguard ?_)
    exact reached_branch (ih hfirst.first) (hs.steady h2) ((hs.models_iff h2).mpr hρ) hg.typedTrue
      (hg.holds _ ⟨hρ, hc⟩) hyes hsize3
  | @no _ _ _ _ _ yes _ _ _ hc hp ih =>
    intro s s' exits hs hρ hrun hsize
    obtain ⟨first, rest, s1, hst, -, -, hsize1, -⟩ := statements_cons_eq_some hplain hs hrun hsize
    have hfirst := hplain _ List.mem_cons_self
    obtain ⟨yesPosition, yes⟩ := yes
    obtain ⟨t, g, s1, s2, afterYes, s3, afterNo, s4, hcheck, hguard, h2, hg, hyes,
      h3, -, hno, hsize4⟩ :=
      conditional_eq_some hs hfirst hst hsize1
    rw [optionalBlock] at hno
    have h13 := h2.trans h3
    have hg3 := hg.of_agrees h2.faithful.wellFormed h3.agrees
    rw [upTo]
    refine leadsTo_bind hcheck (leadsTo_bind hguard (leadsTo_bind hyes ?_))
    exact reached_branch (ih (hfirst.second _ _ rfl)) (hs.steady h13) ((hs.models_iff h13).mpr hρ)
      hg3.typedFalse (hg3.fails _ ⟨hρ, hc⟩) hno hsize4

end Walk

/-! ## Function bodies -/

/-- The session is at the start of a function body: the innermost frame declares the variables with
declarable types, and nothing is narrowed in it. -/
structure Session.Starts (vars : List String) (w : Walker) (s : Session) : Prop where
  faithful : s.table.Faithful
  settled : s.SettledFor vars
  result : ∀ f, w.function = some f → ∀ t, f.result = some t → s.table.Has t
  declared : ∃ f rest, s.scopes.framesOf w.environment = f :: rest ∧ f.narrowings = [] ∧
    ∀ x ∈ vars, ∃ t, f.values.lookup x = some ⟨t, false⟩ ∧ s.table.Declarable t

/-- The innermost frame is looked at first. -/
theorem Scopes.findSome?_visible {σ : Scopes} {e : Nat}
    {read : Frame → Option α} (hf : σ.framesOf e = f :: rest) (h : read f = some a) :
    (σ.visible e).findSome? read = some a := by
  unfold visible chain
  rw [chainAt, List.flatMap_cons, hf, List.cons_append, List.findSome?_cons, h]

namespace Session.Starts

variable {vars : List String} {w : Walker} {s : Session}

theorem declares (h : s.Starts vars w) {x : String} (hx : x ∈ vars) :
    ∃ t, s.scopes.value? w.environment x = some ⟨t, false⟩ ∧
      s.scopes.lookup w.environment x = some t ∧ s.table.Declarable t := by
  obtain ⟨f, rest, hf, hnarrowings, hvalues⟩ := h.declared
  obtain ⟨t, ht, hd⟩ := hvalues x hx
  refine ⟨t, Scopes.findSome?_visible hf ht, Scopes.findSome?_visible hf ?_, hd⟩
  simp [Frame.lookup, hnarrowings, ht]

theorem ready (h : s.Starts vars w) : s.Ready vars w := by
  obtain ⟨f, rest, hf, hnarrowings, -⟩ := h.declared
  have hinner : (s.scopes.innermost w.environment).narrowings = [] := by
    simp [Scopes.innermost, hf, hnarrowings]
  refine ⟨h.faithful, h.settled, ⟨by simp [hf], fun x hx => ?_, fun x hx => ?_, ?_, ?_⟩, h.result⟩
  · obtain ⟨t, -, ht, hd⟩ := h.declares hx
    exact ⟨t, ht, hd⟩
  · obtain ⟨t, ht, -, hd⟩ := h.declares hx
    exact ⟨t, ht, hd⟩
  · rw [hinner]
    exact fun p hp => absurd hp List.not_mem_nil
  · rw [hinner]
    exact List.nodup_nil

end Session.Starts

namespace Body

open Check

variable {w : Walker} {s s' : Session}

/-- The frame after some parameters without initializers are declared in it. -/
def declaring (params : List (ParamPart × Parameter)) (f : Frame) : Frame :=
  { f with values := f.values ++ params.map fun p => (p.1.name, ⟨p.2.type, false⟩) }

theorem declareParams_eq (hparams : ∀ p ∈ params, p.1.initial = none ∧ p.2.optional = false)
    (hdistinct : ((f.values.map Prod.fst) ++ params.map fun p => p.1.name).Nodup)
    (hf : s.scopes.framesOf w.environment = f :: rest)
    (hrun : declareParams params w s = some ((), s')) :
    s' = { s with scopes := s'.scopes } ∧
      s'.scopes.framesOf w.environment = declaring params f :: rest := by
  induction params generalizing s f with
  | nil =>
    obtain ⟨-, rfl⟩ := Prod.mk.inj (Option.some.inj hrun)
    exact ⟨rfl, by simpa [declaring] using hf⟩
  | cons p params ih =>
    obtain ⟨part, p⟩ := p
    obtain ⟨hinitial, hoptional⟩ := hparams _ List.mem_cons_self
    dsimp only at hinitial hoptional
    have hnew : f.declares part.name = false := by
      unfold Frame.declares
      rw [Option.isSome_eq_false_iff, Option.isNone_iff_eq_none, List.lookup_eq_none_iff]
      intro q hq
      have hne := (List.nodup_append.mp hdistinct).2.2 q.1 (List.mem_map.mpr ⟨q, hq, rfl⟩) part.name
        (by simp)
      simpa using Ne.symm hne
    let scopes := s.scopes.modifyInnermost w.environment (·.declare part.name ⟨p.type, false⟩)
    have hdefined : define part.name p.type false w s = some (true, { s with scopes }) := by
      have hscopes : s.scopes.define w.environment part.name ⟨p.type, false⟩ = (true, scopes) := by
        rw [Scopes.define, if_neg]
        simp [Scopes.innermost, hf, hnew]
      change some _ = some _
      dsimp only
      rw [hscopes]
    rw [declareParams, hinitial] at hrun
    dsimp only at hrun
    rw [hoptional, if_neg (by simp)] at hrun
    obtain ⟨t, s1, ht, hrun⟩ := bind_eq_some.1 hrun
    obtain ⟨rfl, rfl⟩ := Prod.mk.inj (Option.some.inj ht)
    obtain ⟨b, s1, hb, hrun⟩ := bind_eq_some.1 hrun
    obtain ⟨rfl, rfl⟩ := Prod.mk.inj (Option.some.inj (hdefined.symm.trans hb))
    rw [if_neg (by simp)] at hrun
    have hframes : scopes.framesOf w.environment = f.declare part.name ⟨p.type, false⟩ :: rest := by
      simp only [scopes]
      rw [Scopes.modifyInnermost, Scopes.framesOf_modifyFrames _ _ rfl, hf]
    obtain ⟨hsame, hlast⟩ := ih (s := { s with scopes })
      (fun q hq => hparams q (List.mem_cons_of_mem _ hq))
      (by simpa [Frame.declare] using hdistinct) hframes hrun
    exact ⟨hsame, by simpa [declaring, Frame.declare] using hlast⟩

/-- **The frame of a function body**: the session in which the parameters have just been declared in
a new frame is at the start of the body. -/
theorem starts_declareParams
    (hT : s.table.Faithful) (hsettled : s.SettledFor (params.map fun p => p.1.name))
    (hresult : ∀ f, w.function = some f → ∀ t, f.result = some t → s.table.Has t)
    (hparams : ∀ p ∈ params, p.1.initial = none ∧ p.2.optional = false ∧
      s.table.Declarable p.2.type)
    (hdistinct : (params.map fun p => p.1.name).Nodup)
    (hf : s.scopes.framesOf w.environment = {} :: rest)
    (hrun : declareParams params w s = some ((), s')) :
    s'.Starts (params.map fun p => p.1.name) w := by
  obtain ⟨hsame, hframes⟩ := declareParams_eq
    (fun p hp => ⟨(hparams p hp).1, (hparams p hp).2.1⟩) (by simpa using hdistinct) hf hrun
  rw [hsame]
  refine ⟨hT, hsettled, hresult, _, rest, hframes, rfl, fun x hx => ?_⟩
  obtain ⟨p, hp, rfl⟩ := List.mem_map.mp hx
  refine ⟨p.2.type, ?_, (hparams p hp).2.2⟩
  refine Bindings.lookup_of_mem ?_ (List.mem_append_right _ (List.mem_map.mpr ⟨p, hp, rfl⟩))
  simpa [declaring, Function.comp_def] using hdistinct

end Body

namespace Walk

open Check

variable {vars : List String} {w : Walker} {s s' : Session} {units : Array Declaration}

/-- **Flow typing is sound on plain bodies.** If the walk over a plain body finds nothing, then for
all values of the declared types: wherever an execution comes, the values of the variables belong to
the types that they have when the walk comes there; and no execution reaches the end of a body of
which the walk says that it always leaves the function. -/
theorem statements_sound {ss : List Stmt} {exits : Bool} (hs : s.Starts vars w)
    (hq : w.quiet = false) (hplain : ∀ st ∈ ss, st.IsPlain vars)
    (hrun : statements (Function.settle units) ss w s = some (exits, s'))
    (hfindings : s'.findings = s.findings) {ρ : Store}
    (hρ : ∀ x ∈ vars, ∀ d, s.scopes.value? w.environment x = some d →
      s.table.Inhabits (ρ x) d.type) :
    (∀ p ρ', Stmt.Reaches ρ ss p ρ' →
      ∃ s1, upTo (Function.settle units) p ss w s = some ((), s1) ∧
        ∀ x ∈ vars, ∃ t, s1.scopes.lookup w.environment x = some t ∧ s1.table.Inhabits (ρ' x) t) ∧
    (exits = true → ∀ ρ', ¬Stmt.RunsAll ρ ss (some ρ')) := by
  have hready := hs.ready
  have hsize : s'.findings.size = s.findings.size := congrArg Array.size hfindings
  have hmodels : s.Models vars w ρ := by
    intro x hx t ht
    obtain ⟨u, hvalue, hlookup, -⟩ := hs.declares hx
    obtain rfl := Option.some.inj (ht.symm.trans hlookup)
    exact hρ x hx _ hvalue
  constructor
  · intro p ρ' hreach
    obtain ⟨s1, hlead, hready1, hmodels1⟩ :=
      reached hq hplain hreach s s' exits hready hmodels hrun hsize
    refine ⟨s1, hlead, fun x hx => ?_⟩
    obtain ⟨t, ht, -⟩ := hready1.scopes.types x hx
    exact ⟨t, ht, hmodels1 x hx t ht⟩
  · rintro rfl ρ' hall
    have hfollows := follows_all (fun st hst => follows_statement (hplain st hst)) hready
      true s' hrun
    exact absurd (hfollows.models hq hsize ρ ρ' hmodels hall).1 (by simp)

/-- A walker in a function without a declared result. -/
def inFunction : Walker := { function := some ⟨none, false⟩ }

/-- Two parameters for texts. -/
def textParams : List (ParamPart × Parameter) :=
  ["x", "y"].map fun x =>
    ({ position := {}, name := x, written := none, optional := false, initial := none },
      { name := x, type := .string })

/-- The start of a body with two texts for parameters. -/
def twoTexts : Session :=
  { scopes := ((({} : Scopes).add none).2.define 0 "x" ⟨.string, false⟩).2.define 0 "y"
      ⟨.string, false⟩ |>.2 }

/-- A body that copies one parameter to the other unless it leaves the function: `if (!x || x ===
"a") { y = x } else { return }`, then `y = "b"`. -/
def copyOrLeave : List Stmt :=
  [.conditional {}
    (.binary {} (.unary {} .not (.identifier {} "x")) .or
      (.binary {} (.identifier {} "x") .strictEqual (.string {} "a")))
    (.mk {} [.expression {} (.assign {} (.identifier {} "y") (.identifier {} "x"))])
    (some (.mk {} [.exit {} none])),
  .expression {} (.assign {} (.identifier {} "y") (.string {} "b"))]

theorem starts_twoTexts : twoTexts.Starts ["x", "y"] inFunction := by
  have hrun : Body.declareParams textParams inFunction { scopes := (({} : Scopes).add none).2 } =
      some ((), twoTexts) := rfl
  refine Body.starts_declareParams Table.faithful_empty (fun p hp => absurd hp List.not_mem_nil) ?_
    (fun p hp => ?_) (by decide) rfl hrun
  · intro f hf t ht
    obtain rfl := Option.some.inj hf
    cases ht
  · obtain ⟨x, -, rfl⟩ := List.mem_map.mp hp
    refine ⟨rfl, rfl, Table.simple_of_isSimple (Table.has_prim _ _) rfl, fun m hm => ?_⟩
    rw [List.mem_singleton.mp hm]
    rfl

theorem isPlain_copyOrLeave : ∀ st ∈ copyOrLeave, st.IsPlain ["x", "y"] := by
  intro st hst
  rcases List.mem_pair.mp hst with rfl | rfl
  · refine .conditional (.or (.not (.name (by simp))) (.value (by simp) (.inl rfl) .string)) ?_ ?_
    · intro st hst
      obtain rfl := List.mem_singleton.mp hst
      exact .assign (by simp) (.name (by simp))
    · rintro _ _ heq st hst
      cases heq
      obtain rfl := List.mem_singleton.mp hst
      exact .exit
  · exact .assign (by simp) (.constant .string)

/-- After the conditional of that body the second parameter has the value of the first, and both
have values of their types. -/
theorem statements_sound_copyOrLeave : ∃ s1,
    upTo (Function.settle #[]) (.later .here) copyOrLeave inFunction twoTexts = some ((), s1) ∧
      ∀ x ∈ ["x", "y"], ∃ t, s1.scopes.lookup 0 x = some t ∧ s1.table.Inhabits (.string "a") t := by
  let ρ : Store := fun x => if x = "x" then .string "a" else .string "c"
  have hresult : ((statements (Function.settle #[]) copyOrLeave inFunction twoTexts).map
      fun r => r.2.findings.size) = some 0 := by
    decide +kernel
  obtain ⟨⟨exits, s'⟩, hrun, hsize⟩ := Option.map_eq_some_iff.mp hresult
  have hreach : Stmt.Reaches ρ copyOrLeave (.later .here) (Function.update ρ "y" (ρ "x")) := by
    refine .later (.yes ?_ (.cons (.assign .name) .nil)) .here
    exact .orSecond (.not .name) (.value .string)
  have hfindings : s'.findings = twoTexts.findings := Array.eq_empty_of_size_eq_zero hsize
  have hvalues : ∀ x ∈ ["x", "y"], ∀ d, twoTexts.scopes.value? inFunction.environment x = some d →
      twoTexts.table.Inhabits (ρ x) d.type := by
    intro x hx d hd
    have hdeclared : twoTexts.scopes.value? inFunction.environment x = some ⟨.string, false⟩ := by
      rcases List.mem_pair.mp hx with rfl | rfl <;> decide +kernel
    obtain rfl := Option.some.inj (hdeclared.symm.trans hd)
    refine ⟨.string, List.mem_singleton.mpr rfl, ?_⟩
    rcases List.mem_pair.mp hx with rfl | rfl <;> trivial
  obtain ⟨s1, hlead, htypes⟩ := (statements_sound starts_twoTexts rfl isPlain_copyOrLeave hrun
    hfindings hvalues).1 _ _ hreach
  refine ⟨s1, hlead, fun x hx => ?_⟩
  obtain ⟨t, ht, hin⟩ := htypes x hx
  refine ⟨t, ht, ?_⟩
  rcases List.mem_pair.mp hx with rfl | rfl
  · simpa [ρ] using hin
  · simpa [ρ] using hin

end Walk

end ShapeCheck
