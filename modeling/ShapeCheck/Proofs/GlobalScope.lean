import ShapeCheck.Check.Pass
import ShapeCheck.Proofs.Walks

/-!
# The global environment

Bodies are checked in environments of their own inside the global one. What they change of the
global environment is at most the declared types of functions whose results are inferred, and a
declaration of a type or a function only adds a value to it. The initializer of a top-level
variable, though, is checked in the global environment itself, and what is assigned there is
narrowed there for all bodies.

* `Pass.lookup_start` says that a body starts with the declared types of all other names.
-/

namespace ShapeCheck

open Interning

variable {α β : Type} {work : Check α} {C : Change} {spec : BodySpec}
  {v : Variable} {written : Option (Check Ty)} {value : Option ExprPart} {d : ClassDecl}


open Check

/-! ## Work that may infer result types -/

namespace Scopes

variable {e : Nat} {σ σ' : Scopes}

theorem Kept.modifyValues {i : Nat} {change : List Frame → List Frame}
    (h : ∀ fs, Frames.Like False fs (change fs)) : σ.Kept False C e (σ.modifyFrames i change) :=
  ⟨.modifyFrames (fun _ _ => Frame.Like.changed) (fun _ => .refl) h, False.elim⟩

theorem Kept.define (i : Nat) (name : String) (v : ValueDecl) :
    σ.Kept False C e (σ.define i name v).2 := by
  unfold Scopes.define
  split
  · exact .refl _
  · simp only [Scopes.modifyInnermost]
    refine .modifyValues fun fs => ?_
    cases fs with
    | nil => exact .nil
    | cons f rest => exact .cons ⟨rfl, False.elim⟩ (Frames.Like.refl rest)

theorem like_retypeFirst (name : String) (t : Ty) (fs : List Frame) :
    Frames.Like False fs (retypeFirst name t fs) := by
  induction fs with
  | nil => exact .nil
  | cons f rest ih =>
    unfold retypeFirst
    split
    · exact .cons ⟨rfl, False.elim⟩ (Frames.Like.refl rest)
    · exact .cons (.refl f) ih

theorem Kept.redefine (i : Nat) (name : String) (t : Ty) :
    σ.Kept False C e (σ.redefine i name t).2 := by
  unfold Scopes.redefine
  split
  · exact .modifyValues (like_retypeFirst name t)
  · exact .refl _

theorem Kept.unit {D : Change} {outer : Option Nat}
    (h : (σ.add outer).2.Kept False D (σ.add outer).1 σ') : σ.Kept False C e σ' :=
  ⟨h.toDiffer.unit fun _ _ => Frame.Like.changed, False.elim⟩

end Scopes

namespace Check

variable {D : Change}

theorem leaves_update {change : Session → Session}
    (h : ∀ s, (change s).scopes = s.scopes ∧ (change s).table = s.table) :
    Leaves False C (update change) := by
  intro w s a s' _ ha
  cases ha
  exact ⟨by rw [(h s).1]; exact .refl _, by rw [(h s).2], False.elim, False.elim⟩

theorem leaves_updateGet {change : Session → α × Session}
    (h : ∀ s, (change s).2.scopes = s.scopes ∧ (change s).2.table = s.table) :
    Leaves False C (updateGet change) := by
  intro w s a s' _ ha
  have hs' : s' = (change s).2 := (congrArg Prod.snd (Option.some.inj ha)).symm
  exact ⟨by rw [hs', (h s).1]; exact .refl _, by rw [hs', (h s).2], False.elim, False.elim⟩

@[grind ←]
theorem leaves_defineIn (e : Nat) (name : String) (v : ValueDecl) :
    Leaves False C (defineIn e name v) := by
  intro w s a s' _ ha
  cases ha
  exact ⟨.define e name v, .refl _, False.elim, False.elim⟩

@[grind ←]
theorem leaves_inUnit {unit : Nat} (h : Leaves False .any work) :
    Leaves False C (inUnit unit work) := by
  intro w s a s' _ ha
  obtain ⟨e, t, ht, ha⟩ := bind_eq_some.1 ha
  cases ht
  have hk : Session.Kept .. := h False.elim ha
  exact ⟨.unit hk.scopes, hk.table, False.elim, False.elim⟩

end Check

/-! ## Statements -/

/-- Effects that statements may have, which note the types that a function returns. -/
class Effect.Returning (E : Effect) : Prop where
  returned : ∀ (C : Change) (t : Ty), Leaves E C (Walk.returned t)
  collects : ∀ {C : Change} {statements : Check Bool}, Leaves E C statements →
    Leaves E C (Body.collectReturns statements)

instance : Effect.Returning (Effect.kept False) where
  returned _ _ := leaves_update fun _ => ⟨rfl, rfl⟩
  collects h := leaves_bind (leaves_updateGet fun _ => ⟨rfl, rfl⟩) fun _ => leaves_bind h fun _ =>
    leaves_bind (leaves_updateGet fun _ => ⟨rfl, rfl⟩) fun _ => leaves_pure _

variable {E : Effect}

namespace Body

@[grind ←]
theorem leaves_mayFallThrough (resolved : Ty) : Leaves E C (mayFallThrough resolved) := by
  unfold mayFallThrough
  grind

theorem leaves_ofStatements {statements : Check Bool} (h : Leaves E C (collectReturns statements)) :
    Leaves E C (ofStatements spec statements) := by
  unfold ofStatements
  refine leaves_bind h fun _ => ?_
  split
  grind

end Body

namespace Walk

variable {settle : String → Check Unit}

@[grind ←]
theorem leaves_atEnd (branch : Bindings) (name : String) : Leaves E C (atEnd branch name) := by
  unfold atEnd
  grind

@[grind ←]
theorem leaves_join (a b : Bindings) : Leaves E C (join a b) := by
  unfold join
  refine leaves_bind (leaves_mapM fun name _ => ?_) fun _ => leaves_pure _
  refine leaves_bind (leaves_atEnd ..) fun s => leaves_bind (leaves_atEnd ..) fun t => ?_
  split <;> grind

@[grind ←]
theorem leaves_applyAny (b : Bindings) : Leaves E .any (Check.apply b) :=
  leaves_apply fun _ _ => rfl

@[grind ←]
theorem leaves_branch {start : Bindings} {body : Check Bool} (h : Leaves E .any body) :
    Leaves E C (branch start body) :=
  leaves_under (leaves_bind h fun _ => leaves_bind leaves_narrowed fun _ => leaves_pure _)

@[grind ←]
theorem leaves_conditional {condition : Check Ty} {guard : Check Guard} {yes : Check Bool}
    {no : Option (Check Bool)} (hcondition : Leaves E .any condition)
    (hguard : Leaves E .any guard) (hyes : Leaves E .any yes)
    (hno : ∀ body, no = some body → Leaves E .any body) :
    Leaves E .any (conditional condition guard yes no) := by
  unfold conditional
  refine leaves_bind hcondition fun _ => leaves_bind hguard fun g => ?_
  refine leaves_bind (leaves_branch hyes) fun afterYes => ?_
  cases no with
  | none =>
    refine leaves_bind (leaves_pure _) fun afterNo => ?_
    dsimp only
    split <;> grind
  | some body =>
    refine leaves_bind (leaves_branch (hno body rfl)) fun afterNo => ?_
    dsimp only
    split <;> grind

@[grind ←]
theorem leaves_inBlock {statements : Check Bool} (h : Leaves E .any statements) :
    Leaves E .any (inBlock statements) := by
  unfold inBlock
  refine leaves_bind (leaves_inFrame (leaves_bind h fun _ => ?_)) fun _ => ?_ <;> grind

@[grind ←]
theorem leaves_variableType (hwritten : LeavesFrames E written)
    (hvalue : ∀ p, value = some p → p.Leaves E C) : Leaves E C (variableType v written value) := by
  unfold variableType
  unfold ExprPart.Leaves at hvalue
  refine leaves_bind (Meaning.leaves_optional hwritten) fun declared => ?_
  split <;> grind

@[grind ←]
theorem leaves_declareVariable (hC : C.declares = true) (hwritten : LeavesFrames E written)
    (hvalue : ∀ p, value = some p → p.Leaves E C) :
    Leaves E C (declareVariable v written value) := by
  unfold declareVariable
  grind

@[grind ←]
theorem leaves_returned [E.Returning] (t : Ty) : Leaves E C (returned t) :=
  Effect.Returning.returned C t

@[grind ←]
theorem leaves_leave [E.Returning] {position : Position}
    (hvalue : ∀ p, value = some p → p.Leaves E C) : Leaves E C (leave position value) := by
  unfold leave
  unfold ExprPart.Leaves at hvalue
  refine leaves_bind leaves_walker fun w => ?_
  split <;> grind

section Recursion

variable (hsettle : ∀ C name, Leaves E C (settle name))
include hsettle

/-- A variable is declared and what its initializer assigns is narrowed. -/
theorem leaves_varStatement (hC : C.declares = true)
    (h : ∀ e, v.value = some e → ∀ n ∈ e.leaks, C.fixes n = false) :
    Leaves E C (varStatement settle v) := by
  have hvalue : ∀ p, initialPart settle v.value = some p → p.Leaves E C := by
    intro p hp
    cases hv : v.value with
    | none => simp [hv, initialPart] at hp
    | some e =>
      rw [hv, initialPart] at hp
      cases hp
      exact leaves_check hsettle C e (h e hv)
  exact leaves_declareVariable hC (leaves_optionalType hsettle _) hvalue

section Returning

variable [E.Returning]

-- Blocks need it only through the statements in them.
set_option linter.unusedSectionVars false in
mutual

theorem leaves_statement : ∀ s : Stmt, Leaves E .any (statement settle s)
  | .variable v => by
    have := leaves_varStatement hsettle (C := .any) (v := v) rfl fun _ _ _ _ => rfl
    unfold statement
    grind
  | .expression _ e => by
    have := leaves_check hsettle .any e fun _ _ => rfl
    unfold statement
    grind
  | .block b => by
    have := leaves_block b
    unfold statement
    exact this
  | .conditional _ condition yes no => by
    have := leaves_check hsettle .any condition fun _ _ => rfl
    have := leaves_guard hsettle .any condition fun _ _ => rfl
    have := leaves_block yes
    have := leaves_optionalBlock no
    unfold statement
    grind
  | .exit _ value => by
    have := leaves_initialPart hsettle value
    unfold statement
    grind
  | .raise _ value => by
    have := leaves_check hsettle .any value fun _ _ => rfl
    unfold statement
    grind

theorem leaves_block : ∀ b : Block, Leaves E .any (block settle b)
  | .mk _ ss => by
    have := leaves_statements ss
    unfold block
    grind

theorem leaves_optionalBlock :
    ∀ (b : Option Block) body, optionalBlock settle b = some body → Leaves E .any body
  | none => fun _ h => nomatch h
  | some b => fun _ h => Option.some.inj h ▸ leaves_block b

theorem leaves_statements : ∀ ss : List Stmt, Leaves E .any (statements settle ss)
  | [] => leaves_pure false
  | s :: ss => by
    have := leaves_statement s
    have := leaves_statements ss
    unfold statements
    grind

end

theorem leaves_bodyStatements (body : Option Block) :
    Leaves E .any ((body.map fun b => statements settle b.statements).getD (return false)) := by
  cases body with
  | none => exact leaves_pure false
  | some b => exact leaves_statements hsettle b.statements

end Returning

/-- The body of a function declaration is checked in a frame of its own. -/
theorem leaves_checkCollecting {statements : Check Bool} {d : FunctionDecl}
    (hparams : spec.params = (signature settle d.signature).params)
    (hbody : spec.body = .block statements)
    (hcollects : Leaves E .any (Body.collectReturns statements)) :
    Leaves E C (Body.check spec) := by
  refine Body.leaves_check (hparams ▸ (leaves_signature hsettle d.signature).params) ?_
  rw [hbody]
  exact Body.leaves_ofStatements hcollects

theorem leaves_checkBody [E.Returning] {d : FunctionDecl}
    (hparams : spec.params = (signature settle d.signature).params)
    (hbody : spec.body = .block ((d.body.map fun b => statements settle b.statements).getD
      (return false))) : Leaves E C (Body.check spec) :=
  leaves_checkCollecting hsettle hparams hbody
    (Effect.Returning.collects (leaves_bodyStatements hsettle d.body))

end Recursion

end Walk

/-! ## Declarations -/

namespace Function

variable {settle : String → Check Unit} {units : Array Declaration}

@[grind ←]
theorem leaves_reportIn (unit : Nat) (position : Position) (problem : Problem) :
    Leaves False C (reportIn unit position problem) := by
  intro w s a s' _ ha
  change report position problem { w with unit, quiet := false } s = some (a, s') at ha
  have hk : Session.Kept False C _ s s' :=
    leaves_report (E := Effect.kept False) position problem False.elim ha
  exact ⟨hk.scopes, hk.table, False.elim, False.elim⟩

section Declaring

variable (hsettle : ∀ C name, Leaves False C (settle name))
include hsettle

@[grind ←]
theorem leaves_overloadsOf (ds : List (Nat × FunctionDecl)) (hasBody : Bool) :
    Leaves False C (overloadsOf settle ds hasBody) := by
  induction ds generalizing hasBody with
  | nil => exact leaves_pure []
  | cons d ds ih =>
    obtain ⟨unit, d⟩ := d
    have hs := Walk.leaves_signature hsettle d.signature
    unfold overloadsOf
    grind

@[grind ←]
theorem leaves_implementation (unit : Nat) (d : FunctionDecl) :
    Leaves False C (implementation settle unit d) := by
  have hs := Walk.leaves_signature hsettle d.signature
  unfold implementation
  refine leaves_bind (leaves_inUnit (Meaning.leaves_signature hs)) fun fn => ?_
  refine leaves_bind leaves_table fun T => ?_
  split
  · exact leaves_bind (leaves_update fun _ => ⟨rfl, rfl⟩) fun _ =>
      leaves_interning (keeps_functionOf _)
  · exact leaves_pure fn

omit hsettle in
theorem leaves_symbolType (overloads : List OverloadSignature) (implementation : Option Ty) :
    Leaves False C (symbolType overloads implementation) := by
  unfold symbolType
  grind

@[grind ←]
theorem leaves_declare (g : Group) : Leaves False C (declare settle g) := by
  unfold declare
  refine leaves_bind (leaves_overloadsOf hsettle ..) fun overloads => ?_
  dsimp only
  split
  · refine leaves_bind (leaves_pure _) fun _ => leaves_bind (leaves_symbolType ..) fun symbol => ?_
    split
    · exact leaves_bind (leaves_reportIn ..) fun _ => by grind
    · exact leaves_bind (leaves_update fun _ => ⟨rfl, rfl⟩) fun _ => by grind
    · grind
  · refine leaves_bind (leaves_implementation hsettle ..) fun t => ?_
    refine leaves_bind (leaves_update fun _ => ⟨rfl, rfl⟩) fun _ => ?_
    refine leaves_bind (leaves_pure _) fun _ => ?_
    refine leaves_bind (leaves_symbolType ..) fun symbol => ?_
    split
    · exact leaves_bind (leaves_reportIn ..) fun _ => by grind
    · exact leaves_bind (leaves_update fun _ => ⟨rfl, rfl⟩) fun _ => by grind
    · grind

theorem leaves_declareAll (units : List (Nat × Declaration)) :
    Leaves False C (declareAll settle units) :=
  leaves_forM fun g _ => leaves_declare hsettle g

end Declaring

@[grind ←]
theorem leaves_setProgress (unit : Nat) (progress : Progress) :
    Leaves False C (setProgress unit progress) := leaves_update fun _ => ⟨rfl, rfl⟩

@[grind ←]
theorem leaves_keepInferred (unit : Nat) (name : String) (t : Ty) :
    Leaves False C (keepInferred unit name t) := by
  intro w s a s' _ ha
  cases ha
  refine ⟨?_, .refl _, False.elim, False.elim⟩
  dsimp only
  split
  · exact .refl _
  · exact .redefine globals name t

theorem leaves_infer (hsettle : ∀ C name, Leaves False C (settle name)) (unit : Nat)
    (d : FunctionDecl) : Leaves False C (infer settle unit d) := by
  have hbody (c : Callable) : Leaves False .any (Body.check (Walk.bodyOf settle d c false)) :=
    Walk.leaves_checkBody hsettle (d := d) rfl rfl
  unfold infer
  refine leaves_bind (leaves_setProgress ..) fun _ => leaves_bind leaves_session fun s => ?_
  refine leaves_bind leaves_table fun T => ?_
  split <;> grind

theorem leaves_inferUnit (hsettle : ∀ C name, Leaves False C (settle name)) (unit : Nat) :
    Leaves False C (inferUnit units settle unit) := by
  have hinfer := leaves_infer (C := C) hsettle
  unfold inferUnit
  grind

/-- Inferences nest, so this is by induction on how deep they may. -/
theorem leaves_settleAt (depth : Nat) (C : Change) (name : String) :
    Leaves False C (settleAt units depth name) := by
  induction depth generalizing C name with
  | zero => exact leaves_pure ()
  | succ depth ih =>
    have hinfer (unit : Nat) : Leaves False C (inferUnit units (settleAt units depth) unit) :=
      leaves_inferUnit ih unit
    unfold settleAt
    grind

theorem leaves_settle (C : Change) (name : String) : Leaves False C (Function.settle units name) :=
  leaves_settleAt _ C name

@[grind ←]
theorem leaves_checkOverload (implementation : Ty) (o : OverloadSignature) :
    Leaves False C (checkOverload implementation o) := by
  unfold checkOverload
  refine leaves_bind (leaves_interning (keeps_erase _)) fun erased => ?_
  refine leaves_bind (leaves_interning (keeps_erase _)) fun target => ?_
  refine leaves_bind leaves_table fun T => ?_
  split <;> grind

@[grind ←]
theorem leaves_checkOverloads (unit : Nat) : Leaves False C (checkOverloads unit) := by
  unfold checkOverloads
  grind

theorem leaves_inferAll : Leaves False C (inferAll units) := by
  have hinfer (unit : Nat) : Leaves False C (inferUnit units (settle units) unit) :=
    leaves_inferUnit leaves_settle unit
  unfold inferAll
  grind

theorem leaves_checkBody (unit : Nat) (d : FunctionDecl) :
    Leaves False C (checkBody units unit d) := by
  have hbody (c : Callable) (declared : Bool) :
      Leaves False C (Body.check (Walk.bodyOf (Function.settle units) d c declared)) :=
    Walk.leaves_checkBody leaves_settle (d := d) rfl rfl
  unfold checkBody
  grind

end Function

namespace Enum

theorem leaves_number (known : Known) (next : Option Binary64) (ms : List EnumMember) :
    Leaves False C (number known next ms) := by
  induction ms generalizing known next with
  | nil => exact leaves_pure _
  | cons m ms ih =>
    unfold number
    grind

theorem leaves_register (d : EnumDecl) : Leaves False C (register d) := by
  unfold register
  refine leaves_bind leaves_session fun s => leaves_bind (leaves_number ..) fun values => ?_
  refine leaves_bind (leaves_mapM fun v _ => by grind) fun members => ?_
  refine leaves_bind (leaves_interning (keeps_enumOf _ _ _)) fun t => ?_
  refine leaves_bind (leaves_update fun _ => ⟨rfl, rfl⟩) fun _ => ?_
  grind

end Enum

@[grind ←]
theorem leaves_defineAlias (position : Position) (name : String)
    (params : List TypeVar) (target : Ty) :
    Leaves False C (defineAlias position name params target) := by
  unfold defineAlias
  grind

section Types

variable {settle : String → Check Unit} (hsettle : ∀ C name, Leaves False C (settle name))
include hsettle

theorem leaves_registerAlias (d : AliasDecl) : Leaves False C (registerAlias settle d) := by
  have htype := Walk.leaves_typeOf hsettle C d.type
  unfold registerAlias
  refine leaves_bind (Meaning.leaves_declareTypeVars
    (fun p hp => (Walk.leaves_typeParams hsettle _ p hp).1)
    (fun p hp => (Walk.leaves_typeParams hsettle _ p hp).2)) fun vars => ?_
  grind

end Types

namespace Interface

variable {settle : String → Check Unit}

@[grind ←]
theorem leaves_addField (unit : Nat) (position : Position) (f : Field) (c : Collected) :
    Leaves False C (addField unit position f c) := by
  unfold addField
  grind

variable (hsettle : ∀ C name, Leaves False C (settle name))
include hsettle

theorem leaves_addFields (unit : Nat) (ps : List PropertySpec) (c : Collected) :
    Leaves False C (addFields settle unit ps c) := by
  induction ps generalizing c with
  | nil => exact leaves_pure c
  | cons p ps ih =>
    have htype := Walk.leaves_typeOf hsettle C p.type
    unfold addFields
    grind

theorem leaves_addIndex (spec : Option IndexSpec) (c : Collected) :
    Leaves False C (addIndex settle spec c) := by
  have htype := Walk.leaves_typeOf hsettle C
  unfold addIndex
  grind

theorem leaves_addDecl (params : List TypeVar) (unit : Nat) (d : InterfaceDecl) (c : Collected) :
    Leaves False C (addDecl settle params unit d c) := by
  have hbases := Walk.leaves_typesOf hsettle .any d.bases
  have hfields := leaves_addFields (C := .any) hsettle unit d.members.properties
  have hindex := leaves_addIndex (C := .any) hsettle d.members.index
  have hcalls := Walk.leaves_callsOf hsettle .any d.members.calls
  unfold addDecl
  refine leaves_inUnit ?_
  grind

theorem leaves_addDecls (params : List TypeVar) (ds : List (Nat × InterfaceDecl))
    (c : Collected) : Leaves False C (addDecls settle params ds c) := by
  induction ds generalizing c with
  | nil => exact leaves_pure c
  | cons d ds ih =>
    obtain ⟨unit, d⟩ := d
    exact leaves_bind (leaves_addDecl hsettle params unit d c) ih

theorem leaves_register (g : Group) : Leaves False C (register settle g) := by
  unfold register
  split
  · exact leaves_pure ()
  · refine leaves_inUnit (leaves_bind (Meaning.leaves_declareTypeVars
      (fun p hp => (Walk.leaves_typeParams hsettle _ p hp).1)
      (fun p hp => (Walk.leaves_typeParams hsettle _ p hp).2)) fun vars => ?_)
    refine leaves_bind (leaves_addDecls hsettle ..) fun c => ?_
    grind

end Interface

namespace Class

variable {settle : String → Check Unit} {units : Array Declaration}

@[grind ←]
theorem leaves_registered? (unit : Nat) (name : String) :
    Leaves False C (registered? unit name) := by
  unfold registered?
  grind

@[grind ←]
theorem leaves_findBase {registerUnit : Nat → Check (Option ClassInfo)} {ref : BaseRef}
    (h : ∀ unit, Leaves False C (registerUnit unit)) :
    Leaves False C (findBase registerUnit ref) := by
  unfold findBase
  grind

theorem leaves_declare (d : ClassDecl) (info : ClassInfo) : Leaves False C (declare d info) := by
  unfold declare
  refine leaves_bind (leaves_defineAlias ..) fun _ => ?_
  refine leaves_bind (leaves_update fun _ => ⟨rfl, rfl⟩) fun _ => ?_
  grind

section Shapes

variable {settled : Prop}

theorem leaves_bindBase (vars : List TypeVar) (ts : List Ty) (subs : Substitution) :
    Leaves settled C (bindBase vars ts subs) := by
  fun_induction bindBase vars ts subs with
  | case1 => exact leaves_pure _
  | case2 _ _ _ _ _ ih => exact ih
  | case3 subs v vars ih => grind

variable (hsettle : ∀ C name, Leaves settled C (settle name))
include hsettle

theorem leaves_fieldType (f : ClassField) : Leaves settled .any (fieldType settle f) := by
  have htype := Walk.leaves_typeOf hsettle .any
  have hcheck (e : Expr) := Walk.leaves_check hsettle .any e fun _ _ => rfl
  unfold fieldType
  grind

theorem leaves_methodType (m : FunctionDecl) : Leaves settled C (methodType settle m) := by
  have hs := Walk.leaves_signature hsettle m.signature
  unfold methodType
  grind

theorem leaves_ownFields (fs : List ClassField) (done : List Field) :
    Leaves settled .any (ownFields settle fs done) := by
  induction fs generalizing done with
  | nil => exact leaves_pure done
  | cons f fs ih =>
    have hf := leaves_fieldType hsettle f
    unfold ownFields
    grind

theorem leaves_ownMethods (ms : List FunctionDecl) (done : List Field) (abstracts : List String) :
    Leaves settled C (ownMethods settle ms done abstracts) := by
  induction ms generalizing done abstracts with
  | nil => exact leaves_pure _
  | cons m ms ih =>
    have hm := leaves_methodType (C := C) hsettle m
    unfold ownMethods
    grind

theorem leaves_baseBindings (ref : BaseRef) (base : ClassInfo) :
    Leaves settled C (baseBindings settle ref base) := by
  have htypes := Walk.leaves_typesOf hsettle C ref.arguments
  have hbind (ts : List Ty) : Leaves settled C (bindBase base.params ts []) :=
    leaves_bindBase _ _ _
  unfold baseBindings
  grind

theorem leaves_inherit (ref : BaseRef) (base : ClassInfo) :
    Leaves settled C (inherit settle ref base) := by
  have hbindings := leaves_baseBindings (C := C) hsettle ref base
  unfold inherit
  grind

theorem leaves_constructorSignature (d : ClassDecl) (inherited : Option Inherited) :
    Leaves settled C (constructorSignature settle d inherited) := by
  have hsignature (c : FunctionDecl) : Leaves settled C (Meaning.signature
      { Walk.signature settle c.signature with receiver := none, result := none } none) :=
    Meaning.leaves_signature { Walk.leaves_signature hsettle c.signature with
      receiver := (fun _ h => nomatch h)
      result := (fun _ h => nomatch h) }
  unfold constructorSignature
  grind

end Shapes

section Registration

variable (hsettle : ∀ C name, Leaves False C (settle name))
include hsettle

theorem leaves_inherited? {findBase : BaseRef → Check (Option ClassInfo)}
    (h : ∀ ref, Leaves False C (findBase ref)) :
    Leaves False C (inherited? settle d findBase) := by
  have hinherit := leaves_inherit (C := C) hsettle
  unfold inherited?
  grind

theorem leaves_build {findBase : BaseRef → Check (Option ClassInfo)} {unit : Nat}
    (h : ∀ ref, Leaves False .any (findBase ref)) :
    Leaves False .any (build settle unit d findBase) := by
  unfold build
  refine leaves_bind (Meaning.leaves_declareTypeVars
    (fun p hp => (Walk.leaves_typeParams hsettle _ p hp).1)
    (fun p hp => (Walk.leaves_typeParams hsettle _ p hp).2)) fun vars => ?_
  refine leaves_withTypeVars ?_
  refine leaves_bind (leaves_mapM fun v _ =>
    leaves_interning (keeps_parameterOf v)) fun arguments => ?_
  refine leaves_bind (leaves_interning (keeps_referenceTo _ _)) fun reference => ?_
  refine leaves_bind (leaves_define rfl) fun _ => ?_
  refine leaves_bind (leaves_inherited? hsettle h) fun inherited => ?_
  refine leaves_bind (leaves_ownFields hsettle ..) fun fields => ?_
  refine leaves_bind (leaves_ownMethods hsettle ..) fun own => leaves_bind leaves_table fun T => ?_
  refine leaves_bind (leaves_interning (keeps_objectOf _)) fun instanceType => ?_
  refine leaves_bind (leaves_constructorSignature hsettle ..) fun c => ?_
  refine leaves_bind (leaves_interning (keeps_classOf _ _ _)) fun type => ?_
  exact leaves_bind (leaves_declare ..) fun _ => leaves_pure _

theorem leaves_buildOnce {registerUnit : Nat → Check (Option ClassInfo)} {unit : Nat}
    (h : ∀ unit, Leaves False .any (registerUnit unit)) :
    Leaves False C (buildOnce settle registerUnit unit d) := by
  have hbuild : Leaves False .any (build settle unit d (findBase registerUnit)) :=
    leaves_build hsettle fun _ => leaves_findBase h
  unfold buildOnce
  refine leaves_inUnit (leaves_bind leaves_session fun s => ?_)
  split
  · grind
  · exact leaves_bind (leaves_update fun _ => ⟨rfl, rfl⟩) fun _ => leaves_bind hbuild fun _ =>
      leaves_bind (leaves_update fun _ => ⟨rfl, rfl⟩) fun _ => leaves_pure _

/-- A class is registered after its base, so this is by induction on the chain of bases. -/
theorem leaves_registerAt (n unit : Nat) : Leaves False C (registerAt settle units n unit) := by
  induction n generalizing C unit with
  | zero => exact leaves_pure none
  | succ n ih =>
    have hbuild (d : ClassDecl) :
        Leaves False C (buildOnce settle (registerAt settle units n) unit d) :=
      leaves_buildOnce hsettle fun unit => ih unit
    unfold registerAt
    grind

theorem leaves_register (unit : Nat) : Leaves False C (register settle units unit) :=
  leaves_bind (leaves_registerAt hsettle ..) fun _ => leaves_pure _

end Registration

section Bodies

@[grind ←]
theorem leaves_checkOverride (name : String) (info : ClassInfo) (position : Position)
    (member : String) : Leaves False C (checkOverride name info position member) := by
  unfold checkOverride
  refine leaves_bind leaves_table fun T => ?_
  dsimp only
  split <;> grind

@[grind ←]
theorem leaves_checkOverrides (d : ClassDecl) (info : ClassInfo) :
    Leaves False C (checkOverrides d info) := by
  unfold checkOverrides
  grind

@[grind ←]
theorem leaves_checkAbstracts (d : ClassDecl) (info : ClassInfo) :
    Leaves False C (checkAbstracts d info) := by
  unfold checkAbstracts reportAbstract
  grind

variable (hsettle : ∀ C name, Leaves False C (settle name))
include hsettle

theorem leaves_checkInside (d : ClassDecl) (info : ClassInfo) :
    Leaves False .any (checkInside settle d info) := by
  have hpromise (t : TypeExpr) : Leaves False .any (checkPromise settle d info t) := by
    have htype := Walk.leaves_typeOf hsettle .any t
    unfold checkPromise
    grind
  have hfield (shape : Members) (f : ClassField) :
      Leaves False .any (checkField settle shape f) := by
    have hcheck (e : Expr) := Walk.leaves_check hsettle .any e fun _ _ => rfl
    unfold checkField
    grind
  have hconstructor : Leaves False .any (checkConstructor settle d info) := by
    have hbody (c : FunctionDecl) (type : Callable) : Leaves False .any
        (Body.check { Walk.bodyOf settle c type true with isConstructor := true }) :=
      Walk.leaves_checkBody hsettle (d := c) rfl rfl
    unfold checkConstructor
    grind
  have hmethod (shape : Members) (m : FunctionDecl) :
      Leaves False .any (checkMethod settle shape m) := by
    have hbody (type : Callable) (declared : Bool) : Leaves False .any
        (Body.check (Walk.bodyOf settle m type declared)) :=
      Walk.leaves_checkBody hsettle (d := m) rfl rfl
    unfold checkMethod
    grind
  unfold checkInside
  refine leaves_bind (leaves_checkOverrides ..) fun _ => ?_
  refine leaves_bind (leaves_checkAbstracts ..) fun _ => ?_
  refine leaves_bind (leaves_forM fun t _ => hpromise t) fun _ => ?_
  refine leaves_bind (leaves_define rfl) fun _ => leaves_bind leaves_table fun T => ?_
  refine leaves_bind (leaves_forM fun f _ => hfield _ f) fun _ => ?_
  exact leaves_bind hconstructor fun _ => leaves_forM fun m _ => hmethod _ m

theorem leaves_check (unit : Nat) (d : ClassDecl) : Leaves False .any (check settle unit d) := by
  have hinside := leaves_checkInside hsettle d
  unfold check
  grind

end Bodies

end Class

namespace Prelude

theorem leaves_declareClass (name : String) (instanceType : Ty) (params : List Parameter) :
    Leaves False C (declareClass name instanceType params) := by
  unfold declareClass
  refine leaves_bind leaves_session fun s => ?_
  split
  · exact leaves_pure ()
  · refine leaves_bind (leaves_interning (keeps_define _ _ _)) fun defined => ?_
    split
    · exact leaves_pure ()
    · refine leaves_bind (leaves_interning (keeps_referenceTo _ _)) fun reference => ?_
      refine leaves_bind (leaves_interning (keeps_classOf _ _ _)) fun type => ?_
      exact leaves_bind (leaves_update fun _ => ⟨rfl, rfl⟩) fun _ =>
        leaves_bind (leaves_defineIn ..) fun _ => leaves_pure ()

theorem leaves_declare : Leaves False C declare := by
  have hclass := leaves_declareClass (C := C)
  unfold declare
  grind

end Prelude

/-! ## The pass -/

namespace Scopes

/-- The global environment has just its base frame, which narrows none but the given names. -/
def Plain (names : List String) (σ : Scopes) : Prop :=
  (σ.environments[globals]?).bind Environment.outer = none ∧ ∃ f, σ.framesOf globals = [f] ∧
    f.narrowings.only (fun n => !names.contains n) = []

variable {names : List String} {σ σ' : Scopes}

theorem Plain.size_pos (h : σ.Plain names) : globals < σ.environments.size := by
  obtain ⟨-, f, hf, -⟩ := h
  by_contra hlt
  simp [framesOf, hlt] at hf

theorem Kept.plain {e : Nat} (h : σ.Kept False (.declaring names) e σ') (hσ : σ.Plain names) :
    σ'.Plain names := by
  have hsize := hσ.size_pos
  obtain ⟨houter, f, hf, hnone⟩ := hσ
  refine ⟨(h.outer globals hsize).trans houter, ?_⟩
  by_cases he : globals = e
  · subst he
    obtain ⟨f', rest', hf', hc, hrest⟩ := h.own f [] hf
    cases hrest
    exact ⟨f', hf', hc.1.trans hnone⟩
  · have hlike := h.others globals hsize he
    rw [hf] at hlike
    cases hf' : σ'.framesOf globals with
    | nil => rw [hf'] at hlike; cases hlike
    | cons f' rest' =>
      rw [hf'] at hlike
      cases hlike with
      | cons hff hrest =>
        cases hrest
        exact ⟨f', rfl, by rw [hff.1, hnone]⟩

/-- In a new environment inside a plain global one, a name has its declared type. -/
theorem Plain.lookup_add (h : σ.Plain names) {name : String} (hname : name ∉ names) :
    (σ.add (some globals)).2.lookup (σ.add (some globals)).1 name =
      ((σ.add (some globals)).2.value? (σ.add (some globals)).1 name).map ValueDecl.type := by
  have hsize := h.size_pos
  obtain ⟨houter, f, hf, hnone⟩ := h
  have hglobal : (σ.add (some globals)).2.framesOf globals = [f] := by
    rw [framesOf_add_of_lt σ _ hsize, hf]
  have hown : (σ.add (some globals)).2.framesOf (σ.add (some globals)).1 = [{}] := by
    simp [Scopes.add, framesOf]
  have hchain : (σ.add (some globals)).2.chain (σ.add (some globals)).1 =
      [(σ.add (some globals)).1, globals] := by
    obtain ⟨n, hn⟩ : ∃ n, σ.environments.size = n + 1 := ⟨_, (Nat.succ_pred_eq_of_pos hsize).symm⟩
    have houter' : ((σ.add (some globals)).2.environments[globals]?).bind Environment.outer =
        none := by
      rw [← houter]
      simp [Scopes.add, Array.getElem?_push, Nat.ne_of_lt hsize]
    have hnew : ((σ.add (some globals)).2.environments[(σ.add (some globals)).1]?).bind
        Environment.outer = some globals := by
      simp [Scopes.add]
    have hn' : (σ.add (some globals)).1 = n + 1 := hn
    unfold chain
    rw [chainAt, hnew]
    simp only [hn', chainAt, houter']
  have hvisible : (σ.add (some globals)).2.visible (σ.add (some globals)).1 = [{}, f] := by
    simp [visible, hchain, hown, hglobal]
  have hlookup : f.narrowings.lookup name = none := by
    have hkeep : ∀ b : Bindings, (b.only fun n => !names.contains n).lookup name = b.lookup name :=
      fun b => Bindings.lookup_only (by simpa using hname)
    rw [← hkeep, hnone]
    rfl
  unfold lookup value?
  rw [hvisible]
  simp only [List.findSome?_cons, List.findSome?_nil, Frame.lookup, hlookup, List.lookup_nil]
  cases f.values.lookup name <;> rfl

end Scopes

/-- Work that keeps the global environment plain. -/
def Check.Guards (names : List String) {α : Type} (work : Check α) : Prop :=
  ∀ ⦃w s a s'⦄, s.scopes.Plain names → work w s = some (a, s') → s'.scopes.Plain names

namespace Check

variable {names : List String}

theorem Leaves.guards (h : Leaves False (.declaring names) work) :
    Guards names work := fun _ _ _ _ hs ha => (h False.elim ha).scopes.plain hs

theorem guards_bind {x : Check α} {f : α → Check β} (hx : Guards names x)
    (hf : ∀ a, Guards names (f a)) : Guards names (x >>= f) := by
  intro w s b s' hs h
  obtain ⟨a, t, ha, hb⟩ := bind_eq_some.1 h
  exact hf a (hx hs ha) hb

theorem guards_forM {f : α → Check Unit} {as : List α} (h : ∀ a ∈ as, Guards names (f a)) :
    Guards names (as.forM f) :=
  have hsequential : Sequential fun α (x : Check α) => Guards names x :=
    ⟨fun a => (leaves_pure a).guards, guards_bind⟩
  hsequential.forM h

end Check

/-- What holds once work has given a result. -/
def Check.After {α : Type} (work : Check α) (w : Walker) (s : Session) (P : Session → Prop) :
    Prop :=
  ∀ a s', work w s = some (a, s') → P s'

namespace Pass

variable {units : Array Declaration} {names : List String}

/-- The names that the initializers of the top-level variables assign. -/
def leaks (units : Array Declaration) : List String :=
  units.toList.flatMap fun
    | .variable v => (v.value.map Expr.leaks).getD []
    | _ => []

theorem leaves_declareName (unit : Nat) (position : Position) (name : String) (kind : NameKind)
    (params : List TypeParam) : Leaves False C (declareName unit position name kind params) := by
  unfold declareName
  refine leaves_bind leaves_session fun s => ?_
  split
  · grind
  · exact leaves_bind (leaves_update fun _ => ⟨rfl, rfl⟩) fun _ => leaves_pure _

theorem leaves_declareUnits (interfaces : List Interface.Group) (ds : List (Nat × Declaration)) :
    Leaves False C (declareUnits interfaces ds) := by
  have hname := leaves_declareName (C := C)
  have hunit (unit : Nat) (d : Declaration) : Leaves False C (declareUnit interfaces unit d) := by
    unfold declareUnit
    grind
  induction ds with
  | nil => exact leaves_pure []
  | cons d ds ih =>
    obtain ⟨unit, d⟩ := d
    unfold declareUnits
    grind

theorem leaves_defineTypes : Leaves False C (defineTypes units) := by
  have hsettle : ∀ C name, Leaves False C (Function.settle units name) := Function.leaves_settle
  have henum (unit : Nat) (d : Declaration) : Leaves False C (defineEnum unit d) := by
    have hregister := Enum.leaves_register (C := .any)
    unfold defineEnum
    grind
  have halias (interfaces : List Interface.Group) (unit : Nat) (d : Declaration) :
      Leaves False C (defineAliasOrInterface (Function.settle units) interfaces unit d) := by
    have halias := leaves_registerAlias (C := .any) hsettle
    have hinterface := Interface.leaves_register (C := C) hsettle
    unfold defineAliasOrInterface
    grind
  have hclass (unit : Nat) (d : Declaration) :
      Leaves False C (defineClass (Function.settle units) units unit d) := by
    have hregister : Leaves False C (Class.register (Function.settle units) units unit) :=
      Class.leaves_register hsettle unit
    unfold defineClass
    grind
  unfold defineTypes
  refine leaves_bind (leaves_declareUnits ..) fun reserved => ?_
  refine leaves_bind Prelude.leaves_declare fun _ => ?_
  refine leaves_bind (leaves_forM fun d _ => henum d.1 d.2) fun _ => ?_
  refine leaves_bind (leaves_forM fun d _ => halias _ d.1 d.2) fun _ => ?_
  exact leaves_forM fun d _ => hclass d.1 d.2

theorem leaves_resolveAliases : Leaves False C (resolveAliases units) := by
  have hcycle (e : AliasError) : Leaves False C (reportCycle units e) := by
    unfold reportCycle
    grind
  unfold resolveAliases
  grind

theorem leaves_checkUnit (unit : Nat) (d : Declaration) :
    Leaves False C (checkUnit units unit d) := by
  have hsettle : ∀ C name, Leaves False C (Function.settle units name) := Function.leaves_settle
  have hbody (d : FunctionDecl) : Leaves False .any (Function.checkBody units unit d) :=
    Function.leaves_checkBody unit d
  have hclass := Class.leaves_check hsettle unit
  have hstatement := Walk.leaves_statement hsettle
  unfold checkUnit
  grind

/-- What the initializer of a variable assigns is narrowed in the global environment. -/
theorem guards_declareVariable {unit : Nat} {d : Declaration} (hd : d ∈ units.toList) :
    Guards (leaks units) (declareVariable units unit d) := by
  unfold declareVariable
  split
  next v =>
    have hvar : Leaves False (.declaring (leaks units))
        (Walk.varStatement (Function.settle units) v) := by
      refine Walk.leaves_varStatement Function.leaves_settle rfl fun e he n hn => ?_
      have hmem : n ∈ leaks units := by
        refine List.mem_flatMap.2 ⟨_, hd, ?_⟩
        simpa [he] using hn
      simpa [Change.declaring] using hmem
    exact fun w s a s' hs ha => hvar.guards hs ha
  · exact (leaves_pure ()).guards

/-- The pass up to the inference of result types. -/
def declaring (units : Array Declaration) : Check Unit := do
  let all := units.toList.zipIdx.map fun (d, i) => (i, d)
  defineTypes units
  resolveAliases units
  Function.declareAll (Function.settle units) all
  all.forM fun (unit, d) => declareVariable units unit d

theorem guards_declaring : Guards (leaks units) (declaring units) := by
  have hall : ∀ p ∈ units.toList.zipIdx.map (fun (d, i) => (i, d)), p.2 ∈ units.toList :=
    List.forall_mem_map.mpr fun q hq => List.fst_mem_of_mem_zipIdx hq
  unfold declaring
  refine guards_bind leaves_defineTypes.guards fun _ => ?_
  refine guards_bind leaves_resolveAliases.guards fun _ => ?_
  refine guards_bind (Function.leaves_declareAll Function.leaves_settle _).guards fun _ => ?_
  exact guards_forM fun p hp => guards_declareVariable (hall p hp)

/-- The pass up to the inference of the result type of the declaration at a place. -/
def inferring (units : Array Declaration) (place : Nat) : Check Unit := do
  declaring units
  (List.range place).forM (Function.inferUnit units (Function.settle units))

/-- The pass up to the check of the declaration at a place. -/
def checking (units : Array Declaration) (place : Nat) : Check Unit := do
  let all := units.toList.zipIdx.map fun (d, i) => (i, d)
  declaring units
  Function.inferAll units
  (all.take place).forM fun (unit, d) => checkUnit units unit d

/-- In an environment made now inside the global one, a name has its declared type. -/
def StartsDeclared (name : String) (s : Session) : Prop :=
  let (e, σ) := s.scopes.add (some globals)
  σ.lookup e name = (σ.value? e name).map ValueDecl.type

/-- A body starts from declared types: where the pass turns to a declaration, to infer its result
type or to check its body, every name has its declared type, unless the initializer of a top-level
variable assigns it. -/
theorem startsDeclared (w : Walker) (recorded : Array (Option Recorded)) (place : Nat)
    {name : String} (hname : name ∉ leaks units) :
    After (inferring units place) w { recorded } (StartsDeclared name) ∧
      After (checking units place) w { recorded } (StartsDeclared name) := by
  have hstart : ({ recorded } : Session).scopes.Plain (leaks units) := ⟨rfl, {}, rfl, rfl⟩
  have hinfer (unit : Nat) :
      Guards (leaks units) (Function.inferUnit units (Function.settle units) unit) :=
    (Function.leaves_inferUnit Function.leaves_settle unit).guards
  constructor
  · intro a s h
    have hs := guards_bind guards_declaring (fun _ => guards_forM fun unit _ => hinfer unit)
      hstart h
    exact hs.lookup_add hname
  · intro a s h
    have hbodies (_ : Unit) : Guards (leaks units)
        (((units.toList.zipIdx.map fun (d, i) => (i, d)).take place).forM
          fun (unit, d) => checkUnit units unit d) :=
      guards_forM fun p _ => (leaves_checkUnit p.1 p.2).guards
    have hs := guards_bind guards_declaring
      (fun _ => guards_bind Function.leaves_inferAll.guards hbodies) hstart h
    exact hs.lookup_add hname

/-- The declaration of a variable that assigns a truth value to another one. -/
def assigning : Variable :=
  { site := {}, kind := .let, name := "y", type := none
    value := some (.assign {} (.identifier {} "x") (.boolean {} true)) }

/-- Of the two variables only the assigned one may start narrowed. -/
theorem startsDeclared_assigning : "y" ∉ leaks #[.variable assigning] ∧
    After (checking #[.variable assigning] 1) {} {} (StartsDeclared "y") :=
  ⟨by decide, (startsDeclared {} #[] 1 (by decide)).2⟩

/-- A session in which the global variable `x` is declared `boolean`. -/
def declaredBoolean : Session :=
  { scopes := ((({} : Scopes).add none).2.define globals "x" ⟨.boolean, false⟩).2 }

/-- Once a top-level variable is declared whose initializer assigns `true` to `x`, bodies start with
`x` narrowed to `true`, though it is declared `boolean`. -/
theorem not_startsDeclared : ∃ s,
    declareVariable #[] 1 (.variable assigning) {} declaredBoolean = some ((), s) ∧
      ¬ StartsDeclared "x" s := by
  have hrun : (declareVariable #[] 1 (.variable assigning) {} declaredBoolean).map (fun r =>
      let (e, σ) := r.2.scopes.add (some globals)
      (σ.lookup e "x", (σ.value? e "x").map ValueDecl.type)) =
        some (some (.truth true), some .boolean) := by
    decide +kernel
  obtain ⟨⟨⟨⟩, s⟩, hs, heq⟩ := Option.map_eq_some_iff.1 hrun
  refine ⟨s, hs, fun h => ?_⟩
  have hlookup := congrArg Prod.fst heq
  have hvalue := congrArg Prod.snd heq
  have hsame : (some (.truth true) : Option Ty) = some .boolean :=
    hlookup.symm.trans (h.trans hvalue)
  exact absurd hsame (by decide)

end Pass

end ShapeCheck
