import ShapeCheck.Check.Expression
import ShapeCheck.Proofs.Frames

/-!
# The frames that types and expressions leave

The rules for types and expressions work on types, record what they find, and open frames that they
close again. The one rule that changes the frame it finds is the assignment to a variable, which
narrows it. So a type changes no frame, and an expression narrows at most the names assigned in it
outside the functions and the right sides of `&&` and `||` that it contains.

* The lemmas `leaves_…` say of each rule that it changes no more than its parts do.
* `Walk.leaves_typeOf`, `Walk.leaves_check` and `Walk.leaves_guard` are the induction over the tree.
-/

namespace ShapeCheck

open Check Typing

variable {α β : Type} {E : Effect} {C : Change} {position : Position}
  {arguments : Arguments OnArguments}
  {part value callee : ExprPart} {expected : Option Ty}
  {ps : List PropertyPart} {i : Nat} {s : SignaturePart} {spec : BodySpec} {name : String}
  {site : Site} {target : Ty} {loose : Bool} {left right : Check Guard}
  {f : α → OnArguments β} {c : Callable} {explicit signatures : List Ty}

/-! ## Written types -/

/-- An expression whose check changes no more than the innermost frame. -/
def ExprPart.Leaves (E : Effect) (C : Change) (p : ExprPart) : Prop :=
  ∀ expected, Check.Leaves E C (p.check expected)

/-- A written type that may be missing and whose meaning changes no frame. -/
def LeavesFrames (E : Effect) (action : Option (Check Ty)) : Prop :=
  ∀ a, action = some a → ∀ C, Check.Leaves E C a

/-- A parameter whose parts change no more than the innermost frame. -/
structure ParamPart.Leaves (E : Effect) (p : ParamPart) : Prop where
  written : LeavesFrames E p.written
  initial : ∀ e, p.initial = some e → e.Leaves E .any

/-- A signature whose parts change no more than the frame of the parameters. -/
structure SignaturePart.Leaves (E : Effect) (s : SignaturePart) : Prop where
  bounds : ∀ p ∈ s.typeParams, LeavesFrames E p.bound
  defaults : ∀ p ∈ s.typeParams, LeavesFrames E p.default
  params : ∀ p ∈ s.params, p.Leaves E
  rest : ∀ p, s.rest = some p → p.Leaves E
  receiver : LeavesFrames E s.receiver
  result : LeavesFrames E s.result

namespace Meaning

@[grind ←]
theorem leaves_enumMember (position : Position) (enum member : String) :
    Leaves E C (enumMember position enum member) := by
  unfold enumMember
  grind

@[grind ←]
theorem leaves_refuseArguments (position : Position) (arguments : List Ty) :
    Leaves E C (refuseArguments position arguments) := by
  unfold refuseArguments
  grind

@[grind ←]
theorem leaves_onlyArgument {arguments : List Ty} {make : Ty → Check Ty}
    (h : ∀ t, Leaves E C (make t)) : Leaves E C (onlyArgument position arguments make) := by
  unfold onlyArgument
  grind

@[grind ←]
theorem leaves_builtin (position : Position) (name : String) (arguments : List Ty) :
    Leaves E C (builtin position name arguments) := by
  unfold builtin
  grind

@[grind ←]
theorem leaves_declared (position : Position) (name : String) (decl : TypeName)
    (arguments : List Ty) : Leaves E C (declared position name decl arguments) := by
  unfold declared
  grind

@[grind ←]
theorem leaves_reference (position : Position) (name : String) (arguments : List Ty) :
    Leaves E C (reference position name arguments) := by
  unfold reference
  grind

@[grind ←]
theorem leaves_bigint (position : Position) (digits : String) :
    Leaves E C (bigint position digits) := by
  unfold bigint
  grind

@[grind ←]
theorem leaves_literal (position : Position) (l : LiteralSpelling) :
    Leaves E C (literal position l) := by
  unfold literal
  grind

@[grind ←]
theorem leaves_makeTypeVars (parts : List TypeParamPart) (done : List (String × TypeVar)) :
    Leaves E C (makeTypeVars parts done) := by
  induction parts generalizing done with
  | nil => exact leaves_pure done
  | cons p parts ih =>
    unfold makeTypeVars
    grind

@[grind ←]
theorem leaves_completeTypeVar {part : TypeParamPart} {v : TypeVar}
    (hbound : LeavesFrames E part.bound) (hdefault : LeavesFrames E part.default) :
    Leaves E C (completeTypeVar part v) := by
  unfold completeTypeVar LeavesFrames at *
  cases hb : part.bound with
  | none => grind
  | some action =>
    refine leaves_bind (hbound action hb C) fun t => ?_
    refine leaves_bind (leaves_interning (Interning.keeps_setBound v t)) fun _ => ?_
    grind

/-- Bounds and defaults are written types, so they change no frame. -/
@[grind ←]
theorem leaves_declareTypeVars {parts : List TypeParamPart}
    (hbound : ∀ p ∈ parts, LeavesFrames E p.bound)
    (hdefault : ∀ p ∈ parts, LeavesFrames E p.default) : Leaves E C (declareTypeVars parts) := by
  unfold declareTypeVars
  have hzip : ∀ vs : List TypeVar, ∀ q ∈ parts.zip vs, q.1 ∈ parts := fun vs q hq =>
    (List.of_mem_zip hq).1
  grind

/-- An initializer may narrow in the frame of the parameters only. -/
@[grind ←]
theorem leaves_parameterType {p : ParamPart} (h : p.Leaves E) :
    Leaves E .any (parameterType p expected) := by
  obtain ⟨hwritten, hinitial⟩ := h
  unfold parameterType
  unfold LeavesFrames at hwritten
  unfold ExprPart.Leaves at hinitial
  grind

@[grind ←]
theorem leaves_expectedAt (expected : Option Callable) (i : Nat) :
    Leaves E C (expectedAt expected i) := by
  unfold expectedAt
  grind

@[grind ←]
theorem leaves_parameters {ps : List ParamPart} {expected : Option Callable}
    (h : ∀ p ∈ ps, p.Leaves E) : Leaves E .any (parameters expected i ps) := by
  induction ps generalizing i with
  | nil => exact leaves_pure []
  | cons p ps ih =>
    unfold parameters
    grind

@[grind ←]
theorem leaves_restParameter {p : Option ParamPart} {expected : Option Callable}
    (h : ∀ q, p = some q → q.Leaves E) : Leaves E .any (restParameter expected p) := by
  unfold restParameter
  grind

@[grind ←]
theorem leaves_optional {action : Option (Check Ty)} (h : LeavesFrames E action) :
    Leaves E C (optional action) := by
  unfold optional
  unfold LeavesFrames at h
  grind

/-- The frame of the parameters is closed with the signature. -/
@[grind ←]
theorem leaves_callable {expected : Option Callable} (h : s.Leaves E) :
    Leaves E C (callable s expected) := by
  obtain ⟨hbounds, hdefaults, hparams, hrest, hreceiver, hresult⟩ := h
  unfold callable
  grind

@[grind ←]
theorem leaves_signature {expected : Option Callable} (h : s.Leaves E) :
    Leaves E C (signature s expected) := by
  unfold signature
  grind

end Meaning

/-! ## Bodies -/

namespace Body

@[grind ←]
theorem leaves_asksForLiterals (t : Ty) : Leaves E C (asksForLiterals t) := by
  unfold asksForLiterals
  grind

@[grind ←]
theorem leaves_widenResult (t : Ty) (expected : Option Ty) :
    Leaves E C (widenResult t expected) := by
  unfold widenResult
  grind

@[grind ←]
theorem leaves_declareParams {ps : List (ParamPart × Parameter)}
    (h : ∀ p ∈ ps, p.1.Leaves E) : Leaves E .any (declareParams ps) := by
  induction ps with
  | nil => exact leaves_pure ()
  | cons p ps ih =>
    obtain ⟨part, p⟩ := p
    have hinitial := (h (part, p) List.mem_cons_self).initial
    unfold declareParams
    unfold ExprPart.Leaves at hinitial
    grind

@[grind ←]
theorem leaves_declareAll (h : ∀ p ∈ spec.params, p.Leaves E) :
    Leaves E .any (declareAll spec) := by
  have hzip : ∀ q ∈ spec.params.zip spec.type.params, q.1 ∈ spec.params := fun q hq =>
    (List.of_mem_zip hq).1
  unfold declareAll
  grind

@[grind ←]
theorem leaves_ofExpression (h : part.Leaves E C) : Leaves E C (ofExpression spec part) := by
  unfold ofExpression
  unfold ExprPart.Leaves at h
  grind

/-- A body is checked in a frame of its own. -/
theorem leaves_check (hparams : ∀ p ∈ spec.params, p.Leaves E)
    (hbody : Leaves E .any (match spec.body with
      | .expression part => ofExpression spec part
      | .block statements => ofStatements spec statements)) :
    Leaves E C (check spec) := by
  unfold check
  have hdeclare := leaves_declareAll hparams
  refine leaves_bind leaves_table fun table => ?_
  exact leaves_withTypeVars (leaves_inFrame (leaves_bind hdeclare fun _ => leaves_inFunction hbody))

@[grind ←]
theorem leaves_onlySignature (found : Option Ty) (ts : List Ty) :
    Leaves E C (onlySignature found ts) := by
  induction ts generalizing found with
  | nil => exact leaves_pure found
  | cons t ts ih =>
    unfold onlySignature
    grind

@[grind ←]
theorem leaves_expectedSignature (expected : Option Ty) :
    Leaves E C (expectedSignature expected) := by
  unfold expectedSignature
  grind

@[grind ←]
theorem leaves_literal {body : ExprPart} (hs : s.Leaves E) (hbody : body.Leaves E .any) :
    Leaves E C (literal position s body expected) := by
  have hs' : ({ s with receiver := none } : SignaturePart).Leaves E :=
    { hs with receiver := fun _ h => nomatch h }
  have hcheck (spec : BodySpec) (hparams : spec.params = s.params)
      (hexpr : spec.body = .expression body) : Leaves E C (check spec) := by
    refine leaves_check (hparams ▸ hs.params) ?_
    rw [hexpr]
    exact leaves_ofExpression hbody
  unfold literal
  grind

end Body

/-! ## Access and assignment -/

namespace Access

@[grind ←]
theorem leaves_presentMember (position : Position) (object subject : Ty) (name : String)
    (orUndefined : Bool) : Leaves E C (presentMember position object subject name orUndefined) := by
  unfold presentMember
  grind

@[grind ←]
theorem leaves_member (position : Position) (object : Ty) (name : String) (optional : Bool) :
    Leaves E C (member position object name optional) := by
  unfold member
  grind

@[grind ←]
theorem leaves_enumIndex (enum : Ty) (e : Enumeration) (index : Ty) :
    Leaves E C (enumIndex enum e index) := by
  unfold enumIndex
  grind

@[grind ←]
theorem leaves_elementOf (m index : Ty) : Leaves E C (elementOf m index) := by
  unfold elementOf
  grind

@[grind ←]
theorem leaves_elementsOf (index : Ty) (ms : List Ty) : Leaves E C (elementsOf index ms) := by
  induction ms with
  | nil => exact leaves_pure _
  | cons m ms ih =>
    unfold elementsOf
    grind

@[grind ←]
theorem leaves_byKey (object resolved index : Ty) : Leaves E C (byKey object resolved index) := by
  unfold byKey
  refine leaves_bind (leaves_interning (Interning.keeps_widen index)) fun widened => ?_
  refine leaves_bind leaves_table fun T => ?_
  split
  · refine leaves_bind (leaves_interning (Interning.keeps_valueUnion _)) fun values => ?_
    refine leaves_bind (leaves_interning (Interning.keeps_widen values)) fun key => ?_
    grind
  · grind

@[grind ←]
theorem leaves_noProperty (object resolved index : Ty) (l : Literal) :
    Leaves E C (noProperty object resolved index l) := by
  unfold noProperty
  grind

@[grind ←]
theorem leaves_index (object index : Ty) : Leaves E C (Access.index object index) := by
  unfold Access.index
  refine leaves_bind (leaves_typing (keeps_resolve object)) fun resolved => ?_
  split
  · exact leaves_pure _
  · refine leaves_bind leaves_table fun T => ?_
    split <;> grind

@[grind ←]
theorem leaves_isReadonlyPlace (index m : Ty) : Leaves E C (isReadonlyPlace index m) := by
  unfold isReadonlyPlace
  grind

@[grind ←]
theorem leaves_anyMember {test : Ty → Check Bool} (h : ∀ t, Leaves E C (test t))
    (ms : List Ty) : Leaves E C (anyMember test ms) := by
  induction ms with
  | nil => exact leaves_pure _
  | cons m ms ih =>
    unfold anyMember
    grind

@[grind ←]
theorem leaves_isReadonlyIndex (object index : Ty) : Leaves E C (isReadonlyIndex object index) := by
  unfold isReadonlyIndex
  grind

@[grind ←]
theorem keeps_someFits (parts : List Ty) (m : Ty) : Typing.Keeps (someFits parts m) :=
  keeps_any (fun t => keeps_isAssignableTo t m) parts

@[grind ←]
theorem leaves_narrowAfterAssignment {value : ValueDecl} {assigned : Ty}
    (h : C.fixes name = false) : Leaves E C (narrowAfterAssignment name value assigned) := by
  unfold narrowAfterAssignment
  refine leaves_bind (leaves_lookup name) fun current => ?_
  refine leaves_bind (leaves_typing (keeps_resolve _)) fun resolved => ?_
  split
  · exact leaves_bindName h
  · refine leaves_bind (leaves_typing (keeps_isAssignableTo assigned _)) fun fits => ?_
    split <;> grind

/-- The one rule that narrows a name in the frame it finds. -/
@[grind ←]
theorem leaves_assignVariable (hname : C.fixes name = false) (hvalue : value.Leaves E C) :
    Leaves E C (assignVariable site name value) := by
  unfold assignVariable
  unfold ExprPart.Leaves at hvalue
  refine leaves_bind (leaves_value? name) fun decl? => ?_
  split
  · grind
  · refine leaves_bind (leaves_record ..) fun _ => ?_
    split <;> grind

@[grind ←]
theorem leaves_isInitializing (objectIsThis : Bool) : Leaves E C (isInitializing objectIsThis) := by
  unfold isInitializing
  grind

@[grind ←]
theorem leaves_assignMember {object : ExprPart} {objectIsThis : Bool} (hobject : object.Leaves E C)
    (hvalue : value.Leaves E C) :
    Leaves E C (assignMember site object objectIsThis name value) := by
  unfold assignMember
  unfold ExprPart.Leaves at hobject hvalue
  refine leaves_bind (hobject none) fun o => ?_
  refine leaves_bind (leaves_typing (keeps_property? o name)) fun field? => ?_
  split
  · grind
  · refine leaves_bind (leaves_record ..) fun _ => ?_
    grind

@[grind ←]
theorem leaves_assignIndex {object : ExprPart} {key : ExprPart} (hobject : object.Leaves E C)
    (hkey : key.Leaves E C)
    (hvalue : value.Leaves E C) : Leaves E C (assignIndex site object key value) := by
  unfold assignIndex
  unfold ExprPart.Leaves at hobject hkey hvalue
  refine leaves_bind (hobject none) fun o => ?_
  refine leaves_bind (hkey none) fun i => ?_
  refine leaves_bind (leaves_index o i) fun element => ?_
  split
  · grind
  · refine leaves_bind (leaves_record ..) fun _ => ?_
    grind

@[grind ←]
theorem leaves_assignOther
    (hvalue : value.Leaves E C) : Leaves E C (assignOther position value) := by
  unfold assignOther
  unfold ExprPart.Leaves at hvalue
  grind

end Access

/-! ## Operators and literals -/

namespace Operator

@[grind ←]
theorem leaves_typeof : Leaves E C typeof := by
  unfold typeof
  grind

@[grind ←]
theorem leaves_negate (position : Position) (t : Ty) : Leaves E C (negate position t) := by
  unfold negate
  grind

@[grind ←]
theorem leaves_bothFit (left right target : Ty) : Leaves E C (bothFit left right target) := by
  unfold bothFit
  grind

@[grind ←]
theorem leaves_related (a b : Ty) : Leaves E C (related a b) := by
  unfold related
  grind

@[grind ←]
theorem leaves_comparable (a b : Ty) : Leaves E C (comparable a b) := by
  unfold comparable
  grind

@[grind ←]
theorem leaves_ordered (left right : Ty) : Leaves E C (ordered left right) := by
  unfold ordered
  grind

@[grind ←]
theorem leaves_arithmetic (left right : Ty) : Leaves E C (arithmetic left right) := by
  unfold arithmetic
  grind

@[grind ←]
theorem leaves_addition (left right : Ty) : Leaves E C (addition left right) := by
  unfold addition
  grind

@[grind ←]
theorem leaves_strict (op : BinaryOp) (left right : Ty) : Leaves E C (strict op left right) := by
  unfold strict
  grind

@[grind ←]
theorem leaves_binary (position : Position) (op : BinaryOp) (left right : Ty) :
    Leaves E C (binary position op left right) := by
  unfold binary
  grind

@[grind ←]
theorem leaves_coalesce (left right : Ty) : Leaves E C (coalesce left right) := by
  unfold coalesce
  grind

@[grind ←]
theorem leaves_assertion
    (hvalue : value.Leaves E C) : Leaves E C (assertion position target value) := by
  unfold assertion
  unfold ExprPart.Leaves at hvalue
  grind

@[grind ←]
theorem leaves_expectedMembers (expected : Ty) : Leaves E C (expectedMembers expected) := by
  unfold expectedMembers
  grind

@[grind ←]
theorem leaves_expectedTuple (expected : Option Ty) (count : Nat) :
    Leaves E C (expectedTuple expected count) := by
  unfold expectedTuple
  grind

@[grind ←]
theorem leaves_expectedElement (expected : Option Ty) : Leaves E C (expectedElement expected) := by
  unfold expectedElement
  grind

@[grind ←]
theorem leaves_widenElement (t : Ty) (expected : Option Ty) :
    Leaves E C (widenElement t expected) := by
  unfold widenElement
  grind

@[grind ←]
theorem leaves_array {elements : List ExprPart}
    (h : ∀ p ∈ elements, p.Leaves E C) : Leaves E C (array elements expected) := by
  have hidx : ∀ q ∈ elements.zipIdx, q.1.Leaves E C := fun q hq =>
    h q.1 (List.fst_mem_of_mem_zipIdx hq)
  unfold array
  unfold ExprPart.Leaves at h hidx
  refine leaves_bind (leaves_expectedTuple ..) fun tuple => ?_
  split
  · grind
  · refine leaves_bind (leaves_expectedElement ..) fun element => ?_
    split <;> grind

@[grind ←]
theorem leaves_expectedProperty (expected : Option Ty) (key : String) :
    Leaves E C (expectedProperty expected key) := by
  unfold expectedProperty
  grind

@[grind ←]
theorem leaves_fields {done : List Field}
    (h : ∀ p ∈ ps, p.value.Leaves E C) : Leaves E C (fields expected ps done) := by
  induction ps generalizing done with
  | nil => exact leaves_pure done
  | cons p ps ih =>
    have hp := h p List.mem_cons_self
    unfold fields
    unfold ExprPart.Leaves at hp
    grind

@[grind ←]
theorem leaves_object (h : ∀ p ∈ ps, p.value.Leaves E C) : Leaves E C (object ps expected) := by
  unfold object
  grind

end Operator

/-! ## Guards -/

namespace Guard

@[grind ←]
theorem leaves_constantOf {e : Expr} {check : Check Ty} (h : Leaves E C check) :
    Leaves E C (constantOf e check) := by
  unfold constantOf
  grind

variable {typeOf : String → Check (Option Ty)}

@[grind ←]
theorem leaves_onName {split : Ty → Check Split}
    (htype : ∀ n, Leaves E C (typeOf n)) (h : ∀ t, Leaves E C (split t)) :
    Leaves E C (onName typeOf name split) := by
  unfold onName
  grind

@[grind ←]
theorem leaves_truth (htype : ∀ n, Leaves E C (typeOf n)) : Leaves E C (truth typeOf name) := by
  unfold truth
  grind

@[grind ←]
theorem keeps_splitByValue (t constant : Ty) (loose : Bool) :
    Typing.Keeps (splitByValue t constant loose) := by
  unfold splitByValue
  grind

/-- A test says what names would be narrowed to, and narrows none. -/
@[grind ←]
theorem leaves_tested {subject other : Side}
    (htype : ∀ n, Leaves E C (typeOf n)) (h : Leaves E C other.constant) :
    Leaves E C (tested typeOf loose subject other) := by
  unfold tested
  split
  · grind
  · exact leaves_pure _
  · refine leaves_bind h fun constant => ?_
    split
    · exact leaves_pure _
    · split <;> grind

@[grind ←]
theorem leaves_equality {left right : Side}
    (htype : ∀ n, Leaves E C (typeOf n)) (hl : Leaves E C left.constant)
    (hr : Leaves E C right.constant) : Leaves E C (equality typeOf loose left right) := by
  unfold equality
  grind

@[grind ←]
theorem leaves_sideOf (layers : List Bindings)
    (htype : ∀ n, Leaves E C (typeOf n)) : Leaves E C (sideOf typeOf name layers) := by
  induction layers with
  | nil =>
    unfold sideOf
    grind
  | cons layer layers ih =>
    unfold sideOf
    grind

@[grind ←]
theorem leaves_joined {first second after : Bindings} (htype : ∀ n, Leaves E C (typeOf n)) :
    Leaves E C (joined typeOf first second after) := by
  unfold joined
  grind

/-- The right side is checked under a layer of its own. -/
@[grind ←]
theorem leaves_both (htype : ∀ n, Leaves E C (typeOf n))
    (hl : Leaves E C left) (hr : Leaves E .any right) : Leaves E C (both typeOf left right) := by
  unfold both
  exact leaves_bind hl fun l => leaves_bind (leaves_under hr) fun r => by grind

@[grind ←]
theorem leaves_either (htype : ∀ n, Leaves E C (typeOf n))
    (hl : Leaves E C left) (hr : Leaves E .any right) : Leaves E C (either typeOf left right) := by
  unfold either
  exact leaves_bind hl fun l => leaves_bind (leaves_under hr) fun r => by grind

end Guard

/-! ## Calls -/

namespace Call

/-- Work on arguments that changes no more than the innermost frame. -/
def OnArguments.Leaves (E : Effect) (C : Change) {α : Type} (work : OnArguments α) : Prop :=
  ∀ cache, Check.Leaves E C (work cache)

namespace OnArguments

@[grind ←]
theorem leaves_pure (a : α) : Leaves E C (pure a : OnArguments α) := fun _ =>
  Check.leaves_pure _

@[grind ←]
theorem leaves_bind {x : OnArguments α} (hx : Leaves E C x)
    (hf : ∀ a, Leaves E C (f a)) : Leaves E C (x >>= f) := fun cache =>
  Check.leaves_bind (hx cache) fun p => hf p.1 p.2

theorem leaves_lift {work : Check α} (h : Check.Leaves E C work) :
    Leaves E C (liftM work : OnArguments α) := fun cache =>
  show Check.Leaves E C (work >>= fun a => pure (a, cache)) from
    Check.leaves_bind h fun _ => Check.leaves_pure _

@[grind ←]
theorem leaves_typing {work : Typing α} (hwork : work.Keeps) :
    Leaves E C (monadLift work : OnArguments α) :=
  leaves_lift (Check.leaves_typing hwork)

@[grind ←]
theorem leaves_mapM {as : List α} (h : ∀ a ∈ as, Leaves E C (f a)) : Leaves E C (as.mapM f) :=
  have hsequential : Sequential fun α (x : OnArguments α) => Leaves E C x :=
    ⟨leaves_pure, leaves_bind⟩
  hsequential.mapM h

end OnArguments

/-- An argument is checked quietly, once for each type that is expected of it. -/
theorem leaves_argumentType {parts : List ExprPart} (h : ∀ p ∈ parts, p.Leaves E C) (i : Nat)
    (expected : Option Ty) :
    OnArguments.Leaves E C (argumentType parts i expected) := by
  have hpart : ∀ p, parts[i]? = some p → OnArguments.Leaves E C
      (liftM (speculate (p.check expected)) : OnArguments Ty) := fun p hp =>
    OnArguments.leaves_lift (leaves_speculate (h p (List.mem_of_getElem? hp) expected))
  have hget : OnArguments.Leaves E C (get : OnArguments Cache) := fun _ =>
    Check.leaves_pure _
  have hmodify (f : Cache → Cache) : OnArguments.Leaves E C (modify f : OnArguments PUnit) :=
    fun _ => Check.leaves_pure _
  unfold argumentType
  refine OnArguments.leaves_bind hget fun cache => ?_
  split
  · exact OnArguments.leaves_pure _
  · split
    · exact OnArguments.leaves_bind (hpart _ (by assumption)) fun t => by grind
    · grind

/-- Arguments whose check changes no more than the innermost frame. -/
def LeavesArguments (E : Effect) (C : Change) (arguments : Arguments OnArguments) : Prop :=
  ∀ i expected, OnArguments.Leaves E C (arguments.type i expected)

section

variable (h : LeavesArguments E C arguments)
include h

@[grind ←]
theorem leaves_collect (subs : Substitution) (is : List Nat) (evidence : Inference.Evidence) :
    OnArguments.Leaves E C (Inference.collect c arguments subs is evidence) := by
  induction is generalizing evidence with
  | nil => exact OnArguments.leaves_pure evidence
  | cons i is ih =>
    unfold Inference.collect
    refine OnArguments.leaves_bind (OnArguments.leaves_typing keeps_get) fun T => ?_
    split
    · exact ih evidence
    · refine OnArguments.leaves_bind (OnArguments.leaves_typing
        (keeps_lift (Interning.keeps_substitute _ subs))) fun expected => ?_
      refine OnArguments.leaves_bind (h i _) fun t => ?_
      exact OnArguments.leaves_bind (OnArguments.leaves_typing (keeps_unify ..)) ih

@[grind ←]
theorem leaves_evidenceOf : OnArguments.Leaves E C (Inference.evidenceOf c arguments) := by
  unfold Inference.evidenceOf
  grind

@[grind ←]
theorem leaves_infer {signature : Ty} : OnArguments.Leaves E C
    (Inference.infer signature arguments explicit) := by
  unfold Inference.infer
  grind

@[grind ←]
theorem leaves_acceptsAll (is : List Nat) :
    OnArguments.Leaves E C (Overload.acceptsAll c arguments is) := by
  induction is with
  | nil => exact OnArguments.leaves_pure _
  | cons i is ih =>
    unfold Overload.acceptsAll
    refine OnArguments.leaves_bind (OnArguments.leaves_typing
      (keeps_lift (Interning.keeps_parameterTarget? c i))) fun target => ?_
    cases target with
    | none => exact OnArguments.leaves_pure _
    | some target =>
      refine OnArguments.leaves_bind (OnArguments.leaves_typing keeps_get) fun T => ?_
      refine OnArguments.leaves_bind (h i _) fun t => ?_
      refine OnArguments.leaves_bind
        (OnArguments.leaves_typing (keeps_fitsTarget t target)) fun fits => ?_
      split
      · exact ih
      · exact OnArguments.leaves_pure _

@[grind ←]
theorem leaves_accepts {signature : Ty} : OnArguments.Leaves E C
    (Overload.accepts signature arguments) := by
  unfold Overload.accepts
  grind

@[grind ←]
theorem leaves_attempt {signature : Ty} :
    OnArguments.Leaves E C (Overload.attempt signature arguments explicit) := by
  unfold Overload.attempt
  grind

/-- By induction on the signatures that are left. -/
@[grind ←]
theorem leaves_firstAccepting (signatures : List Ty) :
    OnArguments.Leaves E C (Overload.firstAccepting arguments explicit signatures) := by
  induction signatures with
  | nil => exact OnArguments.leaves_pure _
  | cons s signatures ih =>
    unfold Overload.firstAccepting
    grind

@[grind ←]
theorem leaves_choose : OnArguments.Leaves E C (Overload.choose signatures arguments explicit) := by
  unfold Overload.choose
  unfold LeavesArguments at h
  refine OnArguments.leaves_bind (leaves_firstAccepting h signatures) fun chosen => ?_
  grind

end

/-- The arguments that are tried for the signatures are checked quietly. -/
@[grind ←]
theorem leaves_select {parts : List ExprPart} (h : ∀ p ∈ parts, p.Leaves E C) :
    Leaves E C (select signatures parts explicit) := by
  have harguments : LeavesArguments E C (arguments parts) := leaves_argumentType h
  unfold select
  split
  · exact Check.leaves_bind (leaves_infer harguments []) fun _ => Check.leaves_pure _
  · exact Check.leaves_bind (leaves_choose harguments []) fun _ => Check.leaves_pure _

@[grind ←]
theorem leaves_checkFreely {parts : List ExprPart} (h : ∀ p ∈ parts, p.Leaves E C) :
    Leaves E C (checkFreely parts) := by
  unfold checkFreely
  unfold ExprPart.Leaves at h
  grind

@[grind ←]
theorem leaves_checkArgument (h : part.Leaves E C) : Leaves E C (checkArgument part target) := by
  unfold checkArgument
  unfold ExprPart.Leaves at h
  grind

@[grind ←]
theorem leaves_checkArguments {parts : List ExprPart}
    (h : ∀ p ∈ parts, p.Leaves E C) : Leaves E C (checkArguments c i parts) := by
  induction parts generalizing i with
  | nil => exact leaves_pure ()
  | cons p parts ih =>
    have hp := h p List.mem_cons_self
    unfold checkArguments
    unfold ExprPart.Leaves at hp
    grind

@[grind ←]
theorem leaves_applySignature {parts : List ExprPart} {signature : Ty}
    (h : ∀ p ∈ parts, p.Leaves E C) :
    Leaves E C (applySignature position signature parts) := by
  unfold applySignature
  grind

@[grind ←]
theorem leaves_invoke {parts : List ExprPart} {explicit : Check (List Ty)}
    (hexplicit : Leaves E C explicit)
    (h : ∀ p ∈ parts, p.Leaves E C) : Leaves E C (invoke position signatures parts explicit) := by
  have hfreely := leaves_checkFreely h
  unfold invoke
  grind

/-- A call checks its callee and its arguments. -/
@[grind ←]
theorem leaves_call {parts : List ExprPart} {explicit : Check (List Ty)}
    (hcallee : callee.Leaves E C)
    (hexplicit : Leaves E C explicit) (h : ∀ p ∈ parts, p.Leaves E C) :
    Leaves E C (call position callee explicit parts) := by
  have hfreely := leaves_checkFreely h
  unfold call
  refine leaves_bind (hcallee none) fun t => ?_
  refine leaves_bind (leaves_typing (keeps_resolve t)) fun resolved => ?_
  split
  · grind
  · refine leaves_bind (leaves_typing (keeps_callSignatures resolved)) fun signatures => ?_
    split <;> grind

@[grind ←]
theorem leaves_isAbstractClass (t : Ty) (name : String) : Leaves E C (isAbstractClass t name) := by
  unfold isAbstractClass
  grind

@[grind ←]
theorem leaves_construct {parts : List ExprPart} {explicit : Check (List Ty)}
    (hcallee : callee.Leaves E C)
    (hexplicit : Leaves E C explicit) (h : ∀ p ∈ parts, p.Leaves E C) :
    Leaves E C (construct position callee explicit parts) := by
  have hfreely := leaves_checkFreely h
  unfold construct
  refine leaves_bind (hcallee none) fun t => ?_
  refine leaves_bind (leaves_typing (keeps_resolve t)) fun resolved => ?_
  split
  · grind
  · refine leaves_bind leaves_table fun T => ?_
    split <;> grind

end Call

/-! ## The recursion over types and expressions -/

mutual

/-- The names that checking an expression may narrow in the frame around it: those assigned in it,
but for functions and the right sides of `&&` and `||`, which have frames of their own. -/
def Expr.leaks : Expr → List String
  | .array _ elements => leaksOfAll elements
  | .object _ properties => leaksOfEntries properties
  | .call _ callee _ arguments => callee.leaks ++ leaksOfAll arguments
  | .construct _ callee _ arguments => callee.leaks ++ leaksOfAll arguments
  | .member _ o _ _ => o.leaks
  | .index _ o k => o.leaks ++ k.leaks
  | .typeof _ operand => operand.leaks
  | .unary _ _ operand => operand.leaks
  | .binary _ left .and _ => left.leaks
  | .binary _ left .or _ => left.leaks
  | .binary _ left _ right => left.leaks ++ right.leaks
  | .assign _ (.identifier _ name) value => name :: value.leaks
  | .assign _ (.member _ o _ _) value => o.leaks ++ value.leaks
  | .assign _ (.index _ o k) value => o.leaks ++ k.leaks ++ value.leaks
  | .assign _ _ value => value.leaks
  | .assertion _ value _ => value.leaks
  | _ => []

/-- The names that checking several expressions may narrow. -/
def Expr.leaksOfAll : List Expr → List String
  | [] => []
  | e :: es => e.leaks ++ leaksOfAll es

/-- The names that checking the entries of an object literal may narrow. -/
def Expr.leaksOfEntries : List Property → List String
  | [] => []
  | .mk _ _ value :: ps => value.leaks ++ leaksOfEntries ps

end

namespace Walk

variable {settle : String → Check Unit}

@[grind ←]
theorem leaves_typeOfName (hsettle : ∀ name, Leaves E C (settle name)) (name : String) :
    Leaves E C (typeOfName settle name) := by
  unfold typeOfName
  grind

@[grind ←]
theorem leaves_identifier (hsettle : ∀ name, Leaves E C (settle name)) (position : Position)
    (name : String) : Leaves E C (identifier settle position name) := by
  unfold identifier
  grind

/-- What the right side narrows is dropped with the layer it is checked under. -/
@[grind ←]
theorem leaves_logical {isAnd : Bool} {left right : Check Ty} {guard : Check Guard}
    (hl : Leaves E C left) (hg : Leaves E C guard) (hr : Leaves E .any right) :
    Leaves E C (logical isAnd left guard right) := by
  unfold logical
  refine leaves_bind hl fun l => leaves_bind hg fun g => leaves_bind (leaves_under hr) fun r => ?_
  grind

@[grind ←]
theorem leaves_comparison {op : BinaryOp} {left right : Guard.Side}
    (hsettle : ∀ name, Leaves E C (settle name)) (hl : Leaves E C left.constant)
    (hr : Leaves E C right.constant) : Leaves E C (comparison settle op left right) := by
  unfold comparison
  grind

@[grind ←]
theorem leaves_indexAccess {object key : Check Ty}
    (hobject : Leaves E C object) (hkey : Leaves E C key) :
    Leaves E C (indexAccess position object key) := by
  unfold indexAccess
  grind

@[grind ←]
theorem leaves_recorded {kind : NodeKind} {type : Check Ty}
    (h : Leaves E C type) : Leaves E C (recorded site kind type) := by
  unfold recorded
  grind

section Recursion

variable (hsettle : ∀ C name, Leaves E C (settle name))
include hsettle

-- The types need it only through the expressions in them.
set_option linter.unusedSectionVars false in
mutual

/-- A written type leaves the frames as they are. -/
theorem leaves_typeOf (C : Change) : ∀ t : TypeExpr, Leaves E C (typeOf settle t)
  | .reference p name arguments => by
    have := leaves_typesOf C arguments
    unfold typeOf
    grind
  | .literal p v => by
    unfold typeOf
    grind
  | .union _ ms | .intersection _ ms => by
    have := leaves_typesOf C ms
    unfold typeOf
    grind
  | .array _ element _ => by
    have := leaves_typeOf C element
    unfold typeOf
    grind
  | .tuple _ slots rest _ => by
    have := leaves_slotsOf C slots
    have := leaves_optionalType rest
    unfold typeOf
    grind
  | .object _ members => by
    have := leaves_membersOf C members
    unfold typeOf
    grind
  | .function s => by
    have := leaves_signature s
    unfold typeOf
    grind

theorem leaves_typesOf (C : Change) : ∀ ts : List TypeExpr, Leaves E C (typesOf settle ts)
  | [] => leaves_pure []
  | t :: ts => by
    have := leaves_typeOf C t
    have := leaves_typesOf C ts
    unfold typesOf
    grind

theorem leaves_optionalType :
    ∀ t : Option TypeExpr, LeavesFrames E (optionalType settle t)
  | none => fun _ h => nomatch h
  | some t => fun _ h C => Option.some.inj h ▸ leaves_typeOf C t

theorem leaves_slotsOf (C : Change) : ∀ ss : List TupleSlot, Leaves E C (slotsOf settle ss)
  | [] => leaves_pure []
  | .mk t _ :: ss => by
    have := leaves_typeOf C t
    have := leaves_slotsOf C ss
    unfold slotsOf
    grind

theorem leaves_membersOf (C : Change) : ∀ m : MemberList, Leaves E C (membersOf settle m)
  | .mk properties index calls => by
    have := leaves_fieldsOf C properties
    have := leaves_indexOf C index
    have := leaves_callsOf C calls
    unfold membersOf
    grind

theorem leaves_fieldsOf (C : Change) :
    ∀ ps : List PropertySpec, Leaves E C (fieldsOf settle ps)
  | [] => leaves_pure []
  | .mk _ _ t _ _ :: ps => by
    have := leaves_typeOf C t
    have := leaves_fieldsOf C ps
    unfold fieldsOf
    grind

theorem leaves_indexOf (C : Change) :
    ∀ i : Option IndexSpec, Leaves E C (indexOf settle i)
  | none => leaves_pure none
  | some (.mk _ _ t) => by
    have := leaves_typeOf C t
    unfold indexOf
    grind

theorem leaves_callsOf (C : Change) : ∀ ss : List Signature, Leaves E C (callsOf settle ss)
  | [] => leaves_pure []
  | s :: ss => by
    have := leaves_signature s
    have := leaves_callsOf C ss
    unfold callsOf
    grind

theorem leaves_signature : ∀ s : Signature, (signature settle s).Leaves E
  | .mk _ tps ps rest receiver result =>
    { bounds := fun p hp => (leaves_typeParams tps p hp).1
      defaults := fun p hp => (leaves_typeParams tps p hp).2
      params := leaves_params ps
      rest := leaves_restParam rest
      receiver := leaves_optionalType receiver
      result := leaves_optionalType result }

theorem leaves_typeParams : ∀ (ps : List TypeParam), ∀ p ∈ typeParams settle ps,
    LeavesFrames E p.bound ∧ LeavesFrames E p.default
  | [] => fun _ h => nomatch h
  | .mk _ _ bound default :: ps => by
    intro p hp
    unfold typeParams at hp
    rcases List.mem_cons.1 hp with rfl | hp
    · exact ⟨leaves_optionalType bound, leaves_optionalType default⟩
    · exact leaves_typeParams ps p hp

theorem leaves_params : ∀ (ps : List Param), ∀ p ∈ params settle ps, p.Leaves E
  | [] => fun _ h => nomatch h
  | .mk _ _ type _ initial :: ps => by
    intro p hp
    unfold params at hp
    rcases List.mem_cons.1 hp with rfl | hp
    · exact ⟨leaves_optionalType type, leaves_initialPart initial⟩
    · exact leaves_params ps p hp

theorem leaves_restParam :
    ∀ (p : Option Param), ∀ q, restParam settle p = some q → q.Leaves E
  | none => fun _ h => nomatch h
  | some (.mk _ _ type _ initial) => by
    intro q hq
    unfold restParam at hq
    cases hq
    exact ⟨leaves_optionalType type, leaves_initialPart initial⟩

theorem leaves_initialPart :
    ∀ (e : Option Expr), ∀ q, initialPart settle e = some q → q.Leaves E .any
  | none => fun _ h => nomatch h
  | some e => by
    intro q hq
    unfold initialPart at hq
    cases hq
    exact leaves_check .any e fun _ _ => rfl

theorem leaves_check (C : Change) : ∀ e : Expr, (∀ n ∈ e.leaks, C.fixes n = false) →
    ∀ expected, Leaves E C (check settle e expected)
  | .identifier .., _, _ => by
    unfold check
    grind
  | .number .., _, _ | .string .., _, _ | .boolean .., _, _ | .bigint .., _, _ | .null _, _, _
  | .undefined _, _, _ | .this _, _, _ => by
    unfold check
    grind
  | .array _ es, h, expected => by
    unfold Expr.leaks at h
    have := leaves_parts C es h
    unfold check
    grind
  | .object _ ps, h, expected => by
    unfold Expr.leaks at h
    have := leaves_properties C ps h
    unfold check
    grind
  | .function _ s body, _, expected => by
    have := leaves_signature s
    have hbody : ExprPart.Leaves E .any ⟨body.position, check settle body, false⟩ :=
      leaves_check .any body fun _ _ => rfl
    unfold check
    grind
  | .call _ callee ts as, h, expected | .construct _ callee ts as, h, expected => by
    simp only [Expr.leaks, List.mem_append] at h
    have hcallee : ExprPart.Leaves E C ⟨callee.position, check settle callee, false⟩ :=
      leaves_check C callee fun n hn => h n (.inl hn)
    have := leaves_typesOf C ts
    have := leaves_parts C as fun n hn => h n (.inr hn)
    unfold check
    grind
  | .member _ object _ _, h, expected => by
    unfold Expr.leaks at h
    have := leaves_check C object h none
    unfold check
    grind
  | .index _ object key, h, expected => by
    simp only [Expr.leaks, List.mem_append] at h
    have := leaves_check C object (fun n hn => h n (.inl hn)) none
    have := leaves_check C key (fun n hn => h n (.inr hn)) none
    unfold check
    grind
  | .typeof _ operand, h, expected | .unary _ .not operand, h, expected
  | .unary _ .negate operand, h, expected => by
    unfold Expr.leaks at h
    have := leaves_check C operand h none
    unfold check
    grind
  | .binary _ left op right, h, expected => by
    have hleft := leaves_check C left
    have hright := leaves_check C right
    have hinner := leaves_check .any right (fun _ _ => rfl) none
    have hguard := leaves_guard C left
    cases op with
    | and | or =>
      unfold Expr.leaks at h
      have := hleft h none
      have := hguard h
      unfold check
      grind
    | _ =>
      simp only [Expr.leaks, List.mem_append] at h
      have := hleft (fun n hn => h n (.inl hn)) none
      have := hright (fun n hn => h n (.inr hn)) none
      unfold check
      grind
  | .assign _ target value, h, expected => by
    have hvalue (h : ∀ n ∈ value.leaks, C.fixes n = false) :
        ExprPart.Leaves E C ⟨value.position, check settle value, false⟩ :=
      leaves_check C value h
    cases target with
    | identifier own name =>
      simp only [Expr.leaks, List.mem_cons] at h
      have := hvalue fun n hn => h n (.inr hn)
      have := h name (.inl rfl)
      unfold check
      grind
    | member own object name _ =>
      simp only [Expr.leaks, List.mem_append] at h
      have hobject : ExprPart.Leaves E C ⟨object.position, check settle object, false⟩ :=
        leaves_check C object fun n hn => h n (.inl hn)
      have := hvalue fun n hn => h n (.inr hn)
      unfold check
      grind
    | index own object key =>
      simp only [Expr.leaks, List.mem_append] at h
      have hobject : ExprPart.Leaves E C ⟨object.position, check settle object, false⟩ :=
        leaves_check C object fun n hn => h n (.inl (.inl hn))
      have hkey : ExprPart.Leaves E C ⟨key.position, check settle key, false⟩ :=
        leaves_check C key fun n hn => h n (.inl (.inr hn))
      have := hvalue fun n hn => h n (.inr hn)
      unfold check
      grind
    | _ =>
      unfold Expr.leaks at h
      have := hvalue h
      unfold check
      grind
  | .assertion _ value type, h, expected => by
    unfold Expr.leaks at h
    have hvalue : ExprPart.Leaves E C ⟨value.position, check settle value, false⟩ :=
      leaves_check C value h
    have := leaves_typeOf C type
    unfold check
    grind

theorem leaves_parts (C : Change) : ∀ es : List Expr,
    (∀ n ∈ Expr.leaksOfAll es, C.fixes n = false) → ∀ p ∈ parts settle es, p.Leaves E C
  | [] => fun _ _ h => nomatch h
  | e :: es => by
    intro h p hp
    simp only [Expr.leaksOfAll, List.mem_append] at h
    unfold parts at hp
    rcases List.mem_cons.1 hp with rfl | hp
    · exact leaves_check C e fun n hn => h n (.inl hn)
    · exact leaves_parts C es (fun n hn => h n (.inr hn)) p hp

theorem leaves_properties (C : Change) : ∀ ps : List Property,
    (∀ n ∈ Expr.leaksOfEntries ps, C.fixes n = false) →
      ∀ p ∈ properties settle ps, p.value.Leaves E C
  | [] => fun _ _ h => nomatch h
  | .mk _ _ value :: ps => by
    intro h p hp
    simp only [Expr.leaksOfEntries, List.mem_append] at h
    unfold properties at hp
    rcases List.mem_cons.1 hp with rfl | hp
    · exact leaves_check C value fun n hn => h n (.inl hn)
    · exact leaves_properties C ps (fun n hn => h n (.inr hn)) p hp

theorem leaves_guard (C : Change) :
    ∀ e : Expr, (∀ n ∈ e.leaks, C.fixes n = false) → Leaves E C (guard settle e)
  | .identifier _ name, _ => by
    unfold guard
    grind
  | .unary _ .not operand, h => by
    unfold Expr.leaks at h
    have := leaves_guard C operand h
    unfold guard
    grind
  | .binary _ left op right, h => by
    have hleft := leaves_check C left
    have hright := leaves_check C right
    have hinner := leaves_guard .any right fun _ _ => rfl
    have hguard := leaves_guard C left
    cases op with
    | and | or =>
      unfold Expr.leaks at h
      have := hguard h
      unfold guard
      grind
    | _ =>
      simp only [Expr.leaks, List.mem_append] at h
      have := hleft (fun n hn => h n (.inl hn)) none
      have := hright (fun n hn => h n (.inr hn)) none
      unfold guard
      grind
  | .number .., _ | .string .., _ | .boolean .., _ | .bigint .., _ | .null _, _ | .undefined _, _
  | .this _, _ | .array .., _ | .object .., _ | .function .., _ | .call .., _ | .construct .., _
  | .member .., _ | .index .., _ | .typeof .., _ | .unary _ .negate _, _ | .assign .., _
  | .assertion .., _ => by
    unfold guard
    exact leaves_pure _

end

end Recursion

end Walk

end ShapeCheck
