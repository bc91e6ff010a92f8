import ShapeCheck.Proofs.Declarations

/-!
# Annotated declarations

Only the comparison of types and the expansion of aliases may take more steps than they are given.
The meaning of a written type needs neither, unless a parameter without annotation in it has an
initializer, whose type is then looked for. So the types of a program in which every parameter with
an initializer and every field is annotated are always defined.

* `Walk.returns_typeOf` is the induction over written types, `Pass.returns_defineTypes` the result
  for a program.
-/

namespace ShapeCheck

variable {α β : Type} {f : α → Check β} {work : Check α} {unit : Nat}
  {as : List α} {d : InterfaceDecl}
  {units : Array Declaration}

open Check

/-- Work that gives a result. -/
def Check.Returns {α : Type} (work : Check α) : Prop := ∀ w s, ∃ a s', work w s = some (a, s')

namespace Check

@[grind ←]
theorem returns_pure (a : α) : Returns (pure a) := fun _ s => ⟨a, s, rfl⟩

@[grind ←]
theorem returns_bind {x : Check α} (hx : Returns x) (hf : ∀ a, Returns (f a)) :
    Returns (x >>= f) := by
  intro w s
  obtain ⟨a, t, ha⟩ := hx w s
  obtain ⟨b, s', hb⟩ := hf a w t
  exact ⟨b, s', bind_eq_some.2 ⟨a, t, ha, hb⟩⟩

@[grind ←]
theorem returns_interning (work : Interning α) : Returns (monadLift work : Check α) :=
  fun _ _ => ⟨_, _, rfl⟩

@[grind ←]
theorem returns_session : Returns session := fun _ s => ⟨s, s, rfl⟩

@[grind ←]
theorem returns_walker : Returns walker := fun w s => ⟨w, s, rfl⟩

@[grind ←]
theorem returns_table : Returns table := fun _ s => ⟨s.table, s, rfl⟩

@[grind ←]
theorem returns_update (change : Session → Session) : Returns (update change) :=
  fun _ s => ⟨(), change s, rfl⟩

@[grind ←]
theorem returns_defineIn (e : Nat) (name : String) (v : ValueDecl) : Returns (defineIn e name v) :=
  fun _ _ => ⟨_, _, rfl⟩

@[grind ←]
theorem returns_define (name : String) (t : Ty) (isConst : Bool) :
    Returns (define name t isConst) :=
  fun _ _ => ⟨_, _, rfl⟩

@[grind ←]
theorem returns_report (position : Position) (problem : Problem) :
    Returns (report position problem) := by
  unfold report
  grind

@[grind ←]
theorem returns_withReader {change : Walker → Walker} (h : Returns work) :
    Returns (withReader change work) := fun w s => h (change w) s

@[grind ←]
theorem returns_withTypeVars {vars : List (String × TypeVar)} (h : Returns work) :
    Returns (Meaning.withTypeVars vars work) := returns_withReader h

@[grind ←]
theorem returns_inUnit (h : Returns work) : Returns (inUnit unit work) :=
  returns_bind (fun _ _ => ⟨_, _, rfl⟩) fun _ => returns_withReader h

@[grind ←]
theorem returns_inFrame (h : Returns work) : Returns (inFrame work) :=
  returns_bind (fun _ _ => ⟨_, _, rfl⟩) fun _ => returns_bind h fun _ =>
    returns_bind (fun _ _ => ⟨_, _, rfl⟩) fun _ => returns_pure _

theorem sequential_returns : Sequential fun α (x : Check α) => Returns x :=
  ⟨returns_pure, returns_bind⟩

@[grind ←]
theorem returns_mapM (h : ∀ a ∈ as, Returns (f a)) : Returns (as.mapM f) :=
  sequential_returns.mapM h

@[grind ←]
theorem returns_forM {f : α → Check Unit} (h : ∀ a ∈ as, Returns (f a)) : Returns (as.forM f) :=
  sequential_returns.forM h

end Check

/-! ## Written types -/

mutual

/-- Every parameter with an initializer is annotated. -/
def TypeExpr.annotated : TypeExpr → Bool
  | .reference _ _ arguments => TypeExpr.allAnnotated arguments
  | .literal _ _ => true
  | .union _ ms => TypeExpr.allAnnotated ms
  | .intersection _ ms => TypeExpr.allAnnotated ms
  | .array _ element _ => element.annotated
  | .tuple _ slots rest _ => TupleSlot.allAnnotated slots && TypeExpr.annotated? rest
  | .object _ members => members.annotated
  | .function s => s.annotated

/-- Every parameter with an initializer is annotated in all of the types. -/
def TypeExpr.allAnnotated : List TypeExpr → Bool
  | [] => true
  | t :: ts => t.annotated && TypeExpr.allAnnotated ts

/-- Every parameter with an initializer is annotated in a type that may be missing. -/
def TypeExpr.annotated? : Option TypeExpr → Bool
  | none => true
  | some t => t.annotated

/-- Every parameter with an initializer is annotated in the places of a tuple. -/
def TupleSlot.allAnnotated : List TupleSlot → Bool
  | [] => true
  | .mk t _ :: ss => t.annotated && TupleSlot.allAnnotated ss

/-- Every parameter with an initializer is annotated in the members of an object. -/
def MemberList.annotated : MemberList → Bool
  | .mk properties index calls =>
    PropertySpec.allAnnotated properties && IndexSpec.annotated? index &&
      Signature.allAnnotated calls

/-- Every parameter with an initializer is annotated in some properties. -/
def PropertySpec.allAnnotated : List PropertySpec → Bool
  | [] => true
  | .mk _ _ t _ _ :: ps => t.annotated && PropertySpec.allAnnotated ps

/-- Every parameter with an initializer is annotated in an index signature. -/
def IndexSpec.annotated? : Option IndexSpec → Bool
  | none => true
  | some (.mk _ _ t) => t.annotated

/-- Every parameter with an initializer is annotated in some signatures. -/
def Signature.allAnnotated : List Signature → Bool
  | [] => true
  | s :: ss => s.annotated && Signature.allAnnotated ss

/-- Every parameter with an initializer is annotated. -/
def Signature.annotated : Signature → Bool
  | .mk _ tps ps rest receiver result =>
    TypeParam.allAnnotated tps && Param.allAnnotated ps && Param.annotated? rest &&
      TypeExpr.annotated? receiver && TypeExpr.annotated? result

/-- Every parameter with an initializer is annotated in bounds and defaults. -/
def TypeParam.allAnnotated : List TypeParam → Bool
  | [] => true
  | .mk _ _ bound default :: ps =>
    TypeExpr.annotated? bound && TypeExpr.annotated? default && TypeParam.allAnnotated ps

/-- Every parameter with an initializer is annotated. -/
def Param.allAnnotated : List Param → Bool
  | [] => true
  | .mk _ _ type _ initial :: ps =>
    (type.isSome || initial.isNone) && TypeExpr.annotated? type && Param.allAnnotated ps

/-- A rest parameter with an initializer is annotated. -/
def Param.annotated? : Option Param → Bool
  | none => true
  | some (.mk _ _ type _ initial) =>
    (type.isSome || initial.isNone) && TypeExpr.annotated? type

end

/-- An action that may be missing gives a result. -/
def ReturnsIfAny (action : Option (Check Ty)) : Prop := ∀ work, action = some work → Returns work

/-- The type of a parameter is found without its initializer. -/
structure ParamPart.Returns (p : ParamPart) : Prop where
  written : ReturnsIfAny p.written
  annotated : p.written = none → p.initial = none

/-- The types of a signature are found without an initializer. -/
structure SignaturePart.Returns (s : SignaturePart) : Prop where
  typeParams : ∀ p ∈ s.typeParams, ReturnsIfAny p.bound ∧ ReturnsIfAny p.default
  params : ∀ p ∈ s.params, p.Returns
  rest : ∀ p, s.rest = some p → p.Returns
  receiver : ReturnsIfAny s.receiver
  result : ReturnsIfAny s.result

namespace Meaning

@[grind ←]
theorem returns_refuseArguments (position : Position) (arguments : List Ty) :
    Returns (refuseArguments position arguments) := by
  unfold refuseArguments
  grind

@[grind ←]
theorem returns_onlyArgument {position : Position} {arguments : List Ty} {make : Ty → Check Ty}
    (h : ∀ t, Returns (make t)) : Returns (onlyArgument position arguments make) := by
  unfold onlyArgument
  grind

/-- A name is a built-in type, a declared one or a member of an enum. -/
@[grind ←]
theorem returns_reference (position : Position) (name : String) (arguments : List Ty) :
    Returns (reference position name arguments) := by
  have hbuiltin : Returns (builtin position name arguments) := by
    unfold builtin
    grind
  have hdeclared (decl : TypeName) : Returns (declared position name decl arguments) := by
    unfold declared
    grind
  have hmember (enum member : String) : Returns (enumMember position enum member) := by
    unfold enumMember
    grind
  unfold reference
  grind

@[grind ←]
theorem returns_literal (position : Position) (l : LiteralSpelling) :
    Returns (literal position l) := by
  unfold literal bigint
  grind

theorem returns_optional {action : Option (Check Ty)} (h : ReturnsIfAny action) :
    Returns (optional action) := by
  unfold optional
  unfold ReturnsIfAny at h
  grind

theorem returns_declareTypeVars {parts : List TypeParamPart}
    (h : ∀ p ∈ parts, ReturnsIfAny p.bound ∧ ReturnsIfAny p.default) :
    Returns (declareTypeVars parts) := by
  have hmake (ps : List TypeParamPart) (done : List (String × TypeVar)) :
      Returns (makeTypeVars ps done) := by
    induction ps generalizing done with
    | nil => exact returns_pure done
    | cons p ps ih =>
      unfold makeTypeVars
      grind
  have hcomplete (p : TypeParamPart) (v : TypeVar)
      (hp : ReturnsIfAny p.bound ∧ ReturnsIfAny p.default) : Returns (completeTypeVar p v) := by
    unfold completeTypeVar
    unfold ReturnsIfAny at hp
    grind
  have hzip (vs : List TypeVar) : ∀ q ∈ parts.zip vs, q.1 ∈ parts := fun q hq =>
    (List.of_mem_zip hq).1
  unfold declareTypeVars
  grind

/-- Where there is an initializer there is an annotation, which is taken. -/
theorem returns_parameterType {p : ParamPart} (expected : Option Ty) (h : p.Returns) :
    Returns (parameterType p expected) := by
  obtain ⟨hwritten, hinitial⟩ := h
  unfold parameterType
  unfold ReturnsIfAny at hwritten
  grind

theorem returns_signature {s : SignaturePart} (expected : Option Callable) (h : s.Returns) :
    Returns (signature s expected) := by
  obtain ⟨htypeParams, hparams, hrest, hreceiver, hresult⟩ := h
  have hexpected (i : Nat) : Returns (expectedAt expected i) := by
    unfold expectedAt
    grind
  have hparameters (i : Nat) (ps : List ParamPart) (hps : ∀ p ∈ ps, p.Returns) :
      Returns (parameters expected i ps) := by
    induction ps generalizing i with
    | nil => exact returns_pure []
    | cons p ps ih =>
      have hp := fun t => returns_parameterType t (hps p List.mem_cons_self)
      have hrest := fun i => ih i fun q hq => hps q (List.mem_cons_of_mem _ hq)
      unfold parameters
      grind
  have hrestParameter : Returns (restParameter expected s.rest) := by
    cases hs : s.rest with
    | none => exact returns_pure none
    | some p =>
      have hp := fun t => returns_parameterType t (hrest p hs)
      unfold restParameter
      grind
  have hvars := returns_declareTypeVars htypeParams
  have hreceiver := returns_optional hreceiver
  have hresult := returns_optional hresult
  have hps := hparameters 0 s.params hparams
  unfold signature callable
  refine returns_bind (returns_bind hvars fun vars => returns_withTypeVars (returns_inFrame ?_))
    fun c => returns_interning _
  exact returns_bind hps fun _ => returns_bind hrestParameter fun _ =>
    returns_bind hreceiver fun _ => returns_bind hresult fun _ => returns_pure _

end Meaning

namespace Walk

variable {settle : String → Check Unit}

theorem not_isSome_of_optionalType {t : Option TypeExpr} (h : optionalType settle t = none) :
    ¬t.isSome := by
  cases t with
  | none => simp
  | some t => cases h

theorem initialPart_eq_none {e : Option Expr} (h : e.isNone) : initialPart settle e = none := by
  cases e with
  | none => rfl
  | some e => cases h

mutual

/-- A written type has a meaning. -/
theorem returns_typeOf : ∀ t : TypeExpr, t.annotated → Returns (typeOf settle t)
  | .reference _ _ arguments, h => by
    unfold TypeExpr.annotated at h
    have := returns_typesOf arguments h
    unfold typeOf
    grind
  | .literal .., _ => by
    unfold typeOf
    grind
  | .union _ ms, h | .intersection _ ms, h => by
    unfold TypeExpr.annotated at h
    have := returns_typesOf ms h
    unfold typeOf
    grind
  | .array _ element _, h => by
    unfold TypeExpr.annotated at h
    have := returns_typeOf element h
    unfold typeOf
    grind
  | .tuple _ slots rest _, h => by
    unfold TypeExpr.annotated at h
    rw [Bool.and_eq_true] at h
    have := returns_slotsOf slots h.1
    have := Meaning.returns_optional (returns_optionalType rest h.2)
    unfold typeOf
    grind
  | .object _ members, h => by
    unfold TypeExpr.annotated at h
    have := returns_membersOf members h
    unfold typeOf
    grind
  | .function s, h => by
    unfold TypeExpr.annotated at h
    unfold typeOf
    exact Meaning.returns_signature none (returns_signature s h)

theorem returns_typesOf : ∀ ts : List TypeExpr, TypeExpr.allAnnotated ts →
    Returns (typesOf settle ts)
  | [], _ => returns_pure []
  | t :: ts, h => by
    unfold TypeExpr.allAnnotated at h
    rw [Bool.and_eq_true] at h
    have := returns_typeOf t h.1
    have := returns_typesOf ts h.2
    unfold typesOf
    grind

theorem returns_optionalType : ∀ t : Option TypeExpr, TypeExpr.annotated? t →
    ReturnsIfAny (optionalType settle t)
  | none, _ => fun _ h => nomatch h
  | some t, h => by
    unfold TypeExpr.annotated? at h
    exact fun _ hwork => Option.some.inj hwork ▸ returns_typeOf t h

theorem returns_slotsOf : ∀ ss : List TupleSlot, TupleSlot.allAnnotated ss →
    Returns (slotsOf settle ss)
  | [], _ => returns_pure []
  | .mk t _ :: ss, h => by
    unfold TupleSlot.allAnnotated at h
    rw [Bool.and_eq_true] at h
    have := returns_typeOf t h.1
    have := returns_slotsOf ss h.2
    unfold slotsOf
    grind

theorem returns_membersOf : ∀ m : MemberList, m.annotated → Returns (membersOf settle m)
  | .mk properties index calls, h => by
    unfold MemberList.annotated at h
    rw [Bool.and_eq_true, Bool.and_eq_true] at h
    have := returns_fieldsOf properties h.1.1
    have := returns_indexOf index h.1.2
    have := returns_callsOf calls h.2
    unfold membersOf
    grind

theorem returns_fieldsOf : ∀ ps : List PropertySpec, PropertySpec.allAnnotated ps →
    Returns (fieldsOf settle ps)
  | [], _ => returns_pure []
  | .mk _ _ t _ _ :: ps, h => by
    unfold PropertySpec.allAnnotated at h
    rw [Bool.and_eq_true] at h
    have := returns_typeOf t h.1
    have := returns_fieldsOf ps h.2
    unfold fieldsOf
    grind

theorem returns_indexOf : ∀ i : Option IndexSpec, IndexSpec.annotated? i →
    Returns (indexOf settle i)
  | none, _ => returns_pure none
  | some (.mk _ _ t), h => by
    unfold IndexSpec.annotated? at h
    have := returns_typeOf t h
    unfold indexOf
    grind

theorem returns_callsOf : ∀ ss : List Signature, Signature.allAnnotated ss →
    Returns (callsOf settle ss)
  | [], _ => returns_pure []
  | s :: ss, h => by
    unfold Signature.allAnnotated at h
    rw [Bool.and_eq_true] at h
    have := Meaning.returns_signature none (returns_signature s h.1)
    have := returns_callsOf ss h.2
    unfold callsOf
    grind

theorem returns_signature : ∀ s : Signature, s.annotated → (signature settle s).Returns
  | .mk _ tps ps rest receiver result, h => by
    unfold Signature.annotated at h
    simp only [Bool.and_eq_true] at h
    obtain ⟨⟨⟨⟨htps, hps⟩, hrest⟩, hreceiver⟩, hresult⟩ := h
    exact ⟨returns_typeParams tps htps, returns_params ps hps, returns_restParam rest hrest,
      returns_optionalType receiver hreceiver, returns_optionalType result hresult⟩

theorem returns_typeParams : ∀ ps : List TypeParam, TypeParam.allAnnotated ps →
    ∀ p ∈ typeParams settle ps, ReturnsIfAny p.bound ∧ ReturnsIfAny p.default
  | [], _ => fun _ h => nomatch h
  | .mk _ _ bound default :: ps, h => by
    unfold TypeParam.allAnnotated at h
    simp only [Bool.and_eq_true] at h
    intro p hp
    unfold typeParams at hp
    rcases List.mem_cons.1 hp with rfl | hp
    · exact ⟨returns_optionalType bound h.1.1, returns_optionalType default h.1.2⟩
    · exact returns_typeParams ps h.2 p hp

theorem returns_params : ∀ ps : List Param, Param.allAnnotated ps →
    ∀ p ∈ params settle ps, p.Returns
  | [], _ => fun _ h => nomatch h
  | .mk _ _ type _ initial :: ps, h => by
    unfold Param.allAnnotated at h
    simp only [Bool.and_eq_true, Bool.or_eq_true] at h
    intro p hp
    unfold params at hp
    rcases List.mem_cons.1 hp with rfl | hp
    · refine ⟨returns_optionalType type h.1.2, fun hnone => ?_⟩
      exact initialPart_eq_none (h.1.1.resolve_left (not_isSome_of_optionalType hnone))
    · exact returns_params ps h.2 p hp

theorem returns_restParam : ∀ p : Option Param, Param.annotated? p →
    ∀ q, restParam settle p = some q → q.Returns
  | none, _ => fun _ h => nomatch h
  | some (.mk _ _ type _ initial), h => by
    unfold Param.annotated? at h
    simp only [Bool.and_eq_true, Bool.or_eq_true] at h
    intro q hq
    unfold restParam at hq
    cases hq
    refine ⟨returns_optionalType type h.2, fun hnone => ?_⟩
    exact initialPart_eq_none (h.1.resolve_left (not_isSome_of_optionalType hnone))

end

end Walk

/-! ## Declarations -/

/-- Every parameter with an initializer is annotated. -/
def AliasDecl.annotated (d : AliasDecl) : Bool :=
  TypeParam.allAnnotated d.typeParams && d.type.annotated

/-- Every parameter with an initializer is annotated. -/
def InterfaceDecl.annotated (d : InterfaceDecl) : Bool :=
  TypeParam.allAnnotated d.typeParams && TypeExpr.allAnnotated d.bases && d.members.annotated

/-- Every field and every parameter with an initializer is annotated. -/
def ClassDecl.annotated (d : ClassDecl) : Bool :=
  TypeParam.allAnnotated d.typeParams &&
    d.base.all (fun ref => TypeExpr.allAnnotated ref.arguments) &&
    d.fields.all (fun f => f.type.isSome && TypeExpr.annotated? f.type) &&
    d.construction.all (fun c => c.signature.annotated) &&
    d.methods.all (fun m => m.signature.annotated)

/-- Every field and every parameter with an initializer is annotated, if the declaration is one of a
type. -/
def Declaration.annotated : Declaration → Bool
  | .alias d => d.annotated
  | .interface d => d.annotated
  | .classDecl d => d.annotated
  | _ => true

theorem Enum.returns_register (d : EnumDecl) : Returns (Enum.register d) := by
  have hnumber (known : Known) (next : Option Binary64) (ms : List EnumMember) :
      Returns (number known next ms) := by
    induction ms generalizing known next with
    | nil => exact returns_pure _
    | cons m ms ih =>
      unfold number
      grind
  unfold register
  refine returns_bind returns_session fun s => returns_bind (hnumber _ _ _) fun values => ?_
  refine returns_bind (returns_mapM fun v _ => by grind) fun members => ?_
  grind

@[grind ←]
theorem returns_defineAlias (position : Position) (name : String) (params : List TypeVar)
    (target : Ty) : Returns (defineAlias position name params target) := by
  unfold defineAlias
  grind

section Types

variable {settle : String → Check Unit}

theorem returns_registerAlias {d : AliasDecl} (h : d.annotated) :
    Returns (registerAlias settle d) := by
  unfold AliasDecl.annotated at h
  rw [Bool.and_eq_true] at h
  have hvars : Returns (Meaning.declareTypeVars (Walk.typeParams settle d.typeParams)) :=
    Meaning.returns_declareTypeVars (Walk.returns_typeParams _ h.1)
  have htarget : Returns (Walk.typeOf settle d.type) := Walk.returns_typeOf _ h.2
  unfold registerAlias
  grind

namespace Interface

theorem returns_addFields {ps : List PropertySpec} (unit : Nat) (c : Collected)
    (h : PropertySpec.allAnnotated ps) : Returns (addFields settle unit ps c) := by
  induction ps generalizing c with
  | nil => exact returns_pure c
  | cons p ps ih =>
    obtain ⟨position, name, t, optional, readonly⟩ := p
    unfold PropertySpec.allAnnotated at h
    rw [Bool.and_eq_true] at h
    have htype : Returns (Walk.typeOf settle t) := Walk.returns_typeOf t h.1
    have hadd (f : Field) : Returns (addField unit position f c) := by
      unfold addField
      grind
    unfold addFields
    exact returns_bind htype fun _ => returns_bind (hadd _) fun c => ih c h.2

theorem returns_addIndex {i : Option IndexSpec} (c : Collected) (h : IndexSpec.annotated? i) :
    Returns (addIndex settle i c) := by
  cases i with
  | none => exact returns_pure c
  | some i =>
    obtain ⟨position, key, t⟩ := i
    unfold IndexSpec.annotated? at h
    have htype : Returns (Walk.typeOf settle t) := Walk.returns_typeOf t h
    refine returns_bind htype fun value => ?_
    grind

theorem returns_addDecl (params : List TypeVar) (unit : Nat) (c : Collected)
    (h : d.annotated) : Returns (addDecl settle params unit d c) := by
  obtain ⟨position, name, typeParams, bases, properties, index, calls⟩ := d
  unfold InterfaceDecl.annotated MemberList.annotated at h
  simp only [Bool.and_eq_true] at h
  have hbases : Returns (Walk.typesOf settle bases) := Walk.returns_typesOf bases h.1.2
  have hfields (c : Collected) : Returns (addFields settle unit properties c) :=
    returns_addFields unit c h.2.1.1
  have hindex (c : Collected) : Returns (addIndex settle index c) := returns_addIndex c h.2.1.2
  have hcalls : Returns (Walk.callsOf settle calls) := Walk.returns_callsOf calls h.2.2
  refine returns_inUnit ?_
  split
  · grind
  · exact returns_withTypeVars (returns_bind hbases fun _ => returns_bind (hfields _) fun _ =>
      returns_bind (hindex _) fun _ => returns_bind hcalls fun _ => returns_pure _)

/-- An interface, with all its declarations. -/
theorem returns_register {g : Group} (h : ∀ p ∈ g.decls, p.2.annotated) :
    Returns (register settle g) := by
  have hdecls (params : List TypeVar) (ds : List (Nat × InterfaceDecl)) (c : Collected)
      (hds : ∀ p ∈ ds, p.2.annotated) : Returns (addDecls settle params ds c) := by
    induction ds generalizing c with
    | nil => exact returns_pure c
    | cons d ds ih =>
      exact returns_bind (returns_addDecl _ _ _ (hds d List.mem_cons_self)) fun c =>
        ih c fun p hp => hds p (List.mem_cons_of_mem _ hp)
  unfold register
  split
  · exact returns_pure ()
  · next unit first rest hg =>
    have hfirst := h (unit, first) (hg ▸ List.mem_cons_self)
    unfold InterfaceDecl.annotated at hfirst
    simp only [Bool.and_eq_true] at hfirst
    refine returns_inUnit (returns_bind (Meaning.returns_declareTypeVars
      (Walk.returns_typeParams _ hfirst.1.1)) fun vars => ?_)
    refine returns_bind (hdecls _ _ _ h) fun c => ?_
    grind

theorem forall_addTo {P : Nat × InterfaceDecl → Prop} {gs : List Group}
    (hgs : ∀ g ∈ gs, ∀ p ∈ g.decls, P p) (hd : P (unit, d)) :
    ∀ g ∈ addTo gs unit d, ∀ p ∈ g.decls, P p := by
  intro g hg p hp
  unfold addTo at hg
  split at hg
  · obtain ⟨g', hg', rfl⟩ := List.mem_map.mp hg
    split at hp
    · rcases List.mem_append.mp hp with hp | hp
      · exact hgs g' hg' p hp
      · exact List.mem_singleton.mp hp ▸ hd
    · exact hgs g' hg' p hp
  · rcases List.mem_append.mp hg with hg | hg
    · exact hgs g hg p hp
    · cases List.mem_singleton.mp hg
      exact List.mem_singleton.mp hp ▸ hd

/-- A group has declarations of the program only. -/
theorem mem_of_mem_groups {g : Group} {all : List (Nat × Declaration)} (hg : g ∈ groups all)
    {p : Nat × InterfaceDecl} (hp : p ∈ g.decls) : (p.1, .interface p.2) ∈ all := by
  have hall : ∀ g ∈ groups all, ∀ p ∈ g.decls, (p.1, Declaration.interface p.2) ∈ all := by
    unfold groups
    refine List.foldlRecOn all _ (motive := fun gs : List Group =>
      ∀ g ∈ gs, ∀ p ∈ g.decls, (p.1, Declaration.interface p.2) ∈ all) (by simp) ?_
    rintro gs hgs ⟨unit, d⟩ hu
    cases d with
    | interface d => exact forall_addTo hgs hu
    | _ => exact hgs
  exact hall g hg p hp

end Interface

namespace Class

theorem returns_ownFields {fs : List ClassField} (done : List Field)
    (h : fs.all fun f => f.type.isSome && TypeExpr.annotated? f.type) :
    Returns (ownFields settle fs done) := by
  induction fs generalizing done with
  | nil => exact returns_pure done
  | cons f fs ih =>
    rw [List.all_cons, Bool.and_eq_true, Bool.and_eq_true] at h
    obtain ⟨t, ht⟩ := Option.isSome_iff_exists.mp h.1.1
    have htype : Returns (fieldType settle f) := by
      have hannotated := h.1.2
      rw [ht, TypeExpr.annotated?] at hannotated
      unfold fieldType
      rw [ht]
      exact Walk.returns_typeOf t hannotated
    have := fun done => ih done h.2
    unfold ownFields
    grind

theorem returns_ownMethods {ms : List FunctionDecl} (done : List Field) (abstracts : List String)
    (h : ms.all fun m => m.signature.annotated) :
    Returns (ownMethods settle ms done abstracts) := by
  induction ms generalizing done abstracts with
  | nil => exact returns_pure _
  | cons m ms ih =>
    rw [List.all_cons, Bool.and_eq_true] at h
    have hsignature : Returns (Meaning.signature (Walk.signature settle m.signature) none) :=
      Meaning.returns_signature none (Walk.returns_signature _ h.1)
    have htype : Returns (methodType settle m) := by
      unfold methodType
      grind
    have := fun done abstracts => ih done abstracts h.2
    unfold ownMethods
    grind

theorem returns_inherit {ref : BaseRef} (base : ClassInfo)
    (h : TypeExpr.allAnnotated ref.arguments) : Returns (inherit settle ref base) := by
  have hbind (vars : List TypeVar) (ts : List Ty) (subs : Substitution) :
      Returns (bindBase vars ts subs) := by
    fun_induction bindBase vars ts subs with
    | case1 => exact returns_pure _
    | case2 _ _ _ _ _ ih => exact ih
    | case3 subs v vars ih => grind
  have htypes : Returns (Walk.typesOf settle ref.arguments) := Walk.returns_typesOf _ h
  unfold inherit baseBindings
  grind

theorem returns_constructorSignature {d : ClassDecl} (inherited : Option Inherited)
    (h : d.construction.all fun c => c.signature.annotated) :
    Returns (constructorSignature settle d inherited) := by
  unfold constructorSignature
  cases hc : d.construction with
  | some c =>
    rw [hc] at h
    have hparts : (Walk.signature settle c.signature).Returns := Walk.returns_signature _ h
    have hsignature := Meaning.returns_signature none
      (s := { Walk.signature settle c.signature with receiver := none, result := none })
      { hparts with receiver := (fun _ h => nomatch h), result := (fun _ h => nomatch h) }
    grind
  | none => grind

/-- A class, once its base is looked for. -/
theorem returns_build {d : ClassDecl} {findBase : BaseRef → Check (Option ClassInfo)} (unit : Nat)
    (h : d.annotated) (hbase : ∀ ref, Returns (findBase ref)) :
    Returns (build settle unit d findBase) := by
  unfold ClassDecl.annotated at h
  simp only [Bool.and_eq_true] at h
  obtain ⟨⟨⟨⟨hparams, href⟩, hfields⟩, hconstruction⟩, hmethods⟩ := h
  have hinherited : Returns (inherited? settle d findBase) := by
    unfold inherited?
    cases hd : d.base with
    | none => exact returns_pure none
    | some ref =>
      rw [hd] at href
      have hinherit (base : ClassInfo) : Returns (inherit settle ref base) :=
        returns_inherit base href
      grind
  unfold build
  refine returns_bind (Meaning.returns_declareTypeVars (Walk.returns_typeParams _ hparams))
    fun vars => returns_withTypeVars ?_
  refine returns_bind (returns_mapM fun v _ => returns_interning _) fun arguments => ?_
  refine returns_bind (returns_interning _) fun reference => ?_
  refine returns_bind (returns_define _ _ _) fun _ => returns_bind hinherited fun inherited => ?_
  refine returns_bind (returns_ownFields _ hfields) fun fields => ?_
  refine returns_bind (returns_ownMethods _ _ hmethods) fun own => ?_
  refine returns_bind returns_table fun T => returns_bind (returns_interning _) fun _ => ?_
  refine returns_bind (returns_constructorSignature _ hconstruction) fun c => ?_
  refine returns_bind (returns_interning _) fun type => returns_bind ?_ fun _ => returns_pure _
  unfold declare
  grind

/-- The chain of bases is followed so many steps at most. -/
theorem returns_registerAt
    (h : ∀ (u : Nat) (d : ClassDecl), units[u]? = some (.classDecl d) → d.annotated) (n u : Nat) :
    Returns (registerAt settle units n u) := by
  induction n generalizing u with
  | zero => exact returns_pure none
  | succ n ih =>
    have hfind (ref : BaseRef) : Returns (findBase (registerAt settle units n) ref) := by
      unfold findBase
      grind
    unfold registerAt
    split
    · next d hd =>
      have hbuild : Returns (build settle u d (findBase (registerAt settle units n))) :=
        returns_build u (h u d hd) hfind
      have honce : Returns (buildOnce settle (registerAt settle units n) u d) := by
        refine returns_inUnit (returns_bind returns_session fun s => ?_)
        split
        · grind
        · exact returns_bind (returns_update _) fun _ => returns_bind hbuild fun _ =>
            returns_bind (returns_update _) fun _ => returns_pure _
      unfold registered?
      grind
    · exact returns_pure none

end Class

end Types

namespace Pass

/-- **The types of an annotated program are always defined.** -/
theorem returns_defineTypes (h : ∀ (u : Nat) (d : Declaration), units[u]? = some d → d.annotated) :
    Returns (defineTypes units) := by
  have hname (unit : Nat) (position : Position) (name : String) (kind : NameKind)
      (params : List TypeParam) : Returns (declareName unit position name kind params) := by
    unfold declareName Function.reportIn
    grind
  have hunits (groups : List Interface.Group) (ps : List (Nat × Declaration)) :
      Returns (declareUnits groups ps) := by
    induction ps with
    | nil => exact returns_pure []
    | cons p ps ih =>
      have hunit : Returns (declareUnit groups p.1 p.2) := by
        unfold declareUnit
        grind
      unfold declareUnits
      grind
  have hclass (name : String) (t : Ty) (params : List Parameter) :
      Returns (Prelude.declareClass name t params) := by
    unfold Prelude.declareClass
    grind
  have hprelude : Returns Prelude.declare := by
    unfold Prelude.declare
    grind
  have henum (p : Nat × Declaration) : Returns (defineEnum p.1 p.2) := by
    unfold defineEnum
    split
    · exact returns_inUnit (Enum.returns_register _)
    · exact returns_pure ()
  -- What is defined after the names are reserved is declared in the program.
  intro w s
  obtain ⟨reserved, s1, h1⟩ := hunits _ _ w s
  have hsub := (declareUnits_spec h1 (nodup_zipIdx_swap units)).2.1
  have hdeclared {p : Nat × Declaration} (hp : p ∈ reserved) : p.2.annotated :=
    h p.1 p.2 (mem_zipIdx_swap.mp (hsub hp))
  refine (?_ : ∃ a s', _ = some (a, s')).imp fun a => .imp fun s' hrest =>
    bind_eq_some.2 ⟨reserved, s1, h1, hrest⟩
  refine returns_bind hprelude (fun _ => ?_) w s1
  refine returns_bind (returns_forM fun p _ => henum p) fun _ => ?_
  refine returns_bind (returns_forM fun p hp => ?_) fun _ => returns_forM fun p hp => ?_
  · have hd := hdeclared hp
    obtain ⟨unit, d⟩ := p
    cases d with
    | «alias» d => exact returns_inUnit (returns_registerAlias hd)
    | interface d =>
      dsimp only
      rw [defineAliasOrInterface]
      cases hg : List.find? (fun g : Interface.Group => g.name = d.name) _ with
      | none => exact returns_pure ()
      | some g =>
        refine Interface.returns_register fun q hq => ?_
        have hmem := Interface.mem_of_mem_groups (List.mem_of_find?_eq_some hg) hq
        exact h q.1 (.interface q.2) (mem_zipIdx_swap.mp hmem)
    | _ => exact returns_pure ()
  · obtain ⟨unit, d⟩ := p
    cases d with
    | classDecl d =>
      exact returns_bind (Class.returns_registerAt (fun u d hd => h u _ hd) _ _) fun _ =>
        returns_pure ()
    | _ => exact returns_pure ()

end Pass

end ShapeCheck
