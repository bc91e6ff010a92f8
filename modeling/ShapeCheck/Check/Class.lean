import ShapeCheck.Check.Interface
import ShapeCheck.Check.Statement

/-!
# Class declarations

A class is a value that makes instances. The shape of an instance is that of the base class with the
fields and methods of the class put over it; the class name is an alias of that shape.

* `Class.register` builds the shape of a class, that of its base first.
* `Class.check` checks overrides, abstract methods, promised interfaces and all bodies of a class.
-/

namespace ShapeCheck.Class

open Check

section Registration

variable (settle : String → Check Unit)

/-- The type of a field: its annotation, or else the type of its value, widened unless the field is
readonly. -/
def fieldType (f : ClassField) : Check Ty := do
  match f.type, f.value with
  | some t, _ => Walk.typeOf settle t
  | none, some e =>
    let t ← speculate (Walk.check settle e none)
    if f.readonly then return t else t.deepWiden
  | none, none =>
    if (← walker).options.noImplicitAny then report f.position (.implicitAny f.name)
    return .any

/-- The type of a method; without a written result it gives `any`. -/
def methodType (m : FunctionDecl) : Check Ty := do
  let fn ← Meaning.signature (Walk.signature settle m.signature) none
  match m.signature.result, (← table).callable? fn with
  | none, some c => Ty.functionOf { c with result := .any }
  | _, _ => return fn

/-- The fields that a class declares. -/
def ownFields : List ClassField → List Field → Check (List Field)
  | [], done => return done
  | f :: rest, done => do
    if done.any (·.name = f.name) then
      report f.position (.duplicate f.name)
      ownFields rest done
    else
      let type ← fieldType settle f
      let field : Field := { name := f.name, type, optional := f.optional, readonly := f.readonly }
      ownFields rest (done ++ [field])

/-- The methods that a class declares after its fields, with the names of the abstract ones. -/
def ownMethods : List FunctionDecl → List Field → List String → Check (List Field × List String)
  | [], done, abstracts => return (done, abstracts)
  | m :: rest, done, abstracts => do
    if done.any (·.name = m.name) then
      report m.position (.duplicate m.name)
      ownMethods rest done abstracts
    else
      let type ← methodType settle m
      ownMethods rest (done ++ [{ name := m.name, type }])
        (if m.isAbstract then abstracts ++ [m.name] else abstracts)

/-- The bindings of the type parameters of a base class; a missing argument without a default is
`any`. -/
def bindBase : List TypeVar → List Ty → Substitution → Check Substitution
  | [], _, subs => return subs
  | v :: vars, a :: rest, subs => bindBase vars rest (subs ++ [(v, a)])
  | v :: vars, [], subs => do
    let t ← match ((← table).typeVar v).default with
      | some d => d.substitute subs
      | none => pure .any
    bindBase vars [] (subs ++ [(v, t)])

/-- The bindings that an extends clause gives to the type parameters of the base. -/
def baseBindings (ref : BaseRef) (base : ClassInfo) : Check Substitution := do
  let arguments ← Walk.typesOf settle ref.arguments
  let required := Inference.requiredCount (← table) base.params
  let count := arguments.length
  if count < required || base.params.length < count then
    report ref.position (.arity .typeArguments required (some base.params.length) count)
  bindBase base.params arguments []

/-- The constructor of a class value. -/
def constructorOf (table : Table) (t : Ty) : Callable :=
  match table.shape t with
  | .classValue _ _ fn => (table.callable? fn).getD {}
  | _ => {}

/-- What a class inherits. -/
structure Inherited where
  base : ClassInfo
  bindings : Substitution
  /-- The object type of its instances under these bindings. -/
  shape : Ty
  deriving Inhabited

/-- What a class inherits from a base. -/
def inherit (ref : BaseRef) (base : ClassInfo) : Check Inherited := do
  let bindings ← baseBindings settle ref base
  let shape ← base.instanceType.substitute bindings
  return { base, bindings, shape }

/-- The signature of the constructor: the one written, else the inherited one. -/
def constructorSignature (d : ClassDecl) (inherited : Option Inherited) : Check Callable := do
  match d.construction, inherited with
  | some c, _ =>
    let s := Walk.signature settle c.signature
    let fn ← Meaning.signature { s with receiver := none, result := none } none
    return ((← table).callable? fn).getD {}
  | none, some i =>
    let own := constructorOf (← table) i.base.type
    let fn ← Ty.functionOf (← Ty.substituteCallable own i.bindings)
    return ((← table).callable? fn).getD {}
  | none, none => return {}

/-- The abstract methods that a class leaves open: its own, then the inherited ones that it does not
declare. -/
def openAbstracts (name : String) (own : List Field) (abstracts : List String)
    (inherited : Option Inherited) : List AbstractMethod :=
  let before := (inherited.map fun i => i.base.abstracts).getD []
  abstracts.map (⟨·, name⟩) ++ before.filter fun a => !own.any (·.name = a.name)

/-- What a class inherits, if it extends a class that can be found. -/
def inherited? (d : ClassDecl) (findBase : BaseRef → Check (Option ClassInfo)) :
    Check (Option Inherited) := do
  match d.base with
  | none => return none
  | some ref =>
    match ← findBase ref with
    | none => return none
    | some base => return some (← inherit settle ref base)

/-- The inherited fields. -/
def inheritedFields (table : Table) (inherited : Option Inherited) : List Field :=
  ((inherited.bind fun i => Ty.members? table i.shape).map Members.fields).getD []

/-- Declares a class as an alias of its instances and as a value. -/
def declare (d : ClassDecl) (info : ClassInfo) : Check Unit := do
  defineAlias d.position d.name info.params info.instanceType
  update fun s => { s with classes := (d.name, info) :: s.classes }
  if !(← defineIn globals d.name ⟨info.type, true⟩) then report d.position (.duplicate d.name)

/-- Builds the shape of a class and declares it, given how its base class is found. -/
def build (unit : Nat) (d : ClassDecl) (findBase : BaseRef → Check (Option ClassInfo)) :
    Check ClassInfo := do
  let vars ← Meaning.declareTypeVars (Walk.typeParams settle d.typeParams)
  Meaning.withTypeVars vars do
    let params := vars.map Prod.snd
    let arguments ← params.mapM fun v => (Ty.parameterOf v : Check Ty)
    let reference ← Ty.referenceTo d.name arguments
    let _ ← define "this" reference true
    let inherited ← inherited? settle d findBase
    let fields ← ownFields settle d.fields []
    let (own, abstracts) ← ownMethods settle d.methods fields []
    let instanceType ← Ty.objectOf { fields := inheritedFields (← table) inherited ++ own }
    let c ← constructorSignature settle d inherited
    let type ← Ty.classOf d.name instanceType
      { c with typeParams := params ++ c.typeParams, result := reference }
    let info : ClassInfo :=
      { type, reference, instanceType, unit := some unit, isAbstract := d.isAbstract, params
        base := inherited.map Inherited.shape
        abstracts := openAbstracts d.name own abstracts inherited }
    declare d info
    return info

/-- The class that an extends clause names, given how a declared class is registered. -/
def findBase (registerUnit : Nat → Check (Option ClassInfo)) (ref : BaseRef) :
    Check (Option ClassInfo) := do
  match (← session).names.lookup ref.name with
  | none =>
    report ref.position (.unresolved ref.name)
    return none
  | some { kind := .classDecl, unit := some unit, .. } => registerUnit unit
  | some decl =>
    match (← session).classes.lookup ref.name with
    | some info => return some info
    | none =>
      report ref.position (.baseNotClass ref.name decl.kind)
      return none

/-- The class registered from the declaration at a place. -/
def registered? (unit : Nat) (name : String) : Check (Option ClassInfo) := do
  return ((← session).classes.lookup name).filter fun info => info.unit = some unit

/-- Builds a class unless it is being built already, which means that it is its own base. -/
def buildOnce (registerUnit : Nat → Check (Option ClassInfo)) (unit : Nat) (d : ClassDecl) :
    Check (Option ClassInfo) :=
  inUnit unit do
    if (← session).registering.contains unit then
      report d.position (.circularBase d.name)
      return none
    update fun s => { s with registering := unit :: s.registering }
    let info ← build settle unit d (findBase registerUnit)
    update fun s => { s with registering := s.registering.erase unit }
    return some info

/-- Registers the class declared at a place, its base first, along a chain of at most so many
bases. -/
def registerAt (units : Array Declaration) : Nat → Nat → Check (Option ClassInfo)
  | 0, _ => return none
  | n + 1, unit => do
    match units[unit]? with
    | some (.classDecl d) =>
      match ← registered? unit d.name with
      | some info => return some info
      | none => buildOnce settle (registerAt units n) unit d
    | _ => return none

/-- Registers the class declared at a place. A chain of bases that does not come back to itself has
at most as many classes as the program has declarations. -/
def register (units : Array Declaration) (unit : Nat) : Check Unit := do
  let _ ← registerAt settle units (units.size + 2) unit

end Registration

section Bodies

variable (settle : String → Check Unit)

/-- Reports a member that does not fit the inherited one it replaces. -/
def checkOverride (name : String) (info : ClassInfo) (position : Position) (member : String) :
    Check Unit := do
  let table ← table
  let field (t : Ty) := (Ty.members? table t).bind (·.field? member)
  match info.base.bind field, field info.instanceType with
  | some inherited, some own =>
    if !(← own.type.isAssignableTo inherited.type) then
      report position (.unassignable own.type inherited.type (.overriding name))
  | _, _ => return ()

/-- Reports fields and methods that do not fit what they replace. -/
def checkOverrides (d : ClassDecl) (info : ClassInfo) : Check Unit := do
  d.fields.forM fun f => checkOverride d.name info f.position f.name
  d.methods.forM fun m => checkOverride d.name info m.position m.name

/-- Reports an abstract method that a concrete class leaves open. -/
def reportAbstract (d : ClassDecl) (a : AbstractMethod) : Check Unit :=
  if a.owner = d.name then report d.position (.abstractInConcrete a.name)
  else report d.position (.abstractNotImplemented d.name a.name a.owner)

/-- Reports abstract methods with bodies, and those that a concrete class leaves open. -/
def checkAbstracts (d : ClassDecl) (info : ClassInfo) : Check Unit := do
  d.methods.forM fun m => do
    if m.isAbstract && m.body.isSome then report m.position (.abstractWithBody m.name)
  if !d.isAbstract then info.abstracts.forM (reportAbstract d)

/-- Reports an interface that the class promises to fit and does not. -/
def checkPromise (d : ClassDecl) (info : ClassInfo) (promised : TypeExpr) : Check Unit := do
  let target ← Walk.typeOf settle promised
  let _ ← fits promised.position info.reference target (.implementing d.name)

/-- Checks the initializer of a field. -/
def checkField (shape : Members) (f : ClassField) : Check Unit := do
  match f.value, shape.field? f.name with
  | some e, some field =>
    let t ← Walk.check settle e (some field.type)
    let _ ← fits e.position t field.type .assignment
  | _, _ => return ()

/-- Checks the body of the constructor. -/
def checkConstructor (d : ClassDecl) (info : ClassInfo) : Check Unit := do
  match d.construction with
  | some c =>
    if c.body.isSome then
      let own := constructorOf (← table) info.type
      let fn ← Ty.functionOf { own with receiver := none, result := .void }
      let type := ((← table).callable? fn).getD {}
      let _ ← Body.check { Walk.bodyOf settle c type true with isConstructor := true }
  | none => return ()

/-- Checks the body of a method. -/
def checkMethod (shape : Members) (m : FunctionDecl) : Check Unit := do
  match shape.field? m.name with
  | some field =>
    match m.body, (← table).callable? field.type with
    | some _, some c =>
      let _ ← Body.check (Walk.bodyOf settle m c m.signature.result.isSome)
    | _, _ => return ()
  | none => return ()

/-- Checks everything inside a class. -/
def checkInside (d : ClassDecl) (info : ClassInfo) : Check Unit := do
  checkOverrides d info
  checkAbstracts d info
  d.implementing.forM (checkPromise settle d info)
  let _ ← define "this" info.reference true
  let shape := (Ty.members? (← table) info.instanceType).getD {}
  d.fields.forM (checkField settle shape)
  checkConstructor settle d info
  d.methods.forM (checkMethod settle shape)

/-- Checks the class declared at a place. -/
def check (unit : Nat) (d : ClassDecl) : Check Unit := do
  match ← registered? unit d.name with
  | none => return ()
  | some info =>
    let vars := Body.namedTypeVars (← table) { typeParams := info.params }
    Meaning.withTypeVars vars (checkInside settle d info)

end Bodies

end ShapeCheck.Class
