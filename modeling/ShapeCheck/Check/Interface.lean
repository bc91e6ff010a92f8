import ShapeCheck.Check.Expression

/-!
# Alias and interface declarations

An alias names a type. All interface declarations of one name make one shape: each adds its members,
a property declared twice has to have one type, and the types that they extend are met with the
shape.

* `Interface.groups` collects the declarations of each name.
* `Interface.register` defines the shape of such a group.
-/

namespace ShapeCheck

open Check

/-- Defines an alias, or reports why it cannot be defined. -/
def defineAlias (position : Position) (name : String) (params : List TypeVar) (target : Ty) :
    Check Unit := do
  match ← Alias.define name params target with
  | .ok () => return ()
  | .error cause => report position (.aliasRefused cause)

/-- Declares an alias. -/
def registerAlias (settle : String → Check Unit) (d : AliasDecl) : Check Unit := do
  let vars ← Meaning.declareTypeVars (Walk.typeParams settle d.typeParams)
  let target ← Meaning.withTypeVars vars (Walk.typeOf settle d.type)
  defineAlias d.position d.name (vars.map Prod.snd) target

namespace Interface

/-- The declarations of one name with their places in the program. -/
structure Group where
  name : String
  decls : List (Nat × InterfaceDecl)
  deriving Inhabited

/-- Adds a declaration to the group of its name. -/
def addTo (groups : List Group) (unit : Nat) (d : InterfaceDecl) : List Group :=
  if groups.any (·.name = d.name) then
    groups.map fun g => if g.name = d.name then { g with decls := g.decls ++ [(unit, d)] } else g
  else groups ++ [⟨d.name, [(unit, d)]⟩]

/-- The interface declarations grouped by name, in the order in which the names first appear. -/
def groups (units : List (Nat × Declaration)) : List Group :=
  units.foldl (fun gs (unit, d) =>
    match d with
    | .interface i => addTo gs unit i
    | _ => gs) []

/-- The members collected so far, each field with the declaration it comes from. -/
structure Collected where
  fields : List (Field × Nat) := []
  index : Option Index := none
  calls : List Ty := []
  bases : List Ty := []
  deriving Inhabited

/-- Adds a property; one that is there already has to have the same type. -/
def addField (unit : Nat) (position : Position) (f : Field) (c : Collected) : Check Collected := do
  match c.fields.find? (·.1.name = f.name) with
  | none => return { c with fields := c.fields ++ [(f, unit)] }
  | some (g, owner) =>
    if g.type ≠ f.type then report position (.propertyTypesDiffer f.name g.type f.type)
    else if owner = unit then report position (.duplicate f.name)
    return c

/-- Adds the properties of a declaration. -/
def addFields (settle : String → Check Unit) (unit : Nat) :
    List PropertySpec → Collected → Check Collected
  | [], c => return c
  | p :: rest, c => do
    let type ← Walk.typeOf settle p.type
    let f : Field := { name := p.name, type, optional := p.optional, readonly := p.readonly }
    addFields settle unit rest (← addField unit p.position f c)

/-- Adds an index signature; it has to agree with the one that is there. -/
def addIndex (settle : String → Check Unit) (spec : Option IndexSpec) (c : Collected) :
    Check Collected := do
  match spec with
  | none => return c
  | some i =>
    let value ← Walk.typeOf settle i.value
    let own : Index := { key := i.key, value }
    match c.index with
    | some old =>
      if old ≠ own then
        report i.position (.duplicateIndex i.key)
        return c
      else return { c with index := some own }
    | none => return { c with index := some own }

/-- Adds what one declaration says, its type parameters standing for the shared ones. -/
def addDecl (settle : String → Check Unit) (params : List TypeVar) (unit : Nat)
    (d : InterfaceDecl) (c : Collected) : Check Collected :=
  inUnit unit do
    if d.typeParams.length ≠ params.length then
      report d.position (.typeParametersDiffer d.name)
      return c
    Meaning.withTypeVars ((d.typeParams.map TypeParam.name).zip params) do
      let bases ← Walk.typesOf settle d.bases
      let c ← addFields settle unit d.members.properties { c with bases := c.bases ++ bases }
      let c ← addIndex settle d.members.index c
      let calls ← Walk.callsOf settle d.members.calls
      return { c with calls := c.calls ++ calls }

/-- Adds what several declarations say. -/
def addDecls (settle : String → Check Unit) (params : List TypeVar) :
    List (Nat × InterfaceDecl) → Collected → Check Collected
  | [], c => return c
  | (unit, d) :: rest, c => do
    addDecls settle params rest (← addDecl settle params unit d c)

/-- Defines the shape of the interfaces of one name. -/
def register (settle : String → Check Unit) (g : Group) : Check Unit := do
  match g.decls with
  | [] => return ()
  | (unit, first) :: _ => inUnit unit do
    let vars ← Meaning.declareTypeVars (Walk.typeParams settle first.typeParams)
    let params := vars.map Prod.snd
    let c ← addDecls settle params g.decls {}
    let own ← Ty.objectOf { fields := c.fields.map Prod.fst, index := c.index, calls := c.calls }
    let target ← if c.bases.isEmpty then pure own else Ty.intersectionOf (c.bases ++ [own])
    defineAlias first.position g.name params target

end Interface

end ShapeCheck
