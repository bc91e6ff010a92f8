import ShapeCheck.Ty

/-!
# Environments

An environment is a stack of frames that declare values and narrow their types, perhaps inside an
outer environment. Several environments can stand inside one outer environment and see its changes,
so they live together in a store, and an environment is known by its place there.

* `Scopes.visible` lists the frames that an environment sees, innermost first.
* `Scopes.lookup` is the type of a name as narrowed, `Scopes.value?` its declaration.
* `Scopes.enter` and `Scopes.exit` open and close a frame; `Scopes.define`, `Scopes.bind` and
  `Scopes.redefine` change frames.
-/

namespace ShapeCheck

/-- A declared value. -/
structure ValueDecl where
  type : Ty
  isConst : Bool
  deriving DecidableEq, Repr, Inhabited

/-- Types by name, the latest first. -/
abbrev Bindings := List (String × Ty)

namespace Bindings

/-- The bindings with one name bound to a type, in the place it had before if it had one. -/
def put (b : Bindings) (name : String) (t : Ty) : Bindings :=
  if b.any (·.1 = name) then b.map fun (n, u) => if n = name then (n, t) else (n, u)
  else b ++ [(name, t)]

/-- The first bindings overridden by the second. -/
def override (a b : Bindings) : Bindings := b.foldl (fun done (name, t) => done.put name t) a

end Bindings

/-- One frame of an environment. -/
structure Frame where
  values : List (String × ValueDecl) := []
  /-- The types to which names are narrowed in it. -/
  narrowings : Bindings := []
  deriving Inhabited

namespace Frame

/-- The type that a frame gives a name: narrowed if it narrows it, else declared. -/
def lookup (f : Frame) (name : String) : Option Ty :=
  match f.narrowings.lookup name with
  | some t => some t
  | none => (f.values.lookup name).map ValueDecl.type

/-- The frame with a value declared. -/
def declare (f : Frame) (name : String) (s : ValueDecl) : Frame :=
  { f with values := f.values ++ [(name, s)] }

/-- The frame with a name narrowed. -/
def narrow (f : Frame) (name : String) (t : Ty) : Frame :=
  { f with narrowings := f.narrowings.put name t }

/-- The frame with another type for a declared name. -/
def retype (f : Frame) (name : String) (t : Ty) : Frame :=
  { f with
    values := f.values.map fun (n, s) => if n = name then (n, { s with type := t }) else (n, s) }

/-- Whether the frame declares the name. -/
def declares (f : Frame) (name : String) : Bool := (f.values.lookup name).isSome

end Frame

/-- An environment. -/
structure Environment where
  /-- The frames, innermost first; there is always one. -/
  frames : List Frame := [{}]
  /-- The environment around it, one made before. -/
  outer : Option Nat := none
  deriving Inhabited

/-- The environments of a pass. -/
structure Scopes where
  /-- The environments in the order in which they were made. -/
  environments : Array Environment := #[]
  deriving Inhabited

namespace Scopes

/-- A new environment inside another one. -/
def add (s : Scopes) (outer : Option Nat) : Nat × Scopes :=
  (s.environments.size, { s with environments := s.environments.push { outer } })

/-- The environments that one sees, itself first, followed outwards at most so far. -/
def chainAt (s : Scopes) : Nat → Nat → List Nat
  | 0, _ => []
  | n + 1, e => e :: match (s.environments[e]?).bind Environment.outer with
    | some o => s.chainAt n o
    | none => []

/-- The environments that one sees, itself first. An outer one is made before its inner ones. -/
def chain (s : Scopes) (e : Nat) : List Nat := s.chainAt (e + 1) e

/-- The frames of one environment. -/
def framesOf (s : Scopes) (e : Nat) : List Frame :=
  ((s.environments[e]?).map Environment.frames).getD []

/-- The frames that an environment sees, innermost first. -/
def visible (s : Scopes) (e : Nat) : List Frame := (s.chain e).flatMap s.framesOf

/-- The type of a name: narrowed or declared, whichever stands further in. -/
def lookup (s : Scopes) (e : Nat) (name : String) : Option Ty :=
  (s.visible e).findSome? (·.lookup name)

/-- The declaration of a name. -/
def value? (s : Scopes) (e : Nat) (name : String) : Option ValueDecl :=
  (s.visible e).findSome? (·.values.lookup name)

/-- Changes the frames of an environment. -/
def modifyFrames (s : Scopes) (e : Nat) (change : List Frame → List Frame) : Scopes :=
  { s with environments := s.environments.modify e fun env =>
      { env with frames := change env.frames } }

/-- Changes the innermost frame of an environment. -/
def modifyInnermost (s : Scopes) (e : Nat) (change : Frame → Frame) : Scopes :=
  s.modifyFrames e fun
    | f :: rest => change f :: rest
    | [] => []

/-- The innermost frame of an environment. -/
def innermost (s : Scopes) (e : Nat) : Frame := (s.framesOf e).head?.getD {}

/-- Opens a frame. -/
def enter (s : Scopes) (e : Nat) : Scopes := s.modifyFrames e ({} :: ·)

/-- Closes the innermost frame; the last one stays. -/
def exit (s : Scopes) (e : Nat) : Scopes :=
  s.modifyFrames e fun
    | _ :: f :: rest => f :: rest
    | fs => fs

/-- Declares a name in the innermost frame, unless it is declared there. -/
def define (s : Scopes) (e : Nat) (name : String) (value : ValueDecl) : Bool × Scopes :=
  if (s.innermost e).declares name then (false, s)
  else (true, s.modifyInnermost e (·.declare name value))

/-- Narrows a name in the innermost frame. -/
def bind (s : Scopes) (e : Nat) (name : String) (t : Ty) : Scopes :=
  s.modifyInnermost e (·.narrow name t)

/-- The frames with another type for a name in the first frame that declares it. -/
def retypeFirst (name : String) (t : Ty) : List Frame → List Frame
  | [] => []
  | f :: rest => if f.declares name then f.retype name t :: rest else f :: retypeFirst name t rest

/-- Gives a name another declared type, in the frame that declares it. -/
def redefine (s : Scopes) (e : Nat) (name : String) (t : Ty) : Bool × Scopes :=
  match (s.chain e).find? fun i => (s.framesOf i).any (·.declares name) with
  | some i => (true, s.modifyFrames i (retypeFirst name t))
  | none => (false, s)

/-- The narrowings made in the innermost frame for names declared outside it. -/
def narrowed (s : Scopes) (e : Nat) : Bindings :=
  let f := s.innermost e
  f.narrowings.filter fun (name, _) => !f.declares name

/-- The names declared in the base frame of an environment, with their declarations. -/
def declared (s : Scopes) (e : Nat) : List (String × ValueDecl) :=
  ((s.framesOf e).getLast?.map Frame.values).getD []

end Scopes

end ShapeCheck
