import ShapeCheck.Check.Session

/-!
# Built-in classes

Two classes that every program may use. A program that declares one of these names itself does not
see the built-in one.
-/

namespace ShapeCheck.Prelude

open Check

/-- Declares a built-in class, unless the program declares its name. -/
def declareClass (name : String) (instanceType : Ty) (params : List Parameter) : Check Unit := do
  if ((← session).names.lookup name).isSome then return ()
  match ← Alias.define name [] instanceType with
  | .error _ => return ()
  | .ok () =>
    let reference ← Ty.referenceTo name []
    let type ← Ty.classOf name instanceType { params, result := reference }
    update fun s => { s with
      names := (name, { kind := .builtin }) :: s.names
      classes := (name, { type, reference, instanceType }) :: s.classes }
    let _ ← defineIn globals name ⟨type, true⟩

/-- Declares the built-in classes. -/
def declare : Check Unit := do
  let getTime ← Ty.functionOf { result := .number }
  let toISOString ← Ty.functionOf { result := .string }
  let date ← Ty.objectOf
    { fields := [
        { name := "getTime", type := getTime }, { name := "toISOString", type := toISOString }] }
  let time ← Ty.unionOf [.number, .string]
  declareClass "Date" date [{ name := "value", type := time, optional := true }]
  let error ← Ty.objectOf
    { fields := [{ name := "name", type := .string }, { name := "message", type := .string }] }
  declareClass "Error" error [{ name := "message", type := .string, optional := true }]

end ShapeCheck.Prelude
