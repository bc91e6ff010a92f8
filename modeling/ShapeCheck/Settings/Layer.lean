import ShapeCheck.Text.Category
import ShapeCheck.Text.SmallLetter
import ShapeCheck.Yaml.Value

/-!
# Layers of settings

Settings come in layers: defaults, a file, the environment and the command line, where a later layer
counts more. A layer gives values to names. The values are of any type; what a setting needs is made
from them by wide rules: a text may spell a number, a number may stand for a truth value, and a
single value may stand for a list.

* `Layer.onto` puts one layer over another.
* `Layer.ofEnvironment` is the layer of the environment.
* `wholeOf`, `textOf`, `truthOf` and `textsOf` make what a setting needs.
-/

namespace ShapeCheck.Settings

open Yaml (Value)

/-- Names with their values. -/
abbrev Layer := List (String × Value)

namespace Layer

/-- A layer with one value set. -/
def put (name : String) (value : Value) : Layer → Layer
  | [] => [(name, value)]
  | (n, v) :: rest => if n = name then (n, value) :: rest else (n, v) :: put name value rest

/-- The layer on top of another one. -/
def onto (top base : Layer) : Layer := top.foldl (fun l (n, v) => l.put n v) base

/-- The value of a name; nothing when there is none. -/
def value (l : Layer) (name : String) : Value := (l.lookup name).getD .null

/-- What all variables of the environment that are settings start with. -/
def environmentMark : String := "STRUCTCHECK_"

/-- The texts of a list with commas, without white space at their ends; empty texts are left out. -/
def splitList (s : String) : List String :=
  ((s.splitOn ",").map Text.trim).filter (!·.isEmpty)

/-- A value under a name with dots, each of which opens a mapping. -/
def nested (value : Value) : List String → Value
  | [] => value
  | name :: rest => .mapping [(name, nested value rest)]

/-- The setting of a variable of the environment: the name without the mark, in small letters. -/
def entry? (marked value : String) : Option (String × Value) :=
  if !marked.startsWith environmentMark then none
  else
    let name := String.ofList ((marked.toList.drop environmentMark.length).map Text.lower)
    if name.isEmpty then none
    else if name = "suppress" then some (name, .list ((splitList value).map .text))
    else
      match name.splitOn "." with
      | first :: rest => some (first, nested (.text value) rest)
      | [] => none

/-- The layer of the environment. -/
def ofEnvironment (environment : List (String × String)) : Layer :=
  (environment.filterMap fun (n, v) => entry? n v).foldl (fun l (n, v) => l.put n v) []

end Layer

/-- Why a value does not fit a setting. -/
inductive Misfit where
  | unreadable (name type reader : String) (e : Decimal.ReadError)
  /-- The value is of a type from which what is needed cannot be made. -/
  | unconvertible (name type found : String)

/-- The wording of the error. -/
def Misfit.message : Misfit → String
  | .unreadable name type reader e =>
    "'" ++ name ++ "' cannot parse value as '" ++ type ++ "': strconv." ++ reader ++ ": " ++
      match e with
      | .malformed => "invalid syntax"
      | .outOfRange => "value out of range"
  | .unconvertible name type found =>
    "'" ++ name ++ "' expected type '" ++ type ++ "', got unconvertible type '" ++ found ++ "'"

/-- The name of the type of a value. -/
def typeName : Value → String
  | .null => "nil"
  | .truth _ => "bool"
  | .whole _ => "int"
  | .real _ => "float64"
  | .moment => "time.Time"
  | .text _ => "string"
  | .list _ => "[]interface \x7b\x7d"
  | .mapping _ => "map[string]interface \x7b\x7d"

/-- A whole number: fractions are cut off, truth values are one and zero, texts spell numbers. -/
def wholeOf (name : String) : Value → Except Misfit Int
  | .null => .ok 0
  | .whole n => .ok (Word.wrap n)
  | .real x => .ok (Whole.ofBinary64 x)
  | .truth b => .ok (if b then 1 else 0)
  | .text s =>
    if s.isEmpty then .ok 0
    else
      match Whole.read s with
      | .ok n => .ok n
      | .error e => .error (.unreadable name "int" "ParseInt" e)
  | v => .error (.unconvertible name "int" (typeName v))

/-- The words for truth values. -/
def truthWord? (s : String) : Option Bool :=
  if ["1", "t", "T", "TRUE", "true", "True"].contains s then some true
  else if ["0", "f", "F", "FALSE", "false", "False"].contains s then some false
  else none

/-- A truth value: numbers are true unless they are zero, texts are words for truth values. -/
def truthOf (name : String) : Value → Except Misfit Bool
  | .null => .ok false
  | .whole n => .ok (n ≠ 0)
  | .real x => .ok (!x.isZero)
  | .truth b => .ok b
  | .text s =>
    if s.isEmpty then .ok false
    else
      match truthWord? s with
      | some b => .ok b
      | none => .error (.unreadable name "bool" "ParseBool" .malformed)
  | v => .error (.unconvertible name "bool" (typeName v))

/-- A text: numbers are spelled out, truth values are one and zero. -/
def textOf (name : String) : Value → Except Misfit String
  | .null => .ok ""
  | .whole n => .ok (toString n)
  | .real x => .ok x.positional
  | .truth b => .ok (if b then "1" else "0")
  | .text s => .ok s
  | v => .error (.unconvertible name "string" (typeName v))

/-- The errors of a list of results, or the results. -/
def gather {α : Type} : List (Except Misfit α) → Except (List Misfit) (List α)
  | [] => .ok []
  | r :: rs =>
    match r, gather rs with
    | .ok x, .ok xs => .ok (x :: xs)
    | .ok _, .error es => .error es
    | .error e, .ok _ => .error [e]
    | .error e, .error es => .error (e :: es)

/-- A list of texts: a single value is a list of one, an empty mapping is an empty list. -/
def textsOf (name : String) (v : Value) : Except (List Misfit) (List String) :=
  let items := match v with
    | .null | .mapping [] => []
    | .list items => items
    | v => [v]
  gather (items.zipIdx.map fun (v, i) => textOf (name ++ "[" ++ toString i ++ "]") v)

end ShapeCheck.Settings
