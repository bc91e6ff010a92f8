import ShapeCheck.Source

/-!
# YAML nodes

A YAML document as a tree whose nodes know where their text starts. Numbers, dates and the like stay
text: only nothing, truth values and strings are told apart.
-/

namespace ShapeCheck.Yaml

/-- How a scalar is written. -/
inductive Style where
  | plain
  | singleQuoted
  | doubleQuoted
  | literal
  | folded
  deriving DecidableEq, Repr, Inhabited

/-- What a scalar is taken for. -/
inductive Tag where
  | null
  | boolean
  | string
  | other (name : String)
  deriving DecidableEq, Repr, Inhabited

/-- A scalar. -/
structure Scalar where
  position : Position
  tag : Tag
  tagged : Bool
  style : Style
  value : String
  deriving Inhabited

/-- A node. An alias knows the node it refers to, unless it stands inside that node. -/
inductive Node where
  | scalar (s : Scalar)
  | sequence (position : Position) (items : List Node)
  | mapping (position : Position) (entries : List (Node × Node))
  | alias (position : Position) (anchor : String) (target : Option Node)

instance : Inhabited Node := ⟨.sequence {} []⟩

namespace Node

/-- Where the node starts. -/
def position : Node → Position
  | .scalar s => s.position
  | .sequence p _ | .mapping p _ | .alias p _ _ => p

/-- The text of a scalar, the anchor's name for an alias, nothing for collections. -/
def value : Node → String
  | .scalar s => s.value
  | .alias _ anchor _ => anchor
  | _ => ""

/-- Whether the node is a scalar without a value. -/
def isNull : Node → Bool
  | .scalar s => s.tag = .null
  | _ => false

end Node

/-- The spellings of nothing. -/
def nullSpellings : List String := ["", "~", "null", "Null", "NULL"]

/-- What a plain scalar without a tag is taken for. -/
def plainTag (value : String) : Tag :=
  if nullSpellings.contains value then .null
  else if ["true", "True", "TRUE", "false", "False", "FALSE"].contains value then .boolean
  else if value = "<<" then .other "!!merge"
  else .string

/-- The tag with the given full name. -/
def tagOfName (name : String) : Tag :=
  match name with
  | "tag:yaml.org,2002:null" => .null
  | "tag:yaml.org,2002:bool" => .boolean
  | "tag:yaml.org,2002:str" => .string
  | _ => .other name

/-- The words accepted as true when a truth value is asked for and a string is given. -/
def affirmative : List String := ["y", "Y", "yes", "Yes", "YES", "on", "On", "ON"]

/-- The words accepted as false when a truth value is asked for and a string is given. -/
def negative : List String := ["n", "N", "no", "No", "NO", "off", "Off", "OFF"]

/-- A scalar read as a truth value; nothing is false. -/
def Scalar.truth? (s : Scalar) : Option Bool :=
  match s.tag with
  | .null => if nullSpellings.contains s.value then some false else none
  | .boolean =>
    if ["true", "True", "TRUE"].contains s.value then some true
    else if ["false", "False", "FALSE"].contains s.value then some false
    else none
  | .string =>
    if affirmative.contains s.value then some true
    else if negative.contains s.value then some false
    else none
  | .other _ => none

/-- A node read as a truth value, following an alias. -/
def Node.truth? : Node → Option Bool
  | .scalar s => s.truth?
  | .alias _ _ (some (.scalar s)) => s.truth?
  | _ => none

/-- A place in the text, counted from zero. -/
structure Mark where
  index : Nat := 0
  line : Nat := 0
  column : Nat := 0
  deriving Inhabited, Repr, DecidableEq

/-- The position of a mark, counted from one. -/
def Mark.position (m : Mark) : Position := ⟨m.line + 1, m.column + 1⟩

/-- Why a text is no YAML document. -/
structure Error where
  line : Nat
  problem : String
  deriving Inhabited, Repr

/-- The wording of an error. -/
def Error.message (e : Error) : String :=
  "yaml: " ++ (if e.line = 0 then "" else "line " ++ toString e.line ++ ": ") ++ e.problem

end ShapeCheck.Yaml
