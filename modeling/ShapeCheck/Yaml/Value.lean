import ShapeCheck.Number.Whole
import ShapeCheck.Text.Quoted
import ShapeCheck.Yaml.Document
import ShapeCheck.Yaml.Moment

/-!
# YAML values

A YAML document as a value: plain scalars that look like numbers, truth values or dates stand for
them, everything else is text.

* `Yaml.Scalar.toValue` is the value of a scalar.
* `Yaml.readEntries` reads a document whose root is a mapping.
-/

namespace ShapeCheck.Yaml

/-- A value. -/
inductive Value where
  | null
  | truth (b : Bool)
  | whole (n : Int)
  | real (x : Binary64)
  | moment
  | text (s : String)
  | list (items : List Value)
  | mapping (entries : List (String × Value))

instance : Inhabited Value := ⟨.null⟩

/-- Why a document has no value: problems at lines, or one that stops the work. -/
inductive ValueError where
  | document (e : Error)
  | problems (texts : List String)
  | problem (text : String)

/-- The wording of the error. -/
def ValueError.message : ValueError → String
  | .document e => e.message
  | .problems texts => "yaml: unmarshal errors:\n  " ++ "\n  ".intercalate texts
  | .problem text => "yaml: " ++ text

/-- Work on values that notes problems on the way, the latest first. -/
abbrev Valuing := StateT (List String) (Except String)

/-- Whether a text is a decimal number with an optional fraction and exponent. -/
def looksReal (text : String) : Bool :=
  let (_, cs) := Decimal.splitSign text.toList
  let front := cs.takeWhile Char.isDigit
  let (digits, rest) := match cs.dropWhile Char.isDigit with
    | '.' :: more =>
      (front.length + (more.takeWhile Char.isDigit).length, more.dropWhile Char.isDigit)
    | rest => (front.length, rest)
  let exponent := match rest with
    | [] => true
    | e :: more =>
      let digits := (Decimal.splitSign more).2
      (e = 'e' || e = 'E') && !digits.isEmpty && digits.all Char.isDigit
  decide (0 < digits) && exponent

/-- The number that a plain text stands for, its underscores left out. -/
def numberOf? (text : String) : Option Value :=
  let plain := text.replace "_" ""
  match Whole.read plain with
  | .ok n => some (.whole n)
  | .error _ =>
    match Whole.readUnsigned plain with
    | .ok n => some (.whole n)
    | .error _ =>
      if looksReal plain then
        match Decimal.read? plain with
        | .ok x => some (.real x)
        | .error _ => none
      else none

/-- The texts for numbers that are not finite. -/
def specialReal? (text : String) : Option Binary64 :=
  if [".nan", ".NaN", ".NAN"].contains text then some .nan
  else if [".inf", ".Inf", ".INF", "+.inf", "+.Inf", "+.INF"].contains text then
    some (.infinite false)
  else if ["-.inf", "-.Inf", "-.INF"].contains text then some (.infinite true)
  else none

/-- The short name of what a plain text stands for, and its value. -/
def plainValue (text : String) : String × Value :=
  if nullSpellings.contains text then ("!!null", .null)
  else if ["true", "True", "TRUE"].contains text then ("!!bool", .truth true)
  else if ["false", "False", "FALSE"].contains text then ("!!bool", .truth false)
  else
    match specialReal? text with
    | some x => ("!!float", .real x)
    | none =>
      match text.toList with
      | '.' :: _ =>
        match Decimal.read? text with
        | .ok x => ("!!float", .real x)
        | .error _ => ("!!str", .text text)
      | c :: _ =>
        if !(c.isDigit || c = '+' || c = '-') then ("!!str", .text text)
        else if Moment.isMoment text then ("!!timestamp", .moment)
        else
          match numberOf? text with
          | some (.whole n) => ("!!int", .whole n)
          | some v => ("!!float", v)
          | none => ("!!str", .text text)
      | [] => ("!!str", .text text)

/-- The short name of a written tag. -/
def shortName : Tag → String
  | .null => "!!null"
  | .boolean => "!!bool"
  | .string => "!!str"
  | .other name =>
    if name.startsWith "tag:yaml.org,2002:" then
      "!!" ++ String.ofList (name.toList.drop "tag:yaml.org,2002:".length)
    else name

/-- The name of what a scalar is taken for. -/
def Scalar.kindName (s : Scalar) : String :=
  if s.tagged then shortName s.tag
  else if s.style ≠ .plain then "!!str"
  else (plainValue s.value).1

/-- The value of a scalar. A written tag has to fit what the text stands for. -/
def Scalar.toValue (s : Scalar) : Except String Value :=
  if !s.tagged then
    if s.style = .plain then .ok (plainValue s.value).2 else .ok (.text s.value)
  else
    let wanted := shortName s.tag
    let (found, value) := plainValue s.value
    if wanted = "!!str" || wanted = "!!binary" then .ok (.text s.value)
    else if wanted = found then .ok value
    else
      match wanted, value with
      | "!!float", .whole n => .ok (.real (.ofRatio (decide (n < 0)) n.natAbs 1))
      | _, _ => .error ("cannot decode " ++ found ++ " `" ++ s.value ++ "` as a " ++ wanted)

/-- Notes a problem. -/
def note (p : Position) (text : String) : Valuing Unit :=
  modify fun ps => ("line " ++ toString p.line ++ ": " ++ text) :: ps

/-- Whether two keys are the same: both scalars, lists or mappings, with the same text. -/
def sameKey : Node → Node → Bool
  | .scalar a, .scalar b => a.value = b.value
  | .sequence _ _, .sequence _ _ => true
  | .mapping _ _, .mapping _ _ => true
  | .alias _ a _, .alias _ b _ => a = b
  | _, _ => false

/-- Notes the keys that stand in a mapping before. -/
def noteRepeated : List Node → Valuing Unit
  | [] => return ()
  | k :: ks => do
    (ks.filter (sameKey k)).forM fun k' =>
      note k'.position ("mapping key " ++ Text.quoted k'.value ++ " already defined at line " ++
        toString k.position.line)
    noteRepeated ks

/-- The text of a key; a key that is nothing is left out. -/
def keyText? : Node → Valuing (Option String)
  | .scalar s | .alias _ _ (some (.scalar s)) => do
    match s.toValue with
    | .ok .null => return none
    | .ok _ => return some s.value
    | .error e => throw e
  | .sequence p _ | .alias _ _ (some (.sequence p _)) => do
    note p "cannot unmarshal !!seq into string"
    return none
  | .mapping p _ | .alias _ _ (some (.mapping p _)) => do
    note p "cannot unmarshal !!map into string"
    return none
  | .alias _ _ _ => return none

/-- Whether a key asks for the entries of another mapping. -/
def isMergeKey : Node → Bool
  | .scalar s =>
    s.value = "<<" && (if s.tagged then shortName s.tag = "!!merge" else s.style = .plain)
  | _ => false

/-- The entries that a mapping takes from others: those of a mapping, or of a list of mappings,
where the first counts. -/
def mergedEntries : Value → Valuing (List (String × Value))
  | .mapping entries => return entries
  | .list items => do
    return (← items.mapM fun
      | .mapping entries => pure entries
      | _ => throw "map merge requires map or sequence of maps as the value").flatten
  | _ => throw "map merge requires map or sequence of maps as the value"

/-- Adds the entries whose keys are not there yet. -/
def addMissing (entries : List (String × Value)) :
    List (String × Value) → List (String × Value)
  | [] => entries
  | (k, v) :: rest =>
    if entries.any (·.1 = k) then addMissing entries rest else addMissing (entries ++ [(k, v)]) rest

mutual

/-- The value of a node. -/
def nodeValue : Node → Valuing Value
  | .scalar s =>
    match s.toValue with
    | .ok v => return v
    | .error e => throw e
  | .sequence _ items => return .list (← listValues items)
  | .mapping _ entries => do
    noteRepeated (entries.map Prod.fst)
    let (own, merged) ← entryValues entries
    match merged with
    | none => return .mapping own
    | some v => return .mapping (addMissing own (← mergedEntries v))
  | .alias _ _ (some target) => nodeValue target
  | .alias _ anchor none => throw ("anchor '" ++ anchor ++ "' value contains itself")

/-- The values of the nodes of a list. -/
def listValues : List Node → Valuing (List Value)
  | [] => return []
  | n :: ns => return (← nodeValue n) :: (← listValues ns)

/-- The values of the entries of a mapping, and the value of the last key that asks for the entries
of other mappings. -/
def entryValues : List (Node × Node) → Valuing (List (String × Value) × Option Value)
  | [] => return ([], none)
  | (k, v) :: rest => do
    let key ← if isMergeKey k then pure none else keyText? k
    let value ← nodeValue v
    let (others, merged) ← entryValues rest
    match key with
    | some key => return ((key, value) :: others, merged)
    | none => return (others, if isMergeKey k && merged.isNone then some value else merged)

end

/-- The shortened text of a scalar in a message. -/
def excerpt (s : String) : String :=
  if 10 < s.utf8ByteSize then " `" ++ String.ofList (s.toList.take 7) ++ "...`"
  else " `" ++ s ++ "`"

/-- The entries of a document's root, which has to be a mapping or nothing. -/
def rootEntries : Node → Valuing (List (String × Value))
  | .scalar s =>
    if s.kindName = "!!null" then return []
    else do
      note s.position ("cannot unmarshal " ++ s.kindName ++ excerpt s.value ++
        " into map[string]interface \x7b\x7d")
      return []
  | .sequence p _ => do
    note p "cannot unmarshal !!seq into map[string]interface \x7b\x7d"
    return []
  | .mapping p entries => do
    match ← nodeValue (.mapping p entries) with
    | .mapping entries => return entries
    | _ => return []
  | .alias _ _ _ => return []

/-- Reads a document whose root is a mapping; nothing is an empty mapping. -/
def readEntries (text : String) : Except ValueError (List (String × Value)) :=
  match parse text with
  | .error e => .error (.document e)
  | .ok none => .ok []
  | .ok (some root) =>
    match (rootEntries root).run [] with
    | .error e => .error (.problem e)
    | .ok (entries, []) => .ok entries
    | .ok (_, problems) => .error (.problems problems.reverse)

end ShapeCheck.Yaml
