import ShapeCheck.Number.Decimal
import ShapeCheck.Text.Quoted

/-!
# Log levels

A log level is a number; four numbers have names, and the others are written by their distance from
a name.
-/

namespace ShapeCheck

/-- A log level: the higher, the graver. -/
structure Level where
  number : Int
  deriving DecidableEq, Inhabited, Repr

namespace Level

/-- The level of details for debugging. -/
def debug : Level := ⟨-4⟩

/-- The level of plain news. -/
def info : Level := ⟨0⟩

/-- The level of warnings. -/
def warn : Level := ⟨4⟩

/-- The level of errors. -/
def error : Level := ⟨8⟩

/-- Why a text is no level. -/
inductive Fault where
  | unknownName
  | badDistance (text : String) (e : Decimal.ReadError)

/-- The wording of what is wrong with a written level. -/
def Fault.message (text : String) (f : Fault) : String :=
  let cause := match f with
    | .unknownName => "unknown name"
    | .badDistance distance .malformed =>
      "strconv.Atoi: parsing " ++ Text.quoted distance ++ ": invalid syntax"
    | .badDistance distance .outOfRange =>
      "strconv.Atoi: parsing " ++ Text.quoted distance ++ ": value out of range"
  "slog: level string " ++ Text.quoted text ++ ": " ++ cause

/-- A capital letter for each letter; the dotless `i` has the capital of `i`. -/
def capital (c : Char) : Char := if c = 'ı' then 'I' else c.toUpper

/-- The level with a name, in letters of any case. -/
def ofName? (name : String) : Option Level :=
  match String.ofList (name.toList.map capital) with
  | "DEBUG" => some debug
  | "INFO" => some info
  | "WARN" => some warn
  | "ERROR" => some error
  | _ => none

/-- Reads a level: a name, and a distance with its sign. -/
def read (text : String) : Except Fault Level := do
  let isSign := fun c => c = '+' || c = '-'
  let name := String.ofList (text.toList.takeWhile (!isSign ·))
  let distance := String.ofList (text.toList.dropWhile (!isSign ·))
  let shift ←
    if distance.isEmpty then pure 0
    else
      match Decimal.integer? distance, Decimal.whole? distance with
      | some n, _ => pure n
      | none, some _ => throw (.badDistance distance .outOfRange)
      | none, none => throw (.badDistance distance .malformed)
  match ofName? name with
  | some l => return ⟨Word.wrap (l.number + shift)⟩
  | none => throw .unknownName

/-- The text of a level: the name below it, and the distance from that. -/
def text (l : Level) : String :=
  let above := fun (name : String) (base : Level) =>
    let n := l.number - base.number
    if n = 0 then name else name ++ (if 0 < n then "+" else "") ++ toString n
  if l.number < info.number then above "DEBUG" debug
  else if l.number < warn.number then above "INFO" info
  else if l.number < error.number then above "WARN" warn
  else above "ERROR" error

end Level

end ShapeCheck
