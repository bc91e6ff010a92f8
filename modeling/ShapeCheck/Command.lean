import ShapeCheck.Batch
import ShapeCheck.Command.Help
import ShapeCheck.Settings

/-!
# The command

The whole program as a function: from a command line, the environment and the files around it to
what it writes and its exit code. `Command.run` is that function; reading the files and writing the
texts is left to the outer layer, which learns from `Command.paths` what to read.
-/

namespace ShapeCheck.Command

/-- What the program leaves behind. -/
structure Outcome where
  exit : Nat := 0
  output : String := ""
  messages : String := ""
  deriving Inhabited, Repr

/-- The version of the program. -/
def version : String := "0.1.0"

/-- Why files are not checked. -/
inductive CommandError where
  | line (e : Line.LineError)
  | settings (e : SettingsError)
  | unknownFormat (name : String)
  | suppression (e : SuppressionError)
  | watchedFiles (count : Nat)

/-- The wording of the error. -/
def CommandError.message : CommandError → String
  | .line e => e.message
  | .settings e => e.message
  | .unknownFormat name => Format.unknownName name
  | .suppression e => e.message
  | .watchedFiles count => "--watch takes exactly one file, got " ++ toString count

/-- The digits of a number in groups of three from the right, with commas between them. -/
def groupDigits (ds : List Char) : List Char :=
  ((ds.reverse.zipIdx.flatMap fun (d, i) => if i ≠ 0 && i % 3 = 0 then [',', d] else [d])).reverse

/-- A number as summaries show it. -/
def grouped (n : Nat) : String := String.ofList (groupDigits (Nat.toDigits 10 n))

/-- A number of things, with the word for one or for more. -/
def counted (n : Nat) (one : String) : String :=
  grouped n ++ " " ++ one ++ (if n = 1 then "" else "s")

/-- The line about a file after its report. -/
def summary (r : Report) : String :=
  r.path ++ ": " ++ counted r.kept.length "diagnostic" ++
    (if r.suppressed = 0 then "" else " (" ++ grouped r.suppressed ++ " suppressed)") ++ "\n"

/-- The line about a batch, with the time that it took. -/
def batchSummary (files : Nat) (elapsed : String) : String :=
  "checked " ++ counted files "file" ++ " in " ++ elapsed ++ "\n"

/-- The output about a file: the types of the top-level names if they are asked for, and the
diagnostics. -/
def reportText (format : Format) (dumpTypes : Bool) (r : Report) : String :=
  (if dumpTypes then Report.symbols r.checked else "") ++ r.render format

/-- What a batch leaves behind: reports and summaries in order, then the line about the batch, then
the failures. JSON output has no summaries. -/
def batchOutcome (format : Format) (dumpTypes : Bool) (elapsed : String)
    (results : List FileResult) : Outcome :=
  let reports := results.filterMap fun r => r.outcome.toOption
  let failures := results.filterMap fun r =>
    match r.outcome with
    | .error e => some e.message
    | .ok _ => none
  let summaries := if format = .json then "" else String.join (reports.map summary)
  let whole := if 1 < results.length then batchSummary results.length elapsed else ""
  let errors := if failures.isEmpty then "" else "Error: " ++ "\n".intercalate failures ++ "\n"
  { exit := if failures.isEmpty && reports.all Report.isClean then 0 else 1
    output := String.join (reports.map (reportText format dumpTypes))
    messages := summaries ++ whole ++ errors }

/-- Checks the files of a command line. -/
def check (files : Files) (environment : List (String × String)) (elapsed : String)
    (p : ParsedArguments) : Except CommandError Outcome := do
  let settings ← (Settings.load files (Line.textOf p "config") environment (Flag.layer p)).mapError
    .settings
  let format ← match Format.ofName? settings.format with
    | some f => pure f
    | none => throw (.unknownFormat settings.format)
  let suppression ← (Suppression.read settings.suppress).mapError .suppression
  if Line.isSet p "watch" && p.others.length ≠ 1 then throw (.watchedFiles p.others.length)
  let options : CheckOptions := { noImplicitAny := settings.noImplicitAny }
  return batchOutcome format (Line.isSet p "dump-types") elapsed
    (Batch.run options suppression files false p.others)

/-- Does what a command line asks for. -/
def answer (files : Files) (environment : List (String × String)) (elapsed : String) :
    Line.Request → Except CommandError Outcome
  | .help c => .ok { output := Line.help c }
  | .version marked =>
    .ok { output := Line.program ++ " " ++ (if marked then "v" else "") ++ version ++ "\n" }
  | .check p => check files environment elapsed p

/-- Runs the program. -/
def run (files : Files) (environment : List (String × String)) (elapsed : String)
    (arguments : List String) : Outcome :=
  let outcome : Except CommandError Outcome := match Line.parse arguments with
    | .error e => .error (.line e)
    | .ok request => answer files environment elapsed request
  match outcome with
  | .ok o => o
  | .error e => { exit := 1, messages := "Error: " ++ e.message ++ "\n" }

/-- The files that a command line may need: the settings file and the files to check. -/
def paths (root : String) (arguments : List String) : List String :=
  match Line.parse arguments with
  | .ok (.check p) =>
    let asked := Line.textOf p "config"
    let settings :=
      if asked.isEmpty then [Settings.fileName, root ++ "/" ++ Settings.fileName] else [asked]
    settings ++ p.others
  | _ => []

end ShapeCheck.Command
