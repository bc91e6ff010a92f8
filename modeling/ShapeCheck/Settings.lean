import ShapeCheck.Files
import ShapeCheck.Report.Format
import ShapeCheck.Settings.Layer
import ShapeCheck.Settings.Level
import ShapeCheck.Source

/-!
# Settings

The settings of a run, from defaults, a settings file, the environment and the command line, in
increasing order of weight.

* `Settings.load` finds the settings.
* `Settings.validate` says what is wrong with settings of a fixed set of values.
-/

namespace ShapeCheck

/-- The settings of a run. -/
structure Settings where
  /-- How many declarations are checked at once; zero for one per processor. -/
  workers : Int := 0
  /-- How many files are checked at once; zero for one per processor. -/
  jobs : Int := 0
  format : String := "text"
  noImplicitAny : Bool := false
  suppress : List String := []
  verbose : Bool := false
  logLevel : String := "warn"
  color : String := "auto"
  file : String := ""
  deriving Inhabited, Repr

/-- Why there are no settings. -/
inductive SettingsError where
  | unreadable (path cause : String)
  | misfits (es : List Settings.Misfit)
  | negativeWorkers (n : Int)
  | negativeJobs (n : Int)
  | unknownFormat (name : String)
  | badLevel (text : String) (f : Level.Fault)
  | unknownColor (mode : String)

/-- The wording of the error. -/
def SettingsError.message : SettingsError → String
  | .unreadable path cause => "error reading config file " ++ path ++ ": " ++ cause
  | .misfits es => "unable to decode config: decoding failed due to the following error(s):\n\n" ++
      "\n".intercalate (es.map Settings.Misfit.message)
  | .negativeWorkers n => "workers must not be negative, got " ++ toString n
  | .negativeJobs n => "jobs must not be negative, got " ++ toString n
  | .unknownFormat name => Format.unknownName name
  | .badLevel text f => "invalid log level " ++ Text.quoted text ++ ": " ++ f.message text
  | .unknownColor mode =>
    "unknown color mode " ++ Text.quoted mode ++ " (want auto, always or never)"

namespace Settings

/-- The name of the settings file in the working directory. -/
def fileName : String := "structcheck.yaml"

/-- The layer of the defaults. -/
def defaults : Layer := [
  ("workers", .whole 0), ("jobs", .whole 0), ("format", .text "text"),
  ("no_implicit_any", .truth false), ("suppress", .list []), ("verbose", .truth false),
  ("log_level", .text "warn"), ("color", .text "auto")]

/-- The misfits of a result. -/
def misfitsOf {α : Type} : Except Misfit α → List Misfit
  | .ok _ => []
  | .error e => [e]

/-- The settings in a layer, or everything that does not fit, in the order of the settings. -/
def ofLayer (l : Layer) : Except (List Misfit) Settings :=
  let workers := wholeOf "workers" (l.value "workers")
  let jobs := wholeOf "jobs" (l.value "jobs")
  let format := textOf "format" (l.value "format")
  let noImplicitAny := truthOf "no_implicit_any" (l.value "no_implicit_any")
  let suppress := textsOf "suppress" (l.value "suppress")
  let verbose := truthOf "verbose" (l.value "verbose")
  let logLevel := textOf "log_level" (l.value "log_level")
  let color := textOf "color" (l.value "color")
  match workers, jobs, format, noImplicitAny, suppress, verbose, logLevel, color with
  | .ok workers, .ok jobs, .ok format, .ok noImplicitAny, .ok suppress, .ok verbose, .ok logLevel,
    .ok color => .ok { workers, jobs, format, noImplicitAny, suppress, verbose, logLevel, color }
  | _, _, _, _, _, _, _, _ =>
    let listed := match suppress with
      | .ok _ => []
      | .error es => es
    .error (misfitsOf workers ++ misfitsOf jobs ++ misfitsOf format ++ misfitsOf noImplicitAny ++
      listed ++ misfitsOf verbose ++ misfitsOf logLevel ++ misfitsOf color)

/-- The log level; details for debugging are logged when asked for, whatever the level. -/
def level (s : Settings) : Except Level.Fault Level :=
  if s.verbose then .ok .debug else Level.read s.logLevel

/-- Checks the settings of a fixed set of values. -/
def validate (s : Settings) : Except SettingsError Unit := do
  if s.workers < 0 then throw (.negativeWorkers s.workers)
  if s.jobs < 0 then throw (.negativeJobs s.jobs)
  if (Format.ofName? s.format).isNone then throw (.unknownFormat s.format)
  match s.level with
  | .ok _ => pure ()
  | .error f => throw (.badLevel s.logLevel f)
  unless ["auto", "always", "never"].contains s.color do throw (.unknownColor s.color)

/-- Whether output is colored, by whether it goes to a terminal. -/
def usesColor (s : Settings) (terminal : Bool) : Bool :=
  match s.color with
  | "always" => true
  | "never" => false
  | _ => terminal

/-- The path of the settings file: the one asked for, or the one of the working directory if it is
there. -/
def filePath (files : Files) (asked : String) : String :=
  if !asked.isEmpty then asked
  else
    match files.read fileName with
    | .error .missing => ""
    | _ => files.root ++ "/" ++ fileName

/-- The layer of a settings file; without a path it is empty. -/
def fileLayer (files : Files) (path : String) : Except SettingsError Layer :=
  if path.isEmpty then .ok []
  else
    match files.read path with
    | .error e => .error (.unreadable path (e.message path))
    | .ok text =>
      match Yaml.readEntries text with
      | .error e => .error (.unreadable path e.message)
      | .ok entries => .ok entries

/-- Finds the settings: `asked` is the settings file asked for, if any, and `flags` the layer of the
command line. -/
def load (files : Files) (asked : String) (environment : List (String × String)) (flags : Layer) :
    Except SettingsError Settings := do
  let path := filePath files asked
  let fromFile ← fileLayer files path
  let layer := flags.onto ((Layer.ofEnvironment environment).onto (fromFile.onto defaults))
  match ofLayer layer with
  | .error es => throw (.misfits es)
  | .ok s =>
    let s := { s with file := path }
    s.validate
    return s

end Settings

end ShapeCheck
