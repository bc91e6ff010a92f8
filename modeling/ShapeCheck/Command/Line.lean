import ShapeCheck.Command.Flag

/-!
# The command line

The command line names a subcommand with its flags and arguments. Flags that all subcommands share
may stand before it. `Line.parse` says what a command line asks for.
-/

/-! ## Distance of words -/

namespace ShapeCheck.Text

/-- The next row of the table of distances: `left` is the distance before the first entry, and the
row above is given with its first entry apart. -/
def nextRow {α : Type} [BEq α] (a : α) (left corner : Nat) : List α → List Nat → List Nat
  | b :: bs, above :: rest =>
    let d := if a == b then corner else 1 + min corner (min left above)
    d :: nextRow a d above bs rest
  | _, _ => []

/-- The last row of the table of distances, after the first row of a word that is empty so far. -/
def lastRow {α : Type} [BEq α] (target : List α) : Nat → List Nat → List α → List Nat
  | _, row, [] => row
  | n, row, a :: as =>
    match row with
    | [] => []
    | corner :: rest =>
      lastRow target (n + 1) ((n + 1) :: nextRow a (n + 1) corner target rest) as

/-- The distance of two lists. -/
def distance {α : Type} [BEq α] (a b : List α) : Nat :=
  ((lastRow b 0 (List.range (b.length + 1)) a).getLast?).getD 0

end ShapeCheck.Text

namespace ShapeCheck.Line

/-- The name of the program. -/
def program : String := "structcheck"

/-- A part of the program that can be asked for. -/
inductive Subcommand where
  | root
  | check
  | version
  | help
  deriving DecidableEq, Repr

/-- The flags that all subcommands share. -/
def sharedFlags : List Flag := [
  { name := "color", kind := .text, purpose := "colored output (auto|always|never)" },
  { name := "config", kind := .text, purpose := "config file (default: ./structcheck.yaml)" },
  { name := "format", letter := 'f', kind := .text, purpose := "output format (text|table|json)" },
  { name := "jobs", letter := 'j', kind := .whole,
    purpose := "files checked at once (0: one per CPU)" },
  { name := "log-level", kind := .text, purpose := "log level (debug|info|warn|error)" },
  { name := "no-implicit-any", kind := .truth,
    purpose := "report parameters that silently become any" },
  { name := "suppress", kind := .texts,
    purpose := "drop diagnostics matching this pattern (repeatable)" },
  { name := "verbose", letter := 'v', kind := .truth, purpose := "debug logging" },
  { name := "workers", kind := .whole,
    purpose := "parallel workers for checking bodies (0: one per CPU)" }]

/-- The flags of the subcommand that checks files. -/
def checkFlags : List Flag := [
  { name := "dump-types", kind := .truth,
    purpose := "print the type of every top-level declaration" },
  { name := "watch", letter := 'w', kind := .truth,
    purpose := "check again whenever the file changes" }]

/-- The flag that asks for help. -/
def helpFlag (name : String) : Flag :=
  { name := "help", letter := 'h', kind := .truth, purpose := "help for " ++ name }

/-- The name of a subcommand. -/
def Subcommand.name : Subcommand → String
  | .root => program
  | .check => "check"
  | .version => "version"
  | .help => "help"

/-- The flags of a subcommand that it does not share, without those for help and version. -/
def Subcommand.ownFlags : Subcommand → List Flag
  | .check => checkFlags
  | _ => []

/-- The flags of a subcommand that are not shared by all. -/
def Subcommand.localFlags (c : Subcommand) : List Flag :=
  let version : List Flag := if c = .root then
      [{ name := "version", kind := .truth, purpose := "version for " ++ program }]
    else []
  c.ownFlags ++ helpFlag c.name :: version

/-- All flags of a subcommand. -/
def Subcommand.flags (c : Subcommand) : List Flag := c.localFlags ++ sharedFlags

/-- The subcommands by their names, and those that are only named. -/
def subcommands : List (String × Subcommand) :=
  [("check", .check), ("version", .version), ("help", .help), ("completion", .root)]

/-- Whether an argument is a flag that takes the next argument as its value. -/
def takesNext (known : List Flag) (argument : String) : Bool :=
  let isTruth := fun (f : Option Flag) => f.any (·.kind = .truth)
  if argument.toList.contains '=' then false
  else
    match argument.toList with
    | '-' :: '-' :: name => !isTruth (known.find? (·.name = String.ofList name))
    | ['-', letter] =>
      letter.utf8Size = 1 && !isTruth (known.find? (·.letter = some letter))
    | _ => false

/-- The arguments that are neither flags nor their values. A flag that takes the last argument ends
them. -/
def words (known : List Flag) : List String → List String
  | [] => []
  | a :: rest =>
    if a = "--" then []
    else if takesNext known a then
      match rest with
      | _ :: b :: more => words known (b :: more)
      | _ => []
    else if a.isEmpty || a.startsWith "-" then words known rest
    else a :: words known rest

/-- The arguments without the first that is a given word and no flag's value. -/
def dropWord (known : List Flag) (word : String) : List String → List String
  | [] => []
  | a :: rest =>
    if a = "--" then a :: rest
    else if takesNext known a then
      match rest with
      | value :: more => a :: value :: dropWord known word more
      | [] => [a]
    else if a = word then rest
    else a :: dropWord known word rest

/-- Why a command line asks for nothing. -/
inductive LineError where
  /-- A word that is no subcommand, with those that are similar. -/
  | unknownCommand (word : String) (similar : List String)
  | flags (e : FlagError)
  | noFiles

/-- The wording of the error. -/
def LineError.message : LineError → String
  | .unknownCommand word similar =>
    let hint := if similar.isEmpty then ""
      else "\n\nDid you mean this?\n" ++ String.join (similar.map fun s => "\t" ++ s ++ "\n")
    "unknown command " ++ Text.quoted word ++ " for " ++ Text.quoted program ++ hint
  | .flags e => e.message
  | .noFiles => "requires at least 1 arg(s), only received 0"

/-- The subcommands that a word may have been meant for: those at most two characters away, and
those that start with it. -/
def similarTo (word : String) : List String :=
  let typed := String.ofList (word.toList.map Text.lower)
  ["check", "version", "completion"].filter fun name =>
    decide (Text.distance typed.toUTF8.toList name.toUTF8.toList ≤ 2) || typed.isEmpty ||
      typed.toList.isPrefixOf name.toList

/-- What a command line asks for. -/
inductive Request where
  | help (c : Subcommand)
  | version (marked : Bool)
  | check (p : ParsedArguments)

/-- The subcommand that arguments name, with its arguments. -/
def find (arguments : List String) : Except LineError (Subcommand × List String) :=
  match words sharedFlags arguments with
  | [] => .ok (.root, arguments)
  | word :: _ =>
    match subcommands.lookup word with
    | some c => .ok (c, dropWord sharedFlags word arguments)
    | none => .error (.unknownCommand word (similarTo word))

/-- Whether a flag for a truth value is set. -/
def isSet (p : ParsedArguments) (name : String) : Bool :=
  p.flags.lookup name = some (.truth true)

/-- The text of a flag; empty when it is not set. -/
def textOf (p : ParsedArguments) (name : String) : String :=
  match p.flags.lookup name with
  | some (.text s) => s
  | _ => ""

/-- What the arguments of a subcommand ask for. -/
def request (c : Subcommand) (p : ParsedArguments) : Except LineError Request :=
  if isSet p "help" then .ok (.help c)
  else
    match c with
    | .root => .ok (if isSet p "version" then .version false else .help .root)
    | .version => .ok (.version true)
    | .help =>
      match p.others.head?.bind fun word => subcommands.lookup word with
      | some topic => .ok (.help topic)
      | none => .ok (.help .root)
    | .check => if p.others.isEmpty then .error .noFiles else .ok (.check p)

/-- What a command line asks for. -/
def parse (arguments : List String) : Except LineError Request :=
  match find arguments with
  | .error e => .error e
  | .ok (c, rest) =>
    match Flag.parse c.flags rest with
    | .error e => .error (.flags e)
    | .ok p => request c p

end ShapeCheck.Line
