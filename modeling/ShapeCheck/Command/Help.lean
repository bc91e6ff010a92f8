import ShapeCheck.Command.Line

/-!
# Help

The help texts of the program and its subcommands: what they do, how they are used, and their flags
in columns.
-/

namespace ShapeCheck.Line

/-- The name of what a flag takes, as help shows it. -/
def takenName : FlagKind → String
  | .whole => " int"
  | .text => " string"
  | .truth => ""
  | .texts => " strings"

/-- The first column of a flag in help. -/
def flagColumn (f : Flag) : String :=
  let letter := match f.letter with
    | some l => "  -" ++ String.singleton l ++ ", "
    | none => "      "
  letter ++ "--" ++ f.name ++ takenName f.kind

/-- The flags in help, by name, their purposes in a column of their own. -/
def flagTable (flags : List Flag) : String :=
  let sorted := flags.mergeSort fun a b => decide (a.name ≤ b.name)
  let width := (sorted.map fun f => (flagColumn f).length).foldl max 0
  "\n".intercalate (sorted.map fun f =>
    let column := flagColumn f
    column ++ String.ofList (List.replicate (width + 3 - column.length) ' ') ++ f.purpose)

/-- The help text of the program. -/
def programHelp : String :=
  "structcheck checks YAML declaration files written with TypeScript-like\n" ++
  "type annotations: aliases, interfaces, enums, classes, generic functions\n" ++
  "and overloads.\n\n" ++
  "Usage:\n  structcheck [command]\n\n" ++
  "Available Commands:\n" ++
  "  check       Type-check declaration files\n" ++
  "  completion  Generate the autocompletion script for the specified shell\n" ++
  "  help        Help about any command\n" ++
  "  version     Show version information\n\n" ++
  "Flags:\n" ++ flagTable Subcommand.root.flags ++ "\n\n" ++
  "Use \"structcheck [command] --help\" for more information about a command.\n"

/-- The help text of a subcommand with its purpose and its use. -/
def subcommandHelp (c : Subcommand) (purpose use : String) : String :=
  purpose ++ "\n\nUsage:\n  structcheck " ++ use ++ " [flags]\n\nFlags:\n" ++
    flagTable c.localFlags ++ "\n\nGlobal Flags:\n" ++ flagTable sharedFlags ++ "\n"

/-- The help text of the program or of a subcommand. -/
def help : Subcommand → String
  | .root => programHelp
  | .check => subcommandHelp .check "Type-check declaration files" "check <file.yaml>..."
  | .version => subcommandHelp .version "Show version information" "version"
  | .help => subcommandHelp .help
      ("Help provides help for any command in the application.\n" ++
        "Simply type structcheck help [path to command] for full details.") "help [command]"

end ShapeCheck.Line
