import ShapeCheck.Command

/-!
# The program

Reads the files that the command line names, runs the command on them and writes what it leaves
behind.
-/

namespace ShapeCheck.Main

/-- Tries to read a file. -/
def readFile (path : String) : IO (Except FileError String) := do
  try
    return .ok (← IO.FS.readFile path)
  catch
    | .noFileOrDirectory .. => return .error .missing
    | .inappropriateType .. => return .error .isDirectory
    | _ => return .error .notDirectory

/-- The names of the settings in the environment. -/
def settingNames : List String :=
  ["WORKERS", "JOBS", "FORMAT", "NO_IMPLICIT_ANY", "SUPPRESS", "VERBOSE", "LOG_LEVEL", "COLOR"]

/-- The settings in the environment. -/
def environment : IO (List (String × String)) := do
  let found ← settingNames.mapM fun name => do
    let marked := Settings.Layer.environmentMark ++ name
    return (← IO.getEnv marked).map fun value => (marked, value)
  return found.filterMap id

end ShapeCheck.Main

/-- Runs the program. -/
def main (arguments : List String) : IO UInt32 := do
  let start ← IO.monoMsNow
  let root := (← IO.currentDir).toString
  let reads ← (ShapeCheck.Command.paths root arguments).mapM fun path => do
    return (path, ← ShapeCheck.Main.readFile path)
  let files := ShapeCheck.Files.ofReads root reads
  let environment ← ShapeCheck.Main.environment
  let stop ← IO.monoMsNow
  let elapsed := toString (stop - start) ++ "ms"
  let outcome := ShapeCheck.Command.run files environment elapsed arguments
  IO.print outcome.output
  IO.eprint outcome.messages
  return outcome.exit.toUInt32
