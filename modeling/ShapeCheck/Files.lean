/-!
# Files

What the checker sees of the files around it: their texts, or why they cannot be read, and the path
of the working directory. `Files.ofTexts` is a working directory with given files.
-/

namespace ShapeCheck

/-- Why a file cannot be read. -/
inductive FileError where
  | missing
  | notDirectory
  | isDirectory
  deriving DecidableEq, Repr

/-- The wording of the error. -/
def FileError.message (path : String) : FileError → String
  | .missing => "open " ++ path ++ ": no such file or directory"
  | .notDirectory => "open " ++ path ++ ": not a directory"
  | .isDirectory => "read " ++ path ++ ": is a directory"

/-- The files that can be read. -/
structure Files where
  root : String := ""
  read : String → Except FileError String := fun _ => .error .missing

namespace Files

/-- Follows the parts of a path from a directory given by its parts, the last first. Nothing is
found above the working directory. -/
def follow : List String → List String → Option (List String)
  | done, [] => some done
  | done, part :: rest =>
    if part = "" || part = "." then follow done rest
    else if part = ".." then
      match done with
      | [] => none
      | _ :: done => follow done rest
    else follow (part :: done) rest

/-- The parts of a path, seen from the working directory. -/
def partsOf (root path : String) : Option (List String) :=
  let inside := if path.startsWith (root ++ "/") && !root.isEmpty then
      String.ofList (path.toList.drop (root.length + 1))
    else path
  if inside.startsWith "/" then none
  else (follow [] (inside.splitOn "/")).map List.reverse

/-- Reads a path where the given files are, each with the parts of its path. -/
def readParts (files : List (List String × String)) (path : String) (parts : List String) :
    Except FileError String :=
  match files.lookup parts with
  | some text => if path.endsWith "/" then .error .notDirectory else .ok text
  | none =>
    if parts.isEmpty || files.any (fun (f, _) => parts.isPrefixOf f) then .error .isDirectory
    else if files.any (fun (f, _) => f.isPrefixOf parts) then .error .notDirectory
    else .error .missing

/-- A working directory with files given by their paths and texts. -/
def ofTexts (root : String) (texts : List (String × String)) : Files where
  root := root
  read path :=
    let files := texts.filterMap fun (name, text) =>
      (partsOf root name).map fun parts => (parts, text)
    if path.isEmpty then .error .missing
    else
      match partsOf root path with
      | none => .error .missing
      | some parts => readParts files path parts

/-- Files whose reading has been tried before. -/
def ofReads (root : String) (reads : List (String × Except FileError String)) : Files where
  root := root
  read path := (reads.lookup path).getD (.error .missing)

end Files

end ShapeCheck
