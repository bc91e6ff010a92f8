/-!
# Sources and positions

A source is a declaration file, or text given under a display name. A position is a line and a
column in a source, both counted from one; a line that is not positive means the place is unknown.
-/

namespace ShapeCheck

/-- A text to check, kept so that reports can quote its lines. -/
structure Source where
  name : String := ""
  /-- The path of the file; empty for text that is no file. -/
  path : String := ""
  content : String := ""
  deriving Inhabited, Repr

/-- A place in a source. -/
structure Position where
  line : Int := 0
  column : Int := 0
  deriving DecidableEq, Inhabited, Repr

namespace Position

/-- Whether the position points at a line. -/
def isKnown (p : Position) : Bool := decide (0 < p.line)

/-- The position as `line:column`. -/
def text (p : Position) : String := toString p.line ++ ":" ++ toString p.column

end Position

namespace Source

/-- The last element of a slash-separated path: trailing slashes do not count, an empty path is a
dot, and a path of slashes only is one slash. -/
def baseName (path : String) : String :=
  if path.isEmpty then "."
  else
    let trimmed := (path.toList.reverse.dropWhile (· = '/'))
    if trimmed.isEmpty then "/"
    else String.ofList (trimmed.takeWhile (· ≠ '/')).reverse

/-- The source read from a file. -/
def ofFile (path content : String) : Source :=
  { name := baseName path, path := path, content := content }

/-- The source read from standard input. -/
def ofStandardInput (content : String) : Source :=
  { name := "<stdin>", content := content }

/-- The lines of the text. A final newline is followed by an empty line. -/
def lines (s : Source) : List String := (s.content.toList.splitOn '\n').map String.ofList

/-- The line with the given number, or nothing when there is none. -/
def line (s : Source) (n : Int) : String :=
  if n < 1 then "" else (s.lines[(n - 1).toNat]?).getD ""

/-- The path if there is one, the display name otherwise. -/
def displayPath (s : Source) : String :=
  if s.path.isEmpty then s.name else s.path

/-- Whether the source is a file. -/
def isFile (s : Source) : Bool := !s.path.isEmpty

end Source

/-- A position together with the name of its source; an unnamed source reads `<unknown>`, and an
unknown position is left out. -/
def Position.render (file : String) (p : Position) : String :=
  let name := if file.isEmpty then "<unknown>" else file
  if p.isKnown then name ++ ":" ++ p.text else name

end ShapeCheck
