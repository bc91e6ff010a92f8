import ShapeCheck.Diagnostic
import ShapeCheck.Text.Quoted
import ShapeCheck.Text.Width

/-!
# Report formats

Diagnostics are shown as lines, as a table or as JSON. The formats have names, in letters of any
case; no name means lines.

* Lines: a heading for each diagnostic, and below it the line of the source that it is about with a
  mark under the column.
* Table: a box of lines with a row for each diagnostic and the columns place, kind, declaration and
  message. A cell of several lines makes its row so high; columns are as wide as their widest line,
  counted in terminal cells.
* JSON: an indented list of objects. A file, a line, a column and a declaration are left out when
  there is none. In strings the characters that mean something in HTML and the two line separators
  that scripts take for line ends are written by their codes.
-/

namespace ShapeCheck

namespace Report

/-! ## Lines -/

/-- A piece of text laid out as a block: tabs become four spaces, line ends are one character, and
all lines of a text of several lines take the cells of the widest. -/
def block (s : String) : String :=
  let lines := ((Text.expandTabs s).replace "\r\n" "\n").splitOn "\n"
  match lines with
  | [line] => line
  | _ => "\n".intercalate (lines.map (Text.padRight ((lines.map Text.cells).foldl max 0)))

/-- The text without the blanks and line ends after it. -/
def trimEnd (s : String) : String :=
  String.ofList
    (s.toList.reverse.dropWhile fun c => c = '\r' || c = '\n' || c = '\t' || c = ' ').reverse

/-- The quoted line of a diagnostic with the mark under it. There is none when the source or the
line is not known or the line is blank. -/
def quotedLine (d : Diagnostic) : String :=
  match d.source with
  | none => ""
  | some source =>
    let line := trimEnd (source.line d.position.line)
    if !d.position.isKnown || line.isEmpty then ""
    else
      "  " ++ block line ++ "\n  " ++ Text.spaces (d.position.column - 1).toNat ++ "^\n\n"

/-- A diagnostic with its heading and the line it is about. -/
def entry (d : Diagnostic) : String :=
  block (d.location ++ ":") ++ " " ++ block (d.kind ++ " Error:") ++ " " ++ d.message ++ "\n" ++
    quotedLine d

/-- The diagnostics as lines. -/
def lines (ds : List Diagnostic) : String := String.join (ds.map entry)

/-! ## Tables -/

/-- Writes characters over a line from its start: what is longer than the characters stays. -/
def overwrite (line chars : List Char) : List Char := chars ++ line.drop chars.length

/-- The line that is seen when each carriage return goes back to the start of the line. -/
def settleReturns (line : String) : String :=
  String.ofList (((line.splitOn "\r").map String.toList).foldl overwrite [])

/-- The lines of a cell. -/
def cellLines (s : String) : List String :=
  (((Text.expandTabs s).replace "\r\n" "\n").splitOn "\n").map settleReturns

/-- A row of a table: the lines of each of its cells. -/
abbrev Row := List (List String)

/-- The widths of the columns of a table. -/
def columnWidths (rows : List Row) : List Nat :=
  rows.foldl
    (fun widths row => (widths.zip row).map fun (w, cell) => (cell.map Text.cells).foldl max w)
    (List.replicate ((rows.head?.map List.length).getD 0) 0)

/-- A cell's line filled up to the width of its column. Spaces at its end do not count. -/
def padCell (width : Nat) (s : String) : String :=
  Text.padRight width (String.ofList (s.toList.reverse.dropWhile (· = ' ')).reverse)

/-- The lines of a row between the walls of the box. -/
def rowLines (widths : List Nat) (row : Row) : List String :=
  let height := (row.map List.length).foldl max 0
  (List.range height).map fun i =>
    let cells := (widths.zip row).map fun (w, cell) => " " ++ padCell w ((cell[i]?).getD "") ++ " "
    "│" ++ "│".intercalate cells ++ "│"

/-- A horizontal line of the box with the given joints. -/
def rule (left joint right : String) (widths : List Nat) : String :=
  let segments := widths.map fun w => String.ofList (List.replicate (w + 2) '─')
  left ++ joint.intercalate segments ++ right

/-- A table in a box, the heading set apart from the rows. -/
def box (heading : Row) (rows : List Row) : String :=
  let widths := columnWidths (heading :: rows)
  let lines := rule "┌" "┬" "┐" widths :: rowLines widths heading ++
    rule "├" "┼" "┤" widths :: rows.flatMap (rowLines widths) ++ [rule "└" "┴" "┘" widths]
  "\n".intercalate lines ++ "\n"

/-- The heading of the table. -/
def heading : Row := [["LOCATION"], ["KIND"], ["DECLARATION"], ["MESSAGE"]]

/-- The row of a diagnostic. -/
def row (d : Diagnostic) : Row := [d.location, d.kind, d.declaration, d.message].map cellLines

/-- The diagnostics as a table. -/
def table (ds : List Diagnostic) : String :=
  if ds.isEmpty then "(no diagnostics)\n" else box heading (ds.map row)

/-! ## JSON -/

/-- A character as it stands in a JSON string. -/
def jsonChar (c : Char) : List Char :=
  if c = '"' || c = '\\' then ['\\', c]
  else if c = '\x08' then ['\\', 'b']
  else if c = '\x0c' then ['\\', 'f']
  else if c = '\n' then ['\\', 'n']
  else if c = '\r' then ['\\', 'r']
  else if c = '\t' then ['\\', 't']
  else if c.toNat < 0x20 || ['<', '>', '&', '\u2028', '\u2029'].contains c then
    '\\' :: 'u' :: Text.hexDigits 4 c.toNat
  else [c]

/-- A JSON string. -/
def jsonString (s : String) : String :=
  String.ofList ('"' :: s.toList.flatMap jsonChar ++ ['"'])

/-- A field with a text, unless the text is empty. -/
def textField? (name value : String) : List (String × String) :=
  if value.isEmpty then [] else [(name, jsonString value)]

/-- A field with a number, unless the number is zero. -/
def numberField? (name : String) (value : Int) : List (String × String) :=
  if value = 0 then [] else [(name, toString value)]

/-- The fields of a diagnostic with their written values. -/
def fields (d : Diagnostic) : List (String × String) :=
  textField? "file" d.file ++ numberField? "line" d.position.line ++
    numberField? "column" d.position.column ++ [("kind", jsonString d.kind)] ++
    textField? "declaration" d.declaration ++ [("message", jsonString d.message)]

/-- A diagnostic as a member of the list. -/
def member (d : Diagnostic) : String :=
  let written := (fields d).map fun (name, value) => "    " ++ jsonString name ++ ": " ++ value
  "  \x7b\n" ++ ",\n".intercalate written ++ "\n  \x7d"

/-- The diagnostics as JSON. -/
def json (ds : List Diagnostic) : String :=
  if ds.isEmpty then "[]\n" else "[\n" ++ ",\n".intercalate (ds.map member) ++ "\n]\n"

end Report

/-! ## Formats by name -/

/-- A format of reports. -/
inductive Format where
  | text
  | table
  | json
  deriving DecidableEq, Inhabited, Repr

namespace Format

/-- The format with a name. -/
def ofName? (name : String) : Option Format :=
  match name.toLower with
  | "text" | "" => some .text
  | "table" => some .table
  | "json" => some .json
  | _ => none

/-- The wording of the error that there is no format with a name. -/
def unknownName (name : String) : String :=
  "unknown output format " ++ Text.quoted name ++ " (want text, table or json)"

/-- The diagnostics in a format. -/
def render : Format → List Diagnostic → String
  | .text => Report.lines
  | .table => Report.table
  | .json => Report.json

end Format

end ShapeCheck
