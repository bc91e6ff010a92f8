/-!
# Comma-separated lists

A list of texts on one line with commas between them. A text may stand in double quotes, where
commas and line ends count as text and a quote is written twice.

* `Csv.firstRecord` reads the first line that is not empty.
-/

namespace ShapeCheck.Csv

/-- What is wrong with the quotes of a list. -/
inductive Fault where
  | bareQuote
  /-- A quoted text has no end, or something follows its end. -/
  | badQuote
  | nothing
  deriving DecidableEq, Repr

/-- A fault and its place: the line on which the list starts, and the line and the column, in bytes,
of the fault. -/
structure Error where
  fault : Fault
  start : Nat := 1
  line : Nat := 1
  column : Nat := 1

/-- The wording of the error. -/
def Error.message (e : Error) : String :=
  let place := "parse error on line " ++ toString e.line ++ ", column " ++ toString e.column ++ ": "
  let place :=
    if e.start = e.line then place else "record on line " ++ toString e.start ++ "; " ++ place
  match e.fault with
  | .bareQuote => place ++ "bare \" in non-quoted field"
  | .badQuote => place ++ "extraneous or missing \" in quoted-field"
  | .nothing => "EOF"

/-- Where in a text of the list the reader is. -/
inductive Place where
  | start
  | bare
  | quoted
  | afterQuote
  deriving DecidableEq

/-- A list half read. -/
structure Reader where
  first : Nat
  line : Nat
  column : Nat := 1
  place : Place := .start
  /-- The characters of the text under way, the latest first. -/
  field : List Char := []
  fields : List String := []

/-- Takes a character that belongs to the text under way. -/
def Reader.take (r : Reader) (place : Place) (c : Char) : Reader :=
  { r with place, field := c :: r.field, column := r.column + c.utf8Size }

/-- Ends the text under way. -/
def Reader.endField (r : Reader) : Reader :=
  { r with place := .start, field := [], column := r.column + 1
           fields := String.ofList r.field.reverse :: r.fields }

/-- The list read, with the text under way as its last. -/
def Reader.finish (r : Reader) : List String := r.endField.fields.reverse

/-- A fault at a column of the line reached. -/
def Reader.fail (r : Reader) (fault : Fault) (column : Nat) : Error :=
  { fault, start := r.first, line := r.line, column }

/-- Reads a list from its characters. -/
def readFields (r : Reader) : List Char → Except Error (List String)
  | [] => if r.place = .quoted then .error (r.fail .badQuote r.column) else .ok r.finish
  | c :: cs =>
    match r.place with
    | .start | .bare =>
      if c = '"' then
        if r.place = .start then
          readFields { r with place := .quoted, column := r.column + 1 } cs
        else .error (r.fail .bareQuote r.column)
      else if c = ',' then readFields r.endField cs
      else if c = '\n' then .ok r.finish
      else readFields (r.take .bare c) cs
    | .quoted =>
      if c = '"' then readFields { r with place := .afterQuote, column := r.column + 1 } cs
      else
        let next := r.take .quoted c
        if c = '\n' && !cs.isEmpty then readFields { next with line := r.line + 1, column := 1 } cs
        else readFields next cs
    | .afterQuote =>
      if c = '"' then readFields (r.take .quoted c) cs
      else if c = ',' then readFields r.endField cs
      else if c = '\n' then .ok r.finish
      else .error (r.fail .badQuote (r.column - 1))

/-- Reads the first line that is not empty. -/
def firstRecord (text : String) : Except Error (List String) :=
  let all := (text.replace "\r\n" "\n").toList
  let all := if all.getLast? = some '\r' then all.dropLast else all
  let empty := (all.takeWhile (· = '\n')).length
  match all.drop empty with
  | [] => .error { fault := .nothing }
  | cs => readFields { first := empty + 1, line := empty + 1 } cs

end ShapeCheck.Csv
