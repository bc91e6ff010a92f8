import ShapeCheck.Source

/-!
# Diagnostics

A diagnostic is a problem as it is reported: its place, the name of its kind, the wording and the
declaration around it. Diagnostics of several sources are put in the order of files, lines and
columns by `Diagnostic.sorted`, which keeps diagnostics of one place as they come.
-/

namespace ShapeCheck

/-- A problem as it is reported. -/
structure Diagnostic where
  source : Option Source := none
  position : Position := {}
  kind : String
  message : String
  /-- The name of the declaration around it; empty for statements. -/
  declaration : String := ""
  deriving Inhabited

namespace Diagnostic

/-- The file that the diagnostic is in; empty when its source is not known. -/
def file (d : Diagnostic) : String := (d.source.map Source.displayPath).getD ""

/-- The place of the diagnostic with its file. -/
def location (d : Diagnostic) : String := d.position.render d.file

/-- The diagnostic on one line. The place is left out when the line is not known. -/
def text (d : Diagnostic) : String :=
  let cause := d.kind ++ " Error: " ++ d.message
  if d.position.isKnown then d.location ++ ": " ++ cause else cause

/-- The kind and the wording, which suppression patterns are matched with. -/
def subject (d : Diagnostic) : String := d.kind ++ ": " ++ d.message

/-- Whether the first diagnostic may stand before the second: by file, then line, then column. -/
def isBefore (a b : Diagnostic) : Bool :=
  if a.file ≠ b.file then decide (a.file < b.file)
  else if a.position.line ≠ b.position.line then decide (a.position.line < b.position.line)
  else decide (a.position.column ≤ b.position.column)

/-- The diagnostics in the order of their places; those of one place keep their order. -/
def sorted (ds : List Diagnostic) : List Diagnostic := ds.mergeSort isBefore

/-- How many diagnostics there are of a kind. -/
def countOf (ds : List Diagnostic) (kind : String) : Nat := ds.countP (·.kind = kind)

/-- The kinds that occur, each with the number of its diagnostics. -/
def countByKind (ds : List Diagnostic) : List (String × Nat) :=
  (ds.map kind).eraseDups.map fun k => (k, countOf ds k)

end Diagnostic

end ShapeCheck
