import ShapeCheck.Check.Pass
import ShapeCheck.Document
import ShapeCheck.Report.Format
import ShapeCheck.Suppression
import ShapeCheck.Text.Quoted

/-!
# Reports

A report is the outcome of a pass over a source: what the pass found, the diagnostics that are kept,
and how many are left out.

* `Report.ofSource` loads and checks a source.
* `Report.render` shows the kept diagnostics in a format.
* `Report.symbols` lists the types of the top-level names, sorted by name, each text with its length
  in bytes.
-/

namespace ShapeCheck

/-- The outcome of a pass over a source. -/
structure Report where
  path : String
  checked : Checked
  kept : List Diagnostic
  deriving Inhabited

namespace Report

/-- How many diagnostics are left out. -/
def suppressed (r : Report) : Nat := r.checked.diagnostics.length - r.kept.length

/-- Whether no diagnostics are left. -/
def isClean (r : Report) : Bool := r.kept.isEmpty

/-- The report on what a pass found. -/
def ofChecked (suppression : Suppression) (path : String) (checked : Checked) : Report :=
  { path, checked, kept := suppression.keep checked.diagnostics }

/-- Loads and checks a source. There is no report when the work on a type takes too many steps. -/
def ofSource (options : CheckOptions) (suppression : Suppression) (path : String)
    (source : Source) : Except Document.LoadError (Option Report) :=
  match Document.load source with
  | .error e => .error e
  | .ok program => .ok ((program.check options).map (ofChecked suppression path))

/-- The kept diagnostics in a format. -/
def render (format : Format) (r : Report) : String := format.render r.kept

/-! ## Types of top-level names -/

/-- A text with its type and its length in bytes; an empty text has no length. -/
def sizedText (s : String) : String :=
  let size := if s.isEmpty then "" else "(len=" ++ toString s.utf8ByteSize ++ ") "
  "(string) " ++ size ++ Text.quoted s

/-- A map from text to text, in the given order. -/
def textMap (entries : List (String × String)) : String :=
  let size := if entries.isEmpty then "" else "(len=" ++ toString entries.length ++ ") "
  let written := entries.map fun (name, value) =>
    "  " ++ sizedText name ++ ": " ++ sizedText value
  "(map[string]string) " ++ size ++ "\x7b\n" ++ ",\n".intercalate written ++
    (if entries.isEmpty then "" else "\n") ++ "\x7d\n"

/-- The types of the top-level names. -/
def symbols (c : Checked) : String :=
  let entries := c.symbols.map fun (name, type) => (name, c.table.text type)
  textMap (entries.mergeSort fun a b => decide (a.1 ≤ b.1))

end Report

end ShapeCheck
