import ShapeCheck.Diagnostic
import ShapeCheck.Pattern.Match
import ShapeCheck.Pattern.Read
import ShapeCheck.Text.Quoted

/-!
# Suppression

Diagnostics that match one of a list of patterns are left out of a report. A pattern is matched with
the kind and the message of the diagnostic, anywhere in them.

* `Suppression.read` reads the patterns.
* `Suppression.keep` leaves out what is suppressed.
-/

namespace ShapeCheck

/-- The patterns of what is left out. -/
structure Suppression where
  patterns : List Pattern := []
  deriving Inhabited

/-- A pattern that cannot be read, with the error in it. -/
structure SuppressionError where
  pattern : String
  cause : PatternError

/-- The wording of the error. -/
def SuppressionError.message (e : SuppressionError) : String :=
  "invalid suppress pattern " ++ Text.quoted e.pattern ++ ": " ++ e.cause.message e.pattern

namespace Suppression

/-- Reads one pattern. -/
def readPattern (text : String) : Except SuppressionError Pattern :=
  match Pattern.read text with
  | .ok p => .ok p
  | .error cause => .error { pattern := text, cause }

/-- Reads the patterns; the first that cannot be read is the error. -/
def read (texts : List String) : Except SuppressionError Suppression :=
  return { patterns := ← texts.mapM readPattern }

/-- Whether a diagnostic is left out. -/
def covers (s : Suppression) (d : Diagnostic) : Bool := s.patterns.any (·.occursIn d.subject)

/-- The diagnostics that are not left out, in order. -/
def keep (s : Suppression) (ds : List Diagnostic) : List Diagnostic := ds.filter (!s.covers ·)

end Suppression

end ShapeCheck
