import ShapeCheck.Report

/-!
# Batches

Several files are checked in a batch, each on its own. A file that cannot be loaded does not stop
the others, and a batch that is cancelled before it starts checks none.

* `Batch.run` checks the files of a batch.
-/

namespace ShapeCheck

/-- Why there is no report on a file. -/
inductive BatchFailure where
  | cancelled
  | load (e : Document.LoadError)
  | tooManySteps

/-- The wording of the failure. -/
def BatchFailure.message : BatchFailure → String
  | .cancelled => "context canceled"
  | .load e => e.message
  | .tooManySteps => "too many steps"

/-- What became of a file of a batch. -/
structure FileResult where
  path : String
  outcome : Except BatchFailure Report

namespace FileResult

/-- Whether the file was started. -/
def started (r : FileResult) : Bool :=
  match r.outcome with
  | .error .cancelled => false
  | _ => true

/-- Whether the file was checked. -/
def completed (r : FileResult) : Bool :=
  match r.outcome with
  | .ok _ => true
  | .error _ => false

/-- Whether the file was started and not checked. -/
def failed (r : FileResult) : Bool := r.started && !r.completed

end FileResult

namespace Batch

/-- How many files are checked at once: as many as asked for, or one per processor, and no more than
there are files. -/
def workers (jobs : Int) (processors files : Nat) : Nat :=
  min (if jobs ≤ 0 then processors else jobs.toNat) files

/-- Checks a file. -/
def checkFile (options : CheckOptions) (suppression : Suppression) (files : Files) (path : String) :
    Except BatchFailure Report :=
  match files.read path with
  | .error e => .error (.load (.unreadable path e))
  | .ok content =>
    match Report.ofSource options suppression path (.ofFile path content) with
    | .error e => .error (.load e)
    | .ok none => .error .tooManySteps
    | .ok (some r) => .ok r

/-- Checks the files of a batch, in order. -/
def run (options : CheckOptions) (suppression : Suppression) (files : Files) (cancelled : Bool)
    (paths : List String) : List FileResult :=
  paths.map fun path =>
    { path, outcome :=
        if cancelled then .error .cancelled else checkFile options suppression files path }

/-- How many files were checked. -/
def completed (rs : List FileResult) : Nat := rs.countP FileResult.completed

/-- How many files could not be checked. -/
def failed (rs : List FileResult) : Nat := rs.countP FileResult.failed

end Batch

end ShapeCheck
