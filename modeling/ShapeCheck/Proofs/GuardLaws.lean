import ShapeCheck.Proofs.Speculation

/-!
# Laws of guards

The guards of `&&` and `||` are built apart, each from both sides of its parts, but they are dual:
what the one does with the side where its condition holds the other does with the side where it
fails. So a negation may be moved across them. Conditions that assign no variable leave the
environments as they are, and so does finding out what they prove.

* `Guard.either_not` and `Guard.both_not` are the duality for guards of any origin.
* `Walk.guard_deMorgan` says both laws and that of double negation for conditions.
-/

namespace ShapeCheck

open Check

namespace Guard

/-- What work proves, for the negated condition. -/
def not (work : Check Guard) : Check Guard := do return (← work).negated

variable {typeOf : String → Check (Option Ty)}

@[simp] theorem not_not (work : Check Guard) : not (not work) = work := by
  simp [not, negated]

/-- A disjunction of negations fails where a conjunction holds, and holds where it fails. -/
theorem either_not (left right : Check Guard) :
    either typeOf (not left) (not right) = not (both typeOf left right) := by
  simp [either, both, not, inFrame, negated]

/-- A conjunction of negations fails where a disjunction holds, and holds where it fails. -/
theorem both_not (left right : Check Guard) :
    both typeOf (not left) (not right) = not (either typeOf left right) := by
  simp [either, both, not, inFrame, negated]

end Guard

namespace Walk

/-! ## Laws for conditions -/

section Laws

variable {settle : String → Check Unit} {a b : Expr} {p q : Site}

@[simp] theorem guard_not : guard settle (.unary p .not a) = Guard.not (guard settle a) := by
  rw [guard, Guard.not]

@[simp] theorem guard_and : guard settle (.binary p a .and b) =
    Guard.both (typeOfName settle) (guard settle a) (guard settle b) := by
  rw [guard]

@[simp] theorem guard_or : guard settle (.binary p a .or b) =
    Guard.either (typeOfName settle) (guard settle a) (guard settle b) := by
  rw [guard]

end Laws

/-- A condition that assigns nothing leaves the environments as they are. -/
theorem guard_keeps_scopes {units : Array Declaration} {e : Expr} {w : Walker} {s s' : Session}
    {g : Guard} (hsettled : s.Settled) (hframe : s.scopes.framesOf w.environment ≠ [])
    (hleaks : e.leaks = []) (h : guard (Function.settle units) e w s = some (g, s')) :
    s'.scopes = s.scopes := by
  have hleaves : Leaves True (.narrowing []) (guard (Function.settle units) e) :=
    leaves_guard Function.leaves_settle_settled _ e (by simp [hleaks])
  exact (hleaves (fun _ => hsettled) h).scopes.eq hframe

/-- Negated conjunctions and disjunctions prove what the other connective proves of the negated
parts, and a double negation proves what the condition proves: the same types for the same names,
where the condition holds and where it fails. Where no result type is left to infer, names have the
types afterwards that they had before; what a right part assigns is forgotten with its frame, so
only the left part must assign nothing. -/
theorem guard_deMorgan {units : Array Declaration} {a b : Expr} {w : Walker} {s : Session}
    (hsettled : s.Settled) (hframe : s.scopes.framesOf w.environment ≠ [])
    (ha : a.leaks = []) (p q : Site) :
    let proved (e : Expr) := guard (Function.settle units) e w s
    let not (e : Expr) : Expr := .unary p .not e
    let and (l r : Expr) : Expr := .binary q l .and r
    let or (l r : Expr) : Expr := .binary q l .or r
    proved (not (and a b)) = proved (or (not a) (not b)) ∧
    proved (not (or a b)) = proved (and (not a) (not b)) ∧
    proved (not (not a)) = proved a ∧
    ∀ e ∈ [not (and a b), or (not a) (not b), not (or a b), and (not a) (not b), not (not a), a],
      ∀ g s', proved e = some (g, s') →
        ∀ i name, s'.scopes.lookup i name = s.scopes.lookup i name := by
  intro proved not and or
  refine ⟨?and, ?or, ?double, ?same⟩
  case and =>
    simp only [proved, not, and, or, guard_not, guard_and, guard_or, Guard.either_not]
  case or =>
    simp only [proved, not, and, or, guard_not, guard_and, guard_or, Guard.both_not]
  case double =>
    simp only [proved, not, guard_not, Guard.not_not]
  case same =>
    intro e he g s' hrun i name
    have hleaks : e.leaks = [] := by
      -- only the left part of a connective may narrow a name outside
      have hall : ∀ e ∈ [not (and a b), or (not a) (not b), not (or a b), and (not a) (not b),
          not (not a), a], e.leaks = a.leaks := by
        simp [not, and, or, Expr.leaks]
      rw [hall e he, ha]
    rw [guard_keeps_scopes hsettled hframe hleaks hrun]

/-- A session with a variable `x` of unknown type and a flag `y`. -/
def flagged : Session :=
  { scopes := (((({} : Scopes).add none).2.define 0 "x" ⟨.unknown, false⟩).2.define 0 "y"
      ⟨.boolean, false⟩).2 }

/-- The test whether that variable is a text. -/
def textTest : Expr :=
  .binary {} (.typeof {} (.identifier {} "x")) .strictEqual (.string {} "string")

/-- What the negated conjunction of that test and the flag proves: where it holds the variable is of
unknown type still, and where it fails it is a text. The types of the names are as before. -/
theorem guard_deMorgan_textTest :
    let flag : Expr := .identifier {} "y"
    let negated : Expr := .unary {} .not (.binary {} textTest .and flag)
    ∃ g s', guard (Function.settle #[]) negated {} flagged = some (g, s') ∧
      guard (Function.settle #[])
        (.binary {} (.unary {} .not textTest) .or (.unary {} .not flag)) {} flagged =
          some (g, s') ∧
      g.whenTrue = [("x", .unknown), ("y", .boolean)] ∧
      g.whenFalse = [("x", .string), ("y", .truth true)] ∧
      ∀ i name, s'.scopes.lookup i name = flagged.scopes.lookup i name := by
  intro flag negated
  have hrun : (guard (Function.settle #[]) negated {} flagged).map
      (fun r => (r.1.whenTrue, r.1.whenFalse)) =
        some ([("x", .unknown), ("y", .boolean)], [("x", .string), ("y", .truth true)]) := by
    decide +kernel
  obtain ⟨⟨g, s'⟩, h, hg⟩ := Option.map_eq_some_iff.mp hrun
  have hframe : flagged.scopes.framesOf 0 ≠ [] := by
    intro hnil
    have : (flagged.scopes.framesOf 0).length = 1 := by decide +kernel
    simp [hnil] at this
  have hsettled : flagged.Settled := fun p hp => absurd hp List.not_mem_nil
  have hlaws := @guard_deMorgan #[] textTest flag {} flagged hsettled hframe
    rfl {} {}
  refine ⟨g, s', h, hlaws.1.symm.trans h, congrArg Prod.fst hg, congrArg Prod.snd hg, ?_⟩
  exact hlaws.2.2.2 negated List.mem_cons_self g s' h

end Walk

end ShapeCheck
