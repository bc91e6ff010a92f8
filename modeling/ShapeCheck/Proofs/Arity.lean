import Mathlib
import ShapeCheck.Check.Call

/-!
# Numbers of arguments

A parameter list takes a number of arguments if they reach past its required part, and that part
ends in front of the first parameter that may be left out. So what comes after such a parameter is
not counted, whether it may be left out itself or not.

* `Callable.inOrder_iff` says for which lists an accepted number of arguments supplies every
  parameter that has to be supplied.
* `Call.supplies` puts this together for calls.
-/

namespace ShapeCheck

namespace Callable

variable {c : Callable} {n : Nat}

/-- After a parameter that may be left out come only such parameters. -/
def InOrder (c : Callable) : Prop :=
  c.params.Pairwise fun p q => p.optional = true → q.optional = true

/-- So many arguments supply every parameter that may not be left out. -/
def Supplies (c : Callable) (n : Nat) : Prop := ∀ p ∈ c.params.drop n, p.optional = true

instance (c : Callable) : Decidable c.InOrder :=
  inferInstanceAs (Decidable (c.params.Pairwise fun p q => p.optional = true → q.optional = true))

instance (c : Callable) (n : Nat) : Decidable (c.Supplies n) :=
  inferInstanceAs (Decidable (∀ p ∈ c.params.drop n, p.optional = true))

theorem acceptsArity_iff :
    c.acceptsArity n = true ↔ c.required ≤ n ∧ (c.rest.isSome = true ∨ n ≤ c.params.length) := by
  simp [acceptsArity]

/-- The required part ends at the first parameter that may be left out. -/
theorem required_eq (c : Callable) : c.required = c.params.findIdx (·.optional) := by
  rw [required, List.takeWhile_eq_take_findIdx_not, List.length_take]
  simp only [Bool.not_not]
  exact Nat.min_eq_left List.findIdx_le_length

theorem supplies_iff : c.Supplies n ↔ ∀ i p, c.params[i]? = some p → n ≤ i → p.optional = true := by
  constructor
  · intro h i p hp hi
    apply h p
    apply List.mem_of_getElem? (i := i - n)
    rw [List.getElem?_drop, Nat.add_sub_cancel' hi, hp]
  · intro h p hp
    obtain ⟨k, hk⟩ := List.getElem?_of_mem hp
    rw [List.getElem?_drop] at hk
    exact h (n + k) p hk (Nat.le_add_right n k)

/-- A number of arguments reaches past the required part exactly if each parameter that it leaves
out may be left out or comes after one that may. -/
theorem required_le_iff :
    c.required ≤ n ↔ ∀ i p, c.params[i]? = some p → n ≤ i →
      ∃ j q, j ≤ i ∧ c.params[j]? = some q ∧ q.optional = true := by
  rw [required_eq]
  constructor
  · intro hn i p hp hi
    have hlt : c.params.findIdx (·.optional) < c.params.length := by
      have := (List.getElem?_eq_some_iff.mp hp).1
      omega
    refine ⟨_, _, by omega, List.getElem?_eq_getElem hlt, ?_⟩
    exact List.findIdx_getElem (w := hlt)
  · intro h
    by_contra hn
    have hend : c.params.findIdx (·.optional) ≤ c.params.length := List.findIdx_le_length
    have hlt : n < c.params.length := by omega
    obtain ⟨j, q, hj, hq, hopt⟩ := h n _ (List.getElem?_eq_getElem hlt) (Nat.le_refl n)
    obtain ⟨hlen, rfl⟩ := List.getElem?_eq_some_iff.mp hq
    have hbefore : j < c.params.findIdx (·.optional) := by omega
    exact Bool.false_ne_true ((List.not_of_lt_findIdx hbefore).symm.trans hopt)

/-- In a list in order, what comes at or after a parameter that may be left out may be left out. -/
theorem InOrder.optional (h : c.InOrder) {i j : Nat} {p q : Parameter} (hj : j ≤ i)
    (hp : c.params[i]? = some p) (hq : c.params[j]? = some q) (hopt : q.optional = true) :
    p.optional = true := by
  obtain ⟨hlen, rfl⟩ := List.getElem?_eq_some_iff.mp hp
  obtain ⟨hlen', rfl⟩ := List.getElem?_eq_some_iff.mp hq
  rcases Nat.eq_or_lt_of_le hj with rfl | hlt
  · exact hopt
  · exact List.pairwise_iff_getElem.mp h j i hlen' hlen hlt hopt

theorem InOrder.supplies_of_accepted (h : c.InOrder)
    (hn : c.acceptsArity n = true) : c.Supplies n := by
  rw [supplies_iff]
  intro i p hp hi
  obtain ⟨j, q, hj, hq, hopt⟩ := required_le_iff.mp (acceptsArity_iff.mp hn).1 i p hp hi
  exact h.optional hj hp hq hopt

/-- An accepted number of arguments supplies every parameter that may not be left out exactly if the
parameters are in order. -/
theorem inOrder_iff : c.InOrder ↔ ∀ n, c.acceptsArity n = true → c.Supplies n := by
  constructor
  · intro h n hn
    exact h.supplies_of_accepted hn
  · intro h
    -- The number that stops right in front of the second parameter is accepted.
    apply List.pairwise_iff_getElem.mpr
    intro i j hi hj hlt hopt
    have haccepts : c.acceptsArity j = true := by
      refine acceptsArity_iff.mpr ⟨?_, Or.inr (Nat.le_of_lt hj)⟩
      apply required_le_iff.mpr
      intro k _ _ hk
      exact ⟨i, _, by omega, List.getElem?_eq_getElem hi, hopt⟩
    exact supplies_iff.mp (h j haccepts) j _ (List.getElem?_eq_getElem hj) (Nat.le_refl j)

end Callable

namespace Call

open Check

variable {c : Callable} {position : Position} {signature : Ty} {parts : List ExprPart} {w : Walker}
  {s : Session}

/-- The finding of a call with a wrong number of arguments. -/
def miscounted (w : Walker) (position : Position) (c : Callable) (n : Nat) : Finding :=
  ⟨w.unit, position,
    .arity .arguments c.required (if c.rest.isSome then none else some c.params.length) n⟩

theorem report_eq {problem : Problem} (hw : w.quiet = false) :
    report position problem w s =
      some ((), { s with findings := s.findings.push ⟨w.unit, position, problem⟩ }) := by
  change (if !w.quiet then _ else _ : Check Unit) w s = _
  rw [hw]
  rfl

/-- A call with a number of arguments that is not accepted reports it first, and then the arguments
are checked as always. -/
theorem applySignature_eq (hc : s.table.callable? signature = some c) (hw : w.quiet = false) :
    applySignature position signature parts w s =
      (do checkArguments c 0 parts; return c.result : Check Ty) w
        (if c.acceptsArity parts.length then s
          else { s with findings := s.findings.push (miscounted w position c parts.length) }) := by
  have htable {α : Type} (f : Table → Check α) : (table >>= f) w s = f s.table w s := rfl
  unfold applySignature
  rw [htable]
  simp only [hc]
  cases c.acceptsArity parts.length with
  | true => rfl
  | false =>
    change (report _ _ w s).bind _ = _
    rw [report_eq hw]
    rfl

/-- **Supplied arguments.** The numbers of arguments that a parameter list accepts supply every
parameter that may not be left out exactly if no such parameter comes after one that may; in any
list the parameters left out may be left out or come after one that may. A call that does not supply
such a parameter of a list in order reports the number of its arguments before it looks at them. -/
theorem supplies (c : Callable) :
    (c.InOrder ↔ ∀ n, c.acceptsArity n = true → c.Supplies n) ∧
      (∀ n, c.acceptsArity n = true → ∀ i p, c.params[i]? = some p → n ≤ i → p.optional = false →
        ∃ j q, j < i ∧ c.params[j]? = some q ∧ q.optional = true) ∧
      ∀ position signature parts w s, s.table.callable? signature = some c → w.quiet = false →
        c.InOrder → ¬ c.Supplies parts.length →
          applySignature position signature parts w s =
            (do checkArguments c 0 parts; return c.result : Check Ty) w
              { s with findings := s.findings.push (miscounted w position c parts.length) } := by
  refine ⟨Callable.inOrder_iff, ?_, ?_⟩
  · intro n hn i p hp hi hrequired
    obtain ⟨j, q, hj, hq, hopt⟩ :=
      Callable.required_le_iff.mp (Callable.acceptsArity_iff.mp hn).1 i p hp hi
    refine ⟨j, q, Nat.lt_of_le_of_ne hj ?_, hq, hopt⟩
    rintro rfl
    rw [hp] at hq
    rw [Option.some.inj hq, hopt] at hrequired
    exact Bool.false_ne_true hrequired.symm
  · intro position signature parts w s hc hw horder hnot
    have hrefused : ¬ c.acceptsArity parts.length = true := fun hn =>
      hnot (horder.supplies_of_accepted hn)
    rw [applySignature_eq hc hw, if_neg hrefused]

/-- A session with one function type. -/
def withFunction (c : Callable) : Session := { table := ((Ty.functionOf c).run {}).2 }

/-- A call without arguments of a function with a needed and a free parameter. -/
theorem supplies_missing :
    let c : Callable := { params := [⟨"a", .number, false⟩, ⟨"b", .number, true⟩] }
    (withFunction c).table.callable? (.made 0) = some c ∧ c.InOrder ∧ ¬ c.Supplies 0 ∧
      applySignature default (.made 0) [] {} (withFunction c) =
        some (.void, { withFunction c with findings := #[miscounted {} default c 0] }) := by
  intro c
  have hc : (withFunction c).table.callable? (.made 0) = some c := by cbv
  have horder : c.InOrder := by decide
  have hnot : ¬ c.Supplies 0 := by decide
  exact ⟨hc, horder, hnot,
    (supplies c).2.2 default (.made 0) [] {} (withFunction c) hc rfl horder hnot⟩

/-- With a free parameter in front of a needed one, a call without arguments is accepted and nothing
is reported. -/
theorem not_supplies_freeFirst :
    let c : Callable := { params := [⟨"a", .number, true⟩, ⟨"b", .number, false⟩] }
    (withFunction c).table.callable? (.made 0) = some c ∧ c.acceptsArity 0 = true ∧
      ¬ c.Supplies 0 ∧
      applySignature default (.made 0) [] {} (withFunction c) = some (.void, withFunction c) := by
  intro c
  have hc : (withFunction c).table.callable? (.made 0) = some c := by cbv
  have haccepts : c.acceptsArity 0 = true := by decide
  have hrun : applySignature default (.made 0) [] {} (withFunction c) =
    some (.void, withFunction c) :=
    applySignature_eq hc rfl
  exact ⟨hc, haccepts, by decide, hrun⟩

end Call

end ShapeCheck
