import ShapeCheck.Check.Function
import ShapeCheck.Proofs.Walks

/-!
# Checking quietly

Before a call is checked its arguments are checked quietly, perhaps several times, to choose the
signature. A quiet check records nothing, opens no result type to inference and declares nothing,
but an assignment in it narrows its variable as any assignment does.

* `Scopes.Kept.lookup` and `Scopes.Kept.value?` read a name after work that leaves frames as they
  are.
* `Walk.speculate_check` says what a quiet check of an expression changes.
* `Walk.speculate_check_narrows` is a quiet check after which a name has another type.
-/

namespace ShapeCheck

open Check

/-! ## Reading names -/

namespace Frame

variable {C : Change} {f f' : Frame} {name : String}

theorem Changed.lookup (h : f.Changed True C f') (hd : C.declares = false)
    (hname : C.fixes name = true) : f'.lookup name = f.lookup name := by
  have hn : f'.narrowings.lookup name = f.narrowings.lookup name := by
    rw [← Bindings.lookup_only hname, h.1, Bindings.lookup_only hname]
  unfold Frame.lookup
  rw [hn, h.2 trivial hd]

end Frame

theorem Frames.findSome?_eq {R : Frame → Frame → Prop} {fs fs' : List Frame} {α : Type}
    {read : Frame → Option α} (h : List.Forall₂ R fs fs')
    (hread : ∀ f f', R f f' → read f' = read f) : fs'.findSome? read = fs.findSome? read := by
  induction h with
  | nil => rfl
  | cons hf _ ih => simp only [List.findSome?_cons, hread _ _ hf, ih]

namespace Scopes

variable {C : Change} {e : Nat} {σ σ' : Scopes}

section

variable (h : σ.Kept True C e σ')
include h

/-- All frames are as before but for the change. -/
theorem Kept.framesOf (hframe : σ.framesOf e ≠ []) (i : Nat) :
    List.Forall₂ (Frame.Changed True C) (σ.framesOf i) (σ'.framesOf i) := by
  by_cases hi : i = e
  · subst hi
    obtain ⟨f, rest, hf⟩ := List.exists_cons_of_ne_nil hframe
    obtain ⟨f', rest', hf', hc, hrest⟩ := h.own f rest hf
    rw [hf, hf']
    exact .cons hc (hrest.imp fun _ _ hl => hl.changed)
  · by_cases hsize : i < σ.environments.size
    · exact (h.others i hsize hi).imp fun _ _ hl => hl.changed
    · have hsize' : ¬ i < σ'.environments.size := by rwa [h.size trivial]
      simp [Scopes.framesOf, hsize, hsize']

theorem Kept.outerOf (i : Nat) :
    (σ'.environments[i]?).bind Environment.outer =
      (σ.environments[i]?).bind Environment.outer := by
  by_cases hsize : i < σ.environments.size
  · exact h.outer i hsize
  · have hsize' : ¬ i < σ'.environments.size := by rwa [h.size trivial]
    simp [hsize, hsize']

theorem Kept.chainAt (n i : Nat) : σ'.chainAt n i = σ.chainAt n i := by
  induction n generalizing i with
  | zero => rfl
  | succ n ih =>
    unfold Scopes.chainAt
    rw [h.outerOf i]
    cases (σ.environments[i]?).bind Environment.outer with
    | none => rfl
    | some o => simp only [ih o]

theorem Kept.visible (hframe : σ.framesOf e ≠ []) (i : Nat) :
    List.Forall₂ (Frame.Changed True C) (σ.visible i) (σ'.visible i) := by
  unfold Scopes.visible Scopes.chain
  rw [h.chainAt]
  induction σ.chainAt (i + 1) i with
  | nil => exact .nil
  | cons j js ih =>
    rw [List.flatMap_cons, List.flatMap_cons]
    exact List.rel_append (h.framesOf hframe j) ih

theorem Kept.lookup (hframe : σ.framesOf e ≠ [])
    (hd : C.declares = false) (i : Nat) {name : String} (hname : C.fixes name = true) :
    σ'.lookup i name = σ.lookup i name :=
  Frames.findSome?_eq (h.visible hframe i) fun _ _ hf => hf.lookup hd hname

theorem Kept.value? (hframe : σ.framesOf e ≠ [])
    (hd : C.declares = false) (i : Nat) (name : String) : σ'.value? i name = σ.value? i name :=
  Frames.findSome?_eq (h.visible hframe i) fun _ _ hf => by rw [hf.2 trivial hd]

end

/-- Work that may narrow nothing changes no environment. -/
theorem Kept.eq (h : σ.Kept True (.narrowing []) e σ') (hframe : σ.framesOf e ≠ []) : σ' = σ := by
  have hframes (i : Nat) : σ'.framesOf i = σ.framesOf i := by
    refine (List.forall₂_eq_eq_eq ▸ (h.framesOf hframe i).imp fun f f' hf => ?_ :
      σ.framesOf i = σ'.framesOf i).symm
    have hn : f'.narrowings = f.narrowings := by
      simpa [Change.narrowing, Bindings.only] using hf.1
    have hv : f'.values = f.values := hf.2 trivial rfl
    cases f
    cases f'
    cases hn
    cases hv
    rfl
  have henv : σ'.environments = σ.environments := by
    refine Array.ext (h.size trivial) fun i hi' hi => ?_
    have hf := hframes i
    have ho := h.outerOf i
    simp only [Scopes.framesOf, hi, hi', getElem?_pos, Option.map_some, Option.getD_some,
      Option.bind_some] at hf ho
    cases h1 : σ'.environments[i]
    cases h2 : σ.environments[i]
    simp_all
  cases σ
  cases σ'
  simp_all

end Scopes

/-! ## Settled result types -/

namespace Function

variable {units : Array Declaration} {C : Change}

/-- Where nothing is left to infer, nothing is inferred. -/
theorem inferUnit_of_settled {settle : String → Check Unit} {unit : Nat} {w : Walker}
    {s s' : Session} {a : Unit} (hs : s.Settled)
    (h : inferUnit units settle unit w s = some (a, s')) : s' = s := by
  obtain ⟨_, t, ht, h⟩ := bind_eq_some.1 h
  cases ht
  cases hfind : s.pending.find? fun p => p.unit = unit && p.progress = .waiting with
  | none =>
    rw [hfind] at h
    cases h
    rfl
  | some p =>
    have hmem := hs p (List.mem_of_find?_eq_some hfind)
    have hwaits := List.find?_some hfind
    simp [hmem] at hwaits

theorem leaves_settle_settled (C : Change) (name : String) : Leaves True C (settle units name) := by
  intro w s a s' hs h
  obtain ⟨_, t, ht, h⟩ := bind_eq_some.1 h
  cases ht
  cases hfind : s.pending.find? fun p => p.name = name with
  | none =>
    rw [hfind] at h
    cases h
    exact .refl _
  | some p =>
    rw [hfind] at h
    rw [inferUnit_of_settled (hs trivial) h]
    exact .refl _

end Function

/-! ## Quiet checks -/

namespace Walk

/-- A quiet check of an expression, with no result type left to infer, records nothing and changes
the declaration of no name. It changes the types of at most the names assigned in the expression
outside its functions and the right sides of `&&` and `||`; where there are none, it changes nothing
but the table of types. -/
theorem speculate_check {units : Array Declaration} {e : Expr} {expected : Option Ty} {w : Walker}
    {s s' : Session} {t : Ty} (hsettled : s.Settled) (hframe : s.scopes.framesOf w.environment ≠ [])
    (h : speculate (check (Function.settle units) e expected) w s = some (t, s')) :
    s'.findings = s.findings ∧ s'.recorded = s.recorded ∧
      (∀ i name, s'.scopes.value? i name = s.scopes.value? i name) ∧
      (∀ i name, name ∉ e.leaks → s'.scopes.lookup i name = s.scopes.lookup i name) ∧
      (e.leaks = [] → s' = { s with table := s'.table }) := by
  have hleaves : Leaves True (.narrowing e.leaks) (check (Function.settle units) e expected) :=
    leaves_check Function.leaves_settle_settled _ e (fun n hn => by simp [Change.narrowing, hn]) _
  have hk := hleaves (fun _ => hsettled)
    (show check (Function.settle units) e expected { w with quiet := true } s = some (t, s') from h)
  obtain ⟨hfindings, hrecorded⟩ := hk.quiet trivial rfl
  refine ⟨hfindings, hrecorded, fun i name => hk.scopes.value? hframe rfl i name,
    fun i name hname => hk.scopes.lookup hframe rfl i (by simp [Change.narrowing, hname]), ?_⟩
  intro hleaks
  rw [hleaks] at hk
  have hrest := hk.rest trivial
  rw [hfindings, hrecorded, hk.scopes.eq hframe] at hrest
  exact hrest

/-- A session in which the variable `x`, declared `unknown`, is known to be a text. -/
def knownText : Session :=
  { scopes := ((({} : Scopes).add none).2.define 0 "x" ⟨.unknown, false⟩).2.bind 0 "x" .string }

/-- An assignment to that variable. -/
def assignNull : Expr := .assign {} (.identifier {} "x") (.null {})

/-- After an assignment is checked quietly its variable has another type. -/
theorem speculate_check_narrows :
    knownText.scopes.lookup 0 "x" = some .string ∧
      ((speculate (check (Function.settle #[]) assignNull none) {} knownText).map
        fun r => r.2.scopes.lookup 0 "x") = some (some .unknown) := by
  decide +kernel

/-- The quiet check of that assignment records nothing and leaves the type of every other name. -/
theorem speculate_check_assignNull : ∃ t s',
    speculate (check (Function.settle #[]) assignNull none) {} knownText = some (t, s') ∧
      s'.findings.size = 0 ∧ ∀ name, name ≠ "x" →
        s'.scopes.lookup 0 name = knownText.scopes.lookup 0 name := by
  have hsome : (speculate (check (Function.settle #[]) assignNull none) {} knownText).isSome =
      true := by
    decide +kernel
  obtain ⟨⟨t, s'⟩, h⟩ := Option.isSome_iff_exists.1 hsome
  have hframe : knownText.scopes.framesOf 0 ≠ [] := by
    intro hnil
    have : (knownText.scopes.framesOf 0).length = 1 := by decide +kernel
    simp [hnil] at this
  have hsettled : knownText.Settled := fun p hp => absurd hp List.not_mem_nil
  have hall := speculate_check hsettled hframe h
  refine ⟨t, s', h, by rw [hall.1]; rfl, fun name hname => hall.2.2.2.1 0 name ?_⟩
  simpa [assignNull, Expr.leaks] using hname

end Walk

end ShapeCheck
