import ShapeCheck.Proofs.Instantiation
import ShapeCheck.Proofs.Layers

/-!
# The first signature that takes the arguments

A call of an overloaded function tries the signatures in turn. Each trial resolves and compares
types, and so leaves another table to the next one. Which signature is chosen is said here by what
the trials come to, each in the table that it finds.

* `Overload.Takes` says that a signature takes the arguments with an instance, `Overload.Refuses`
  that it does not.
* `Overload.attempt_some_iff` and `Overload.attempt_none_iff` are about one trial,
  `Overload.firstAccepting_some_iff` and `Overload.firstAccepting_none_iff` about all of them.
* `Overload.choose_first` puts this together, and says what remains of a choice in later tables.
-/

namespace ShapeCheck

variable {places : List Nat} {k i : Nat}

namespace Overload

section Trials

/-- The arguments of some places fit their parameters, compared one after the other. -/
inductive Fits (c : Callable) (ts : List Ty) (n : Nat) : List Nat → Table → Table → Prop
  | nil (T : Table) : Fits c ts n [] T T
  | cons {i : Nat} {places : List Nat} {target : Ty} {T T1 T2 T3 : Table}
    (htarget : parameterTarget? c i T = (some target, T1))
    (hfits : fitsTarget ((ts[i]?).getD .invalid) target n T1 = some (true, T2))
    (hrest : Fits c ts n places T2 T3) : Fits c ts n (i :: places) T T3

/-- There is no parameter for an argument, or the argument does not fit it. -/
inductive Misfits (c : Callable) (ts : List Ty) (n i : Nat) (T : Table) : Table → Prop
  | missing {T1 : Table} (h : parameterTarget? c i T = (none, T1)) : Misfits c ts n i T T1
  | unfit {target : Ty} {T1 T2 : Table} (htarget : parameterTarget? c i T = (some target, T1))
    (h : fitsTarget ((ts[i]?).getD .invalid) target n T1 = some (false, T2)) : Misfits c ts n i T T2

variable (ts es : List Ty) (n : Nat)

/-- The signature takes the arguments: their number fits, its type parameters can be bound, and
every argument fits its parameter in the instance. -/
inductive Takes (s : Ty) (T : Table) (inst : Ty) : Table → Prop
  | intro {c d : Callable} {T1 T2 : Table} (hs : T.callable? s = some c)
    (harity : c.acceptsArity ts.length = true)
    (hinfer : Inference.infer s (.ofTypes ts) es n T = some (.ok inst, T1))
    (hinst : T1.callable? inst = some d) (hfits : Fits d ts n (List.range ts.length) T1 T2) :
    Takes s T inst T2

/-- The signature does not take the arguments, and why. What is no function takes none. -/
inductive Refuses (s : Ty) (T : Table) : Table → Prop
  | noFunction (hs : T.callable? s = none) : Refuses s T T
  | number {c : Callable} (hs : T.callable? s = some c)
    (harity : c.acceptsArity ts.length = false) :
    Refuses s T T
  | binding {c : Callable} {problem : Problem} {T1 : Table} (hs : T.callable? s = some c)
    (harity : c.acceptsArity ts.length = true)
    (hinfer : Inference.infer s (.ofTypes ts) es n T = some (.error problem, T1)) : Refuses s T T1
  | noInstance {c : Callable} {inst : Ty} {T1 : Table} (hs : T.callable? s = some c)
    (harity : c.acceptsArity ts.length = true)
    (hinfer : Inference.infer s (.ofTypes ts) es n T = some (.ok inst, T1))
    (hinst : T1.callable? inst = none) : Refuses s T T1
  | argument {c d : Callable} {inst : Ty} {i : Nat} {T1 T2 T3 : Table} (hs : T.callable? s = some c)
    (harity : c.acceptsArity ts.length = true)
    (hinfer : Inference.infer s (.ofTypes ts) es n T = some (.ok inst, T1))
    (hinst : T1.callable? inst = some d) (hi : i < ts.length)
    (hfits : Fits d ts n (List.range i) T1 T2) (hmisfits : Misfits d ts n i T2 T3) : Refuses s T T3

/-- None of the signatures takes the arguments, tried one after the other. -/
inductive RefusesAll : List Ty → Table → Table → Prop
  | nil (T : Table) : RefusesAll [] T T
  | cons {s : Ty} {rest : List Ty} {T T1 T2 : Table} (hs : Refuses ts es n s T T1)
    (hrest : RefusesAll rest T1 T2) : RefusesAll (s :: rest) T T2

/-- Every argument of a call with the signature is accepted, and nothing new is learnt. -/
def Applies (s : Ty) (T : Table) : Prop :=
  ∃ c, T.callable? s = some c ∧ c.acceptsArity ts.length = true ∧
    ∀ i, i < ts.length → ∃ target, parameterTarget? c i T = (some target, T) ∧
      fitsTarget ((ts[i]?).getD .invalid) target n T = some (true, T)

end Trials

section Runs

variable {ts es sigs : List Ty} {n : Nat} {c : Callable} {s inst : Ty} {T T1 : Table}

/-- One argument is looked at before the others. -/
theorem acceptsAll_ofTypes (c : Callable) (ts : List Ty) (i : Nat) (places : List Nat) :
    acceptsAll c (.ofTypes ts) (i :: places) = (do
      let target ← (parameterTarget? c i : Interning (Option Ty))
      match target with
      | none => return false
      | some target =>
        let fits ← fitsTarget ((ts[i]?).getD .invalid) target
        if fits then acceptsAll c (.ofTypes ts) places else return false : Typing Bool) := rfl

theorem acceptsAll_cons (c : Callable) (ts : List Ty) (n i : Nat) (places : List Nat) (T : Table) :
    acceptsAll c (.ofTypes ts) (i :: places) n T = match parameterTarget? c i T with
      | (none, T1) => some (false, T1)
      | (some target, T1) =>
        match fitsTarget ((ts[i]?).getD .invalid) target n T1 with
        | none => none
        | some (false, T2) => some (false, T2)
        | some (true, T2) => acceptsAll c (.ofTypes ts) places n T2 := by
  rw [acceptsAll_ofTypes]
  rcases htarget : parameterTarget? c i T with ⟨_ | target, T1⟩
  · rw [Typing.bind_of_some (Typing.lift_of_eq htarget n)]
    rfl
  · rw [Typing.bind_of_some (Typing.lift_of_eq htarget n)]
    dsimp only
    rcases hfits : fitsTarget ((ts[i]?).getD .invalid) target n T1 with _ | ⟨_ | _, T2⟩
    · change Option.bind _ _ = _
      rw [hfits]
      rfl
    · rw [Typing.bind_of_some hfits]
      rfl
    · rw [Typing.bind_of_some hfits]
      rfl

theorem acceptsAll_true_iff :
    acceptsAll c (.ofTypes ts) places n T = some (true, T1) ↔ Fits c ts n places T T1 := by
  constructor
  · intro h
    induction places generalizing T with
    | nil =>
      obtain ⟨-, rfl⟩ := Prod.mk.inj (Option.some.inj h)
      exact .nil T
    | cons i places ih =>
      rw [acceptsAll_cons] at h
      rcases htarget : parameterTarget? c i T with ⟨_ | target, T'⟩
      · simp [htarget] at h
      · simp only [htarget] at h
        rcases hfits : fitsTarget ((ts[i]?).getD .invalid) target n T' with _ | ⟨_ | _, T2⟩
        · simp [hfits] at h
        · simp [hfits] at h
        · simp only [hfits] at h
          exact .cons htarget hfits (ih h)
  · intro h
    induction h with
    | nil T => rfl
    | cons htarget hfits _ ih =>
      rw [acceptsAll_cons, htarget]
      simp only [hfits]
      exact ih

theorem acceptsAll_false_iff :
    acceptsAll c (.ofTypes ts) places n T = some (false, T1) ↔ ∃ front i back T',
      places = front ++ i :: back ∧ Fits c ts n front T T' ∧ Misfits c ts n i T' T1 := by
  constructor
  · intro h
    induction places generalizing T with
    | nil => simp [acceptsAll] at h; cases h
    | cons i places ih =>
      rw [acceptsAll_cons] at h
      rcases htarget : parameterTarget? c i T with ⟨_ | target, T'⟩
      · simp only [htarget, Option.some.injEq, Prod.mk.injEq, true_and] at h
        exact ⟨[], i, places, T, rfl, .nil T, .missing (h ▸ htarget)⟩
      · simp only [htarget] at h
        rcases hfits : fitsTarget ((ts[i]?).getD .invalid) target n T' with _ | ⟨_ | _, T2⟩
        · simp [hfits] at h
        · simp only [hfits, Option.some.injEq, Prod.mk.injEq, true_and] at h
          exact ⟨[], i, places, T, rfl, .nil T, .unfit htarget (h ▸ hfits)⟩
        · simp only [hfits] at h
          obtain ⟨front, j, back, U, rfl, hfront, hj⟩ := ih h
          exact ⟨i :: front, j, back, U, rfl, .cons htarget hfits hfront, hj⟩
  · rintro ⟨front, i, back, T', rfl, hfront, hi⟩
    induction hfront with
    | nil T =>
      rw [List.nil_append, acceptsAll_cons]
      cases hi with
      | missing h => rw [h]
      | unfit htarget h =>
        rw [htarget]
        simp only [h]
    | cons htarget hfits _ ih =>
      rw [List.cons_append, acceptsAll_cons, htarget]
      simp only [hfits]
      exact ih hi

/-- The places in front of a place are the smaller ones. -/
theorem range_split {front back : List Nat} (h : List.range k = front ++ i :: back) :
    i < k ∧ front = List.range i := by
  have hlength : front.length < k := by
    have := congrArg List.length h
    simp only [List.length_range, List.length_append, List.length_cons] at this
    omega
  have hi : i = front.length := by
    have hget : (List.range k)[front.length]? = some i := by simp [h]
    rw [List.getElem?_range hlength] at hget
    exact (Option.some.inj hget).symm
  have hfront := congrArg (List.take front.length) h
  rw [List.take_range, List.take_left, Nat.min_eq_left (Nat.le_of_lt hlength)] at hfront
  rw [hi]
  exact ⟨hlength, hfront.symm⟩

theorem exists_range_split (h : i < k) : ∃ back, List.range k = List.range i ++ i :: back := by
  refine ⟨(List.range k).drop (i + 1), ?_⟩
  have hlength : i < (List.range k).length := by rwa [List.length_range]
  have hdrop := List.drop_eq_getElem_cons hlength
  rw [List.getElem_range] at hdrop
  have htake : (List.range k).take i = List.range i := by
    rw [List.take_range, Nat.min_eq_left (Nat.le_of_lt h)]
  rw [← htake, ← hdrop, List.take_append_drop]

/-- A signature is read, then bound, then tried. -/
theorem attempt_ofTypes (s : Ty) (ts es : List Ty) (n : Nat) (T : Table) :
    attempt s (.ofTypes ts) es n T = (match T.callable? s with
      | none => return none
      | some c => do
        if !c.acceptsArity ts.length then return none
        match ← Inference.infer s (.ofTypes ts) es with
        | .error _ => return none
        | .ok inst => if ← accepts inst (.ofTypes ts) then return some inst else return none :
      Typing (Option Ty)) n T := rfl

theorem attempt_eq (s : Ty) (ts es : List Ty) (n : Nat) (T : Table) :
    attempt s (.ofTypes ts) es n T = match T.callable? s with
      | none => some (none, T)
      | some c =>
        if c.acceptsArity ts.length then
          match Inference.infer s (.ofTypes ts) es n T with
          | none => none
          | some (.error _, T1) => some (none, T1)
          | some (.ok inst, T1) =>
            match T1.callable? inst with
            | none => some (none, T1)
            | some d =>
              match acceptsAll d (.ofTypes ts) (List.range ts.length) n T1 with
              | none => none
              | some (b, T2) => some (if b then some inst else none, T2)
        else some (none, T) := by
  rw [attempt_ofTypes]
  cases T.callable? s with
  | none => rfl
  | some c =>
    dsimp only
    cases c.acceptsArity ts.length with
    | false => rfl
    | true =>
      rw [if_neg (by simp), if_pos rfl]
      rcases hinfer : Inference.infer s (.ofTypes ts) es n T with _ | ⟨_ | inst, T1⟩
      · change Option.bind _ _ = _
        rw [hinfer]
        rfl
      · rw [Typing.bind_of_some hinfer]
        rfl
      · rw [Typing.bind_of_some hinfer]
        have haccepts : accepts inst (.ofTypes ts) n T1 = (match T1.callable? inst with
            | none => return false
            | some d => acceptsAll d (.ofTypes ts) (List.range ts.length) : Typing Bool) n T1 := rfl
        dsimp only
        cases hinst : T1.callable? inst with
        | none =>
          rw [hinst] at haccepts
          rw [Typing.bind_of_some haccepts]
          rfl
        | some d =>
          rw [hinst] at haccepts
          dsimp only at haccepts ⊢
          rcases hall : acceptsAll d (.ofTypes ts) (List.range ts.length) n T1 with _ | ⟨_ | _, T2⟩
          · change Option.bind _ _ = _
            rw [haccepts, hall]
            rfl
          · rw [Typing.bind_of_some (haccepts.trans hall)]
            rfl
          · rw [Typing.bind_of_some (haccepts.trans hall)]
            rfl

/-- **One trial succeeds** exactly if the signature takes the arguments. -/
theorem attempt_some_iff :
    attempt s (.ofTypes ts) es n T = some (some inst, T1) ↔ Takes ts es n s T inst T1 := by
  rw [attempt_eq]
  constructor
  · intro h
    cases hs : T.callable? s with
    | none => simp [hs] at h
    | some c =>
      cases harity : c.acceptsArity ts.length with
      | false => simp [hs, harity] at h
      | true =>
        simp only [hs, harity, if_true] at h
        rcases hinfer : Inference.infer s (.ofTypes ts) es n T with _ | ⟨_ | inst', T'⟩
        · simp [hinfer] at h
        · simp [hinfer] at h
        · cases hinst : T'.callable? inst' with
          | none => simp [hinfer, hinst] at h
          | some d =>
            simp only [hinfer, hinst] at h
            rcases hall : acceptsAll d (.ofTypes ts) (List.range ts.length) n T'
              with _ | ⟨_ | _, T2⟩
            · simp [hall] at h
            · simp [hall] at h
            · simp only [hall, if_true, Option.some.injEq, Prod.mk.injEq] at h
              obtain ⟨rfl, rfl⟩ := h
              exact .intro hs harity hinfer hinst (acceptsAll_true_iff.mp hall)
  · rintro ⟨hs, harity, hinfer, hinst, hfits⟩
    simp only [hs, harity, hinfer, hinst, acceptsAll_true_iff.mpr hfits, if_true]

/-- **One trial fails** exactly if the signature refuses the arguments. -/
theorem attempt_none_iff :
    attempt s (.ofTypes ts) es n T = some (none, T1) ↔ Refuses ts es n s T T1 := by
  rw [attempt_eq]
  constructor
  · intro h
    cases hs : T.callable? s with
    | none =>
      simp only [hs, Option.some.injEq, Prod.mk.injEq, true_and] at h
      exact h ▸ .noFunction hs
    | some c =>
      cases harity : c.acceptsArity ts.length with
      | false =>
        simp only [hs, harity, Bool.false_eq_true, if_false, Option.some.injEq, Prod.mk.injEq,
          true_and] at h
        exact h ▸ .number hs harity
      | true =>
        simp only [hs, harity, if_true] at h
        rcases hinfer : Inference.infer s (.ofTypes ts) es n T with _ | ⟨_ | inst', T'⟩
        · simp [hinfer] at h
        · simp only [hinfer, Option.some.injEq, Prod.mk.injEq, true_and] at h
          exact .binding hs harity (h ▸ hinfer)
        · cases hinst : T'.callable? inst' with
          | none =>
            simp only [hinfer, hinst, Option.some.injEq, Prod.mk.injEq, true_and] at h
            obtain rfl := h
            exact .noInstance hs harity hinfer hinst
          | some d =>
            simp only [hinfer, hinst] at h
            rcases hall : acceptsAll d (.ofTypes ts) (List.range ts.length) n T'
              with _ | ⟨_ | _, T2⟩
            · simp [hall] at h
            · simp only [hall, Bool.false_eq_true, if_false, Option.some.injEq, Prod.mk.injEq,
                true_and] at h
              obtain rfl := h
              obtain ⟨front, i, back, U, hsplit, hfront, hi⟩ := acceptsAll_false_iff.mp hall
              obtain ⟨hlt, rfl⟩ := range_split hsplit
              exact .argument hs harity hinfer hinst hlt hfront hi
            · simp [hall] at h
  · intro h
    cases h with
    | noFunction hs => simp only [hs]
    | number hs harity => simp only [hs, harity, Bool.false_eq_true, if_false]
    | binding hs harity hinfer => simp only [hs, harity, hinfer, if_true]
    | noInstance hs harity hinfer hinst => simp only [hs, harity, hinfer, hinst, if_true]
    | argument hs harity hinfer hinst hi hfits hmisfits =>
      obtain ⟨back, hsplit⟩ := exists_range_split hi
      have hall := acceptsAll_false_iff.mpr ⟨_, _, back, _, hsplit, hfits, hmisfits⟩
      simp only [hs, harity, hinfer, hinst, hall, if_true, Bool.false_eq_true, if_false]

theorem firstAccepting_cons (s : Ty) (ts es sigs : List Ty) (n : Nat) (T : Table) :
    firstAccepting (.ofTypes ts) es (s :: sigs) n T = match attempt s (.ofTypes ts) es n T with
      | none => none
      | some (some inst, T1) => some (some inst, T1)
      | some (none, T1) => firstAccepting (.ofTypes ts) es sigs n T1 := by
  rcases hattempt : attempt s (.ofTypes ts) es n T with _ | ⟨_ | inst, T1⟩
  · change Option.bind _ _ = _
    rw [hattempt]
    rfl
  · exact Typing.bind_of_some hattempt
  · exact Typing.bind_of_some hattempt

theorem firstAccepting_some_iff :
    firstAccepting (.ofTypes ts) es sigs n T = some (some inst, T1) ↔ ∃ before s after T',
      sigs = before ++ s :: after ∧ RefusesAll ts es n before T T' ∧
      Takes ts es n s T' inst T1 := by
  constructor
  · intro h
    induction sigs generalizing T with
    | nil => cases h
    | cons s sigs ih =>
      rw [firstAccepting_cons] at h
      rcases hattempt : attempt s (.ofTypes ts) es n T with _ | ⟨_ | inst', T'⟩
      · simp [hattempt] at h
      · simp only [hattempt] at h
        obtain ⟨before, r, after, U, rfl, hbefore, hr⟩ := ih h
        exact ⟨s :: before, r, after, U, rfl, .cons (attempt_none_iff.mp hattempt) hbefore, hr⟩
      · simp only [hattempt] at h
        exact ⟨[], s, sigs, T, rfl, .nil T, attempt_some_iff.mp (hattempt.trans h)⟩
  · rintro ⟨before, s, after, T', rfl, hbefore, hs⟩
    induction hbefore with
    | nil T => rw [List.nil_append, firstAccepting_cons, attempt_some_iff.mpr hs]
    | cons hr _ ih =>
      rw [List.cons_append, firstAccepting_cons, attempt_none_iff.mpr hr]
      exact ih hs

theorem firstAccepting_none_iff :
    firstAccepting (.ofTypes ts) es sigs n T = some (none, T1) ↔ RefusesAll ts es n sigs T T1 := by
  constructor
  · intro h
    induction sigs generalizing T with
    | nil =>
      obtain ⟨-, rfl⟩ := Prod.mk.inj (Option.some.inj h)
      exact .nil T
    | cons s sigs ih =>
      rw [firstAccepting_cons] at h
      rcases hattempt : attempt s (.ofTypes ts) es n T with _ | ⟨_ | inst', T'⟩
      · simp [hattempt] at h
      · simp only [hattempt] at h
        exact .cons (attempt_none_iff.mp hattempt) (ih h)
      · simp [hattempt] at h
  · intro h
    induction h with
    | nil T => rfl
    | cons hr _ ih =>
      rw [firstAccepting_cons, attempt_none_iff.mpr hr]
      exact ih

/-- Asking for all arguments once more gives their types. -/
theorem mapM_types (ts : List Ty) (n : Nat) (T : Table) :
    ((List.range ts.length).mapM fun i => (Arguments.ofTypes ts).type i none) n T =
    some (ts, T) := by
  have hpure : ∀ places : List Nat, (places.mapM fun i => (Arguments.ofTypes ts).type i none) n T =
      some (places.map fun i => (ts[i]?).getD .invalid, T) := by
    intro places
    induction places with
    | nil => rfl
    | cons i places ih =>
      rw [List.mapM_cons]
      change ((do
        let us ← places.mapM fun i => (Arguments.ofTypes ts).type i none
        return ((ts[i]?).getD .invalid) :: us : Typing (List Ty))) n T = _
      rw [Typing.bind_of_some ih]
      rfl
  rw [hpure]
  congr 2
  apply List.ext_getElem (by simp)
  intro i hi hi'
  simp [List.getElem?_eq_getElem hi']

theorem choose_eq (sigs ts es : List Ty) (n : Nat) (T : Table) :
    choose sigs (.ofTypes ts) es n T = (firstAccepting (.ofTypes ts) es sigs n T).map fun
      | (some inst, T1) => (.ok inst, T1)
      | (none, T1) => (.error (.noOverload sigs ts), T1) := by
  rcases hfirst : firstAccepting (.ofTypes ts) es sigs n T with _ | ⟨_ | inst, T1⟩
  · change Option.bind _ _ = _
    rw [hfirst]
    rfl
  · unfold choose
    rw [Typing.bind_of_some hfirst]
    exact Typing.bind_of_some (mapM_types ts n T1)
  · exact Typing.bind_of_some hfirst

theorem choose_ok_iff : choose sigs (.ofTypes ts) es n T = some (.ok inst, T1) ↔
    firstAccepting (.ofTypes ts) es sigs n T = some (some inst, T1) := by
  rw [choose_eq]
  rcases firstAccepting (.ofTypes ts) es sigs n T with _ | ⟨_ | inst', T'⟩ <;> simp

theorem choose_error_iff {problem : Problem} :
    choose sigs (.ofTypes ts) es n T = some (.error problem, T1) ↔
      problem = .noOverload sigs ts ∧ firstAccepting (.ofTypes ts) es sigs n T =
      some (none, T1) := by
  rw [choose_eq]
  rcases firstAccepting (.ofTypes ts) es sigs n T with _ | ⟨_ | inst', T'⟩
  · simp
  · simp [eq_comm]
  · simp

end Runs

/-! ### Later tables -/

section Later

open Typing Inference

variable {ts es sigs : List Ty} {n : Nat} {c : Callable} {s inst : Ty} {T T1 T2 : Table}

/-- The type is a function type, and its type parameters are those of the table. -/
def Signature (T : Table) (s : Ty) : Prop :=
  ∃ c, T.callable? s = some c ∧ ∀ v ∈ c.typeParams, T.Knows v

theorem Signature.of_le (h : Signature T s) (hle : T ≤ T1) : Signature T1 s := by
  obtain ⟨c, hs, hvars⟩ := h
  have hhas : T.Has s := Table.has_of_shape (by simp [Table.shape_of_callable? hs])
  exact ⟨c, (Table.callable?_of_le hle hhas).trans hs,
    fun v hv => Table.knows_of_le hle (hvars v hv)⟩

theorem settles_parameterTarget (hT : T.WellFormed) (hc : T.HasCallable c) (i : Nat) :
    Interning.Settles T (parameterTarget? c i) (fun T1 o => ∀ t ∈ o, T1.Has t) := by
  have hnothing : ∀ T2, T ≤ T2 → ∀ t, Ty.parameterAt? T c i = some t →
      T2.isNothing t = T.isNothing t := fun T2 h2 t ht =>
    Table.isNothing_of_le h2 hT (has_parameterAt hT hc ht)
  refine Interning.settles_get_bind (fun T2 h2 => ?_) ?_
  · rw [Assign.parameterAt?_of_le h2 hc]
    cases hp : Ty.parameterAt? T c i with
    | none => rfl
    | some t =>
      have hundefined : T2.isNothing .undefined = T.isNothing .undefined := rfl
      simp only [List.filter_cons, List.filter_nil, hnothing T2 h2 t hp, hundefined]
  cases hp : Ty.parameterAt? T c i with
  | none => exact Interning.settles_pure hT (by simp)
  | some t =>
    have ht := has_parameterAt hT hc hp
    dsimp only
    split
    · have hparts : ∀ u ∈ [t, .undefined].filter (!T.isNothing ·), T.Has u := fun u hu =>
        Interning.forall_mem_pair ht (T.has_prim _) u (List.mem_of_mem_filter hu)
      refine (Interning.settles_unionOf hT hparts).bind fun u T1 hT1 _ hu => ?_
      exact Interning.settles_pure hT1 (by simpa using hu.1)
    · exact Interning.settles_pure hT (by simpa using ht)

/-- Whether an argument fits what it has to is answered for good. -/
theorem repeats_fitsTarget {t target : Ty} (hT : T.Truthful) (ht : T.Has t)
    (htarget : T.Has target) :
    Repeats T (fitsTarget t target) (fun _ _ => True) := by
  refine repeats_get_bind (fun T2 h2 => by
    rw [Table.isNothing_of_le h2 hT.sound.wellFormed htarget]) ?_
  split
  · exact repeats_pure hT trivial
  · exact repeats_isAssignableTo hT ht htarget

theorem repeats_acceptsAll (hT : T.Truthful) (hc : T.HasCallable c) (hts : ∀ t ∈ ts, T.Has t)
    (places : List Nat) : Repeats T (acceptsAll c (.ofTypes ts) places) (fun _ _ => True) := by
  induction places generalizing T with
  | nil => exact repeats_pure hT trivial
  | cons i places ih =>
    rw [acceptsAll_ofTypes]
    refine (repeats_lift hT (settles_parameterTarget hT.sound.wellFormed hc i)).bind
      fun target T1 hT1 h1 htarget => ?_
    cases target with
    | none => exact repeats_pure hT1 trivial
    | some target =>
      refine (repeats_fitsTarget hT1 (Table.has_of_le h1.le (has_argument hts i))
        (htarget target rfl)).bind fun fits T2 hT2 h2 _ => ?_
      have hle := (h1.trans h2).le
      split
      · exact ih hT2 (hc.of_le hle) fun t ht => Table.has_of_le hle (hts t ht)
      · exact repeats_pure hT2 trivial

/-- What a trial comes to, it comes to whenever it is made again. -/
theorem repeats_attempt (hT : T.Truthful) (hs : Signature T s) (hts : ∀ t ∈ ts, T.Has t)
    (hes : ∀ t ∈ es, T.Has t) : Repeats T (attempt s (.ofTypes ts) es) (fun _ _ => True) := by
  obtain ⟨c, hs, hvars⟩ := hs
  have hhas : T.Has s := Table.has_of_shape (by simp [Table.shape_of_callable? hs])
  refine repeats_get_bind (fun T2 h2 => by rw [Table.callable?_of_le h2 hhas]) ?_
  simp only [hs]
  split
  · exact repeats_pure hT trivial
  · refine (repeats_infer hT hs hvars hts hes).bind fun r T1 hT1 h1 hr => ?_
    cases r with
    | error problem => exact repeats_pure hT1 trivial
    | ok inst =>
      obtain ⟨d, hd, -⟩ := hr inst rfl
      have hinst : T1.Has inst := Table.has_of_shape (by simp [Table.shape_of_callable? hd])
      have haccepts : Repeats T1 (accepts inst (.ofTypes ts)) (fun _ _ => True) := by
        refine repeats_get_bind (fun T2 h2 => by rw [Table.callable?_of_le h2 hinst]) ?_
        simp only [hd]
        exact repeats_acceptsAll hT1 (hT1.sound.wellFormed.hasCallable hinst hd)
          (fun t ht => Table.has_of_le h1.le (hts t ht)) _
      refine haccepts.bind fun b T2 hT2 h2 _ => ?_
      split
      · exact repeats_pure hT2 trivial
      · exact repeats_pure hT2 trivial

theorem Takes.later (h : Takes ts es n s T inst T1) (hT : T.Truthful) (hs : Signature T s)
    (hts : ∀ t ∈ ts, T.Has t) (hes : ∀ t ∈ es, T.Has t) :
    T1.Truthful ∧ T.Succeeds T1 ∧
      ∀ T2, T1.Succeeds T2 → ∀ m, n ≤ m → Takes ts es m s T2 inst T2 := by
  obtain ⟨⟨hok, hgrows, -, hagain⟩, -⟩ := repeats_attempt hT hs hts hes n _ T1
    (attempt_some_iff.mpr h)
  exact ⟨hok, hgrows, fun T2 h2 m hm => attempt_some_iff.mp (hagain m hm T2 h2)⟩

theorem Refuses.later (h : Refuses ts es n s T T1) (hT : T.Truthful) (hs : Signature T s)
    (hts : ∀ t ∈ ts, T.Has t) (hes : ∀ t ∈ es, T.Has t) :
    T1.Truthful ∧ T.Succeeds T1 ∧ ∀ T2, T1.Succeeds T2 → ∀ m, n ≤ m → Refuses ts es m s T2 T2 := by
  obtain ⟨⟨hok, hgrows, -, hagain⟩, -⟩ := repeats_attempt hT hs hts hes n _ T1
    (attempt_none_iff.mpr h)
  exact ⟨hok, hgrows, fun T2 h2 m hm => attempt_none_iff.mp (hagain m hm T2 h2)⟩

theorem RefusesAll.later (h : RefusesAll ts es n sigs T T1) (hT : T.Truthful)
    (hs : ∀ s ∈ sigs, Signature T s) (hts : ∀ t ∈ ts, T.Has t) (hes : ∀ t ∈ es, T.Has t) :
    T1.Truthful ∧ T.Succeeds T1 ∧
      ∀ T2, T1.Succeeds T2 → ∀ m, n ≤ m → ∀ s ∈ sigs, Refuses ts es m s T2 T2 := by
  induction h with
  | nil T => exact ⟨hT, .refl T, by simp⟩
  | cons hr _ ih =>
    obtain ⟨hT1, h1, hagain⟩ := hr.later hT (hs _ (by simp)) hts hes
    obtain ⟨hT2, h2, hrest⟩ := ih hT1 (fun s hmem =>
      (hs s (List.mem_cons_of_mem _ hmem)).of_le h1.le)
      (fun t ht => Table.has_of_le h1.le (hts t ht)) fun t ht => Table.has_of_le h1.le (hes t ht)
    refine ⟨hT2, h1.trans h2, fun T3 h3 m hm s hmem => ?_⟩
    rcases List.mem_cons.mp hmem with rfl | hmem
    · exact hagain T3 (h2.trans h3) m hm
    · exact hrest T3 h3 m hm s hmem

/-- Arguments that fitted their places still do, and asking about it teaches nothing new. -/
theorem Fits.later (h : Fits c ts n places T T1) (hT : T.Truthful)
    (hc : T.HasCallable c) (hts : ∀ t ∈ ts, T.Has t) :
    T.Succeeds T1 ∧ ∀ T2, T1.Succeeds T2 → ∀ m, n ≤ m → ∀ i ∈ places, ∃ target,
      parameterTarget? c i T2 = (some target, T2) ∧
        fitsTarget ((ts[i]?).getD .invalid) target m T2 = some (true, T2) := by
  induction h with
  | nil T => exact ⟨.refl T, by simp⟩
  | @cons i places target T T1 T2 T3 htarget hfits _ ih =>
    obtain ⟨o, T', hat, hhas⟩ := settles_parameterTarget hT.sound.wellFormed hc i
    obtain ⟨rfl, rfl⟩ := Prod.mk.inj (hat.result.symm.trans htarget)
    have h1 : T.Succeeds T' := .of_adds hT.sound.wellFormed hat.adds
    have hT1 : T'.Truthful :=
      hT.of_le (hT.sound.of_adds hat.wellFormed hat.adds) hat.adds.le hat.adds.verdicts
    obtain ⟨hfitted, -⟩ := repeats_fitsTarget hT1 (Table.has_of_le h1.le (has_argument hts i))
      (hhas target rfl) n _ _ hfits
    have h2 : T'.Succeeds T2 := hfitted.grows
    have h02 := h1.trans h2
    obtain ⟨h3, hrest⟩ := ih hfitted.ok (hc.of_le h02.le)
      fun t ht => Table.has_of_le h02.le (hts t ht)
    refine ⟨h02.trans h3, fun T4 h4 m hm j hj => ?_⟩
    rcases List.mem_cons.mp hj with rfl | hj
    · exact ⟨target, hat.again T4 ((h2.trans h3).trans h4).le, hfitted.again m hm T4 (h3.trans h4)⟩
    · exact hrest T4 h4 m hm j hj

theorem Takes.applies (h : Takes ts es n s T inst T1) (hT : T.Truthful) (hs : Signature T s)
    (hts : ∀ t ∈ ts, T.Has t) (hes : ∀ t ∈ es, T.Has t) (h2 : T1.Succeeds T2)
    {m : Nat} (hm : n ≤ m) :
    Applies ts m inst T2 := by
  obtain ⟨c, hc, hvars⟩ := hs
  cases h with
  | @intro c' d T' _ hs harity hinfer hinst hfits =>
    obtain rfl := Option.some.inj (hc.symm.trans hs)
    obtain ⟨⟨hT', h', -, -⟩, hr⟩ := repeats_infer hT hc hvars hts hes n _ T' hinfer
    have hT' : T'.Truthful := hT'
    have h' : T.Succeeds T' := h'
    obtain ⟨d', hd', hsame⟩ := hr inst rfl
    obtain rfl := Option.some.inj (hinst.symm.trans hd')
    have hhas : T'.Has inst := Table.has_of_shape (by simp [Table.shape_of_callable? hinst])
    obtain ⟨h1, hagain⟩ := hfits.later hT' (hT'.sound.wellFormed.hasCallable hhas hinst)
      fun t ht => Table.has_of_le h'.le (hts t ht)
    refine ⟨d, (Table.callable?_of_le (h1.trans h2).le hhas).trans hinst, ?_, fun i hi => ?_⟩
    · rw [hsame.acceptsArity, harity]
    · exact hagain T2 h2 m hm i (List.mem_range.mpr hi)

/-- **The first signature that takes the arguments is chosen.** The choice is an instance of the
first signature that takes the arguments when its turn comes, and fails with the whole list if none
does. A signature that is added at the end changes nothing about it. Once the aliases are resolved,
the choice is also there to stay: in every later table the call accepts its arguments, what was
refused in front of the chosen signature is refused again, and whatever is refused in front of it
does not change the choice. -/
theorem choose_first (sigs ts es : List Ty) (n : Nat) (T : Table) :
    (∀ inst T', choose sigs (.ofTypes ts) es n T = some (.ok inst, T') ↔ ∃ before s after T1,
      sigs = before ++ s :: after ∧ RefusesAll ts es n before T T1 ∧ Takes ts es n s T1 inst T') ∧
    (∀ problem T', choose sigs (.ofTypes ts) es n T = some (.error problem, T') ↔
      problem = .noOverload sigs ts ∧ RefusesAll ts es n sigs T T') ∧
    (∀ inst T' more, choose sigs (.ofTypes ts) es n T = some (.ok inst, T') →
      choose (sigs ++ more) (.ofTypes ts) es n T = some (.ok inst, T')) ∧
    (T.Resolved → (∀ s ∈ sigs, Signature T s) → (∀ t ∈ ts, T.Has t) → (∀ t ∈ es, T.Has t) →
      ∀ before s after inst T1 T' T2 m, sigs = before ++ s :: after →
        RefusesAll ts es n before T T1 → Takes ts es n s T1 inst T' →
        Relation.ReflTransGen Table.Called T' T2 → n ≤ m →
          Applies ts m inst T2 ∧ (∀ r ∈ before, Refuses ts es m r T2 T2) ∧
          ∀ others rest T3, (∀ r ∈ others, Signature T2 r) → RefusesAll ts es m others T2 T3 →
            choose (others ++ s :: rest) (.ofTypes ts) es m T2 = some (.ok inst, T3)) := by
  refine ⟨fun inst T' => choose_ok_iff.trans firstAccepting_some_iff, fun problem T' => ?_,
    fun inst T' more h => ?_, fun hresolved hsigs hts hes => ?_⟩
  · rw [choose_error_iff, firstAccepting_none_iff]
  · obtain ⟨before, s, after, T1, rfl, hbefore, hs⟩ :=
      firstAccepting_some_iff.mp (choose_ok_iff.mp h)
    apply choose_ok_iff.mpr
    apply firstAccepting_some_iff.mpr
    exact ⟨before, s, after ++ more, T1, by simp, hbefore, hs⟩
  · intro before s after inst T1 T' T2 m hsplit hbefore hs hcalls hm
    obtain ⟨hT1, h1, hrefused⟩ := hbefore.later hresolved.truthful
      (fun r hr => hsigs r (by simp [hsplit, hr])) hts hes
    have hsig : Signature T1 s := (hsigs s (by simp [hsplit])).of_le h1.le
    have hts1 : ∀ t ∈ ts, T1.Has t := fun t ht => Table.has_of_le h1.le (hts t ht)
    have hes1 : ∀ t ∈ es, T1.Has t := fun t ht => Table.has_of_le h1.le (hes t ht)
    obtain ⟨hT', h', htaken⟩ := hs.later hT1 hsig hts1 hes1
    obtain ⟨h2, hT2⟩ := hT'.succeeds hcalls
    refine ⟨hs.applies hT1 hsig hts1 hes1 h2 hm, hrefused T2 (h'.trans h2) m hm, ?_⟩
    intro others rest T3 hothers hall
    have h02 := (h1.trans (h'.trans h2)).le
    obtain ⟨-, h3, -⟩ := hall.later hT2 hothers (fun t ht => Table.has_of_le h02 (hts t ht))
      fun t ht => Table.has_of_le h02 (hes t ht)
    apply choose_ok_iff.mpr
    apply firstAccepting_some_iff.mpr
    exact ⟨others, s, rest, T3, rfl, hall, htaken T3 (h2.trans h3) m hm⟩

end Later

/-! ### Two choices -/

open Table

/-- A function of one text, and one that returns what it is given. -/
def texts : Callable := { params := [⟨"x", .string, false⟩] }
def identity : Callable :=
  { typeParams := [⟨0⟩], params := [⟨"x", .made 0, false⟩], result := .made 0 }

/-- A table with both. -/
def offering : Table :=
  ((Construction.function identity).run ((Construction.function texts).run
    (declaring { name := "T" } {})).2).2

theorem resolved_offering : offering.Resolved := by
  have hdeclared : (declaring { name := "T" } {}).Prepared :=
    .declaring .empty _ (by simp) (by simp)
  have htexts : ((Construction.function texts).run (declaring { name := "T" } {})).2.Prepared :=
    hdeclared.call (.construct _ (by unfold Table.Has; decide +kernel) trivial)
  have hoffering : offering.Prepared :=
    htexts.call (.construct _ (by unfold Table.Has; decide +kernel) trivial)
  exact .start hoffering (show Alias.resolveAll 0 offering = some ([], offering) by cbv)

theorem facts_offering : offering.callable? (.made 1) = some texts ∧
    offering.callable? (.made 2) = some identity ∧ offering.typeVars.size = 1 ∧
    (attempt (.made 1) (.ofTypes [.number]) [] 20 offering).map Prod.fst = some none ∧
    (choose [.made 1, .made 2] (.ofTypes [.number]) [] 20 offering).map (·.1.toOption) =
      some (some (.made 3)) := by
  decide +kernel

theorem signature_offering : ∀ s ∈ [Ty.made 1, .made 2], Signature offering s := by
  obtain ⟨htexts, hidentity, hvars, -⟩ := facts_offering
  apply Interning.forall_mem_pair
  · exact ⟨texts, htexts, by simp [texts]⟩
  · refine ⟨identity, hidentity, fun v hv => ?_⟩
    obtain rfl : v = ⟨0⟩ := by simpa [identity] using hv
    change 0 < offering.typeVars.size
    rw [hvars]
    exact Nat.one_pos

/-- A number is given to the second function, then and without the first one. -/
theorem choose_first_offering : ∃ T',
    choose [.made 1, .made 2] (.ofTypes [.number]) [] 20 offering = some (.ok (.made 3), T') ∧
      Applies [.number] 20 (.made 3) T' ∧
      choose [.made 2] (.ofTypes [.number]) [] 20 T' = some (.ok (.made 3), T') := by
  obtain ⟨-, -, -, hattempt, hchoose⟩ := facts_offering
  obtain ⟨⟨r, T'⟩, hrun, hr⟩ := Option.map_eq_some_iff.mp hchoose
  obtain rfl := Inference.eq_ok_of_toOption hr
  obtain ⟨hfirst, -, -, hstays⟩ := choose_first [.made 1, .made 2] [.number] [] 20 offering
  obtain ⟨before, s, after, T1, hsplit, hbefore, hs⟩ := (hfirst _ T').mp hrun
  obtain ⟨happlies, -, hchosen⟩ := hstays resolved_offering signature_offering
    (by simp) (by simp) before s after _ T1 T' T' 20 hsplit hbefore hs .refl
    (Nat.le_refl 20)
  have hsecond : s = .made 2 := by
    rcases before with _ | ⟨q, _ | ⟨q', before⟩⟩
    · cases hbefore
      obtain ⟨rfl, -⟩ := List.cons.inj hsplit
      rw [attempt_some_iff.mpr hs] at hattempt
      simp at hattempt
    · simp only [List.cons_append, List.nil_append, List.cons.injEq] at hsplit
      exact hsplit.2.1.symm
    · simp at hsplit
  subst hsecond
  exact ⟨T', hrun, happlies, hchosen [] [] T' (by simp) (.nil T')⟩

/-- A function of two texts, and one of anything and a text. -/
def twoTexts : Callable := { params := [⟨"x", .string, false⟩, ⟨"y", .string, false⟩] }
def someAndText : Callable := { params := [⟨"x", .unknown, false⟩, ⟨"y", .string, false⟩] }

/-- The table with the type of numbers inside of 33 references to an alias, and both functions. -/
def overloaded : Table :=
  ((Construction.function someAndText).run ((Construction.function twoTexts).run (nested 33).2).2).2

/-- The types of numbers inside of two and of 33 references. -/
def nestings : List Ty := [(nested 2).1, (nested 33).1]

/-- The types of the two functions. -/
def refused : Ty := ((Construction.function twoTexts).run (nested 33).2).1
def fitting : Ty :=
  ((Construction.function someAndText).run ((Construction.function twoTexts).run (nested 33).2).2).1

/-- What is to be computed about both functions, together, so that the table is built once. -/
theorem facts_overloaded :
    (overloaded.callable? refused = some twoTexts ∧
    overloaded.callable? fitting = some someAndText) ∧
    (∀ t ∈ nestings, t.rank ≤ overloaded.entries.size) ∧
    (attempt refused (.ofTypes nestings) [] 100 overloaded).map Prod.fst = some none ∧
    (choose [fitting] (.ofTypes nestings) [] 100 overloaded).map (·.1.toOption) =
      some (some fitting) ∧
    (choose [refused, fitting] (.ofTypes nestings) [] 100 overloaded).map (·.1.toOption) =
      some none := by
  decide +kernel

theorem resolved_overloaded : overloaded.Resolved := by
  have hprims : ∀ (T : Table) (p q r : Primitive),
    ∀ t ∈ [Ty.prim p, .prim q, .prim r], T.Has t := by
    intro T p q r t ht
    simp only [List.mem_cons, List.not_mem_nil, or_false] at ht
    rcases ht with rfl | rfl | rfl <;> exact T.has_prim _
  have hnested := resolved_nesting.calls (called_nested 33).1
  have htwo := hnested.call (.construct (.function twoTexts)
    (hprims _ .string .string .void) trivial)
  exact htwo.call (.construct (.function someAndText) (hprims _ .unknown .string .void) trivial)

/-- **A choice may depend on what is refused in front of it**: the first function refuses the
arguments when the type in two references is no text. It has been resolved then, so that the type in
33 references resolves to numbers, and the second function refuses it, too. On its own the second
function is chosen, because the limit on nesting makes the error type of the 33 references. -/
theorem not_choose_first_inserted : ∃ (T : Table) (r s : Ty) (ts : List Ty) (T1 T2 T3 : Table),
    T.Resolved ∧ (∀ t ∈ [r, s], Signature T t) ∧ (∀ t ∈ ts, T.Has t) ∧ Refuses ts [] 100 r T T1 ∧
      choose [s] (.ofTypes ts) [] 100 T = some (.ok s, T2) ∧
      choose [r, s] (.ofTypes ts) [] 100 T = some (.error (.noOverload [r, s] ts), T3) := by
  obtain ⟨⟨hrefused, hfitting⟩, hranks, hattempt, halone, hboth⟩ := facts_overloaded
  obtain ⟨⟨_, T1⟩, hrun1, rfl⟩ := Option.map_eq_some_iff.mp hattempt
  obtain ⟨⟨r2, T2⟩, hrun2, hr2⟩ := Option.map_eq_some_iff.mp halone
  obtain ⟨⟨r3, T3⟩, hrun3, hr3⟩ := Option.map_eq_some_iff.mp hboth
  have hsignatures : ∀ t ∈ [refused, fitting], Signature overloaded t := Interning.forall_mem_pair
    ⟨twoTexts, hrefused, by simp [twoTexts]⟩ ⟨someAndText, hfitting, by simp [someAndText]⟩
  refine ⟨overloaded, refused, fitting, nestings, T1, T2, T3, resolved_overloaded,
    hsignatures, hranks,
    attempt_none_iff.mp hrun1, ?_, ?_⟩
  · obtain rfl := Inference.eq_ok_of_toOption hr2
    exact hrun2
  · cases r3 with
    | ok inst => simp [Except.toOption] at hr3
    | error problem =>
      obtain ⟨rfl, -⟩ := choose_error_iff.mp hrun3
      exact hrun3

end Overload

end ShapeCheck
