import ShapeCheck.Proofs.Resolution
import Mathlib.Algebra.Order.BigOperators.Group.List
import Mathlib.Algebra.Order.Ring.Nat

/-!
# Resolution ends

Once every alias is resolved, only instantiating an alias with parameters leads from a type to one
that is not a part of it. Each such step puts the alias on the chain, and no alias stands there more
often than `Expansion.nestingLimit` allows.

* `Expansion.slack` counts how many instances a chain still has room for.
* `Ty.resolve_ends` says that every type resolves to some type, given enough steps.
-/

namespace ShapeCheck

variable {K : Regime} {T : Table} {t : Ty} {chain : Chain}

namespace Ty

/-- Work on each of some types ends, also when a type is then put together of the results. -/
theorem terminates_gathered (hT : K.ok T) {work : Nat → Ty → Typing Ty}
    {build : List Ty → Interning Ty} {ms : List Ty}
    (hms : ∀ m ∈ ms, ∀ T1, K.ok T1 → K.grows T T1 → Typing.Terminates K T1 (work · m) Table.Has)
    (hbuild : ∀ us T1, T1.WellFormed → (∀ u ∈ us, T1.Has u) →
      Interning.Settles T1 (build us) Table.Has) :
    ∃ d p, (do build (← ms.mapM (work d)) : Typing Ty) 0 T = some p :=
  ((Typing.terminates_mapM (V := Table.Has) hT (fun _ _ _ hg hu => K.has hg hu) ms hms).bind
    (W := Table.Has) (f := fun _ us => liftM (build us)) fun us T1 hT1 _ hus =>
      Typing.terminates_lift hT1 (hbuild us T1 (K.wellFormed hT1) hus)).result

/-- Making a type readonly goes down the members of unions and intersections only. -/
theorem terminates_readonlyAt (hT : K.ok T) (ht : T.Has t) :
    Typing.Terminates K T (fun d => readonlyAt pure d t) Table.Has := by
  induction hk : t.rank using Nat.strong_induction_on generalizing T t with
  | _ k ih =>
  have hwf := K.wellFormed hT
  have hpart : ∀ p ∈ (T.shape t).parts, ∀ T1, K.ok T1 → K.grows T T1 →
      Typing.Terminates K T1 (fun d => readonlyAt pure d p) Table.Has := by
    intro p hp T1 hT1 h1
    have hlt := hwf.rank_part hp
    exact ih p.rank (by omega) hT1 (K.has h1 (hwf.has_part ht hp)) rfl
  refine Typing.terminates_of_succ (fun d d' hd =>
    runs_readonlyAt Table.Family.gathers_all hd hT ht) ?_
  simp only [readonlyAt, pure_bind, Typing.get_bind]
  cases hs : T.shape t with
  | intersection ms =>
    rw [hs] at hpart
    exact terminates_gathered hT hpart fun us T1 hT1 hus =>
      (Interning.settles_intersectionOf hT1 hus).imp fun _ _ _ _ h => h.1
  | union ms =>
    rw [hs] at hpart
    exact terminates_gathered hT hpart fun us T1 hT1 hus =>
      (Interning.settles_unionOf hT1 hus).imp fun _ _ _ _ h => h.1
  | _ => exact ⟨0, _, rfl⟩

end Ty

namespace Expansion

/-- How many instances of the aliases of a table the chain has room for. -/
def slack (T : Table) (chain : Chain) : Nat :=
  (T.aliases.map fun a => nestingLimit - (chain.filter (·.name = a.name)).length).sum

theorem slack_of_le {T1 : Table} (h : T ≤ T1) (chain : Chain) : slack T1 chain = slack T chain := by
  rw [slack, slack, h.aliases]

/-- An instance takes up room. -/
theorem slack_append_lt {a : Alias} (ha : a ∈ T.aliases) (key : String)
    (hroom : (chain.filter (·.name = a.name)).length < nestingLimit) :
    slack T (chain ++ [⟨key, a.name⟩]) < slack T chain := by
  refine List.sum_lt_sum _ _ ?_ ⟨a, ha, ?_⟩
  · intro b _
    simp only [List.filter_append, List.length_append]
    omega
  · simp only [List.filter_append, List.length_append, List.filter_cons, decide_true, if_true,
      List.filter_nil, List.length_singleton]
    omega

/-- Instantiating an alias ends when the expansions inside the longer chain do. -/
theorem instantiate_ends (hT : T.WellFormed) {ref : Ty} {name : String}
    {arguments : List Ty} (href : T.shape ref = .reference name arguments)
    (hexpand : ∀ a, T.alias? name = some a →
      (chain.filter (·.name = name)).length < nestingLimit → ∀ T2 u, T2.WellFormed → T.Adds T2 →
      T2.Has u → ∃ d p, expandAt d (chain ++ [⟨T.text ref, name⟩]) u 0 T2 = some p) :
    ∃ d p, instantiate (expandAt d) chain ref name arguments 0 T = some p := by
  cases hlook : T.instances.lookup ref with
  | some r => exact ⟨0, _, instantiate_known _ 0 hlook⟩
  | none =>
  by_cases hbad : ∀ a, T.alias? name = some a → a.outcome.map outcomeType = some .invalid
  · exact ⟨0, _, instantiate_bad _ 0 hlook hbad⟩
  push Not at hbad
  obtain ⟨a, halias, hgood⟩ := hbad
  obtain ⟨ha, hname⟩ := Table.alias?_eq_some halias
  have hrun : ∀ d, instantiate (expandAt d) chain ref name arguments 0 T =
      (if onChain chain (T.text ref) then do
        markCycle chain (T.text ref)
        return .invalid
      else if nestingLimit ≤ (chain.filter (·.name = name)).length then do
        markCycle chain (((chain.filter (·.name = name)).head?.map Link.key).getD "")
        return .invalid
      else do
        let subs ← bindArguments a.params arguments []
        let result ← expandAt d (chain ++ [⟨T.text ref, name⟩]) (← a.target.substitute subs)
        remember ref result
        return result : Typing Ty) 0 T := by
    intro d
    unfold instantiate
    rw [Typing.get_bind]
    rw [hlook, halias]
    dsimp only
    rw [if_neg hgood]
  simp only [hrun]
  by_cases hchain : onChain chain (T.text ref) = true
  · simp only [if_pos hchain]
    exact ⟨0, _, rfl⟩
  simp only [if_neg hchain]
  by_cases hlimit : nestingLimit ≤ (chain.filter (·.name = name)).length
  · simp only [if_pos hlimit]
    exact ⟨0, _, rfl⟩
  simp only [if_neg hlimit]
  obtain ⟨htarget, hparams, -⟩ := hT.aliases a ha
  have hhas : T.Has ref := Table.has_of_shape (by rw [href]; simp)
  have hargs : ∀ t ∈ arguments, T.Has t := by
    intro t ht
    exact hT.has_part hhas (by rw [href]; exact ht)
  obtain ⟨subs, T1, hsubs, hhave⟩ := settles_bindArguments a.params hT hparams hargs
    (show T.HasSubstitution [] by simp [Table.HasSubstitution])
  obtain ⟨target, T2, htarg, hhas2⟩ := Interning.settles_substitute hsubs.wellFormed hhave
    (Table.has_of_le hsubs.adds.le htarget)
  obtain ⟨d, ⟨r, T3⟩, hinner⟩ := hexpand a halias (by omega) T2 target htarg.wellFormed
    (hsubs.adds.trans htarg.adds) hhas2
  refine ⟨d, (r, remembered T3 ref r), ?_⟩
  rw [Typing.bind_of_some (congrArg some hsubs.result),
    Typing.bind_of_some (congrArg some htarg.result), Typing.bind_of_some hinner]
  rfl

/-- One level of an expansion ends when its parts do. -/
theorem expandStep_ends (hT : K.ok T)
    (hpart : ∀ p ∈ (T.shape t).parts, ∀ T1, K.ok T1 → K.grows T T1 →
      Typing.Terminates K T1 (fun d => expandAt d chain p) Table.Has)
    (halias : ∀ a, T.alias? a.name = some a → a.params = [] →
      ∃ d p, resolveAlias (expandAt d) chain a 0 T = some p)
    (hinst : ∀ name arguments, T.shape t = .reference name arguments →
      ∃ d p, instantiate (expandAt d) chain t name arguments 0 T = some p) :
    ∃ d p, expandStep (expandAt d) d chain t 0 T = some p := by
  unfold expandStep
  simp only [Typing.get_bind]
  cases hs : T.shape t with
  | reference name arguments =>
    have hi := hinst name arguments hs
    rw [hs] at hpart
    cases ha : T.alias? name with
    | none =>
      rcases arguments with _ | ⟨argument, _ | ⟨second, rest⟩⟩
      · simpa only [ha] using hi
      · simp only [ha]
        by_cases hname : name = readonlyName
        · simp only [if_pos hname]
          refine ((hpart argument (by simp [Shape.parts]) T hT (K.refl T)).bind
            (W := Table.Has) (f := fun d u => Ty.readonlyAt pure d u) ?_).result
          intro u T1 hT1 _ hu
          exact Ty.terminates_readonlyAt hT1 hu
        · simpa only [if_neg hname] using hi
      · simpa only [ha] using hi
    | some a =>
      cases arguments with
      | nil =>
        simp only [ha]
        by_cases hparams : a.params.isEmpty = true
        · simp only [if_pos hparams]
          obtain ⟨-, rfl⟩ := Table.alias?_eq_some ha
          exact halias a ha (by simpa using hparams)
        · simpa only [if_neg hparams] using hi
      | cons first rest => simpa only [ha] using hi
  | union ms =>
    rw [hs] at hpart
    exact Ty.terminates_gathered hT hpart fun us T1 hT1 hus =>
      (Interning.settles_unionOf hT1 hus).imp fun _ _ _ _ h => h.1
  | intersection ms =>
    rw [hs] at hpart
    exact Ty.terminates_gathered hT hpart fun us T1 hT1 hus =>
      (Interning.settles_intersectionOf hT1 hus).imp fun _ _ _ _ h => h.1
  | _ => exact ⟨0, _, rfl⟩

/-- **Expansion ends.** Every type of a table has an expansion in every chain. -/
theorem expandAt_ends (hT : T.Sound) (chain : Chain) (ht : T.Has t) :
    ∃ d p, expandAt d chain t 0 T = some p := by
  -- an instance takes room on the chain, every other step goes to a part
  induction hk : slack T chain using Nat.strong_induction_on generalizing T chain t with
  | _ k ihchain =>
  induction hr : t.rank using Nat.strong_induction_on generalizing T t with
  | _ r ihrank =>
  suffices hstep : ∃ d p, expandStep (expandAt d) d chain t 0 T = some p by
    obtain ⟨d, p, hp⟩ := hstep
    exact ⟨d + 1, p, hp⟩
  refine expandStep_ends (K := within chain) hT ?_ ?_ ?_
  · intro p hp T1 hT1 h1
    have hlt := hT.wellFormed.rank_part hp
    have hhas := Table.has_of_le h1.1.le (hT.wellFormed.has_part ht hp)
    exact ⟨fun d d' hd => expandRuns_expandAt hd chain T1 p hT1 hhas,
      ihrank p.rank (by omega) hT1 hhas ((slack_of_le h1.1.le chain).trans hk) rfl⟩
  · intro a ha _
    obtain ⟨outcome, hout⟩ := Option.isSome_iff_exists.mp (hT.settled a.name a ha)
    simp only [resolveAlias, hout]
    exact ⟨0, _, rfl⟩
  · intro name arguments hs
    refine instantiate_ends hT.wellFormed hs ?_
    intro a ha hroom T2 u hT2 h2 hu
    obtain ⟨hmem, rfl⟩ := Table.alias?_eq_some ha
    refine ihchain _ ?_ (hT.of_adds hT2 h2) (chain ++ [⟨T.text t, a.name⟩]) hu rfl
    rw [slack_of_le h2.le, ← hk]
    exact slack_append_lt hmem _ hroom

end Expansion

namespace Ty

/-- **Resolution ends.** Every type of a table resolves to some type, given enough steps. -/
theorem resolve_ends (hT : T.Sound) (ht : T.Has t) :
    ∃ n p, ∀ m, n ≤ m → t.resolve m T = some p := by
  suffices hsome : ∃ n p, t.resolve n T = some p by
    obtain ⟨n, ⟨r, T1⟩, hrun⟩ := hsome
    exact ⟨n, (r, T1), (lasting_resolve hT ht n r T1 hrun).1.more⟩
  cases hopen : hasOpenHead T t with
  | false => exact ⟨0, _, resolve_closed 0 hopen⟩
  | true =>
    cases hlook : T.instances.lookup t with
    | some r => exact ⟨0, _, resolve_known 0 hopen hlook⟩
    | none =>
      obtain ⟨d, ⟨r, T1⟩, hexp⟩ := Expansion.expandAt_ends hT [] ht
      have hmore := (Expansion.lasting_expandAt (Nat.le_refl d) hT ht 0 r T1 hexp).1.more d
        (Nat.zero_le d)
      have hrun := resolve_anew d hopen hlook
      rw [resolveAnew_apply, hmore] at hrun
      exact ⟨d, _, hrun⟩

end Ty

end ShapeCheck
