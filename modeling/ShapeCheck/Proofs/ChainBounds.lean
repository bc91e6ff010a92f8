import ShapeCheck.Proofs.Calling
import ShapeCheck.Proofs.Untouched

/-!
# Bounds on the chain

An expansion keeps the aliases that it is inside of on a chain. No key comes twice on it, and beside
the link under its own name an alias has no more links than it may be nested, so every expansion
ends.

* `Expansion.Bounded` is what holds of the chain, `Expansion.Bounded.push` that a further link keeps
  it.
* `Expansion.expandWatched` is the expansion that looks at its chain all the time: it goes on only
  with a chain in bounds, and so it has a result only if no chain on the way is out of bounds.
* `Expansion.expandAt_watched` says that both give the same result, given enough depth, and
  `Ty.resolve_ends_watched` that resolving ends.
-/

namespace ShapeCheck

variable {T T1 : Table} {l : Link} {chain : Chain} {t : Ty}

namespace Expansion

/-- The link is there for a reference that gives its alias arguments. -/
def Link.Given (T : Table) (l : Link) : Prop :=
  ∃ ref first rest, T.shape ref = .reference l.name (first :: rest) ∧ T.text ref = l.key

/-- A chain is in bounds. An alias without parameters is on it at most once, except for references
that give it arguments nonetheless. -/
structure Bounded (T : Table) (chain : Chain) : Prop where
  /-- No key is there twice, so no alias has two links under its own name. -/
  once : (chain.map Link.key).Nodup
  /-- An alias without parameters has no other links but for references with arguments. -/
  plain : ∀ l ∈ chain, l.key ≠ l.name →
    ∀ a, T.alias? l.name = some a → a.params = [] → l.Given T
  /-- Beside the link under its own name, an alias has only so many links. -/
  nested : ∀ name, (chain.filter fun l => l.name = name ∧ l.key ≠ name).length ≤ nestingLimit

theorem Link.Given.of_evolves (h : l.Given T) (h1 : T.Evolves T1) : l.Given T1 := by
  obtain ⟨ref, first, rest, hshape, htext⟩ := h
  have hhas : T.Has ref := Table.has_of_shape (by simp [hshape])
  exact ⟨ref, first, rest, by rw [h1.shape hhas, hshape], by rw [h1.text hhas, htext]⟩

theorem Bounded.of_evolves (h : Bounded T chain) (h1 : T.Evolves T1) : Bounded T1 chain := by
  refine ⟨h.once, fun l hl hkey b hb hparams => ?_, h.nested⟩
  obtain ⟨a, ha, hab⟩ := h1.develops.alias_before hb
  exact (h.plain l hl hkey a ha (by rw [← hab.params, hparams])).of_evolves h1

/-- A further link stays in bounds: its key is new, and it is the link under the name of the alias
or there is room for one more. -/
theorem Bounded.push (h : Bounded T chain) (hnew : ¬onChain chain l.key = true)
    (hplain : l.key ≠ l.name → ∀ a, T.alias? l.name = some a → a.params = [] → l.Given T)
    (hroom : l.key = l.name ∨ (chain.filter (·.name = l.name)).length < nestingLimit) :
    Bounded T (chain ++ [l]) := by
  refine ⟨?_, ?_, fun name => ?_⟩
  · have hfresh : l.key ∉ chain.map Link.key := by
      intro hmem
      obtain ⟨m, hm, hkey⟩ := List.mem_map.mp hmem
      exact hnew (onChain_iff.mpr ⟨m, hm, hkey⟩)
    rw [List.map_append, List.map_singleton, List.nodup_append]
    exact ⟨h.once, by simp, by simpa using fun m hm heq => hfresh (List.mem_map.mpr ⟨m, hm, heq⟩)⟩
  · intro m hm
    rcases List.mem_append.mp hm with hm | hm
    · exact h.plain m hm
    · obtain rfl := List.mem_singleton.mp hm
      exact hplain
  · have hbefore := h.nested name
    rw [List.filter_append, List.length_append]
    by_cases hl : l.name = name ∧ l.key ≠ name
    · obtain ⟨rfl, hkey⟩ := hl
      have hroom := hroom.resolve_left hkey
      have hfewer : (chain.filter fun m => m.name = l.name ∧ m.key ≠ l.name).length ≤
          (chain.filter (·.name = l.name)).length :=
        (List.monotone_filter_right chain fun m hm => by simp at hm ⊢; exact hm.1).length_le
      have hone : ([l].filter fun m => m.name = l.name ∧ m.key ≠ l.name).length ≤ 1 :=
        List.length_filter_le ..
      omega
    · simpa [hl] using hbefore

open Classical in
/-- The expansion that goes on only with chains in bounds. -/
noncomputable def expandWatched : Nat → Chain → Ty → Typing Ty
  | 0, _, _ => Typing.outOfSteps
  | depth + 1, chain, t => do
    if Bounded (← get) chain then expandStep (expandWatched depth) depth chain t
    else Typing.outOfSteps

/-- Watching the chain changes nothing. -/
theorem watches_expandAt {d d' : Nat} (hd : d ≤ d') (hT : T.WellFormed)
    (hchain : Bounded T chain) (ht : T.Has t) :
    Typing.Runs .building T (expandAt d chain t) (expandWatched d' chain t) Table.Has := by
  induction d generalizing d' T chain t with
  | zero => exact Typing.runs_outOfSteps
  | succ d ih =>
    obtain ⟨d', rfl⟩ : ∃ k, d' = k + 1 := ⟨d' - 1, by omega⟩
    have hd : d ≤ d' := by omega
    have hstep : Typing.Runs .building T (expandStep (expandAt d) d chain t)
        (expandStep (expandWatched d') d' chain t) Table.Has := by
      refine runs_expandStep Table.Family.expands_all hd hT ht ?_ ?_ ?_
      · intro T1 u hT1 h1 hu
        exact ih hd hT1 (hchain.of_evolves h1) hu
      · intro a ha _
        refine (runs_resolveAlias_building Regime.resolves_building hT ha fun hnew u hu => ?_).imp
          fun _ _ _ _ h => h.1
        exact ih hd hT (hchain.push hnew (by simp) (.inl rfl)) hu
      · intro name arguments hs hopen
        refine runs_instantiate_building Regime.resolves_building hT ht hs
          fun hnew hroom T1 u hT1 h1 hu => ?_
        have hgiven : ∀ a, T.alias? name = some a → a.params = [] →
          Link.Given T ⟨T.text t, name⟩ := by
          intro a ha hparams
          rcases arguments with _ | ⟨first, rest⟩
          · exact absurd hparams ((hopen a ha).resolve_left (by simp))
          · exact ⟨t, first, rest, hs, rfl⟩
        have hpushed : Bounded T (chain ++ [⟨T.text t, name⟩]) :=
          hchain.push hnew (fun _ => hgiven) (.inr hroom)
        exact ih hd hT1 (hpushed.of_evolves h1) hu
    intro n r T1 hrun
    obtain ⟨hat, hr⟩ := hstep n r T1 hrun
    refine ⟨⟨hat.ok, hat.grows, fun m hm => ?_, fun _ _ _ h => h.elim⟩, hr⟩
    rw [expandWatched, Typing.get_bind, if_pos hchain]
    exact hat.more m hm

/-- **Expansions end and keep their chains in bounds.** From some depth on, an expansion inside of a
chain in bounds has a result, and the expansion that watches the chain has it too. -/
theorem expandAt_watched (hT : T.WellFormed) (hchain : Bounded T chain) (ht : T.Has t) :
    ∃ k p, ∀ d n, k ≤ d → expandAt d chain t n T = some p ∧
    expandWatched d chain t n T = some p := by
  obtain ⟨k, ⟨r, T1⟩, hrun⟩ := expandAt_building_ends (T.aliases.map Alias.name) hT
    (fun name => (Table.isSome_alias? T name).mp) chain ht
  refine ⟨k, (r, T1), fun d n hd => ⟨?_, ?_⟩⟩
  · obtain ⟨hat, -⟩ := expandBuilds_expandAt Regime.resolves_building hd chain T t hT ht 0 r T1 hrun
    exact hat.more n (Nat.zero_le n)
  · obtain ⟨hat, -⟩ := watches_expandAt hd hT hchain ht 0 r T1 hrun
    exact hat.more n (Nat.zero_le n)

end Expansion

open Expansion Table

/-- **Resolving always ends**, in every table that operations leave: for aliases with and without
parameters, with defaults, referring to each other, and with arguments that grow. Meanwhile the
chain is always in bounds. -/
theorem Ty.resolve_ends_watched {T : Table} (hT : Relation.ReflTransGen Operated {} T) {t : Ty}
    (ht : T.Has t) :
    (∃ k p, ∀ n, k ≤ n → t.resolve n T = some p) ∧
      ∀ chain, Bounded T chain → ∃ k p, ∀ d n, k ≤ d →
        expandAt d chain t n T = some p ∧ expandWatched d chain t n T = some p := by
  have hwf := wellFormed_of_operated hT
  exact ⟨Ty.resolve_building_ends hwf ht, fun chain hchain => expandAt_watched hwf hchain ht⟩

namespace Table

/-- A table with the alias `G<T> = G<T[]>`, whose argument grows with every instance, and a
reference to it. -/
def growing : Table :=
  let T := ((Construction.parameter ⟨0⟩).run (Ty.newTypeVar { name := "T" } {}).2).2
  let T := ((Construction.array (.made 0) false).run T).2
  let T := ((Construction.reference "G" [.made 1]).run T).2
  ((Construction.reference "G" [.number]).run (Alias.define "G" [⟨0⟩] (.made 2) T).2).2

theorem operated_growing : Relation.ReflTransGen Operated {} growing := by
  have hvar : Relation.ReflTransGen Operated {} (Ty.newTypeVar { name := "T" } {}).2 :=
    .single (.call (.declare { name := "T" } (by simp) (by simp)))
  have hparameter := operated_construct hvar (.parameter ⟨0⟩) (by simp [Construction.inputs])
    (show 0 < 1 by decide)
  have harray := operated_construct hparameter (.array (.made 0) false) (by decide +kernel) trivial
  have htarget := operated_construct harray (.reference "G" [.made 1]) (by decide +kernel) trivial
  refine operated_construct (htarget.tail (.define "G" ?_ ?_)) (.reference "G" [.number]) ?_ trivial
  · rintro v hv
    obtain rfl := List.mem_singleton.mp hv
    unfold Knows
    decide +kernel
  · decide +kernel
  · simp [Construction.inputs]

end Table

/-- The reference to the alias whose argument grows. -/
theorem Ty.resolve_ends_watched_growing :
    (∃ k p, ∀ n, k ≤ n → (Ty.made 3).resolve n growing = some p) ∧
      ∀ chain, Bounded growing chain → ∃ k p, ∀ d n, k ≤ d →
        expandAt d chain (Ty.made 3) n growing = some p ∧
          expandWatched d chain (Ty.made 3) n growing = some p :=
  Ty.resolve_ends_watched operated_growing (by decide +kernel)

end ShapeCheck
