import ShapeCheck.Proofs.Memory
import ShapeCheck.Proofs.Assignability

/-!
# Resolving aliases without parameters

Aliases are defined, and then asked for in any order: by name, by reference, or all together, with
further types made in between. Each question has an answer, and whatever was asked before it is the
answer of plain expansion. An alias is reported as cyclic only if it lies on a cycle, and each cycle
has a reported alias; which of its aliases these are depends on the order of the definitions.

* `Table.Defined` is a table whose aliases are defined, `Table.Consulted` a question to such a
  table.
* `Expansion.expandAt_building_ends` says that questions have answers while aliases are resolved.
* `Alias.resolve_plainly` says what an alias resolves to, `Alias.resolveAll_reports` what is
  reported and `Alias.resolveAll_permuted` what does not depend on the order.
-/

namespace ShapeCheck

open Typing

variable {names : List String} {chain : Chain} {T : Table} {a : Alias} {t : Ty}
  {ps : List (Ty × Option AliasError)}

open Relation

namespace Table

/-- A table whose aliases have been defined, none of them with parameters, and not yet been asked
for. A name of an alias has no angle bracket, as these are printed around arguments. -/
inductive Defined : Table → Prop
  | empty : Defined {}
  | construct {T : Table} (h : Defined T) (c : Construction) (hin : ∀ t ∈ c.inputs, T.Has t)
    (hfits : c.Fits T) : Defined (c.run T).2
  | declare {T : Table} (h : Defined T) (info : TypeVarInfo) (hbound : ∀ b ∈ info.bound, T.Has b)
    (hdefault : ∀ d ∈ info.default, T.Has d) : Defined (Ty.newTypeVar info T).2
  | define {T : Table} (h : Defined T) {name : String} {target : Ty} (hname : '<' ∉ name.toList)
    (htarget : T.Has target) : Defined (Alias.define name [] target T).2

/-- A question about aliases to the first table leaves the second, as does a new type or the end of
the definitions. -/
inductive Consulted (T : Table) : Table → Prop
  | construct (c : Construction) (hin : ∀ t ∈ c.inputs, T.Has t) (hfits : c.Fits T) :
    Consulted T (c.run T).2
  | resolve {t r : Ty} {n : Nat} {T1 : Table} (ht : T.Has t) (hrun : t.resolve n T = some (r, T1)) :
    Consulted T T1
  | resolveAlias {name : String} {n : Nat} {p : Ty × Option AliasError} {T1 : Table}
    (hrun : Alias.resolve name n T = some (p, T1)) : Consulted T T1
  | resolveAll {n : Nat} {errors : List AliasError} {T1 : Table}
    (hrun : Alias.resolveAll n T = some (errors, T1)) : Consulted T T1
  | freeze : Consulted T (Alias.freeze T).2

/-- What holds of a table before its aliases are asked for. -/
structure Untouched (T : Table) : Prop where
  wellFormed : T.WellFormed
  spelled : T.Spelled
  plain : ∀ a ∈ T.aliases, a.params = [] ∧ a.outcome = none ∧ '<' ∉ a.name.toList
  distinct : (T.aliases.map Alias.name).Nodup
  instances : T.instances = []
  defining : T.frozen = false

theorem isSome_alias? (T : Table) (name : String) :
    (T.alias? name).isSome = true ↔ name ∈ T.aliases.map Alias.name := by
  simp [alias?, List.find?_isSome, List.mem_map]

end Table

namespace Expansion

/-- How far a chain can still grow along aliases with these names: an alias is expanded by its name
once and by references with arguments as often as the limit allows. -/
def room (names : List String) (chain : Chain) : Nat :=
  (names.map fun name => (nestingLimit - (chain.filter (·.name = name)).length) +
    if onChain chain name then 0 else 1).sum

theorem room_append_lt {name key : String} (hname : name ∈ names)
    (hnew : (chain.filter (·.name = name)).length < nestingLimit ∨
      key = name ∧ ¬onChain chain name = true) :
    room names (chain ++ [⟨key, name⟩]) < room names chain := by
  have hmono : ∀ other, (if onChain (chain ++ [⟨key, name⟩]) other then 0 else 1) ≤
      if onChain chain other then 0 else 1 := by
    intro other
    by_cases hon : onChain chain other = true
    · have hon' : onChain (chain ++ [⟨key, name⟩]) other = true := by
        obtain ⟨l, hl, hkey⟩ := onChain_iff.mp hon
        exact onChain_iff.mpr ⟨l, List.mem_append_left _ hl, hkey⟩
      simp [hon, hon']
    · rw [if_neg hon]
      split <;> omega
  refine List.sum_lt_sum _ _ ?_ ⟨name, hname, ?_⟩
  · intro other _
    have := hmono other
    simp only [List.filter_append, List.length_append]
    omega
  · have := hmono name
    simp only [List.filter_append, List.length_append, List.filter_cons, decide_true, if_true,
      List.filter_nil, List.length_singleton]
    rcases hnew with hlt | ⟨rfl, hoff⟩
    · omega
    · have hon : onChain (chain ++ [⟨key, key⟩]) key = true :=
        onChain_iff.mpr ⟨⟨key, key⟩, by simp, rfl⟩
      rw [if_pos hon, if_neg hoff]
      omega

/-- Expanding the target of an alias ends when the expansion inside the longer chain does. -/
theorem complete_ends
    (hexpand : ∃ d p, expandAt d (chain ++ [⟨a.name, a.name⟩]) a.target 0 T = some p) :
    ∃ d p, complete (expandAt d) chain a 0 T = some p := by
  obtain ⟨d, ⟨r, T1⟩, hrun⟩ := hexpand
  refine ⟨d, ?_⟩
  unfold complete
  rw [bind_of_some hrun, get_bind]
  cases (T1.alias? a.name).bind Alias.outcome with
  | some o => exact ⟨_, rfl⟩
  | none =>
    cases hparams : a.params.isEmpty with
    | true => exact ⟨_, rfl⟩
    | false => exact ⟨_, rfl⟩

/-- **Expansion ends** also while aliases are being resolved. -/
theorem expandAt_building_ends (names : List String) (hT : T.WellFormed)
    (hnames : ∀ name, (T.alias? name).isSome = true → name ∈ names) (chain : Chain)
    (ht : T.Has t) : ∃ d p, expandAt d chain t 0 T = some p := by
  -- going into an alias takes room on the chain, every other step goes to a part
  induction hk : room names chain using Nat.strong_induction_on generalizing T chain t with
  | _ k ihchain =>
  induction hr : t.rank using Nat.strong_induction_on generalizing T t with
  | _ r ihrank =>
  have hlater : ∀ {T1 : Table}, T.Evolves T1 → ∀ name, (T1.alias? name).isSome = true →
      name ∈ names := by
    intro T1 h1 name hname
    rw [h1.develops.isSome] at hname
    exact hnames name hname
  suffices hstep : ∃ d p, expandStep (expandAt d) d chain t 0 T = some p by
    obtain ⟨d, p, hp⟩ := hstep
    exact ⟨d + 1, p, hp⟩
  refine expandStep_ends (K := .building) hT ?_ ?_ ?_
  · intro p hp T1 hT1 h1
    have hlt := hT.rank_part hp
    have hhas := h1.has (hT.has_part ht hp)
    exact ⟨fun d d' hd => expandBuilds_expandAt Regime.resolves_building hd chain T1 p hT1 hhas,
      ihrank p.rank (by omega) hT1 (hlater h1) hhas rfl⟩
  · intro a ha _
    unfold resolveAlias
    cases a.outcome with
    | some o => exact ⟨0, _, rfl⟩
    | none =>
      dsimp only
      by_cases hon : onChain chain a.name = true
      · simp only [if_pos hon]
        exact ⟨0, _, rfl⟩
      · simp only [if_neg hon]
        refine complete_ends (ihchain _ ?_ hT hnames _ (hT.has_target ha) rfl)
        rw [← hk]
        exact room_append_lt (hnames a.name (by simp [ha])) (.inr ⟨rfl, hon⟩)
  · intro name arguments hs
    refine instantiate_ends hT hs ?_
    intro a ha hroom T2 u hT2 h2 hu
    refine ihchain _ ?_ hT2 (hlater (.of_adds h2)) _ hu rfl
    rw [← hk]
    exact room_append_lt (hnames name (by simp [ha])) (.inl hroom)

end Expansion

namespace Alias

open Expansion

variable {T1 : Table} {name : String} {n : Nat}

theorem resolve_unknown (ha : T.alias? name = none) (n : Nat) :
    resolve name n T = some ((.invalid, some (.undefined name)), T) := by
  unfold resolve
  rw [get_bind, ha]
  rfl

/-- What is reported for an alias with an outcome. -/
def report (name : String) : AliasOutcome → Option AliasError
  | .resolved _ => none
  | .cyclic chain => some (.cyclic name chain)

/-- How an alias is resolved: its outcome is found, and reported. -/
theorem resolve_known (ha : T.alias? name = some a)
    (hrun : resolveAlias (expandAt n) [] a n T = some (t, T1)) {b : Alias} {o : AliasOutcome}
    (hb : T1.alias? name = some b) (ho : b.outcome = some o) :
    resolve name n T = some ((t, report name o), T1) := by
  unfold resolve
  rw [get_bind, ha]
  dsimp only
  have hbounded : (bounded fun depth => resolveAlias (expandAt depth) [] a) n T =
      some (t, T1) := hrun
  rw [bind_of_some hbounded, get_bind, hb, Option.bind_some, ho]
  cases o with
  | resolved u => rfl
  | cyclic chain => rfl

/-- Every alias resolves to some type, given enough steps. -/
theorem resolve_ends (hT : T.WellFormed) (name : String) :
    ∃ n p, ∀ m, n ≤ m → resolve name m T = some p := by
  suffices hsome : ∃ n p, resolve name n T = some p by
    obtain ⟨n, ⟨p, T1⟩, hrun⟩ := hsome
    exact ⟨n, (p, T1), (building_resolve hT name n p T1 hrun).1.more⟩
  cases ha : T.alias? name with
  | none => exact ⟨0, _, resolve_unknown ha 0⟩
  | some a =>
    have hname := (Table.alias?_eq_some ha).2
    subst hname
    have hnames : ∀ other, (T.alias? other).isSome = true → other ∈ T.aliases.map Alias.name :=
      fun other => (Table.isSome_alias? T other).mp
    have hends : ∃ d p, resolveAlias (expandAt d) [] a 0 T = some p := by
      unfold resolveAlias
      cases a.outcome with
      | some o => exact ⟨0, _, rfl⟩
      | none => exact complete_ends (expandAt_building_ends _ hT hnames _ (hT.has_target ha))
    obtain ⟨d, ⟨t, T1⟩, hrun⟩ := hends
    obtain ⟨hat, -, hdone⟩ := runs_resolveAlias_building Regime.resolves_building hT ha
      (fun _ u hu => expandBuilds_expandAt Regime.resolves_building (Nat.le_refl d) _ T u hT hu)
      0 t T1 hrun
    obtain ⟨b, o, hb, ho⟩ := hdone rfl
    exact ⟨d, _, resolve_known ha (hat.more d (Nat.zero_le d)) hb ho⟩

/-- All aliases together are resolved, given enough steps. -/
theorem resolveAll_ends (hT : T.WellFormed) : ∃ n p, ∀ m, n ≤ m → resolveAll m T = some p := by
  have hmap : ∀ (names : List String) {T : Table}, T.WellFormed →
      ∃ n p, ∀ m, n ≤ m → names.mapM resolve m T = some p := by
    intro names
    induction names with
    | nil =>
      intro T _
      exact ⟨0, ([], T), fun _ _ => rfl⟩
    | cons name names ih =>
      intro T hT
      obtain ⟨n1, ⟨p, T1⟩, h1⟩ := resolve_ends hT name
      obtain ⟨hat, -⟩ := building_resolve hT name n1 p T1 (h1 n1 (Nat.le_refl n1))
      obtain ⟨n2, ⟨ps, T2⟩, h2⟩ := ih hat.ok
      refine ⟨max n1 n2, (p :: ps, T2), fun m hm => ?_⟩
      rw [List.mapM_cons, bind_of_some (h1 m (by omega)),
        bind_of_some (h2 m (by omega))]
      rfl
  obtain ⟨n, ⟨ps, T1⟩, hrun⟩ := hmap (T.aliases.map Alias.name) hT
  refine ⟨n, (ps.filterMap Prod.snd, T1), fun m hm => ?_⟩
  unfold resolveAll
  rw [get_bind, bind_of_some (hrun m hm)]
  rfl

/-- Resolving an alias gives what its plain expansion gives, and reports its outcome. -/
theorem resolve_coherent (hT : T.Coherent) (ha : T.alias? name = some a)
    {p : Ty × Option AliasError} (h : resolve name n T = some (p, T1)) :
    T1.Coherent ∧ T.Evolves T1 ∧ T1.Yields a.target p.1 ∧
      ∃ b o, T1.alias? name = some b ∧ b.outcome = some o ∧ p.2 = report name o := by
  have hname := (Table.alias?_eq_some ha).2
  subst hname
  cases hrun : resolveAlias (expandAt n) [] a n T with
  | none =>
    have hnone : (bounded fun depth => resolveAlias (expandAt depth) [] a) n T = none := hrun
    unfold resolve at h
    rw [get_bind, ha] at h
    obtain ⟨t, T', hsome, -⟩ := bind_some h
    rw [hnone] at hsome
    exact absurd hsome (by simp)
  | some q =>
    obtain ⟨t, T'⟩ := q
    have hspec : T'.Coherent ∧ T.Evolves T' ∧ T'.Yields a.target t ∧ T'.Done a.name := by
      unfold resolveAlias at hrun
      cases ho : a.outcome with
      | some o =>
        rw [ho] at hrun
        obtain ⟨rfl, rfl⟩ := Prod.mk.inj (Option.some.inj hrun)
        exact ⟨hT, .refl T, hT.outcomes a.name a o ha ho, a, o, ha, ho⟩
      | none =>
        rw [ho] at hrun
        exact complete_coherent (expandAt_coherent n) hT ha (traces_single ha) hrun
    obtain ⟨h1, hevolves, hyields, b, o, hb, ho⟩ := hspec
    rw [resolve_known ha hrun hb ho] at h
    obtain ⟨rfl, rfl⟩ := Prod.mk.inj (Option.some.inj h)
    exact ⟨h1, hevolves, hyields, b, o, hb, ho, rfl⟩

/-- Resolving several aliases one after the other reports the outcomes that they have in the end. -/
theorem mapM_resolve_coherent (names : List String) (hT : T.Coherent)
    (hnames : ∀ name ∈ names, (T.alias? name).isSome = true)
    (h : names.mapM resolve n T = some (ps, T1)) :
    T1.Coherent ∧ T.Evolves T1 ∧ List.Forall₂ (fun name p => ∃ b o, T1.alias? name = some b ∧
      b.outcome = some o ∧ p.2 = report name o) names ps := by
  induction names generalizing T ps with
  | nil =>
    obtain ⟨rfl, rfl⟩ := Prod.mk.inj (Option.some.inj h)
    exact ⟨hT, .refl T, .nil⟩
  | cons name names ih =>
    rw [List.mapM_cons] at h
    obtain ⟨p, T2, hp, h⟩ := bind_some h
    obtain ⟨qs, T3, hqs, h⟩ := bind_some h
    obtain ⟨rfl, rfl⟩ := Prod.mk.inj (Option.some.inj h)
    obtain ⟨a, ha⟩ := Option.isSome_iff_exists.mp (hnames name (by simp))
    obtain ⟨h2, hevolves, -, b, o, hb, ho, hreport⟩ := resolve_coherent hT ha hp
    obtain ⟨h3, hevolves3, hrest⟩ := ih h2 (fun other hother => by
      rw [hevolves.develops.isSome]
      exact hnames other (List.mem_cons_of_mem _ hother)) hqs
    obtain ⟨c, hc, hbc⟩ := hevolves3.develops.alias hb
    exact ⟨h3, hevolves.trans hevolves3, .cons ⟨c, o, hc, hbc.outcome o ho, hreport⟩ hrest⟩

end Alias

/-- The name of the alias that an error is about. -/
def AliasError.name : AliasError → String
  | .frozen name | .duplicate name | .undefined name | .cyclic name _ => name

namespace Alias

variable {T1 : Table} {n : Nat} {errors : List AliasError}

/-- The reports about some aliases with known outcomes. -/
theorem mem_reports
    (h : List.Forall₂ (fun name p => ∃ b o, T.alias? name = some b ∧ b.outcome = some o ∧
      p.2 = report name o) names ps) :
    ((ps.filterMap Prod.snd).map AliasError.name).Sublist names ∧
      ∀ e, e ∈ ps.filterMap Prod.snd ↔ ∃ name ∈ names, ∃ b chain, T.alias? name = some b ∧
        b.outcome = some (.cyclic chain) ∧ e = .cyclic name chain := by
  induction h with
  | nil => simp
  | @cons name p names ps hp _ ih =>
    obtain ⟨b, o, hb, ho, hreport⟩ := hp
    obtain ⟨hsub, hmem⟩ := ih
    cases o with
    | resolved t =>
      have hnone : p.2 = none := hreport
      rw [List.filterMap_cons_none hnone]
      refine ⟨hsub.cons name, fun e => (hmem e).trans ⟨?_, ?_⟩⟩
      · rintro ⟨other, hother, hrest⟩
        exact ⟨other, List.mem_cons_of_mem _ hother, hrest⟩
      · rintro ⟨other, hother, c, chain, hc, hcyclic, rfl⟩
        rcases List.mem_cons.mp hother with rfl | hother
        · rw [hb] at hc
          obtain rfl := Option.some.inj hc
          rw [ho] at hcyclic
          exact absurd hcyclic (by simp)
        · exact ⟨other, hother, c, chain, hc, hcyclic, rfl⟩
    | cyclic chain =>
      have hsome : p.2 = some (.cyclic name chain) := hreport
      rw [List.filterMap_cons_some hsome]
      refine ⟨hsub.cons_cons name, fun e => ?_⟩
      rw [List.mem_cons, hmem]
      constructor
      · rintro (rfl | ⟨other, hother, hrest⟩)
        · exact ⟨name, by simp, b, chain, hb, ho, rfl⟩
        · exact ⟨other, List.mem_cons_of_mem _ hother, hrest⟩
      · rintro ⟨other, hother, c, chain', hc, hcyclic, rfl⟩
        rcases List.mem_cons.mp hother with rfl | hother
        · rw [hb] at hc
          obtain rfl := Option.some.inj hc
          rw [ho] at hcyclic
          obtain ⟨rfl⟩ : chain = chain' := by simpa using hcyclic
          exact .inl rfl
        · exact .inr ⟨other, hother, c, chain', hc, hcyclic, rfl⟩

/-- All aliases have outcomes in the end, and those that are marked as cyclic are reported. -/
theorem resolveAll_coherent (hT : T.Coherent) (h : resolveAll n T = some (errors, T1)) :
    T1.Coherent ∧ T.Evolves T1 ∧ (∀ name, (T.alias? name).isSome = true → T1.Done name) ∧
      (errors.map AliasError.name).Sublist (T.aliases.map Alias.name) ∧
      ∀ e, e ∈ errors ↔ ∃ name b chain, T1.alias? name = some b ∧
        b.outcome = some (.cyclic chain) ∧ e = .cyclic name chain := by
  unfold resolveAll at h
  rw [get_bind] at h
  obtain ⟨ps, T2, hmap, h⟩ := bind_some h
  obtain ⟨rfl, rfl⟩ := Prod.mk.inj (Option.some.inj h)
  have hnames := fun name => (Table.isSome_alias? T name).symm
  obtain ⟨h1, hevolves, hall⟩ := mapM_resolve_coherent _ hT
    (fun name hname => (hnames name).mp hname) hmap
  obtain ⟨hsub, hmem⟩ := mem_reports hall
  refine ⟨h1, hevolves, ?_, hsub, fun e => (hmem e).trans ⟨?_, ?_⟩⟩
  · intro name hname
    obtain ⟨hat, hdone⟩ := runs_mapM_resolve Regime.resolves_building hT.wellFormed _ n ps T2 hmap
    exact hdone name ((hnames name).mpr hname) hname
  · rintro ⟨name, -, hrest⟩
    exact ⟨name, hrest⟩
  · rintro ⟨name, b, chain, hb, hrest⟩
    refine ⟨name, (hnames name).mpr ?_, b, chain, hb, hrest⟩
    rw [← hevolves.develops.isSome, hb]
    rfl

end Alias

namespace Ty

variable {T1 : Table} {r : Ty} {n : Nat}

/-- Resolving a type keeps a table coherent, and a reference resolves to its plain expansion. -/
theorem resolve_coherent (hT : T.Coherent) (ht : T.Has t) (h : t.resolve n T = some (r, T1)) :
    T1.Coherent ∧ T.Evolves T1 ∧ (hasOpenHead T t = true → T1.Yields t r) := by
  obtain ⟨hat, -⟩ := building_resolve hT.wellFormed ht n r T1 h
  cases hopen : hasOpenHead T t with
  | false =>
    rw [resolve_closed n hopen] at h
    obtain ⟨rfl, rfl⟩ := Prod.mk.inj (Option.some.inj h)
    exact ⟨hT, .refl T, by simp⟩
  | true =>
  cases hlook : T.instances.lookup t with
  | some r' =>
    rw [resolve_known n hopen hlook] at h
    obtain ⟨rfl, rfl⟩ := Prod.mk.inj (Option.some.inj h)
    exact ⟨hT, .refl T, fun _ => (hT.instances t r' hlook).2.1⟩
  | none =>
    rw [resolve_anew n hopen hlook, resolveAnew_apply] at h
    obtain ⟨⟨r', T'⟩, hexp, hrest⟩ := Option.bind_eq_some_iff.mp h
    have hout := Expansion.expandAt_coherent n [] T t n r' T' hT ht (Expansion.traces_nil T t) hexp
    obtain ⟨rfl, hleft⟩ := Prod.mk.inj (Option.some.inj hrest)
    dsimp only at hleft
    split at hleft
    · subst hleft
      have hlast := Expansion.evolves_remembered T' t r'
      exact ⟨hout.coherent.remembered (hout.evolves.has ht) hout.yields hout.heard,
        hout.evolves.trans hlast, fun _ => hout.yields.of_develops hout.coherent.wellFormed
          hlast.develops (hout.evolves.has ht)⟩
    · subst hleft
      exact ⟨hout.coherent, hout.evolves, fun _ => hout.yields⟩

/-- Every type resolves to some type, given enough steps, also while aliases are being resolved. -/
theorem resolve_building_ends (hT : T.WellFormed) (ht : T.Has t) :
    ∃ n p, ∀ m, n ≤ m → t.resolve m T = some p := by
  suffices hsome : ∃ n p, t.resolve n T = some p by
    obtain ⟨n, ⟨r, T1⟩, hrun⟩ := hsome
    exact ⟨n, (r, T1), (building_resolve hT ht n r T1 hrun).1.more⟩
  cases hopen : hasOpenHead T t with
  | false => exact ⟨0, _, resolve_closed 0 hopen⟩
  | true =>
    cases hlook : T.instances.lookup t with
    | some r => exact ⟨0, _, resolve_known 0 hopen hlook⟩
    | none =>
      have hnames : ∀ name, (T.alias? name).isSome = true → name ∈ T.aliases.map Alias.name :=
        fun name => (Table.isSome_alias? T name).mp
      obtain ⟨d, ⟨r, T1⟩, hexp⟩ := Expansion.expandAt_building_ends _ hT hnames [] ht
      have hmore := (Expansion.expandBuilds_expandAt Regime.resolves_building
        (Nat.le_refl d) [] T t hT ht 0
        r T1 hexp).1.more d
        (Nat.zero_le d)
      have hrun := resolve_anew d hopen hlook
      rw [resolveAnew_apply, hmore] at hrun
      exact ⟨d, _, hrun⟩

end Ty

namespace Table

section Questions

variable {T1 : Table}

theorem Defined.untouched (h : T.Defined) : T.Untouched := by
  induction h with
  | empty => exact ⟨.empty, by simp [Spelled], by simp, by simp, rfl, rfl⟩
  | @construct T _ c hin hfits ih =>
    obtain ⟨t, T', hrun, hT', -, -, -⟩ := Construction.run_spec ih.wellFormed hin hfits
    have hspelled := c.constructs.spelled _ ih.spelled
    have hsame := c.run_takeOver T
    rw [hrun] at hspelled hsame ⊢
    dsimp only at hspelled hsame ⊢
    rw [hsame] at hspelled hT' ⊢
    exact ⟨hT', hspelled, ih.plain, ih.distinct, ih.instances, ih.defining⟩
  | declare _ info hbound hdefault ih =>
    exact ⟨(ih.wellFormed.newTypeVar hbound hdefault).1, ih.spelled, ih.plain, ih.distinct,
      ih.instances, ih.defining⟩
  | @define T _ name target hname htarget ih =>
    have hT : (Alias.define name [] target T).2.WellFormed :=
      (ih.wellFormed.define name (by simp) htarget).1
    rw [define_snd, if_neg (by simp [ih.defining])] at hT ⊢
    by_cases htaken : (T.alias? name).isSome = true
    · rw [if_pos htaken]
      exact ih
    rw [if_neg htaken] at hT ⊢
    refine ⟨hT, ih.spelled, ?_, ?_, ih.instances, ih.defining⟩
    · intro a ha
      rcases List.mem_append.mp ha with ha | ha
      · exact ih.plain a ha
      · obtain rfl := List.mem_singleton.mp ha
        exact ⟨rfl, rfl, hname⟩
    · rw [isSome_alias?] at htaken
      rw [List.map_append, List.nodup_append]
      refine ⟨ih.distinct, by simp, ?_⟩
      rintro other hother _ hlast rfl
      have hname : other = name := List.mem_singleton.mp hlast
      exact htaken (hname ▸ hother)

/-- Nothing is known yet, so nothing is wrong. -/
theorem Untouched.coherent (h : T.Untouched) : T.Coherent := by
  have hplain := fun name a (ha : T.alias? name = some a) => h.plain a (alias?_eq_some ha).1
  have hopen : ∀ name a o, T.alias? name = some a → a.outcome ≠ some o := by
    intro name a o ha ho
    rw [(hplain name a ha).2.1] at ho
    exact absurd ho (by simp)
  refine ⟨h.wellFormed, h.spelled, fun name a ha => (hplain name a ha).1, ?_, ?_, ?_, ?_, ?_⟩
  · intro name a ha
    rw [← (alias?_eq_some ha).2]
    exact (hplain name a ha).2.2
  · exact fun name a o ha ho => absurd ho (hopen name a o ha)
  · exact fun name a chain ha ho => absurd ho (hopen name a _ ha)
  · rintro name ⟨a, o, ha, ho⟩
    exact absurd ho (hopen name a o ha)
  · simp [h.instances]

/-- A question keeps a table coherent and changes no answer. -/
theorem Coherent.consulted (h : T.Coherent) (hcall : T.Consulted T1) :
    T1.Coherent ∧ T.Develops T1 := by
  cases hcall with
  | construct c hin hfits =>
    obtain ⟨t, T', hrun, hT', h', -, -⟩ := Construction.run_spec h.wellFormed hin hfits
    have hspelled := c.constructs.spelled _ h.spelled
    have hsame := c.run_takeOver T
    rw [hrun] at hspelled hsame ⊢
    have hinstances : T'.instances = T.instances := by
      rw [show T' = T.takeOver T' from hsame]
      rfl
    exact ⟨h.of_aliases hT' hspelled (.of_le h'.le) h'.le.aliases hinstances,
      .of_aliases (.of_le h'.le) h'.le.aliases⟩
  | resolve ht hrun =>
    obtain ⟨h1, hevolves, -⟩ := Ty.resolve_coherent h ht hrun
    exact ⟨h1, hevolves.develops⟩
  | @resolveAlias name n p T1 hrun =>
    cases ha : T.alias? name with
    | none =>
      rw [Alias.resolve_unknown ha] at hrun
      obtain ⟨-, rfl⟩ := Prod.mk.inj (Option.some.inj hrun)
      exact ⟨h, .refl T⟩
    | some a =>
      obtain ⟨h1, hevolves, -⟩ := Alias.resolve_coherent h ha hrun
      exact ⟨h1, hevolves.develops⟩
  | resolveAll hrun =>
    obtain ⟨h1, hevolves, -⟩ := Alias.resolveAll_coherent h hrun
    exact ⟨h1, hevolves.develops⟩
  | freeze =>
    have hgains : T.Gains (Alias.freeze T).2 := ⟨fun _ _ he => he, fun _ _ hi => hi⟩
    exact ⟨h.of_aliases (h.wellFormed.congr rfl rfl rfl rfl) h.spelled hgains rfl rfl,
      .of_aliases hgains rfl⟩

theorem Coherent.consultations (h : T.Coherent) (hcalls : ReflTransGen Consulted T T1) :
    T1.Coherent ∧ T.Develops T1 := by
  induction hcalls with
  | refl => exact ⟨h, .refl T⟩
  | tail _ hcall ih =>
    obtain ⟨h1, hdevelops⟩ := ih
    obtain ⟨h2, hnext⟩ := h1.consulted hcall
    exact ⟨h2, hdevelops.trans hnext⟩

end Questions

end Table

/-- What a definition of an alias says. -/
structure Definition where
  name : String
  params : List TypeVar := []
  target : Ty

/-- The alias that is defined, before it is asked for. -/
def Definition.alias (d : Definition) : Alias :=
    { name := d.name, params := d.params, target := d.target }

namespace Table

/-- The table after some definitions, in this order. -/
def defining (T : Table) (ds : List Definition) : Table :=
  ds.foldl (fun T d => (Alias.define d.name d.params d.target T).2) T

section Definitions

variable {ds ds' : List Definition} {name : String}

instance (t : Ty) : Decidable (T.Has t) := inferInstanceAs (Decidable (_ ≤ _))

theorem Defined.defining (hT : T.Defined) (ds : List Definition) (hds : ∀ d ∈ ds,
    d.params = [] ∧ '<' ∉ d.name.toList ∧ T.Has d.target) : (T.defining ds).Defined := by
  induction ds generalizing T with
  | nil => exact hT
  | cons d ds ih =>
    obtain ⟨hparams, hname, htarget⟩ := hds d (by simp)
    rw [Table.defining, List.foldl_cons, hparams]
    refine ih (hT.define hname htarget) fun d' hd' => ?_
    obtain ⟨hparams', hname', htarget'⟩ := hds d' (List.mem_cons_of_mem _ hd')
    refine ⟨hparams', hname', ?_⟩
    rw [define_snd]
    split
    · exact htarget'
    · split
      · exact htarget'
      · exact htarget'

/-- Definitions with new, distinct names are all added. -/
theorem defining_eq (hopen : T.frozen = false)
    (hnames : (T.aliases.map Alias.name ++ ds.map Definition.name).Nodup) :
    T.defining ds = { T with aliases := T.aliases ++ ds.map Definition.alias } := by
  induction ds generalizing T with
  | nil => simp [defining]
  | cons d ds ih =>
    have hnew : ¬(T.alias? d.name).isSome = true := by
      rw [isSome_alias?]
      intro hmem
      exact (List.nodup_append.mp hnames).2.2 _ hmem d.name (by simp) rfl
    have hdefine : (Alias.define d.name d.params d.target T).2 =
        { T with aliases := T.aliases ++ [d.alias] } := by
      rw [define_snd, if_neg (by simp [hopen]), if_neg hnew]
      rfl
    rw [defining, List.foldl_cons, hdefine]
    refine (ih (T := { T with aliases := T.aliases ++ [d.alias] }) hopen ?_).trans ?_
    · simpa [Definition.alias] using hnames
    · simp

theorem alias?_eq_some_iff (hnames : (T.aliases.map Alias.name).Nodup) :
    T.alias? name = some a ↔ a ∈ T.aliases ∧ a.name = name := by
  refine ⟨alias?_eq_some, ?_⟩
  rintro ⟨hmem, rfl⟩
  have hsome := (isSome_alias? T a.name).mpr (List.mem_map_of_mem hmem)
  obtain ⟨b, hb⟩ := Option.isSome_iff_exists.mp hsome
  obtain ⟨hmem', hname⟩ := alias?_eq_some hb
  rwa [List.inj_on_of_nodup_map hnames hmem' hmem hname] at hb

/-- In another order the same aliases are defined. -/
theorem develops_of_perm (hopen : T.frozen = false) (hnone : T.aliases = [])
    (hnames : (ds.map Definition.name).Nodup) (hperm : ds.Perm ds') :
    (T.defining ds).Develops (T.defining ds') := by
  have hnames' : (ds'.map Definition.name).Nodup := (hperm.map _).nodup_iff.mp hnames
  rw [defining_eq hopen (by simpa [hnone] using hnames),
    defining_eq hopen (by simpa [hnone] using hnames'), hnone]
  refine ⟨⟨fun _ _ h => h, fun _ _ h => h⟩, fun name => ?_⟩
  have hsame : ∀ a, ({ T with aliases := [] ++ ds'.map Definition.alias } : Table).alias? name =
      some a ↔ ({ T with aliases := [] ++ ds.map Definition.alias } : Table).alias? name =
      some a := by
    intro a
    rw [alias?_eq_some_iff (by simpa [Function.comp_def, Definition.alias] using hnames'),
      alias?_eq_some_iff (by simpa [Function.comp_def, Definition.alias] using hnames)]
    simp only [List.nil_append, (hperm.map Definition.alias).mem_iff]
  rw [Option.ext hsame]
  cases ({ T with aliases := [] ++ ds.map Definition.alias } : Table).alias? name with
  | none => exact .none
  | some a => exact .some (.refl a)

end Definitions

end Table

/-- How an alias is asked for. -/
inductive Asking where
  | byName
  /-- By a reference to it, which is made and then resolved. -/
  | byReference
  deriving DecidableEq, Repr

/-- The type that an alias stands for, asked for in this way. -/
def Asking.run (name : String) : Asking → Typing Ty
  | byName => do return (← Alias.resolve name).1
  | byReference => do (← Ty.referenceTo name []).resolve

/-- Every way of asking has an answer, and it is the one of plain expansion. -/
theorem Asking.run_coherent {name : String} (way : Asking) (hT : T.Coherent)
    (ha : T.alias? name = some a) : ∃ n r T1, (∀ m, n ≤ m → way.run name m T = some (r, T1)) ∧
      T1.Coherent ∧ T.Develops T1 ∧ T1.Yields a.target r := by
  cases way with
  | byName =>
    obtain ⟨n, ⟨p, T1⟩, hrun⟩ := Alias.resolve_ends hT.wellFormed name
    obtain ⟨h1, hevolves, hyields, -⟩ := Alias.resolve_coherent hT ha (hrun n (Nat.le_refl n))
    refine ⟨n, p.1, T1, fun m hm => ?_, h1, hevolves.develops, hyields⟩
    rw [run, bind_of_some (hrun m hm)]
    rfl
  | byReference =>
    obtain ⟨t, T1, hat, ht, halike⟩ := Interning.gives_referenceTo hT.wellFormed name
      (show ∀ t ∈ [], T.Has t by simp)
    have h1 : T1.Coherent := hT.settlesAt hat (Interning.constructs_intern _)
    have hs : T1.shape t = .reference name [] := Shape.eq_reference_of_alike halike
    have ha1 : T1.alias? name = some a := (Table.alias?_of_le hat.adds.le name).trans ha
    obtain ⟨n, ⟨r, T2⟩, hrun⟩ := Ty.resolve_building_ends h1.wellFormed ht
    obtain ⟨h2, hevolves, hyields⟩ := Ty.resolve_coherent h1 ht (hrun n (Nat.le_refl n))
    obtain ⟨b, hb, hab⟩ := hevolves.develops.alias ha1
    refine ⟨n, r, T2, fun m hm => ?_, h2, ?_, ?_⟩
    · have hlift : (Ty.referenceTo name [] : Typing Ty) m T = some (t, T1) :=
        congrArg some hat.result
      rw [run, bind_of_some hlift]
      exact hrun m hm
    · exact Table.Develops.trans (.of_aliases (.of_le hat.adds.le) hat.adds.le.aliases)
        hevolves.develops
    · rw [← hab.target]
      refine (Table.yields_reference_iff ((hevolves.shape ht).trans hs) hb).mp (hyields ?_)
      simp [Ty.hasOpenHead, hs]

/-- **An alias resolves to its plain expansion**, whatever was asked before and however it is asked
for. It is the error type exactly if the alias leads to a cycle, to an alias that is not defined or
to the error type; otherwise it is what plain expansion gives, then and later, and every later
answer is the same type. -/
theorem Alias.resolve_plainly {T T1 : Table} (hT : T.Defined)
    (hcalls : ReflTransGen Table.Consulted T T1) {name : String} {a : Alias}
    (ha : T.alias? name = some a) (way : Asking) :
    ∃ n r T2, (∀ m, n ≤ m → way.run name m T1 = some (r, T2)) ∧ (r = .invalid ↔ T.Fails name) ∧
      ∀ T3, ReflTransGen Table.Consulted T2 T3 →
        (¬T.Fails name → ∃ d, ∀ d' m, d ≤ d' → d ≤ m →
          Ty.plainAt d' a.target m T3 = some (r, T3)) ∧
        ∀ other : Asking, ∃ k T4, ∀ m, k ≤ m → other.run name m T3 = some (r, T4) := by
  have hcoherent := hT.untouched.coherent
  have hwell := hcoherent.wellFormed
  have htarget := hwell.has_target ha
  obtain ⟨h1, hdevelops1⟩ := hcoherent.consultations hcalls
  obtain ⟨b, hb, hab⟩ := hdevelops1.alias ha
  obtain ⟨n, r, T2, hrun, h2, hdevelops2, hyields⟩ := way.run_coherent h1 hb
  rw [hab.target] at hyields
  have hdevelops := hdevelops1.trans hdevelops2
  refine ⟨n, r, T2, hrun, ?_, fun T3 hlater => ?_⟩
  · rw [hyields.eq_invalid_iff, hdevelops.fine_iff hwell htarget, Table.fails_iff hwell ha]
  obtain ⟨h3, hdevelops3⟩ := h2.consultations hlater
  have hall := hdevelops.trans hdevelops3
  have hyields3 := hyields.of_develops h2.wellFormed hdevelops3 (hdevelops.gains.has htarget)
  refine ⟨fun hnot => ?_, fun other => ?_⟩
  · have hfine : T3.Fine a.target := by
      rw [hall.fine_iff hwell htarget]
      exact Table.fine_of_not_fails hwell ha hnot
    obtain ⟨-, -, d, hd⟩ := hyields3.resolve_right fun h => h.1 hfine
    exact ⟨d, fun d' m hd' hm => hd d' m T3 hd' hm (.refl T3)⟩
  · obtain ⟨c, hc, hac⟩ := hall.alias ha
    obtain ⟨k, r', T4, hrun', h4, hdevelops4, hyields4⟩ := other.run_coherent h3 hc
    rw [hac.target] at hyields4
    have hsame := (hyields3.of_develops h3.wellFormed hdevelops4
      (hall.gains.has htarget)).unique hyields4
    exact ⟨k, T4, fun m hm => hsame ▸ hrun' m hm⟩

/-- A table with an alias for another one, which stands for numbers. -/
def Table.renaming : Table :=
  (Ty.referenceTo "Index" [] {}).2.defining [⟨"Key", [], .made 0⟩, ⟨"Index", [], .number⟩]

theorem Table.facts_renaming :
    (∀ d ∈ [⟨"Key", [], .made 0⟩, ⟨"Index", [], .number⟩], Definition.params d = [] ∧
      '<' ∉ d.name.toList ∧ (Ty.referenceTo "Index" [] {}).2.Has d.target) ∧
    (renaming.alias? "Key").map Alias.target = some (.made 0) ∧
    (renaming.alias? "Index").map Alias.target = some .number ∧
    renaming.shape (.made 0) = .reference "Index" [] := by
  with_unfolding_all decide

theorem Table.defined_renaming : renaming.Defined := by
  refine Defined.defining (.construct .empty (.reference "Index" []) ?_ trivial) _ facts_renaming.1
  simp [Construction.inputs]

/-- In a frozen table, the reference to an alias for another one resolves to the plain expansion. -/
theorem Alias.resolve_plainly_renaming :
    ∃ n r T1 d, Asking.byReference.run "Key" n (freeze Table.renaming).2 = some (r, T1) ∧
      r ≠ .invalid ∧ Ty.plainAt d (.made 0) d T1 = some (r, T1) := by
  obtain ⟨-, htarget, htarget', hs⟩ := Table.facts_renaming
  obtain ⟨a, ha, hkey⟩ := Option.map_eq_some_iff.mp htarget
  obtain ⟨b, hb, hindex⟩ := Option.map_eq_some_iff.mp htarget'
  have hwell := Table.defined_renaming.untouched.wellFormed
  have hnumber : Table.renaming.Fine .number := by
    have hyields := Table.yields_self (Table.renaming.has_prim .number) (by simp [Table.shape])
      (by simp [Table.shape]) (by simp [Table.shape])
    exact (hyields.resolve_right fun h => absurd h.2 (by decide)).1
  have hfine : ¬Table.renaming.Fails "Key" := by
    rw [Table.fails_iff hwell ha, not_not, hkey, Table.fine_reference_iff hs hb, hindex]
    exact hnumber
  obtain ⟨n, r, T1, hrun, hinvalid, hlater⟩ := Alias.resolve_plainly Table.defined_renaming
    (.single .freeze) ha .byReference
  obtain ⟨d, hd⟩ := (hlater T1 .refl).1 hfine
  exact ⟨n, r, T1, d, hrun n (Nat.le_refl n), mt hinvalid.mp hfine,
    hkey ▸ hd d d (Nat.le_refl d) (Nat.le_refl d)⟩

/-- Not every alias for an undefined one is the error type: a readonly type needs no definition. And
an alias whose name is that of another one with an argument is mistaken for the reference to that
one. -/
theorem Alias.resolve_not_plainly :
    (¬∀ (T : Table) (name other : String) (a : Alias) (arguments : List Ty), T.Defined →
      T.alias? name = some a → T.shape a.target = .reference other arguments →
        T.alias? other = none → ∀ n p T1, resolve name n T = some (p, T1) → p.1 = .invalid) ∧
    let T := (Ty.referenceTo "B" [.number] {}).2.defining
      [⟨"B<number>", [], .made 0⟩, ⟨"B", [], .string⟩]
    (resolve "B<number>" 10 T).map (·.1.1) = some .invalid ∧
      (Ty.plainAt 10 (.made 0) 10 T).map Prod.fst = some .string := by
  refine ⟨fun hall => ?_, by with_unfolding_all decide⟩
  let T : Table := (Ty.referenceTo readonlyName [.number] {}).2.defining [⟨"A", [], .made 0⟩]
  have hT : T.Defined := by
    refine Table.Defined.defining (.construct .empty
      (.reference readonlyName [.number]) ?_ trivial) _ ?_
    · simp [Construction.inputs, Table.has_prim]
    · with_unfolding_all decide
  have htarget : (T.alias? "A").map Alias.target = some (.made 0) := by with_unfolding_all decide
  obtain ⟨a, ha, hmade⟩ := Option.map_eq_some_iff.mp htarget
  have hnumber : (resolve "A" 10 T).map (·.1.1) = some .number := by with_unfolding_all decide
  obtain ⟨⟨p, T1⟩, hrun, hp⟩ := Option.map_eq_some_iff.mp hnumber
  have hshape : T.shape a.target = .reference readonlyName [.number] := by
    rw [hmade]
    with_unfolding_all decide
  have hundefined : T.alias? readonlyName = none := by
    rw [← Option.not_isSome_iff_eq_none]
    with_unfolding_all decide
  have hinvalid := hall T "A" readonlyName a [.number] hT ha hshape hundefined 10 p T1 hrun
  exact absurd (hp.symm.trans hinvalid) (by decide)

namespace Alias

variable {T1 : Table}

/-- Resolving all aliases reports some on cycles, one at least on every cycle, each of them once. -/
theorem resolveAll_told (hT : T.Defined) :
    ∃ n errors T1, (∀ m, n ≤ m → resolveAll m T = some (errors, T1)) ∧ T1.Coherent ∧ T.Develops T1 ∧
      (errors.map AliasError.name).Nodup ∧
      (∀ e ∈ errors, ∃ chain, e = .cyclic e.name chain ∧ TransGen T.Refers e.name e.name) ∧
      ∀ name, TransGen T.Refers name name →
        T1.Done name ∧
          ∃ e ∈ errors, ReflTransGen T.Refers name e.name ∧ ReflTransGen T.Refers e.name name := by
  have hcoherent := hT.untouched.coherent
  obtain ⟨n, ⟨errors, T1⟩, hrun⟩ := resolveAll_ends hcoherent.wellFormed
  obtain ⟨h1, hevolves, hdone, hsub, hmem⟩ := resolveAll_coherent hcoherent (hrun n (Nat.le_refl n))
  have hrefers := hevolves.develops.refers_eq hcoherent.wellFormed
  refine ⟨n, errors, T1, hrun, h1, hevolves.develops, hsub.nodup hT.untouched.distinct, ?_, ?_⟩
  · intro e he
    obtain ⟨name, b, chain, hb, ho, rfl⟩ := (hmem e).mp he
    exact ⟨chain, rfl, hrefers ▸ h1.marked name b chain hb ho⟩
  · intro name hcycle
    obtain ⟨c, ⟨x, -, -, hx, -⟩, -⟩ := TransGen.head'_iff.mp hcycle
    have hname := hdone name (by simp [hx])
    obtain ⟨b, y, chain, hy, ho, hto, hfrom⟩ := h1.told name hname (hrefers ▸ hcycle)
    rw [hrefers] at hto hfrom
    exact ⟨hname, .cyclic b chain, (hmem _).mpr ⟨b, y, chain, hy, ho, rfl⟩, hto, hfrom⟩

/-- **What is reported.** Resolving all aliases reports each alias once at most, and only if it lies
on a cycle. Every alias on a cycle is the error type from then on, and one that lies on a cycle with
it is reported. -/
theorem resolveAll_reports (hT : T.Defined) :
    ∃ n errors T1, (∀ m, n ≤ m → resolveAll m T = some (errors, T1)) ∧
      (errors.map AliasError.name).Nodup ∧
      (∀ e ∈ errors, ∃ chain, e = .cyclic e.name chain ∧ TransGen T.Refers e.name e.name) ∧
      ∀ name, TransGen T.Refers name name →
        (∃ a o, T1.alias? name = some a ∧ a.outcome = some o ∧
          Expansion.outcomeType o = .invalid) ∧
        ∃ e ∈ errors, ReflTransGen T.Refers name e.name ∧ ReflTransGen T.Refers e.name name := by
  have hwell := hT.untouched.wellFormed
  obtain ⟨n, errors, T1, hrun, h1, hdevelops, hnodup, hcyclic, htold⟩ := resolveAll_told hT
  refine ⟨n, errors, T1, hrun, hnodup, hcyclic, fun name hcycle => ?_⟩
  obtain ⟨⟨a, o, ha, ho⟩, hreported⟩ := htold name hcycle
  refine ⟨⟨a, o, ha, ho, ?_⟩, hreported⟩
  rw [(h1.outcomes name a o ha ho).eq_invalid_iff]
  exact Table.not_fine_of_cycle h1.wellFormed ha (hdevelops.refers_eq hwell ▸ hcycle)

end Alias

namespace Table

/-- A table with references to `A`, `B` and `C`. -/
def mentioning : Table := (Ty.referenceTo "C" []
    (Ty.referenceTo "B" [] (Ty.referenceTo "A" [] {}).2).2).2

/-- The same table with a union of the last two. -/
def referring : Table :=
  { mentioning with
    entries := mentioning.entries.push ⟨.union [.made 1, .made 2], "U:65,66", "B | C"⟩ }

/-- Two cycles that have two aliases in common: `A`, `B` and `A`, `C`, `B`. -/
def overlapping : List Definition :=
  [⟨"A", [], .made 3⟩, ⟨"B", [], .made 0⟩, ⟨"C", [], .made 1⟩]

/-- The cycles can be followed in the table, but only two of the three aliases are reported. -/
theorem facts_overlapping :
    (∀ d ∈ overlapping, d.params = [] ∧ '<' ∉ d.name.toList ∧ referring.Has d.target) ∧
    referring.aliases.length = 0 ∧
    (∀ p ∈ [("A", .made 3), ("B", .made 0), ("C", .made 1)],
      ((referring.defining overlapping).alias? p.1).map Alias.target = some p.2) ∧
    (∀ p ∈ [(.made 0, "A"), (.made 1, "B"), (.made 2, "C")],
      (referring.defining overlapping).shape p.1 = .reference p.2 []) ∧
    (referring.defining overlapping).exposed (.made 3) = [.made 1, .made 2] ∧
    (Alias.resolveAll 20 (referring.defining overlapping)).map (·.1.map AliasError.name) =
      some ["A", "B"] := by
  decide +kernel

theorem defined_referring : referring.Defined := by
  have hmentioning : mentioning.Defined := by
    refine .construct (.construct (.construct .empty (.reference "A" []) ?_ trivial)
      (.reference "B" []) ?_ trivial) (.reference "C" []) ?_ trivial
    · simp [Construction.inputs]
    · simp [Construction.inputs]
    · simp [Construction.inputs]
  have hkey : (Shape.union [.made 1, .made 2]).key = "U:65,66" :=
    Shape.key_union_ordered (by decide)
  obtain ⟨hnew, htext, hmembers, hordered, hhas⟩ :
      mentioning.find? "U:65,66" = none ∧
      mentioning.shapeText (.union [.made 1, .made 2]) = "B | C" ∧
      Ty.unionMembers mentioning [.made 1, .made 2] = [.made 1, .made 2] ∧
      [Ty.made 1, .made 2].Pairwise (fun a b => mentioning.inOrder a b = true) ∧
      ∀ t ∈ (Construction.union [.made 1, .made 2]).inputs, mentioning.Has t := by
    with_unfolding_all decide
  have hunion : (Ty.unionOf [.made 1, .made 2] mentioning).2 = referring := by
    rw [Interning.unionOf_new hmembers (by decide) hordered hkey hnew, htext]
    rfl
  rw [← hunion]
  exact hmentioning.construct (.union [.made 1, .made 2]) hhas trivial

theorem defined_overlapping : (referring.defining overlapping).Defined :=
  defined_referring.defining overlapping facts_overlapping.1

theorem cycle_overlapping : TransGen (referring.defining overlapping).Refers "C" "C" := by
  obtain ⟨-, -, htargets, hshapes, hexposed, -⟩ := facts_overlapping
  have hrefers : ∀ {a b : String} {t r : Ty} {c : Ty},
      ((referring.defining overlapping).alias? a).map Alias.target = some t →
      r = t ∨ r ∈ (referring.defining overlapping).exposed t →
      (referring.defining overlapping).shape r = .reference b [] →
      ((referring.defining overlapping).alias? b).map Alias.target = some c →
      (referring.defining overlapping).Refers a b := by
    intro a b t r c ha hr hs hb
    obtain ⟨x, hx, rfl⟩ := Option.map_eq_some_iff.mp ha
    obtain ⟨y, hy, -⟩ := Option.map_eq_some_iff.mp hb
    refine ⟨x, r, [], hx, ?_, hs, by simp [hy]⟩
    rcases hr with rfl | hr
    · exact .self _
    · exact .inner hr (.self r)
  have hA := htargets ("A", .made 3) (by simp)
  have hB := htargets ("B", .made 0) (by simp)
  have hC := htargets ("C", .made 1) (by simp)
  have hCB := hrefers hC (.inl rfl) (hshapes (.made 1, "B") (by simp)) hB
  have hBA := hrefers hB (.inl rfl) (hshapes (.made 0, "A") (by simp)) hA
  have hAC := hrefers hA (.inr (by simp [hexposed])) (hshapes (.made 2, "C") (by simp)) hC
  exact .head hCB (.head hBA (.single hAC))

end Table

namespace Alias

/-- Of two overlapping cycles, an alias on the second is the error type, and one on a cycle with it
is reported. -/
theorem resolveAll_reports_overlapping :
    ∃ n errors T1, resolveAll n (Table.referring.defining Table.overlapping) = some (errors, T1) ∧
      ∃ e ∈ errors, ReflTransGen (Table.referring.defining Table.overlapping).Refers "C"
      e.name := by
  obtain ⟨n, errors, T1, hrun, -, -, hall⟩ := resolveAll_reports Table.defined_overlapping
  obtain ⟨-, e, he, hto, -⟩ := hall "C" Table.cycle_overlapping
  exact ⟨n, errors, T1, hrun n (Nat.le_refl n), e, he, hto⟩

/-- Not every alias on a cycle is reported: one on the second of two overlapping cycles is done
before the second is found. -/
theorem resolveAll_misses :
    ¬∀ T : Table, T.Defined → ∀ n errors T1, resolveAll n T = some (errors, T1) →
      ∀ name, TransGen T.Refers name name → ∃ e ∈ errors, e.name = name := by
  intro hall
  obtain ⟨-, -, -, -, -, hnames⟩ := Table.facts_overlapping
  obtain ⟨⟨errors, T1⟩, hrun, hnames⟩ := Option.map_eq_some_iff.mp hnames
  obtain ⟨e, he, hname⟩ := hall _ Table.defined_overlapping 20 errors T1 hrun "C"
    Table.cycle_overlapping
  have hmem : "C" ∈ errors.map AliasError.name := List.mem_map.mpr ⟨e, he, hname⟩
  rw [hnames] at hmem
  exact absurd hmem (by decide)

variable {T1 : Table}

/-- **Whatever the order.** Aliases without parameters that are defined in another order resolve to
the error type or not as before, and for each that is reported one on a cycle with it is reported
then. -/
theorem resolveAll_permuted (hT : T.Defined) (hnone : T.aliases = []) {ds ds' : List Definition}
    (hperm : ds.Perm ds') (hnames : (ds.map Definition.name).Nodup)
    (hds : ∀ d ∈ ds, d.params = [] ∧ '<' ∉ d.name.toList ∧ T.Has d.target) :
    ∃ n errors errors' T1 T2,
      (∀ m, n ≤ m → resolveAll m (T.defining ds) = some (errors, T1)) ∧
      (∀ m, n ≤ m → resolveAll m (T.defining ds') = some (errors', T2)) ∧
      (∀ d ∈ ds, ∃ k p q, (∀ m, k ≤ m → resolve d.name m T1 = some p) ∧
        (∀ m, k ≤ m → resolve d.name m T2 = some q) ∧ (p.1.1 = .invalid ↔ q.1.1 = .invalid)) ∧
      ∀ e ∈ errors, ∃ e' ∈ errors', ReflTransGen (T.defining ds).Refers e.name e'.name ∧
        ReflTransGen (T.defining ds).Refers e'.name e.name := by
  have hopen := hT.untouched.defining
  have hD := hT.defining ds hds
  have hD' := hT.defining ds' fun d hd => hds d (hperm.mem_iff.mpr hd)
  have hwell := hD.untouched.wellFormed
  have hdevelops := Table.develops_of_perm hopen hnone hnames hperm
  obtain ⟨n, errors, T1, hrun, h1, hdevelops1, -, hcyclic, -⟩ := resolveAll_told hD
  obtain ⟨n', errors', T2, hrun', h2, hdevelops2, -, -, htold'⟩ := resolveAll_told hD'
  refine ⟨max n n', errors, errors', T1, T2, fun m hm => hrun m (by omega),
    fun m hm => hrun' m (by omega), fun d hd => ?_, fun e he => ?_⟩
  · have hall := hdevelops.trans hdevelops2
    have hsome : ((T.defining ds).alias? d.name).isSome = true := by
      rw [Table.isSome_alias?, Table.defining_eq hopen (by simpa [hnone] using hnames), hnone]
      simpa [Definition.alias] using ⟨d, hd, rfl⟩
    obtain ⟨a, ha⟩ := Option.isSome_iff_exists.mp hsome
    have htarget := hwell.has_target ha
    obtain ⟨b, hb, hab⟩ := hdevelops1.alias ha
    obtain ⟨c, hc, hac⟩ := hall.alias ha
    obtain ⟨k, ⟨p, T3⟩, hp⟩ := resolve_ends h1.wellFormed d.name
    obtain ⟨k', ⟨q, T4⟩, hq⟩ := resolve_ends h2.wellFormed d.name
    obtain ⟨-, hevolves, hyields, -⟩ := resolve_coherent h1 hb (hp k (Nat.le_refl k))
    obtain ⟨-, hevolves', hyields', -⟩ := resolve_coherent h2 hc (hq k' (Nat.le_refl k'))
    refine ⟨max k k', (p, T3), (q, T4), fun m hm => hp m (by omega),
      fun m hm => hq m (by omega), ?_⟩
    rw [hyields.eq_invalid_iff, hyields'.eq_invalid_iff, hab.target, hac.target,
      (hdevelops1.trans hevolves.develops).fine_iff hwell htarget,
      (hall.trans hevolves'.develops).fine_iff hwell htarget]
  · obtain ⟨-, -, hcycle⟩ := hcyclic e he
    rw [← hdevelops.refers_eq hwell] at hcycle ⊢
    exact (htold' e.name hcycle).2

/-- Two overlapping cycles, their aliases defined in both orders. -/
theorem resolveAll_permuted_overlapping :
    ∃ n errors errors' T1 T2,
      resolveAll n (Table.referring.defining Table.overlapping) = some (errors, T1) ∧
      resolveAll n (Table.referring.defining Table.overlapping.reverse) = some (errors', T2) := by
  obtain ⟨n, errors, errors', T1, T2, hrun, hrun', -⟩ := resolveAll_permuted Table.defined_referring
    (List.length_eq_zero_iff.mp Table.facts_overlapping.2.1)
    (List.reverse_perm Table.overlapping).symm
    (by decide) Table.facts_overlapping.1
  exact ⟨n, errors, errors', T1, T2, hrun n (Nat.le_refl n), hrun' n (Nat.le_refl n)⟩

/-- What is reported about some aliases, and what `B` then resolves to. -/
def reportAndType (T : Table) (ds : List Definition) : Option (List String × Ty) :=
  ((do
    let errors ← resolveAll
    let p ← resolve "B"
    return (errors.map AliasError.name, p.1) : Typing (List String × Ty)) 20
      (T.defining ds)).map Prod.fst

/-- With parameters the order matters. The alias `A` for `G<A>` is cyclic. If it is defined before
`G`, which stands for its argument, then `G` is marked as well, and `G<number>` becomes the error
type. -/
theorem resolveAll_ordered :
    let T := (Ty.newTypeVar { name := "T" } {}).2
    let T := (Ty.referenceTo "A" [] (Ty.parameterOf ⟨0⟩ T).2).2
    let T := (Ty.referenceTo "G" [.number] (Ty.referenceTo "G" [.made 1] T).2).2
    let G : Definition := ⟨"G", [⟨0⟩], .made 0⟩
    let A : Definition := ⟨"A", [], .made 2⟩
    let B : Definition := ⟨"B", [], .made 3⟩
    reportAndType T [G, A, B] = some (["A"], .number) ∧
      reportAndType T [A, G, B] = some (["A", "G"], .invalid) := by
  decide +kernel

end Alias

end ShapeCheck
