import ShapeCheck.Proofs.Resolution

/-!
# Resolving the aliases

While aliases are still being resolved, what an alias stands for is settled as the expansions end or
run into a cycle. The table then does not only grow, but the types and the definitions stay, and an
outcome that was reached is never changed.

* `Table.Evolves` is how a table changes meanwhile, and `Regime.building` the regime.
* `Alias.resolveAll_sound` says that every alias is resolved in the end.
-/

namespace ShapeCheck

variable {a b : Alias} {T T1 : Table} {t ref : Ty} {name : String} {G V F H : Table.Family}
  {arguments : List Ty} {K : Regime} {n : Nat} {errors : List AliasError}

/-- The definition is the same, and so is its outcome if it had one. -/
structure Alias.Proceeds (a b : Alias) : Prop where
  name : b.name = a.name
  params : b.params = a.params
  target : b.target = a.target
  outcome : ∀ o, a.outcome = some o → b.outcome = some o

theorem Alias.Proceeds.refl (a : Alias) : a.Proceeds a := ⟨rfl, rfl, rfl, fun _ h => h⟩

theorem Alias.Proceeds.trans {c : Alias} (h : a.Proceeds b) (h' : b.Proceeds c) : a.Proceeds c :=
  ⟨h'.name.trans h.name, h'.params.trans h.params, h'.target.trans h.target,
    fun o ho => h'.outcome o (h.outcome o ho)⟩

namespace Table

/-- How a table changes while its aliases are being resolved. -/
structure Evolves (T T1 : Table) : Prop where
  entries : ∀ (n : Nat) (e : Entry), T.entries[n]? = some e → T1.entries[n]? = some e
  typeVars : T1.typeVars = T.typeVars
  frozen : T1.frozen = T.frozen
  verdicts : T1.verdicts = T.verdicts
  aliases : ∀ name, Option.Rel Alias.Proceeds (T.alias? name) (T1.alias? name)
  orderly : T.Orderly → T1.Orderly

theorem Evolves.of_aliases
    (hentries : ∀ (n : Nat) (e : Entry), T.entries[n]? = some e → T1.entries[n]? = some e)
    (htypeVars : T1.typeVars = T.typeVars) (hfrozen : T1.frozen = T.frozen)
    (hverdicts : T1.verdicts = T.verdicts) (haliases : T1.aliases = T.aliases)
    (horderly : T.Orderly → T1.Orderly) : T.Evolves T1 := by
  refine ⟨hentries, htypeVars, hfrozen, hverdicts, fun name => ?_, horderly⟩
  rw [alias?, alias?, haliases]
  cases T.aliases.find? (·.name = name) with
  | none => exact .none
  | some a => exact .some (.refl a)

theorem Evolves.refl (T : Table) : T.Evolves T :=
  .of_aliases (fun _ _ h => h) rfl rfl rfl rfl id

theorem Evolves.trans {T2 : Table} (h : T.Evolves T1) (h' : T1.Evolves T2) : T.Evolves T2 where
  entries n e he := h'.entries n e (h.entries n e he)
  typeVars := h'.typeVars.trans h.typeVars
  frozen := h'.frozen.trans h.frozen
  verdicts := h'.verdicts.trans h.verdicts
  orderly hT := h'.orderly (h.orderly hT)
  aliases name := by
    have h1 := h.aliases name
    have h2 := h'.aliases name
    generalize T.alias? name = a at h1
    generalize T1.alias? name = b at h1 h2
    generalize T2.alias? name = c at h2
    cases h1 with
    | none =>
      cases h2
      exact .none
    | some h1 =>
      cases h2 with
      | some h2 => exact .some (h1.trans h2)

theorem Evolves.of_adds (h : T.Adds T1) : T.Evolves T1 :=
  .of_aliases h.le.entries h.typeVars h.le.frozen h.verdicts h.le.aliases h.orderly

theorem Evolves.has (h : T.Evolves T1) (ht : T.Has t) : T1.Has t :=
  Nat.le_trans ht (getElem?_size_le h.entries)

theorem Evolves.shape (h : T.Evolves T1) (ht : T.Has t) : T1.shape t = T.shape t := by
  cases t with
  | prim p => rfl
  | truth b => rfl
  | made n =>
    obtain ⟨e, he⟩ := has_iff_entry.mp ht
    rw [shape_made he, shape_made (h.entries n e he)]

theorem Evolves.text (h : T.Evolves T1) (ht : T.Has t) : T1.text t = T.text t := by
  cases t with
  | prim p => rfl
  | truth b => rfl
  | made n =>
    obtain ⟨e, he⟩ := has_iff_entry.mp ht
    simp [Table.text, he, h.entries n e he]

/-- The alias of that name has an outcome. -/
def Done (T : Table) (name : String) : Prop := ∃ a o, T.alias? name = some a ∧ a.outcome = some o

theorem Done.of_evolves (hdone : T.Done name) (h : T.Evolves T1) : T1.Done name := by
  obtain ⟨a, o, ha, ho⟩ := hdone
  have hrel := h.aliases name
  rw [ha] at hrel
  cases hb : T1.alias? name with
  | none =>
    rw [hb] at hrel
    cases hrel
  | some b =>
    rw [hb] at hrel
    cases hrel with
    | some hab => exact ⟨b, o, hb, hab.outcome o ho⟩

section Outcomes

variable {o : AliasOutcome}

/-- The table in which an alias has an outcome. -/
def decided (T : Table) (name : String) (o : AliasOutcome) : Table :=
  T.updateAlias name fun a => { a with outcome := some o }

theorem alias?_decided (other : String) :
    (T.decided name o).alias? other =
      (T.alias? other).map fun a => if a.name = name then { a with outcome := some o } else a := by
  unfold alias? decided updateAlias
  rw [List.find?_map]
  congr 2
  funext a
  simp only [Function.comp]
  split
  · rfl
  · rfl

theorem evolves_decided (hnone : ∀ a, T.alias? name = some a → a.outcome = none) :
    T.Evolves (T.decided name o) := by
  refine ⟨fun _ _ h => h, rfl, rfl, rfl, fun other => ?_, fun h => h.of_entries rfl⟩
  rw [alias?_decided]
  cases ha : T.alias? other with
  | none => exact .none
  | some a =>
    refine .some ?_
    dsimp only
    by_cases hname : a.name = name
    · rw [if_pos hname]
      refine ⟨rfl, rfl, rfl, fun o' ho' => ?_⟩
      have hother := (alias?_eq_some ha).2
      rw [← hother, hname] at ha
      rw [hnone a ha] at ho'
      exact absurd ho' (by simp)
    · rw [if_neg hname]
      exact .refl a

theorem WellFormed.decided (hT : T.WellFormed) (ho : ∀ t, o = .resolved t → T.Has t) :
    (T.decided name o).WellFormed where
  entry n e he :=
    have h := hT.entry n e he
    ⟨h.parts, h.members, h.vars, fun ms hms => (h.union ms hms).of_entries rfl, h.values, h.key,
      h.isEntry⟩
  unique := hT.unique
  typeVars := hT.typeVars
  instances := hT.instances
  aliases a ha := by
    obtain ⟨b, hb, rfl⟩ := List.mem_map.mp ha
    obtain ⟨htarget, hparams, hout⟩ := hT.aliases b hb
    split
    · exact ⟨htarget, hparams, fun t ht => ho t (Option.some.inj ht)⟩
    · exact ⟨htarget, hparams, hout⟩

end Outcomes

end Table

theorem Table.le_of_false (h : False) : T ≤ T1 := h.elim

/-- The regime in which the aliases are being resolved. -/
def Regime.building : Regime where
  ok := Table.WellFormed
  grows := Table.Evolves
  later _ _ := False
  ends := False
  refl := .refl
  trans := .trans
  wellFormed h := h
  settles _ hT1 h _ := ⟨hT1, .of_adds h⟩
  has h ht := h.has ht
  shape h ht := h.shape ht
  later_trans _ h := h
  later_reach h _ := h.elim
  later_le h := Table.le_of_false h

/-- What an expansion of types of a family remembers: these, and references without arguments. -/
def Table.Family.Kept (F : Table.Family) (T : Table) (t : Ty) : Prop :=
  T.Has t ∧ (F.Mem T t ∨ ∃ name, T.shape t = .reference name [])

/-- Aliases can be resolved in the regime. They stand for types of the second family, which come
from expanding types of the first. -/
structure Regime.Resolves (K : Regime) (F H : Table.Family) : Prop where
  expands : F.Expands H
  grows : ∀ {T T1}, K.grows T T1 ↔ T.Evolves T1
  fixed : ∀ {T T1}, ¬K.later T T1
  invalid : ∀ T, H.Mem T .invalid
  target : ∀ {T name a}, K.ok T → T.alias? name = some a → F.Mem T a.target
  instantiated : ∀ {T name a arguments}, K.ok T → T.alias? name = some a →
    (∀ t ∈ arguments, F.Mem T t) →
    Interning.Settles T (Expansion.bindArguments a.params arguments [])
      fun T1 subs => Interning.Settles T1 (a.target.substitute subs) F.Mem
  outcome : ∀ {T name a t}, K.ok T → T.alias? name = some a → a.outcome = some (.resolved t) →
    H.Mem T t
  recalled : ∀ {T t r}, K.ok T → F.Mem T t → T.instances.lookup t = some r → H.Mem T r
  decided : ∀ {T name o}, K.ok T → (∀ a, T.alias? name = some a → a.outcome = none) →
    (∀ t, o = .resolved t → H.Mem T t) → K.ok (T.decided name o)
  remembered : ∀ {T t r}, K.ok T → F.Kept T t → H.Mem T r → K.ok (Expansion.remembered T t r)

theorem Regime.resolves_building : Regime.building.Resolves .all .all where
  expands := Table.Family.expands_all
  grows := Iff.rfl
  fixed := id
  invalid T := T.has_prim _
  target hT ha := (hT.aliases _ (Table.alias?_eq_some ha).1).1
  instantiated hT ha hargs := by
    obtain ⟨htarget, hparams, -⟩ := hT.aliases _ (Table.alias?_eq_some ha).1
    refine (Expansion.settles_bindArguments _ hT hparams hargs
      (by simp [Table.HasSubstitution])).imp
      fun subs T1 hT1 h1 hsubs => ?_
    exact Interning.settles_substitute hT1 hsubs (Table.has_of_le h1.le htarget)
  outcome hT ha ho := (hT.aliases _ (Table.alias?_eq_some ha).1).2.2 _ ho
  recalled hT _ hr := hT.instances _ _ hr
  decided hT _ ho := hT.decided ho
  remembered hT _ hr := Expansion.wellFormed_remembered hT hr _

namespace Expansion

open Typing

theorem evolves_remembered (T : Table) (t r : Ty) : T.Evolves (remembered T t r) :=
  .of_aliases (fun _ _ h => h) rfl rfl rfl rfl fun h => h.of_entries rfl

section Resolving

variable (hK : K.Resolves F H) {chain : Chain}

include hK

theorem mem_of_grows (h : K.grows T T1) (ht : G.Mem T t) : G.Mem T1 t :=
  G.keep (fun _ hu => (hK.grows.mp h).has hu) (fun _ hu => (hK.grows.mp h).shape hu) ht

/-- Work on a table of the regime that always succeeds. -/
theorem runs_evolving {α : Type} (work : Interning α) {V : Table → α → Prop}
    (h : K.ok (work T).2 ∧ T.Evolves (work T).2 ∧ V (work T).2 (work T).1) :
    Runs K T (liftM work) (liftM work) V := by
  intro n a T1 hx
  change some (work T) = some (a, T1) at hx
  rw [Option.some.inj hx] at h
  exact ⟨⟨h.1, hK.grows.mpr h.2.1, fun _ _ => hx, fun _ _ _ h => absurd h hK.fixed⟩, h.2.2⟩

/-- The reference to an alias is remembered to stand for a type. -/
theorem rememberReference_spec (hT : K.ok T) (name : String) {r : Ty} (hr : H.Mem T r) :
    let T1 := ((do remember (← Ty.referenceTo name []) r : Interning Unit) T).2
    K.ok T1 ∧ T.Evolves T1 := by
  obtain ⟨t, T1, hat, ht, halike⟩ := Interning.gives_referenceTo (K.wellFormed hT) name
    (show ∀ t ∈ [], T.Has t by simp)
  rw [Interning.bind_apply, hat.result]
  have hshape : T1.shape t = .reference name [] := by
    cases hs : T1.shape t with
    | reference other arguments =>
      rw [hs] at halike
      obtain ⟨rfl, hnil⟩ := halike
      rw [List.forall₂_nil_right_iff.mp hnil]
    | _ =>
      rw [hs] at halike
      exact halike.elim
  refine ⟨hK.remembered ?_ ⟨ht, .inr ⟨name, hshape⟩⟩ (H.of_le hat.adds.le hr),
    (Table.Evolves.of_adds hat.adds).trans (evolves_remembered T1 t r)⟩
  exact (K.settles hT hat.wellFormed hat.adds hat.instances).1

theorem poison_spec (hT : K.ok T) (names : List String) (name : String) (i : Nat) :
    K.ok (poison names name i T).2 ∧ T.Evolves (poison names name i T).2 := by
  rw [poison, Interning.bind_apply]
  change K.ok ((if (T.alias? name).any (·.outcome.isNone) =
    true then _ else _ : Interning Unit) T).2
    ∧ T.Evolves ((if (T.alias? name).any (·.outcome.isNone) =
      true then _ else _ : Interning Unit) T).2
  by_cases hopen : (T.alias? name).any (·.outcome.isNone) = true
  · rw [if_pos hopen]
    have hnone : ∀ a, T.alias? name = some a → a.outcome = none := by
      intro a ha
      simpa [ha] using hopen
    have hT' : K.ok (T.decided name (.cyclic (rotation names i))) := hK.decided hT hnone (by simp)
    obtain ⟨hT1, h1⟩ := rememberReference_spec hK hT' name (hK.invalid _)
    exact ⟨hT1, (Table.evolves_decided hnone).trans h1⟩
  · rw [if_neg hopen]
    exact ⟨hT, .refl T⟩

theorem markCycle_spec (hT : K.ok T) (chain : Chain) (key : String) :
    K.ok (markCycle chain key T).2 ∧ T.Evolves (markCycle chain key T).2 := by
  unfold markCycle
  generalize cycleNames chain key = names
  have hforM : ∀ (ps : List (String × Nat)) {T : Table}, K.ok T →
      K.ok ((ps.forM fun p => poison names p.1 p.2 : Interning Unit) T).2 ∧
        T.Evolves ((ps.forM fun p => poison names p.1 p.2 : Interning Unit) T).2 := by
    intro ps
    induction ps with
    | nil =>
      intro T hT
      exact ⟨hT, .refl T⟩
    | cons p ps ih =>
      intro T hT
      obtain ⟨hT1, h1⟩ := poison_spec hK hT names p.1 p.2
      obtain ⟨hT2, h2⟩ := ih hT1
      exact ⟨hT2, h1.trans h2⟩
  exact hforM names.zipIdx hT

omit hK in
/-- The expansion of types one level below keeps to the regime. -/
def ExpandBuilds (K : Regime) (F H : Table.Family)
    (expand expand' : Chain → Ty → Typing Ty) : Prop :=
  ∀ (chain : Chain) (T : Table) (t : Ty), K.ok T → F.Mem T t →
    Runs K T (expand chain t) (expand' chain t) H.Mem

section Steps

variable {expand expand' : Chain → Ty → Typing Ty}

theorem mem_outcomeType (hT : K.ok T) (ha : T.alias? name = some a)
    {o : AliasOutcome} (ho : a.outcome = some o) : H.Mem T (outcomeType o) := by
  cases o with
  | resolved t => exact hK.outcome hT ha ho
  | cyclic names => exact hK.invalid T

/-- The result of an expansion becomes the outcome of the alias. -/
theorem runs_decide (hT : K.ok T) (hb : T.alias? a.name = some b)
    (hnone : b.outcome = none) {result : Ty} (hr : H.Mem T result) :
    Runs K T
      (do
        modify (·.updateAlias a.name fun b => { b with outcome := some (.resolved result) })
        if a.params.isEmpty then remember (← Ty.referenceTo a.name []) result
        return result)
      (do
        modify (·.updateAlias a.name fun b => { b with outcome := some (.resolved result) })
        if a.params.isEmpty then remember (← Ty.referenceTo a.name []) result
        return result)
      (fun T1 t => H.Mem T1 t ∧ T1.Done a.name) := by
  let T' := T.decided a.name (.resolved result)
  have hopen : ∀ c, T.alias? a.name = some c → c.outcome = none := by
    intro c hc
    rw [hb] at hc
    exact Option.some.inj hc ▸ hnone
  have hT' : K.ok T' := hK.decided hT hopen (by
    rintro t ⟨⟩
    exact hr)
  have h' : T.Evolves T' := Table.evolves_decided hopen
  have hr' : H.Mem T' result := mem_of_grows hK (hK.grows.mpr h') hr
  have hdone : T'.Done a.name := by
    refine ⟨{ b with outcome := some (.resolved result) }, _, ?_, rfl⟩
    rw [Table.alias?_decided, hb, Option.map_some, if_pos (Table.alias?_eq_some hb).2]
  have hrest : Runs K T' (do
        if a.params.isEmpty then remember (← Ty.referenceTo a.name []) result
        return result)
      (do
        if a.params.isEmpty then remember (← Ty.referenceTo a.name []) result
        return result) (fun T1 t => H.Mem T1 t ∧ T1.Done a.name) := by
    cases a.params.isEmpty with
    | false => exact runs_pure hT' ⟨hr', hdone⟩
    | true =>
      have hwork : Runs K T'
          (liftM (do remember (← Ty.referenceTo a.name []) result : Interning Unit))
          (liftM (do remember (← Ty.referenceTo a.name []) result : Interning Unit))
          (fun T1 _ => T'.Evolves T1) := by
        obtain ⟨hT1, h1⟩ := rememberReference_spec hK hT' a.name (r := result) hr'
        exact runs_evolving hK _ ⟨hT1, h1, h1⟩
      exact hwork.bind fun _ T1 hT1 h1 _ =>
        runs_pure hT1 ⟨mem_of_grows hK h1 hr', hdone.of_evolves (hK.grows.mp h1)⟩
  intro n t T1 hrun
  obtain ⟨hat, hv⟩ := hrest n t T1 hrun
  exact ⟨⟨hat.ok, K.trans (hK.grows.mpr h') hat.grows, hat.more,
    fun _ _ _ h => absurd h hK.fixed⟩, hv⟩

theorem runs_complete (hT : K.ok T) (ha : T.alias? a.name = some a)
    (hexpand : ∀ u, F.Mem T u → Runs K T (expand (chain ++ [⟨a.name, a.name⟩]) u)
      (expand' (chain ++ [⟨a.name, a.name⟩]) u) H.Mem) :
    Runs K T (complete expand chain a) (complete expand' chain a)
      (fun T1 t => H.Mem T1 t ∧ T1.Done a.name) := by
  refine (hexpand a.target (hK.target hT ha)).bind fun result T1 hT1 h1 hr => ?_
  refine runs_get_bind (fun _ h => absurd h hK.fixed) ?_
  have hrel := (hK.grows.mp h1).aliases a.name
  rw [ha] at hrel
  cases hb : T1.alias? a.name with
  | none =>
    rw [hb] at hrel
    cases hrel
  | some b =>
    cases ho : b.outcome with
    | none =>
      simp only [Option.bind_some, ho]
      exact runs_decide hK hT1 hb ho hr
    | some o =>
      simp only [Option.bind_some, ho]
      exact runs_pure hT1 ⟨mem_outcomeType hK hT1 hb ho, b, o, hb, ho⟩

theorem runs_markCycle (hT : K.ok T) (key : String) {W : Table → Ty → Prop}
    (hW : ∀ T1, K.ok T1 → W T1 .invalid) :
    Runs K T (do markCycle chain key; return .invalid)
    (do markCycle chain key; return .invalid) W := by
  obtain ⟨hT1, h1⟩ := markCycle_spec hK hT chain key
  exact (runs_evolving hK _ (V := fun _ _ => True) ⟨hT1, h1, trivial⟩).bind fun _ T1 hT1 _ _ =>
    runs_pure hT1 (hW T1 hT1)

theorem runs_resolveAlias_building (hT : K.ok T) (ha : T.alias? a.name = some a)
    (hexpand : ¬onChain chain a.name = true → ∀ u, F.Mem T u →
      Runs K T (expand (chain ++ [⟨a.name, a.name⟩]) u) (expand' (chain ++ [⟨a.name, a.name⟩]) u)
        H.Mem) :
    Runs K T (resolveAlias expand chain a) (resolveAlias expand' chain a)
      (fun T1 t => H.Mem T1 t ∧ (chain = [] → T1.Done a.name)) := by
  unfold resolveAlias
  cases ho : a.outcome with
  | some o => exact runs_pure hT ⟨mem_outcomeType hK hT ha ho, fun _ => ⟨a, o, ha, ho⟩⟩
  | none =>
    dsimp only
    by_cases hchain : onChain chain a.name = true
    · rw [if_pos hchain, if_pos hchain]
      refine runs_markCycle hK hT a.name fun T1 _ => ⟨hK.invalid T1, ?_⟩
      rintro rfl
      exact absurd hchain (by simp [onChain])
    · rw [if_neg hchain, if_neg hchain]
      exact (runs_complete hK hT ha (hexpand hchain)).imp fun t T1 _ _ h => ⟨h.1, fun _ => h.2⟩

/-- Instantiating an alias keeps to the regime if the types that it meets on the way expand to types
of a kind, and if that is remembered of the reference. -/
theorem runs_instantiate_of (hT : K.ok T) (hinvalid : ∀ T1, V.Mem T1 .invalid)
    (hrecalled : ∀ r, T.instances.lookup ref = some r → V.Mem T r)
    (hinstantiated : ∀ a, T.alias? name = some a →
      Interning.Settles T (bindArguments a.params arguments [])
        fun T1 subs => Interning.Settles T1 (a.target.substitute subs) G.Mem)
    (hexpand : ¬onChain chain (T.text ref) = true →
      (chain.filter (·.name = name)).length < nestingLimit →
      ∀ T1 u, K.ok T1 → K.grows T T1 → G.Mem T1 u →
        Runs K T1 (expand (chain ++ [⟨T.text ref, name⟩]) u)
          (expand' (chain ++ [⟨T.text ref, name⟩]) u) V.Mem)
    (hremembered : ∀ T1 r, K.ok T1 → K.grows T T1 → V.Mem T1 r → K.ok (remembered T1 ref r)) :
    Runs K T (instantiate expand chain ref name arguments)
      (instantiate expand' chain ref name arguments) V.Mem := by
  have hcycle : ∀ key, Runs K T (do markCycle chain key; return .invalid)
      (do markCycle chain key; return .invalid) V.Mem :=
    fun key => runs_markCycle hK hT key fun T1 _ => hinvalid T1
  refine runs_get_bind (fun _ h => absurd h hK.fixed) ?_
  cases hlook : T.instances.lookup ref with
  | some t => exact runs_pure hT (hrecalled t hlook)
  | none =>
  cases halias : T.alias? name with
  | none => exact runs_pure hT (hinvalid T)
  | some a =>
  dsimp only
  split_ifs with hpoisoned hnew hroom
  · exact runs_pure hT (hinvalid T)
  · exact hcycle _
  · exact hcycle _
  refine (runs_lift hT (hinstantiated a halias)).bind fun subs T1 hT1 h1 hsubs => ?_
  refine (runs_lift hT1 hsubs).bind fun target T2 hT2 h2 htarget => ?_
  refine (hexpand hnew (Nat.lt_of_not_le hroom) T2 target hT2 (K.trans h1 h2) htarget).bind
    fun r T3 hT3 h3 hr => ?_
  have hT4 := hremembered T3 r hT3 (K.trans (K.trans h1 h2) h3) hr
  have h4 := evolves_remembered T3 ref r
  refine (runs_evolving hK (remember ref r) (V := fun T4 _ => V.Mem T4 r)
    ⟨hT4, h4, mem_of_grows hK (hK.grows.mpr h4) hr⟩).bind fun _ T4 hT4 _ hr4 => ?_
  exact runs_pure hT4 hr4

theorem runs_instantiate_building (hT : K.ok T) (hmem : F.Mem T ref)
    (href : T.shape ref = .reference name arguments)
    (hexpand : ¬onChain chain (T.text ref) = true →
      (chain.filter (·.name = name)).length < nestingLimit →
      ∀ T1 u, K.ok T1 → K.grows T T1 → F.Mem T1 u →
        Runs K T1 (expand (chain ++ [⟨T.text ref, name⟩]) u)
          (expand' (chain ++ [⟨T.text ref, name⟩]) u) H.Mem) :
    Runs K T (instantiate expand chain ref name arguments)
      (instantiate expand' chain ref name arguments) H.Mem := by
  have hargs : ∀ t ∈ arguments, F.Mem T t := by
    intro t ht
    exact hK.expands.part (K.wellFormed hT) hmem (by rw [href]; rfl) (by rw [href]; exact ht)
  refine runs_instantiate_of hK hT hK.invalid (fun r hr => hK.recalled hT hmem hr)
    (fun a ha => hK.instantiated hT ha hargs) hexpand ?_
  intro T1 r hT1 h1 hr
  have hmem1 := mem_of_grows hK h1 hmem
  exact hK.remembered hT1 ⟨F.has hmem1, .inl hmem1⟩ hr

end Steps

theorem expandBuilds_expandAt {d d' : Nat} (hd : d ≤ d') :
    ExpandBuilds K F H (expandAt d) (expandAt d') := by
  induction d generalizing d' with
  | zero =>
    intro chain T t _ _
    exact runs_outOfSteps
  | succ d ih =>
    obtain ⟨d', rfl⟩ : ∃ k, d' = k + 1 := ⟨d' - 1, by omega⟩
    have hd : d ≤ d' := by omega
    intro chain T t hT ht
    refine runs_expandStep hK.expands hd hT ht
      (fun T1 u hT1 _ hu => ih hd chain T1 u hT1 hu) ?_ ?_
    · intro a ha _
      exact (runs_resolveAlias_building hK hT ha fun _ u hu => ih hd _ T u hT hu).imp
        fun _ _ _ _ h => h.1
    · intro name arguments hs _
      exact runs_instantiate_building hK hT ht hs
        fun _ _ T1 u hT1 _ hu => ih hd _ T1 u hT1 hu

end Resolving

end Expansion

/-- Resolving a type keeps to a regime in which aliases can be resolved if its expansion gives types
of a kind, and if that is remembered of the type. -/
theorem Regime.Resolves.resolve_of (hK : K.Resolves F H)
    (hT : K.ok T) (hrecalled : ∀ r, T.instances.lookup t = some r → V.Mem T r)
    (hexpand : ∀ d d', d ≤ d' →
      Typing.Runs K T (Expansion.expandAt d [] t) (Expansion.expandAt d' [] t) V.Mem)
    (hremembered : ∀ T1 r, K.ok T1 → K.grows T T1 → V.Mem T1 r →
      K.ok (Expansion.remembered T1 t r)) :
    Typing.Runs K T t.resolve t.resolve
      (fun T1 r => if Ty.hasOpenHead T t then V.Mem T1 r else r = t ∧ T1 = T) := by
  intro n r T1 hrun
  cases hopen : Ty.hasOpenHead T t with
  | false =>
    rw [Ty.resolve_closed n hopen] at hrun
    obtain ⟨rfl, rfl⟩ := Prod.mk.inj (Option.some.inj hrun)
    exact ⟨⟨hT, K.refl T, fun m _ => Ty.resolve_closed m hopen, fun _ _ _ h => absurd h hK.fixed⟩,
      by simp⟩
  | true =>
  simp only [if_true]
  cases hlook : T.instances.lookup t with
  | some r' =>
    rw [Ty.resolve_known n hopen hlook] at hrun
    obtain ⟨rfl, rfl⟩ := Prod.mk.inj (Option.some.inj hrun)
    exact ⟨⟨hT, K.refl T, fun m _ => Ty.resolve_known m hopen hlook,
      fun _ _ _ h => absurd h hK.fixed⟩, hrecalled r' hlook⟩
  | none =>
    rw [Ty.resolve_anew n hopen hlook, Ty.resolveAnew_apply] at hrun
    obtain ⟨⟨r', T'⟩, hexp, hrest⟩ := Option.bind_eq_some_iff.mp hrun
    have hruns : ∀ m, n ≤ m → _ := fun m hm => hexpand n m hm n r' T' hexp
    obtain ⟨hat, hr⟩ := hruns n (Nat.le_refl n)
    have hmore : ∀ m, n ≤ m → t.resolve m T = some (r, T1) := by
      intro m hm
      rw [Ty.resolve_anew m hopen hlook, Ty.resolveAnew_apply, (hruns m hm).1.more m hm, ← hrest]
      rfl
    obtain ⟨rfl, hleft⟩ := Prod.mk.inj (Option.some.inj hrest)
    dsimp only at hleft hr
    have hlast := Expansion.evolves_remembered T' t r'
    subst hleft
    split
    · exact ⟨⟨hremembered T' r' hat.ok hat.grows hr, K.trans hat.grows (hK.grows.mpr hlast),
        by simpa [*] using hmore, fun _ _ _ h => absurd h hK.fixed⟩,
        Expansion.mem_of_grows hK (hK.grows.mpr hlast) hr⟩
    · exact ⟨⟨hat.ok, hat.grows, by simpa [*] using hmore, fun _ _ _ h => absurd h hK.fixed⟩, hr⟩

/-- Resolving a type keeps to a regime in which aliases can be resolved. -/
theorem Regime.Resolves.resolve (hK : K.Resolves F H) (hT : K.ok T) (ht : F.Mem T t) :
    Typing.Runs K T t.resolve t.resolve
      (fun T1 r => if Ty.hasOpenHead T t then H.Mem T1 r else r = t ∧ T1 = T) := by
  refine hK.resolve_of hT (fun r hr => hK.recalled hT ht hr)
    (fun d d' hd => Expansion.expandBuilds_expandAt hK hd [] T t hT ht) ?_
  intro T1 r hT1 h1 hr
  have hmem := Expansion.mem_of_grows hK h1 ht
  exact hK.remembered hT1 ⟨F.has hmem, .inl hmem⟩ hr

/-- Resolving a type while aliases are being resolved keeps to the regime. -/
theorem Ty.building_resolve (hT : T.WellFormed) (ht : T.Has t) :
    Typing.Runs .building T t.resolve t.resolve Table.Has := by
  refine (Regime.resolves_building.resolve hT ht).imp fun r T1 _ _ hr => ?_
  split at hr
  · exact hr
  · obtain ⟨rfl, rfl⟩ := hr
    exact ht

namespace Alias

open Expansion

section Resolving

variable (hK : K.Resolves F H)

include hK

/-- Resolving an alias settles it. -/
theorem runs_resolve (hT : K.ok T) (name : String) :
    Typing.Runs K T (resolve name) (resolve name)
      (fun T1 p => H.Mem T1 p.1 ∧ ((T.alias? name).isSome → T1.Done name)) := by
  refine Typing.runs_get_bind (fun _ h => absurd h hK.fixed) ?_
  cases ha : T.alias? name with
  | none => exact Typing.runs_pure hT ⟨hK.invalid T, by simp⟩
  | some a =>
    have hname := (Table.alias?_eq_some ha).2
    subst hname
    have hruns : Typing.Runs K T
        (Typing.bounded fun depth => resolveAlias (expandAt depth) [] a)
        (Typing.bounded fun depth => resolveAlias (expandAt depth) [] a)
        (fun T1 t => H.Mem T1 t ∧ T1.Done a.name) := by
      intro n t T1 hrun
      have hat := fun (m : Nat) (hm : n ≤ m) =>
        runs_resolveAlias_building hK hT ha
          (fun _ u hu => expandBuilds_expandAt hK hm _ T u hT hu) n t T1 hrun
      obtain ⟨hok, hv⟩ := hat n (Nat.le_refl n)
      exact ⟨⟨hok.ok, hok.grows, fun m hm => (hat m hm).1.more m hm,
        fun _ _ _ h => absurd h hK.fixed⟩, hv.1, hv.2 rfl⟩
    refine hruns.bind fun t T1 hT1 _ ht => ?_
    refine Typing.runs_get_bind (fun _ h => absurd h hK.fixed) ?_
    split
    · exact Typing.runs_pure hT1 ⟨ht.1, fun _ => ht.2⟩
    · exact Typing.runs_pure hT1 ⟨ht.1, fun _ => ht.2⟩

theorem runs_mapM_resolve (hT : K.ok T) (names : List String) :
    Typing.Runs K T (names.mapM resolve) (names.mapM resolve)
      (fun T1 _ => ∀ name ∈ names, (T.alias? name).isSome → T1.Done name) := by
  induction names generalizing T with
  | nil => exact Typing.runs_pure hT (by simp)
  | cons name names ih =>
    rw [List.mapM_cons]
    refine (runs_resolve hK hT name).bind fun p T1 hT1 h1 hp => ?_
    refine (ih hT1).bind fun ps T2 hT2 h2 hps => ?_
    refine Typing.runs_pure hT2 fun other hmem hsome => ?_
    rcases List.mem_cons.mp hmem with rfl | hmem
    · exact (hp.2 hsome).of_evolves (hK.grows.mp h2)
    · refine hps other hmem ?_
      have hrel := (hK.grows.mp h1).aliases other
      generalize T1.alias? other = b at hrel ⊢
      generalize T.alias? other = a at hrel hsome
      cases hrel with
      | none => exact hsome
      | some _ => rfl

/-- Resolving all aliases keeps to the regime. -/
theorem resolveAll_ok (hT : K.ok T)
    (h : resolveAll n T = some (errors, T1)) : K.ok T1 ∧ T.Evolves T1 ∧
      ∀ name, (T.alias? name).isSome → T1.Done name := by
  obtain ⟨table, T', hget, h⟩ := Typing.bind_some h
  obtain ⟨rfl, rfl⟩ := Prod.mk.inj (Option.some.inj hget)
  obtain ⟨ps, T2, hmap, h⟩ := Typing.bind_some h
  obtain ⟨-, rfl⟩ := Prod.mk.inj (Option.some.inj h)
  obtain ⟨hat, hdone⟩ := runs_mapM_resolve hK hT _ n ps T2 hmap
  refine ⟨hat.ok, hK.grows.mp hat.grows, fun name hsome => hdone name ?_ hsome⟩
  obtain ⟨a, ha⟩ := Option.isSome_iff_exists.mp hsome
  obtain ⟨hmem, rfl⟩ := Table.alias?_eq_some ha
  exact List.mem_map_of_mem hmem

end Resolving

/-- Resolving an alias in any well-formed table settles it. -/
theorem building_resolve (hT : T.WellFormed) (name : String) :
    Typing.Runs .building T (resolve name) (resolve name)
      (fun T1 p => T1.Has p.1 ∧ ((T.alias? name).isSome → T1.Done name)) :=
  runs_resolve Regime.resolves_building hT name

/-- **All aliases are resolved** in the table that `Alias.resolveAll` leaves. -/
theorem resolveAll_sound (hT : T.WellFormed)
    (h : resolveAll n T = some (errors, T1)) : T1.Sound ∧ T.Evolves T1 := by
  obtain ⟨hT1, h1, hdone⟩ := resolveAll_ok Regime.resolves_building hT h
  refine ⟨⟨hT1, fun name a ha => ?_⟩, h1⟩
  have hrel := h1.aliases name
  rw [ha] at hrel
  cases hb : T.alias? name with
  | none =>
    rw [hb] at hrel
    cases hrel
  | some b =>
    obtain ⟨c, o, hc, ho⟩ := hdone name (by simp [hb])
    rw [ha] at hc
    injection hc with hc
    subst hc
    simp [ho]

end Alias

end ShapeCheck
