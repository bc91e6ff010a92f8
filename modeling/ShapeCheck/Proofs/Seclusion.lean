import ShapeCheck.Proofs.Avoidance
import ShapeCheck.Proofs.Recalling
import ShapeCheck.Ty.Widening

/-!
# Tables that keep some type parameters secluded

What a type resolves to depends on the aliases of the table, on what it remembers and on the bounds
of type parameters. If these avoid some type parameters, then a type that avoids them resolves to
one that does. Types that do refer to the parameters may be resolved and compared all the same: what
is remembered of them is never asked for by a type that avoids the parameters.

* `Table.Secluded` is the condition on a table.
* `Regime.resolves_secluded` says that resolving types that avoid the parameters does not lead to
  others, `Ty.runs_resolve_secluded` that resolving any type keeps the condition.
-/

namespace ShapeCheck

open Interning

variable {name : String} {v : TypeVar} {subs : Substitution}

namespace Table

/-- The table leads from no type that avoids the parameters to one that does not. -/
structure Secluded (T : Table) (vars : List TypeVar) : Prop where
  wellFormed : T.WellFormed
  targets : ∀ a ∈ T.aliases, T.Avoids vars a.target
  defaults : ∀ a ∈ T.aliases, ∀ v ∈ a.params, ∀ d ∈ (T.typeVar v).default, T.Avoids vars d
  outcomes : ∀ a ∈ T.aliases, ∀ t, a.outcome = some (.resolved t) → T.Avoids vars t
  instances : ∀ t r, T.instances.lookup t = some r → T.Has t ∧ (T.Avoids vars t → T.Avoids vars r)
  /-- Every other parameter has a bound that avoids these. -/
  bounds : ∀ v, v ∉ vars → ∀ b ∈ (T.typeVar v).bound, T.Avoids vars b

section Changes

variable {T T1 : Table} {vars : List TypeVar} {t r : Ty}

/-- A type of a table avoids in it what it avoids later. -/
theorem Avoids.of_later (h : T1.Avoids vars t) (hT : T.WellFormed) (ht : T.Has t)
    (hshape : ∀ u, T.Has u → T1.shape u = T.shape u) : T.Avoids vars t := by
  induction h with
  | @intro t _ free enrolls parts ih =>
    have hs := hshape t ht
    rw [hs] at free ih
    refine .intro ht free (fun e he m hm => ?_) fun p hp => ih p hp (hT.has_part ht hp)
    obtain ⟨name, v, hmember⟩ := enrolls e (hs.trans he) m hm
    exact ⟨name, v, (hshape m (Assign.has_enumMembers hT he m hm)).symm.trans hmember⟩

/-- Nothing that matters has changed. -/
theorem Secluded.of_same (h : T.Secluded vars) (hT1 : T1.WellFormed)
    (hhas : ∀ u, T.Has u → T1.Has u)
    (hshape : ∀ u, T.Has u → T1.shape u = T.shape u) (hvars : T1.typeVars = T.typeVars)
    (haliases : T1.aliases = T.aliases) (hinstances : T1.instances = T.instances) :
    T1.Secluded vars := by
  have hkeep : ∀ {u}, T.Avoids vars u → T1.Avoids vars u := fun hu => hu.of_shapes hhas hshape
  have hinfo : ∀ v, T1.typeVar v = T.typeVar v := fun v => by rw [typeVar, typeVar, hvars]
  refine ⟨hT1, ?_, ?_, ?_, ?_, ?_⟩
  · rw [haliases]
    exact fun a ha => hkeep (h.targets a ha)
  · rw [haliases]
    intro a ha v hv d hd
    rw [hinfo] at hd
    exact hkeep (h.defaults a ha v hv d hd)
  · rw [haliases]
    exact fun a ha t ht => hkeep (h.outcomes a ha t ht)
  · rw [hinstances]
    intro t r hr
    obtain ⟨ht, himp⟩ := h.instances t r hr
    exact ⟨hhas t ht, fun havoids => hkeep (himp (havoids.of_later h.wellFormed ht hshape))⟩
  · intro v hv b hb
    rw [hinfo] at hb
    exact hkeep (h.bounds v hv b hb)

theorem Secluded.of_adds (h : T.Secluded vars) (hT1 : T1.WellFormed) (hadds : T.Adds T1)
    (hinstances : T1.instances = T.instances) : T1.Secluded vars :=
  h.of_same hT1 (fun _ hu => has_of_le hadds.le hu)
    (fun _ hu => shape_of_le hadds.le hu) hadds.typeVars
    hadds.le.aliases hinstances

theorem Secluded.decided (h : T.Secluded vars) {o : AliasOutcome}
    (ho : ∀ t, o = .resolved t → T.Avoids vars t) : (T.decided name o).Secluded vars := by
  have hkeep : ∀ {u}, T.Avoids vars u → (T.decided name o).Avoids vars u :=
    fun hu => hu.of_shapes (fun _ hv => hv) fun _ _ => rfl
  refine ⟨h.wellFormed.decided fun t ht => (ho t ht).has, ?_, ?_, ?_, ?_, ?_⟩
  · intro a ha
    obtain ⟨b, hb, rfl⟩ := List.mem_map.mp ha
    split <;> exact hkeep (h.targets b hb)
  · intro a ha v hv d hd
    obtain ⟨b, hb, rfl⟩ := List.mem_map.mp ha
    have hv' : v ∈ b.params := by
      split at hv <;> exact hv
    exact hkeep (h.defaults b hb v hv' d hd)
  · intro a ha t ht
    obtain ⟨b, hb, rfl⟩ := List.mem_map.mp ha
    split at ht
    · exact hkeep (ho t (Option.some.inj ht))
    · exact hkeep (h.outcomes b hb t ht)
  · intro t r hr
    obtain ⟨ht, himp⟩ := h.instances t r hr
    exact ⟨ht, fun havoids => hkeep (himp (havoids.of_later h.wellFormed ht fun _ _ => rfl))⟩
  · exact fun v hv b hb => hkeep (h.bounds v hv b hb)

theorem Secluded.remembered (h : T.Secluded vars) (ht : T.Has t) (hr : T.Has r)
    (himp : T.Avoids vars t → T.Avoids vars r) : (Expansion.remembered T t r).Secluded vars := by
  have hkeep : ∀ {u}, T.Avoids vars u → (Expansion.remembered T t r).Avoids vars u :=
    fun hu => hu.of_shapes (fun _ hv => hv) fun _ _ => rfl
  have hback : ∀ {u}, T.Has u → (Expansion.remembered T t r).Avoids vars u → T.Avoids vars u :=
    fun hu havoids => havoids.of_later h.wellFormed hu fun _ _ => rfl
  refine ⟨Expansion.wellFormed_remembered h.wellFormed hr t, fun a ha => hkeep (h.targets a ha),
    fun a ha v hv d hd => hkeep (h.defaults a ha v hv d hd),
    fun a ha t ht => hkeep (h.outcomes a ha t ht), ?_, fun v hv b hb => hkeep (h.bounds v hv b hb)⟩
  intro u s hs
  by_cases heq : u = t
  · subst heq
    rw [Expansion.lookup_remembered_self] at hs
    obtain rfl := Option.some.inj hs
    exact ⟨ht, fun havoids => hkeep (himp (hback ht havoids))⟩
  · rw [Expansion.lookup_remembered_other T r heq] at hs
    obtain ⟨hu, himp'⟩ := h.instances u s hs
    exact ⟨hu, fun havoids => hkeep (himp' (hback hu havoids))⟩

theorem Secluded.keeping (h : T.Secluded vars) (s t : Ty) (b : Bool) :
    (T.keeping s t b).Secluded vars := by
  unfold Table.keeping
  split
  · exact h.of_same (h.wellFormed.congr rfl rfl rfl rfl) (fun _ hu => hu)
      (fun _ _ => rfl) rfl rfl rfl
  · exact h

end Changes

/-- What types that avoid the parameters are put together to does so, too. -/
theorem gathers_avoiding (vars : List TypeVar) : (Family.avoiding vars).Gathers where
  member {T t m} hT ht hm := by
    have ht : T.Avoids vars t := ht
    unfold combined at hm
    split at hm
    next hs =>
      exact ht.parts m (by rw [hs]; exact hm)
    next hs =>
      exact ht.parts m (by rw [hs]; exact hm)
    · exact absurd hm (by simp)
  union hT hts := settles_unionOf_avoiding hT hts
  intersection hT hts := settles_intersectionOf_avoiding hT hts
  object {T t m} hT ht hs := by
    have ht : T.Avoids vars t := ht
    refine settles_objectOf_avoiding hT fun p hp => ht.parts p ?_
    rw [hs]
    simpa only [Shape.parts, Ty.map_type_freezeFields] using hp
  array {T t element readonly} hT ht hs := by
    have ht : T.Avoids vars t := ht
    exact settles_arrayOf_avoiding hT
      (ht.parts element (by rw [hs]; simp [Shape.parts])) true
  tuple {T t u} hT ht hs := by
    have ht : T.Avoids vars t := ht
    exact settles_tupleOf_avoiding hT fun p hp => ht.parts p (by rw [hs]; exact hp)

theorem expands_avoiding (vars : List TypeVar) : (Family.avoiding vars).Expands (.avoiding vars) :=
  ⟨gathers_avoiding vars, fun _ ht _ hp => Avoids.parts ht _ hp, fun ht _ => ht⟩

end Table

open Table

namespace Expansion

variable {T : Table} {vars : List TypeVar}

theorem settles_defaultFor_avoiding (hT : T.WellFormed) (hv : T.Knows v)
    (hdefault : ∀ d ∈ (T.typeVar v).default, T.Avoids vars d)
    (hsubs : ∀ b ∈ subs, T.Avoids vars b.2) :
    Interning.Settles T (defaultFor v subs) (fun T1 t => T1.Avoids vars t) := by
  refine settles_get_bind (fun T2 h2 => ?_) ?_
  · rw [typeVar_of_le h2 hv]
  cases hd : (T.typeVar v).default with
  | none => exact settles_pure hT (avoids_prim T vars _)
  | some d =>
    exact settles_substitute_of_avoids hT hsubs (hdefault d hd)

/-- The types for the parameters of an alias avoid what the arguments and the defaults avoid. -/
theorem settles_bindArguments_avoiding (params : List TypeVar) (hT : T.WellFormed)
    (hparams : ∀ v ∈ params, T.Knows v)
    (hdefaults : ∀ v ∈ params, ∀ d ∈ (T.typeVar v).default, T.Avoids vars d) {arguments : List Ty}
    (hargs : ∀ t ∈ arguments, T.Avoids vars t) (hsubs : ∀ b ∈ subs, T.Avoids vars b.2) :
    Interning.Settles T (bindArguments params arguments subs)
      (fun T1 subs => ∀ b ∈ subs, T1.Avoids vars b.2) := by
  have happend : ∀ {T1 : Table} {subs : Substitution} {v : TypeVar} {t : Ty},
      (∀ b ∈ subs, T1.Avoids vars b.2) → T1.Avoids vars t →
        ∀ b ∈ subs ++ [(v, t)], T1.Avoids vars b.2 := by
    intro T1 subs v t hsubs ht b hb
    rcases List.mem_append.mp hb with hb | hb
    · exact hsubs b hb
    · rw [List.mem_singleton.mp hb]
      exact ht
  induction params generalizing T arguments subs with
  | nil => exact settles_pure hT hsubs
  | cons v params ih =>
    have hrest : ∀ w ∈ params, T.Knows w := fun w hw => hparams w (List.mem_cons_of_mem _ hw)
    have hrestDefaults := fun w (hw : w ∈ params) => hdefaults w (List.mem_cons_of_mem _ hw)
    cases arguments with
    | cons a rest =>
      exact ih hT hrest hrestDefaults (fun t ht => hargs t (List.mem_cons_of_mem _ ht))
        (happend hsubs (hargs a (by simp)))
    | nil =>
      refine (settles_defaultFor_avoiding hT (hparams v (by simp))
        (hdefaults v (by simp)) hsubs).bind
        fun d T1 hT1 h1 hd => ?_
      refine ih hT1 (fun w hw => knows_of_le h1.le (hrest w hw)) (fun w hw b hb => ?_) (by simp)
        (happend (fun b hb => (hsubs b hb).of_le h1.le) hd)
      rw [typeVar_of_le h1.le (hrest w hw)] at hb
      exact (hrestDefaults w hw b hb).of_le h1.le

end Expansion

/-- The regime in which some type parameters are kept secluded. -/
def Regime.secluded (vars : List TypeVar) : Regime where
  ok T := T.Secluded vars
  grows := Table.Evolves
  later _ _ := False
  ends := False
  refl := .refl
  trans := .trans
  wellFormed h := h.wellFormed
  settles hT hT1 h hinstances := ⟨hT.of_adds hT1 h hinstances, .of_adds h⟩
  has h ht := h.has ht
  shape h ht := h.shape ht
  later_trans _ h := h
  later_reach h _ := h.elim
  later_le h := Table.le_of_false h

/-- **Resolution stays among the types that avoid the parameters.** -/
theorem Regime.resolves_secluded (vars : List TypeVar) :
    (Regime.secluded vars).Resolves (.avoiding vars) (.avoiding vars) where
  expands := expands_avoiding vars
  grows := Iff.rfl
  fixed := id
  invalid T := avoids_prim T vars _
  target hT ha := hT.targets _ (alias?_eq_some ha).1
  instantiated {T name a arguments} hT ha hargs := by
    have hmem := (alias?_eq_some ha).1
    obtain ⟨-, hparams, -⟩ := hT.wellFormed.aliases a hmem
    refine (Expansion.settles_bindArguments_avoiding a.params hT.wellFormed hparams
      (hT.defaults a hmem) hargs (by simp)).imp fun subs T1 hT1 h1 hsubs => ?_
    exact settles_substitute_of_avoids hT1 hsubs ((hT.targets a hmem).of_le h1.le)
  outcome hT ha ho := hT.outcomes _ (alias?_eq_some ha).1 _ ho
  recalled hT ht hr := (hT.instances _ _ hr).2 ht
  decided hT _ ho := hT.decided ho
  remembered hT ht hr := hT.remembered ht.1 (Avoids.has hr) fun _ => hr

namespace Expansion

open Typing

variable {T : Table} {vars : List TypeVar}

/-- An expansion keeps the parameters secluded, whatever type it starts from. -/
theorem runs_expandAt_secluded {d d' : Nat} (hd : d ≤ d') (chain : Chain) (hT : T.Secluded vars)
    {t : Ty} (ht : T.Has t) :
    Runs (.secluded vars) T (expandAt d chain t) (expandAt d' chain t) Table.Has := by
  have hK := Regime.resolves_secluded vars
  induction d generalizing d' chain T t with
  | zero => exact runs_outOfSteps
  | succ d ih =>
    obtain ⟨d', rfl⟩ : ∃ k, d' = k + 1 := ⟨d' - 1, by omega⟩
    have hd : d ≤ d' := by omega
    refine runs_expandStep Family.expands_all hd hT ht
      (fun T1 u hT1 _ hu => ih hd chain hT1 hu) ?_ ?_
    · intro a ha _
      exact (runs_resolveAlias_building hK hT ha
        fun _ u hu => expandBuilds_expandAt hK hd _ T u hT hu).imp fun _ _ _ _ h => Avoids.has h.1
    · intro name arguments hs _
      by_cases havoids : T.Avoids vars t
      · exact (runs_instantiate_building hK hT havoids hs
          fun _ _ T1 u hT1 _ hu => expandBuilds_expandAt hK hd _ T1 u hT1 hu).imp
          fun _ _ _ _ h => Avoids.has h
      · -- what a type that refers to the parameters stands for is remembered of that type only
        have hargs : ∀ u ∈ arguments, T.Has u :=
          fun u hu => hT.wellFormed.has_part ht (by rw [hs]; exact hu)
        refine runs_instantiate_of hK hT (G := .all) (V := .all) (fun T1 => T1.has_prim _)
          (fun r hr => hT.wellFormed.instances t r hr)
          (fun a ha => Regime.resolves_building.instantiated hT.wellFormed ha hargs)
          (fun _ _ T1 u hT1 _ hu => ih hd _ hT1 hu) ?_
        intro T1 r hT1 h1 hr
        have h1 : T.Evolves T1 := h1
        have hT1 : T1.Secluded vars := hT1
        refine hT1.remembered (h1.has ht) hr fun havoids1 => absurd ?_ havoids
        exact havoids1.of_later hT.wellFormed ht fun _ hu => h1.shape hu

end Expansion

namespace Ty

open Typing

variable {T : Table} {vars : List TypeVar} {t : Ty}

/-- **Resolving keeps the parameters secluded**, and a type that avoids them resolves to one that
does. -/
theorem runs_resolve_secluded (hT : T.Secluded vars) (ht : T.Has t) :
    Runs (.secluded vars) T t.resolve t.resolve
      (fun T1 r => T1.Has r ∧ (T.Avoids vars t → T1.Avoids vars r)) := by
  have hK := Regime.resolves_secluded vars
  by_cases havoids : T.Avoids vars t
  · refine (hK.resolve hT havoids).imp fun r T1 _ _ hr => ?_
    have hr : T1.Avoids vars r := by
      split at hr
      · exact hr
      · obtain ⟨rfl, rfl⟩ := hr
        exact havoids
    exact ⟨hr.has, fun _ => hr⟩
  · have hresolve := hK.resolve_of (V := .all) hT (fun r hr => hT.wellFormed.instances t r hr)
      (fun d d' hd => Expansion.runs_expandAt_secluded hd [] hT ht) fun T1 r hT1 h1 hr => by
        have h1 : T.Evolves T1 := h1
        have hT1 : T1.Secluded vars := hT1
        refine hT1.remembered (h1.has ht) hr fun havoids1 => absurd ?_ havoids
        exact havoids1.of_later hT.wellFormed ht fun _ hu => h1.shape hu
    refine hresolve.imp fun r T1 _ _ hr => ⟨?_, fun h => absurd h havoids⟩
    split at hr
    · exact hr
    · obtain ⟨rfl, rfl⟩ := hr
      exact ht

theorem runs_resolve_avoiding (hT : T.Secluded vars) (ht : T.Avoids vars t) :
    Runs (.secluded vars) T t.resolve t.resolve (fun T1 r => T1.Avoids vars r) :=
  (runs_resolve_secluded hT ht.has).imp fun _ _ _ _ h => h.2 ht

theorem settles_tupleLength_avoiding (vars : List TypeVar) (hT : T.WellFormed) (u : Tuple) :
    Interning.Settles T (tupleLength u) (fun T1 t => T1.Avoids vars t) := by
  unfold tupleLength
  split
  · exact settles_pure hT (avoids_prim T vars _)
  · exact settles_literalOf_avoiding hT _

/-- What an object says of a property is one of its parts. -/
theorem mem_parts_of_memberProperty? {m : Members} {f : Field}
    (hf : memberProperty? m name = some f) : f.type ∈ (Shape.object m).parts := by
  have hparts := Shape.forall_parts_object.mp fun p (hp : p ∈ (Shape.object m).parts) => hp
  unfold memberProperty? at hf
  split at hf
  next g hg =>
    obtain rfl := Option.some.inj hf
    exact hparts.1 g (List.mem_of_find?_eq_some hg)
  next i hnone hi =>
    split at hf
    · obtain rfl := Option.some.inj hf
      exact hparts.2.1 i hi
    · exact absurd hf (by simp)
  · exact absurd hf (by simp)

/-- A bound is read of parameters that are not secluded only. -/
theorem avoids_bound (hT : T.Secluded vars) (ht : T.Avoids vars t)
    (hs : T.shape t = .parameter v) {b : Ty} (hb : (T.typeVar v).bound = some b) :
    T.Avoids vars b :=
  hT.bounds v (ht.free v (by rw [hs]; exact List.mem_singleton.mpr rfl)) b hb

end Ty

end ShapeCheck
