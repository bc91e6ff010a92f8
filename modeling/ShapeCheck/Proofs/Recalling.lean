import ShapeCheck.Proofs.Heads
import ShapeCheck.Proofs.Transitivity
import ShapeCheck.Proofs.AliasResolution

/-!
# What is recalled has no reference at its head

A table remembers what references stand for and what aliases were resolved to. Both come from an
expansion, so whatever a table has been used for, nothing that it remembers has a reference at its
head. If aliases have no type parameters, an expansion does not lead out of a level of types either.

* `Regime.recalling` is the regime in which this is kept, `Regime.resolves_recalling` that aliases
  can be resolved in it.
* `Table.Recalls.operated` says that every operation keeps it.
-/

namespace ShapeCheck

variable {F H : Family} {K : Regime} {T : Table}

namespace Table

/-- What the table remembers is of the family: what references stand for, and the outcomes of
aliases. -/
structure Recalls (T : Table) (H : Family) : Prop where
  instances : ∀ t r, T.instances.lookup t = some r → H.Mem T r
  outcomes : ∀ name a t, T.alias? name = some a → a.outcome = some (.resolved t) → H.Mem T t

section Changes

variable {T1 : Table} {name : String}

/-- Where nothing is remembered anew, it is enough that the family is kept. -/
theorem Recalls.of_same (h : T.Recalls H) (hkeep : ∀ t, H.Mem T t → H.Mem T1 t)
    (hinstances : T1.instances = T.instances)
    (houtcome : ∀ name a t, T1.alias? name = some a → a.outcome = some (.resolved t) →
      ∃ b, T.alias? name = some b ∧ b.outcome = some (.resolved t)) : T1.Recalls H where
  instances t r hr := hkeep r (h.instances t r (hinstances ▸ hr))
  outcomes name a t ha ht := by
    obtain ⟨b, hb, ho⟩ := houtcome name a t ha ht
    exact hkeep t (h.outcomes name b t hb ho)

theorem Recalls.of_aliases (h : T.Recalls H) (hkeep : ∀ t, H.Mem T t → H.Mem T1 t)
    (hinstances : T1.instances = T.instances)
    (haliases : T1.aliases = T.aliases) : T1.Recalls H := by
  refine h.of_same hkeep hinstances fun name a t ha ht => ⟨a, ?_, ht⟩
  rwa [alias?, haliases] at ha

theorem Recalls.decided (h : T.Recalls H) {o : AliasOutcome}
    (ho : ∀ t, o = .resolved t → H.Mem T t) :
    (T.decided name o).Recalls H := by
  have hkeep : ∀ t, H.Mem T t → H.Mem (T.decided name o) t :=
    fun t => H.keep (fun _ hu => hu) fun _ _ => rfl
  refine ⟨fun t r hr => hkeep r (h.instances t r hr), fun other a t ha ht => hkeep t ?_⟩
  rw [alias?_decided] at ha
  obtain ⟨b, hb, rfl⟩ := Option.map_eq_some_iff.mp ha
  split at ht
  · exact ho t (Option.some.inj ht)
  · exact h.outcomes other b t hb ht

theorem Recalls.remembered (h : T.Recalls H) {r : Ty} (hr : H.Mem T r) (t : Ty) :
    (Expansion.remembered T t r).Recalls H := by
  have hkeep : ∀ u, H.Mem T u → H.Mem (Expansion.remembered T t r) u :=
    fun u => H.keep (fun _ hv => hv) fun _ _ => rfl
  refine ⟨fun u s hs => hkeep s ?_, fun name a u ha hu => hkeep u (h.outcomes name a u ha hu)⟩
  by_cases heq : u = t
  · subst heq
    rw [Expansion.lookup_remembered_self] at hs
    exact Option.some.inj hs ▸ hr
  · rw [Expansion.lookup_remembered_other T r heq] at hs
    exact h.instances u s hs

/-- What holds of the tables that a table develops into while its aliases are resolved. -/
structure Recalling (H : Family) (T0 T : Table) : Prop where
  wellFormed : T.WellFormed
  evolves : T0.Evolves T
  recalls : T.Recalls H

end Changes

end Table

open Table

/-- The regime in which aliases of a table are resolved, and types of a family are remembered. All
work ends. -/
def Regime.recalling (H : Family) (T0 : Table) : Regime where
  ok := Recalling H T0
  grows := Table.Evolves
  later _ _ := False
  ends := True
  refl := .refl
  trans := .trans
  wellFormed h := h.wellFormed
  settles hT hT1 h hinstances :=
    ⟨⟨hT1, hT.evolves.trans (.of_adds h),
      hT.recalls.of_aliases (fun _ => H.of_le h.le) hinstances h.le.aliases⟩, .of_adds h⟩
  has h ht := h.has ht
  shape h ht := h.shape ht
  later_trans _ h := h
  later_reach h _ := h.elim
  later_le h := Table.le_of_false h

/-- **Aliases can be resolved** where the targets of aliases are of a family whose types expand to
types of the second one, and the instances of aliases are, too. -/
theorem Regime.resolves_recalling {T0 : Table} (hexpands : F.Expands H)
    (hinvalid : ∀ T, H.Mem T .invalid)
    (htarget : ∀ {T name a}, Recalling H T0 T → T.alias? name = some a → F.Mem T a.target)
    (hinstantiated : ∀ {T name a arguments}, Recalling H T0 T → T.alias? name = some a →
      (∀ t ∈ arguments, F.Mem T t) →
      Interning.Settles T (Expansion.bindArguments a.params arguments [])
        fun T1 subs => Interning.Settles T1 (a.target.substitute subs) F.Mem) :
    (Regime.recalling H T0).Resolves F H where
  expands := hexpands
  grows := Iff.rfl
  fixed := id
  invalid := hinvalid
  target := htarget
  instantiated := hinstantiated
  outcome hT ha ho := hT.recalls.outcomes _ _ _ ha ho
  recalled hT _ hr := hT.recalls.instances _ _ hr
  decided hT hnone ho :=
    ⟨hT.wellFormed.decided fun t ht => H.has (ho t ht), hT.evolves.trans (evolves_decided hnone),
      hT.recalls.decided ho⟩
  remembered {T t r} hT _ hr :=
    ⟨Expansion.wellFormed_remembered hT.wellFormed (H.has hr) t,
      hT.evolves.trans (Expansion.evolves_remembered T t r), hT.recalls.remembered hr t⟩

/-- Work does not only end, its result is of a wider kind. -/
theorem Typing.Works.imp {α : Type} {x : Typing α} {V W : Table → α → Prop}
    (h : Typing.Works K T x V) (himp : ∀ T1 a, V T1 a → W T1 a) : Typing.Works K T x W :=
  ⟨h.runs.imp fun a T1 _ _ ha => himp T1 a ha, h.ends⟩

/-- Resolving a type ends, with a type of the second family if the head is open. -/
theorem Regime.Resolves.works (hK : K.Resolves F H) (hT : K.ok T) {t : Ty} (ht : F.Mem T t) :
    Typing.Works K T t.resolve fun T1 r => T1.Has r ∧ (Ty.hasOpenHead T t = true → H.Mem T1 r) := by
  refine ⟨(hK.resolve hT ht).imp fun r T1 _ _ hr => ?_,
    fun _ => Ty.resolve_building_ends (K.wellFormed hT) (F.has ht)⟩
  split at hr
  · exact ⟨H.has hr, fun _ => hr⟩
  next hopen =>
    obtain ⟨rfl, rfl⟩ := hr
    exact ⟨F.has ht, fun h => absurd h hopen⟩

namespace Table

/-- The types without a reference at their heads. -/
abbrev Family.closed : Family := Family.all.heads

/-- The aliases of any table can be resolved while only types without a reference at their heads are
remembered. -/
theorem resolves_closed (T0 : Table) : (Regime.recalling .closed T0).Resolves .all .closed :=
  Regime.resolves_recalling Family.rebuilds_all.expands
  (fun T => Family.rebuilds_all.headed_prim T _)
    (fun hT ha => (hT.wellFormed.aliases _ (alias?_eq_some ha).1).1)
    fun hT ha hargs => Regime.resolves_building.instantiated hT.wellFormed ha hargs

section Operations

variable {T1 : Table} {t : Ty}

theorem Headed.of_agrees (h : T.Headed .all t) (hagrees : T.Agrees T1) : T1.Headed .all t := by
  induction h with
  | @intro t ht href _ _ ih =>
    have ht1 := hagrees.has ht
    rcases hagrees.shape ht with hs | ⟨-, e, he⟩
    · refine .intro ht1 (by rwa [hs]) (fun _ => ht1) fun m hm => ih m ?_
      unfold Table.combined at hm ⊢
      rwa [hs] at hm
    · exact headed_of_plain ht1 (by rw [he]; rfl)

/-- A constructor remembers nothing. -/
theorem Recalls.construct (h : T.Recalls .closed) (c : Construction)
    (hagrees : T.Agrees (c.run T).2) :
    (c.run T).2.Recalls .closed := by
  refine h.of_aliases (fun _ hr => hr.of_agrees hagrees) ?_ ?_
  · rw [c.run_takeOver T]
    rfl
  · rw [c.run_takeOver T]
    rfl

/-- Keeping an answer is no resolution. -/
theorem Recalls.keeping (h : T.Recalls H) (s t : Ty) (b : Bool) : (T.keeping s t b).Recalls H := by
  refine h.of_aliases (fun _ => H.of_le (le_keeping s t b T)) ?_ ?_
  · unfold Table.keeping
    split <;> rfl
  · unfold Table.keeping
    split <;> rfl

/-- A new alias stands for nothing yet. -/
theorem Recalls.define (h : T.Recalls H) (name : String) (params : List TypeVar)
    (target : Ty) : (Alias.define name params target T).2.Recalls H := by
  rw [define_snd]
  split_ifs
  · exact h
  · exact h
  · refine h.of_same (fun _ => H.keep (fun _ hu => hu) fun _ _ => rfl) rfl fun other a t ha ht => ?_
    unfold alias? at ha
    rw [List.find?_append, Option.or_eq_some_iff] at ha
    rcases ha with hold | ⟨-, hnew⟩
    · exact ⟨a, hold, ht⟩
    · obtain rfl := List.mem_singleton.mp (List.mem_of_find?_eq_some hnew)
      exact absurd ht (by simp)

/-- **What is recalled has no reference at its head**, whatever operation comes next. -/
theorem Recalls.operated (h : T.Recalls .closed) (hT : T.Faithful) (hop : T.Operated T1) :
    T1.Recalls .closed := by
  have hok : Recalling .closed T T := ⟨hT.wellFormed, .refl T, h⟩
  have hK := resolves_closed T
  have hagrees := (hT.operated hop).2
  have hkeep := fun t (ht : Family.closed.Mem T t) => Headed.of_agrees ht hagrees
  cases hop with
  | call hcall =>
    cases hcall with
    | construct c => exact h.construct c hagrees
    | declare info => exact h.of_aliases hkeep rfl rfl
    | resolve ht hrun => exact (hK.resolve hok ht _ _ _ hrun).1.ok.recalls
    | @assignable s t b n _ hs ht hrun =>
      rcases asked_cases hrun with ⟨rfl, -⟩ | ⟨T', hdecide, hkept⟩
      · exact h
      · obtain ⟨hat, -⟩ := Assign.runs_decideAt (K := .recalling .closed T)
          (fun T u hT hu => (hK.works hT hu).imp fun _ _ hr => hr.1) (Nat.le_refl n) [] hok hs ht
          n b T' hdecide
        rw [hkept hat.grows.frozen.symm]
        exact hat.ok.recalls.keeping s t b
  | rebind hbind =>
    cases hbind with
    | bound | default => exact h.of_aliases hkeep rfl rfl
  | define name => exact h.define name _ _
  | resolveAlias hrun => exact (Alias.runs_resolve hK hok _ _ _ _ hrun).1.ok.recalls
  | resolveAll hrun => exact (Alias.resolveAll_ok hK hok hrun).1.recalls
  | enumeration name isConst => exact h.construct (.enumeration name isConst _) hagrees
  | freeze => exact h.of_aliases hkeep rfl rfl

/-- **What any table recalls has no reference at its head.** -/
theorem recalls_of_operations (hops : Relation.ReflTransGen Operated {} T) : T.Recalls .closed := by
  induction hops with
  | refl => exact ⟨by simp, by simp [alias?]⟩
  | tail hops hop ih => exact ih.operated (faithful_empty.operations hops).1 hop

end Operations

section Levels

variable {T0 : Table} {t : Ty}

/-- The level on which all types of the table stand, and the types that comparing them leads to. -/
def level (T0 : Table) : Family := .within T0.vocabulary (T0.entries.size + 1)

/-- The types of the first table stand on the levels of its vocabulary, as long as they are kept. -/
theorem within_old (hT0 : T0.WellFormed) (h : T0.Evolves T) (ht : T0.Has t) (k : Nat)
    (hk : t.rank ≤ k) : T.Within T0.vocabulary k t :=
  ((within_vocabulary hT0 ht).mono hk).of_shapes (fun _ hu => h.has hu) fun _ hu => h.shape hu

theorem mem_level (hT0 : T0.WellFormed) (h : T0.Evolves T) (ht : T0.Has t) : T0.level.Mem T t :=
  within_old hT0 h ht _ (Nat.le_succ_of_le ht)

/-- **Without type parameters of aliases, no expansion leads out of the level.** -/
theorem resolves_level (hT0 : T0.WellFormed) (hplain : ∀ a ∈ T0.aliases, a.params = []) :
    (Regime.recalling T0.level.heads T0).Resolves T0.level T0.level.heads := by
  have hbefore : ∀ {T name a}, Recalling T0.level.heads T0 T → T.alias? name = some a →
      a.params = [] ∧ T0.level.Mem T a.target := by
    intro T name a hT ha
    obtain ⟨b, hb, hproceeds⟩ := hT.evolves.develops.alias_before ha
    have hmem := (alias?_eq_some hb).1
    rw [hproceeds.params, hproceeds.target]
    exact ⟨hplain b hmem, mem_level hT0 hT.evolves (hT0.aliases b hmem).1⟩
  have hrebuilds := Family.rebuilds_within T0.vocabulary T0.entries.size
  refine Regime.resolves_recalling hrebuilds.expands (fun T => hrebuilds.headed_prim T _)
    (fun hT ha => (hbefore hT ha).2) fun hT ha _ => ?_
  obtain ⟨hparams, htarget⟩ := hbefore hT ha
  rw [hparams]
  exact Interning.settles_pure hT.wellFormed (Interning.settles_pure hT.wellFormed htarget)

/-- A table recalls types of its level only. -/
theorem recalling_level (hT0 : T0.WellFormed) (h : T0.Recalls .closed) :
    Recalling T0.level.heads T0 T0 := by
  have hmono : ∀ t, T0.Headed .all t → T0.Headed T0.level t := fun t ht =>
    ht.mono fun u hu => mem_level hT0 (.refl T0) hu
  exact ⟨hT0, .refl T0, fun t r hr => hmono r (h.instances t r hr),
    fun name a t ha ht => hmono t (h.outcomes name a t ha ht)⟩

end Levels

end Table

end ShapeCheck
