import ShapeCheck.Proofs.Lasting

/-!
# Resolution lasts

Once every alias is resolved, expanding a reference only makes types and remembers what references
stand for. A reference on the chain of an expansion, and one past the nesting limit, stands for the
error type only there, and this is not remembered; but the reference that the expansion started from
is, with whatever it came to. So what `Ty.resolve` gives depends on what was resolved before, and
once given it never changes.

* `Expansion.expandAt_grows` says what an expansion does to a table, `Expansion.lasts_expandAt` that
  one with an empty chain lasts.
* `Ty.lasts_resolve` is the statement for `Ty.resolve`.
-/

namespace ShapeCheck

open Table Interning Typing

variable {K : Regime} {H : Table.Family} {d d' n : Nat} {T T' T1 T2 : Table} {t r : Ty}
  {subs : Substitution} {a : Alias} {expand expand' : Chain → Ty → Typing Ty}

/-- The members of a union or of an intersection. -/
def Table.combined (T : Table) (t : Ty) : List Ty :=
  match T.shape t with
  | .union ms | .intersection ms => ms
  | _ => []

/-- Whether an expansion looks into a type of the shape. -/
def Shape.isExpanded : Shape → Bool
  | .union _ | .intersection _ | .reference _ _ => true
  | _ => false

namespace Table.Family

/-- The family has the unions and intersections of its types, the members of these, and what a type
becomes when it is made readonly. -/
structure Gathers (H : Family) : Prop where
  member : ∀ {T t m}, T.WellFormed → H.Mem T t → m ∈ T.combined t → H.Mem T m
  union : ∀ {T ts}, T.WellFormed → (∀ t ∈ ts, H.Mem T t) →
    Interning.Settles T (Ty.unionOf ts) H.Mem
  intersection : ∀ {T ts}, T.WellFormed → (∀ t ∈ ts, H.Mem T t) →
    Interning.Settles T (Ty.intersectionOf ts) H.Mem
  object : ∀ {T t m}, T.WellFormed → H.Mem T t → T.shape t = .object m →
    Interning.Settles T (Ty.objectOf { m with fields := Ty.freezeFields m.fields }) H.Mem
  array : ∀ {T t element readonly}, T.WellFormed → H.Mem T t → T.shape t = .array element readonly →
    Interning.Settles T (Ty.arrayOf element true) H.Mem
  tuple : ∀ {T t u}, T.WellFormed → H.Mem T t → T.shape t = .tuple u →
    Interning.Settles T (Ty.tupleOf { u with readonly := true }) H.Mem

/-- Types of the first family expand to types of the second, unless an alias gets in between. -/
structure Expands (F H : Family) : Prop where
  gathers : H.Gathers
  part : ∀ {T t p}, T.WellFormed → F.Mem T t → (T.shape t).isExpanded = true →
    p ∈ (T.shape t).parts → F.Mem T p
  whole : ∀ {T t}, F.Mem T t → (T.shape t).isExpanded = false → H.Mem T t

end Table.Family

namespace Ty

theorem map_type_freezeFields (fields : List Field) :
    (freezeFields fields).map Field.type = fields.map Field.type := by
  simp [freezeFields, Function.comp_def]

end Ty

theorem Table.Family.gathers_all : Family.all.Gathers where
  member hT ht hm := by
    unfold Table.combined at hm
    split at hm
    next hs =>
      exact hT.has_part ht (by rw [hs]; exact hm)
    next hs =>
      exact hT.has_part ht (by rw [hs]; exact hm)
    · exact absurd hm (by simp)
  union hT hts := (Interning.settles_unionOf hT hts).imp fun _ _ _ _ h => h.1
  intersection hT hts := (Interning.settles_intersectionOf hT hts).imp fun _ _ _ _ h => h.1
  object hT ht hs := by
    refine (gives_objectOf hT fun p hp => hT.has_part ht ?_).has
    rw [hs]
    simpa only [Shape.parts, Ty.map_type_freezeFields] using hp
  array hT ht hs :=
    (gives_arrayOf hT (hT.has_part ht (by rw [hs]; simp [Shape.parts])) true).has
  tuple hT ht hs :=
    (gives_tupleOf hT fun p hp => hT.has_part ht (by rw [hs]; exact hp)).has

theorem Table.Family.expands_all : Family.all.Expands .all :=
  ⟨gathers_all, fun hT ht _ hp => hT.has_part ht hp, fun ht _ => ht⟩

namespace Ty

/-- Making a type readonly keeps to every regime, whatever depths are allowed. -/
theorem runs_readonlyAt (hH : H.Gathers) (hd : d ≤ d') (hT : K.ok T) (ht : H.Mem T t) :
    Typing.Runs K T (readonlyAt pure d t) (readonlyAt pure d' t) H.Mem := by
  induction d generalizing d' T t with
  | zero => exact runs_outOfSteps
  | succ d ih =>
    obtain ⟨d', rfl⟩ : ∃ k, d' = k + 1 := ⟨d' - 1, by omega⟩
    have hwf := K.wellFormed hT
    have hparts : ∀ ms : List Ty, (∀ m ∈ ms, H.Mem T m) →
        Typing.Runs K T (ms.mapM (readonlyAt pure d)) (ms.mapM (readonlyAt pure d'))
          (fun T1 us => ∀ u ∈ us, H.Mem T1 u) := by
      intro ms hms
      have hup : ∀ {T1 T2 : Table} {u : Ty}, K.grows T1 T2 → H.Mem T1 u → H.Mem T2 u :=
        fun hg hu => H.keep (fun _ hv => K.has hg hv) (fun _ hv => K.shape hg hv) hu
      refine runs_mapM (V := H.Mem) hT (fun _ _ _ hg hm => hup hg hm) ms ?_
      intro m hm T1 hT1 h1
      exact ih (by omega) hT1 (hup h1 (hms m hm))
    unfold readonlyAt
    rw [pure_bind, pure_bind]
    refine runs_get_bind ?_ ?_
    · intro T2 h2
      rw [shape_of_le (K.later_le h2) (H.has ht)]
    have hmember := fun m (hm : m ∈ T.combined t) => hH.member hwf ht hm
    unfold Table.combined at hmember
    cases hs : T.shape t with
    | object m => exact runs_lift hT (hH.object hwf ht hs)
    | array element readonly => exact runs_lift hT (hH.array hwf ht hs)
    | tuple u => exact runs_lift hT (hH.tuple hwf ht hs)
    | intersection ms =>
      rw [hs] at hmember
      refine (hparts ms hmember).bind fun us T1 hT1 _ hus => ?_
      exact runs_lift hT1 (hH.intersection (K.wellFormed hT1) hus)
    | union ms =>
      rw [hs] at hmember
      refine (hparts ms hmember).bind fun us T1 hT1 _ hus => ?_
      exact runs_lift hT1 (hH.union (K.wellFormed hT1) hus)
    | _ => exact runs_pure hT ht

end Ty

namespace Expansion

theorem settles_defaultFor (hT : T.WellFormed) {v : TypeVar} (hv : T.Knows v)
    (hsubs : T.HasSubstitution subs) :
    Interning.Settles T (defaultFor v subs) Table.Has := by
  refine settles_get_bind ?_ ?_
  · intro T2 h2
    rw [typeVar_of_le h2 hv]
  have hinfo : T.typeVars[v.number]? = some (T.typeVar v) := by
    simp only [Table.typeVar, Array.getElem?_eq_getElem hv, Option.getD_some]
  cases hd : (T.typeVar v).default with
  | none => exact settles_pure hT (T.has_prim _)
  | some d => exact settles_substitute hT hsubs ((hT.typeVars _ _ hinfo).2 d hd)

theorem settles_bindArguments (vars : List TypeVar) (hT : T.WellFormed)
    (hvars : ∀ v ∈ vars, T.Knows v) {arguments : List Ty} (hargs : ∀ t ∈ arguments, T.Has t)
    (hsubs : T.HasSubstitution subs) :
    Interning.Settles T (bindArguments vars arguments subs) Table.HasSubstitution := by
  have happend : ∀ {T1 : Table} {subs : Substitution} {v : TypeVar} {t : Ty},
      T1.HasSubstitution subs → T1.Has t → T1.HasSubstitution (subs ++ [(v, t)]) := by
    intro T1 subs v t hsubs ht b hb
    rcases List.mem_append.mp hb with hb | hb
    · exact hsubs b hb
    · rw [List.mem_singleton.mp hb]
      exact ht
  induction vars generalizing T arguments subs with
  | nil => exact settles_pure hT hsubs
  | cons v vars ih =>
    have hrest : ∀ w ∈ vars, T.Knows w := fun w hw => hvars w (List.mem_cons_of_mem _ hw)
    cases arguments with
    | cons a rest =>
      exact ih hT hrest (fun t ht => hargs t (List.mem_cons_of_mem _ ht))
        (happend hsubs (hargs a (by simp)))
    | nil =>
      refine (settles_defaultFor hT (hvars v (by simp)) hsubs).bind fun d T1 hT1 h1 hd => ?_
      exact ih hT1 (fun w hw => knows_of_le h1.le (hrest w hw)) (by simp)
        (happend (hsubs.of_le h1.le) hd)

end Expansion

namespace Table

/-- Every alias is resolved. -/
def Settled (T : Table) : Prop := ∀ name a, T.alias? name = some a → a.outcome.isSome

theorem Settled.of_le (h : T.Settled) (hle : T ≤ T') : T'.Settled := by
  intro name a ha
  exact h name a ((alias?_of_le hle name).symm.trans ha)

theorem alias?_eq_some {name : String} (h : T.alias? name = some a) :
    a ∈ T.aliases ∧ a.name = name :=
  ⟨List.mem_of_find?_eq_some h, by simpa using List.find?_some h⟩

/-- A table on which resolution changes nothing that is known. -/
structure Sound (T : Table) : Prop where
  wellFormed : T.WellFormed
  settled : T.Settled

theorem Sound.of_adds (hT : T.Sound) (hT1 : T1.WellFormed) (h : T.Adds T1) : T1.Sound :=
  ⟨hT1, hT.settled.of_le h.le⟩

/-- What is not remembered stays so where it may not be. -/
theorem lookup_of_not_opens (h : T ≤ T2)
    (hnone : T.instances.lookup t = none) (hclosed : ¬T2.Opens t) :
    T2.instances.lookup t = none := by
  cases hlook : T2.instances.lookup t with
  | none => rfl
  | some r =>
    rcases h.opened t r hlook with hr | hopen
    · rw [hnone] at hr
      exact absurd hr (by simp)
    · exact absurd hopen hclosed

end Table

/-- The regime in which tables only grow, and work is done again in every later table. -/
def Regime.lasting : Regime where
  ok := Table.Sound
  grows := Table.Adds
  later T T2 := T ≤ T2
  ends := True
  refl := Table.Adds.refl
  trans := Table.Adds.trans
  wellFormed h := h.wellFormed
  settles hT hT1 h _ := ⟨hT.of_adds hT1 h, h⟩
  has h ht := has_of_le h.le ht
  shape h ht := shape_of_le h.le ht
  later_trans h h' := h.le.trans h'
  later_reach h h' := h'.elim (fun h' => h.trans h'.le) h.trans
  later_le h := h

namespace Expansion

/-- Nothing new is known of the types on the chain, nor of types that are no references. -/
def SparesChain (chain : Chain) (T T1 : Table) : Prop :=
  ∀ r, T.Has r → onChain chain (T.text r) = true ∨ (T.shape r).isReference = false →
    T1.instances.lookup r = T.instances.lookup r

/-- The regime of an expansion inside the given chain. -/
def within (chain : Chain) : Regime where
  ok := Table.Sound
  grows T T1 := T.Adds T1 ∧ SparesChain chain T T1
  later _ _ := False
  ends := False
  refl T := ⟨.refl T, fun _ _ _ => rfl⟩
  trans := by
    rintro T T1 T2 ⟨h1, hs1⟩ ⟨h2, hs2⟩
    refine ⟨h1.trans h2, fun r hr hspared => ?_⟩
    rw [hs2 r (has_of_le h1.le hr), hs1 r hr hspared]
    rw [text_of_le h1.le hr, shape_of_le h1.le hr]
    exact hspared
  wellFormed h := h.wellFormed
  settles hT hT1 h hinst := ⟨hT.of_adds hT1 h, h, fun r _ _ => by rw [hinst]⟩
  has h ht := has_of_le h.1.le ht
  shape h ht := shape_of_le h.1.le ht
  later_trans _ h := h
  later_reach h _ := h.elim
  later_le h := h.elim

/-- A longer chain spares more. -/
theorem sparesChain_of_append {chain : Chain} {l : Link}
    (h : SparesChain (chain ++ [l]) T T1) : SparesChain chain T T1 := by
  intro r hr hspared
  refine h r hr ?_
  rcases hspared with hchain | href
  · refine .inl ?_
    simp only [onChain, List.any_append, Bool.or_eq_true] at hchain ⊢
    exact .inl hchain
  · exact .inr href

/-- Once every alias is resolved, marking a cycle does nothing. -/
theorem settles_markCycle (hT : T.Sound) (chain : Chain) (key : String) :
    Interning.Settles T (markCycle chain key) (fun _ _ => True) := by
  have hpoison : ∀ {T2 : Table}, T2.Settled → ∀ names name i,
    poison names name i T2 = ((), T2) := by
    intro T2 hs names name i
    have hdone : ¬(T2.alias? name).any (·.outcome.isNone) = true := by
      cases ha : T2.alias? name with
      | none => simp
      | some a => simpa [Option.isSome_iff_ne_none] using hs name a ha
    rw [poison, bind_apply]
    change (if (T2.alias? name).any (·.outcome.isNone) = true then _ else _ : Interning Unit) T2 = _
    rw [if_neg hdone]
    rfl
  have hforM : ∀ {T2 : Table}, T2.Settled → ∀ (names : List String) (ps : List (String × Nat)),
      (ps.forM fun p => poison names p.1 p.2 : Interning Unit) T2 = ((), T2) := by
    intro T2 hs names ps
    induction ps with
    | nil => rfl
    | cons p ps ih =>
      change (poison names p.1 p.2 >>= fun _ => ps.forM fun p => poison names p.1 p.2) T2 = _
      rw [bind_apply, hpoison hs]
      exact ih
  exact ⟨(), T, ⟨hforM hT.settled _ _, hT.wellFormed, .refl T, rfl,
    fun T2 h2 => hforM (hT.settled.of_le h2) _ _⟩, trivial⟩

/-- The table in which a type is known to resolve to another. -/
def remembered (T : Table) (t r : Ty) : Table := { T with instances := (t, r) :: T.instances }

theorem lookup_remembered_self (T : Table) (t r : Ty) :
    (remembered T t r).instances.lookup t = some r := by
  simp [remembered]

theorem lookup_remembered_other (T : Table) {u : Ty} (r : Ty) (h : u ≠ t) :
    (remembered T t r).instances.lookup u = T.instances.lookup u := by
  have hbeq : (u == t) = false := by simpa using h
  simp [remembered, List.lookup_cons, hbeq]

/-- Remembering a type of the table keeps the table well-formed. -/
theorem wellFormed_remembered (hT : T.WellFormed) (hr : T.Has r) (t : Ty) :
    (remembered T t r).WellFormed where
  entry n e he :=
    have h := hT.entry n e he
    ⟨h.parts, h.members, h.vars, fun ms hms => (h.union ms hms).of_entries rfl, h.values, h.key,
      h.isEntry⟩
  unique := hT.unique
  typeVars := hT.typeVars
  aliases := hT.aliases
  instances u s hs := by
    by_cases hu : u = t
    · subst hu
      rw [lookup_remembered_self] at hs
      injection hs with hs
      exact hs ▸ hr
    · rw [lookup_remembered_other T r hu] at hs
      exact hT.instances u s hs

/-- Remembering what was not known before extends a table. -/
theorem adds_remembered (hT : T.WellFormed) (hr : T.Has r)
    (hnone : T.instances.lookup t = none) (hopen : T.Opens t) :
    (remembered T t r).WellFormed ∧ T.Adds (remembered T t r) := by
  have hle : T ≤ remembered T t r := by
    refine ⟨fun _ _ h => h, fun _ _ h => h, rfl, rfl, ?_, ?_⟩
    · intro u s hs
      have hu : u ≠ t := by
        rintro rfl
        rw [hnone] at hs
        exact absurd hs (by simp)
      rw [lookup_remembered_other T r hu]
      exact hs
    · intro u s hs
      by_cases hu : u = t
      · subst hu
        exact .inr hopen
      · rw [lookup_remembered_other T r hu] at hs
        exact .inl hs
  exact ⟨wellFormed_remembered hT hr t, hle, rfl, rfl, fun h => h.of_entries rfl⟩

section Instances

variable {chain : Chain} {ref : Ty} {name : String} {arguments : List Ty}

theorem runs_remember (hT : T.Sound) (hr : T.Has r) (hnone : T.instances.lookup ref = none)
    (hopen : T.Opens ref) (hoff : onChain chain (T.text ref) = false)
    (href : (T.shape ref).isReference = true) :
    Typing.Runs (within chain) T (do remember ref r; return r) (do remember ref r; return r)
      Table.Has := by
  obtain ⟨hwf, hadds⟩ := adds_remembered hT.wellFormed hr hnone hopen
  intro n a T1 hx
  change some (r, remembered T ref r) = some (a, T1) at hx
  obtain ⟨rfl, rfl⟩ := Prod.mk.inj (Option.some.inj hx)
  refine ⟨⟨hT.of_adds hwf hadds, ⟨hadds, ?_⟩, fun m _ => rfl, fun _ _ _ h => h.elim⟩,
    has_of_le hadds.le hr⟩
  intro u _ hspared
  apply lookup_remembered_other
  rintro rfl
  rcases hspared with hon | hno
  · rw [hoff] at hon
    exact absurd hon (by simp)
  · rw [href] at hno
    exact absurd hno (by simp)

/-- The expansion of types one level below keeps to the regime of its chain. -/
def ExpandRuns (expand expand' : Chain → Ty → Typing Ty) : Prop :=
  ∀ (chain : Chain) (T : Table) (t : Ty), T.Sound → T.Has t →
    Typing.Runs (within chain) T (expand chain t) (expand' chain t) Table.Has

/-- Instantiating an alias remembers what the reference stands for, and nothing of the references on
the chain. -/
theorem runs_instantiate (hexpand : ExpandRuns expand expand') (hT : T.Sound)
    (href : T.shape ref = .reference name arguments)
    (hopen : ∀ a, T.alias? name = some a → arguments ≠ [] ∨ a.params ≠ []) :
    Typing.Runs (within chain) T (instantiate expand chain ref name arguments)
      (instantiate expand' chain ref name arguments) Table.Has := by
  have hhas : T.Has ref := has_of_shape (by rw [href]; simp)
  have hinvalid : ∀ {T1 : Table}, T1.Sound → Typing.Runs (within chain) T1 (pure .invalid)
      (pure .invalid) Table.Has := by
    intro T1 hT1
    exact runs_pure hT1 (T1.has_prim _)
  refine runs_get_bind (fun _ h => h.elim) ?_
  cases hlook : T.instances.lookup ref with
  | some t => exact runs_pure hT (hT.wellFormed.instances ref t hlook)
  | none =>
  cases halias : T.alias? name with
  | none => exact hinvalid hT
  | some a =>
  dsimp only
  by_cases hbad : a.outcome.map outcomeType = some .invalid
  · rw [if_pos hbad, if_pos hbad]
    exact hinvalid hT
  rw [if_neg hbad, if_neg hbad]
  by_cases hchain : onChain chain (T.text ref) = true
  · rw [if_pos hchain, if_pos hchain]
    exact (runs_lift hT (settles_markCycle hT _ _)).bind fun _ T1 hT1 _ _ => hinvalid hT1
  rw [if_neg hchain, if_neg hchain]
  by_cases hlimit : nestingLimit ≤ (chain.filter (·.name = name)).length
  · rw [if_pos hlimit, if_pos hlimit]
    exact (runs_lift hT (settles_markCycle hT _ _)).bind fun _ T1 hT1 _ _ => hinvalid hT1
  rw [if_neg hlimit, if_neg hlimit]
  obtain ⟨htarget, hparams, -⟩ := hT.wellFormed.aliases a (Table.alias?_eq_some halias).1
  have hargs : ∀ t ∈ arguments, T.Has t := by
    intro t ht
    exact hT.wellFormed.has_part hhas (by rw [href]; exact ht)
  refine (runs_lift hT (settles_bindArguments a.params hT.wellFormed hparams hargs
     (by simp [Table.HasSubstitution])).instances).bind ?_
  rintro subs T1 hT1 ⟨h1, -⟩ ⟨hsubs, hinst1⟩
  refine (runs_lift hT1 (settles_substitute hT1.wellFormed hsubs
    (has_of_le h1.le htarget)).instances).bind ?_
  rintro target T2 hT2 ⟨h2, -⟩ ⟨htarget2, hinst2⟩
  have h02 := h1.trans h2
  -- while its own link is on the chain, nothing is remembered of the reference
  have hinner : Typing.Runs (within chain) T2 (expand (chain ++ [⟨T.text ref, name⟩]) target)
      (expand' (chain ++ [⟨T.text ref, name⟩]) target)
      (fun T3 r => T3.Has r ∧ T3.instances.lookup ref = none) := by
    intro n r T3 hrun
    obtain ⟨hat, hr⟩ := hexpand _ T2 target hT2 htarget2 n r T3 hrun
    obtain ⟨h3, hspares⟩ := hat.grows
    refine ⟨⟨hat.ok, ⟨h3, sparesChain_of_append hspares⟩, hat.more, hat.again⟩, hr, ?_⟩
    rw [hspares ref (has_of_le h02.le hhas), hinst2, hinst1, hlook]
    refine .inl ?_
    rw [text_of_le h02.le hhas]
    simp [onChain]
  refine hinner.bind ?_
  rintro r T3 hT3 ⟨h3, -⟩ ⟨hr, hnone⟩
  have h03 := h02.trans h3
  have hshape : T3.shape ref = .reference name arguments :=
    (shape_of_le h03.le hhas).trans href
  refine runs_remember hT3 hr hnone ?_ ?_ ?_
  · rw [Table.Opens, hshape]
    exact ⟨a, (Table.alias?_of_le h03.le name).trans halias, hbad, hopen a halias⟩
  · rw [text_of_le h03.le hhas]
    simpa using hchain
  · rw [hshape]
    rfl

/-- One level of an expansion keeps to a regime when its parts do. -/
theorem runs_expandStep {F : Table.Family} (hF : F.Expands H) (hd : d ≤ d') (hT : K.ok T)
    (ht : F.Mem T t) (hexpand : ∀ T1 u, K.ok T1 → K.grows T T1 → F.Mem T1 u →
      Typing.Runs K T1 (expand chain u) (expand' chain u) H.Mem)
    (halias : ∀ a, T.alias? a.name = some a → a.params = [] →
      Typing.Runs K T (resolveAlias expand chain a) (resolveAlias expand' chain a) H.Mem)
    (hinst : ∀ name arguments, T.shape t = .reference name arguments →
      (∀ a, T.alias? name = some a → arguments ≠ [] ∨ a.params ≠ []) →
      Typing.Runs K T (instantiate expand chain t name arguments)
        (instantiate expand' chain t name arguments) H.Mem) :
    Typing.Runs K T (expandStep expand d chain t) (expandStep expand' d' chain t) H.Mem := by
  have hwf := K.wellFormed hT
  have hparts : ∀ ms : List Ty, (∀ m ∈ ms, F.Mem T m) →
      Typing.Runs K T (ms.mapM (expand chain)) (ms.mapM (expand' chain))
        (fun T1 us => ∀ u ∈ us, H.Mem T1 u) := by
    intro ms hms
    refine runs_mapM (V := H.Mem) hT
      (fun _ _ _ hg hu => H.keep (fun _ hv => K.has hg hv) (fun _ hv => K.shape hg hv) hu) ms ?_
    intro m hm T1 hT1 h1
    exact hexpand T1 m hT1 h1 (F.keep (fun _ hv => K.has h1 hv)
      (fun _ hv => K.shape h1 hv) (hms m hm))
  have hpart := fun h p (hp : p ∈ (T.shape t).parts) => hF.part hwf ht h hp
  have hwhole := hF.whole ht
  refine runs_get_bind ?_ ?_
  · intro T2 h2
    simp only [shape_of_le (K.later_le h2) (F.has ht), Table.alias?_of_le (K.later_le h2)]
  cases hs : T.shape t with
  | reference name arguments =>
    rw [hs] at hpart
    cases ha : T.alias? name with
    | none =>
      have hinst' := hinst name arguments hs (by simp [ha])
      rcases arguments with _ | ⟨argument, _ | ⟨second, rest⟩⟩
      · simpa only [ha] using hinst'
      · simp only [ha]
        by_cases hname : name = readonlyName
        · rw [if_pos hname, if_pos hname]
          refine (hexpand T argument hT (K.refl T)
            (hpart rfl argument (by simp [Shape.parts]))).bind ?_
          intro u T1 hT1 _ hu
          exact Ty.runs_readonlyAt hF.gathers hd hT1 hu
        · rw [if_neg hname, if_neg hname]
          exact hinst'
      · simpa only [ha] using hinst'
    | some a =>
      have hname := (Table.alias?_eq_some ha).2
      cases arguments with
      | nil =>
        simp only [ha]
        by_cases hparams : a.params.isEmpty = true
        · rw [if_pos hparams, if_pos hparams]
          exact halias a (hname ▸ ha) (by simpa using hparams)
        · rw [if_neg hparams, if_neg hparams]
          refine hinst name [] hs ?_
          intro b hb
          rw [ha] at hb
          injection hb with hb
          subst hb
          exact .inr (by simpa using hparams)
      | cons first rest => simpa only [ha] using hinst name _ hs (fun _ _ => .inl (by simp))
  | union ms =>
    rw [hs] at hpart
    refine (hparts ms (hpart rfl)).bind fun us T1 hT1 _ hus => ?_
    exact runs_lift hT1 (hF.gathers.union (K.wellFormed hT1) hus)
  | intersection ms =>
    rw [hs] at hpart
    refine (hparts ms (hpart rfl)).bind fun us T1 hT1 _ hus => ?_
    exact runs_lift hT1 (hF.gathers.intersection (K.wellFormed hT1) hus)
  | _ => exact runs_pure hT (hwhole (by rw [hs]; rfl))

/-- Where every alias is resolved, an alias stands for what it was resolved to. -/
theorem runs_resolveAlias (expand expand' : Chain → Ty → Typing Ty) (hT : K.ok T)
    (hsettled : T.Settled) (ha : T.alias? a.name = some a) :
    Typing.Runs K T (resolveAlias expand chain a) (resolveAlias expand' chain a) Table.Has := by
  have hdone := hsettled a.name a ha
  unfold resolveAlias
  cases hout : a.outcome with
  | none =>
    rw [hout] at hdone
    exact absurd hdone (by simp)
  | some outcome =>
    refine runs_pure hT ?_
    cases outcome with
    | resolved t => exact ((K.wellFormed hT).aliases a (Table.alias?_eq_some ha).1).2.2 t hout
    | cyclic names => exact T.has_prim _

theorem expandRuns_expandAt (hd : d ≤ d') : ExpandRuns (expandAt d) (expandAt d') := by
  induction d generalizing d' with
  | zero =>
    intro chain T t _ _
    exact runs_outOfSteps
  | succ d ih =>
    obtain ⟨d', rfl⟩ : ∃ k, d' = k + 1 := ⟨d' - 1, by omega⟩
    have hd : d ≤ d' := by omega
    intro chain T t hT ht
    refine runs_expandStep Table.Family.expands_all hd (K := within chain) hT ht
      (fun T1 u hT1 _ hu => ih hd chain T1 u hT1 hu) ?_ ?_
    · intro a ha _
      exact runs_resolveAlias _ _ hT hT.settled ha
    · intro name arguments hs hopen
      exact runs_instantiate (ih hd) hT hs hopen

/-- An alias that is instantiated outside of every chain is remembered, unless it has no result. -/
theorem instantiate_remembers (hlook : T.instances.lookup ref = none)
    (halias : T.alias? name = some a)
    (hgood : ¬a.outcome.map outcomeType = some .invalid)
    (h : instantiate expand [] ref name arguments n T = some (r, T1)) :
    T1.instances.lookup ref = some r := by
  have hrun : (do
      let subs ← bindArguments a.params arguments []
      let result ← expand [⟨T.text ref, name⟩] (← a.target.substitute subs)
      remember ref result
      return result : Typing Ty) n T = some (r, T1) := by
    unfold instantiate at h
    obtain ⟨table, T', hget, h⟩ := bind_some h
    obtain ⟨rfl, rfl⟩ := Prod.mk.inj (Option.some.inj hget)
    rw [hlook, halias] at h
    dsimp only at h
    rw [if_neg hgood] at h
    exact h
  obtain ⟨subs, T2, -, h2⟩ := bind_some hrun
  obtain ⟨target, T3, -, h3⟩ := bind_some h2
  obtain ⟨result, T4, -, h4⟩ := bind_some h3
  change some (result, remembered T4 ref result) = some (r, T1) at h4
  obtain ⟨rfl, rfl⟩ := Prod.mk.inj (Option.some.inj h4)
  exact lookup_remembered_self T4 ref result

theorem instantiate_known (expand : Chain → Ty → Typing Ty) (n : Nat)
    (h : T.instances.lookup ref = some r) :
    instantiate expand chain ref name arguments n T = some (r, T) := by
  unfold instantiate
  rw [get_bind, h]
  rfl

theorem instantiate_bad (expand : Chain → Ty → Typing Ty) (n : Nat)
    (hlook : T.instances.lookup ref = none)
    (hbad : ∀ a, T.alias? name = some a → a.outcome.map outcomeType = some .invalid) :
    instantiate expand chain ref name arguments n T = some (.invalid, T) := by
  unfold instantiate
  rw [get_bind, hlook]
  cases ha : T.alias? name with
  | none => rfl
  | some a =>
    dsimp only
    rw [if_pos (hbad a ha)]
    rfl

/-- What an alias is instantiated to outside of every chain never changes. -/
theorem lasting_instantiate (hexpand : ExpandRuns expand expand') (hT : T.Sound)
    (href : T.shape ref = .reference name arguments)
    (hopen : ∀ a, T.alias? name = some a → arguments ≠ [] ∨ a.params ≠ []) :
    Typing.Runs .lasting T (instantiate expand [] ref name arguments)
      (instantiate expand' [] ref name arguments) Table.Has := by
  intro n r T1 hrun
  obtain ⟨hat, hr⟩ := runs_instantiate hexpand hT href hopen n r T1 hrun
  have h1 := hat.grows.1
  refine ⟨⟨hat.ok, h1, hat.more, fun m hm T2 h2 => ?_⟩, hr⟩
  cases hlook : T.instances.lookup ref with
  | some t =>
    rw [instantiate_known expand n hlook] at hrun
    obtain ⟨rfl, rfl⟩ := Prod.mk.inj (Option.some.inj hrun)
    exact instantiate_known expand' m (h2.kept ref _ hlook)
  | none =>
    by_cases hbad : ∀ a, T.alias? name = some a → a.outcome.map outcomeType = some .invalid
    · rw [instantiate_bad expand n hlook hbad] at hrun
      obtain ⟨rfl, rfl⟩ := Prod.mk.inj (Option.some.inj hrun)
      have hbad2 : ∀ a, T2.alias? name = some a → a.outcome.map outcomeType = some .invalid := by
        intro a ha
        exact hbad a ((Table.alias?_of_le h2 name).symm.trans ha)
      refine instantiate_bad expand' m (Table.lookup_of_not_opens h2 hlook ?_) hbad2
      rw [Table.Opens, shape_of_le h2 (has_of_shape (by rw [href]; simp)), href]
      rintro ⟨a, ha, hgood, -⟩
      exact hgood (hbad2 a ha)
    · push Not at hbad
      obtain ⟨a, ha, hgood⟩ := hbad
      exact instantiate_known expand' m (h2.kept ref r (instantiate_remembers hlook ha hgood hrun))

/-- What a type expands to outside of every chain never changes. -/
theorem lasting_expandAt (hd : d ≤ d') (hT : T.Sound) (ht : T.Has t) :
    Typing.Runs .lasting T (expandAt d [] t) (expandAt d' [] t) Table.Has := by
  induction d generalizing d' T t with
  | zero => exact runs_outOfSteps
  | succ d ih =>
    obtain ⟨d', rfl⟩ : ∃ k, d' = k + 1 := ⟨d' - 1, by omega⟩
    have hd : d ≤ d' := by omega
    refine runs_expandStep Table.Family.expands_all hd (K := .lasting) hT ht
      (fun T1 u hT1 _ hu => ih hd hT1 hu) ?_ ?_
    · intro a ha _
      exact runs_resolveAlias _ _ hT hT.settled ha
    · intro name arguments hs hopen
      exact lasting_instantiate (expandRuns_expandAt hd) hT hs hopen

/-- An expansion outside of every chain remembers a reference whose resolution may be remembered. -/
theorem expandAt_remembers (hopen : T.Opens t)
    (href : (T.shape t).isReference = true) (hlook : T.instances.lookup t = none)
    (h : expandAt d [] t n T = some (r, T1)) : T1.instances.lookup t = some r := by
  cases hs : T.shape t with
  | reference name arguments =>
    rw [Table.Opens, hs] at hopen
    obtain ⟨a, ha, hgood, hsome⟩ := hopen
    cases d with
    | zero => exact absurd h (by simp [expandAt, outOfSteps])
    | succ d =>
      have hrun : instantiate (expandAt d) [] t name arguments n T = some (r, T1) → _ :=
        instantiate_remembers hlook ha hgood
      apply hrun
      obtain ⟨table, T', hget, h⟩ := bind_some h
      obtain ⟨rfl, rfl⟩ := Prod.mk.inj (Option.some.inj hget)
      simp only [hs, ha] at h
      cases arguments with
      | nil =>
        have hparams : ¬a.params.isEmpty = true := by simpa using hsome
        simp only [if_neg hparams] at h
        exact h
      | cons first rest => exact h
  | _ =>
    rw [hs] at href
    exact absurd href (by simp [Shape.isReference])

end Instances

end Expansion

namespace Ty

theorem hasOpenHead_of_le (hT : T.WellFormed) (h : T ≤ T2) (ht : T.Has t) :
    hasOpenHead T2 t = hasOpenHead T t := by
  unfold hasOpenHead
  rw [shape_of_le h ht]
  cases hs : T.shape t with
  | intersection ms =>
    have hparts : ∀ m ∈ ms, T.Has m := by
      intro m hm
      exact hT.has_part ht (by rw [hs]; exact hm)
    unfold hasReference
    rw [Bool.eq_iff_iff, List.any_eq_true, List.any_eq_true]
    constructor
    · rintro ⟨m, hm, href⟩
      exact ⟨m, hm, shape_of_le h (hparts m hm) ▸ href⟩
    · rintro ⟨m, hm, href⟩
      exact ⟨m, hm, (shape_of_le h (hparts m hm)).symm ▸ href⟩
  | _ => rfl

/-- How a type with an open head is resolved when nothing is known of it. -/
def resolveAnew (t : Ty) : Typing Ty := do
  let table ← get
  let result ← bounded fun depth => Expansion.expandAt depth [] t
  if !(table.shape t).isReference && (← get).frozen then Expansion.remember t result
  return result

theorem resolve_closed (n : Nat) (h : hasOpenHead T t = false) : t.resolve n T = some (t, T) := by
  change (if !hasOpenHead T t then _ else _ : Typing Ty) n T = _
  rw [h]
  rfl

theorem resolve_known (n : Nat) (hopen : hasOpenHead T t = true)
    (hlook : T.instances.lookup t = some r) : t.resolve n T = some (r, T) := by
  change (if !hasOpenHead T t then _ else _ : Typing Ty) n T = _
  rw [hopen, hlook]
  rfl

theorem resolve_anew (n : Nat) (hopen : hasOpenHead T t = true)
    (hlook : T.instances.lookup t = none) : t.resolve n T = resolveAnew t n T := by
  change (if !hasOpenHead T t then _ else _ : Typing Ty) n T = _
  rw [hopen, hlook]
  rfl

theorem resolveAnew_apply (t : Ty) (n : Nat) (T : Table) :
    resolveAnew t n T = (Expansion.expandAt n [] t n T).bind fun p =>
      some (p.1, if !(T.shape t).isReference && p.2.frozen then Expansion.remembered p.2 t p.1
        else p.2) := by
  change (Expansion.expandAt n [] t n T).bind (fun p =>
    (if !(T.shape t).isReference && p.2.frozen then do
      Expansion.remember t p.1
      return p.1
    else return p.1 : Typing Ty) n p.2) = _
  congr 1
  funext p
  cases (!(T.shape t).isReference && p.2.frozen) with
  | false => rfl
  | true => rfl

/-- An intersection is open to be remembered once the table is frozen. -/
theorem opens_of_frozen (hopen : hasOpenHead T t = true)
    (h : (!(T.shape t).isReference && T.frozen) = true) : T.Opens t := by
  rw [Bool.and_eq_true] at h
  unfold hasOpenHead at hopen
  unfold Table.Opens
  cases hs : T.shape t with
  | intersection ms => exact h.2
  | reference name arguments =>
    rw [hs] at h
    exact absurd h.1 (by simp [Shape.isReference])
  | _ =>
    rw [hs] at hopen
    exact absurd hopen (by simp)

/-- Work that was done anew and is not remembered by `Ty.resolve` itself has the same result
again. -/
theorem resolve_again {m : Nat} (hm : n ≤ m) (hT : T.Sound)
    (ht : T.Has t) (hopen : hasOpenHead T t = true) (hlook : T.instances.lookup t = none)
    (hexp : Expansion.expandAt n [] t n T = some (r, T'))
    (hkeep : (!(T.shape t).isReference && T'.frozen) = false) (h2 : T' ≤ T2) :
    t.resolve m T2 = some (r, T2) := by
  obtain ⟨hat, -⟩ := Expansion.lasting_expandAt hm hT ht n r T' hexp
  have h02 := hat.grows.le.trans h2
  have hopen2 := (hasOpenHead_of_le hT.wellFormed h02 ht).trans hopen
  cases hlook2 : T2.instances.lookup t with
  | none =>
    rw [resolve_anew m hopen2 hlook2, resolveAnew_apply, hat.again m hm T2 h2]
    rw [shape_of_le h02 ht]
    simp only [Option.bind_some, h2.frozen, hkeep]
    rfl
  | some r2 =>
    -- only a reference can be remembered meanwhile, and it was by this very run
    have hopens : T.Opens t := by
      rcases h02.opened t r2 hlook2 with hr | hopens
      · rw [hlook] at hr
        exact absurd hr (by simp)
      · exact (h02.opens_iff ht).mp hopens
    have href : (T.shape t).isReference = true := by
      by_contra hno
      rw [Bool.not_eq_true] at hno
      have hfrozen : T'.frozen = false := by simpa [hno] using hkeep
      rw [hat.grows.le.frozen] at hfrozen
      unfold Table.Opens at hopens
      cases hs : T.shape t with
      | reference name arguments =>
        rw [hs] at hno
        exact absurd hno (by simp [Shape.isReference])
      | intersection ms =>
        rw [hs, hfrozen] at hopens
        exact absurd hopens (by simp)
      | _ =>
        rw [hs] at hopens
        exact hopens
    have hkept := h2.kept t r (Expansion.expandAt_remembers hopens href hlook hexp)
    rw [hlook2] at hkept
    injection hkept with hkept
    rw [resolve_known m hopen2 hlook2, hkept]

/-- Resolving a type of which nothing is known lasts. -/
theorem lasting_resolve_anew (hT : T.Sound) (ht : T.Has t) (hopen : hasOpenHead T t = true)
    (hlook : T.instances.lookup t = none) :
    Typing.Runs .lasting T t.resolve t.resolve Table.Has := by
  intro n r T1 hrun
  rw [resolve_anew n hopen hlook, resolveAnew_apply] at hrun
  obtain ⟨⟨r', T'⟩, hexp, hrest⟩ := Option.bind_eq_some_iff.mp hrun
  obtain ⟨rfl, hleft⟩ := Prod.mk.inj (Option.some.inj hrest)
  dsimp only at hleft
  have hmore : ∀ m, n ≤ m → t.resolve m T = some (r', T1) := by
    intro m hm
    obtain ⟨hat, -⟩ := Expansion.lasting_expandAt hm hT ht n r' T' hexp
    rw [resolve_anew m hopen hlook, resolveAnew_apply, hat.more m hm, ← hleft]
    rfl
  obtain ⟨hat, hr⟩ := Expansion.lasting_expandAt (Nat.le_refl n) hT ht n r' T' hexp
  cases hkeep : !(T.shape t).isReference && T'.frozen with
  | false =>
    rw [hkeep] at hleft
    obtain rfl : T' = T1 := hleft
    exact ⟨⟨hat.ok, hat.grows, hmore,
      fun m hm T2 h2 => resolve_again hm hT ht hopen hlook hexp hkeep h2⟩, hr⟩
  | true =>
    -- an intersection of a frozen table is remembered, and so found again
    rw [if_pos hkeep] at hleft
    have hnone : T'.instances.lookup t = none := by
      obtain ⟨hwithin, -⟩ :=
        Expansion.expandRuns_expandAt (Nat.le_refl n) [] T t hT ht n r' T' hexp
      rw [Bool.and_eq_true, Bool.not_eq_true'] at hkeep
      rw [hwithin.grows.2 t ht (.inr hkeep.1), hlook]
    have hopen' : hasOpenHead T' t = true :=
      (hasOpenHead_of_le hT.wellFormed hat.grows.le ht).trans hopen
    have hopens : T'.Opens t := by
      apply opens_of_frozen hopen'
      rw [shape_of_le hat.grows.le ht]
      exact hkeep
    obtain ⟨hwf, hadds⟩ := Expansion.adds_remembered hat.ok.wellFormed hr hnone hopens
    have hfound := Expansion.lookup_remembered_self T' t r'
    rw [hleft] at hwf hadds hfound
    have h1 := hat.grows.trans hadds
    refine ⟨⟨hat.ok.of_adds hwf hadds, h1, hmore, fun m _ T2 h2 => ?_⟩,
      has_of_le hadds.le hr⟩
    refine resolve_known m ?_ (h2.kept t r' hfound)
    exact (hasOpenHead_of_le hT.wellFormed (h1.le.trans h2) ht).trans hopen

/-- **Resolution lasts.** What a type resolves to never changes once every alias is resolved. -/
theorem lasting_resolve (hT : T.Sound) (ht : T.Has t) :
    Typing.Runs .lasting T t.resolve t.resolve Table.Has := by
  cases hopen : hasOpenHead T t with
  | false =>
    intro n r T1 hrun
    rw [resolve_closed n hopen] at hrun
    obtain ⟨rfl, rfl⟩ := Prod.mk.inj (Option.some.inj hrun)
    refine ⟨⟨hT, .refl T, fun m _ => resolve_closed m hopen, fun m _ T2 h2 => ?_⟩, ht⟩
    exact resolve_closed m ((hasOpenHead_of_le hT.wellFormed h2 ht).trans hopen)
  | true =>
    cases hlook : T.instances.lookup t with
    | none => exact lasting_resolve_anew hT ht hopen hlook
    | some r' =>
      intro n r T1 hrun
      rw [resolve_known n hopen hlook] at hrun
      obtain ⟨rfl, rfl⟩ := Prod.mk.inj (Option.some.inj hrun)
      refine ⟨⟨hT, .refl T, fun m _ => resolve_known m hopen hlook, fun m _ T2 h2 => ?_⟩,
        hT.wellFormed.instances t _ hlook⟩
      have hopen2 := (hasOpenHead_of_le hT.wellFormed h2 ht).trans hopen
      exact resolve_known m hopen2 (h2.kept t _ hlook)

end Ty

end ShapeCheck
