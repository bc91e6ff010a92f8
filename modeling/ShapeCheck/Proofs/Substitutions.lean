import ShapeCheck.Proofs.Meets
import ShapeCheck.Ty.Substitution

/-!
# Substitutions settle

A substitution rebuilds a type from the inside out through the constructors, so it settles as they
do.

* `Interning.settles_substituteStep` is one level, given that the parts settle.
* `Interning.settles_substitute` and `Interning.settles_erase` are the statements for whole types.
-/

namespace ShapeCheck

variable {T T' : Table} {c : Callable} {t : Ty} {subs : Substitution} {v : TypeVar}

namespace Table

/-- The parts of a function stand in the table. -/
def HasCallable (T : Table) (c : Callable) : Prop := ∀ p ∈ (Shape.function c).parts, T.Has p

theorem hasCallable_iff :
    T.HasCallable c ↔ (∀ p ∈ c.params, T.Has p.type) ∧ (∀ p ∈ c.rest, T.Has p.type) ∧
      (∀ t ∈ c.receiver, T.Has t) ∧ T.Has c.result :=
  Shape.forall_parts_function

theorem HasCallable.of_le (h : T.HasCallable c) (hle : T ≤ T') : T'.HasCallable c :=
  fun p hp => has_of_le hle (h p hp)

theorem shape_of_callable? (hc : T.callable? t = some c) : T.shape t = .function c := by
  unfold callable? at hc
  split at hc
  next d hs =>
    rw [hs, Option.some.inj hc]
  · exact absurd hc (by simp)

theorem WellFormed.hasCallable (hT : T.WellFormed) (ht : T.Has t)
    (hc : T.callable? t = some c) : T.HasCallable c :=
  fun p hp => hT.has_part ht (by rw [shape_of_callable? hc]; exact hp)

/-- The types of a substitution stand in the table. -/
def HasSubstitution (T : Table) (subs : Substitution) : Prop := ∀ b ∈ subs, T.Has b.2

theorem HasSubstitution.of_le (h : T.HasSubstitution subs)
    (hle : T ≤ T') : T'.HasSubstitution subs :=
  fun b hb => has_of_le hle (h b hb)

theorem HasSubstitution.append (h : T.HasSubstitution subs) (ht : T.Has t) :
    T.HasSubstitution (subs ++ [(v, t)]) := by
  intro b hb
  rcases List.mem_append.mp hb with hb | hb
  · exact h b hb
  · obtain rfl := List.mem_singleton.mp hb
    exact ht

theorem has_of_default (hT : T.WellFormed) {d : Ty}
    (hd : (T.typeVar v).default = some d) : T.Has d := by
  cases hinfo : T.typeVars[v.number]? with
  | none =>
    simp only [typeVar, hinfo, Option.getD_none] at hd
    exact absurd hd (by simp)
  | some info =>
    simp only [typeVar, hinfo, Option.getD_some] at hd
    exact (hT.typeVars _ info hinfo).2 d hd

end Table

namespace Interning

/-- Rebuilding a part of the first family settles in every later table, with a type of the
second. -/
def Converts (F G : Table.Family) (T : Table) (part : Ty → Interning Ty) : Prop :=
  ∀ (T1 : Table) (t : Ty), T1.WellFormed → T ≤ T1 → F.Mem T1 t → Settles T1 (part t) G.Mem

theorem Converts.of_le {F G : Table.Family} {part : Ty → Interning Ty}
    (h : Converts F G T part) (hle : T ≤ T') : Converts F G T' part :=
  fun T1 t hT1 h1 ht => h T1 t hT1 (hle.trans h1) ht

/-- Rebuilding a part of a family settles in every later table, with a type of the family. -/
def PartSettles (G : Table.Family) (T : Table) (part : Ty → Interning Ty) : Prop :=
  Converts G G T part

section Rebuilding

variable {part : Ty → Interning Ty} {F G : Table.Family}

section

variable (hpart : Converts F G T part) (hT : T.WellFormed)
include hpart hT

theorem settles_parts {ts : List Ty}
    (hts : ∀ t ∈ ts, F.Mem T t) : Settles T (ts.mapM part) (fun T1 us => ∀ u ∈ us, G.Mem T1 u) := by
  refine settles_mapM (V := G.Mem) hT (fun _ _ _ hle ht => G.of_le hle ht) ts ?_
  intro t ht T1 hT1 h1
  exact hpart T1 t hT1 h1.le (F.of_le h1.le (hts t ht))

theorem settles_rebuildOption {o : Option Ty} (ho : ∀ t ∈ o, F.Mem T t) :
    Settles T (Ty.rebuildOption part o) (fun T1 u => ∀ t ∈ u, G.Mem T1 t) := by
  cases o with
  | none => exact settles_pure hT (by simp)
  | some t =>
    refine (hpart T t hT (le_refl T) (ho t rfl)).bind fun u T1 hT1 _ hu => ?_
    exact settles_pure hT1 (by simpa using hu)

theorem settles_rebuildParameter {p : Parameter} (hp : F.Mem T p.type) :
    Settles T (Ty.rebuildParameter part p) (fun T1 q => G.Mem T1 q.type) := by
  refine (hpart T p.type hT (le_refl T) hp).bind fun u T1 hT1 _ hu => ?_
  exact settles_pure hT1 hu

theorem settles_rebuildRest
    {o : Option Parameter} (ho : ∀ p ∈ o, F.Mem T p.type) :
    Settles T (Ty.rebuildRest part o) (fun T1 r => ∀ p ∈ r, G.Mem T1 p.type) := by
  cases o with
  | none => exact settles_pure hT (by simp)
  | some p =>
    refine (settles_rebuildParameter hpart hT (ho p rfl)).bind fun q T1 hT1 _ hq => ?_
    exact settles_pure hT1 (by simpa using hq)

theorem settles_rebuildIndex
    {o : Option Index} (ho : ∀ i ∈ o, F.Mem T i.value) :
    Settles T (Ty.rebuildIndex part o) (fun T1 j => ∀ i ∈ j, G.Mem T1 i.value) := by
  cases o with
  | none => exact settles_pure hT (by simp)
  | some i =>
    refine (hpart T i.value hT (le_refl T) (ho i rfl)).bind fun u T1 hT1 _ hu => ?_
    exact settles_pure hT1 (by simpa using hu)

theorem settles_rebuildCallable
    (dropped : TypeVar → Bool) (hc : ∀ p ∈ (Shape.function c).parts, F.Mem T p) :
    Settles T (Ty.rebuildCallable part dropped c)
      (fun T1 d => ∀ p ∈ (Shape.function d).parts, G.Mem T1 p) := by
  obtain ⟨hparams, hrest, hreceiver, hresult⟩ := Shape.forall_parts_function.mp hc
  refine (hpart T c.result hT (le_refl T) hresult).bind fun result T1 hT1 h1 hres => ?_
  refine (settles_rebuildOption (hpart.of_le h1.le) hT1
    fun t ht => F.of_le h1.le (hreceiver t ht)).bind fun receiver T2 hT2 h2 hrec => ?_
  have h02 := h1.trans h2
  have hps : Settles T2 (c.params.mapM (Ty.rebuildParameter part))
      (fun T3 ps => ∀ p ∈ ps, G.Mem T3 p.type) := by
    refine settles_mapM (V := fun T3 (p : Parameter) => G.Mem T3 p.type) hT2
      (fun _ _ _ hle hp => G.of_le hle hp) c.params ?_
    intro p hp T3 hT3 h3
    exact settles_rebuildParameter (hpart.of_le (h02.trans h3).le) hT3
      (F.of_le (h02.trans h3).le (hparams p hp))
  refine hps.bind fun params T3 hT3 h3 hparams' => ?_
  have h03 := h02.trans h3
  refine (settles_rebuildRest (hpart.of_le h03.le) hT3
    fun p hp => F.of_le h03.le (hrest p hp)).bind fun rest T4 hT4 h4 hrest' => ?_
  refine settles_pure hT4 (Shape.forall_parts_function.mpr ⟨?_, hrest', ?_, ?_⟩)
  · intro p hp
    exact G.of_le h4.le (hparams' p hp)
  · intro t ht
    exact G.of_le (h3.trans h4).le (hrec t ht)
  · exact G.of_le ((h2.trans h3).trans h4).le hres

theorem settles_rebuildFields {fields : List Field}
    (hfields : ∀ f ∈ fields, F.Mem T f.type) :
    Settles T (Ty.rebuildFields part fields) (fun T1 fs => ∀ f ∈ fs, G.Mem T1 f.type) := by
  refine settles_mapM (V := fun T1 (f : Field) => G.Mem T1 f.type) hT
    (fun _ _ _ hle hf => G.of_le hle hf) fields ?_
  intro f hf T1 hT1 h1
  refine (hpart T1 f.type hT1 h1.le (F.of_le h1.le (hfields f hf))).bind fun u T2 hT2 _ hu => ?_
  exact settles_pure hT2 hu

/-- The members of an object are rebuilt when its call signatures are. -/
theorem settles_rebuildMembers {C : Table.Family}
    (dropped : TypeVar → Bool) {m : Members} (hfields : ∀ f ∈ m.fields, F.Mem T f.type)
    (hindex : ∀ i ∈ m.index, F.Mem T i.value) (hcalls : ∀ t ∈ m.calls, C.Mem T t)
    (hcall : Converts C G T (Ty.rebuildCall part dropped)) :
    Settles T (Ty.rebuildMembers part dropped m)
      (fun T1 n => ∀ p ∈ (Shape.object n).parts, G.Mem T1 p) := by
  refine (settles_rebuildFields hpart hT hfields).bind fun fields T1 hT1 h1 hfs => ?_
  refine (settles_rebuildIndex (hpart.of_le h1.le) hT1
    fun i hi => F.of_le h1.le (hindex i hi)).bind fun index T2 hT2 h2 hix => ?_
  have h02 := h1.trans h2
  refine (settles_parts (hcall.of_le h02.le) hT2 fun t ht => C.of_le h02.le (hcalls t ht)).bind
    fun calls T3 hT3 h3 hcs => ?_
  refine settles_pure hT3 (Shape.forall_parts_object.mpr ⟨?_, ?_, hcs⟩)
  · intro f hf
    exact G.of_le (h2.trans h3).le (hfs f hf)
  · intro i hi
    exact G.of_le h3.le (hix i hi)

theorem settles_rebuildTuple {u : Tuple} (hu : ∀ t ∈ u.elements, F.Mem T t) :
    Settles T (Ty.rebuildTuple part u) (fun T1 v => ∀ t ∈ v.elements, G.Mem T1 t) := by
  have hslots : Settles T (u.slots.mapM fun s => do return { s with type := ← part s.type })
      (fun T1 ss => ∀ s ∈ ss, G.Mem T1 s.type) := by
    refine settles_mapM (V := fun T1 (s : Slot) => G.Mem T1 s.type) hT
      (fun _ _ _ hle hs => G.of_le hle hs) u.slots ?_
    intro s hs T1 hT1 h1
    have hst := F.of_le h1.le ((Tuple.forall_elements.mp hu).1 s hs)
    exact (hpart T1 s.type hT1 h1.le hst).bind fun t T2 hT2 _ ht => settles_pure hT2 ht
  refine hslots.bind fun slots T1 hT1 h1 hss => ?_
  have hrest : ∀ t ∈ u.rest, F.Mem T1 t :=
    fun t ht => F.of_le h1.le ((Tuple.forall_elements.mp hu).2 t ht)
  refine (settles_rebuildOption (hpart.of_le h1.le) hT1 hrest).bind fun rest T2 hT2 h2 hr => ?_
  exact settles_pure hT2 (Tuple.forall_elements.mpr
    ⟨fun s hs => G.of_le h2.le (hss s hs), hr⟩)

end

theorem settles_rebuildCall (hpart : PartSettles .all T part) (hT : T.WellFormed)
    (dropped : TypeVar → Bool) (ht : T.Has t) :
    Settles T (Ty.rebuildCall part dropped t) Table.Has := by
  refine settles_get_bind ?_ ?_
  · intro T2 h2
    rw [Table.callable?_of_le h2 ht]
  · cases hc : T.callable? t with
    | none => exact settles_pure hT ht
    | some c =>
      refine (settles_rebuildCallable hpart hT dropped (hT.hasCallable ht hc)).bind
        fun d T1 hT1 _ hd => ?_
      exact (gives_functionOf hT1 hd).has

/-- One level of a substitution settles when its parts do. -/
theorem settles_substituteStep (hpart : PartSettles .all T part)
    (hT : T.WellFormed) (hsubs : T.HasSubstitution subs) (ht : T.Has t) :
    Settles T (Ty.substituteStep subs part t) Table.Has := by
  refine settles_get_bind ?_ ?_
  · intro T2 h2
    rw [Table.shape_of_le h2 ht]
  have hparts := fun p (hp : p ∈ (T.shape t).parts) => hT.has_part ht hp
  cases hs : T.shape t with
  | parameter v =>
    refine settles_pure hT ?_
    cases hv : subs.lookup v with
    | none => exact ht
    | some u =>
      obtain ⟨front, back, rfl, -⟩ := List.lookup_eq_some_iff.mp hv
      exact hsubs (v, u) (by simp)
  | union ms =>
    rw [hs] at hparts
    refine (settles_parts hpart hT hparts).bind fun us T1 hT1 _ hus => ?_
    exact (settles_unionOf hT1 hus).imp fun _ _ _ _ h => h.1
  | intersection ms =>
    rw [hs] at hparts
    refine (settles_parts hpart hT hparts).bind fun us T1 hT1 _ hus => ?_
    exact (settles_intersectionOf hT1 hus).imp fun _ _ _ _ h => h.1
  | array element readonly =>
    rw [hs] at hparts
    refine (hpart T element hT (le_refl T) (hparts element (by simp [Shape.parts]))).bind
      fun u T1 hT1 _ hu => ?_
    exact (gives_arrayOf hT1 hu readonly).has
  | tuple u =>
    rw [hs] at hparts
    refine (settles_rebuildTuple hpart hT hparts).bind fun v T1 hT1 _ hv => ?_
    exact (gives_tupleOf hT1 hv).has
  | object m =>
    rw [hs] at hparts
    have hcall : PartSettles .all T (Ty.rebuildCall part (Ty.binds subs)) :=
      fun T1 t hT1 h1 ht => settles_rebuildCall (hpart.of_le h1) hT1 _ ht
    obtain ⟨hf, hi, hc⟩ := Shape.forall_parts_object.mp hparts
    refine (settles_rebuildMembers hpart hT _ hf hi hc hcall).bind fun n T1 hT1 _ hn => ?_
    exact (gives_objectOf hT1 hn).has
  | function c =>
    rw [hs] at hparts
    refine (settles_rebuildCallable hpart hT _ hparts).bind fun d T1 hT1 _ hd => ?_
    exact (gives_functionOf hT1 hd).has
  | reference name arguments =>
    rw [hs] at hparts
    dsimp only
    split_ifs
    · exact settles_pure hT ht
    · refine (settles_parts hpart hT hparts).bind fun us T1 hT1 _ hus => ?_
      exact (gives_referenceTo hT1 name hus).has
  | _ => exact settles_pure hT ht

end Rebuilding

section Substituting

theorem settles_substituteAt (depth : Nat) (hT : T.WellFormed)
    (hsubs : T.HasSubstitution subs) (ht : T.Has t) :
    Settles T (Ty.substituteAt subs depth t) Table.Has := by
  induction depth generalizing T t with
  | zero => exact settles_pure hT ht
  | succ depth ih =>
    refine settles_substituteStep ?_ hT hsubs ht
    intro T1 u hT1 h1 hu
    exact ih hT1 (hsubs.of_le h1) hu

theorem settles_substitute (hT : T.WellFormed) (hsubs : T.HasSubstitution subs) (ht : T.Has t) :
    Settles T (Ty.substitute t subs) Table.Has := by
  unfold Ty.substitute
  split_ifs
  · exact settles_pure hT ht
  · exact settles_substituteAt _ hT hsubs ht

theorem settles_eraseCallable (hT : T.WellFormed) (hc : T.HasCallable c) :
    Settles T (Ty.eraseCallable c) Table.HasCallable := by
  refine settles_rebuildCallable (F := .all) (G := .all) ?_ hT _ hc
  intro T1 t hT1 _ ht
  refine settles_substitute hT1 ?_ ht
  intro b hb
  obtain ⟨v, -, rfl⟩ := List.mem_map.mp hb
  exact T1.has_prim _

theorem settles_erase (hT : T.WellFormed) (ht : T.Has t) : Settles T (Ty.erase t) Table.Has := by
  refine settles_get_bind ?_ ?_
  · intro T2 h2
    rw [Table.callable?_of_le h2 ht]
  cases hc : T.callable? t with
  | none => exact settles_pure hT ht
  | some c =>
    dsimp only
    split_ifs
    · refine (settles_eraseCallable hT (hT.hasCallable ht hc)).bind fun d T1 hT1 _ hd => ?_
      exact (gives_functionOf hT1 hd).has
    · exact settles_pure hT ht

end Substituting

end Interning

end ShapeCheck
