import ShapeCheck.Proofs.Substitutions
import ShapeCheck.Ty.Omission

/-!
# Parameters without a type settle

A substitution in which some parameters have no type rebuilds a type through the constructors, so it
settles as every substitution does. It changes the numbers of parameters of no signature.

* `Omission.settles_substitute` and `Omission.settles_substituteCallable` are about substitutions.
* `Omission.settles_bind` is about the types that the parameters are bound to.
-/

namespace ShapeCheck

variable {t : Ty} {ts : List Ty}

namespace Callable

variable {c d : Callable}

/-- Two signatures have as many parameters, the same of them optional, and both or none has a
rest. -/
structure SameArity (c d : Callable) : Prop where
  params : d.params.map Parameter.optional = c.params.map Parameter.optional
  rest : d.rest.isSome = c.rest.isSome

theorem SameArity.acceptsArity (h : c.SameArity d) (n : Nat) :
    d.acceptsArity n = c.acceptsArity n := by
  have hrequired : ∀ e : Callable, e.required =
    ((e.params.map Parameter.optional).takeWhile (!·)).length := by
    intro e
    rw [required, List.takeWhile_map, List.length_map]
    rfl
  have hlength : d.params.length = c.params.length := by
    rw [← List.length_map Parameter.optional, h.params, List.length_map]
  rw [Callable.acceptsArity, Callable.acceptsArity, hrequired, hrequired, h.params, h.rest, hlength]

theorem SameArity.of_alike {R : Ty → Ty → Prop} {e : Callable} (h : c.SameArity d)
    (halike : e.Alike R d) :
    c.SameArity e where
  params := by
    rw [← h.params]
    have hforall := halike.params
    generalize e.params = ps at hforall
    generalize d.params = qs at hforall
    induction hforall with
    | nil => rfl
    | cons hpq _ ih => rw [List.map_cons, List.map_cons, hpq.2, ih]
  rest := by
    rw [← h.rest]
    have hrel := halike.rest
    cases he : e.rest <;> cases hd : d.rest <;> simp [he, hd] at hrel ⊢

end Callable

namespace Interning

variable {T : Table} {part : Ty → Interning Ty}

theorem map_optional_mapM (ps : List Parameter) (T : Table) :
    (ps.mapM (Ty.rebuildParameter part) T).1.map Parameter.optional =
    ps.map Parameter.optional := by
  induction ps generalizing T with
  | nil => rfl
  | cons p ps ih =>
    rw [List.mapM_cons, bind_apply, bind_apply, List.map_cons]
    change Parameter.optional _ :: List.map _ _ = _
    rw [ih]
    rfl

/-- Rebuilding a signature keeps its arity. -/
theorem sameArity_rebuildCallable (dropped : TypeVar → Bool) (c : Callable) (T : Table) :
    c.SameArity (Ty.rebuildCallable part dropped c T).1 where
  params := map_optional_mapM c.params _
  rest := by
    unfold Ty.rebuildCallable
    simp only [bind_apply]
    cases c.rest with
    | none => rfl
    | some r => rfl

end Interning

namespace Omission

open Interning

variable {T : Table} {nil : Ty} {part : Ty → Interning Ty} {subs : Substitution} {c : Callable}

theorem has_orAny (ht : T.Has t) : T.Has (orAny nil t) := by
  unfold orAny
  split
  · exact T.has_prim _
  · exact ht

theorem has_present (hts : ∀ t ∈ ts, T.Has t) : ∀ t ∈ present nil ts, T.Has t :=
  fun t ht => hts t (List.mem_of_mem_filter ht)

theorem has_filter {o : Option Ty} (ho : ∀ t ∈ o, T.Has t) : ∀ t ∈ o.filter (· ≠ nil), T.Has t :=
  fun t ht => ho t (Option.filter_eq_some_iff.mp ht).1

theorem has_tuple {u : Tuple} (hu : ∀ t ∈ u.elements, T.Has t) :
    ∀ t ∈ (tuple nil u).elements, T.Has t := by
  obtain ⟨hslots, hrest⟩ := Tuple.forall_elements.mp hu
  refine Tuple.forall_elements.mpr ⟨fun s hs => ?_, has_filter hrest⟩
  obtain ⟨s', hs', rfl⟩ := List.mem_map.mp hs
  exact has_orAny (hslots s' hs')

theorem hasCallable_signature (hc : T.HasCallable c) : T.HasCallable (signature nil c) := by
  obtain ⟨hparams, hrest, hreceiver, hresult⟩ := Table.hasCallable_iff.mp hc
  refine Table.hasCallable_iff.mpr ⟨hparams, hrest, has_filter hreceiver, ?_⟩
  dsimp only [signature]
  split
  · exact T.has_prim _
  · exact hresult

theorem settles_members (hpart : PartSettles .all T part) (hT : T.WellFormed) {m : Members}
    (hm : ∀ t ∈ (Shape.object m).parts, T.Has t) :
    Settles T (members nil part m) fun T1 n => ∀ t ∈ (Shape.object n).parts, T1.Has t := by
  obtain ⟨hfields, hindex, hcalls⟩ := Shape.forall_parts_object.mp hm
  refine (settles_rebuildFields hpart hT hfields).bind fun fields T1 hT1 h1 hfs => ?_
  refine (settles_rebuildIndex (hpart.of_le h1.le) hT1
    fun i hi => Table.has_of_le h1.le (hindex i hi)).bind fun index T2 hT2 h2 hix => ?_
  have h02 := h1.trans h2
  refine (settles_parts (hpart.of_le h02.le) hT2
    fun t ht => Table.has_of_le h02.le (hcalls t ht)).bind fun calls T3 hT3 h3 hcs => ?_
  refine settles_pure hT3 (Shape.forall_parts_object.mpr ⟨fun f hf => ?_, fun i hi => ?_, hcs⟩)
  · obtain ⟨f', hf', rfl⟩ := List.mem_map.mp hf
    exact has_orAny (Table.has_of_le (h2.trans h3).le (hfs f' hf'))
  · exact Table.has_of_le h3.le (hix i hi)

/-- One level of a substitution settles when its parts do. -/
theorem settles_substituteStep (hpart : PartSettles .all T part) (hT : T.WellFormed)
    (hsubs : T.HasSubstitution subs) (ht : T.Has t) :
    Settles T (substituteStep nil subs part t) Table.Has := by
  refine settles_get_bind (fun T2 h2 => by rw [Table.shape_of_le h2 ht]) ?_
  have hparts := fun p (hp : p ∈ (T.shape t).parts) => hT.has_part ht hp
  cases hs : T.shape t with
  | parameter v =>
    refine settles_pure hT ?_
    cases hv : subs.lookup v with
    | none => exact ht
    | some u =>
      obtain ⟨front, back, rfl, -⟩ := List.lookup_eq_some_iff.mp hv
      exact hsubs (v, u) (by simp)
  | union ms =>
    rw [hs] at hparts
    refine (settles_parts hpart hT hparts).bind fun us T1 hT1 _ hus => ?_
    exact (settles_unionOf hT1 (has_present hus)).imp fun _ _ _ _ h => h.1
  | intersection ms =>
    rw [hs] at hparts
    refine (settles_parts hpart hT hparts).bind fun us T1 hT1 _ hus => ?_
    exact (settles_intersectionOf hT1 (has_present hus)).imp fun _ _ _ _ h => h.1
  | array element readonly =>
    rw [hs] at hparts
    refine (hpart T element hT (le_refl T) (hparts element (by simp [Shape.parts]))).bind
      fun u T1 hT1 _ hu => ?_
    exact (gives_arrayOf hT1 (has_orAny hu) readonly).has
  | tuple u =>
    rw [hs] at hparts
    refine (settles_rebuildTuple hpart hT hparts).bind fun v T1 hT1 _ hv => ?_
    exact (gives_tupleOf hT1 (has_tuple hv)).has
  | object m =>
    rw [hs] at hparts
    refine (settles_members hpart hT hparts).bind fun n T1 hT1 _ hn => ?_
    exact (gives_objectOf hT1 hn).has
  | function c =>
    rw [hs] at hparts
    refine (settles_rebuildCallable hpart hT _ hparts).bind fun d T1 hT1 _ hd => ?_
    exact (gives_functionOf hT1 (hasCallable_signature hd)).has
  | reference name arguments =>
    rw [hs] at hparts
    dsimp only
    split_ifs
    · exact settles_pure hT ht
    · refine (settles_parts hpart hT hparts).bind fun us T1 hT1 _ hus => ?_
      exact (gives_referenceTo hT1 name hus).has
  | _ => exact settles_pure hT ht

theorem settles_substituteAt (depth : Nat) (hT : T.WellFormed) (hsubs : T.HasSubstitution subs)
    (ht : T.Has t) : Settles T (substituteAt nil subs depth t) Table.Has := by
  induction depth generalizing T t with
  | zero => exact settles_pure hT ht
  | succ depth ih =>
    exact settles_substituteStep (fun T1 u hT1 h1 hu => ih hT1 (hsubs.of_le h1) hu) hT hsubs ht

theorem settles_substitute (hT : T.WellFormed) (hsubs : T.HasSubstitution subs)
    (ht : T.Has t) : Settles T (substitute nil subs t) Table.Has :=
  settles_substituteAt _ hT hsubs ht

theorem settles_substituteCallable (hT : T.WellFormed) (hc : T.HasCallable c)
    (hsubs : T.HasSubstitution subs) :
    Settles T (substituteCallable nil subs c) fun T1 d => T1.HasCallable d ∧ c.SameArity d := by
  have hpart : Converts .all .all T (substitute nil subs) :=
    fun T1 t hT1 h1 ht => settles_substitute hT1 (hsubs.of_le h1) ht
  refine (settles_rebuildCallable hpart hT (Ty.binds subs) hc).result.bind
    fun d T1 hT1 _ hd => settles_pure hT1 ⟨hasCallable_signature hd.1, ?_⟩
  have hsame : c.SameArity (Ty.rebuildCallable (substitute nil subs) (Ty.binds subs) c T).1 :=
    sameArity_rebuildCallable _ c T
  obtain ⟨-, rfl⟩ := hd
  exact ⟨hsame.params, hsame.rest⟩

/-- The types that the parameters are bound to stand in the table. -/
theorem settles_bind (hT : T.WellFormed) (hnil : T.Has nil) (hsubs : T.HasSubstitution subs)
    {vars : List TypeVar} (hvars : ∀ v ∈ vars, T.Knows v) (hts : ∀ t ∈ ts, T.Has t) :
    Settles T (bind nil vars ts subs) Table.HasSubstitution := by
  induction vars generalizing T subs ts with
  | nil => exact settles_pure hT hsubs
  | cons v vars ih =>
    have hrest := fun w hw => hvars w (List.mem_cons_of_mem _ hw)
    cases ts with
    | cons a ts =>
      exact ih hT hnil (hsubs.append (hts a (by simp))) hrest
        fun t ht => hts t (List.mem_cons_of_mem _ ht)
    | nil =>
      refine settles_get_bind (fun T2 h2 => by rw [Table.typeVar_of_le h2 (hvars v (by simp))]) ?_
      have hnext : ∀ t T1, T1.WellFormed → T ≤ T1 → T1.Has t →
          Settles T1 (bind nil vars [] (subs ++ [(v, t)])) Table.HasSubstitution :=
        fun t T1 hT1 h1 ht => ih hT1 (Table.has_of_le h1 hnil) ((hsubs.of_le h1).append ht)
          (fun w hw => Table.knows_of_le h1 (hrest w hw)) (by simp)
      cases hd : (T.typeVar v).default with
      | none => exact hnext nil T hT (le_refl T) hnil
      | some d =>
        exact (settles_substitute hT hsubs (Table.has_of_default hT hd)).bind
          fun t T1 hT1 h1 ht => hnext t T1 hT1 h1.le ht

end Omission

end ShapeCheck
