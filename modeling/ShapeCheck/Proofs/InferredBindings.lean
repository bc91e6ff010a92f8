import ShapeCheck.Proofs.Conditions
import ShapeCheck.Proofs.Instantiation
import ShapeCheck.Proofs.LastingFits
import ShapeCheck.Proofs.Layers
import ShapeCheck.Proofs.StandIns
import ShapeCheck.Proofs.UnificationEnds

/-!
# Inference finds bindings where there are some

The parameters of a generic signature are templates. If some types for its type parameters make
every argument fit its parameter, then inference finds bindings that do so, too. The bindings need
not be the same: each is the union of the types that were found, widened, and so it takes whatever
was found.

Unions are looked into where the template is a parameter, an object or a union with one member that
mentions a parameter. Where an array or a tuple meets a union, nothing is found, and the statement
fails.

* `Inference.infer_accepts` is the statement above, `Inference.not_infer_accepts_mixed` an array
  that meets a union.
-/

namespace ShapeCheck

open Table Interning

variable {v : TypeVar} {i : Nat} {p a q : Ty}

namespace Ty

variable {T : Table} {t : Ty}

theorem fits_widenMember (ht : T.FirstOrder t) :
    T.Fits (T.shape t) (T.shape (widenMember T t)) := by
  unfold widenMember
  cases hs : T.shape t with
  | literal l => exact .base rfl
  | enumMember enum name value =>
    cases ht with
    | primitive => simp [Table.shape] at hs
    | literal h | array h | tuple h | union h | object h => simp [h] at hs
  | _ =>
    simp only [hs]
    exact .refl _

/-- Widening takes in more. -/
theorem settles_widen_fits (hT : T.WellFormed) (ht : T.FirstOrder t) :
    Interning.Settles T t.widen fun T1 w =>
      T1.FirstOrder w ∧ T1.Fits (T1.shape t) (T1.shape w) := by
  have hmember := fun {m : Ty} (hm : m ∈ T.members t) => ht.member hm
  refine settles_get_bind (fun T2 h2 => ?_) ?_
  · have hsame : ∀ {m : Ty}, T.Has m → widenMember T2 m = widenMember T m := by
      intro m hm
      rw [widenMember, widenMember, Table.shape_of_le h2 hm]
    rw [Table.shape_of_le h2 ht.has]
    cases hs : T.shape t with
    | union ms =>
      have hms : ms.map (widenMember T2) = ms.map (widenMember T) :=
        List.map_congr_left fun m hm => hsame (hmember (by simpa [Table.members, hs] using hm)).has
      simp only [hms]
    | _ => simp only [hsame ht.has]
  have hwide := fun {m : Ty} (hm : T.FirstOrder m) => fits_widenMember hm
  cases hs : T.shape t with
  | union ms =>
    simp only [Table.members, hs] at hmember
    have hfirst : ∀ u ∈ ms.map (widenMember T), T.FirstOrder u :=
      List.forall_mem_map.mpr fun m hm => firstOrder_widenMember (hmember hm)
    refine (settles_unites hT hfirst).imp fun w T1 hT1 h1 hw => ⟨hw.firstOrder, ?_⟩
    rw [(ht.of_agrees (.of_le h1.le)).fits_iff_members hT1, members_of_le h1.le ht.has,
      members_of_union hs]
    intro m hm
    refine Table.Fits.trans hT1 ?_ (hw.fits_part hT1 (List.mem_map_of_mem hm))
    exact ((Table.Agrees.of_le h1.le).fits_types_iff (hmember hm)
      (firstOrder_widenMember (hmember hm))).mpr (hwide (hmember hm))
  | _ => exact settles_pure hT ⟨firstOrder_widenMember ht, hwide ht⟩

end Ty

namespace Table

/-- The parameters of the signature are templates over its type parameters; what takes the rest of
the arguments is an array. -/
structure Patterned (T : Table) (c : Callable) : Prop where
  params : ∀ p ∈ c.params, T.Template c.typeParams p.type
  rest : ∀ r ∈ c.rest, T.Template c.typeParams r.type ∧ ∃ e readonly,
    T.shape r.type = .array e readonly

section Places

variable {T T1 : Table} {c d : Callable} {subs : Substitution} {image : Ty → Ty}

theorem Patterned.of_le (h : T.Patterned c) (hle : T ≤ T1) : T1.Patterned c where
  params p hp := (h.params p hp).of_le hle
  rest r hr := by
    obtain ⟨hp, e, readonly, hs⟩ := h.rest r hr
    exact ⟨hp.of_le hle, e, readonly, (shape_of_le hle hp.has).trans hs⟩

theorem Patterned.template_of_mem (h : T.Patterned c)
    (hp : p ∈ c.params.map Parameter.type ++ (c.rest.map Parameter.type).toList) :
    T.Template c.typeParams p := by
  rcases List.mem_append.mp hp with hp | hp
  · obtain ⟨q, hq, rfl⟩ := List.mem_map.mp hp
    exact h.params q hq
  · obtain ⟨q, hq, rfl⟩ := Option.map_eq_some_iff.mp (Option.mem_toList.mp hp)
    exact (h.rest q hq).1

theorem Patterned.template (h : T.Patterned c) (hp : Ty.parameterAt? T c i = some p) :
    T.Template c.typeParams p := by
  unfold Ty.parameterAt? at hp
  cases hq : c.params[i]? with
  | some q =>
    simp only [hq, Option.some.injEq] at hp
    exact hp ▸ h.params q (List.mem_of_getElem? hq)
  | none =>
    cases hr : c.rest with
    | none => simp [hq, hr] at hp
    | some r =>
      obtain ⟨htemplate, e, readonly, hs⟩ := h.rest r hr
      simp only [hq, hr, Ty.restElement, hs, Option.some.injEq] at hp
      exact hp ▸ htemplate.part (by simp [hs, Shape.parts])

/-- The types of the second signature are the images of those of the first one. -/
def Rebuilt (T : Table) (subs : Substitution) (c d : Callable) : Prop :=
  ∃ image : Ty → Ty, d.params.map Parameter.type = (c.params.map Parameter.type).map image ∧
    d.rest.map Parameter.type = (c.rest.map Parameter.type).map image ∧
    ∀ t ∈ c.params.map Parameter.type ++ (c.rest.map Parameter.type).toList,
      T.Image c.typeParams subs t (image t) ∧ T.FirstOrder (image t)

theorem Rebuilt.of_le (h : T.Rebuilt subs c d) (hT : T.WellFormed)
    (hc : T.Patterned c) (hle : T ≤ T1) :
    T1.Rebuilt subs c d := by
  obtain ⟨image, hparams, hrest, himage⟩ := h
  refine ⟨image, hparams, hrest, fun t ht => ?_⟩
  obtain ⟨h, hfirst⟩ := himage t ht
  exact ⟨h.of_le hT (hc.template_of_mem ht) hle, hfirst.of_agrees (.of_le hle)⟩

/-- In a rebuilt signature, every place has the image of its parameter. -/
theorem Rebuilt.parameterAt (h : T.Rebuilt subs c d) (hT : T.WellFormed) (hc : T.Patterned c)
    (hp : Ty.parameterAt? T c i = some p) :
    ∃ q, Ty.parameterAt? T d i = some q ∧ T.Image c.typeParams subs p q ∧ T.FirstOrder q := by
  obtain ⟨image, hparams, hrest, himage⟩ := h
  have hplace : d.params[i]?.map Parameter.type = (c.params[i]?.map Parameter.type).map image := by
    rw [← List.getElem?_map, hparams, List.getElem?_map, List.getElem?_map]
  unfold Ty.parameterAt? at hp ⊢
  cases hq : c.params[i]? with
  | some q =>
    rw [hq, Option.map_some, Option.map_some, Option.map_eq_some_iff] at hplace
    obtain ⟨u, hu, htype⟩ := hplace
    simp only [hq, Option.some.injEq] at hp
    have hin : q.type ∈ c.params.map Parameter.type := List.mem_map_of_mem (List.mem_of_getElem? hq)
    obtain ⟨hq, hfirst⟩ := himage q.type (List.mem_append_left _ hin)
    subst hp
    exact ⟨image q.type, by simp [hu, htype], hq, hfirst⟩
  | none =>
    rw [hq, Option.map_none, Option.map_none, Option.map_eq_none_iff] at hplace
    cases hr : c.rest with
    | none => simp [hq, hr] at hp
    | some r =>
      rw [hr, Option.map_some, Option.map_some, Option.map_eq_some_iff] at hrest
      obtain ⟨u, hu, htype⟩ := hrest
      obtain ⟨htemplate, e, readonly, hs⟩ := hc.rest r hr
      simp only [hq, hr, Ty.restElement, hs, Option.some.injEq] at hp
      subst hp
      obtain ⟨himage, hfirst⟩ := himage r.type (by simp [hr])
      obtain ⟨v, hv, hpart⟩ := himage.element hT htemplate hs
      refine ⟨v, by simp [hplace, hu, Ty.restElement, htype, hv], hpart, ?_⟩
      exact hfirst.part (by simp [hv, Shape.parts])

/-- A substitution that binds all parameters rebuilds the signature. -/
theorem settles_substituteCallable_rebuilt (hT : T.WellFormed) (horderly : T.Orderly)
    (hhas : T.HasCallable c) (hc : T.Patterned c) (hsubs : ∀ b ∈ subs, T.FirstOrder b.2)
    (hsome : subs ≠ []) (hbinds : ∀ v ∈ c.typeParams, (subs.lookup v).isSome) :
    Interning.Settles T (Ty.substituteCallable c subs) fun T1 d =>
      T1.HasCallable d ∧ T1.Rebuilt subs c d := by
  have hstands : T.HasSubstitution subs := fun b hb => (hsubs b hb).has
  have hparts : ∀ t ∈ (Shape.function c).parts, ∀ T1, T1.WellFormed → T.Adds T1 →
      Interning.Settles T1 (t.substitute subs) fun _ _ => True := fun t ht T1 hT1 h1 =>
    (settles_substitute hT1 (hstands.of_le h1.le) (has_of_le h1.le (hhas t ht))).imp
      fun _ _ _ _ _ => trivial
  refine ((settles_rebuildCallable_map (Ty.binds subs) hT hparts).and
    (settles_substituteCallable hT hhas hstands)).imp fun d T1 hT1 h1 h => ?_
  obtain ⟨⟨hparams, hrest, hrests, hrests'⟩, hd, -⟩ := h
  refine ⟨hd, fun t => (t.substitute subs T1).1, ?_, ?_, fun t ht => ?_⟩
  · rw [hparams, List.map_map, List.map_map]
    rfl
  · rw [hrest, Option.map_map, Option.map_map]
    rfl
  · have hat : Interning.Rests T1 (t.substitute subs) := by
      rcases List.mem_append.mp ht with ht | ht
      · obtain ⟨p, hp, rfl⟩ := List.mem_map.mp ht
        exact hrests p hp
      · obtain ⟨p, hp, rfl⟩ := Option.map_eq_some_iff.mp (Option.mem_toList.mp ht)
        exact hrests' p hp
    obtain ⟨himage, hfirst⟩ := (settles_substitute_image hsome
      (fun b hb => (hsubs b hb).of_agrees (.of_le h1.le)) hbinds hT1 (h1.orderly horderly)
      ((hc.template_of_mem ht).of_le h1.le)).of_rests hat
    exact ⟨⟨_, himage⟩, hfirst⟩

/-- Signatures that say the same have the same types. -/
theorem Rebuilt.of_alike {f : Callable} (h : T.Rebuilt subs c d) (halike : f.Alike Eq d) :
    T.Rebuilt subs c f := by
  obtain ⟨image, hparams, hrest, himage⟩ := h
  refine ⟨image, ?_, ?_, himage⟩
  · rw [← hparams, ← forall₂_iff_map_eq]
    exact halike.params.imp fun _ _ h => h.1
  · rw [← hrest]
    exact option_rel_eq_iff.mp halike.rest

end Places

end Table

namespace Inference

open Typing

variable {T T1 : Table} {e : Evidence} {vars : List TypeVar} {subs : Substitution}

/-- The bindings are first-order types that take whatever was found for their parameters. -/
def Accommodates (T : Table) (e : Evidence) (subs : Substitution) : Prop :=
  ∀ b ∈ subs, T.FirstOrder b.2 ∧ ∀ t ∈ e.candidates b.1, T.Fits (T.shape t) (T.shape b.2)

theorem mem_candidates {t : Ty} : t ∈ e.candidates v ↔ (v, t) ∈ e.found := by
  simp [Evidence.candidates, List.mem_filterMap]

theorem Accommodates.of_le (h : Accommodates T e subs) (he : ∀ b ∈ e.found, T.FirstOrder b.2)
    (hle : T ≤ T1) : Accommodates T1 e subs := by
  intro b hb
  obtain ⟨hfirst, hfits⟩ := h b hb
  refine ⟨hfirst.of_agrees (.of_le hle), fun t ht => ?_⟩
  exact ((Table.Agrees.of_le hle).fits_types_iff (he _ (mem_candidates.mp ht)) hfirst).mpr
    (hfits t ht)

/-- The type parameters have neither bounds nor defaults. -/
def Free (T : Table) (vars : List TypeVar) : Prop :=
  ∀ v ∈ vars, T.Knows v ∧ (T.typeVar v).bound = none ∧ (T.typeVar v).default = none

theorem Free.of_le (h : Free T vars) (hle : T ≤ T1) : Free T1 vars := by
  intro v hv
  obtain ⟨hknows, hbound, hdefault⟩ := h v hv
  rw [typeVar_of_le hle hknows]
  exact ⟨knows_of_le hle hknows, hbound, hdefault⟩

/-- The union of what was found, widened. -/
theorem delivers_widen {ts : List Ty} (hT : T.Leads T) (hv : Free T [v])
    (hts : ∀ t ∈ ts, T.FirstOrder t) :
    Delivers T (fun _ => do widen v (← Ty.unionOf ts) subs) fun T1 w =>
      T1.FirstOrder w ∧ ∀ t ∈ ts, T1.Fits (T1.shape t) (T1.shape w) := by
  refine Delivers.bind (delivers_settles hT (settles_unites hT.wellFormed hts))
    fun u T1 h1 hu => ?_
  refine Delivers.bind (delivers_settles h1.self
    (Ty.settles_widen_fits h1.wellFormed hu.firstOrder))
    fun w T2 h2 hw => ?_
  have hbound : (T2.typeVar v).bound = none := ((hv.of_le (h1.trans h2).le) v (by simp)).2.1
  refine delivers_get_bind ?_
  simp only [hbound]
  refine delivers_pure h2.self ⟨hw.1, fun t ht => ?_⟩
  exact ((hu.of_le h1.wellFormed h2.le).fits_part h2.wellFormed ht).trans h2.wellFormed hw.2

/-- **The bindings take the evidence.** -/
theorem delivers_bindings (hT : T.Leads T) (hvars : Free T vars)
    (he : ∀ b ∈ e.found, T.FirstOrder b.2)
    (hsubs : Accommodates T e subs) :
    Delivers T (fun _ => bindings e vars subs) fun T1 σ =>
      Accommodates T1 e σ ∧ σ.map Prod.fst = subs.map Prod.fst ++ vars := by
  induction vars generalizing T subs with
  | nil => exact delivers_pure hT ⟨hsubs, by simp⟩
  | cons v vars ih =>
    have hrest : ∀ u T1, T.Leads T1 → T1.FirstOrder u →
        (∀ t ∈ e.candidates v, T1.Fits (T1.shape t) (T1.shape u)) →
        Delivers T1 (fun _ => bindings e vars (subs ++ [(v, u)])) fun T2 σ =>
          Accommodates T2 e σ ∧ σ.map Prod.fst = subs.map Prod.fst ++ v :: vars := by
      intro u T1 h1 hu htakes
      refine (ih h1.self (fun w hw => hvars.of_le h1.le w (List.mem_cons_of_mem v hw))
        (fun b hb => (he b hb).of_agrees (.of_le h1.le)) fun b hb => ?_).imp
        fun σ T2 h2 h => ⟨h.1, by simpa using h.2⟩
      rcases List.mem_append.mp hb with hb | hb
      · exact hsubs.of_le he h1.le b hb
      · rw [List.mem_singleton.mp hb]
        exact ⟨hu, htakes⟩
    have hfree := hvars v (by simp)
    refine delivers_get_bind ?_
    cases hfound : e.candidates v with
    | nil =>
      simp only [hfree.2.2]
      exact hrest .unknown T hT (.primitive (by simp) (by simp)) (by simp [hfound])
    | cons t ts =>
      have hfirst : ∀ u ∈ t :: ts, T.FirstOrder u := fun u hu =>
        he _ (mem_candidates.mp (hfound ▸ hu))
      have halone : Free T [v] := by simpa [Free] using hfree
      have hwiden : Delivers T (fun _ => do widen v (← Ty.unionOf (t :: ts)) subs) _ :=
        delivers_widen hT halone hfirst
      exact hwiden.bind fun u T1 h1 hu => hrest u T1 h1 hu.1 (hfound ▸ hu.2)

/-! ### The instantiated signature -/

section Instances

variable {c : Callable}

theorem delivers_violation (hT : T.Leads T) (hvars : Free T vars) :
    Delivers T (fun _ => violation? subs vars) fun _ o => o = none := by
  induction vars with
  | nil => exact delivers_pure hT rfl
  | cons v vars ih =>
    refine delivers_get_bind ?_
    simp only [(hvars v (by simp)).2.1]
    exact ih fun w hw => hvars w (List.mem_cons_of_mem v hw)

/-- The outcome is a function type with the images of the parameters. -/
def Fulfills (c : Callable) (subs : Substitution) (T : Table) (r : Except Problem Ty) : Prop :=
  ∃ t d, r = .ok t ∧ T.callable? t = some d ∧ T.Rebuilt subs c d

theorem delivers_instantiate (hT : T.Leads T) (hhas : T.HasCallable c) (hc : T.Patterned c)
    (hvars : Free T c.typeParams) (hsubs : ∀ b ∈ subs, T.FirstOrder b.2) (hsome : subs ≠ [])
    (hbinds : ∀ v ∈ c.typeParams, (subs.lookup v).isSome) :
    Delivers T (fun _ => instantiate c subs) (Fulfills c subs) := by
  refine (delivers_violation hT hvars).bind fun problem T1 h1 hproblem => ?_
  subst hproblem
  have hhas1 := hhas.of_le h1.le
  have hc1 := hc.of_le h1.le
  have hsubs1 := fun b hb => (hsubs b hb).of_agrees (.of_le h1.le)
  have hrebuilt := Table.settles_substituteCallable_rebuilt h1.wellFormed
    h1.orderly hhas1 hc1 hsubs1
    hsome hbinds
  refine Delivers.bind (delivers_settles h1.self hrebuilt) fun d T2 h2 hd => ?_
  refine Delivers.bind (delivers_settles h2.self (gives_functionOf h2.wellFormed hd.1))
    fun t T3 h3 ht => delivers_pure h3.self ?_
  obtain ⟨-, halike⟩ := ht
  cases hs : T3.shape t with
  | function f =>
    rw [hs] at halike
    refine ⟨t, f, rfl, by simp [Table.callable?, hs], ?_⟩
    exact (hd.2.of_le h2.wellFormed (hc1.of_le h2.le) h3.le).of_alike halike
  | _ =>
    rw [hs] at halike
    exact halike.elim

/-! ### The evidence of the arguments -/

/-- Every argument was compared with its parameter. -/
def Covers (c : Callable) (ts : List Ty) (places : List Nat) (T : Table) (e : Evidence) : Prop :=
  ∀ i ∈ places, ∀ p a, Ty.parameterAt? T c i = some p → ts[i]? = some a →
    e.Compared T c.typeParams p a

variable {ts : List Ty}

theorem Covers.of_le {places : List Nat} (h : Covers c ts places T e) (hT : T.WellFormed)
    (hhas : T.HasCallable c) (hle : T ≤ T1) : Covers c ts places T1 e := by
  intro i hi p a hp ha
  rw [Assign.parameterAt?_of_le hle hhas] at hp
  exact (h i hi p a hp ha).of_le hT (has_parameterAt hT hhas hp) hle fun _ h => h

theorem delivers_collect (hT : T.Leads T) (hhas : T.HasCallable c) (hc : T.Patterned c)
    (hts : ∀ t ∈ ts, T.FirstOrder t) (places : List Nat) (hplaces : ∀ i ∈ places, i < ts.length) :
    Delivers T (fun _ => collect c (.ofTypes ts) [] places e) fun T1 e' =>
      e.Extends T1 c.typeParams e' ∧ Covers c ts places T1 e' := by
  induction places generalizing T e with
  | nil => exact delivers_pure hT ⟨.refl T _ e, by simp [Covers]⟩
  | cons i places ih =>
    have hlater : ∀ T1, T.Leads T1 → ∀ e', Delivers T1
      (fun _ => collect c (.ofTypes ts) [] places e')
        fun T2 e'' => e'.Extends T2 c.typeParams e'' ∧ Covers c ts places T2 e'' := fun T1 h1 e' =>
      ih h1.self (hhas.of_le h1.le) (hc.of_le h1.le)
        (fun t ht => (hts t ht).of_agrees (.of_le h1.le))
        fun j hj => hplaces j (List.mem_cons_of_mem i hj)
    refine delivers_get_bind ?_
    cases hp : Ty.parameterAt? T c i with
    | none =>
      refine (hlater T hT e).imp fun e' T1 h1 h => ⟨h.1, fun j hj p a hpj ha => ?_⟩
      rcases List.mem_cons.mp hj with rfl | hj
      · rw [Assign.parameterAt?_of_le h1.le hhas, hp] at hpj
        exact absurd hpj (by simp)
      · exact h.2 j hj p a hpj ha
    | some p =>
      have htemplate := hc.template hp
      have hlt := hplaces i (by simp)
      have hempty : T.HasSubstitution [] := by simp [Table.HasSubstitution]
      have hnone := settles_substitute hT.wellFormed hempty htemplate.has
      refine Delivers.bind (delivers_settles hT hnone) fun expected T1 h1 _ => ?_
      have harg : T1.FirstOrder ts[i] := (hts _ (List.getElem_mem hlt)).of_agrees (.of_le h1.le)
      refine Delivers.bind (Q := fun _ t => t = ts[i]) (delivers_pure h1.self (by simp [hlt]))
        fun t T2 h2 ht => ?_
      subst ht
      have hunify := delivers_unify (e := e) h2.self (htemplate.of_le (h1.trans h2).le)
        (harg.of_agrees (.of_le h2.le))
      refine hunify.bind fun e' T3 h3 he' => ?_
      have h03 := h1.trans (h2.trans h3)
      refine (hlater T3 h03 e').imp fun e'' T4 h4 h => ?_
      refine ⟨he'.1.trans h3.wellFormed h4.le h.1, fun j hj q a hq ha => ?_⟩
      rcases List.mem_cons.mp hj with rfl | hj
      · rw [Assign.parameterAt?_of_le (h03.trans h4).le hhas, hp] at hq
        obtain rfl := Option.some.inj hq
        obtain rfl : ts[j] = a := by simpa [hlt] using ha
        exact he'.2.of_le h3.wellFormed (Table.has_of_le h03.le htemplate.has) h4.le h.1.visited
      · exact h.2 j hj q a hq ha

theorem delivers_evidenceOf (hT : T.Leads T) (hhas : T.HasCallable c) (hc : T.Patterned c)
    (hts : ∀ t ∈ ts, T.FirstOrder t) :
    Delivers T (fun _ => evidenceOf c (.ofTypes ts)) fun T1 e =>
      ({} : Evidence).Extends T1 c.typeParams e ∧ Covers c ts (List.range ts.length) T1 e := by
  have hplaces : (List.range (Arguments.ofTypes ts).count).filter
      (!(Arguments.ofTypes ts).isContextSensitive ·) = List.range ts.length := by
    simp [Arguments.ofTypes]
  have hnone : ∀ T2, (List.range (Arguments.ofTypes ts).count).filter (fun i =>
      (Arguments.ofTypes ts).isContextSensitive i && (Ty.parameterAt? T2 c i).isSome) = [] := by
    simp [Arguments.ofTypes]
  unfold evidenceOf
  simp only [hplaces]
  refine Delivers.bind (delivers_collect hT hhas hc hts _ (by simp)) fun e T1 h1 he => ?_
  refine delivers_get_bind ?_
  simp only [hnone]
  exact delivers_pure h1.self he

/-- The bindings are first-order types that make every argument assignable to its parameter. -/
structure Allows (T : Table) (c : Callable) (ts : List Ty) (subs : Substitution) : Prop where
  firstOrder : ∀ b ∈ subs, T.FirstOrder b.2
  binds : ∀ v ∈ c.typeParams, (subs.lookup v).isSome
  accepts : ∀ i a, ts[i]? = some a → ∃ p q n T1 T2, Ty.parameterAt? T c i = some p ∧
    p.substitute subs T = (q, T1) ∧ a.isAssignableTo q n T1 = some (true, T2)

/-- An argument that fits its parameter with some bindings fits the image of the parameter, wherever
that was made. -/
theorem Allows.fits (h : Allows T c ts subs) (hT : T.Leads T) (hc : T.Patterned c)
    (hsome : subs ≠ []) (hp : Ty.parameterAt? T c i = some p) (hi : ts[i]? = some a)
    (ha : T.FirstOrder a) (h1 : T ≤ T1) (hT1 : T1.WellFormed)
    (hq : T1.Image c.typeParams subs p q) : T1.Fits (T1.shape a) (T1.shape q) := by
  obtain ⟨p', u, n, U, V, hp', hu, hanswer⟩ := h.accepts i a hi
  obtain rfl := Option.some.inj (hp.symm.trans hp')
  have htemplate := hc.template hp
  obtain ⟨u', U', hat, himage, hfirst⟩ :=
    settles_substitute_image hsome h.firstOrder h.binds hT.wellFormed hT.orderly htemplate
  obtain ⟨rfl, rfl⟩ := Prod.mk.inj (hu.symm.trans hat.result)
  have hU := hT.of_settles hat
  have hfits := (hU.faithful.answered (ha.of_agrees (.of_le hU.le)) hfirst hanswer).mp rfl
  exact Table.Image.fits_later ⟨_, himage⟩ hq hT.wellFormed hU.wellFormed hT1 hU.le h1 h.firstOrder
    htemplate ha hfits

/-- An argument that fits its parameter with some bindings fits it with those that take the
evidence. -/
theorem fits_binding {σ τ : Substitution} (hT : T.Leads T) (h1 : T.Leads T1)
    (hc : T.Patterned c) (hallows : Allows T c ts τ) (hsome : τ ≠ [])
    (he : ({} : Evidence).Extends T1 c.typeParams e) (hplain : e.Plain T1 c.typeParams)
    (hcompared : e.Compared T1 c.typeParams p a) (hσ : Accommodates T1 e σ)
    (hp : Ty.parameterAt? T c i = some p) (hi : ts[i]? = some a) (ha : T.FirstOrder a)
    (hq : T1.Image c.typeParams σ p q) (hfirst : T1.FirstOrder q) :
    T1.Fits (T1.shape a) (T1.shape q) := by
  -- the parameter is rebuilt with the other bindings, after the inference
  have hp1 := (hc.template hp).of_le h1.le
  have ha1 := ha.of_agrees (.of_le h1.le)
  obtain ⟨u, T2, hat, himage, -⟩ := settles_substitute_image hsome
    (fun b hb => (hallows.firstOrder b hb).of_agrees (.of_le h1.le)) hallows.binds h1.wellFormed
    h1.orderly hp1
  have hle := hat.adds.le
  have hfits : T2.Fits (T2.shape a) (T2.shape u) :=
    hallows.fits hT hc hsome hp hi ha (h1.le.trans hle) hat.wellFormed ⟨_, himage⟩
  have hextends := he.trans h1.wellFormed hle (.refl T2 _ e)
  have hσ2 := hσ.of_le he.firstOrder hle
  have hfound : ∀ b ∈ e.found, ∀ w, σ.lookup b.1 = some w →
    T2.Fits (T2.shape b.2) (T2.shape w) := by
    intro b hb w hw
    obtain ⟨front, back, rfl, -⟩ := List.lookup_eq_some_iff.mp hw
    exact (hσ2 (b.1, w) (by simp)).2 b.2 (mem_candidates.mpr hb)
  have hbound : T2.Fits (T2.shape a) (T2.shape q) :=
    fits_image hat.wellFormed hextends.closed
    (hplain.of_le h1.wellFormed he hle) hfound (hp1.of_le hle)
      ⟨_, himage⟩ (hq.of_le h1.wellFormed hp1 hle) a (ha1.of_agrees (.of_le hle))
      (hcompared.of_le h1.wellFormed hp1.has hle fun _ h => h) hfits
  exact ((Table.Agrees.of_le hle).fits_types_iff ha1 hfirst).mp hbound

/-- From some number of steps on, the type is found to be assignable to the other one. -/
def Accepted (T : Table) (a q : Ty) : Prop :=
  ∃ k T1, ∀ n, k ≤ n → a.isAssignableTo q n T = some (true, T1)

theorem accepted_of_fits (hT : T.Leads T) (ha : T.FirstOrder a) (hq : T.FirstOrder q)
    (h : T.Fits (T.shape a) (T.shape q)) : Accepted T a q := by
  obtain ⟨b, T1, h1, hb, k, hk⟩ := Ty.delivers_isAssignableTo hT ha hq
  obtain rfl : b = true := hb.mpr (((Table.Agrees.of_le h1.le).fits_types_iff ha hq).mpr h)
  exact ⟨k, T1, fun n hn => hk n n hn hn⟩

/-- Once the evidence is there, inference ends with an instance whose bindings take it. -/
theorem delivers_bound (hT : T.Leads T) (hhas : T.HasCallable c) (hgeneric : c.isGeneric = true)
    (hc : T.Patterned c) (hvars : Free T c.typeParams)
    (he : ({} : Evidence).Extends T c.typeParams e) :
    Delivers T (fun _ => do instantiate c (← bindings e c.typeParams [])) fun T1 r =>
      ∃ σ, Accommodates T1 e σ ∧ Fulfills c σ T1 r := by
  have hfound := he.firstOrder
  refine Delivers.bind (delivers_bindings hT hvars hfound (by simp [Accommodates]))
    fun σ T1 h1 hσ => ?_
  obtain ⟨hσ, hdomain⟩ := hσ
  have hkeys : ∀ v ∈ c.typeParams, (σ.lookup v).isSome := by
    intro v hv
    have hv : v ∈ σ.map Prod.fst := by simpa [hdomain] using hv
    obtain ⟨b, hb, rfl⟩ := List.mem_map.mp hv
    rw [Option.isSome_iff_ne_none, ne_eq, List.lookup_eq_none_iff]
    exact fun hnone => by simpa using hnone b hb
  have hsome : σ ≠ [] := by
    rintro rfl
    simp [Callable.isGeneric] at hgeneric hdomain
    exact hgeneric hdomain
  refine (delivers_instantiate h1.self (hhas.of_le h1.le) (hc.of_le h1.le) (hvars.of_le h1.le)
    (fun b hb => (hσ b hb).1) hsome hkeys).imp fun r T2 h2 hr => ⟨σ, ?_, hr⟩
  exact hσ.of_le (fun b hb => (hfound b hb).of_agrees (.of_le h1.le)) h2.le

/-- **Inference ends**, with an instance whose bindings take the evidence of all arguments. -/
theorem delivers_infer {signature : Ty} (hT : T.Leads T) (hs : T.callable? signature = some c)
    (hgeneric : c.isGeneric = true) (hc : T.Patterned c) (hvars : Free T c.typeParams)
    (hts : ∀ t ∈ ts, T.FirstOrder t)
    (hplain : ∀ n e T1, evidenceOf c (.ofTypes ts) n T = some (e, T1) → e.Plain T1 c.typeParams) :
    Delivers T (fun _ => infer signature (.ofTypes ts) []) fun T1 r => ∃ e σ,
      ({} : Evidence).Extends T1 c.typeParams e ∧ Covers c ts (List.range ts.length) T1 e ∧
        e.Plain T1 c.typeParams ∧ Accommodates T1 e σ ∧ Fulfills c σ T1 r := by
  have hhas := hT.wellFormed.hasCallable (has_of_shape
    (by simp [shape_of_callable? hs])) hs
  have hevidence : Delivers T (fun _ => evidenceOf c (.ofTypes ts)) fun T1 e =>
      ({} : Evidence).Extends T1 c.typeParams e ∧ Covers c ts (List.range ts.length) T1 e ∧
        e.Plain T1 c.typeParams := by
    obtain ⟨e, T1, h1, ⟨he, hcovers⟩, k, hk⟩ := delivers_evidenceOf hT hhas hc hts
    exact ⟨e, T1, h1, ⟨he, hcovers, hplain k e T1 (hk k k (le_refl k) (le_refl k))⟩, k, hk⟩
  refine delivers_get_bind ?_
  simp only [hs]
  rw [if_neg (by simp [hgeneric])]
  refine hevidence.bind fun e T1 h1 he => ?_
  obtain ⟨he, hcovers, hplain⟩ := he
  have hhas1 := hhas.of_le h1.le
  refine (delivers_bound h1.self hhas1 hgeneric (hc.of_le h1.le) (hvars.of_le h1.le) he).imp
    fun r T2 h2 hr => ?_
  obtain ⟨σ, hσ, hr⟩ := hr
  exact ⟨e, σ, he.trans h1.wellFormed h2.le (.refl T2 _ e), hcovers.of_le h1.wellFormed hhas1 h2.le,
    hplain.of_le h1.wellFormed he h2.le, hσ, hr⟩

/-- **Inference does not reject what some bindings accept.** The parameters of a signature are
templates over its type parameters, which have neither bounds nor defaults, and the arguments are
first-order types. If some first-order types for the type parameters make every argument assignable
to its parameter, then inference gives an instance of the signature, and every argument is
assignable to its parameter there. Unions must not meet arrays or tuples when the arguments are
compared with the parameters. -/
theorem infer_accepts (hbuilt : Relation.ReflTransGen Table.Operated {} T) {signature : Ty}
    (hs : T.callable? signature = some c) (hgeneric : c.isGeneric = true) (hc : T.Patterned c)
    (hvars : Free T c.typeParams) (hts : ∀ t ∈ ts, T.FirstOrder t) {τ : Substitution}
    (hallows : Allows T c ts τ)
    (hplain : ∀ n e T1, evidenceOf c (.ofTypes ts) n T = some (e, T1) → e.Plain T1 c.typeParams) :
    ∃ k r T1 d, (∀ n, k ≤ n → infer signature (.ofTypes ts) [] n T = some (.ok r, T1)) ∧
      T1.callable? r = some d ∧ ∀ i a, ts[i]? = some a →
        ∃ q, Ty.parameterAt? T1 d i = some q ∧ Accepted T1 a q := by
  have hT : T.Leads T := ⟨le_refl T, (Table.faithful_empty.operations hbuilt).1,
    orderly_of_operated hbuilt⟩
  have hhas := hT.wellFormed.hasCallable (has_of_shape
    (by simp [shape_of_callable? hs])) hs
  have hsome : τ ≠ [] := by
    rintro rfl
    obtain ⟨v, hv⟩ := List.exists_mem_of_ne_nil c.typeParams
      (by simpa [Callable.isGeneric] using hgeneric)
    simpa using hallows.binds v hv
  obtain ⟨r, T1, h1, hr, k, hk⟩ := delivers_infer hT hs hgeneric hc hvars hts hplain
  obtain ⟨e, σ, he, hcovers, hplain1, hσ, t, d, rfl, hd, hrebuilt⟩ := hr
  refine ⟨k, t, T1, d, fun n hn => hk n n hn hn, hd, fun i a ha => ?_⟩
  obtain ⟨p, -, -, -, -, hp, -⟩ := hallows.accepts i a ha
  have hfirst := hts a (List.mem_of_getElem? ha)
  have hp1 : Ty.parameterAt? T1 c i = some p := by rw [Assign.parameterAt?_of_le h1.le hhas, hp]
  obtain ⟨q, hq, himage, hqfirst⟩ := hrebuilt.parameterAt h1.wellFormed (hc.of_le h1.le) hp1
  refine ⟨q, hq, accepted_of_fits h1.self (hfirst.of_agrees (.of_le h1.le)) hqfirst ?_⟩
  have hcompared : e.Compared T1 c.typeParams p a :=
    hcovers i (List.mem_range.mpr (List.getElem?_eq_some_iff.mp ha).1) p a hp1 ha
  exact fits_binding hT h1 hc hallows hsome he hplain1 hcompared hσ hp ha hfirst himage hqfirst

/-! ### Lists of numbers and of texts -/

/-- Runs of lasting work with any numbers of steps give the same. -/
theorem same_of_lasts {α : Type} {x : Typing α} {V : Table → α → Prop} {n m : Nat} {a b : α}
    {T2 : Table} (h : Repeats T x V) (hx : x n T = some (a, T1)) (hx' : x m T = some (b, T2)) :
    a = b ∧ T1 = T2 := by
  have hsame := ((h n a T1 hx).1.more (max n m) (le_max_left n m)).symm.trans
    ((h m b T2 hx').1.more (max n m) (le_max_right n m))
  exact Prod.mk.inj (Option.some.inj hsame)

/-- The signature `<T>(list: T[], item: T) => void`. -/
def adding : Callable :=
  { typeParams := [⟨0⟩]
    params := [{ name := "list", type := .made 1 }, { name := "item", type := .made 0 }] }

/-- A table with that signature, and with lists of numbers and lists of texts. -/
def lists : Table :=
  [.array (.made 0) false, .function adding, .array .number false, .array .string false].foldl
    (fun T (c : Construction) => (c.run T).2) (Table.declaring { name := "T" } {})

/-- The same table with the union of the two lists. -/
def listsTable : Table := lists.push ⟨.union [.made 3, .made 4], "U:67,68", "number[] | string[]"⟩

theorem shapes_listsTable : listsTable.callable? (.made 2) = some adding ∧
    listsTable.shape (.made 0) = .parameter ⟨0⟩ ∧ listsTable.shape (.made 1) =
    .array (.made 0) false ∧
    listsTable.shape (.made 3) = .array .number false ∧
    listsTable.shape (.made 4) = .array .string false ∧
    listsTable.shape (.made 5) = .union [.made 3, .made 4] := by
  with_unfolding_all decide

theorem resolved_listsTable : listsTable.Resolved := by
  have hT : (Table.declaring { name := "T" } {}).Prepared := .declaring .empty _ (by simp) (by simp)
  have h1 := hT.call (.construct (.array (.made 0) false)
    (by unfold Table.Has; with_unfolding_all decide) trivial)
  have h2 := h1.call (.construct (.function adding)
    (by unfold Table.Has; with_unfolding_all decide) trivial)
  have h3 := h2.call (.construct (.array .number false)
    (by unfold Table.Has; with_unfolding_all decide) trivial)
  have h4 := h3.call (.construct (.array .string false)
    (by unfold Table.Has; with_unfolding_all decide) trivial)
  obtain ⟨hhas, hmembers, hordered, hnew, htext⟩ : (∀ m ∈ [.made 3, .made 4], lists.Has m) ∧
      Ty.unionMembers lists [.made 3, .made 4] = [.made 3, .made 4] ∧
      [Ty.made 3, .made 4].Pairwise (fun a b => lists.inOrder a b = true) ∧
      lists.find? "U:67,68" = none ∧
      lists.shapeText (.union [.made 3, .made 4]) = "number[] | string[]" := by
    unfold Table.Has
    decide +kernel
  have h5 := Table.Prepared.push_union h4 hhas hmembers (by decide) hordered
    (Shape.key_union_ordered (by decide)) hnew htext
  have hnone : listsTable.aliases = [] := by with_unfolding_all decide
  exact .start h5 (Alias.resolveAll_of_undefined hnone 0)

theorem patterned_adding : listsTable.Patterned adding := by
  obtain ⟨-, h0, h1, -⟩ := shapes_listsTable
  have hvar : listsTable.Template adding.typeParams (.made 0) := .parameter h0 (by simp [adding])
  refine ⟨fun p hp => ?_, by simp [adding]⟩
  rcases (by simpa [adding] using hp : p = { name := "list", type := .made 1 } ∨
    p = { name := "item", type := .made 0 }) with rfl | rfl
  · exact .array h1 hvar
  · exact hvar

theorem free_adding : Free listsTable adding.typeParams := by
  intro v hv
  obtain rfl : v = ⟨0⟩ := by simpa [adding] using hv
  exact ⟨by unfold Table.Knows; with_unfolding_all decide, by with_unfolding_all decide,
    by with_unfolding_all decide⟩

theorem firstOrder_listsTable : listsTable.FirstOrder (.made 3) ∧
    listsTable.FirstOrder (.made 5) := by
  obtain ⟨-, -, -, h3, h4, h5⟩ := shapes_listsTable
  have hnumbers : listsTable.FirstOrder (.made 3) := .array h3 (.primitive (by decide) (by decide))
  have htexts : listsTable.FirstOrder (.made 4) := .array h4 (.primitive (by decide) (by decide))
  exact ⟨hnumbers, .union h5 (by simp) (by simp [hnumbers, htexts]) (by simp)⟩

/-- The bindings allow two arguments that are assignable to `unknown[]` and to `unknown`. -/
theorem allows_adding {b : Ty}
    (ha : (a.isAssignableTo ((Ty.made 1).substitute [(⟨0⟩, .unknown)] listsTable).1 9
      ((Ty.made 1).substitute [(⟨0⟩, .unknown)] listsTable).2).map Prod.fst = some true)
    (hb : (b.isAssignableTo ((Ty.made 0).substitute [(⟨0⟩, .unknown)] listsTable).1 9
      ((Ty.made 0).substitute [(⟨0⟩, .unknown)] listsTable).2).map Prod.fst = some true) :
    Allows listsTable adding [a, b] [(⟨0⟩, .unknown)] where
  firstOrder b hb := by
    obtain rfl : b = (⟨0⟩, .unknown) := by simpa using hb
    exact .primitive (by decide) (by decide)
  binds v hv := by
    obtain rfl : v = ⟨0⟩ := by simpa [adding] using hv
    rfl
  accepts i t ht := by
    have hplace : i = 0 ∧ t = a ∨ i = 1 ∧ t = b := by
      rcases i with _ | _ | i <;> simp_all
    rcases hplace with ⟨rfl, rfl⟩ | ⟨rfl, rfl⟩
    · obtain ⟨⟨-, T2⟩, hrun, rfl⟩ := Option.map_eq_some_iff.mp ha
      exact ⟨.made 1, _, 9, _, T2, rfl, rfl, hrun⟩
    · obtain ⟨⟨-, T2⟩, hrun, rfl⟩ := Option.map_eq_some_iff.mp hb
      exact ⟨.made 0, _, 9, _, T2, rfl, rfl, hrun⟩

/-- A list of numbers, and either list to put into it: an instance takes them. -/
theorem infer_accepts_lists : ∃ k r T1 d,
    (∀ n, k ≤ n → infer (.made 2) (.ofTypes [.made 3, .made 5]) [] n listsTable =
    some (.ok r, T1)) ∧
    T1.callable? r = some d ∧ ∀ i a, [Ty.made 3, .made 5][i]? = some a →
      ∃ q, Ty.parameterAt? T1 d i = some q ∧ Accepted T1 a q := by
  obtain ⟨hcallable, h0, -, h3, -, -⟩ := shapes_listsTable
  obtain ⟨hnumbers, heither⟩ := firstOrder_listsTable
  have hfirst : ∀ t ∈ [Ty.made 3, .made 5], listsTable.FirstOrder t := by
    simp [hnumbers, heither]
  refine infer_accepts resolved_listsTable.operated hcallable rfl
    patterned_adding free_adding hfirst
    (allows_adding (by with_unfolding_all decide) (by with_unfolding_all decide))
    fun n e T1 hrun => ?_
  -- a run with nine steps has it all
  have hnine : (evidenceOf adding (.ofTypes [.made 3, .made 5] : Arguments Typing) 9 listsTable).map
      (fun p => p.1.visited) = some [(.made 0, .made 5), (.made 0, .number),
      (.made 1, .made 3)] := by
    decide +kernel
  obtain ⟨⟨e', T2⟩, hrun', (hvisited : e'.visited = _)⟩ := Option.map_eq_some_iff.mp hnine
  have hhas := resolved_listsTable.truthful.sound.wellFormed.hasCallable
    (has_of_shape (by simp [shape_of_callable? hcallable])) hcallable
  have hlasts := repeats_evidenceOf resolved_listsTable.truthful hhas fun t ht => (hfirst t ht).has
  obtain ⟨rfl, rfl⟩ := same_of_lasts hlasts hrun hrun'
  have hle := (hlasts n e T1 hrun).1.grows.le
  have hlist : T1.shape (.made 3) = .array .number false :=
    (Table.shape_of_le hle hnumbers.has).trans h3
  have hparameter : T1.shape (.made 0) = .parameter ⟨0⟩ :=
    (Table.shape_of_le hle (by unfold Table.Has; with_unfolding_all decide)).trans h0
  intro q hq hunion
  rcases (by simpa [hvisited] using hq : q = (.made 0, .made 5) ∨ q = (.made 0, .number) ∨
    q = (.made 1, .made 3)) with rfl | rfl | rfl
  · simp [Table.LooksInside, hparameter]
  · simp [Table.LooksInside, hparameter]
  · simp [hlist, Shape.IsUnion] at hunion

/-- **Where an array meets a union, inference rejects what some bindings accept.** For a list of
numbers or of texts and a truth value, the element type is found to be a truth value. With `unknown`
it takes both. -/
theorem not_infer_accepts_mixed : ∃ (T : Table) (signature : Ty) (c : Callable) (ts : List Ty)
    (τ : Substitution), Relation.ReflTransGen Table.Operated {} T ∧ T.callable? signature = some c ∧
    c.isGeneric = true ∧ T.Patterned c ∧ Free T c.typeParams ∧ (∀ t ∈ ts, T.FirstOrder t) ∧
    Allows T c ts τ ∧ ¬∃ k r T1 d,
      (∀ n, k ≤ n → infer signature (.ofTypes ts) [] n T = some (.ok r, T1)) ∧
      T1.callable? r = some d ∧ ∀ i a, ts[i]? = some a →
        ∃ q, Ty.parameterAt? T1 d i = some q ∧ Accepted T1 a q := by
  obtain ⟨hcallable, -⟩ := shapes_listsTable
  obtain ⟨-, heither⟩ := firstOrder_listsTable
  have hfirst : ∀ t ∈ [Ty.made 5, .boolean], listsTable.FirstOrder t := by
    simpa [heither] using Table.FirstOrder.primitive (by decide) (by decide)
  refine ⟨listsTable, .made 2, adding, [.made 5, .boolean], [(⟨0⟩, .unknown)],
    resolved_listsTable.operated, hcallable, rfl, patterned_adding, free_adding, hfirst,
    allows_adding (by with_unfolding_all decide) (by with_unfolding_all decide), ?_⟩
  rintro ⟨k, r, T1, d, hrun, hd, haccepted⟩
  obtain ⟨q, hq, k', T2, htrue⟩ := haccepted 0 _ rfl
  -- the runs with nine steps give the same instance, and the opposite answer
  have hnine : ((infer (.made 2) (.ofTypes [.made 5, .boolean] : Arguments Typing)
    [] 9 listsTable).map
      fun p => p.1.toOption.map fun r => (p.2.callable? r).map fun d =>
      (Ty.parameterAt? p.2 d 0).map
        fun q => ((Ty.made 5).isAssignableTo q 9 p.2).map Prod.fst) =
      some (some (some (some (some false)))) := by
    decide +kernel
  obtain ⟨⟨outcome, T3⟩, hrun', hnine⟩ := Option.map_eq_some_iff.mp hnine
  obtain ⟨r', hr, hnine⟩ := Option.map_eq_some_iff.mp hnine
  obtain rfl := eq_ok_of_toOption hr
  have hinfers : Repeats _ (infer _ (.ofTypes _) []) _ :=
    repeats_infer resolved_listsTable.truthful hcallable
      (fun v hv => (free_adding v hv).1) (fun t ht => (hfirst t ht).has) (by simp)
  obtain ⟨houtcome, rfl⟩ := same_of_lasts hinfers (hrun k (le_refl k)) hrun'
  obtain rfl := Except.ok.inj houtcome
  simp only [hd, hq, Option.map_some, Option.some.injEq] at hnine
  obtain ⟨⟨b, T4⟩, hfalse, rfl⟩ := Option.map_eq_some_iff.mp hnine
  have hat := (hinfers 9 _ _ hrun').1
  have hwf := hat.ok.sound.wellFormed
  have hparts := hwf.hasCallable (has_of_shape (by simp [shape_of_callable? hd])) hd
  have hasks := repeats_isAssignableTo hat.ok (Table.has_of_le hat.grows.le heither.has)
    (has_parameterAt hwf hparts hq)
  exact Bool.noConfusion (same_of_lasts hasks (htrue k' (le_refl k')) hfalse).1

end Instances

end Inference

end ShapeCheck
