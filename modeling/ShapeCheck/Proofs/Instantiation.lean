import ShapeCheck.Proofs.Omissions
import ShapeCheck.Proofs.Unification

/-!
# What a call is instantiated with

Inference binds the type parameters of a signature one after the other and then replaces them. All
of this ends with the same result whenever it is done again, so an instance that was found for a
call is found for it for good. It takes as many arguments as the signature does.

* `Regime.asking` is the regime in which types may also be compared and the answers kept.
* `Inference.runs_infer` says that inference runs in every regime in which reading types does.
-/

namespace ShapeCheck

open Table

variable {α β : Type} {x : Typing α} {s t : Ty} {T T2 : Table} {explicit : List Ty}

/-- The regime in which types are made, resolved and compared, and answers are kept. -/
def Regime.asking : Regime where
  ok := Table.Truthful
  grows := Table.Succeeds
  later := Table.Succeeds
  ends := False
  refl := .refl
  trans := .trans
  wellFormed h := h.sound.wellFormed
  settles hT hT1 h _ :=
    ⟨hT.of_le (hT.sound.of_adds hT1 h) h.le h.verdicts, .of_adds hT.sound.wellFormed h⟩
  has h ht := has_of_le h.le ht
  shape h ht := Table.shape_of_le h.le ht
  later_trans := .trans
  later_reach h h' := h'.elim h.trans h.trans
  later_le h := h.le

namespace Typing

variable {V : Table → α → Prop}

theorem runs_asking {y : Typing α} (hT : T.Truthful) (h : Runs .lasting T x y V) :
    Runs .asking T x y V := by
  intro n a T1 hx
  obtain ⟨hat, hv⟩ := h n a T1 hx
  have hadds : T.Adds T1 := hat.grows
  refine ⟨⟨hT.of_le hat.ok hadds.le hadds.verdicts,
    .of_adds hT.sound.wellFormed hadds, hat.more, ?_⟩, hv⟩
  intro m hm T2 h2
  exact hat.again m hm T2 h2.le

/-- **An answer is given for good.** -/
theorem runs_isAssignableTo (hT : T.Truthful) (hs : T.Has s) (ht : T.Has t) :
    Runs .asking T (s.isAssignableTo t) (s.isAssignableTo t) (fun _ _ => True) := by
  intro n b T1 hrun
  obtain ⟨hsucceeds, hsettles⟩ := hT.asked hs ht hrun
  refine ⟨⟨hsettles.truthful, hsucceeds, ?_, fun m hm T2 h2 => hsettles.again T2 h2 m hm⟩, trivial⟩
  intro m hm
  rcases isAssignableTo_cases T s t with ⟨c, -, hknown⟩ | hanew
  · rw [hknown] at hrun ⊢
    exact hrun
  · rw [hanew] at hrun ⊢
    obtain ⟨⟨b', T'⟩, hdecide, hrest⟩ := Option.bind_eq_some_iff.mp hrun
    obtain ⟨hat, -⟩ := Assign.runs_decideAt (K := .lasting) (fun T u => Assign.works_resolve)
      hm [] hT.sound hs ht n b' T' hdecide
    rw [hat.more m hm]
    exact hrest

end Typing

/-- Whether a type stands for nothing is settled when it is made. -/
theorem Table.isNothing_of_le {T1 : Table} (h : T ≤ T1) (hT : T.WellFormed)
    (ht : T.Has t) : T1.isNothing t = T.isNothing t := by
  unfold isNothing
  rw [shape_of_le h ht]
  cases hs : T.shape t with
  | parameter v => simp only [typeVar_of_le h (Assign.knows_of_shape hT hs)]
  | _ => rfl

theorem Table.Truthful.enumMember (hT : T.Truthful) {m : Ty} {e : Enumeration}
    (hs : T.shape t = .enumeration e) (hm : m ∈ e.members) : T.Has m :=
  Assign.has_enumMembers hT.sound.wellFormed hs m hm

/-- Nothing that is read in a table leads out of it. -/
theorem Regime.reads_asking : Regime.asking.Reads .all where
  prim T p := T.has_prim p
  truth T b := T.has_truth b
  part hT ht hp := hT.sound.wellFormed.has_part ht hp
  enumMember hT _ hs hm := hT.enumMember hs hm
  bound hT _ _ hb := has_of_bound hT.sound.wellFormed hb
  length u hT := Ty.settles_tupleLength hT.sound.wellFormed u
  union hT hts := (Interning.settles_unionOf hT.sound.wellFormed hts).imp fun _ _ _ _ h => h.1
  intersection hT hts :=
    (Interning.settles_intersectionOf hT.sound.wellFormed hts).imp fun _ _ _ _ h => h.1
  erase hT ht := Interning.settles_erase hT.sound.wellFormed ht
  resolve hT ht := Typing.runs_asking hT (Ty.lasting_resolve hT.sound ht)
  follow hT ht := Typing.runs_asking hT (Ty.lasting_resolve hT.sound ht)
  compare hT hs ht := Typing.runs_isAssignableTo hT hs ht

namespace Interning

theorem settles_substituteCallable (hT : T.WellFormed) {c : Callable} (hc : T.HasCallable c)
    {subs : Substitution} (hsubs : T.HasSubstitution subs) :
    Settles T (Ty.substituteCallable c subs) (fun T1 d => T1.HasCallable d ∧ c.SameArity d) := by
  have hpart : Converts .all .all T (·.substitute subs) :=
    fun T1 t hT1 h1 ht => settles_substitute hT1 (hsubs.of_le h1) ht
  refine (settles_rebuildCallable hpart hT (Ty.binds subs) hc).result.imp fun d T1 _ _ hd => ?_
  obtain ⟨hparts, rfl⟩ := hd
  exact ⟨hparts, sameArity_rebuildCallable _ c T⟩

end Interning

namespace Typing

section Rules

variable {V : Table → α → Prop} {W : Table → β → Prop}

/-- Whatever the work gives is of a kind, and it gives the same when it is done again. -/
def Repeats (T : Table) (x : Typing α) (V : Table → α → Prop) : Prop := Runs .asking T x x V

theorem repeats_pure {a : α} (hT : T.Truthful) (ha : V T a) : Repeats T (pure a) V :=
  runs_pure (K := .asking) hT ha

theorem Repeats.bind {f : α → Typing β} (hx : Repeats T x V)
    (hf : ∀ a T1, T1.Truthful → T.Succeeds T1 → V T1 a → Repeats T1 (f a) W) :
    Repeats T (x >>= f) W :=
  Runs.bind hx hf

theorem repeats_get_bind {f : Table → Typing α} (hsame : ∀ T2, T ≤ T2 → f T2 = f T)
    (h : Repeats T (f T) V) : Repeats T (get >>= f) V :=
  runs_get_bind (K := .asking) (fun T2 (h2 : T.Succeeds T2) => hsame T2 h2.le) h

theorem repeats_lift {work : Interning α} (hT : T.Truthful) (h : Interning.Settles T work V) :
    Repeats T (liftM work) V :=
  runs_lift (K := .asking) hT h

theorem repeats_isAssignableTo (hT : T.Truthful) (hs : T.Has s) (ht : T.Has t) :
    Repeats T (s.isAssignableTo t) (fun _ _ => True) :=
  runs_isAssignableTo hT hs ht

end Rules

end Typing

namespace Inference

open Typing

section Binding

variable {c : Callable} {subs : Substitution} {e : Evidence} {v : TypeVar} {vars : List TypeVar}

theorem has_lookup (h : T.HasSubstitution subs) (v : TypeVar) :
    T.Has ((subs.lookup v).getD .invalid) := by
  cases hv : subs.lookup v with
  | none => exact T.has_prim _
  | some t =>
    obtain ⟨front, back, rfl, -⟩ := List.lookup_eq_some_iff.mp hv
    exact h (v, t) (by simp)

theorem repeats_widen (hT : T.Truthful) (hv : T.Knows v) (ht : T.Has t)
    (hsubs : T.HasSubstitution subs) : Repeats T (widen v t subs) Table.Has := by
  refine (repeats_lift hT (Ty.settles_widen Regime.reads_asking hT ht)).bind
    fun widened T1 hT1 h1 hwidened => ?_
  have hv1 := knows_of_le h1.le hv
  refine repeats_get_bind (fun T2 h2 => by rw [Table.typeVar_of_le h2 hv1]) ?_
  cases hb : (T1.typeVar v).bound with
  | none => exact repeats_pure hT1 hwidened
  | some bound =>
    dsimp only
    split
    · exact repeats_pure hT1 hwidened
    · have hwf := hT1.sound.wellFormed
      refine (repeats_lift hT1 (Interning.settles_substitute hwf (hsubs.of_le h1.le)
        (has_of_bound hwf hb))).bind fun bound' T2 hT2 h2 hbound => ?_
      have hwidened2 := has_of_le h2.le hwidened
      refine (repeats_isAssignableTo hT2 hwidened2 hbound).bind fun fits T3 hT3 h3 _ => ?_
      split
      · exact repeats_pure hT3 (has_of_le h3.le hwidened2)
      · have ht3 := has_of_le (h1.trans (h2.trans h3)).le ht
        refine (repeats_isAssignableTo hT3 ht3 (has_of_le h3.le hbound)).bind
          fun fits' T4 hT4 h4 _ => ?_
        split
        · exact repeats_pure hT4 (has_of_le h4.le ht3)
        · exact repeats_pure hT4 (has_of_le (h3.trans h4).le hwidened2)

theorem repeats_violation (hT : T.Truthful) (hvars : ∀ v ∈ vars, T.Knows v)
    (hsubs : T.HasSubstitution subs) : Repeats T (violation? subs vars) (fun _ _ => True) := by
  induction vars generalizing T with
  | nil => exact repeats_pure hT trivial
  | cons v vars ih =>
    refine repeats_get_bind (fun T2 h2 => by rw [Table.typeVar_of_le h2 (hvars v (by simp))]) ?_
    have hrest : ∀ T1, T1.Truthful → T.Succeeds T1 →
      Repeats T1 (violation? subs vars) (fun _ _ => True) :=
      fun T1 hT1 h1 => ih hT1 (fun w hw => knows_of_le h1.le
        (hvars w (List.mem_cons_of_mem _ hw)))
        (hsubs.of_le h1.le)
    dsimp only
    cases hb : (T.typeVar v).bound with
    | none => exact hrest T hT (.refl T)
    | some bound =>
      have hwf := hT.sound.wellFormed
      refine (repeats_lift hT (Interning.settles_substitute hwf hsubs
        (has_of_bound hwf hb))).bind fun bound' T1 hT1 h1 hbound => ?_
      refine (repeats_isAssignableTo hT1 (has_lookup (hsubs.of_le h1.le) v) hbound).bind
        fun fits T2 hT2 h2 _ => ?_
      split
      · exact hrest T2 hT2 (h1.trans h2)
      · exact repeats_pure hT2 trivial

/-- The result of an instantiation is a function type that takes as many arguments as the
signature. -/
def Instance (c : Callable) (T : Table) (r : Except Problem Ty) : Prop :=
  ∀ t, r = .ok t → ∃ d, T.callable? t = some d ∧ c.SameArity d

/-- A function type made of a signature of the same arity is an instance. -/
theorem repeats_functionOf (hT : T.Truthful) {d : Callable} (hd : T.HasCallable d ∧ c.SameArity d) :
    Repeats T (do return .ok (← Ty.functionOf d)) (Instance c) := by
  refine (repeats_lift hT (Interning.gives_functionOf hT.sound.wellFormed hd.1)).bind
    fun t T1 hT1 _ ht => ?_
  apply repeats_pure hT1
  intro u hu
  obtain rfl := Except.ok.inj hu
  have halike := ht.2
  unfold callable?
  cases hs : T1.shape t with
  | function f =>
    rw [hs] at halike
    exact ⟨f, rfl, hd.2.of_alike halike⟩
  | _ =>
    rw [hs] at halike
    exact halike.elim

theorem repeats_instantiate (hT : T.Truthful) (hc : T.HasCallable c)
    (hvars : ∀ v ∈ c.typeParams, T.Knows v) (hsubs : T.HasSubstitution subs) :
    Repeats T (instantiate c subs) (Instance c) := by
  refine (repeats_violation hT hvars hsubs).bind fun problem T1 hT1 h1 _ => ?_
  cases problem with
  | some problem => exact repeats_pure hT1 (by simp [Instance])
  | none =>
    exact (repeats_lift hT1 (Interning.settles_substituteCallable hT1.sound.wellFormed
      (hc.of_le h1.le) (hsubs.of_le h1.le))).bind fun d T2 hT2 _ hd => repeats_functionOf hT2 hd

theorem requiredCount_of_le (h : T ≤ T2) (hvars : ∀ v ∈ vars, T.Knows v) :
    requiredCount T2 vars = requiredCount T vars := by
  induction vars with
  | nil => rfl
  | cons v vars ih =>
    have hrest := ih fun w hw => hvars w (List.mem_cons_of_mem _ hw)
    unfold requiredCount at hrest ⊢
    rw [List.takeWhile_cons, List.takeWhile_cons, Table.typeVar_of_le h (hvars v (by simp))]
    split
    · rw [List.length_cons, List.length_cons, hrest]
    · rfl

/-- What stands for nothing is made once and found again. -/
theorem findIdx?_typeVars_of_le (h : T ≤ T2) {p : TypeVarInfo → Bool} {i : Nat}
    (hi : T.typeVars.findIdx? p = some i) : T2.typeVars.findIdx? p = some i := by
  have hkept : ∀ j (hj : j < T.typeVars.size), ∃ hj' : j < T2.typeVars.size,
      T2.typeVars[j] = T.typeVars[j] := fun j hj =>
    Array.getElem?_eq_some_iff.mp (h.typeVars j _ (Array.getElem?_eq_getElem hj))
  obtain ⟨hlt, hp, hfirst⟩ := Array.findIdx?_eq_some_iff_getElem.mp hi
  obtain ⟨hlt', heq⟩ := hkept i hlt
  refine Array.findIdx?_eq_some_iff_getElem.mpr ⟨hlt', heq ▸ hp, fun j hj => ?_⟩
  obtain ⟨_, heqj⟩ := hkept j (by omega)
  rw [heqj]
  exact hfirst j hj

theorem nothing_apply (T : Table) : Omission.nothing T =
    match T.typeVars.findIdx? (·.name = nothingName) with
    | some i => Ty.parameterOf ⟨i⟩ T
    | none =>
      Ty.parameterOf ⟨T.typeVars.size⟩ (Ty.newTypeVar { name := nothingName } T).2 := by
  change (match T.typeVars.findIdx? (·.name = nothingName) with
    | some i => Ty.parameterOf ⟨i⟩
    | none =>
      do Ty.parameterOf (← Ty.newTypeVar { name := nothingName }) : Interning Ty) T = _
  cases T.typeVars.findIdx? (·.name = nothingName) with
  | some i => rfl
  | none => rfl

theorem repeats_nothing (hT : T.Truthful) : Repeats T (liftM Omission.nothing) Table.Has := by
  have hwf := hT.sound.wellFormed
  cases hfound : T.typeVars.findIdx? (·.name = nothingName) with
  | some i =>
    have hknows : T.Knows ⟨i⟩ := (Array.findIdx?_eq_some_iff_getElem.mp hfound).1
    refine repeats_lift hT (Interning.settles_get_bind (fun T2 h2 => ?_) ?_)
    · rw [findIdx?_typeVars_of_le h2 hfound, hfound]
    · rw [hfound]
      exact (Interning.gives_parameterOf hwf hknows).has
  | none =>
    -- the parameter is declared, and every later table has it in the same place
    let info : TypeVarInfo := { name := nothingName }
    have hdeclared : T.Called (Ty.newTypeVar info T).2 :=
      .declare info (by simp [info]) (by simp [info])
    obtain ⟨hsucceeds, htruthful⟩ := hT.succeeds (.single hdeclared)
    have hknows : (Ty.newTypeVar info T).2.Knows ⟨T.typeVars.size⟩ := by
      simp [Table.Knows, Ty.newTypeVar]
    obtain ⟨u, T', hat, hu⟩ :=
      (Interning.gives_parameterOf htruthful.sound.wellFormed hknows).has
    have hrun : Omission.nothing T = (u, T') := by
      rw [nothing_apply, hfound]
      exact hat.result
    intro n t T1 h
    obtain ⟨rfl, rfl⟩ := Prod.mk.inj (hrun.symm.trans (Option.some.inj h))
    have hcalls := (Relation.ReflTransGen.single hdeclared).tail
      (.construct (.parameter ⟨T.typeVars.size⟩) (by simp [Construction.inputs]) hknows)
    have hplace : T'.typeVars.findIdx? (·.name = nothingName) = some T.typeVars.size := by
      rw [hat.adds.typeVars, Ty.newTypeVar, Array.findIdx?_push, hfound]
      simp [info]
    have hlast : ((Construction.parameter ⟨T.typeVars.size⟩).run (Ty.newTypeVar info T).2).2 = T' :=
      congrArg Prod.snd hat.result
    rw [hlast] at hcalls
    obtain ⟨hgrows, hok⟩ := hT.succeeds hcalls
    refine ⟨⟨hok, hgrows, fun m _ => congrArg some hrun, fun m _ T2 h2 => congrArg some ?_⟩, hu⟩
    have h2 : T'.Succeeds T2 := h2
    change Omission.nothing T2 = (u, T2)
    rw [nothing_apply, findIdx?_typeVars_of_le h2.le hplace]
    exact hat.again T2 h2.le

/-- A violated bound is found again where some parameters have no type. -/
theorem repeats_violation_omitting (hT : T.Truthful) {nil : Ty} (hvars : ∀ v ∈ vars, T.Knows v)
    (hsubs : T.HasSubstitution subs) :
    Repeats T (Omission.violation? nil subs vars) (fun _ _ => True) := by
  induction vars generalizing T with
  | nil => exact repeats_pure hT trivial
  | cons v vars ih =>
    refine repeats_get_bind (fun T2 h2 => by rw [Table.typeVar_of_le h2 (hvars v (by simp))]) ?_
    have hrest : ∀ T1, T1.Truthful → T.Succeeds T1 →
        Repeats T1 (Omission.violation? nil subs vars) (fun _ _ => True) := fun T1 hT1 h1 =>
      ih hT1 (fun w hw => knows_of_le h1.le (hvars w (List.mem_cons_of_mem _ hw)))
        (hsubs.of_le h1.le)
    dsimp only
    cases hb : (T.typeVar v).bound with
    | none => exact hrest T hT (.refl T)
    | some bound =>
      have hwf := hT.sound.wellFormed
      refine (repeats_lift hT (Omission.settles_substitute hwf hsubs
        (has_of_bound hwf hb))).bind fun bound' T1 hT1 h1 hbound => ?_
      have hfits : Repeats T1 (Omission.fits nil ((subs.lookup v).getD .invalid) bound')
          (fun _ _ => True) := by
        unfold Omission.fits
        split
        · exact repeats_pure hT1 trivial
        · exact repeats_isAssignableTo hT1 (has_lookup (hsubs.of_le h1.le) v) hbound
      refine hfits.bind fun fits T2 hT2 h2 _ => ?_
      split
      · exact hrest T2 hT2 (h1.trans h2)
      · exact repeats_pure hT2 trivial

theorem repeats_instantiate_omitting (hT : T.Truthful) (hc : T.HasCallable c)
    (hvars : ∀ v ∈ c.typeParams, T.Knows v) (hexplicit : ∀ t ∈ explicit, T.Has t) :
    Repeats T (Omission.instantiate c explicit) (Instance c) := by
  refine (repeats_nothing hT).bind fun nil T1 hT1 h1 hnil => ?_
  have hvars1 : ∀ v ∈ c.typeParams, T1.Knows v := fun v hv => knows_of_le h1.le (hvars v hv)
  refine (repeats_lift hT1 (Omission.settles_bind hT1.sound.wellFormed hnil
    (by simp [Table.HasSubstitution]) hvars1 fun t ht =>
    has_of_le h1.le (hexplicit t ht))).bind
    fun subs T2 hT2 h2 hsubs => ?_
  refine (repeats_violation_omitting hT2 (fun v hv => knows_of_le h2.le (hvars1 v hv))
    hsubs).bind fun problem T3 hT3 h3 _ => ?_
  cases problem with
  | some problem => exact repeats_pure hT3 (by simp [Instance])
  | none =>
    exact (repeats_lift hT3 (Omission.settles_substituteCallable hT3.sound.wellFormed
      (hc.of_le (h1.trans (h2.trans h3)).le) (hsubs.of_le h3.le))).bind
      fun d T4 hT4 _ hd => repeats_functionOf hT4 hd

theorem repeats_bindExplicit (hT : T.Truthful) (hc : T.HasCallable c)
    (hvars : ∀ v ∈ c.typeParams, T.Knows v) (hexplicit : ∀ t ∈ explicit, T.Has t) :
    Repeats T (bindExplicit c explicit) (Instance c) := by
  have hdefaults : ∀ T2, T ≤ T2 → ((c.typeParams.drop explicit.length).all fun v =>
      (T2.typeVar v).default.isSome) = (c.typeParams.drop explicit.length).all fun v =>
        (T.typeVar v).default.isSome := fun T2 h2 => by
    rw [Bool.eq_iff_iff, List.all_eq_true, List.all_eq_true]
    exact forall₂_congr fun v hv => by
      rw [Table.typeVar_of_le h2 (hvars v (List.mem_of_mem_drop hv))]
  refine repeats_get_bind (fun T2 h2 => by
    rw [requiredCount_of_le h2 hvars, hdefaults T2 h2]) ?_
  dsimp only
  split
  · exact repeats_pure hT (by simp [Instance])
  · split
    · refine (repeats_lift hT (Expansion.settles_bindArguments c.typeParams
        hT.sound.wellFormed hvars
        hexplicit (by simp [Table.HasSubstitution]))).bind fun subs T1 hT1 h1 hsubs => ?_
      exact repeats_instantiate hT1 (hc.of_le h1.le)
        (fun v hv => knows_of_le h1.le (hvars v hv)) hsubs
    · exact repeats_instantiate_omitting hT hc hvars hexplicit

theorem repeats_bindings (hT : T.Truthful) (hvars : ∀ v ∈ vars, T.Knows v) (he : e.In .all T)
    (hsubs : T.HasSubstitution subs) : Repeats T (bindings e vars subs) Table.HasSubstitution := by
  induction vars generalizing T subs with
  | nil => exact repeats_pure hT hsubs
  | cons v vars ih =>
    have hv := hvars v (by simp)
    have hrest : ∀ t T1, T1.Truthful → T.Succeeds T1 → T1.Has t →
        Repeats T1 (bindings e vars (subs ++ [(v, t)])) Table.HasSubstitution :=
      fun t T1 hT1 h1 ht =>
        ih hT1 (fun w hw => knows_of_le h1.le (hvars w (List.mem_cons_of_mem _ hw)))
          (fun p hp => has_of_le h1.le (he p hp)) ((hsubs.of_le h1.le).append ht)
    refine repeats_get_bind (fun T2 h2 => by rw [Table.typeVar_of_le h2 hv]) ?_
    have hcandidates := he.candidate v
    cases hfound : e.candidates v with
    | nil =>
      cases hd : (T.typeVar v).default with
      | none => exact hrest .unknown T hT (.refl T) (T.has_prim _)
      | some d =>
        have hhas : T.Has d := has_of_default hT.sound.wellFormed hd
        exact (repeats_lift hT (Interning.settles_substitute hT.sound.wellFormed hsubs hhas)).bind
          hrest
    | cons t ts =>
      rw [hfound] at hcandidates
      have hunion := Interning.settles_unionOf hT.sound.wellFormed hcandidates
      have hbound : Repeats T (do widen v (← Ty.unionOf (t :: ts)) subs) Table.Has :=
        (repeats_lift hT hunion).bind fun u T1 hT1 h1 hu =>
          repeats_widen hT1 (knows_of_le h1.le hv) hu.1 (hsubs.of_le h1.le)
      exact hbound.bind hrest

end Binding

section Calls

variable {c : Callable} {ts : List Ty} {e : Evidence}

theorem has_argument (hts : ∀ t ∈ ts, T.Has t) (i : Nat) : T.Has ((ts[i]?).getD .invalid) := by
  cases hi : ts[i]? with
  | none => exact T.has_prim _
  | some t => exact hts t (List.mem_of_getElem? hi)

theorem repeats_collect (hT : T.Truthful) (hc : T.HasCallable c) (hts : ∀ t ∈ ts, T.Has t)
    (he : e.In .all T) (places : List Nat) :
    Repeats T (collect c (.ofTypes ts) [] places e) (fun T1 e' => e'.In .all T1) := by
  induction places generalizing T e with
  | nil => exact repeats_pure hT he
  | cons i places ih =>
    have hrest : ∀ e' T1, T1.Truthful → T.Succeeds T1 → e'.In .all T1 →
        Repeats T1 (collect c (.ofTypes ts) [] places e') (fun T2 e' => e'.In .all T2) :=
      fun e' T1 hT1 h1 he' => ih hT1 (hc.of_le h1.le)
        (fun t ht => has_of_le h1.le (hts t ht)) he'
    refine repeats_get_bind (fun T2 h2 => by rw [Assign.parameterAt?_of_le h2 hc]) ?_
    cases hp : Ty.parameterAt? T c i with
    | none => exact hrest e T hT (.refl T) he
    | some p =>
      have hhas := has_parameterAt hT.sound.wellFormed hc hp
      refine (repeats_lift hT (Interning.settles_substitute hT.sound.wellFormed
        (by simp [Table.HasSubstitution]) hhas)).bind fun expected T1 hT1 h1 _ => ?_
      have harg : T1.Has ((ts[i]?).getD .invalid) := has_of_le h1.le (has_argument hts i)
      refine Repeats.bind (V := Table.Has) (repeats_pure hT1 harg) fun t T2 hT2 h2 ht => ?_
      have h02 := h1.trans h2
      have hunify : Repeats T2 (unify c.typeParams e p t) (fun T3 e' => e'.In .all T3) :=
        runs_unify Regime.reads_asking hT2 (has_of_le h02.le hhas) ht
          fun p hp => has_of_le h02.le (he p hp)
      exact hunify.bind fun e' T3 hT3 h3 he' => hrest e' T3 hT3 (h02.trans h3) he'

theorem repeats_evidenceOf (hT : T.Truthful) (hc : T.HasCallable c) (hts : ∀ t ∈ ts, T.Has t) :
    Repeats T (evidenceOf c (.ofTypes ts)) (fun T1 e => e.In .all T1) := by
  have hempty : ({} : Evidence).In .all T := fun p hp => absurd hp (by simp)
  refine (repeats_collect hT hc hts hempty _).bind fun e T1 hT1 h1 he => ?_
  have hnone : ∀ T2, (List.range (Arguments.ofTypes ts).count).filter (fun i =>
      (Arguments.ofTypes ts).isContextSensitive i && (Ty.parameterAt? T2 c i).isSome) = [] := by
    intro T2
    simp [Arguments.ofTypes]
  refine repeats_get_bind (fun T2 _ => by simp only [hnone]) ?_
  simp only [hnone]
  exact repeats_pure hT1 he

/-- **Inference lasts.** -/
theorem repeats_infer (hT : T.Truthful) {signature : Ty} (hs : T.callable? signature = some c)
    (hvars : ∀ v ∈ c.typeParams, T.Knows v) (hts : ∀ t ∈ ts, T.Has t)
    (hexplicit : ∀ t ∈ explicit, T.Has t) :
    Repeats T (infer signature (.ofTypes ts) explicit) (Instance c) := by
  have hhas : T.Has signature := has_of_shape (by simp [shape_of_callable? hs])
  have hc := hT.sound.wellFormed.hasCallable hhas hs
  refine repeats_get_bind (fun T2 h2 => by rw [callable?_of_le h2 hhas]) ?_
  simp only [hs]
  have hself : Instance c T (.ok signature) := by
    intro t ht
    obtain rfl := Except.ok.inj ht
    exact ⟨c, hs, rfl, rfl⟩
  split
  · split
    · exact repeats_pure hT hself
    · exact repeats_pure hT (by simp [Instance])
  · split
    · exact repeats_bindExplicit hT hc hvars hexplicit
    · refine (repeats_evidenceOf hT hc hts).bind fun e T1 hT1 h1 he => ?_
      have hvars1 : ∀ v ∈ c.typeParams, T1.Knows v :=
        fun v hv => knows_of_le h1.le (hvars v hv)
      refine (repeats_bindings hT1 hvars1 he (by simp [Table.HasSubstitution])).bind
        fun subs T2 hT2 h2 hsubs => ?_
      exact repeats_instantiate hT2 (hc.of_le (h1.trans h2).le)
        (fun v hv => knows_of_le h2.le (hvars1 v hv)) hsubs

end Calls

end Inference

end ShapeCheck
