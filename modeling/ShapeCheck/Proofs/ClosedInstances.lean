import ShapeCheck.Proofs.Unification

/-!
# Instantiated signatures are closed

A call of a generic signature binds its type parameters: to what the arguments give for them, to the
written type arguments, to their defaults, or to `unknown`. Wherever a binding comes from, it avoids
the parameters of the signature, and every parameter is bound in the end. So the substitution leaves
none of them in the signature.

* `Regime.hiding` is the regime in which the parameters are kept secluded and answers are kept, too:
  `Regime.reads_hiding` says that no reading leads to types that refer to them.
* `Inference.stays_bindings` and `Inference.stays_bindArguments` say that all parameters are bound
  to types that avoid them.
* `Inference.infer_closed` is about the result of a call, `Inference.not_infer_closed_forward` about
  a default that refers to a later parameter.
-/

namespace ShapeCheck

open Interning

variable {vars rest : List TypeVar} {T : Table} {s t : Ty} {v : TypeVar} {e : Evidence}
  {explicit : List Ty}

open Table

/-- The second table still keeps the parameters secluded, and it has the types of the first. -/
structure Table.Preserves (vars : List TypeVar) (T T1 : Table) : Prop where
  secluded : T1.Secluded vars
  has : ∀ u, T.Has u → T1.Has u
  shape : ∀ u, T.Has u → T1.shape u = T.shape u
  typeVars : T1.typeVars = T.typeVars

namespace Table

variable {T1 T2 : Table}

theorem Preserves.refl (hT : T.Secluded vars) : Preserves vars T T :=
  ⟨hT, fun _ hu => hu, fun _ _ => rfl, rfl⟩

theorem Preserves.trans (h : Preserves vars T T1) (h' : Preserves vars T1 T2) :
    Preserves vars T T2 where
  secluded := h'.secluded
  has u hu := h'.has u (h.has u hu)
  shape u hu := (h'.shape u (h.has u hu)).trans (h.shape u hu)
  typeVars := h'.typeVars.trans h.typeVars

theorem Preserves.avoids (h : Preserves vars T T1) (ht : T.Avoids vars t) : T1.Avoids vars t :=
  ht.of_shapes h.has h.shape

theorem Preserves.typeVar (h : Preserves vars T T1) (v : TypeVar) : T1.typeVar v = T.typeVar v := by
  rw [Table.typeVar, Table.typeVar, h.typeVars]

/-- Where there is no alias and no bound, nothing leads from one type to another. -/
theorem secluded_of_bare (hT : T.WellFormed) (haliases : T.aliases = [])
    (hinstances : T.instances = [])
    (hbounds : T.typeVars.toList.all (·.bound.isNone) = true) : T.Secluded vars := by
  refine ⟨hT, by simp [haliases], by simp [haliases], by simp [haliases], by simp [hinstances], ?_⟩
  simp [typeVar_bound_of_unbounded hbounds]

/-- The second table has the types of the first, and they are what they were. -/
structure Retains (T T1 : Table) : Prop where
  has : ∀ u, T.Has u → T1.Has u
  shape : ∀ u, T.Has u → T1.shape u = T.shape u
  typeVars : T1.typeVars = T.typeVars

theorem Retains.of_evolves (h : T.Evolves T1) : T.Retains T1 :=
  ⟨fun _ hu => h.has hu, fun _ hu => h.shape hu, h.typeVars⟩

theorem Retains.preserves (h : T.Retains T1) (hT1 : T1.Secluded vars) : Preserves vars T T1 :=
  ⟨hT1, h.has, h.shape, h.typeVars⟩

theorem retains_keeping (s t : Ty) (b : Bool) (T : Table) : T.Retains (T.keeping s t b) := by
  have hle := le_keeping s t b T
  refine ⟨fun _ hu => has_of_le hle hu, fun _ hu => shape_of_le hle hu, ?_⟩
  unfold Table.keeping
  split <;> rfl

end Table

/-- The regime in which some type parameters are kept secluded, and answers may be kept. -/
def Regime.hiding (vars : List TypeVar) : Regime where
  ok T := T.Secluded vars
  grows := Table.Retains
  later _ _ := False
  ends := False
  refl _ := ⟨fun _ hu => hu, fun _ _ => rfl, rfl⟩
  trans h h' := ⟨fun u hu => h'.has u (h.has u hu),
    fun u hu => (h'.shape u (h.has u hu)).trans (h.shape u hu), h'.typeVars.trans h.typeVars⟩
  wellFormed h := h.wellFormed
  settles hT hT1 h hinstances := ⟨hT.of_adds hT1 h hinstances, .of_evolves (.of_adds h)⟩
  has h ht := h.has _ ht
  shape h ht := h.shape _ ht
  later_trans _ h := h
  later_reach h _ := h.elim
  later_le h := Table.le_of_false h

namespace Typing

theorem runs_hiding {α : Type} {x y : Typing α}
    {V : Table → α → Prop} (h : Runs (.secluded vars) T x y V) : Runs (.hiding vars) T x y V := by
  intro n a T1 hx
  obtain ⟨hat, hv⟩ := h n a T1 hx
  have hgrows : T.Evolves T1 := hat.grows
  exact ⟨⟨hat.ok, .of_evolves hgrows, hat.more, fun _ _ _ h2 => h2.elim⟩, hv⟩

/-- Comparing any two types keeps the parameters secluded. -/
theorem runs_isAssignableTo_hiding (hT : T.Secluded vars) (hs : T.Has s) (ht : T.Has t) :
    Runs (.hiding vars) T (s.isAssignableTo t) (s.isAssignableTo t) (fun _ _ => True) := by
  intro n b T1 hrun
  rcases isAssignableTo_cases T s t with ⟨c, -, hknown⟩ | hanew
  · rw [hknown] at hrun
    obtain ⟨rfl, rfl⟩ := Prod.mk.inj (Option.some.inj hrun)
    exact ⟨⟨hT, (Regime.hiding vars).refl T, fun m _ => hknown m, fun _ _ _ h2 => h2.elim⟩, trivial⟩
  · rw [hanew] at hrun
    obtain ⟨⟨b', T'⟩, hdecide, hrest⟩ := Option.bind_eq_some_iff.mp hrun
    have hdecides : ∀ m, n ≤ m → RunsAt (.secluded vars) T n (Assign.decideAt m [] s t) b' T' := by
      intro m hm
      refine (Assign.runs_decideAt (K := .secluded vars) (fun U u hU hu => ?_) hm [] hT hs ht
        n b' T' hdecide).1
      exact ⟨(Ty.runs_resolve_secluded hU hu).imp fun _ _ _ _ h => h.1, False.elim⟩
    have hat := hdecides n (Nat.le_refl n)
    have hgrows : T.Evolves T' := hat.grows
    have hsecluded : T'.Secluded vars := hat.ok
    have hkept := hrest
    rw [← hgrows.frozen] at hkept
    obtain ⟨rfl, rfl⟩ : b' = b ∧ T'.keeping s t b' = T1 := Prod.mk.inj (Option.some.inj hkept)
    refine ⟨⟨hsecluded.keeping s t b',
      (Regime.hiding vars).trans (.of_evolves hgrows) (retains_keeping s t b' T'), fun m hm => ?_,
      fun _ _ _ h2 => h2.elim⟩, trivial⟩
    rw [hanew, (hdecides m hm).more m hm]
    exact hrest

end Typing

/-- Nothing that is read of types that avoid the parameters refers to them. -/
theorem Regime.reads_hiding (vars : List TypeVar) :
    (Regime.hiding vars).Reads (.avoiding vars) where
  prim T p := avoids_prim T vars p
  truth T b := avoids_truth T vars b
  part _ ht hp := Avoids.parts ht _ hp
  enumMember hT ht hs hm := Avoids.enumMember ht hT.wellFormed hs hm
  bound hT ht hs hb := Ty.avoids_bound hT ht hs hb
  length u hT := Ty.settles_tupleLength_avoiding vars hT.wellFormed u
  union hT hts := settles_unionOf_avoiding hT.wellFormed hts
  intersection hT hts := settles_intersectionOf_avoiding hT.wellFormed hts
  erase hT ht := settles_erase_avoiding hT.wellFormed ht
  resolve hT ht := Typing.runs_hiding (Ty.runs_resolve_avoiding hT ht)
  follow hT ht := Typing.runs_hiding ((Ty.runs_resolve_secluded hT ht).imp fun _ _ _ _ h => h.1)
  compare hT hs ht := Typing.runs_isAssignableTo_hiding hT hs ht

namespace Typing

/-- Whatever the work gives is of a kind, and the parameters are still secluded. -/
def Stays {α : Type} (vars : List TypeVar) (T : Table) (x : Typing α)
    (Q : Table → α → Prop) : Prop :=
  ∀ n a T1, x n T = some (a, T1) → Preserves vars T T1 ∧ Q T1 a

section Rules

variable {α β : Type} {Q Q' : Table → α → Prop}

theorem stays_pure (hT : T.Secluded vars) {a : α} (ha : Q T a) : Stays vars T (pure a) Q := by
  intro n b T1 hrun
  obtain ⟨rfl, rfl⟩ := Prod.mk.inj (Option.some.inj hrun)
  exact ⟨.refl hT, ha⟩

theorem Stays.bind {x : Typing α} {f : α → Typing β} {R : Table → β → Prop} (hx : Stays vars T x Q)
    (hf : ∀ a T1, Preserves vars T T1 → Q T1 a → Stays vars T1 (f a) R) :
    Stays vars T (x >>= f) R := by
  intro n b T2 hrun
  obtain ⟨a, T1, ha, hb⟩ := bind_some hrun
  obtain ⟨h1, hq⟩ := hx n a T1 ha
  obtain ⟨h2, hr⟩ := hf a T1 h1 hq n b T2 hb
  exact ⟨h1.trans h2, hr⟩

theorem stays_get_bind {f : Table → Typing α} (h : Stays vars T (f T) Q) :
    Stays vars T (get >>= f) Q :=
  h

theorem stays_lift_get_bind {f : Table → Interning α} (h : Stays vars T (liftM (f T)) Q) :
    Stays vars T (liftM (get >>= f)) Q := h

theorem stays_of_runs {x y : Typing α} (h : Runs (.hiding vars) T x y Q) : Stays vars T x Q := by
  intro n a T1 hrun
  obtain ⟨hat, ha⟩ := h n a T1 hrun
  exact ⟨Retains.preserves hat.grows hat.ok, ha⟩

theorem stays_lift {work : Interning α} (hT : T.Secluded vars) (h : Interning.Settles T work Q) :
    Stays vars T (liftM work) Q :=
  stays_of_runs (y := liftM work) (runs_lift (K := .hiding vars) hT h)

theorem stays_isAssignableTo (hT : T.Secluded vars) (hs : T.Has s) (ht : T.Has t) :
    Stays vars T (s.isAssignableTo t) (fun _ _ => True) :=
  stays_of_runs (runs_isAssignableTo_hiding hT hs ht)

end Rules

end Typing

namespace Inference

open Typing

section Binding

variable {done : List TypeVar} {T1 : Table} {c : Callable} {subs : Substitution}

/-- The parameters so far are bound, to types that avoid all of them. -/
structure Binds (vars done : List TypeVar) (T : Table) (subs : Substitution) : Prop where
  images : ∀ b ∈ subs, T.Avoids vars b.2
  binds : ∀ v ∈ done, Ty.binds subs v = true

theorem Binds.of_preserves (h : Binds vars done T subs) (h1 : Preserves vars T T1) :
    Binds vars done T1 subs :=
  ⟨fun b hb => h1.avoids (h.images b hb), h.binds⟩

theorem Binds.has (h : Binds vars done T subs) : T.HasSubstitution subs :=
  fun b hb => (h.images b hb).has

theorem binds_nil : Binds vars [] T [] := ⟨by simp, by simp⟩

theorem Binds.append (h : Binds vars done T subs) (ht : T.Avoids vars t) :
    Binds vars (done ++ [v]) T (subs ++ [(v, t)]) := by
  refine ⟨fun b hb => ?_, fun w hw => ?_⟩
  · rcases List.mem_append.mp hb with hb | hb
    · exact h.images b hb
    · obtain rfl := List.mem_singleton.mp hb
      exact ht
  · rw [Ty.binds, List.lookup_append]
    rcases List.mem_append.mp hw with hw | hw
    · have hbound := h.binds w hw
      rw [Ty.binds] at hbound
      simp [hbound]
    · obtain rfl := List.mem_singleton.mp hw
      simp

/-- A substitution reaches all parameters of the signature, and a default refers to earlier
parameters only. -/
structure Closes (T : Table) (c : Callable) : Prop where
  has : T.HasCallable c
  parts : ∀ p ∈ (Shape.function c).parts, T.Clears c.typeParams c.typeParams p
  defaults : ∀ done v rest, c.typeParams = done ++ v :: rest →
    ∀ d ∈ (T.typeVar v).default, T.Clears c.typeParams done d

theorem Closes.of_preserves (h : Closes T c) (h1 : Preserves vars T T1) : Closes T1 c where
  has p hp := h1.has p (h.has p hp)
  parts p hp := (h.parts p hp).of_shapes h1.has h1.shape
  defaults done v rest hsplit d hd := by
    rw [h1.typeVar] at hd
    exact (h.defaults done v rest hsplit d hd).of_shapes h1.has h1.shape

/-- The default of a parameter avoids all of them once the earlier ones are bound. -/
theorem Closes.settles_default (h : Closes T c) (hT : T.WellFormed)
    (hsplit : c.typeParams = done ++ v :: rest) {d : Ty} (hd : (T.typeVar v).default = some d)
    (hsubs : Binds c.typeParams done T subs) :
    Interning.Settles T (d.substitute subs) (fun T1 t => T1.Avoids c.typeParams t) :=
  settles_substitute_avoiding hsubs.binds hT hsubs.images
    (h.defaults done v rest hsplit d hd)

theorem Evidence.In.of_preserves (he : e.In (.avoiding vars) T)
    (h : Preserves vars T T1) : e.In (.avoiding vars) T1 :=
  fun p hp => h.avoids (he p hp)

theorem stays_unify (hT : T.Secluded vars) {p : Ty} (hp : T.Has p) (ht : T.Avoids vars t)
    (he : e.In (.avoiding vars) T) :
    Stays vars T (unify vars e p t) (fun T1 e' => e'.In (.avoiding vars) T1) :=
  stays_of_runs (runs_unify (Regime.reads_hiding vars) hT hp ht he)

/-- Widening a binding keeps to types that avoid the parameters, whatever its bound refers to. -/
theorem stays_widen (hT : T.Secluded vars) (v : TypeVar) (ht : T.Avoids vars t)
    (hsubs : T.HasSubstitution subs) :
    Stays vars T (widen v t subs) (fun T1 u => T1.Avoids vars u) := by
  refine (stays_lift hT (Ty.settles_widen (Regime.reads_hiding vars) hT ht)).bind
    fun widened T1 h1 hwidened => stays_get_bind ?_
  have ht1 := h1.avoids ht
  cases hb : (T1.typeVar v).bound with
  | none => exact stays_pure h1.secluded hwidened
  | some bound =>
    dsimp only
    split
    · exact stays_pure h1.secluded hwidened
    · have hsubs1 : T1.HasSubstitution subs := fun b hb => h1.has _ (hsubs b hb)
      refine (stays_lift h1.secluded (settles_substitute h1.secluded.wellFormed hsubs1
        (has_of_bound h1.secluded.wellFormed hb))).bind fun bound' T2 h2 hbound => ?_
      have hwidened2 := h2.avoids hwidened
      refine (stays_isAssignableTo h2.secluded hwidened2.has hbound).bind fun fits T3 h3 _ => ?_
      split
      · exact stays_pure h3.secluded (h3.avoids hwidened2)
      · have ht3 := h3.avoids (h2.avoids ht1)
        refine (stays_isAssignableTo h3.secluded ht3.has (h3.has _ hbound)).bind
          fun fits' T4 h4 _ => ?_
        split
        · exact stays_pure h4.secluded (h4.avoids ht3)
        · exact stays_pure h4.secluded (h4.avoids (h3.avoids hwidened2))

/-- Looking for a bound that is violated keeps the parameters secluded. -/
theorem stays_violation (hT : T.Secluded vars) (hsubs : T.HasSubstitution subs)
    (vs : List TypeVar) :
    Stays vars T (violation? subs vs) (fun _ _ => True) := by
  induction vs generalizing T with
  | nil => exact stays_pure hT trivial
  | cons v vs ih =>
    refine stays_get_bind ?_
    dsimp only
    cases hb : (T.typeVar v).bound with
    | none => exact ih hT hsubs
    | some bound =>
      refine (stays_lift hT (settles_substitute hT.wellFormed hsubs
        (has_of_bound hT.wellFormed hb))).bind fun bound' T1 h1 hbound => ?_
      have hsubs1 : T1.HasSubstitution subs := fun b hb => h1.has _ (hsubs b hb)
      have hown : T1.Has ((subs.lookup v).getD .invalid) := by
        cases hv : subs.lookup v with
        | none => exact T1.has_prim _
        | some t =>
          obtain ⟨front, back, rfl, -⟩ := List.lookup_eq_some_iff.mp hv
          exact hsubs1 (v, t) (by simp)
      refine (stays_isAssignableTo h1.secluded hown hbound).bind fun fits T2 h2 _ => ?_
      split
      · exact ih h2.secluded fun b hb => h2.has _ (hsubs1 b hb)
      · exact stays_pure h2.secluded trivial

/-- The result of an instantiation declares none of the parameters and refers to none of them. -/
def Closed (vars : List TypeVar) (T : Table) (r : Except Problem Ty) : Prop :=
  ∀ t, r = .ok t → T.Avoids vars t ∧ (T.callable? t).isSome = true

/-- **Binding all parameters closes the signature.** -/
theorem stays_instantiate (hT : T.Secluded c.typeParams) (hc : Closes T c)
    (hsubs : Binds c.typeParams c.typeParams T subs) :
    Stays c.typeParams T (instantiate c subs) (Closed c.typeParams) := by
  refine (stays_violation hT hsubs.has c.typeParams).bind fun problem T1 h1 _ => ?_
  cases problem with
  | some problem => exact stays_pure h1.secluded (by simp [Closed])
  | none =>
    have hsubs1 := hsubs.of_preserves h1
    refine (stays_lift h1.secluded (settles_substituteCallable_avoiding hsubs1.binds
      h1.secluded.wellFormed hsubs1.images (fun _ _ hv => hv) (hc.of_preserves h1).parts)).bind
      fun d T2 h2 hd => ?_
    have hwf := h2.secluded.wellFormed
    have hgives := (settles_functionOf_avoiding hwf hd.1 hd.2).and
      (gives_functionOf hwf fun p hp => (hd.2 p hp).has)
    refine (stays_lift h2.secluded hgives).bind fun t T3 h3 ht => ?_
    refine stays_pure h3.secluded fun u hu => ?_
    obtain rfl := Except.ok.inj hu
    refine ⟨ht.1, ?_⟩
    have halike := ht.2.2
    unfold Table.callable?
    cases hs : T3.shape t with
    | function _ => rfl
    | _ =>
      rw [hs] at halike
      exact halike.elim

/-- A binding is the union of what was found, widened. -/
theorem stays_candidate (hT : T.Secluded vars) (v : TypeVar)
    (hsubs : T.HasSubstitution subs) {found : List Ty} (hfound : ∀ t ∈ found, T.Avoids vars t) :
    Stays vars T (do widen v (← Ty.unionOf found) subs) (fun T1 u => T1.Avoids vars u) := by
  refine (stays_lift hT (settles_unionOf_avoiding hT.wellFormed hfound)).bind
    fun u T1 h1 hu => ?_
  exact stays_widen h1.secluded v hu fun b hb => h1.has _ (hsubs b hb)

/-- **The evidence binds all parameters**, one after the other. -/
theorem stays_bindings (hsplit : c.typeParams = done ++ rest)
    (hT : T.Secluded c.typeParams) (hc : Closes T c) (he : e.In (.avoiding c.typeParams) T)
    (hsubs : Binds c.typeParams done T subs) :
    Stays c.typeParams T (bindings e rest subs) (Binds c.typeParams c.typeParams) := by
  induction rest generalizing T done subs with
  | nil =>
    rw [List.append_nil] at hsplit
    exact stays_pure hT (hsplit ▸ hsubs)
  | cons v rest ih =>
    have hnext : c.typeParams = (done ++ [v]) ++ rest := by simpa using hsplit
    have hrest : ∀ t T1, Preserves c.typeParams T T1 → T1.Avoids c.typeParams t →
        Stays c.typeParams T1 (bindings e rest (subs ++ [(v, t)]))
        (Binds c.typeParams c.typeParams) :=
      fun t T1 h1 ht => ih hnext h1.secluded (hc.of_preserves h1) (he.of_preserves h1)
        ((hsubs.of_preserves h1).append ht)
    refine stays_get_bind ?_
    have hcandidates := he.candidate v
    cases hfound : e.candidates v with
    | nil =>
      cases hd : (T.typeVar v).default with
      | none => exact hrest .unknown T (.refl hT) (avoids_prim T _ _)
      | some d =>
        exact (stays_lift hT (hc.settles_default hT.wellFormed hsplit hd hsubs)).bind hrest
    | cons t ts =>
      rw [hfound] at hcandidates
      exact (stays_candidate hT v hsubs.has hcandidates).bind hrest

/-- The bindings known so far avoid the parameters, too. -/
theorem stays_partialBindings (hT : T.Secluded vars) (he : e.In (.avoiding vars) T)
    (vs : List TypeVar) :
    Stays vars T (partialBindings e vs) (fun T1 subs => ∀ b ∈ subs, T1.Avoids vars b.2) := by
  induction vs generalizing T with
  | nil => exact stays_pure hT (by simp)
  | cons v vs ih =>
    unfold partialBindings
    have hcandidates := he.candidate v
    cases hfound : e.candidates v with
    | nil => exact ih hT he
    | cons t ts =>
      rw [hfound] at hcandidates
      refine (stays_lift hT (settles_unionOf_avoiding hT.wellFormed hcandidates)).bind
        fun u T1 h1 hu => ?_
      refine (stays_widen h1.secluded v hu (by simp [HasSubstitution])).bind fun w T2 h2 hw => ?_
      refine (ih h2.secluded (he.of_preserves (h1.trans h2))).bind fun subs T3 h3 hsubs => ?_
      refine stays_pure h3.secluded fun b hb => ?_
      rcases List.mem_cons.mp hb with rfl | hb
      · exact h3.avoids hw
      · exact hsubs b hb

/-- **Written arguments and defaults bind all parameters.** -/
theorem stays_bindArguments {arguments : List Ty}
    (hsplit : c.typeParams = done ++ rest) (hT : T.Secluded c.typeParams) (hc : Closes T c)
    (hargs : ∀ t ∈ arguments, T.Avoids c.typeParams t) (hsubs : Binds c.typeParams done T subs) :
    Stays c.typeParams T (liftM (Expansion.bindArguments rest arguments subs))
      (Binds c.typeParams c.typeParams) := by
  induction rest generalizing T done subs arguments with
  | nil =>
    rw [List.append_nil] at hsplit
    exact stays_pure hT (hsplit ▸ hsubs)
  | cons v rest ih =>
    have hnext : c.typeParams = (done ++ [v]) ++ rest := by simpa using hsplit
    cases arguments with
    | cons a arguments =>
      exact ih hnext hT hc (fun t ht => hargs t (List.mem_cons_of_mem _ ht))
        (hsubs.append (hargs a (by simp)))
    | nil =>
      have hdefault : Stays c.typeParams T (liftM (Expansion.defaultFor v subs))
          (fun T1 t => T1.Avoids c.typeParams t) := by
        unfold Expansion.defaultFor
        refine stays_lift_get_bind ?_
        cases hd : (T.typeVar v).default with
        | none => exact stays_pure hT (avoids_prim T _ _)
        | some d => exact stays_lift hT (hc.settles_default hT.wellFormed hsplit hd hsubs)
      exact hdefault.bind (f := fun d => liftM (Expansion.bindArguments rest [] (subs ++ [(v, d)])))
        fun t T1 h1 ht => ih hnext h1.secluded (hc.of_preserves h1) (by simp)
          ((hsubs.of_preserves h1).append ht)

/-- Every parameter that written type arguments leave out has a default. -/
def Filled (T : Table) (c : Callable) (explicit : List Ty) : Prop :=
  ∀ v ∈ c.typeParams.drop explicit.length, (T.typeVar v).default.isSome = true

theorem stays_bindExplicit (hT : T.Secluded c.typeParams) (hc : Closes T c)
    (hfilled : Filled T c explicit) (hexplicit : ∀ t ∈ explicit, T.Avoids c.typeParams t) :
    Stays c.typeParams T (bindExplicit c explicit) (Closed c.typeParams) := by
  refine stays_get_bind ?_
  dsimp only
  split
  · exact stays_pure hT (by simp [Closed])
  · rw [if_pos (List.all_eq_true.mpr hfilled)]
    refine (stays_bindArguments (List.nil_append _).symm hT hc hexplicit binds_nil).bind
      fun subs T1 h1 hsubs => ?_
    exact stays_instantiate h1.secluded (hc.of_preserves h1) hsubs

end Binding

section Calls

variable {c : Callable} {arguments : Arguments Typing}

/-- Whenever they are asked for, the arguments have types that avoid the parameters. -/
def Offers (vars : List TypeVar) (T : Table) (arguments : Arguments Typing) : Prop :=
  ∀ T1 i expected, Preserves vars T T1 → (∀ t ∈ expected, T1.Has t) →
    Stays vars T1 (arguments.type i expected) (fun T2 t => T2.Avoids vars t)

theorem offers_ofTypes {ts : List Ty} (hts : ∀ t ∈ ts, T.Avoids vars t) :
    Offers vars T (.ofTypes ts) := by
  intro T1 i expected h1 _
  refine stays_pure h1.secluded ?_
  cases hi : ts[i]? with
  | none => exact avoids_prim T1 vars _
  | some t => exact h1.avoids (hts t (List.mem_of_getElem? hi))

/-- Collecting evidence finds types that avoid the parameters. -/
theorem stays_collect {places : List Nat} {subs : Substitution} (hT : T.Secluded c.typeParams)
    (hc : T.HasCallable c) (hargs : Offers c.typeParams T arguments)
    (hsubs : ∀ b ∈ subs, T.Avoids c.typeParams b.2) (he : e.In (.avoiding c.typeParams) T) :
    Stays c.typeParams T (collect c arguments subs places e)
    (fun T1 e' => e'.In (.avoiding c.typeParams) T1) := by
  induction places generalizing T e with
  | nil => exact stays_pure hT he
  | cons i places ih =>
    refine stays_get_bind ?_
    cases hp : Ty.parameterAt? T c i with
    | none => exact ih hT hc hargs hsubs he
    | some p =>
      have hhas := has_parameterAt hT.wellFormed hc hp
      refine (stays_lift hT (settles_substitute hT.wellFormed
        (fun b hb => (hsubs b hb).has) hhas)).bind fun expected T1 h1 hexpected => ?_
      refine (hargs T1 i (some expected) h1 (by simpa using hexpected)).bind fun t T2 h2 ht => ?_
      have h02 := h1.trans h2
      refine (stays_unify h2.secluded (h02.has _ hhas) ht (he.of_preserves h02)).bind
        fun e' T3 h3 he' => ?_
      have h03 := h02.trans h3
      exact ih h3.secluded (fun p hp => h03.has _ (hc p hp))
        (fun T4 j ex h4 hex => hargs T4 j ex (h03.trans h4) hex)
        (fun b hb => h03.avoids (hsubs b hb)) he'

/-- The evidence of all arguments avoids the parameters. -/
theorem stays_evidenceOf (hT : T.Secluded c.typeParams) (hc : T.HasCallable c)
    (hargs : Offers c.typeParams T arguments) :
    Stays c.typeParams T (evidenceOf c arguments)
    (fun T1 e => e.In (.avoiding c.typeParams) T1) := by
  have hempty : ({} : Evidence).In (.avoiding c.typeParams) T := fun p hp => absurd hp (by simp)
  refine (stays_collect hT hc hargs (by simp) hempty).bind fun e T1 h1 he => stays_get_bind ?_
  split
  · exact stays_pure h1.secluded he
  · refine (stays_partialBindings h1.secluded he c.typeParams).bind fun subs T2 h2 hsubs => ?_
    have h02 := h1.trans h2
    exact stays_collect h2.secluded (fun p hp => h02.has _ (hc p hp))
      (fun T3 j ex h3 hex => hargs T3 j ex (h02.trans h3) hex) hsubs (he.of_preserves h2)

/-- **Inference closes a generic signature**, whatever its arguments depend on. -/
theorem stays_infer {signature : Ty} (hT : T.Secluded c.typeParams)
    (hs : T.callable? signature = some c) (hgeneric : c.isGeneric = true) (hc : Closes T c)
    (hargs : Offers c.typeParams T arguments) (hfilled : explicit ≠ [] → Filled T c explicit)
    (hexplicit : ∀ t ∈ explicit, T.Avoids c.typeParams t) :
    Stays c.typeParams T (infer signature arguments explicit) (Closed c.typeParams) := by
  refine stays_get_bind ?_
  simp only [hs]
  rw [if_neg (by simp [hgeneric])]
  split
  · next hwritten =>
    exact stays_bindExplicit hT hc (hfilled (by simpa using hwritten)) hexplicit
  · refine (stays_evidenceOf hT hc.has hargs).bind fun e T1 h1 he => ?_
    have hc1 := hc.of_preserves h1
    refine (stays_bindings (List.nil_append _).symm h1.secluded hc1 he binds_nil).bind
      fun subs T2 h2 hsubs => ?_
    exact stays_instantiate h2.secluded (hc1.of_preserves h2) hsubs

/-- **An instantiated signature is closed**: if inference succeeds for a generic signature, then the
result is a function type that declares none of the type parameters and refers to none of them, be
it in its parameters, its rest parameter, its receiver or its result. The types of the arguments
avoid the parameters, and so does what the table leads to; a default refers to earlier parameters
only, nothing in the signature hides a parameter from the substitution, and where type arguments are
written those that are left out have defaults. -/
theorem infer_closed {signature r : Ty} {explicit : List Ty} (hT : T.Secluded c.typeParams)
    (hs : T.callable? signature = some c) (hgeneric : c.isGeneric = true) (hc : Closes T c)
    (hargs : Offers c.typeParams T arguments) (hfilled : explicit ≠ [] → Filled T c explicit)
    (hexplicit : ∀ t ∈ explicit, T.Avoids c.typeParams t) {n : Nat} {T1 : Table}
    (hrun : infer signature arguments explicit n T = some (.ok r, T1)) :
    ∃ d, T1.callable? r = some d ∧ (∀ v ∈ d.typeParams, v ∉ c.typeParams) ∧
      (∀ t ∈ (Shape.function d).parts, T1.Avoids c.typeParams t) ∧
      Ty.mentions T1 c.typeParams r = false := by
  obtain ⟨-, hclosed⟩ := stays_infer hT hs hgeneric hc hargs hfilled hexplicit n _ T1 hrun
  obtain ⟨hr, hcallable⟩ := hclosed r rfl
  obtain ⟨d, hd⟩ := Option.isSome_iff_exists.mp hcallable
  have hshape : T1.shape r = .function d := shape_of_callable? hd
  have hdeclared := hr.free
  have hparts := hr.parts
  rw [hshape] at hdeclared hparts
  exact ⟨d, hd, hdeclared, hparts, hr.mentions⟩

end Calls

/-- The signature `<T, U = T[]>(x: T) => U`. -/
def listing : Callable :=
  { typeParams := [⟨0⟩, ⟨1⟩], params := [{ name := "x", type := .made 0 }], result := .made 2 }

/-- A table with that signature. -/
def listingTable : Table :=
  let T := declaring { name := "T" } {}
  let T := declaring { name := "U", default := some (.made 1) } (Ty.arrayOf (.made 0) false T).2
  (Ty.functionOf listing T).2

theorem prepared_listingTable : listingTable.Prepared := by
  have h1 : (declaring { name := "T" } {}).Prepared :=
    Prepared.empty.declaring _ (by simp) (by simp)
  have h2 := h1.call (.construct (.array (.made 0) false) (by with_unfolding_all decide) trivial)
  have h3 := h2.declaring { name := "U", default := some (.made 1) } (by simp)
    (by with_unfolding_all decide)
  exact h3.call (.construct (.function listing) (by with_unfolding_all decide) trivial)

theorem shapes_listingTable : listingTable.shape (.made 0) = .parameter ⟨0⟩ ∧
    listingTable.shape (.made 1) = .array (.made 0) false ∧
    listingTable.shape (.made 2) = .parameter ⟨1⟩ ∧
    listingTable.callable? (.made 3) = some listing := by
  with_unfolding_all decide

theorem closes_listing : Closes listingTable listing := by
  obtain ⟨hx, hlist, hresult, -⟩ := shapes_listingTable
  refine ⟨by unfold HasCallable; with_unfolding_all decide, fun p hp => ?parts,
    fun done v rest hsplit d hd => ?defaults⟩
  case parts =>
    have hp : p = .made 0 ∨ p = .made 2 := by simpa [listing, Shape.parts] using hp
    rcases hp with rfl | rfl
    · exact .parameter hx (by simp [listing])
    · exact .parameter hresult (by simp [listing])
  case defaults =>
    -- only the second parameter has a default, the lists of the first one
    have hplace : done = [] ∧ v = ⟨0⟩ ∨ done = [⟨0⟩] ∧ v = ⟨1⟩ := by
      rcases done with _ | ⟨w, _ | ⟨u, done⟩⟩ <;> simp_all [listing]
    rcases hplace with ⟨rfl, rfl⟩ | ⟨rfl, rfl⟩
    · have hdefault : (listingTable.typeVar ⟨0⟩).default = none := by with_unfolding_all decide
      exact absurd (hdefault.symm.trans hd) (by simp)
    · have hdefault : (listingTable.typeVar ⟨1⟩).default = some (.made 1) := by
        with_unfolding_all decide
      obtain rfl := Option.some.inj (hdefault.symm.trans hd)
      refine .rebuilt (by simp [hlist, Shape.isRebuilt]) (by simp [hlist, Shape.ownVars])
        (by simp [hlist]) fun p hp => ?_
      obtain rfl : p = .made 0 := by simpa [hlist, Shape.parts] using hp
      exact .parameter hx (by simp)

/-- Given a number, it becomes `(x: number) => number[]`: the default is a list of what the first
parameter is bound to. -/
theorem infer_closed_listing : ∃ r T1 d,
    infer (.made 3) (.ofTypes [.number] : Arguments Typing) [] 9 listingTable = some (.ok r, T1) ∧
    T1.callable? r = some d ∧ T1.text r = "(x: number) => number[]" ∧
    (∀ t ∈ (Shape.function d).parts, T1.Avoids listing.typeParams t) := by
  have hrun : ((infer (.made 3) (.ofTypes [.number] : Arguments Typing) [] 9 listingTable).map
      fun p => p.1.toOption.map p.2.text) = some (some "(x: number) => number[]") := by
    decide +kernel
  obtain ⟨⟨outcome, T1⟩, h, hprinted⟩ := Option.map_eq_some_iff.mp hrun
  obtain ⟨r, hr, htext⟩ := Option.map_eq_some_iff.mp hprinted
  obtain rfl := eq_ok_of_toOption hr
  have hsecluded : listingTable.Secluded listing.typeParams :=
    secluded_of_bare prepared_listingTable.ready.wellFormed (by with_unfolding_all decide)
      (by with_unfolding_all decide) (by with_unfolding_all decide)
  obtain ⟨d, hd, -, hparts, -⟩ := infer_closed hsecluded
    shapes_listingTable.2.2.2 rfl closes_listing
    (offers_ofTypes (by simp [avoids_prim])) (by simp) (by simp) h
  exact ⟨r, T1, d, h, hd, htext, hparts⟩

/-- The signature `<T = U, U = string>() => T`. -/
def forward : Callable := { typeParams := [⟨1⟩, ⟨0⟩], result := .made 1 }

/-- A table with that signature. -/
def forwardTable : Table :=
  let T := declaring { name := "T", default := some (.made 0) }
    (declaring { name := "U", default := some .string } {})
  (Ty.functionOf forward T).2

theorem prepared_forwardTable : forwardTable.Prepared := by
  have h1 : (declaring { name := "U", default := some .string } {}).Prepared :=
    Prepared.empty.declaring _ (by simp) (by simp)
  have h2 := h1.declaring { name := "T", default := some (.made 0) } (by simp)
    (by with_unfolding_all decide)
  exact h2.call (.construct (.function forward) (by with_unfolding_all decide) trivial)

/-- **A default that refers to a later parameter stays open**: that parameter is not bound yet when
the default is substituted, so the result refers to it. -/
theorem not_infer_closed_forward : ∃ (T : Table) (signature : Ty) (c : Callable),
    T.Prepared ∧ T.Secluded c.typeParams ∧ T.callable? signature = some c ∧ c.isGeneric = true ∧
    ∃ r T1 d, infer signature (.ofTypes [] : Arguments Typing) [] 9 T = some (.ok r, T1) ∧
      T1.callable? r = some d ∧ Ty.mentions T1 c.typeParams d.result = true := by
  have hrun : ((infer (.made 2) (.ofTypes [] : Arguments Typing) [] 9 forwardTable).map fun p =>
      p.1.toOption.map fun r => (p.2.callable? r).map fun d =>
        Ty.mentions p.2 forward.typeParams d.result) = some (some (some true)) := by
    decide +kernel
  obtain ⟨⟨outcome, T1⟩, h, hmentions⟩ := Option.map_eq_some_iff.mp hrun
  obtain ⟨r, hr, hmentions⟩ := Option.map_eq_some_iff.mp hmentions
  obtain ⟨d, hd, hmentions⟩ := Option.map_eq_some_iff.mp hmentions
  obtain rfl := eq_ok_of_toOption hr
  refine ⟨forwardTable, .made 2, forward, prepared_forwardTable,
    secluded_of_bare prepared_forwardTable.ready.wellFormed (by decide +kernel) (by decide +kernel)
      (by decide +kernel), by decide +kernel, rfl, r, T1, d, h, hd, hmentions⟩

end Inference

end ShapeCheck
