import ShapeCheck.Proofs.Calling
import ShapeCheck.Proofs.PropertyAgreement

/-!
# What a property access finds

An access to a property goes through unions, intersections and aliases down to structures, and makes
types on its way. Where the types at the bottom are structures it ends, and what it finds it finds
from then on. So the property of a union or an intersection can be read off the properties of its
members, in any later table in which all of these are known.

* `Typing.Stable` is nested work that leaves the table as it is, `Typing.Concludes` nested work that
  ends.
* `Table.Sees` says what an access finds, `Table.Answers` that it finds something or nothing.
* `Table.Answers.union`, `Table.Answers.intersection` and `Table.Answers.resolved` take an access
  apart.
* `Table.Sees.gathered` and `Table.Sees.intersection` say what is found from what the members have.
-/

namespace ShapeCheck

variable {α β : Type} {work inner : Nat → Typing α} {a : α} {t : Ty}

open Table

namespace Typing

variable {T T1 T2 : Table}

/-- From the table on, the work gives that result with enough nested steps and leaves the table as
it is. -/
def Stable (T : Table) (work : Nat → Typing α) (a : α) : Prop :=
  ∃ k, ∀ U, T ≤ U → ∀ d n, k ≤ d → k ≤ n → work d n U = some (a, U)

/-- With enough nested steps the work gives a result, always the same; calls are all that it does to
the table, and then the result stays. -/
def Concludes (T : Table) (work : Nat → Typing α) (Q : Table → α → Prop) : Prop :=
  ∃ k a T1, (∀ d n, k ≤ d → k ≤ n → work d n T = some (a, T1)) ∧
    Relation.ReflTransGen Called T T1 ∧ Stable T1 work a ∧ Q T1 a

theorem Stable.of_le (h : Stable T work a) (hle : T ≤ T1) : Stable T1 work a := by
  obtain ⟨k, hrun⟩ := h
  exact ⟨k, fun U hU => hrun U (hle.trans hU)⟩

theorem Stable.unique {b : α} (h : Stable T work a) (h' : Stable T work b) : a = b := by
  obtain ⟨k, ha⟩ := h
  obtain ⟨k', hb⟩ := h'
  have heq := (ha T (le_refl T) (max k k') (max k k') (by omega) (by omega)).symm.trans
    (hb T (le_refl T) (max k k') (max k k') (by omega) (by omega))
  exact (Prod.mk.inj (Option.some.inj heq)).1

/-- Work that comes down to other work, perhaps one nested step below, is stable if that is. -/
theorem Stable.step (h : Stable T inner a) (e : Nat) {k : Nat}
    (hstep : ∀ U, T ≤ U → ∀ d n, k ≤ n → work (d + 1) n U = inner (d + e) n U) :
    Stable T work a := by
  obtain ⟨k', hrun⟩ := h
  refine ⟨max (k' + 1) k, fun U hU d n hd hn => ?_⟩
  obtain ⟨d, rfl⟩ : ∃ i, d = i + 1 := ⟨d - 1, by omega⟩
  rw [hstep U hU d n (by omega)]
  exact hrun U hU (d + e) n (by omega) (by omega)

section Concluding

variable {Q R : Table → α → Prop}

theorem Concludes.imp (h : Concludes T work Q)
    (himp : ∀ a T1, Relation.ReflTransGen Called T T1 → Q T1 a → R T1 a) : Concludes T work R := by
  obtain ⟨k, a, T1, hrun, hcalls, hstable, ha⟩ := h
  exact ⟨k, a, T1, hrun, hcalls, hstable, himp a T1 hcalls ha⟩

theorem concludes_pure (ha : Q T a) : Concludes T (fun _ => pure a) Q :=
  ⟨0, a, T, fun _ _ _ _ => rfl, .refl, ⟨0, fun _ _ _ _ _ _ => rfl⟩, ha⟩

theorem concludes_lift {make : Interning α} (h : Interning.Settles T make Q)
    (hcalls : Relation.ReflTransGen Called T (make T).2) : Concludes T (fun _ => liftM make) Q := by
  obtain ⟨a, T1, hat, ha⟩ := h
  rw [hat.result] at hcalls
  exact ⟨0, a, T1, fun _ _ _ _ => congrArg some hat.result, hcalls,
    ⟨0, fun U hU _ _ _ _ => congrArg some (hat.again U hU)⟩, ha⟩

/-- What is known of a stable result is known with it. -/
theorem Concludes.stable (h : Concludes T work Q) :
    Concludes T work fun T1 a => Q T1 a ∧ Stable T1 work a := by
  obtain ⟨k, a, T1, hrun, hcalls, hstable, ha⟩ := h
  exact ⟨k, a, T1, hrun, hcalls, hstable, ha, hstable⟩

theorem Concludes.bind (hT : T.Resolved) {next : Nat → α → Typing β} {S : Table → β → Prop}
    (h : Concludes T work Q) (hnext : ∀ a T1, T1.Resolved → T ≤ T1 → Stable T1 work a → Q T1 a →
      Concludes T1 (fun d => next d a) S) : Concludes T (fun d => work d >>= next d) S := by
  obtain ⟨k, a, T1, hrun, hcalls, hstable, ha⟩ := h
  have hT1 := hT.calls hcalls
  obtain ⟨k', b, T2, hrun', hcalls', hstable', hb⟩ :=
    hnext a T1 hT1 (hT.truthful.succeeds hcalls).1.le hstable ha
  obtain ⟨j, hstable⟩ := hstable.of_le (hT1.truthful.succeeds hcalls').1.le
  obtain ⟨j', hstable'⟩ := hstable'
  refine ⟨max k k', b, T2, fun d n hd hn => ?_, hcalls.trans hcalls',
    ⟨max j j', fun U hU d n hd hn => ?_⟩, hb⟩
  · exact (bind_of_some (hrun d n (by omega) (by omega))).trans (hrun' d n (by omega) (by omega))
  · exact (bind_of_some (hstable U hU d n (by omega) (by omega))).trans
      (hstable' U hU d n (by omega) (by omega))

/-- Work one nested step above other work concludes as that does. -/
theorem Concludes.step (hT : T.Resolved) (h : Concludes T inner Q)
    (hstep : ∀ U, T ≤ U → ∀ d n, work (d + 1) n U = inner d n U) : Concludes T work Q := by
  obtain ⟨k, a, T1, hrun, hcalls, hstable, ha⟩ := h
  have hle := (hT.truthful.succeeds hcalls).1.le
  refine ⟨k + 1, a, T1, fun d n hd hn => ?_, hcalls,
    hstable.step 0 (k := 0) fun U hU d n _ => hstep U (hle.trans hU) d n, ha⟩
  obtain ⟨d, rfl⟩ : ∃ i, d = i + 1 := ⟨d - 1, by omega⟩
  rw [hstep T (le_refl T)]
  exact hrun d n (by omega) (by omega)

/-- Work on one thing after the other. What is known of a result is known in later tables. -/
theorem concludes_mapM (hT : T.Resolved) {f : α → Nat → Typing β} {S : α → Table → β → Prop}
    (xs : List α) (hkeep : ∀ x ∈ xs, ∀ b T1 T2, T1.Resolved → T1 ≤ T2 → S x T1 b → S x T2 b)
    (hf : ∀ x ∈ xs, ∀ T1, T1.Resolved → T ≤ T1 → Concludes T1 (f x) (S x)) :
    Concludes T (fun d => xs.mapM fun x => f x d) fun T1 bs =>
      List.Forall₂ (fun x b => Stable T1 (f x) b ∧ S x T1 b) xs bs := by
  induction xs generalizing T with
  | nil => exact concludes_pure .nil
  | cons x xs ih =>
    simp only [List.mapM_cons]
    refine (hf x (by simp) T hT (le_refl T)).bind hT fun b T1 hT1 hle hstable hb => ?_
    have hrest := ih hT1 (fun y hy => hkeep y (List.mem_cons_of_mem x hy))
      fun y hy T2 hT2 hle2 => hf y (List.mem_cons_of_mem x hy) T2 hT2 (hle.trans hle2)
    refine hrest.bind hT1 fun bs T2 _ hle2 _ hbs => concludes_pure ?_
    exact .cons ⟨hstable.of_le hle2, hkeep x (by simp) b T1 T2 hT1 hle2 hb⟩ hbs

/-- Work on a type is work on what the type is resolved to. -/
def Resolving (work : Ty → Nat → Typing α) : Prop :=
  ∀ (t r : Ty) (T T1 : Table) (d n : Nat), t.resolve n T = some (r, T1) →
    Ty.hasOpenHead T1 r = false → work t (d + 1) n T = work r (d + 1) n T1

theorem Resolving.stable {work : Ty → Nat → Typing α} (hwork : Resolving work)
    (hT : T.Sound) {r : Ty}
    (ht : T.Has t) (hr : T.ResolvesTo t r) (hclosed : Ty.hasOpenHead T r = false) :
    Stable T (work t) a ↔ Stable T (work r) a := by
  obtain ⟨k, hrun⟩ := hr
  obtain ⟨hat, hhas⟩ := Ty.lasting_resolve hT ht k r T (hrun k le_rfl)
  have hstep : ∀ U, T ≤ U → ∀ d n, k ≤ n → work t (d + 1) n U = work r (d + 1) n U :=
    fun U hU d n hn => hwork t r U U d n (hat.again n hn U hU)
      ((Ty.hasOpenHead_of_le hT.wellFormed hU hhas).trans hclosed)
  exact ⟨fun h => h.step 1 fun U hU d n hn => (hstep U hU d n hn).symm, fun h => h.step 1 hstep⟩

/-- A type is resolved with one call, and the work on what it stands for concludes. -/
theorem Resolving.concludes {work : Ty → Nat → Typing α} (hwork : Resolving work)
    (hT : T.Resolved) (ht : T.Has t)
    (h : ∀ n r T1, T1.Resolved → T ≤ T1 → t.resolve n T = some (r, T1) → T1.Has r →
      T1.ResolvesTo t r → Ty.hasOpenHead T1 r = false → Concludes T1 (work r) Q) :
    Concludes T (work t) Q := by
  obtain ⟨k, r, T1, hrun, -, hle, hr, hstands⟩ := hT.truthful.sound.exists_resolvesTo ht
  have hcall := hrun k le_rfl
  have hclosed := hT.closed_resolve ht hcall
  have hT1 := hT.call (.resolve ht hcall)
  obtain ⟨k', a, T2, hrun', hcalls, hstable, ha⟩ := h k r T1 hT1 hle hcall hr hstands hclosed
  have hle2 := (hT1.truthful.succeeds hcalls).1.le
  have hsound := hT1.truthful.sound
  refine ⟨max (k' + 1) k, a, T2, fun d n hd hn => ?_, .head (.resolve ht hcall) hcalls, ?_, ha⟩
  · obtain ⟨d, rfl⟩ : ∃ i, d = i + 1 := ⟨d - 1, by omega⟩
    rw [hwork t r T T1 d n (hrun n (by omega)) hclosed]
    exact hrun' (d + 1) n (by omega) (by omega)
  · have hstands2 := hstands.of_le hsound (has_of_le hle ht) hle2
    have hclosed2 := (Ty.hasOpenHead_of_le hsound.wellFormed hle2 hr).trans hclosed
    exact (hwork.stable (hT1.calls hcalls).truthful.sound (has_of_le (hle.trans hle2) ht) hstands2
      hclosed2).mpr hstable

/-- Nested work that concludes gives its result where nothing else is said of the steps. -/
theorem Concludes.calls (h : Concludes T work Q) : Calls T (bounded work) Q := by
  obtain ⟨k, a, T1, hrun, hcalls, -, ha⟩ := h
  exact ⟨k, a, T1, fun n hn => hrun n n hn hn, hcalls, ha⟩

end Concluding

end Typing

namespace Table

variable {T T1 U : Table} {name : String} {r : Ty} {ms : List Ty} {a : Option Field}

/-- From the table on, this is what an access to the property finds. -/
structure Sees (T : Table) (name : String) (t : Ty) (a : Option Field) : Prop where
  stable : Typing.Stable T (fun d => Ty.propertyAt name d t) a
  has : ∀ f ∈ a, T.Has f.type

/-- An access to the property ends with a field of the table or with nothing, now and later. -/
def Answers (T : Table) (name : String) (t : Ty) : Prop :=
  ∀ U, U.Resolved → T ≤ U →
    Typing.Concludes U (fun d => Ty.propertyAt name d t) fun U1 a => ∀ f ∈ a, U1.Has f.type

theorem Sees.of_le (h : T.Sees name t a) (hle : T ≤ T1) : T1.Sees name t a :=
  ⟨h.stable.of_le hle, fun f hf => has_of_le hle (h.has f hf)⟩

theorem Sees.unique {b : Option Field} (h : T.Sees name t a) (h' : T.Sees name t b) : a = b :=
  h.stable.unique h'.stable

theorem Answers.of_le (h : T.Answers name t) (hle : T ≤ T1) : T1.Answers name t :=
  fun U hU hleU => h U hU (hle.trans hleU)

section Parts

/-- An access to a type that is compared part by part reads the property off its shape. -/
theorem settles_plainProperty (hT : T.Sound) (ht : T.Has t) (hplain : (T.shape t).isPlain = true)
    (name : String) : Interning.Settles T (Ty.plainProperty (T.shape t) name) fun T1 a =>
      ∀ f ∈ a, T1.Has f.type := by
  have hwf := hT.wellFormed
  cases hs : T.shape t with
  | tuple u => exact Ty.settles_tupleProperty (Assign.compares_all .lasting) hT ht hs name
  | union | intersection | reference | parameter | enumeration | enumMember =>
    simp [hs, Shape.isPlain] at hplain
  | _ =>
    refine Interning.settles_pure hwf fun f hf => ?_
    have hfound : Ty.plainProperty (T.shape t) name T = (some f, T) := by
      rw [hs]
      exact Prod.ext hf rfl
    exact Assign.has_plainProperty hT ht hplain hfound

theorem Answers.plain (ht : T.Has t) (hplain : (T.shape t).isPlain = true) : T.Answers name t := by
  intro U hU hle
  have hshape := shape_of_le hle ht
  rw [← hshape] at hplain
  refine Typing.Concludes.step hU (Typing.concludes_lift
    (settles_plainProperty hU.truthful.sound (has_of_le hle ht) hplain name)
    (Assign.called_plainProperty U _ name)) fun V hV d n => ?_
  have hlater := shape_of_le hV (has_of_le hle ht)
  rw [Ty.propertyAt_of_isPlain (hlater ▸ hplain), hlater]
  rfl

/-- What is seen in such a type is read off its shape. -/
theorem Sees.plain (h : T.Sees name t a) (hplain : (T.shape t).isPlain = true) :
    Ty.plainProperty (T.shape t) name T = (a, T) := by
  obtain ⟨k, hrun⟩ := h.stable
  have hsees : Ty.propertyAt name (k + 1) t k T = some (a, T) :=
    hrun T (le_refl T) _ _ (by omega) le_rfl
  exact Option.some.inj ((Ty.propertyAt_of_isPlain hplain name k k).symm.trans hsees)

theorem step_union (hs : T.shape t = .union ms) (hle : T ≤ U) (ht : T.Has t) (d n : Nat) :
    Ty.propertyAt name (d + 1) t n U = (do
      match ← Ty.propertyOfAll (Ty.propertyAt name d) ms with
      | some fields => return some (← Ty.unionField name fields)
      | none => return none : Typing (Option Field)) n U := by
  have hshape : U.shape t = .union ms := (shape_of_le hle ht).trans hs
  have hclosed : Ty.hasOpenHead U t = false := by rw [Ty.hasOpenHead, hshape]
  rewrite [Ty.propertyAt, Typing.bind_of_some (Ty.resolve_closed n hclosed),
    Typing.get_bind, hshape]
  rfl

theorem step_intersection (hs : T.shape t = .intersection ms) (hclosed : Ty.hasOpenHead T t = false)
    (hT : T.WellFormed) (hle : T ≤ U) (ht : T.Has t) (d n : Nat) :
    Ty.propertyAt name (d + 1) t n U = (do
      match (← ms.mapM (Ty.propertyAt name d)).filterMap id with
      | [] => return none
      | fields =>
        return some (← Ty.intersectionField name fields) : Typing (Option Field)) n U := by
  have hshape : U.shape t = .intersection ms := (shape_of_le hle ht).trans hs
  have hclosed' : Ty.hasOpenHead U t = false := (Ty.hasOpenHead_of_le hT hle ht).trans hclosed
  rewrite [Ty.propertyAt, Typing.bind_of_some (Ty.resolve_closed n hclosed'),
    Typing.get_bind, hshape]
  rfl

/-- The members are asked in turn, up to the first without the property. -/
theorem concludes_propertyOfAll (hT : T.Resolved) (ms : List Ty) (h : ∀ m ∈ ms, T.Answers name m) :
    Typing.Concludes T (fun d => Ty.propertyOfAll (Ty.propertyAt name d) ms) fun T1 a =>
      ∀ fs ∈ a, ∀ f ∈ fs, T1.Has f.type := by
  induction ms generalizing T with
  | nil => exact Typing.concludes_pure (by simp)
  | cons m ms ih =>
    refine (h m (by simp) T hT (le_refl T)).bind hT fun a T1 hT1 hle _ ha => ?_
    cases a with
    | none => exact Typing.concludes_pure (by simp)
    | some f =>
      have hrest := ih hT1 fun k hk => (h k (List.mem_cons_of_mem m hk)).of_le hle
      refine hrest.bind hT1 fun b T2 _ hle2 _ hb => Typing.concludes_pure ?_
      cases b with
      | none => simp
      | some fs =>
        have hf := has_of_le hle2 (ha f rfl)
        simpa using ⟨hf, hb fs rfl⟩

/-- A field is made with one call. -/
theorem concludes_field {make : Interning Field} {c : Construction} (hin : ∀ t ∈ c.inputs, T.Has t)
    (hfits : c.Fits T) (hcall : (make T).2 = (c.run T).2)
    (h : Interning.Settles T make fun T1 f => T1.Has f.type) (hT : T.Resolved) :
    Typing.Concludes T (fun _ => do return some (← make)) fun T1 a => ∀ f ∈ a, T1.Has f.type := by
  have hmade := Typing.concludes_lift h (hcall ▸ .single (.construct c hin hfits))
  exact hmade.bind hT fun f T1 _ _ _ hf => Typing.concludes_pure (by simpa using hf)

/-- A union has a property, or has it not, if each of its members does. -/
theorem Answers.union (ht : T.Has t) (hs : T.shape t = .union ms) (h : ∀ m ∈ ms, T.Answers name m) :
    T.Answers name t := by
  intro U hU hle
  have hhas := has_of_le hle ht
  have hall := concludes_propertyOfAll hU ms fun m hm => (h m hm).of_le hle
  refine Typing.Concludes.step hU (hall.bind hU fun a T1 hT1 _ _ ha => ?_) fun V hV d n =>
    step_union ((shape_of_le hle ht).trans hs) hV hhas d n
  cases a with
  | none => exact Typing.concludes_pure (by simp)
  | some fs =>
    have hinputs : ∀ t ∈ fs.map Field.type, T1.Has t := by simpa using ha fs rfl
    refine concludes_field (c := .union (fs.map Field.type)) hinputs trivial rfl ?_ hT1
    exact (Interning.settles_unionOf hT1.truthful.sound.wellFormed hinputs).bind
      fun u T2 hT2 _ hu => Interning.settles_pure hT2 hu.1

/-- An intersection has a property, or has it not, if each of its members does. -/
theorem Answers.intersection (ht : T.Has t) (hs : T.shape t = .intersection ms)
    (hclosed : Ty.hasOpenHead T t = false) (hT : T.WellFormed) (h : ∀ m ∈ ms, T.Answers name m) :
    T.Answers name t := by
  intro U hU hle
  have hhas := has_of_le hle ht
  have hall := Typing.concludes_mapM (S := fun _ T1 (a : Option Field) => ∀ f ∈ a,
    T1.Has f.type) hU ms
    (fun _ _ _ _ _ _ hle2 ha f hf => has_of_le hle2 (ha f hf)) fun m hm T1 hT1 hle1 =>
      h m hm T1 hT1 (hle.trans hle1)
  refine Typing.Concludes.step hU (hall.bind hU fun as T1 hT1 _ _ has => ?_) fun V hV d n =>
    step_intersection ((shape_of_le hle ht).trans hs)
      ((Ty.hasOpenHead_of_le hT hle ht).trans hclosed)
      hU.truthful.sound.wellFormed hV hhas d n
  have hfields : ∀ f ∈ as.filterMap id, T1.Has f.type := by
    intro f hf
    obtain ⟨a, ha, rfl⟩ := List.mem_filterMap.mp hf
    obtain ⟨m, -, -, hm⟩ := exists_of_forall₂ (List.Forall₂.flip has) ha
    exact hm f rfl
  cases hfound : as.filterMap id with
  | nil => exact Typing.concludes_pure (by simp)
  | cons f fs =>
    rw [hfound] at hfields
    have hinputs : ∀ t ∈ (f :: fs).map Field.type, T1.Has t := by simpa using hfields
    refine concludes_field (c := .intersection ((f :: fs).map Field.type))
      hinputs trivial rfl ?_ hT1
    exact (Interning.settles_intersectionOf hT1.truthful.sound.wellFormed hinputs).bind
      fun u T2 hT2 _ hu => Interning.settles_pure hT2 hu.1

theorem resolving_propertyAt (name : String) : Typing.Resolving fun t d => Ty.propertyAt name d t :=
  fun _ _ _ _ _ _ hrun hclosed => Ty.propertyAt_resolve hrun hclosed

/-- A type has a property, or has it not, if what it stands for does. -/
theorem Answers.resolved (ht : T.Has t)
    (h : ∀ U U1 n r, U.Resolved → T ≤ U → t.resolve n U = some (r, U1) → U1.Answers name r) :
    T.Answers name t := by
  intro U hU hle
  exact (resolving_propertyAt name).concludes hU (has_of_le hle ht) fun n r U1 hU1 _ hrun _ _ _ =>
    h U U1 n r hU hle hrun U1 hU1 le_rfl

end Parts

/-! ## Putting together what is found -/

section Whole

variable {as : List (Option Field)}

/-- What is known of each member is known of all of them. -/
theorem propertyOfAll_of_sees (h : List.Forall₂ (T.Sees name) ms as) : ∃ k o,
    (∀ d n, k ≤ d → k ≤ n → Ty.propertyOfAll (Ty.propertyAt name d) ms n T = some (o, T)) ∧
      (none ∈ as ∧ o = none ∨ ∃ fs, as = fs.map some ∧ o = some fs) := by
  induction h with
  | nil => exact ⟨0, some [], fun _ _ _ _ => rfl, .inr ⟨[], rfl, rfl⟩⟩
  | @cons m a ms as hm _ ih =>
    obtain ⟨k1, hrun1⟩ := hm.stable
    replace hrun1 := hrun1 T le_rfl
    obtain ⟨k2, o, hrun2, ho⟩ := ih
    cases a with
    | none =>
      refine ⟨k1, none, fun d n hd hn => ?_, .inl ⟨by simp, rfl⟩⟩
      rw [Ty.propertyOfAll, Typing.bind_of_some (hrun1 d n hd hn)]
      rfl
    | some f =>
      refine ⟨max k1 k2, o.map (f :: ·), fun d n hd hn => ?_, ?_⟩
      · rw [Ty.propertyOfAll, Typing.bind_of_some (hrun1 d n (by omega) (by omega))]
        simp only
        rw [Typing.bind_of_some (hrun2 d n (by omega) (by omega))]
        rfl
      · rcases ho with ⟨hnone, rfl⟩ | ⟨fs, rfl, rfl⟩
        · exact .inl ⟨List.mem_cons_of_mem _ hnone, rfl⟩
        · exact .inr ⟨f :: fs, rfl, rfl⟩

/-- A union has what all its members have. -/
theorem Sees.union (h : T.Sees name t a) (hs : T.shape t = .union ms) (ht : T.Has t)
    (hms : List.Forall₂ (T.Sees name) ms as) : none ∈ as ∧ a = none ∨
      ∃ fs, as = fs.map some ∧ Ty.unionField name fs T = ((Ty.unionField name fs T).1, T) ∧
        a = some (Ty.unionField name fs T).1 := by
  obtain ⟨k1, hrun⟩ := h.stable
  obtain ⟨k2, o, hall, ho⟩ := propertyOfAll_of_sees hms
  have hfound : Ty.propertyAt name (max k1 k2 + 1) t (max k1 k2) T = some (a, T) :=
    hrun T le_rfl _ _ (by omega) (by omega)
  rw [step_union hs le_rfl ht, Typing.bind_of_some (hall _ _ (by omega) (by omega))] at hfound
  rcases ho with ⟨hnone, rfl⟩ | ⟨fs, rfl, rfl⟩
  · exact .inl ⟨hnone, (Prod.mk.inj (Option.some.inj hfound)).1.symm⟩
  · obtain ⟨hfield, htable⟩ := Prod.mk.inj (Option.some.inj hfound)
    exact .inr ⟨fs, rfl, Prod.ext rfl htable, hfield.symm⟩

/-- An intersection has what one of its members has. -/
theorem Sees.intersection (h : T.Sees name t a) (hs : T.shape t = .intersection ms) (ht : T.Has t)
    (hclosed : Ty.hasOpenHead T t = false) (hT : T.WellFormed)
    (hms : List.Forall₂ (T.Sees name) ms as) : as.filterMap id = [] ∧ a = none ∨
      as.filterMap id ≠ [] ∧ a = some (Ty.intersectionField name (as.filterMap id) T).1 := by
  obtain ⟨k1, hrun⟩ := h.stable
  have hall : ∃ k, ∀ d n, k ≤ d → k ≤ n → ms.mapM (Ty.propertyAt name d) n T = some (as, T) := by
    clear h hs hrun
    induction hms with
    | nil => exact ⟨0, fun _ _ _ _ => rfl⟩
    | @cons m a ms as hm _ ih =>
      obtain ⟨k1, hrun1⟩ := hm.stable
      obtain ⟨k2, hrun2⟩ := ih
      refine ⟨max k1 k2, fun d n hd hn => ?_⟩
      rw [List.mapM_cons, Typing.bind_of_some (hrun1 T le_rfl d n (by omega) (by omega)),
        Typing.bind_of_some (hrun2 d n (by omega) (by omega))]
      rfl
  obtain ⟨k2, hall⟩ := hall
  have hfound : Ty.propertyAt name (max k1 k2 + 1) t (max k1 k2) T = some (a, T) :=
    hrun T le_rfl _ _ (by omega) (by omega)
  rw [step_intersection hs hclosed hT le_rfl ht,
    Typing.bind_of_some (hall _ _ (by omega) (by omega))] at hfound
  cases hfields : as.filterMap id with
  | nil =>
    rw [hfields] at hfound
    exact .inl ⟨rfl, (Prod.mk.inj (Option.some.inj hfound)).1.symm⟩
  | cons f fs =>
    rw [hfields] at hfound
    exact .inr ⟨by simp, (Prod.mk.inj (Option.some.inj hfound)).1.symm⟩

/-- What is found in some types together: a field that is the union of theirs, or nothing because
one of them has nothing. -/
inductive Gathered (T : Table) (name : String) (ks : List Ty) : Option Field → Prop
  | lacks {k : Ty} (hk : k ∈ ks) (h : T.Sees name k none) : Gathered T name ks none
  | joins {g : Field} {fs : List Field} (h : List.Forall₂ (fun k f => T.Sees name k (some f)) ks fs)
    (hunion : Ty.unionOf (fs.map Field.type) T = (g.type, T))
    (hoptional : g.optional = fs.any Field.optional)
      (hreadonly : g.readonly = fs.any Field.readonly) :
    Gathered T name ks (some g)

/-- What is found in a type is found in its members together. -/
theorem Sees.gathered (h : T.Sees name t a) (hT : T.WellFormed) (ht : T.Has t)
    (hmembers : ∀ k ∈ T.members t, ∃ c, T.Sees name k c) : T.Gathered name (T.members t) a := by
  by_cases hunion : (T.shape t).IsUnion
  · obtain ⟨ms, hms⟩ := hunion
    rw [members_of_union hms] at hmembers ⊢
    obtain ⟨as, has⟩ := exists_forall₂ hmembers
    rcases h.union hms ht has with ⟨hnone, rfl⟩ | ⟨fs, rfl, hfield, rfl⟩
    · obtain ⟨k, hk, hsees⟩ := exists_of_forall₂ (List.Forall₂.flip has) hnone
      exact .lacks hk hsees
    · rw [Ty.unionField_apply] at hfield
      exact .joins (List.forall₂_map_right_iff.mp has) (Prod.ext rfl (Prod.mk.inj hfield).2) rfl rfl
  · rw [Assign.members_of_not_isUnion hunion]
    cases a with
    | none => exact .lacks (by simp) h
    | some f =>
      exact .joins (.cons h .nil) (Interning.unionOf_self hT f.type) (by simp) (by simp)

section Fields

variable {ks rs : List Ty} {fs gs : List Field} {f g : Field} {S : Set Ty}

theorem mem_fields_iff (h : List.Forall₂ (fun k f => T.Sees name k (some f)) ks fs) :
    f ∈ fs ↔ ∃ k ∈ ks, T.Sees name k (some f) := by
  constructor
  · exact fun hf => exists_of_forall₂ (List.Forall₂.flip h) hf
  · rintro ⟨k, hk, hsees⟩
    obtain ⟨g, hg, hsees'⟩ := exists_of_forall₂ h hk
    rwa [Option.some.inj (hsees.unique hsees')]

theorem Gathered.any_iff (h : T.Gathered name ks (some g)) :
    (g.optional = true ↔ ∃ k ∈ ks, ∃ f, T.Sees name k (some f) ∧ f.optional = true) ∧
      (g.readonly = true ↔ ∃ k ∈ ks, ∃ f, T.Sees name k (some f) ∧ f.readonly = true) := by
  cases h with
  | @joins _ fs h _ hoptional hreadonly =>
    rw [hoptional, hreadonly, List.any_eq_true, List.any_eq_true]
    simp only [mem_fields_iff h]
    grind

/-- The members of the types that are found. -/
theorem mem_flattened_fields (h : List.Forall₂ (fun k f => T.Sees name k (some f)) ks fs) {m : Ty} :
    m ∈ T.flattened (fs.map Field.type) ↔
      ∃ k ∈ ks, ∃ f, T.Sees name k (some f) ∧ m ∈ T.members f.type := by
  simp only [flattened, Set.mem_ofPred_eq, mem_allMembers, List.mem_map, exists_exists_and_eq_and,
    mem_fields_iff h]
  grind

/-- Each property is a union of what is found in the members of its type. -/
theorem exists_gathered (hT : T.WellFormed)
    (hrs : List.Forall₂ (fun r g => T.Gathered name (T.members r) (some g)) rs gs) :
    ∃ ps : List (Field × List Ty), ps.map (·.1) = gs ∧
      (∀ p ∈ ps, Interning.Stands T (Ty.unionMembers T p.2) p.1.type) ∧
      ∀ m, m ∈ T.flattened (ps.flatMap (·.2)) ↔
        ∃ r ∈ rs, ∃ k ∈ T.members r, ∃ f, T.Sees name k (some f) ∧ m ∈ T.members f.type := by
  induction hrs with
  | nil => exact ⟨[], rfl, by simp, by simp [flattened, mem_allMembers]⟩
  | @cons r g rs gs hr _ ih =>
    obtain ⟨ps, rfl, hps, hmembers⟩ := ih
    cases hr with
    | @joins _ fs h hunion _ _ =>
      have hhas : ∀ t ∈ fs.map Field.type, T.Has t := by
        intro t ht
        obtain ⟨f, hf, rfl⟩ := List.mem_map.mp ht
        obtain ⟨k, -, hsees⟩ := (mem_fields_iff h).mp hf
        exact hsees.has f rfl
      obtain ⟨u, T', hat, -, hstands⟩ := Interning.settles_unionOf hT hhas
      obtain ⟨rfl, rfl⟩ := Prod.mk.inj (hat.result.symm.trans hunion)
      refine ⟨(g, fs.map Field.type) :: ps, rfl,
        List.forall_mem_cons.mpr ⟨hstands, hps⟩, fun m => ?_⟩
      rw [List.flatMap_cons, flattened_append, Set.mem_union, hmembers, mem_flattened_fields h,
        List.exists_mem_cons_iff]

/-- **A union of unions has the property of the union of all**: what is found in the members of some
types is what is found in these types together. -/
theorem Gathered.flatten (hT : T.WellFormed) (h : T.Gathered name ks (some g))
    (hrs : List.Forall₂ (fun r g => T.Gathered name (T.members r) (some g)) rs gs)
    (hks : ∀ k, k ∈ ks ↔ ∃ r ∈ rs, k ∈ T.members r) :
    Ty.unionOf (gs.map Field.type) T = (g.type, T) ∧ g.optional = gs.any Field.optional ∧
      g.readonly = gs.any Field.readonly := by
  have hflags : ∀ flag : Field → Bool,
      (∀ {ks : List Ty} {g : Field}, T.Gathered name ks (some g) →
        (flag g = true ↔ ∃ k ∈ ks, ∃ f, T.Sees name k (some f) ∧ flag f = true)) →
      flag g = gs.any flag := by
    intro flag hflag
    rw [Bool.eq_iff_iff, hflag h, List.any_eq_true]
    constructor
    · rintro ⟨k, hk, f, hsees, hf⟩
      obtain ⟨r, hr, hkr⟩ := (hks k).mp hk
      obtain ⟨g', hg', hgathered⟩ := exists_of_forall₂ hrs hr
      exact ⟨g', hg', (hflag hgathered).mpr ⟨k, hkr, f, hsees, hf⟩⟩
    · rintro ⟨g', hg', hflagged⟩
      obtain ⟨r, hr, hgathered⟩ := exists_of_forall₂ (List.Forall₂.flip hrs) hg'
      obtain ⟨k, hkr, hsees⟩ := (hflag hgathered).mp hflagged
      exact ⟨k, (hks k).mpr ⟨r, hr, hkr⟩, hsees⟩
  refine ⟨?_, hflags _ fun h => h.any_iff.1, hflags _ fun h => h.any_iff.2⟩
  obtain ⟨ps, rfl, hps, hmembers⟩ := exists_gathered hT hrs
  cases h with
  | @joins _ fs h hunion _ _ =>
    have hsame : T.flattened (ps.flatMap (·.2)) = T.flattened (fs.map Field.type) := by
      ext m
      rw [hmembers, mem_flattened_fields h]
      simp only [hks]
      grind
    rw [← hunion]
    refine Interning.unionOf_congr ?_
    have hjoined := joined_flatMap hT hps ∅
    rw [Set.union_empty, Set.union_empty, hsame] at hjoined
    rw [List.map_map]
    exact hjoined

end Fields

end Whole

end Table

end ShapeCheck
