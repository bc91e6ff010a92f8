import ShapeCheck.Proofs.Seclusion
import ShapeCheck.Ty.Inference

/-!
# Unification keeps to a family of types

Inference reads the arguments of a call: it follows references, looks at properties and call
signatures, takes unions apart and puts them together again. What it finds belongs to the family of
types that the arguments belong to, if the family is closed under these readings. And where reading
lasts, so does all that inference does: asked again in a later table, it finds the same and leaves
the table as it is.

* `Ty.runs_propertyAt` and `Ty.runs_callSignaturesAt` are about what is read off a type.
* `Inference.runs_unifyAt` is about unification, `Inference.runs_bindings` about the bindings that
  come out of it.
-/

namespace ShapeCheck

variable {e : Evidence} {element t : Ty} {u : Tuple} {fields : List Field} {ms : List Ty}
  {T T2 : Table} {vars : List TypeVar} {q : Ty × Ty} {m : Members} {c : Callable} {i : Nat}

/-- Reading a type of the family does not lead out of it, and any types can be resolved and
compared. -/
structure Regime.Reads (K : Regime) (F : Table.Family) : Prop where
  prim : ∀ T p, F.Mem T (.prim p)
  truth : ∀ T b, F.Mem T (.truth b)
  part : ∀ {T t p}, K.ok T → F.Mem T t → p ∈ (T.shape t).parts → F.Mem T p
  enumMember : ∀ {T t e m}, K.ok T → F.Mem T t → T.shape t = .enumeration e →
    m ∈ e.members → F.Mem T m
  bound : ∀ {T t v b}, K.ok T → F.Mem T t → T.shape t = .parameter v →
    (T.typeVar v).bound = some b →
    F.Mem T b
  length : ∀ {T} u, K.ok T → Interning.Settles T (Ty.tupleLength u) F.Mem
  union : ∀ {T ts}, K.ok T → (∀ t ∈ ts, F.Mem T t) → Interning.Settles T (Ty.unionOf ts) F.Mem
  intersection : ∀ {T ts}, K.ok T → (∀ t ∈ ts, F.Mem T t) →
    Interning.Settles T (Ty.intersectionOf ts) F.Mem
  erase : ∀ {T t}, K.ok T → F.Mem T t → Interning.Settles T t.erase F.Mem
  resolve : ∀ {T t}, K.ok T → F.Mem T t → Typing.Runs K T t.resolve t.resolve F.Mem
  follow : ∀ {T t}, K.ok T → T.Has t → Typing.Runs K T t.resolve t.resolve Table.Has
  compare : ∀ {T s t}, K.ok T → T.Has s → T.Has t →
    Typing.Runs K T (s.isAssignableTo t) (s.isAssignableTo t) (fun _ _ => True)

namespace Typing

variable {α : Type} {K : Regime} {V : Table → α → Prop}

/-- Work that may take as many steps as there are. -/
theorem runs_bounded {x y : Nat → Typing α} (h : ∀ d d', d ≤ d' → Runs K T (x d) (y d') V) :
    Runs K T (bounded x) (bounded y) V := by
  intro n a T1 hx
  have hat := fun m (hm : n ≤ m) => h n m hm n a T1 hx
  obtain ⟨⟨hok, hgrows, -, -⟩, hv⟩ := hat n (Nat.le_refl n)
  exact ⟨⟨hok, hgrows, fun m hm => (hat m hm).1.more m hm, fun m hm => (hat m hm).1.again m hm⟩, hv⟩

end Typing

namespace Ty

open Typing

variable {K : Regime} {F : Table.Family} {d d' : Nat} {name : String}

/-- The type of a property, if there is one, belongs to the family. -/
def FieldIn (F : Table.Family) (T : Table) (o : Option Field) : Prop := ∀ f ∈ o, F.Mem T f.type

theorem FieldIn.of_grows {T1 : Table} {o : Option Field} (h : FieldIn F T o) (h1 : K.grows T T1) :
    FieldIn F T1 o :=
  fun f hf => (Regime.Reach.mem (.inl h1) F) (h f hf)

theorem enumMember?_of_le {e : Enumeration} (h : T ≤ T2) (hT : T.WellFormed)
    (hs : T.shape t = .enumeration e) (name : String) :
    enumMember? T2 e name = enumMember? T e name := by
  have hmembers := Assign.has_enumMembers hT hs
  unfold enumMember?
  apply List.find?_congr
  intro m hm
  rw [enumMemberName?, enumMemberName?, Table.shape_of_le h (hmembers m hm)]

theorem fieldIn_primitive (hF : K.Reads F) (p : Primitive) (name : String) :
    FieldIn F T (primitiveProperty? p name) := by
  intro f hf
  obtain ⟨q, hq⟩ := primitiveProperty_prim p name f hf
  rw [hq]
  exact hF.prim T q

theorem fieldIn_array (hF : K.Reads F) (helement : F.Mem T element) (readonly : Bool)
    (name : String) : FieldIn F T (arrayProperty? element readonly name) := by
  intro f hf
  unfold arrayProperty? at hf
  split_ifs at hf
  · obtain rfl := Option.some.inj hf
    exact hF.prim T _
  · obtain rfl := Option.some.inj hf
    exact helement
  · exact absurd hf (by simp)

theorem fieldIn_function (hF : K.Reads F) (name : String) :
    FieldIn F T (functionProperty? name) := by
  intro f hf
  unfold functionProperty? at hf
  split at hf
  · obtain rfl := Option.some.inj hf
    exact hF.prim T _
  · obtain rfl := Option.some.inj hf
    exact hF.prim T _
  · exact absurd hf (by simp)

theorem settles_tupleProperty_in (hF : K.Reads F) (hT : K.ok T)
    (hu : ∀ t ∈ u.elements, F.Mem T t) (name : String) :
    Interning.Settles T (tupleProperty? u name) (FieldIn F) := by
  unfold tupleProperty?
  split
  · refine (hF.length u hT).bind fun l T1 hT1 _ hl => ?_
    apply Interning.settles_pure hT1
    intro f hf
    obtain rfl := Option.some.inj hf
    exact hl
  · cases Decimal.integer? name with
    | none => exact Interning.settles_pure (K.wellFormed hT) (by simp [FieldIn])
    | some i =>
      apply Interning.settles_pure (K.wellFormed hT)
      intro f hf
      obtain ⟨e, he, rfl⟩ := Option.map_eq_some_iff.mp hf
      exact hu e (mem_elements_of_element? he)

theorem runs_unionField (hF : K.Reads F) (hT : K.ok T) (name : String)
    (h : ∀ f ∈ fields, F.Mem T f.type) :
    Runs K T (liftM (unionField name fields)) (liftM (unionField name fields))
      (fun T1 f => F.Mem T1 f.type) := by
  have htypes : ∀ t ∈ fields.map Field.type, F.Mem T t := List.forall_mem_map.mpr h
  apply runs_lift hT
  exact (hF.union hT htypes).bind fun u T1 hT1 _ hu => Interning.settles_pure hT1 hu

theorem runs_intersectionField (hF : K.Reads F) (hT : K.ok T) (name : String)
    (h : ∀ f ∈ fields, F.Mem T f.type) :
    Runs K T (liftM (intersectionField name fields)) (liftM (intersectionField name fields))
      (fun T1 f => F.Mem T1 f.type) := by
  have htypes : ∀ t ∈ fields.map Field.type, F.Mem T t := List.forall_mem_map.mpr h
  apply runs_lift hT
  exact (hF.intersection hT htypes).bind fun u T1 hT1 _ hu => Interning.settles_pure hT1 hu

theorem runs_propertyOfAll {look look' : Ty → Typing (Option Field)} (hT : K.ok T)
    (hms : ∀ m ∈ ms, F.Mem T m)
    (hlook : ∀ T1 m, K.ok T1 → F.Mem T1 m → Runs K T1 (look m) (look' m) (FieldIn F)) :
    Runs K T (propertyOfAll look ms) (propertyOfAll look' ms)
      (fun T1 o => ∀ fields ∈ o, ∀ f ∈ fields, F.Mem T1 f.type) := by
  induction ms generalizing T with
  | nil =>
    apply runs_pure hT
    intro fields hfields
    obtain rfl := Option.some.inj hfields
    exact fun f hf => absurd hf (by simp)
  | cons m ms ih =>
    refine (hlook T m hT (hms m (by simp))).bind fun o T1 hT1 h1 ho => ?_
    cases o with
    | none => exact runs_pure hT1 (by simp)
    | some f =>
      have hrest : ∀ k ∈ ms, F.Mem T1 k := fun k hk =>
        Regime.Reach.mem (.inl h1) F (hms k (List.mem_cons_of_mem _ hk))
      refine (ih hT1 hrest).bind fun o T2 hT2 h2 ho' => ?_
      apply runs_pure hT2
      intro fields hfields g hg
      obtain ⟨rest, hr, rfl⟩ := Option.map_eq_some_iff.mp hfields
      rcases List.mem_cons.mp hg with rfl | hg
      · exact ho.of_grows h2 g rfl
      · exact ho' rest hr g hg

/-- **A property of a type of the family belongs to it.** -/
theorem runs_propertyAt (hF : K.Reads F) (name : String) (hd : d ≤ d') (hT : K.ok T)
    (ht : F.Mem T t) : Runs K T (propertyAt name d t) (propertyAt name d' t) (FieldIn F) := by
  induction d generalizing d' T t with
  | zero => exact runs_outOfSteps
  | succ d ih =>
    obtain ⟨d', rfl⟩ : ∃ e, d' = e + 1 := ⟨d' - 1, by omega⟩
    have hdeeper : ∀ {T1 : Table} {u : Ty}, K.ok T1 → F.Mem T1 u →
        Runs K T1 (propertyAt name d u) (propertyAt name d' u) (FieldIn F) :=
      fun hT1 hu => ih (Nat.le_of_succ_le_succ hd) hT1 hu
    refine (hF.resolve hT ht).bind fun r T1 hT1 _ hr => ?_
    have hwf := K.wellFormed hT1
    refine runs_get_bind (fun T2 h2 => ?same) ?_
    case same =>
      have hle := K.later_le h2
      rw [Table.shape_of_le hle (F.has hr)]
      cases hs : T1.shape r with
      | enumeration e => simp only [enumMember?_of_le hle hwf hs]
      | parameter v => simp only [Table.typeVar_of_le hle (Assign.knows_of_shape hwf hs)]
      | _ => rfl
    have hparts := fun p => hF.part (p := p) hT1 hr
    have hnone : FieldIn F T1 none := by simp [FieldIn]
    cases hs : T1.shape r with
    | primitive p => exact runs_pure hT1 (fieldIn_primitive hF p name)
    | literal l => exact runs_pure hT1 (fieldIn_primitive hF l.base name)
    | enumMember enum text value =>
      exact hdeeper hT1 (hparts value (by rw [hs]; simp [Shape.parts]))
    | object m =>
      rw [hs] at hparts
      exact runs_pure hT1 fun f hf => hparts f.type (mem_parts_of_memberProperty? hf)
    | array element readonly =>
      rw [hs] at hparts
      exact runs_pure hT1 (fieldIn_array hF (hparts element (by simp [Shape.parts])) readonly name)
    | tuple u =>
      rw [hs] at hparts
      exact runs_lift hT1 (settles_tupleProperty_in hF hT1 hparts name)
    | function c => exact runs_pure hT1 (fieldIn_function hF name)
    | enumeration e =>
      apply runs_pure hT1
      intro f hf
      obtain ⟨m, hm, rfl⟩ := Option.map_eq_some_iff.mp hf
      exact hF.enumMember hT1 hr hs (List.mem_of_find?_eq_some hm)
    | parameter v =>
      dsimp only
      split
      next bound hbound =>
        exact hdeeper hT1 (hF.bound hT1 hr hs hbound)
      · exact runs_pure hT1 hnone
    | union ms =>
      rw [hs] at hparts
      refine (runs_propertyOfAll hT1 hparts fun T2 m hT2 hm => hdeeper hT2 hm).bind
        fun o T2 hT2 _ ho => ?_
      cases o with
      | none => exact runs_pure hT2 (by simp [FieldIn])
      | some fields =>
        refine (runs_unionField hF hT2 name (ho fields rfl)).bind fun f T3 hT3 _ hf => ?_
        exact runs_pure hT3 (by simpa [FieldIn] using hf)
    | intersection ms =>
      rw [hs] at hparts
      have hlook : ∀ m ∈ ms, ∀ T2, K.ok T2 → K.grows T1 T2 →
          Runs K T2 (propertyAt name d m) (propertyAt name d' m) (FieldIn F) :=
        fun m hm T2 hT2 h2 => hdeeper hT2 (Regime.Reach.mem (.inl h2) F (hparts m hm))
      refine (runs_mapM (V := FieldIn F) hT1 (fun o _ _ h ho => ho.of_grows h) ms hlook).bind
        fun os T2 hT2 _ hos => ?_
      have hfields : ∀ f ∈ os.filterMap id, F.Mem T2 f.type := by
        intro f hf
        obtain ⟨o, ho, hof⟩ := List.mem_filterMap.mp hf
        exact hos o ho f hof
      split
      · exact runs_pure hT2 (by simp [FieldIn])
      · refine (runs_intersectionField hF hT2 name hfields).bind fun f T3 hT3 _ hf => ?_
        exact runs_pure hT3 (by simpa [FieldIn] using hf)
    | reference _ _ => exact runs_pure hT1 hnone
    | classValue _ _ _ => exact runs_pure hT1 hnone

/-- **The call signatures of a type of the family belong to it.** -/
theorem runs_callSignaturesAt (hF : K.Reads F) (hd : d ≤ d') (hT : K.ok T) (ht : F.Mem T t) :
    Runs K T (callSignaturesAt d t) (callSignaturesAt d' t)
    (fun T1 fs => ∀ f ∈ fs, F.Mem T1 f) := by
  induction d generalizing d' T t with
  | zero => exact runs_outOfSteps
  | succ d ih =>
    obtain ⟨d', rfl⟩ : ∃ e, d' = e + 1 := ⟨d' - 1, by omega⟩
    refine (hF.resolve hT ht).bind fun r T1 hT1 _ hr => ?_
    have hwf := K.wellFormed hT1
    refine runs_get_bind (fun T2 h2 => ?same) ?_
    case same =>
      have hle := K.later_le h2
      rw [Table.shape_of_le hle (F.has hr)]
      cases hs : T1.shape r with
      | parameter v => simp only [Table.typeVar_of_le hle (Assign.knows_of_shape hwf hs)]
      | _ => rfl
    have hparts := fun p => hF.part (p := p) hT1 hr
    cases hs : T1.shape r with
    | function c => exact runs_pure hT1 (by simpa using hr)
    | object m =>
      rw [hs] at hparts
      exact runs_pure hT1 fun f hf => hparts f (List.mem_append_right _ hf)
    | intersection ms =>
      rw [hs] at hparts
      have hup : ∀ (fs : List Ty) (T2 T3 : Table), K.grows T2 T3 → (∀ f ∈ fs, F.Mem T2 f) →
          ∀ f ∈ fs, F.Mem T3 f := fun fs T2 T3 h hfs f hf => Regime.Reach.mem (.inl h) F (hfs f hf)
      refine (runs_mapM hT1 hup ms fun m hm T2 hT2 h2 => ih (Nat.le_of_succ_le_succ hd) hT2
        (Regime.Reach.mem (.inl h2) F (hparts m hm))).bind fun fss T2 hT2 _ hfss => ?_
      apply runs_pure hT2
      intro f hf
      obtain ⟨fs, hfs, hf⟩ := List.mem_flatten.mp hf
      exact hfss fs hfs f hf
    | parameter v =>
      dsimp only
      split
      next bound hbound =>
        exact ih (Nat.le_of_succ_le_succ hd) hT1 (hF.bound hT1 hr hs hbound)
      · exact runs_pure hT1 (by simp)
    | _ => exact runs_pure hT1 (by simp)

theorem runs_property (hF : K.Reads F) (hT : K.ok T) (ht : F.Mem T t) (name : String) :
    Runs K T (t.property? name) (t.property? name) (FieldIn F) :=
  runs_bounded fun _ _ hd => runs_propertyAt hF name hd hT ht

theorem runs_callSignatures (hF : K.Reads F) (hT : K.ok T) (ht : F.Mem T t) :
    Runs K T t.callSignatures t.callSignatures (fun T1 fs => ∀ f ∈ fs, F.Mem T1 f) :=
  runs_bounded fun _ _ hd => runs_callSignaturesAt hF hd hT ht

/-- **Widening a type of the family gives one of the family.** -/
theorem settles_widen (hF : K.Reads F) (hT : K.ok T) (ht : F.Mem T t) :
    Interning.Settles T t.widen F.Mem := by
  have hmember : ∀ {m : Ty}, F.Mem T m → F.Mem T (widenMember T m) := by
    intro m hm
    unfold widenMember
    split
    · exact hF.prim T _
    next enum name value hs =>
      exact hF.part hT hm (by rw [hs]; simp [Shape.parts])
    · exact hm
  have hpart : ∀ {ms : List Ty}, T.shape t = .union ms → ∀ m ∈ ms, F.Mem T m :=
    fun hs m hm => hF.part hT ht (by rw [hs]; exact hm)
  refine Interning.settles_get_bind (fun T2 h2 => ?_) ?_
  · have hsame : ∀ {m : Ty}, T.Has m → widenMember T2 m = widenMember T m := by
      intro m hm
      rw [widenMember, widenMember, Table.shape_of_le h2 hm]
    rw [Table.shape_of_le h2 (F.has ht)]
    cases hs : T.shape t with
    | union ms =>
      have hms : ms.map (widenMember T2) = ms.map (widenMember T) :=
        List.map_congr_left fun m hm => hsame (F.has (hpart hs m hm))
      simp only [hms]
    | _ => simp only [hsame (F.has ht)]
  cases hs : T.shape t with
  | union ms =>
    refine hF.union hT fun u hu => ?_
    obtain ⟨m, hm, rfl⟩ := List.mem_map.mp hu
    exact hmember (hpart hs m hm)
  | _ => exact Interning.settles_pure (K.wellFormed hT) (hmember ht)

end Ty

theorem Table.mentionsAt_of_le (h : T ≤ T2) (hT : T.WellFormed) (ht : T.Has t) (depth : Nat) :
    Ty.mentionsAt T2 vars depth t = Ty.mentionsAt T vars depth t := by
  induction depth generalizing t with
  | zero => rfl
  | succ depth ih =>
    unfold Ty.mentionsAt
    rw [shape_of_le h ht]
    have hany : (Ty.mentionParts (T.shape t)).any (Ty.mentionsAt T2 vars depth) =
        (Ty.mentionParts (T.shape t)).any (Ty.mentionsAt T vars depth) := by
      rw [Bool.eq_iff_iff, List.any_eq_true, List.any_eq_true]
      apply exists_congr
      intro p
      apply and_congr_right
      intro hp
      rw [ih (hT.has_part ht (Shape.mem_parts_of_mem_mentionParts hp))]
    cases hs : T.shape t with
    | parameter v => rfl
    | _ =>
      rw [hs] at hany
      exact hany

theorem Table.mentions_of_le (h : T ≤ T2)
    (hT : T.WellFormed) (ht : T.Has t) : Ty.mentions T2 vars t = Ty.mentions T vars t :=
  mentionsAt_of_le h hT ht _

namespace Inference

open Typing

variable {α β : Type} {K : Regime} {F : Table.Family} {T1 : Table} {Q : Table → α → Prop}

/-- The types that were found belong to the family. -/
def Evidence.In (F : Table.Family) (T : Table) (e : Evidence) : Prop := ∀ p ∈ e.found, F.Mem T p.2

/-- The work finds types of the family, gives something of a kind, and lasts. -/
def Collects (K : Regime) (F : Table.Family) (T : Table) (x y : Unify α)
    (Q : Table → α → Prop) : Prop :=
  ∀ e, e.In F T → Runs K T (x.run e) (y.run e) (fun T1 r => Q T1 r.1 ∧ r.2.In F T1)

section Rules

theorem Evidence.In.of_grows (he : e.In F T) (h : K.grows T T1) : e.In F T1 :=
  fun p hp => Regime.Reach.mem (.inl h) F (he p hp)

/-- What was found for one parameter belongs to the family. -/
theorem Evidence.In.candidate (he : e.In F T) (v : TypeVar) : ∀ t ∈ e.candidates v, F.Mem T t := by
  intro t ht
  obtain ⟨⟨w, u⟩, hmem, hu⟩ := List.mem_filterMap.mp ht
  dsimp only at hu
  split at hu
  · obtain rfl := Option.some.inj hu
    exact he _ hmem
  · exact absurd hu (by simp)

theorem collects_pure (hT : K.ok T) {a : α} (ha : Q T a) : Collects K F T (pure a) (pure a) Q :=
  fun _ he => runs_pure hT ⟨ha, he⟩

theorem Collects.bind {x y : Unify α} {f g : α → Unify β} {R : Table → β → Prop}
    (hx : Collects K F T x y Q)
    (hf : ∀ a T1, K.ok T1 → K.grows T T1 → Q T1 a → Collects K F T1 (f a) (g a) R) :
    Collects K F T (x >>= f) (y >>= g) R := by
  intro e he
  rw [StateT.run_bind, StateT.run_bind]
  refine (hx e he).bind fun r T1 hT1 h1 hr => ?_
  exact hf r.1 T1 hT1 h1 hr.1 r.2 hr.2

theorem collects_lift {x y : Typing α} (h : Runs K T x y Q) :
    Collects K F T (liftM x) (liftM y) Q := by
  intro e he
  change Runs K T (x >>= fun a => pure (a, e)) (y >>= fun a => pure (a, e)) _
  refine h.bind fun a T1 hT1 h1 ha => ?_
  exact runs_pure hT1 ⟨ha, he.of_grows h1⟩

theorem collects_settles {work : Interning α} (hT : K.ok T) (h : Interning.Settles T work Q) :
    Collects K F T (liftM work) (liftM work) Q :=
  collects_lift (x := liftM work) (y := liftM work) (runs_lift hT h)

theorem collects_table_bind {f g : Table → Unify α} (hsame : ∀ T2, T ≤ T2 → g T2 = g T)
    (h : Collects K F T (f T) (g T) Q) : Collects K F T (table >>= f) (table >>= g) Q := by
  intro e he
  change Runs K T (get >>= fun T => (f T).run e) (get >>= fun T => (g T).run e) _
  exact runs_get_bind (fun T2 h2 => by rw [hsame T2 (K.later_le h2)]) (h e he)

theorem collects_forM {xs : List β} {f g : β → Unify Unit} (hT : K.ok T)
    (hf : ∀ x ∈ xs, ∀ T1, K.ok T1 → K.grows T T1 →
      Collects K F T1 (f x) (g x) (fun _ _ => True)) :
    Collects K F T (xs.forM f) (xs.forM g) (fun _ _ => True) := by
  induction xs generalizing T with
  | nil => exact collects_pure hT trivial
  | cons x xs ih =>
    refine (hf x (by simp) T hT (K.refl T)).bind fun _ T1 hT1 h1 _ => ?_
    exact ih hT1 fun y hy T2 hT2 h2 => hf y (List.mem_cons_of_mem _ hy) T2 hT2 (K.trans h1 h2)

theorem collects_resolve_bind {f g : Ty → Unify α} (hF : K.Reads F) (hT : K.ok T) (ht : F.Mem T t)
    (hf : ∀ r T1, K.ok T1 → K.grows T T1 → F.Mem T1 r → Collects K F T1 (f r) (g r) Q) :
    Collects K F T (liftM t.resolve >>= f) (liftM t.resolve >>= g) Q :=
  (collects_lift (hF.resolve hT ht)).bind hf

end Rules

/-! ### What is compared with what -/

section Pairs

/-- The places of a tuple are compared with places of the other. -/
theorem mem_tuplePairs {a : Tuple} (hq : q ∈ tuplePairs u a) :
    q.1 ∈ u.elements ∧ q.2 ∈ a.elements := by
  have hslot : ∀ {t : Tuple} {s : Slot}, s ∈ t.slots → s.type ∈ t.elements :=
    fun hs => List.mem_append_left _ (List.mem_map_of_mem hs)
  have hrest : ∀ {t : Tuple} {r : Ty}, t.rest = some r → r ∈ t.elements :=
    fun hr => List.mem_append_right _ (Option.mem_toList.mpr hr)
  unfold tuplePairs at hq
  rcases List.mem_append.mp hq with hq | hq
  · obtain ⟨⟨s, i⟩, hs, hq⟩ := List.mem_filterMap.mp hq
    obtain ⟨t, ht, rfl⟩ := Option.map_eq_some_iff.mp hq
    exact ⟨hslot (List.fst_mem_of_mem_zipIdx hs), Ty.mem_elements_of_element? ht⟩
  · cases hr : u.rest with
    | none => simp [hr] at hq
    | some r =>
      simp only [hr, List.mem_append, List.mem_map, Option.mem_toList, Option.map_eq_some_iff] at hq
      rcases hq with ⟨s, hs, rfl⟩ | ⟨t, ht, rfl⟩
      · exact ⟨hrest hr, hslot (List.mem_of_mem_drop hs)⟩
      · exact ⟨hrest hr, hrest ht⟩

/-- What the index signature of an object is compared with are parts of the other. -/
theorem mem_indexPairs {a : Members} (hq : q ∈ indexPairs m a) :
    q.1 ∈ (Shape.object m).parts ∧ q.2 ∈ (Shape.object a).parts := by
  obtain ⟨-, hindex, -⟩ := Shape.forall_parts_object.mp
    fun p (hp : p ∈ (Shape.object m).parts) => hp
  obtain ⟨hfields, hindex', -⟩ :=
    Shape.forall_parts_object.mp fun p (hp : p ∈ (Shape.object a).parts) => hp
  unfold indexPairs at hq
  cases hi : m.index with
  | none => simp [hi] at hq
  | some i =>
    simp only [hi, List.mem_append, List.mem_map, Option.mem_toList, Option.map_eq_some_iff] at hq
    rcases hq with ⟨j, hj, rfl⟩ | ⟨f, hf, rfl⟩
    · exact ⟨hindex i hi, hindex' j hj⟩
    · exact ⟨hindex i hi, hfields f hf⟩

/-- The element of a rest parameter is a part of it, or `any`. -/
theorem restElement_cases (T : Table) (r : Ty) :
    Ty.restElement T r ∈ (T.shape r).parts ∨ Ty.restElement T r = .any := by
  unfold Ty.restElement
  split
  next element readonly hs =>
    exact .inl (by simp [hs, Shape.parts])
  next u hs =>
    cases hr : u.rest with
    | none => exact .inr rfl
    | some t => exact .inl (by simp [hs, hr, Shape.parts, Tuple.elements])
  · exact .inr rfl

/-- The type for a place of a signature is one of its parts, or the element of its rest
parameter. -/
theorem parameterAt_cases (h : Ty.parameterAt? T c i = some t) :
    t ∈ (Shape.function c).parts ∨
      ∃ r ∈ (Shape.function c).parts, t ∈ (T.shape r).parts ∨ t = .any := by
  obtain ⟨hparams, hrest, -, -⟩ :=
    Shape.forall_parts_function.mp fun p (hp : p ∈ (Shape.function c).parts) => hp
  unfold Ty.parameterAt? at h
  cases hq : c.params[i]? with
  | some q =>
    simp only [hq] at h
    obtain rfl := Option.some.inj h
    exact .inl (hparams q (List.mem_of_getElem? hq))
  | none =>
    cases hr : c.rest with
    | none => simp [hq, hr] at h
    | some r =>
      simp only [hq, hr] at h
      obtain rfl := Option.some.inj h
      exact .inr ⟨r.type, hrest r hr, restElement_cases T r.type⟩

theorem has_parameterAt (hT : T.WellFormed) (hc : T.HasCallable c)
    (h : Ty.parameterAt? T c i = some t) : T.Has t := by
  rcases parameterAt_cases h with ht | ⟨r, hr, ht | rfl⟩
  · exact hc t ht
  · exact hT.has_part (hc r hr) ht
  · exact T.has_prim _

theorem mem_parameterAt (hF : K.Reads F) (hT : K.ok T)
    (hparts : ∀ t ∈ (Shape.function c).parts, F.Mem T t)
    (h : Ty.parameterAt? T c i = some t) : F.Mem T t := by
  rcases parameterAt_cases h with ht | ⟨r, hr, ht | rfl⟩
  · exact hparts t ht
  · exact hF.part hT (hparts r hr) ht
  · exact hF.prim T _

theorem mem_splitMembers (hF : K.Reads F) (hT : K.ok T) {m : Ty} (ht : F.Mem T t)
    (hm : m ∈ Ty.splitMembers T t) : F.Mem T m := by
  have hmember : ∀ k ∈ T.members t, F.Mem T k := by
    intro k hk
    unfold Table.members at hk
    cases hs : T.shape t with
    | union ms =>
      rw [hs] at hk
      exact hF.part hT ht (by rw [hs]; exact hk)
    | _ =>
      rw [hs] at hk
      obtain rfl := List.mem_singleton.mp hk
      exact ht
  obtain ⟨k, hk, hm⟩ := List.mem_flatMap.mp hm
  split at hm
  · rcases List.mem_pair.mp hm with rfl | rfl
    · exact hF.truth T true
    · exact hF.truth T false
  · obtain rfl := List.mem_singleton.mp hm
    exact hmember m hk

end Pairs

section Unification

variable {compare compare' : Ty → Ty → Unify Unit} {p argument : Ty}

/-- A comparison finds types of the family in arguments that belong to it, and lasts. -/
def Comparing (K : Regime) (F : Table.Family) (compare compare' : Ty → Ty → Unify Unit) : Prop :=
  ∀ T p argument, K.ok T → T.Has p → F.Mem T argument →
    Collects K F T (compare p argument) (compare' p argument) (fun _ _ => True)

theorem collects_pairwise (hc : Comparing K F compare compare') (hT : K.ok T)
    {pairs : List (Ty × Ty)} (hpairs : ∀ q ∈ pairs, T.Has q.1 ∧ F.Mem T q.2) :
    Collects K F T (pairwise compare pairs) (pairwise compare' pairs) (fun _ _ => True) := by
  refine collects_forM hT fun q hq T1 hT1 h1 => ?_
  obtain ⟨hp, ha⟩ := hpairs q hq
  exact hc T1 q.1 q.2 hT1 (K.has h1 hp) (Regime.Reach.mem (.inl h1) F ha)

theorem collects_tuple (hF : K.Reads F) (hc : Comparing K F compare compare') (hT : K.ok T)
    (hu : ∀ t ∈ u.elements, T.Has t) (ha : F.Mem T argument) :
    Collects K F T (tuple compare u argument) (tuple compare' u argument) (fun _ _ => True) := by
  refine collects_resolve_bind hF hT ha fun r T1 hT1 h1 hr => ?_
  refine collects_table_bind (fun T2 h2 => by rw [Table.shape_of_le h2 (F.has hr)]) ?_
  have hparts := fun p => hF.part (p := p) hT1 hr
  cases hs : T1.shape r with
  | tuple a =>
    rw [hs] at hparts
    refine collects_pairwise hc hT1 fun q hq => ?_
    obtain ⟨hp, hmem⟩ := mem_tuplePairs hq
    exact ⟨K.has h1 (hu _ hp), hparts _ hmem⟩
  | array element readonly =>
    rw [hs] at hparts
    refine collects_pairwise hc hT1 fun q hq => ?_
    obtain ⟨t, ht, rfl⟩ := List.mem_map.mp hq
    exact ⟨K.has h1 (hu t ht), hparts element (by simp [Shape.parts])⟩
  | _ => exact collects_pure hT1 trivial

theorem collects_array (hF : K.Reads F) (hc : Comparing K F compare compare') (hT : K.ok T)
    (he : T.Has element) (ha : F.Mem T argument) :
    Collects K F T (array compare element argument) (array compare' element argument)
      (fun _ _ => True) := by
  refine collects_resolve_bind hF hT ha fun r T1 hT1 h1 hr => ?_
  refine collects_table_bind (fun T2 h2 => by rw [Table.shape_of_le h2 (F.has hr)]) ?_
  have hparts := fun p => hF.part (p := p) hT1 hr
  cases hs : T1.shape r with
  | array own readonly =>
    rw [hs] at hparts
    exact hc T1 element own hT1 (K.has h1 he) (hparts own (by simp [Shape.parts]))
  | tuple a =>
    rw [hs] at hparts
    refine (collects_settles hT1 (hF.union hT1 hparts)).bind fun u T2 hT2 h2 hu => ?_
    exact hc T2 element u hT2 (K.has h2 (K.has h1 he)) hu
  | _ => exact collects_pure hT1 trivial

theorem collects_reference (hF : K.Reads F) (hc : Comparing K F compare compare') (hT : K.ok T)
    (hp : T.Has p) {name : String} {arguments : List Ty}
    (hs : T.shape p = .reference name arguments)
    (ha : F.Mem T argument) :
    Collects K F T (reference compare p name arguments argument)
      (reference compare' p name arguments argument) (fun _ _ => True) := by
  have hfollow : Collects K F T (do compare (← p.resolve) argument)
      (do compare' (← p.resolve) argument) (fun _ _ => True) :=
    (collects_lift (hF.follow hT hp)).bind fun r T1 hT1 h1 hr =>
      hc T1 r argument hT1 hr (Regime.Reach.mem (.inl h1) F ha)
  refine collects_table_bind (fun T2 h2 => by rw [Table.shape_of_le h2 (F.has ha)]) ?_
  have hparts := fun p => hF.part (p := p) hT ha
  cases hother : T.shape argument with
  | reference other others =>
    rw [hother] at hparts
    dsimp only
    split
    · refine collects_pairwise hc hT fun q hq => ?_
      obtain ⟨hq1, hq2⟩ := List.of_mem_zip hq
      exact ⟨(K.wellFormed hT).has_part hp (by rw [hs]; exact hq1), hparts _ hq2⟩
    · exact hfollow
  | _ => exact hfollow

theorem collects_object (hF : K.Reads F) (hc : Comparing K F compare compare') (hT : K.ok T)
    (hm : ∀ t ∈ (Shape.object m).parts, T.Has t) (ha : F.Mem T argument) :
    Collects K F T (object compare m argument) (object compare' m argument) (fun _ _ => True) := by
  obtain ⟨hfields, -, hcalls⟩ := Shape.forall_parts_object.mp hm
  refine collects_resolve_bind hF hT ha fun r T1 hT1 h1 hr => ?_
  refine Collects.bind (Q := fun _ _ => True) (collects_forM hT1 fun f hf T2 hT2 h2 => ?field)
    fun _ T2 hT2 h2 _ => ?rest
  case field =>
    have hr2 := Regime.Reach.mem (.inl h2) F hr
    refine (collects_lift (Ty.runs_property hF hT2 hr2 f.name)).bind fun o T3 hT3 h3 ho => ?_
    cases o with
    | none => exact collects_pure hT3 trivial
    | some g =>
      exact hc T3 f.type g.type hT3 (K.has h3 (K.has h2 (K.has h1 (hfields f hf)))) (ho g rfl)
  case rest =>
    have h02 := K.trans h1 h2
    have hr2 := Regime.Reach.mem (.inl h2) F hr
    have hsignatures : ∀ T3, K.ok T3 → K.grows T2 T3 → Collects K F T3 (do
        let signatures ← r.callSignatures
        pairwise compare (m.calls.zip signatures)) (do
        let signatures ← r.callSignatures
        pairwise compare' (m.calls.zip signatures)) (fun _ _ => True) := by
      intro T3 hT3 h3
      have hr3 := Regime.Reach.mem (.inl h3) F hr2
      refine (collects_lift (Ty.runs_callSignatures hF hT3 hr3)).bind fun fs T4 hT4 h4 hfs => ?_
      refine collects_pairwise hc hT4 fun q hq => ?_
      obtain ⟨hq1, hq2⟩ := List.of_mem_zip hq
      exact ⟨K.has h4 (K.has h3 (K.has h02 (hcalls _ hq1))), hfs _ hq2⟩
    refine collects_table_bind (fun T3 h3 => by rw [Table.shape_of_le h3 (F.has hr2)]) ?_
    have hparts := fun p => hF.part (p := p) hT2 hr2
    cases hs : T2.shape r with
    | object a =>
      rw [hs] at hparts
      refine (collects_pairwise hc hT2 fun q hq => ?_).bind fun _ T3 hT3 h3 _ =>
        hsignatures T3 hT3 h3
      obtain ⟨hq1, hq2⟩ := mem_indexPairs hq
      exact ⟨K.has h02 (hm _ hq1), hparts _ hq2⟩
    | _ => exact hsignatures T2 hT2 (K.refl T2)

/-- What the places of two signatures are compared with. -/
theorem mem_callablePairs (hF : K.Reads F) (hT : K.ok T) {a : Callable} (hc : T.HasCallable c)
    (ha : ∀ t ∈ (Shape.function a).parts, F.Mem T t)
    (hq : q ∈ (c.params.zipIdx.filterMap fun (x, i) =>
        (Ty.parameterAt? T a i).map fun t => (x.type, t)) ++
      (match c.rest, a.rest with
        | some r, some s => [(r.type, s.type)]
        | _, _ => []) ++ [(c.result, a.result)]) : T.Has q.1 ∧ F.Mem T q.2 := by
  obtain ⟨hparams, hrest, -, hresult⟩ := Shape.forall_parts_function.mp hc
  obtain ⟨-, hrest', -, hresult'⟩ := Shape.forall_parts_function.mp ha
  rcases List.mem_append.mp hq with hq | hq
  · rcases List.mem_append.mp hq with hq | hq
    · obtain ⟨⟨x, i⟩, hx, hq⟩ := List.mem_filterMap.mp hq
      obtain ⟨t, ht, rfl⟩ := Option.map_eq_some_iff.mp hq
      exact ⟨hparams x (List.fst_mem_of_mem_zipIdx hx), mem_parameterAt hF hT ha ht⟩
    · split at hq
      next x y hx hy =>
        obtain rfl := List.mem_singleton.mp hq
        exact ⟨hrest x hx, hrest' y hy⟩
      · exact absurd hq (by simp)
  · obtain rfl := List.mem_singleton.mp hq
    exact ⟨hresult, hresult'⟩

theorem collects_function (hF : K.Reads F) (hc : Comparing K F compare compare') (hT : K.ok T)
    (hparts : T.HasCallable c) (ha : F.Mem T argument) :
    Collects K F T (function compare c argument) (function compare' c argument)
    (fun _ _ => True) := by
  refine collects_resolve_bind hF hT ha fun r T1 hT1 h1 hr => ?_
  refine (collects_lift (Ty.runs_callSignatures hF hT1 hr)).bind fun fs T2 hT2 h2 hfs => ?_
  cases fs with
  | nil => exact collects_pure hT2 trivial
  | cons first rest =>
    refine (collects_settles hT2 (hF.erase hT2 (hfs first (by simp)))).bind
      fun erased T3 hT3 h3 herased => ?_
    have hparts3 : T3.HasCallable c := fun t ht => K.has (K.trans h1 (K.trans h2 h3)) (hparts t ht)
    have herased' := fun p => hF.part (p := p) hT3 herased
    have hcallable : ∀ T4, T3 ≤ T4 → T4.callable? erased = T3.callable? erased :=
      fun T4 h4 => Table.callable?_of_le h4 (F.has herased)
    cases hd : T3.callable? erased with
    | none =>
      refine collects_table_bind (fun T4 h4 => by rw [hcallable T4 h4, hd]) ?_
      rw [hd]
      exact collects_pure hT3 trivial
    | some d =>
      rw [Table.shape_of_callable? hd] at herased'
      have hd' : T3.HasCallable d := fun t ht => F.has (herased' t ht)
      refine collects_table_bind (fun T4 h4 => ?_) ?_
      · simp only [hcallable T4 h4, hd, Assign.parameterAt?_of_le h4 hd']
      · simp only [hd]
        exact collects_pairwise hc hT3 fun q hq => mem_callablePairs hF hT3 hparts3 herased' hq

/-- The types in a list that pass a test are types of the list. -/
theorem runs_select {test : Ty → Typing Bool} (hT : K.ok T) (hms : ∀ m ∈ ms, F.Mem T m)
    (htest : ∀ T1 m, K.ok T1 → K.grows T T1 → F.Mem T1 m →
      Runs K T1 (test m) (test m) (fun _ _ => True)) :
    Runs K T (Ty.select test ms) (Ty.select test ms) (fun T1 us => ∀ u ∈ us, F.Mem T1 u) := by
  induction ms generalizing T with
  | nil => exact runs_pure hT (by simp)
  | cons m ms ih =>
    refine (htest T m hT (K.refl T) (hms m (by simp))).bind fun b T1 hT1 h1 _ => ?_
    have hselect := ih hT1
      (fun k hk => Regime.Reach.mem (.inl h1) F (hms k (List.mem_cons_of_mem _ hk)))
      fun T2 k hT2 h2 hk => htest T2 k hT2 (K.trans h1 h2) hk
    cases b with
    | true =>
      refine hselect.bind fun us T2 hT2 h2 hus => runs_pure hT2 fun u hu => ?_
      rcases List.mem_cons.mp hu with rfl | hu
      · exact Regime.Reach.mem (.inl (K.trans h1 h2)) F (hms u (by simp))
      · exact hus u hu
    | false => exact hselect

theorem collects_union (hF : K.Reads F) (hc : Comparing K F compare compare') (hT : K.ok T)
    (hms : ∀ m ∈ ms, T.Has m) (ha : F.Mem T argument) :
    Collects K F T (union vars compare ms argument) (union vars compare' ms argument)
      (fun _ _ => True) := by
  refine collects_table_bind (fun T2 h2 => ?_) ?_
  · have hmentions : ms.partition (Ty.mentions T2 vars) = ms.partition (Ty.mentions T vars) := by
      rw [List.partition_eq_filter_filter, List.partition_eq_filter_filter]
      have hsame : ∀ m ∈ ms, Ty.mentions T2 vars m = Ty.mentions T vars m :=
        fun m hm => Table.mentions_of_le h2 (K.wellFormed hT) (hms m hm)
      have hnot : ∀ m ∈ ms, (not ∘ Ty.mentions T2 vars) m = (not ∘ Ty.mentions T vars) m :=
        fun m hm => congrArg not (hsame m hm)
      rw [List.filter_congr hsame, List.filter_congr hnot]
    simp only [hmentions]
  rw [List.partition_eq_filter_filter]
  generalize hg : ms.filter (Ty.mentions T vars) = generic
  generalize hf : ms.filter (not ∘ Ty.mentions T vars) = fixed
  have hgeneric : ∀ g ∈ generic, T.Has g := fun g h => hms g (List.mem_of_mem_filter (hg ▸ h))
  have hfixed : ∀ g ∈ fixed, T.Has g := fun g h => hms g (List.mem_of_mem_filter (hf ▸ h))
  have hall : Collects K F T (pairwise compare (generic.map fun g => (g, argument)))
      (pairwise compare' (generic.map fun g => (g, argument))) (fun _ _ => True) := by
    refine collects_pairwise hc hT fun q hq => ?_
    obtain ⟨g, hg, rfl⟩ := List.mem_map.mp hq
    exact ⟨hgeneric g hg, ha⟩
  have hsingle : ∀ g ∈ generic, Collects K F T (do
      let others ← Ty.unionOf fixed
      let a ← argument.resolve
      let parts := Ty.splitMembers (← getThe Table) a
      let rest ← Ty.unionOf (← Ty.select (fun m => return !(← m.isAssignableTo others)) parts)
      if rest ≠ .never then compare g rest) (do
      let others ← Ty.unionOf fixed
      let a ← argument.resolve
      let parts := Ty.splitMembers (← getThe Table) a
      let rest ← Ty.unionOf (← Ty.select (fun m => return !(← m.isAssignableTo others)) parts)
      if rest ≠ .never then compare' g rest) (fun _ _ => True) := by
    intro g hg
    refine (collects_settles hT (Interning.settles_unionOf (K.wellFormed hT) hfixed)).bind
      fun others T1 hT1 h1 hothers => ?_
    refine collects_resolve_bind hF hT1 (Regime.Reach.mem (.inl h1) F ha) fun a T2 hT2 h2 ha2 => ?_
    refine collects_table_bind (fun T3 h3 => by rw [Ty.splitMembers, Ty.splitMembers,
      Table.members_of_le h3 (F.has ha2)]) ?_
    have htest : ∀ T3 m, K.ok T3 → K.grows T2 T3 → F.Mem T3 m →
        Runs K T3 (do return !(← m.isAssignableTo others)) (do return !(← m.isAssignableTo others))
          (fun _ _ => True) := by
      intro T3 m hT3 h3 hm
      refine (hF.compare hT3 (F.has hm) (K.has h3 (K.has h2 hothers.1))).bind fun b T4 hT4 _ _ => ?_
      exact runs_pure hT4 trivial
    refine (collects_lift (runs_select hT2 (fun m hm => mem_splitMembers hF hT2 ha2 hm) htest)).bind
      fun us T3 hT3 h3 hus => ?_
    refine (collects_settles hT3 (hF.union hT3 hus)).bind fun rest T4 hT4 h4 hrest => ?_
    split
    · exact hc T4 g rest hT4 (K.has (K.trans (K.trans h1 h2) (K.trans h3 h4)) (hgeneric g hg)) hrest
    · exact collects_pure hT4 trivial
  dsimp only
  split
  · exact hc T _ argument hT (hgeneric _ (List.mem_singleton.mpr rfl)) ha
  · exact hsingle _ (List.mem_singleton.mpr rfl)
  · exact hall

theorem collects_byShape (hF : K.Reads F) (hc : Comparing K F compare compare') (hT : K.ok T)
    (hp : T.Has p) (ha : F.Mem T argument) :
    Collects K F T (byShape vars compare p argument) (byShape vars compare' p argument)
      (fun _ _ => True) := by
  refine collects_table_bind (fun T2 h2 => by rw [Table.shape_of_le h2 hp]) ?_
  have hparts := fun t ht => (K.wellFormed hT).has_part hp (p := t) ht
  cases hs : T.shape p with
  | parameter v =>
    intro e he
    change Runs K T (pure ((), { e with found := e.found ++ [(v, argument)] }))
      (pure ((), { e with found := e.found ++ [(v, argument)] })) _
    apply runs_pure hT
    refine ⟨trivial, fun q hq => ?_⟩
    rcases List.mem_append.mp hq with hq | hq
    · exact he q hq
    · obtain rfl := List.mem_singleton.mp hq
      exact ha
  | reference name arguments => exact collects_reference hF hc hT hp hs ha
  | array element readonly =>
    rw [hs] at hparts
    exact collects_array hF hc hT (hparts element (by simp [Shape.parts])) ha
  | tuple u =>
    rw [hs] at hparts
    exact collects_tuple hF hc hT hparts ha
  | object m =>
    rw [hs] at hparts
    exact collects_object hF hc hT hparts ha
  | function c =>
    rw [hs] at hparts
    exact collects_function hF hc hT hparts ha
  | union ms =>
    rw [hs] at hparts
    exact collects_union hF hc hT hparts ha
  | intersection ms =>
    rw [hs] at hparts
    refine collects_pairwise hc hT fun q hq => ?_
    obtain ⟨m, hm, rfl⟩ := List.mem_map.mp hq
    exact ⟨hparts m hm, ha⟩
  | _ => exact collects_pure hT trivial

/-- **Unification finds types of the family** in arguments that belong to it. -/
theorem comparing_unifyAt (hF : K.Reads F) (vars : List TypeVar) {d d' : Nat} (hd : d ≤ d') :
    Comparing K F (unifyAt vars d) (unifyAt vars d') := by
  induction d generalizing d' with
  | zero =>
    intro T p argument _ _ _ e _
    exact runs_outOfSteps
  | succ d ih =>
    obtain ⟨d', rfl⟩ : ∃ e, d' = e + 1 := ⟨d' - 1, by omega⟩
    intro T p argument hT hp ha
    refine collects_table_bind (fun T2 h2 => ?_) ?_
    · rw [Table.mentions_of_le h2 (K.wellFormed hT) hp]
    split
    · exact collects_pure hT trivial
    · -- what was compared before does not matter here, only what was found
      intro e he
      change Runs K T ((if e.visited.contains (p, argument) then pure ()
        else do
          modify fun e => { e with visited := (p, argument) :: e.visited }
          byShape vars (unifyAt vars d) p argument : Unify Unit).run e)
        ((if e.visited.contains (p, argument) then pure ()
        else do
          modify fun e => { e with visited := (p, argument) :: e.visited }
          byShape vars (unifyAt vars d') p argument : Unify Unit).run e) _
      split
      · exact runs_pure hT ⟨trivial, he⟩
      · exact collects_byShape hF (ih (Nat.le_of_succ_le_succ hd)) hT hp ha
          { e with visited := (p, argument) :: e.visited } he

theorem runs_unify (hF : K.Reads F) (hT : K.ok T) (hp : T.Has p)
    (ha : F.Mem T argument) (he : e.In F T) :
    Runs K T (unify vars e p argument) (unify vars e p argument) (fun T1 e' => e'.In F T1) := by
  refine runs_bounded fun d d' hd => ?_
  exact (comparing_unifyAt hF vars hd T p argument hT hp ha e he).bind
    fun r T1 hT1 _ hr => runs_pure hT1 hr.2

end Unification

theorem eq_ok_of_toOption {outcome : Except Problem Ty} {r : Ty} (h : outcome.toOption = some r) :
    outcome = .ok r := by
  cases outcome with
  | error => simp [Except.toOption] at h
  | ok => simpa [Except.toOption] using h

end Inference

end ShapeCheck
