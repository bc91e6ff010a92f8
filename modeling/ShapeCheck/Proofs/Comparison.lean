import ShapeCheck.Proofs.Rules

/-!
# The rules of assignability

Every part of the comparison of two types is a rule. If the types are of a family that comparisons
do not lead out of, so are those that it asks about. Where it asks without assuming the pair itself,
the source or the target is a part of the one compared, or the source is replaced by what it stands
for.

* `Assign.rule_structural` is the comparison of two structures, which asks about pairs of their
  parts.
* `Assign.Descends` lists the pairs that are asked about without a new assumption, `Assign.Asks` all
  pairs.
* `Assign.rule_step` is one layer of the rules.
-/

namespace ShapeCheck

open Table Interning

variable {u a b s t m source : Ty} {e : Enumeration} {c : Callable} {target : Field} {T T1 : Table}
  {v : TypeVar} {ms : List Ty} {K : Regime} {H : Table.Family}

namespace Typing

variable {α : Type}

/-- Work that makes types in one nested step. -/
theorem works_of_settles {x : Typing α} {work : Interning α} {V : Table → α → Prop} (hT : K.ok T)
    (hwork : Interning.Settles T work V) (hzero : x 0 T = none)
    (hsucc : ∀ n T2, T ≤ T2 → x (n + 1) T2 = some (work T2)) : Works K T x V := by
  have hle : T ≤ T := le_refl T
  refine ⟨fun n a T1 hx => ?_, fun _ => ⟨1, work T, fun m hm => ?_⟩⟩
  · cases n with
    | zero =>
      rw [hzero] at hx
      exact absurd hx (by simp)
    | succ n =>
      rw [hsucc n T hle] at hx
      obtain ⟨hat, hv⟩ := runs_lift hT hwork n a T1 hx
      refine ⟨⟨hat.ok, hat.grows, fun m hm => ?_, fun m hm T2 h2 => ?_⟩, hv⟩
      · obtain ⟨k, rfl⟩ : ∃ k, m = k + 1 := ⟨m - 1, by omega⟩
        rw [hsucc k T hle]
        exact hx
      · obtain ⟨k, rfl⟩ : ∃ k, m = k + 1 := ⟨m - 1, by omega⟩
        rw [hsucc k T2 (K.later_le (K.later_trans hat.grows h2))]
        exact hat.again n (Nat.le_refl n) T2 h2
  · obtain ⟨k, rfl⟩ : ∃ k, m = k + 1 := ⟨m - 1, by omega⟩
    exact hsucc k T hle

end Typing

/-- The shapes that are compared part by part: no union, intersection, reference, type parameter or
enum. -/
def Shape.isPlain : Shape → Bool
  | .primitive _ | .literal _ | .object _ | .array _ _ | .tuple _ | .function _
  | .classValue _ _ _ => true
  | _ => false

/-- The shapes whose parts are compared. -/
def Shape.isStructure : Shape → Bool
  | .object _ | .array _ _ | .tuple _ | .function _ => true
  | _ => false

/-- Comparisons of types of the first family do not lead out of it, and the parts of structures are
of the second family. -/
structure Regime.Compares (K : Regime) (M G : Table.Family) : Prop where
  prim : ∀ T p, G.Mem T (.prim p)
  part : ∀ {T t p}, K.ok T → G.Mem T t → (T.shape t).isStructure = true → p ∈ (T.shape t).parts →
    G.Mem T p
  erase : ∀ {T t}, K.ok T → G.Mem T t → Interning.Settles T t.erase G.Mem
  elements : ∀ {T t u}, K.ok T → G.Mem T t → T.shape t = .tuple u →
    Interning.Settles T (Ty.elementUnion u) G.Mem
  length : ∀ {T t u}, K.ok T → G.Mem T t → T.shape t = .tuple u →
    Interning.Settles T (Ty.tupleLength u) G.Mem
  whole : ∀ {T t}, K.ok T → M.Mem T t → (T.shape t).isPlain = true → G.Mem T t
  member : ∀ {T t m}, K.ok T → M.Mem T t → m ∈ T.combined t → M.Mem T m
  value : ∀ {T t enum name v}, K.ok T → M.Mem T t → T.shape t = .enumMember enum name v → M.Mem T v
  values : ∀ {T t e}, K.ok T → M.Mem T t → T.shape t = .enumeration e →
    Interning.Settles T (Ty.valueUnion e) M.Mem
  bound : ∀ {T t v}, K.ok T → M.Mem T t → T.shape t = .parameter v →
    M.Mem T ((T.typeVar v).bound.getD .unknown)

namespace Ty

section Plain

theorem hasOpenHead_of_isPlain (h : (T.shape t).isPlain = true) : hasOpenHead T t = false := by
  unfold hasOpenHead
  cases hs : T.shape t with
  | reference name arguments =>
    rw [hs] at h
    exact absurd h (by simp [Shape.isPlain])
  | intersection ms =>
    rw [hs] at h
    exact absurd h (by simp [Shape.isPlain])
  | _ => rfl

theorem mem_elements_of_element? {u : Tuple} {i : Int} {e : Ty} (h : u.element? i = some e) :
    e ∈ u.elements := by
  unfold Tuple.element? at h
  unfold Tuple.elements
  split at h
  · exact absurd h (by simp)
  · split at h
    next s hs =>
      injection h with h
      subst h
      exact List.mem_append_left _ (List.mem_map_of_mem (List.mem_of_getElem? hs))
    · exact List.mem_append_right _ (Option.mem_toList.mpr h)

theorem settles_tupleLength (hT : T.WellFormed) (u : Tuple) :
    Interning.Settles T (tupleLength u) Table.Has := by
  unfold tupleLength
  split
  · exact settles_pure hT (T.has_prim _)
  · exact (gives_literalOf hT _).has

/-- The property of a type that is compared part by part. -/
def plainProperty (s : Shape) (name : String) : Interning (Option Field) :=
  match s with
  | .primitive p => return primitiveProperty? p name
  | .literal l => return primitiveProperty? l.base name
  | .object m => return memberProperty? m name
  | .array element readonly => return arrayProperty? element readonly name
  | .tuple u => tupleProperty? u name
  | .function _ => return functionProperty? name
  | _ => return none

theorem primitiveProperty_prim (p : Primitive) (name : String) :
    ∀ g ∈ primitiveProperty? p name, ∃ q, g.type = .prim q := by
  intro g hg
  unfold primitiveProperty? at hg
  cases p with
  | any | invalid =>
    obtain rfl := Option.some.inj hg
    exact ⟨_, rfl⟩
  | string =>
    dsimp only at hg
    split at hg
    · obtain rfl := Option.some.inj hg
      exact ⟨_, rfl⟩
    · exact absurd hg (by simp)
  | _ => exact absurd hg (by simp)

/-- Such a type is not resolved before a property is looked up. -/
theorem propertyAt_of_isPlain (hplain : (T.shape t).isPlain = true) (name : String) (d n : Nat) :
    propertyAt name (d + 1) t n T = some (plainProperty (T.shape t) name T) := by
  unfold propertyAt
  rw [Typing.bind_of_some (resolve_closed n (hasOpenHead_of_isPlain hplain)), Typing.get_bind]
  cases hs : T.shape t with
  | union _ | intersection _ | reference _ _ | parameter _ | enumeration _ | enumMember _ _ _ =>
    rw [hs] at hplain
    exact absurd hplain (by simp [Shape.isPlain])
  | _ => rfl

theorem property?_of_isPlain (hplain : (T.shape t).isPlain = true) (name : String) (n : Nat) :
    t.property? name (n + 1) T = some (plainProperty (T.shape t) name T) :=
  propertyAt_of_isPlain hplain name n (n + 1)

section Properties

variable {M G : Table.Family} (hC : K.Compares M G)

include hC

theorem settles_tupleProperty (hT : K.ok T) (ht : G.Mem T t) {u : Tuple} (hs : T.shape t = .tuple u)
    (name : String) :
    Interning.Settles T (tupleProperty? u name) (fun T1 f => ∀ g ∈ f, G.Mem T1 g.type) := by
  have hwf := K.wellFormed hT
  unfold tupleProperty?
  split
  · refine (hC.length hT ht hs).bind fun l T1 hT1 _ hl => ?_
    refine settles_pure hT1 fun g hg => ?_
    obtain rfl := Option.some.inj hg
    exact hl
  · cases Decimal.integer? name with
    | none => exact settles_pure hwf (by simp)
    | some i =>
      refine settles_pure hwf fun g hg => ?_
      obtain ⟨e, he, rfl⟩ := Option.map_eq_some_iff.mp hg
      exact hC.part hT ht (by rw [hs]; rfl) (by rw [hs]; exact mem_elements_of_element? he)

/-- Looking up a property of such a type makes types at most. -/
theorem works_property (hT : K.ok T) (ht : G.Mem T t) (hplain : (T.shape t).isPlain = true)
    (hobject : ∀ m, T.shape t ≠ .object m) (name : String) :
    Typing.Works K T (t.property? name) (fun T1 f => ∀ g ∈ f, G.Mem T1 g.type) := by
  have hwf := K.wellFormed hT
  have hsucc : ∀ n T2, T ≤ T2 →
      t.property? name (n + 1) T2 = some (plainProperty (T.shape t) name T2) := by
    intro n T2 h2
    have hshape := shape_of_le h2 (G.has ht)
    rw [property?_of_isPlain (hshape ▸ hplain), hshape]
  refine Typing.works_of_settles hT ?_ rfl hsucc
  have hpart := fun h p (hp : p ∈ (T.shape t).parts) => hC.part hT ht h hp
  have hprimitive : ∀ p, ∀ g ∈ primitiveProperty? p name, G.Mem T g.type := by
    intro p g hg
    obtain ⟨q, hq⟩ := primitiveProperty_prim p name g hg
    exact hq ▸ hC.prim T q
  cases hs : T.shape t with
  | primitive p => exact settles_pure hwf (hprimitive p)
  | literal l => exact settles_pure hwf (hprimitive l.base)
  | object m => exact absurd hs (hobject m)
  | array element readonly =>
    rw [hs] at hpart
    refine settles_pure hwf fun g hg => ?_
    unfold arrayProperty? at hg
    split_ifs at hg
    · obtain rfl := Option.some.inj hg
      exact hC.prim T _
    · obtain rfl := Option.some.inj hg
      exact hpart rfl element (by simp [Shape.parts])
    · exact absurd hg (by simp)
  | tuple u => exact settles_tupleProperty hC hT ht hs name
  | function c =>
    refine settles_pure hwf fun g hg => ?_
    unfold functionProperty? at hg
    split at hg
    · obtain rfl := Option.some.inj hg
      exact hC.prim T _
    · obtain rfl := Option.some.inj hg
      exact hC.prim T _
    · exact absurd hg (by simp)
  | _ => exact settles_pure hwf (by simp)

end Properties

/-- The call signatures of a type that is compared part by part. -/
def plainSignatures (t : Ty) : Shape → List Ty
  | .function _ => [t]
  | .object m => m.calls
  | _ => []

theorem works_plainSignatures (hT : K.ok T) (hhas : T.Has t) (hplain : (T.shape t).isPlain = true) :
    Typing.Works K T t.callSignatures (fun _ us => us = plainSignatures t (T.shape t)) := by
  have hsucc : ∀ n T2, T ≤ T2 → t.callSignatures (n + 1) T2 =
      some ((return plainSignatures t (T.shape t) : Interning (List Ty)) T2) := by
    intro n T2 h2
    have hshape := shape_of_le h2 hhas
    change callSignaturesAt (n + 1) t (n + 1) T2 = _
    unfold callSignaturesAt
    rw [Typing.bind_of_some (resolve_closed (n + 1) (hasOpenHead_of_isPlain (hshape ▸ hplain)))]
    rw [Typing.get_bind, hshape]
    cases hs : T.shape t with
    | union _ | intersection _ | reference _ _ | parameter _ | enumeration _ | enumMember _ _ _ =>
      rw [hs] at hplain
      exact absurd hplain (by simp [Shape.isPlain])
    | _ => rfl
  exact Typing.works_of_settles hT (settles_pure (K.wellFormed hT) rfl) rfl hsucc

theorem works_callSignatures {M G : Table.Family} (hC : K.Compares M G)
    (hT : K.ok T) (ht : G.Mem T t)
    (hplain : (T.shape t).isPlain = true) :
    Typing.Works K T t.callSignatures (fun T1 us => ∀ u ∈ us, G.Mem T1 u) := by
  obtain ⟨hruns, hends⟩ := works_plainSignatures hT (G.has ht) hplain
  refine ⟨hruns.imp fun us T1 _ h1 hus => ?_, hends⟩
  subst hus
  have hkeep : ∀ u, G.Mem T u → G.Mem T1 u := fun u hu =>
    G.keep (fun _ => K.has h1) (fun _ => K.shape h1) hu
  cases hs : T.shape t with
  | function c =>
    intro u hu
    obtain rfl := List.mem_singleton.mp hu
    exact hkeep u ht
  | object m =>
    intro u hu
    exact hkeep u (hC.part hT ht (by rw [hs]; rfl) (by rw [hs]; exact List.mem_append_right _ hu))
  | _ => simp [plainSignatures]

end Plain

end Ty

namespace Assign

/-- Any pair of types of the family may be asked about. -/
def AsksAny (K : Regime) (G : Table.Family) (Q : Bool → Table → Ty → Ty → Prop)
    (inner : Bool) : Prop :=
  ∀ T a b, K.ok T → G.Mem T a → G.Mem T b → Q inner T a b

section Parts

variable {T2 : Table} {s t : Callable}

theorem restElement_of_le (h : T ≤ T2) (hu : T.Has u) :
    Ty.restElement T2 u = Ty.restElement T u := by
  rw [Ty.restElement, Ty.restElement, shape_of_le h hu]

theorem parameterAt?_of_le (h : T ≤ T2) (hs : T.HasCallable s) (i : Nat) :
    Ty.parameterAt? T2 s i = Ty.parameterAt? T s i := by
  unfold Ty.parameterAt?
  cases s.params[i]? with
  | some p => rfl
  | none =>
    cases hr : s.rest with
    | none => rfl
    | some r =>
      dsimp only
      rw [restElement_of_le h ((Table.hasCallable_iff.mp hs).2.1 r hr)]

/-- The pairs that two functions are compared by, results apart. -/
def argumentPairs (T : Table) (s t : Callable) : List (Ty × Ty) :=
  parameterPairs T s t ++ restPairs T s t ++ receiverPairs s t

theorem argumentPairs_of_le (h : T ≤ T2) (hs : T.HasCallable s) (ht : T.HasCallable t) :
    argumentPairs T2 s t = argumentPairs T s t := by
  have hparams : parameterPairs T2 s t = parameterPairs T s t := by
    unfold parameterPairs
    simp only [parameterAt?_of_le h hs, parameterAt?_of_le h ht]
  have hrests : restPairs T2 s t = restPairs T s t := by
    unfold restPairs
    cases hrs : s.rest with
    | none => rfl
    | some a =>
      cases hrt : t.rest with
      | none => rfl
      | some b =>
        dsimp only
        rw [restElement_of_le h ((Table.hasCallable_iff.mp hs).2.1 a hrs),
          restElement_of_le h ((Table.hasCallable_iff.mp ht).2.1 b hrt)]
  rw [argumentPairs, argumentPairs, hparams, hrests]

end Parts

section Rules

variable {M G : Table.Family} (hC : K.Compares M G) {Q : Bool → Table → Ty → Ty → Prop}
  {inner : Bool}

/-- The parts of a function are of the family. -/
def Calls (G : Table.Family) (T : Table) (c : Callable) : Prop :=
  ∀ p ∈ (Shape.function c).parts, G.Mem T p

theorem Calls.has (h : Calls G T c) : T.HasCallable c := fun p hp => G.has (h p hp)

section Pairs

variable {s t : Callable}

include hC

theorem mem_restElement (hT : K.ok T) (hu : G.Mem T u) : G.Mem T (Ty.restElement T u) := by
  have hpart := fun h p (hp : p ∈ (T.shape u).parts) => hC.part hT hu h hp
  unfold Ty.restElement
  cases hs : T.shape u with
  | array element _ =>
    rw [hs] at hpart
    exact hpart rfl element (by simp [Shape.parts])
  | tuple v =>
    rw [hs] at hpart
    dsimp only
    cases hr : v.rest with
    | none => exact hC.prim T _
    | some r => exact hpart rfl r (List.mem_append_right _ (Option.mem_toList.mpr hr))
  | _ => exact hC.prim T _

theorem mem_parameterAt (hT : K.ok T) (hs : Calls G T s) {i : Nat}
    (hu : Ty.parameterAt? T s i = some u) : G.Mem T u := by
  obtain ⟨hparams, hrest, -, -⟩ := Shape.forall_parts_function.mp hs
  unfold Ty.parameterAt? at hu
  cases hp : s.params[i]? with
  | some p =>
    rw [hp] at hu
    obtain rfl := Option.some.inj hu
    exact hparams p (List.mem_of_getElem? hp)
  | none =>
    rw [hp] at hu
    cases hr : s.rest with
    | none =>
      rw [hr] at hu
      exact absurd hu (by simp)
    | some r =>
      rw [hr] at hu
      obtain rfl := Option.some.inj hu
      exact mem_restElement hC hT (hrest r hr)

theorem mem_argumentPairs (hT : K.ok T) (hs : Calls G T s) (ht : Calls G T t) :
    ∀ p ∈ argumentPairs T s t, G.Mem T p.1 ∧ G.Mem T p.2 := by
  obtain ⟨-, hsrest, hsreceiver, -⟩ := Shape.forall_parts_function.mp hs
  obtain ⟨-, htrest, htreceiver, -⟩ := Shape.forall_parts_function.mp ht
  intro p hp
  simp only [argumentPairs, List.mem_append] at hp
  rcases hp with (hp | hp) | hp
  · obtain ⟨i, -, hi⟩ := List.mem_filterMap.mp hp
    cases ha : Ty.parameterAt? T s i with
    | none =>
      rw [ha] at hi
      exact absurd hi (by simp)
    | some a =>
      cases hb : Ty.parameterAt? T t i with
      | none =>
        rw [ha, hb] at hi
        exact absurd hi (by simp)
      | some b =>
        rw [ha, hb] at hi
        obtain rfl := Option.some.inj hi
        exact ⟨mem_parameterAt hC hT hs ha, mem_parameterAt hC hT ht hb⟩
  · unfold restPairs at hp
    split at hp
    next a b hrs hrt =>
      obtain rfl := List.mem_singleton.mp hp
      exact ⟨mem_restElement hC hT (hsrest a hrs), mem_restElement hC hT (htrest b hrt)⟩
    · exact absurd hp (by simp)
  · unfold receiverPairs at hp
    split at hp
    next a b hrs hrt =>
      obtain rfl := List.mem_singleton.mp hp
      exact ⟨hsreceiver a hrs, htreceiver b hrt⟩
    · exact absurd hp (by simp)

end Pairs

theorem rule_eitherWay (hQ : AsksAny K G Q inner) (hT : K.ok T) (ha : G.Mem T a)
    (hb : G.Mem T b) : Rule K Q T fun c => eitherWay (c inner) a b :=
  .either (.ask (hQ T b a hT hb ha))
    fun T1 hT1 h1 => .ask (hQ T1 a b hT1 (h1.mem G ha) (h1.mem G hb))

theorem rule_slots (hQ : AsksAny K G Q inner) {sourceRest targetRest : Option Ty}
    (source target : List Slot) (hT : K.ok T) (hrs : ∀ r ∈ sourceRest, G.Mem T r)
    (hrt : ∀ r ∈ targetRest, G.Mem T r) (hs : ∀ s ∈ source, G.Mem T s.type)
    (ht : ∀ t ∈ target, G.Mem T t.type) :
    Rule K Q T fun c => slots (c inner) sourceRest targetRest source target := by
  induction source generalizing T target with
  | nil =>
    induction target generalizing T with
    | nil =>
      unfold slots
      exact .verdict true
    | cons t target ih =>
      have hrest : ∀ T1, K.ok T1 → K.Reach T T1 →
          Rule K Q T1 fun c => slots (c inner) sourceRest targetRest [] target := by
        intro T1 hT1 h1
        exact ih hT1 (fun r hr => h1.mem G (hrs r hr)) (fun r hr => h1.mem G (hrt r hr)) (by simp)
          fun u hu => h1.mem G (ht u (List.mem_cons_of_mem _ hu))
      unfold slots
      split
      · exact .verdict false
      cases sourceRest with
      | none => exact hrest T hT (.refl K T)
      | some r => exact .both (.ask (hQ T r t.type hT (hrs r rfl) (ht t (by simp)))) hrest
  | cons s source ih =>
    cases target with
    | nil =>
      unfold slots
      cases targetRest with
      | none => exact .verdict false
      | some r =>
        refine .both (.ask (hQ T s.type r hT (hs s (by simp)) (hrt r rfl))) fun T1 hT1 h1 => ?_
        exact ih [] hT1 (fun r hr => h1.mem G (hrs r hr)) (fun r hr => h1.mem G (hrt r hr))
          (fun u hu => h1.mem G (hs u (List.mem_cons_of_mem _ hu))) (by simp)
    | cons t target =>
      unfold slots
      split
      · exact .verdict false
      refine .both (.ask (hQ T s.type t.type hT (hs s (by simp)) (ht t (by simp))))
        fun T1 hT1 h1 => ?_
      exact ih target hT1 (fun r hr => h1.mem G (hrs r hr)) (fun r hr => h1.mem G (hrt r hr))
        (fun u hu => h1.mem G (hs u (List.mem_cons_of_mem _ hu)))
        fun u hu => h1.mem G (ht u (List.mem_cons_of_mem _ hu))

theorem rule_tuples (hQ : AsksAny K G Q inner) (hT : K.ok T) {s t : Tuple}
    (hs : ∀ e ∈ s.elements, G.Mem T e) (ht : ∀ e ∈ t.elements, G.Mem T e) :
    Rule K Q T fun c => tuples (c inner) s t := by
  obtain ⟨hsslots, hsrest⟩ := Tuple.forall_elements.mp hs
  obtain ⟨htslots, htrest⟩ := Tuple.forall_elements.mp ht
  refine .both (rule_slots hQ s.slots t.slots hT hsrest htrest hsslots htslots) fun T1 hT1 h1 => ?_
  cases ha : s.rest with
  | none => exact .verdict true
  | some a =>
    cases hb : t.rest with
    | none => exact .verdict false
    | some b => exact .ask (hQ T1 a b hT1 (h1.mem G (hsrest a ha)) (h1.mem G (htrest b hb)))

theorem rule_found (hQ : AsksAny K G Q inner) (hT : K.ok T)
    (htarget : G.Mem T target.type) {f : Option Field} (hf : ∀ g ∈ f, G.Mem T g.type) :
    Rule K Q T fun c => found (c inner) target f := by
  cases f with
  | none => exact .verdict _
  | some f =>
    simp only [found]
    split
    · exact .verdict false
    · exact .ask (hQ T _ _ hT (hf f rfl) htarget)

include hC

theorem rule_callables (hQ : AsksAny K G Q inner) (hT : K.ok T) {s t : Callable}
    (hs : Calls G T s) (ht : Calls G T t) : Rule K Q T fun c => callables (c inner) s t := by
  unfold callables
  split
  · exact .verdict false
  refine .look (fun T2 h2 => ?_) ?_
  · have hpairs := argumentPairs_of_le h2 hs.has ht.has
    unfold argumentPairs at hpairs
    rw [hpairs]
  · refine .both (x := fun c => all (fun p : Ty × Ty => eitherWay (c inner) p.1 p.2)
      (argumentPairs T s t))
      (y := fun c => if t.result = .void then return true else c inner s.result t.result) ?_ ?_
    · refine .all (fun (p : Ty × Ty) c => eitherWay (c inner) p.1 p.2) hT _ fun p hp T1 hT1 h1 => ?_
      obtain ⟨hp1, hp2⟩ := mem_argumentPairs hC hT hs ht p hp
      exact rule_eitherWay hQ hT1 (h1.mem G hp1) (h1.mem G hp2)
    · intro T1 hT1 h1
      split
      · exact .verdict true
      · exact .ask (hQ T1 _ _ hT1 (h1.mem G (Shape.forall_parts_function.mp hs).2.2.2)
          (h1.mem G (Shape.forall_parts_function.mp ht).2.2.2))

theorem calls_of_callable? (hT : K.ok T) (ht : G.Mem T t)
    (hc : T.callable? t = some c) : Calls G T c := by
  unfold callable? at hc
  split at hc
  next c' hs =>
    obtain rfl := Option.some.inj hc
    intro p hp
    exact hC.part hT ht (by rw [hs]; rfl) (by rw [hs]; exact hp)
  · exact absurd hc (by simp)

theorem rule_functions (hQ : AsksAny K G Q inner) (hT : K.ok T) (hs : G.Mem T s)
    (ht : G.Mem T t) : Rule K Q T fun c => functions (c inner) s t := by
  refine .work (Typing.works_lift hT (hC.erase hT hs)) fun s' T1 hT1 h1 hs' => ?_
  refine .work (Typing.works_lift hT1 (hC.erase hT1 (h1.mem G ht))) fun t' T2 hT2 h2 ht' => ?_
  have hs2 := h2.mem G hs'
  refine .look (fun T3 h3 => ?_) ?_
  · rw [callable?_of_le h3 (G.has hs2), callable?_of_le h3 (G.has ht')]
  · split
    next a b ha hb =>
      exact rule_callables hC hQ hT2 (calls_of_callable? hC hT2 hs2 ha)
        (calls_of_callable? hC hT2 ht' hb)
    · exact .verdict false

/-- The members of an object of the family. -/
theorem mem_members (hT : K.ok T) (ht : G.Mem T t) {m : Members} (hs : T.shape t = .object m) :
    (∀ f ∈ m.fields, G.Mem T f.type) ∧ (∀ i ∈ m.index, G.Mem T i.value) ∧
    ∀ u ∈ m.calls, G.Mem T u := by
  refine Shape.forall_parts_object.mp fun p hp => hC.part hT ht ?_ ?_
  · rw [hs]
    rfl
  · rw [hs]
    exact hp

theorem works_ownField (hT : K.ok T) (hs : G.Mem T source)
    (hplain : (T.shape source).isPlain = true) (name : String) :
    Typing.Works K T (source.ownField? name) (fun T1 f => ∀ g ∈ f, G.Mem T1 g.type) := by
  refine Typing.works_get_bind (fun T2 h2 => ?_) ?_
  · rw [shape_of_le h2 (G.has hs)]
  by_cases hobject : ∃ m, T.shape source = .object m
  · obtain ⟨m, hm⟩ := hobject
    rw [hm]
    exact Typing.works_pure hT fun g hg =>
      (mem_members hC hT hs hm).1 g (List.mem_of_find?_eq_some hg)
  · push Not at hobject
    split
    next m hm =>
      exact absurd hm (hobject m)
    · exact Ty.works_property hC hT hs hplain hobject name

theorem rule_field (hQ : AsksAny K G Q inner) (hT : K.ok T) (hs : G.Mem T source)
    (hplain : (T.shape source).isPlain = true) (htarget : G.Mem T target.type) :
    Rule K Q T fun c => field (c inner) source target :=
  .work (works_ownField hC hT hs hplain target.name) fun _ _ hT1 h1 hf =>
    rule_found hQ hT1 (h1.mem G htarget) hf

theorem rule_index (hQ : AsksAny K G Q inner) (hT : K.ok T) (hs : G.Mem T source)
    {target : Index} (htarget : G.Mem T target.value) :
    Rule K Q T fun c => index (c inner) source target := by
  have hpart := fun h p (hp : p ∈ (T.shape source).parts) => hC.part hT hs h hp
  refine .look (fun T2 h2 => ?_) ?_
  · rw [shape_of_le h2 (G.has hs)]
  cases hshape : T.shape source with
  | object m =>
    obtain ⟨hfields, hindex, -⟩ := mem_members hC hT hs hshape
    refine .both (.all (fun (f : Field) c => c inner f.type target.value) hT _ ?_) ?_
    · intro f hf T1 hT1 h1
      have hfield := hfields f (List.mem_of_mem_filter hf)
      exact .ask (hQ T1 _ _ hT1 (h1.mem G hfield) (h1.mem G htarget))
    · intro T1 hT1 h1
      cases hi : m.index with
      | none => exact .verdict true
      | some i =>
        dsimp only
        split
        · exact .ask (hQ T1 _ _ hT1 (h1.mem G (hindex i hi)) (h1.mem G htarget))
        · exact .verdict true
  | array element readonly =>
    rw [hshape] at hpart
    dsimp only
    split
    · exact .ask (hQ T _ _ hT (hpart rfl element (by simp [Shape.parts])) htarget)
    · exact .verdict false
  | tuple u =>
    dsimp only
    split
    · refine .work (Typing.works_lift hT (hC.elements hT hs hshape)) fun e T1 hT1 h1 he => ?_
      exact .ask (hQ T1 _ _ hT1 he (h1.mem G htarget))
    · exact .verdict false
  | _ => exact .verdict false

/-- Whether one of the signatures fits the wanted one. -/
theorem rule_anyFunction (hQ : AsksAny K G Q inner) (hT : K.ok T)
    {signatures : List Ty} {wanted : Ty}
    (hs : ∀ s ∈ signatures, G.Mem T s) (hw : G.Mem T wanted) :
    Rule K Q T fun c => any (fun s => functions (c inner) s wanted) signatures :=
  .any (fun s c => functions (c inner) s wanted) hT signatures fun s hmem _ hT1 h1 =>
    rule_functions hC hQ hT1 (h1.mem G (hs s hmem)) (h1.mem G hw)

theorem rule_toObject (hQ : AsksAny K G Q inner) (hT : K.ok T) (hs : G.Mem T source)
    (hplain : (T.shape source).isPlain = true) {target : Ty} {m : Members} (ht : G.Mem T target)
    (hm : T.shape target = .object m) : Rule K Q T fun c => toObject (c inner) source m := by
  obtain ⟨hfields, hindex, hcalls⟩ := mem_members hC hT ht hm
  refine .both (.all (fun f c => field (c inner) source f) hT _ ?_) fun T1 hT1 h1 => ?_
  · intro f hf T1 hT1 h1
    exact rule_field hC hQ hT1 (h1.mem G hs) (h1.shape_eq (G.has hs) ▸ hplain)
      (h1.mem G (hfields f hf))
  refine .both (.all (fun i c => index (c inner) source i) hT1 _ ?_) fun T2 hT2 h2 => ?_
  · intro i hi T2 hT2 h2
    exact rule_index hC hQ hT2 ((h1.trans h2).mem G hs)
      ((h1.trans h2).mem G (hindex i (Option.mem_toList.mp hi)))
  have h02 := h1.trans h2
  split
  · exact .verdict true
  refine .work (Ty.works_callSignatures hC hT2 (h02.mem G hs) (h02.shape_eq (G.has hs) ▸ hplain))
    fun signatures T3 hT3 h3 hsig => ?_
  refine .all (fun w c => any (fun s => functions (c inner) s w) signatures) hT3 _ ?_
  intro w hw T4 hT4 h4
  exact rule_anyFunction hC hQ hT4 (fun s hs => h4.mem G (hsig s hs))
    ((h02.trans (h3.trans h4)).mem G (hcalls w hw))

/-- **The comparison of two structures** is a rule. -/
theorem rule_structural {target : Ty}
    (hQ : (T.shape target).isPlain = true → AsksAny K G Q inner) (hT : K.ok T)
    (hs : G.Mem T source) (hhas : T.Has target)
    (ht : (T.shape target).isPlain = true → G.Mem T target)
    (hplain : (T.shape source).isPlain = true) :
    Rule K Q T fun c => structural (c inner) source target := by
  have hspart := fun h p (hp : p ∈ (T.shape source).parts) => hC.part hT hs h hp
  have htpart := fun hplain h p (hp : p ∈ (T.shape target).parts) => hC.part hT (ht hplain) h hp
  refine .look (fun T2 h2 => ?_) ?_
  · rw [shape_of_le h2 (G.has hs), shape_of_le h2 hhas]
  cases hshape : T.shape target with
  | object m =>
    rw [hshape] at hQ ht
    exact rule_toObject hC (hQ rfl) hT hs hplain (ht rfl) hshape
  | function c =>
    rw [hshape] at hQ ht
    refine .work (Ty.works_callSignatures hC hT hs hplain) fun signatures T1 hT1 h1 hsig => ?_
    exact rule_anyFunction hC (hQ rfl) hT1 hsig (h1.mem G (ht rfl))
  | array element readonly =>
    rw [hshape] at hQ htpart
    have helement := htpart rfl rfl element (by simp [Shape.parts])
    dsimp only
    cases hsource : T.shape source with
    | array own _ =>
      rw [hsource] at hspart
      exact .ask (hQ rfl T _ _ hT (hspart rfl own (by simp [Shape.parts])) helement)
    | tuple u =>
      refine .work (Typing.works_lift hT (hC.elements hT hs hsource)) fun e T1 hT1 h1 he => ?_
      exact .ask (hQ rfl T1 _ _ hT1 he (h1.mem G helement))
    | _ => exact .verdict false
  | tuple t =>
    rw [hshape] at hQ htpart
    dsimp only
    cases hsource : T.shape source with
    | tuple s =>
      rw [hsource] at hspart
      exact rule_tuples (hQ rfl) hT (hspart rfl) (htpart rfl rfl)
    | _ => exact .verdict false
  | _ => exact .verdict false

end Rules

/-- The pairs that are asked about without a new assumption: a member of a union or an intersection
takes its place, on either side, or what a source stands for takes the place of the source. -/
inductive Descends (T : Table) (s t : Ty) : Ty → Ty → Prop
  | sourceMember {m : Ty} (h : m ∈ T.combined s) : Descends T s t m t
  | targetMember {m : Ty} (h : m ∈ T.combined t) : Descends T s t s m
  | value {enum v : Ty} {name : String} (h : T.shape s = .enumMember enum name v) :
    Descends T s t v t
  | values {e : Enumeration} {u : Ty} (h : T.shape s = .enumeration e)
    (hu : ∀ m ∈ T.members u, (T.shape m).isPlain = true) : Descends T s t u t
  | bound {v : TypeVar} (h : T.shape s = .parameter v) :
    Descends T s t ((T.typeVar v).bound.getD .unknown) t

/-- The pairs that one layer of the rules asks about for a pair of types of the first family, which
was met in the table `T0`. Without a new assumption they are those to which it descends. With the
pair assumed, unless it already was, they are pairs of the second family, where structures are
compared, or one of the types is resolved, to a type of the third family. -/
inductive Asks (M G H : Table.Family) (T0 : Table) (assumed : Bool) (s t : Ty) :
    Bool → Table → Ty → Ty → Prop
  | down {T : Table} {a b : Ty} (ha : M.Mem T a) (hb : M.Mem T b) (h : Descends T s t a b) :
    Asks M G H T0 assumed s t false T a b
  | inside {T : Table} {a b : Ty} (h : assumed = false) (hs : (T0.shape s).isPlain = true)
    (ht : (T0.shape t).isPlain = true) (ha : G.Mem T a) (hb : G.Mem T b) :
    Asks M G H T0 assumed s t true T a b
  | source {T : Table} {r : Ty} (h : assumed = false) (hs : Ty.hasOpenHead T0 s = true)
    (ht : M.Mem T t) (hr : H.Mem T r) : Asks M G H T0 assumed s t true T r t
  | target {T : Table} {r : Ty} (h : assumed = false) (hs : M.Mem T s)
    (ht : (T0.shape t).isReference = true) (hr : H.Mem T r) : Asks M G H T0 assumed s t true T s r

/-- If nothing is known of the families, then any pair may be asked about with an assumption. -/
theorem Asks.all {T0 : Table} {assumed inner : Bool}
    (h : Asks .all .all .all T0 assumed s t inner T a b) :
    T.Has a ∧ T.Has b ∧ if inner then assumed = false else Descends T s t a b := by
  cases h with
  | down ha hb h => exact ⟨ha, hb, h⟩
  | inside h _ _ ha hb => exact ⟨ha, hb, h⟩
  | source h _ ht hr => exact ⟨hr, ht, h⟩
  | target h hs _ hr => exact ⟨hs, hr, h⟩

section Reading

variable {T2 : Table}

theorem enumValue?_of_le (h : T ≤ T2) (hm : T.Has m) : Ty.enumValue? T2 m = Ty.enumValue? T m := by
  rw [Ty.enumValue?, Ty.enumValue?, shape_of_le h hm]

/-- The value of an enum member is a literal of the table. -/
theorem value_spec (hT : T.WellFormed) {v : Ty} (hm : T.Has m) (hv : Ty.enumValue? T m = some v) :
    T.Has v ∧ (T.literal? v).isSome := by
  unfold Ty.enumValue? at hv
  split at hv
  next enum name value hs =>
    obtain rfl := Option.some.inj hv
    refine ⟨hT.has_part hm (by rw [hs]; simp [Shape.parts]), ?_⟩
    obtain ⟨n, e, rfl, he, hshape⟩ := exists_entry hs (by simp) (by simp)
    exact (hT.entry n e he).values enum name value hshape
  · exact absurd hv (by simp)

theorem has_enumMembers (hT : T.WellFormed) (ht : T.shape t = .enumeration e) :
    ∀ m ∈ e.members, T.Has m := by
  obtain ⟨n, f, rfl, hf, hshape⟩ := exists_entry ht (by simp) (by simp)
  exact (hT.entry n f hf).members e hshape

/-- The literal that is the value of an enum member. -/
theorem enumLiteral_of_le (hT : T.WellFormed) (h : T ≤ T2) (hm : T.Has m) :
    (Ty.enumValue? T2 m).bind T2.literal? = (Ty.enumValue? T m).bind T.literal? := by
  rw [enumValue?_of_le h hm]
  cases hv : Ty.enumValue? T m with
  | none => rfl
  | some v => exact literal?_of_le h (value_spec hT hm hv).1

theorem hasNumericMember_of_le (hT : T.WellFormed) (h : T ≤ T2)
    (he : ∀ m ∈ e.members, T.Has m) : hasNumericMember T2 e = hasNumericMember T e := by
  unfold hasNumericMember
  rw [Bool.eq_iff_iff, List.any_eq_true, List.any_eq_true]
  constructor
  · rintro ⟨m, hm, htest⟩
    exact ⟨m, hm, by rw [enumLiteral_of_le hT h (he m hm)] at htest; exact htest⟩
  · rintro ⟨m, hm, htest⟩
    exact ⟨m, hm, by rw [enumLiteral_of_le hT h (he m hm)]; exact htest⟩

theorem toEnum_of_le (hT : T.WellFormed) (h : T ≤ T2) (hs : T.Has s) (ht : T.Has t) :
    toEnum T2 s t = toEnum T s t := by
  unfold toEnum isNumber
  rw [shape_of_le h hs, shape_of_le h ht, literal?_of_le h hs]
  cases htarget : T.shape t with
  | enumeration e =>
    dsimp only
    rw [hasNumericMember_of_le hT h (has_enumMembers hT htarget)]
  | _ => rfl

theorem byAtom_of_le (h : T ≤ T2) (hs : T.Has s) (ht : T.Has t) : byAtom T2 s t = byAtom T s t := by
  unfold byAtom
  rw [shape_of_le h hs, shape_of_le h ht]

theorem knows_of_shape (hT : T.WellFormed) (ht : T.shape t = .parameter v) : T.Knows v := by
  obtain ⟨n, f, rfl, hf, hshape⟩ := exists_entry ht (by simp) (by simp)
  exact (hT.entry n f hf).vars v hshape

theorem has_bound (hT : T.WellFormed) (hv : T.Knows v) :
    T.Has ((T.typeVar v).bound.getD .unknown) := by
  have hinfo : T.typeVars[v.number]? = some (T.typeVar v) := by
    simp only [typeVar, Array.getElem?_eq_getElem hv, Option.getD_some]
  cases hb : (T.typeVar v).bound with
  | none => exact T.has_prim _
  | some b => exact (hT.typeVars _ _ hinfo).1 b hb

/-- The union of the values of an enum has literals, or a primitive, as its members. -/
theorem settles_valueUnion (hT : T.WellFormed) (he : ∀ m ∈ e.members, T.Has m) :
    Interning.Settles T (Ty.valueUnion e)
      (fun T1 u => T1.Has u ∧ ∀ m ∈ T1.members u, (T1.shape m).isPlain = true) := by
  have hvalue : ∀ v ∈ e.members.filterMap (Ty.enumValue? T), T.Has v ∧ (T.literal? v).isSome := by
    intro v hv
    obtain ⟨m, hm, hmv⟩ := List.mem_filterMap.mp hv
    exact value_spec hT (he m hm) hmv
  refine settles_get_bind (fun T2 h2 => ?_) ?_
  · rw [List.filterMap_congr fun m hm => enumValue?_of_le h2 (he m hm)]
  · refine (Interning.settles_unionOf hT fun v hv => (hvalue v hv).1).imp ?_
    rintro u T1 hT1 h1 ⟨hu, hstands⟩
    refine ⟨hu, fun m hm => ?_⟩
    rcases mem_unionMembers ((hstands m).mp hm) with ⟨v, hv, hmv⟩ | ⟨p, rfl⟩
    · obtain ⟨hhas, hlit⟩ := hvalue v hv
      unfold literal? at hlit
      unfold Table.members at hmv
      cases hs : T.shape v with
      | literal l =>
        rw [hs] at hmv
        obtain rfl := List.mem_singleton.mp hmv
        rw [shape_of_le h1.le hhas, hs]
        rfl
      | _ =>
        rw [hs] at hlit
        exact absurd hlit (by simp)
    · rfl

end Reading

section Steps

theorem mem_combined_union (h : T.shape u = .union ms) : T.combined u = ms := by
  rw [Table.combined, h]

theorem mem_combined_intersection (h : T.shape u = .intersection ms) : T.combined u = ms := by
  rw [Table.combined, h]

/-- A member of a union or an intersection, in a later table. -/
theorem combined_of_reach (h : K.Reach T T1) (hu : T.Has u) : T1.combined u = T.combined u := by
  rw [Table.combined, Table.combined, h.shape_eq hu]

theorem has_combined (hT : T.WellFormed) (hu : T.Has u) (hm : m ∈ T.combined u) : T.Has m :=
  Table.Family.gathers_all.member hT hu hm

/-- Comparisons do not lead out of the table. -/
theorem compares_all (K : Regime) : K.Compares .all .all where
  prim T p := T.has_prim p
  part hT ht _ hp := (K.wellFormed hT).has_part ht hp
  erase hT ht := settles_erase (K.wellFormed hT) ht
  elements hT ht hs := (Interning.settles_unionOf (K.wellFormed hT) fun e he =>
    (K.wellFormed hT).has_part ht (by rw [hs]; exact he)).imp fun _ _ _ _ h => h.1
  length hT _ _ := Ty.settles_tupleLength (K.wellFormed hT) _
  whole _ ht _ := ht
  member hT ht hm := has_combined (K.wellFormed hT) ht hm
  value hT ht hs := (K.wellFormed hT).has_part ht (by rw [hs]; simp [Shape.parts])
  values hT _ hs := (settles_valueUnion (K.wellFormed hT)
    (has_enumMembers (K.wellFormed hT) hs)).imp
    fun _ _ _ _ h => h.1
  bound hT _ hs := has_bound (K.wellFormed hT) (knows_of_shape (K.wellFormed hT) hs)

variable {M G : Table.Family} (hC : K.Compares M G) {Q : Bool → Table → Ty → Ty → Prop}
  {assumed : Bool}
  (hdown : ∀ T1 a b, M.Mem T1 a → M.Mem T1 b → Descends T1 s t a b → Q false T1 a b)

include hC hdown

/-- Asking about the members of the source. -/
theorem rule_askSource (hT : K.ok T) (hs : M.Mem T s) (ht : M.Mem T t)
    (hm : m ∈ T.combined s) (h1 : K.Reach T T1) : Rule K Q T1 fun c => c false m t := by
  refine .ask (hdown T1 m t (h1.mem M (hC.member hT hs hm)) (h1.mem M ht) (.sourceMember ?_))
  rw [combined_of_reach h1 (M.has hs)]
  exact hm

/-- Asking about the members of the target. -/
theorem rule_askTarget (hT : K.ok T) (hs : M.Mem T s) (ht : M.Mem T t)
    (hm : m ∈ T.combined t) (h1 : K.Reach T T1) : Rule K Q T1 fun c => c false s m := by
  refine .ask (hdown T1 s m (h1.mem M hs) (h1.mem M (hC.member hT ht hm)) (.targetMember ?_))
  rw [combined_of_reach h1 (M.has ht)]
  exact hm

/-- The rules for a source that is looked into, once the target is not. -/
theorem rule_bySource (hT : K.ok T) (hs : M.Mem T s) (ht : M.Mem T t) (rest : Answers → Typing Bool)
    (hnoref : (T.shape s).isReference = false) (hnounion : ∀ ms, T.shape s ≠ .union ms)
    (hrest : (T.shape s).isPlain = true → Rule K Q T rest) :
    Rule K Q T fun c => match T.shape s with
      | .enumMember _ _ value => c false value t
      | .enumeration e => do c false (← Ty.valueUnion e) t
      | .intersection ms => any (c false · t) ms
      | .parameter v => c false ((T.typeVar v).bound.getD .unknown) t
      | _ => rest c := by
  have hwf := K.wellFormed hT
  cases hsource : T.shape s with
  | enumMember enum name value =>
    exact .ask (hdown T _ _ (hC.value hT hs hsource) ht (.value hsource))
  | enumeration e =>
    have hvalues := (hC.values hT hs hsource).and
      (settles_valueUnion hwf (has_enumMembers hwf hsource))
    refine .work (Typing.works_lift hT hvalues) fun u T1 hT1 h1 hu => ?_
    refine .ask (hdown T1 u t hu.1 (h1.mem M ht) (.values (e := e) ?_ hu.2.2))
    exact (h1.shape_eq (M.has hs)).trans hsource
  | intersection ms =>
    refine .any (fun m c => c false m t) hT ms fun m hm T1 hT1 h1 => ?_
    exact rule_askSource hC hdown hT hs ht (by rw [mem_combined_intersection hsource]; exact hm) h1
  | parameter v => exact .ask (hdown T _ _ (hC.bound hT hs hsource) ht (.bound hsource))
  | reference name arguments =>
    rw [hsource] at hnoref
    exact absurd hnoref (by simp [Shape.isReference])
  | union ms => exact absurd hsource (hnounion ms)
  | _ => exact hrest (by rw [hsource]; rfl)

omit hC hdown in
/-- The last rules: atoms, the assumption, and the comparison of the structures. -/
theorem rule_last (hstructural : assumed = false → Rule K Q T fun c => structural (c true) s t) :
    Rule K Q T fun c => match T.shape t, byAtom T s t with
      | .parameter _, _ => return false
      | _, some verdict => return verdict
      | _, none => if assumed then return true else structural (c true) s t := by
  split
  · exact .verdict false
  · exact .verdict _
  · cases assumed with
    | true => exact .verdict true
    | false => exact hstructural rfl

theorem rule_stepResolved (hT : K.ok T) (hs : M.Mem T s) (ht : M.Mem T t)
    (hnoref : (T.shape s).isReference = false) (hnounion : ∀ ms, T.shape s ≠ .union ms)
    (hstructural : assumed = false → (T.shape s).isPlain = true →
      Rule K Q T fun c => structural (c true) s t) :
    Rule K Q T fun c => stepResolved assumed (c false) (c true) s t := by
  have hwf := K.wellFormed hT
  refine .look (fun T2 h2 => ?_) ?_
  · rw [toEnum_of_le hwf h2 (M.has hs) (M.has ht), byAtom_of_le h2 (M.has hs) (M.has ht),
      shape_of_le h2 (M.has hs), shape_of_le h2 (M.has ht)]
    cases hsource : T.shape s with
    | parameter v =>
      simp only [typeVar_of_le h2 (knows_of_shape hwf hsource)]
    | _ => rfl
  cases toEnum T s t with
  | some verdict => exact .verdict verdict
  | none =>
  have hbySource := rule_bySource hC hdown hT hs ht _ hnoref hnounion
    fun hplain => rule_last fun (h : assumed = false) => hstructural h hplain
  cases htarget : T.shape t with
  | union ms =>
    dsimp only
    split
    · exact .verdict true
    · refine .any (fun m c => c false s m) hT ms fun m hm T1 hT1 h1 => ?_
      exact rule_askTarget hC hdown hT hs ht (by rw [mem_combined_union htarget]; exact hm) h1
  | intersection ms =>
    refine .all (fun m c => c false s m) hT ms fun m hm T1 hT1 h1 => ?_
    exact rule_askTarget hC hdown hT hs ht (by rw [mem_combined_intersection htarget]; exact hm) h1
  | _ =>
    rw [htarget] at hbySource
    exact hbySource

omit hC hdown in
/-- A type without an open head resolves to itself. -/
theorem works_resolve_or {V : Table → Ty → Prop} (h : Typing.Works K T s.resolve V) :
    Typing.Works K T s.resolve (fun T1 r => V T1 r ∧ (Ty.hasOpenHead T s = false → r = s)) := by
  refine ⟨fun n r T1 hrun => ?_, h.ends⟩
  obtain ⟨hat, hv⟩ := h.runs n r T1 hrun
  refine ⟨hat, hv, fun hclosed => ?_⟩
  rw [Ty.resolve_closed n hclosed] at hrun
  exact (congrArg Prod.fst (Option.some.inj hrun)).symm

/-- One layer of the rules is a rule if the comparison of the structures is. -/
theorem rule_step_of (hresolve : ∀ u, M.Mem T u → Typing.Works K T u.resolve
      fun T1 r => Ty.hasOpenHead T u = true → H.Mem T1 r)
    (hT : K.ok T) (hs : M.Mem T s) (ht : M.Mem T t)
    (hsource : ∀ T1 r, assumed = false → Ty.hasOpenHead T s = true → M.Mem T1 t → H.Mem T1 r →
      Q true T1 r t)
    (htarget : ∀ T1 r, assumed = false → M.Mem T1 s → (T.shape t).isReference = true →
      H.Mem T1 r → Q true T1 s r)
    (hstructural : byIdentity s t = none → assumed = false → (T.shape s).isPlain = true →
      Rule K Q T fun c => structural (c true) s t) :
    Rule K Q T fun c => step assumed (c false) (c true) s t := by
  unfold step
  cases hid : byIdentity s t with
  | some verdict => exact .verdict verdict
  | none =>
  refine .look (fun T2 h2 => ?_) ?_
  · rw [shape_of_le h2 (M.has hs), shape_of_le h2 (M.has ht)]
  split
  next name arguments hsref =>
    cases assumed with
    | true => exact .verdict true
    | false =>
      have hopen : Ty.hasOpenHead T s = true := by rw [Ty.hasOpenHead, hsref]
      exact .work (hresolve s hs) fun r T1 _ h1 hr =>
        .ask (hsource T1 r rfl hopen (h1.mem M ht) (hr hopen))
  next name arguments htref _ =>
    cases assumed with
    | true => exact .verdict true
    | false =>
      have hopen : Ty.hasOpenHead T t = true := by rw [Ty.hasOpenHead, htref]
      refine .work (hresolve t ht) fun r T1 _ h1 hr =>
        .ask (htarget T1 r rfl (h1.mem M hs) ?_ (hr hopen))
      rw [htref]
      rfl
  next ms hsunion _ =>
    refine .all (fun m c => c false m t) hT ms fun m hm T1 hT1 h1 => ?_
    exact rule_askSource hC hdown hT hs ht (by rw [mem_combined_union hsunion]; exact hm) h1
  next ms hsmeet _ =>
    refine .work (works_resolve_or (hresolve s hs)) fun r T1 hT1 h1 hr => ?_
    have hsame := h1.shape_eq (M.has hs)
    split
    · refine rule_stepResolved hC hdown hT1 (h1.mem M hs) (h1.mem M ht) ?_ ?_ ?_
      · rw [hsame, hsmeet]
        rfl
      · intro ks
        rw [hsame, hsmeet]
        simp
      · rw [hsame, hsmeet]
        exact fun _ h => absurd h (by simp [Shape.isPlain])
    next hne =>
      cases assumed with
      | true => exact .verdict true
      | false =>
        have hopen : Ty.hasOpenHead T s = true := by
          rw [← Bool.not_eq_false]
          exact fun hclosed => hne (hr.2 hclosed)
        exact .ask (hsource T1 r rfl hopen (h1.mem M ht) (hr.1 hopen))
  next hnoref hnounion _ _ =>
    refine rule_stepResolved hC hdown hT hs ht ?_ ?_ (hstructural hid)
    · cases hs' : T.shape s with
      | reference name arguments => exact absurd hs' (hnoref name arguments)
      | _ => rfl
    · intro ms hs'
      exact hnounion ms hs'

omit hdown in
/-- **One layer of the rules** is a rule that asks about the pairs of `Asks`. -/
theorem rule_step (hresolve : ∀ u, M.Mem T u → Typing.Works K T u.resolve
      fun T1 r => Ty.hasOpenHead T u = true → H.Mem T1 r)
    (assumed : Bool) (hT : K.ok T) (hs : M.Mem T s) (ht : M.Mem T t) :
    Rule K (Asks M G H T assumed s t) T fun c => step assumed (c false) (c true) s t := by
  refine rule_step_of hC (fun _ _ _ ha hb h => .down ha hb h) hresolve hT hs ht
    (fun _ _ h hopen ht hr => .source h hopen ht hr)
    (fun _ _ h hs href hr => .target h hs href hr) ?_
  intro _ hassumed hplain
  exact rule_structural hC (fun htplain _ _ _ _ ha hb => .inside hassumed hplain htplain ha hb) hT
    (hC.whole hT hs hplain) (M.has ht) (hC.whole hT ht) hplain

end Steps

/-- One layer of the rules, for any types of the table. -/
theorem rule_step_all
    (hresolve : ∀ T u, K.ok T → T.Has u → Typing.Works K T u.resolve Table.Has) (assumed : Bool)
    (hT : K.ok T) (hs : T.Has s) (ht : T.Has t) :
    Rule K (Asks .all .all .all T assumed s t) T fun c => step assumed (c false) (c true) s t := by
  refine rule_step (compares_all K) (fun u hu => ?_) assumed hT hs ht
  obtain ⟨hruns, hends⟩ := hresolve T u hT hu
  exact ⟨hruns.imp fun _ _ _ _ h _ => h, hends⟩

end Assign

end ShapeCheck
