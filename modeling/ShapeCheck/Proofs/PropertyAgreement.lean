import ShapeCheck.Proofs.StandIns
import ShapeCheck.Proofs.UnionTargets

/-!
# Properties of what fits an object

A type that fits an object with a required field has a property of that name, and the type of the
property fits the type of the field. A comparison and a property access go through the shapes of a
type in the same way, except for enums: when it is compared, an enum has the properties of its
values, but an access finds its members only.

The property of a union is the union of the properties of its members. Each of these fits the type
of the field, but their union need not, since it may join the halves of `boolean`.

* `Table.Accessible.finds` says that a property access finds what the comparison found.
* `Ty.accepts_property` is the result.
-/

namespace ShapeCheck

open Relation (ReflTransGen)
open Typing

variable {enum v : Ty} {text name : String} {ms : List Ty} {fs : List (Field × List Ty)} {n : Nat}

namespace Ty

variable {T T1 : Table} {s r b : Ty} {d : Nat}

/-- A property of a type is one of what it stands for. -/
theorem propertyAt_resolve (hrun : s.resolve n T = some (r, T1)) (hr : hasOpenHead T1 r = false) :
    propertyAt name (d + 1) s n T = propertyAt name (d + 1) r n T1 := by
  unfold propertyAt
  rw [bind_of_some hrun, bind_of_some (resolve_closed n hr)]

theorem propertyAt_enumMember (hs : T.shape s = .enumMember enum text v) :
    propertyAt name (d + 1) s n T = propertyAt name d v n T := by
  have hclosed : hasOpenHead T s = false := by rw [hasOpenHead, hs]
  rw [propertyAt, bind_of_some (resolve_closed n hclosed), get_bind, hs]

theorem propertyAt_parameter {v : TypeVar} (hs : T.shape s = .parameter v)
    (hb : (T.typeVar v).bound = some b) : propertyAt name (d + 1) s n T =
    propertyAt name d b n T := by
  have hclosed : hasOpenHead T s = false := by rw [hasOpenHead, hs]
  rw [propertyAt, bind_of_some (resolve_closed n hclosed), get_bind, hs]
  simp only [hb]

theorem unionField_apply (name : String) (ps : List Field) (T : Table) :
    unionField name ps T =
      ({ name, type := (unionOf (ps.map Field.type) T).1, optional := ps.any Field.optional
         readonly := ps.any Field.readonly }, (unionOf (ps.map Field.type) T).2) := rfl

/-- A union has a property that all its members have. -/
theorem propertyAt_union {ps : List Field} (hs : T.shape s = .union ms)
    (hrun : propertyOfAll (propertyAt name d) ms n T = some (some ps, T1)) :
    propertyAt name (d + 1) s n T =
      some (some (unionField name ps T1).1, (unionField name ps T1).2) := by
  have hclosed : hasOpenHead T s = false := by rw [hasOpenHead, hs]
  rw [propertyAt, bind_of_some (resolve_closed n hclosed), get_bind, hs]
  simp only
  rw [bind_of_some hrun]
  rfl

end Ty

namespace Table

/-- A type that is accessed as it is compared: no enum and no intersection comes up at its head, and
no `never`, and no union unless `unions` holds. -/
inductive Accessible (unions : Prop) : Table → Ty → Prop
  | plain {T : Table} {t : Ty} (h : (T.shape t).isPlain = true)
      (hne : t ≠ .never) : Accessible unions T t
  | enumMember {T : Table} {t enum v : Ty} {name : String}
    (h : T.shape t = .enumMember enum name v) :
    Accessible unions T t
  | union {T : Table} {t : Ty} {ms : List Ty} (hu : unions) (h : T.shape t = .union ms)
    (hms : ∀ m ∈ ms, Accessible unions T m) : Accessible unions T t
  | parameter {T : Table} {t : Ty} {v : TypeVar} (h : T.shape t = .parameter v)
    (hb : ∀ b, (T.typeVar v).bound = some b → Accessible unions T b) : Accessible unions T t
  | reference {T : Table} {t : Ty} (h : (T.shape t).isReference = true)
    (hr : ∀ (T1 T2 : Table) n r, T1.Resolved → T ≤ T1 → t.resolve n T1 = some (r, T2) →
      Accessible unions T2 r) : Accessible unions T t

/-- A required field whose type is the union of types that fit another type. -/
structure Gathers (T : Table) (p : Field) (ts : List Ty) (b : Ty) : Prop where
  required : p.optional = false
  union : Ty.unionOf ts T = (p.type, T)
  fits : ∀ t ∈ ts, T.Has t ∧ Assign.Lasts T t b

/-- A property access finds such a field, which for types that are no unions is taken as it is. -/
def Finds (unions : Prop) (name : String) (b : Ty) (T : Table) (s : Ty) : Prop :=
  ∃ n p T1 ts, (∀ d m, n ≤ d → n ≤ m → Ty.propertyAt name d s m T = some (some p, T1)) ∧
    ReflTransGen Called T T1 ∧ T1.Gathers p ts b ∧ (ts = [p.type] ∨ unions)

section Gathering

variable {T T1 : Table} {p : Field} {ts : List Ty} {b t u : Ty}

theorem Gathers.has (h : T.Gathers p ts b) (hT : T.WellFormed) : T.Has p.type := by
  obtain ⟨u, T', hat, hu, -⟩ := Interning.settles_unionOf hT fun t ht => (h.fits t ht).1
  obtain ⟨rfl, rfl⟩ := Prod.mk.inj (hat.result.symm.trans h.union)
  exact hu

theorem Gathers.of_le (h : T.Gathers p ts b) (hT : T.WellFormed) (hle : T ≤ T1) :
    T1.Gathers p ts b := by
  obtain ⟨u, T', hat, -⟩ := Interning.settles_unionOf hT fun t ht => (h.fits t ht).1
  obtain ⟨rfl, rfl⟩ := Prod.mk.inj (hat.result.symm.trans h.union)
  exact ⟨h.required, hat.again T1 hle,
    fun t ht => ⟨has_of_le hle (h.fits t ht).1, (h.fits t ht).2.of_le hle⟩⟩

theorem gathers_single (hT : T.WellFormed) (hrequired : p.optional = false) (hp : T.Has p.type)
    (hfits : Assign.Lasts T p.type b) : T.Gathers p [p.type] b :=
  ⟨hrequired, Interning.unionOf_self hT p.type, by simpa using ⟨hp, hfits⟩⟩

theorem Gathers.stands (h : T.Gathers p ts b) (hT : T.WellFormed) :
    Interning.Stands T (Ty.unionMembers T ts) p.type := by
  obtain ⟨u, T', hat, -, hstands⟩ := Interning.settles_unionOf hT fun t ht => (h.fits t ht).1
  obtain ⟨rfl, rfl⟩ := Prod.mk.inj (hat.result.symm.trans h.union)
  exact hstands

/-- Unions may be flattened before they are put together. -/
theorem joined_flatMap (hT : T.WellFormed)
    (h : ∀ f ∈ fs, Interning.Stands T (Ty.unionMembers T f.2) f.1.type) (B : Set Ty) :
    T.joined (T.flattened (fs.map (·.1.type)) ∪ B) =
    T.joined (T.flattened (fs.flatMap (·.2)) ∪ B) := by
  induction fs generalizing B with
  | nil => rfl
  | cons f fs ih =>
    have hmembers : { m | m ∈ T.members f.1.type } = T.joined (T.flattened f.2) := by
      ext m
      exact (h f (by simp) m).trans mem_unionMembers_iff
    replace ih := ih fun k hk => h k (List.mem_cons_of_mem f hk)
    rw [List.map_cons, flattened_cons, hmembers, List.flatMap_cons,
      flattened_append, Set.union_assoc,
      joined_union hT, ← Set.union_assoc, Set.union_comm (T.flattened f.2), Set.union_assoc, ih,
      ← Set.union_assoc, Set.union_comm (T.flattened (fs.flatMap _))]

/-- The union of fields that gather some types gathers all of them. -/
theorem gathers_unionField (hT : T.WellFormed) (name : String) (h : ∀ f ∈ fs, T.Gathers f.1 f.2 b) :
    (Ty.unionField name (fs.map (·.1)) T).2.Gathers (Ty.unionField name (fs.map (·.1)) T).1
      (fs.flatMap (·.2)) b := by
  have hhas : ∀ t ∈ fs.map (·.1.type), T.Has t :=
    List.forall_mem_map.mpr fun f hf => (h f hf).has hT
  obtain ⟨u, T1, hat, -⟩ := Interning.settles_unionOf hT hhas
  have hle := hat.adds.le
  have hlater := fun f hf => (h f hf).of_le hT hle
  have hresult : Ty.unionOf ((fs.map (·.1)).map Field.type) T = (u, T1) := by
    rw [List.map_map]
    exact hat.result
  rw [Ty.unionField_apply, hresult]
  refine ⟨?_, ?_, fun t ht => ?_⟩
  · simpa using fun f ts hf => (h (f, ts) hf).required
  · refine (Interning.unionOf_congr ?_).symm.trans (hat.again T1 (le_refl T1))
    simpa using joined_flatMap hat.wellFormed (fun f hf => (hlater f hf).stands hat.wellFormed) ∅
  · obtain ⟨f, hf, ht⟩ := List.mem_flatMap.mp ht
    exact (hlater f hf).fits t ht

end Gathering

end Table

namespace Assign

/-! ## Types that are compared part by part -/

variable {R : Table → Ty → Ty → Prop} {T T1 : Table} {s t : Ty} {m : Members} {g p : Field}

/-- Of two questions the first one is answered `true`. -/
theorem of_both {x y : Typing Bool}
    (h : (do if ← x then y else return false) n T = some (true, T1)) :
    ∃ T', x n T = some (true, T') := by
  obtain ⟨b, T', hx, hy⟩ := bind_some h
  cases b with
  | true => exact ⟨T', hx⟩
  | false => exact absurd (Prod.mk.inj (Option.some.inj hy)).1 (by simp)

/-- What is found in such a type is the property that an access finds. -/
theorem ownField?_plain (hs : (T.shape s).isPlain = true)
    (hrun : s.ownField? name (n + 1) T = some (some p, T1)) :
    Ty.plainProperty (T.shape s) name T = (some p, T1) := by
  unfold Ty.ownField? at hrun
  rw [get_bind] at hrun
  cases hshape : T.shape s with
  | object k =>
    rw [hshape] at hrun
    obtain ⟨hfound, rfl⟩ := Prod.mk.inj (Option.some.inj hrun)
    have hmember : Ty.memberProperty? k name = some p := by
      unfold Ty.memberProperty?
      rw [hfound]
    exact Prod.ext hmember rfl
  | _ =>
    rw [hshape] at hrun
    have hproperty := Ty.property?_of_isPlain hs name n
    rw [hshape] at hproperty
    exact Option.some.inj (hproperty.symm.trans hrun)

/-- A structure is compared with an object that asks for something, unless it is missing. -/
theorem stepResolved_object {compare inner : Compare} (hs : (T.shape s).isPlain = true)
    (ht : T.shape t = .object m) (hempty : m.isEmpty = false) (n : Nat) :
    stepResolved false compare inner s t n T =
      if s.isNullish then some (false, T) else toObject inner s m n T := by
  have hatom : byAtom T s t = if s.isNullish then some false else none := by
    simp [byAtom, ht, hempty]
  unfold stepResolved
  rw [get_bind, toEnum_of_isTaken (by rw [ht]; rfl), ht]
  cases hshape : T.shape s with
  | union | intersection | reference | enumeration | enumMember | parameter =>
    simp [hshape, Shape.isPlain] at hs
  | _ =>
    simp only [hatom]
    cases s.isNullish with
    | true => rfl
    | false =>
      unfold structural
      simp only [Bool.false_eq_true, if_false, get_bind, ht]

/-- A comparison with an object finds its field, if that is the only one and required. -/
theorem exists_ownField (hfields : m.fields = [g]) (hrequired : g.optional = false)
    (hrun : toObject (asking R) s m n T = some (true, T1)) : ∃ p T',
      s.ownField? g.name n T = some (some p, T') ∧ p.optional = false ∧ R T' p.type g.type := by
  unfold toObject at hrun
  obtain ⟨T2, hall⟩ := of_both hrun
  rw [hfields] at hall
  unfold all at hall
  obtain ⟨T3, hfield⟩ := of_both hall
  unfold field at hfield
  obtain ⟨o, T', hown, hfound⟩ := bind_some hfield
  unfold found at hfound
  rw [hrequired] at hfound
  cases o with
  | none => exact absurd (Prod.mk.inj (Option.some.inj hfound)).1 (by simp)
  | some p =>
    refine ⟨p, T', hown, ?_⟩
    cases hp : p.optional with
    | true =>
      simp only [hp] at hfound
      exact absurd (Prod.mk.inj (Option.some.inj hfound)).1 (by simp)
    | false =>
      simp only [hp] at hfound
      exact ⟨rfl, truthOf_iff.mp (Prod.mk.inj (Option.some.inj hfound)).1⟩

/-- A structure that fits an object with one required field has this field. -/
theorem exists_plainProperty (hid : byIdentity s t = none) (hs : (T.shape s).isPlain = true)
    (ht : T.shape t = .object m) (hfields : m.fields = [g]) (hrequired : g.optional = false)
    (h : Unfolds R T s t) : ∃ p T1, Ty.plainProperty (T.shape s) g.name T = (some p, T1) ∧
      p.optional = false ∧ R T1 p.type g.type := by
  have htaken : (T.shape t).isTaken = true := by rw [ht]; rfl
  have hempty : m.isEmpty = false := by simp [Members.isEmpty, hfields]
  obtain ⟨n, T', hrun⟩ := (unfolds_resolved hid (Ty.hasOpenHead_of_isPlain hs)
    (not_isUnion_of_isPlain hs) (not_isReference_of_isTaken htaken)).mp h
  replace hrun := hrun (n + 1) (Nat.le_succ n)
  rw [stepResolved_object hs ht hempty] at hrun
  split_ifs at hrun
  · exact absurd (Prod.mk.inj (Option.some.inj hrun)).1 (by simp)
  · obtain ⟨p, T1, hown, hp⟩ := exists_ownField hfields hrequired hrun
    exact ⟨p, T1, ownField?_plain hs hown, hp⟩

/-- An access to such a type makes a literal at most. -/
theorem called_plainProperty (T : Table) (sh : Shape) (name : String) :
    ReflTransGen Table.Called T (Ty.plainProperty sh name T).2 := by
  cases sh with
  | tuple u =>
    have hlength : ReflTransGen Table.Called T (Ty.tupleLength u T).2 := by
      unfold Ty.tupleLength
      split
      · exact .refl
      · exact .single (.construct (.literal _) (by simp [Construction.inputs]) trivial)
    unfold Ty.plainProperty Ty.tupleProperty?
    dsimp only
    split
    · exact hlength
    · cases Decimal.integer? name <;> exact .refl
  | _ => exact .refl

/-- What is found in such a type is known. -/
theorem has_plainProperty (hT : T.Sound) (hs : T.Has s) (hplain : (T.shape s).isPlain = true)
    (hrun : Ty.plainProperty (T.shape s) name T = (some p, T1)) : T1.Has p.type := by
  by_cases hobject : ∃ k, T.shape s = .object k
  · obtain ⟨k, hk⟩ := hobject
    rw [hk] at hrun
    obtain ⟨hmember, rfl⟩ := Prod.mk.inj hrun
    obtain ⟨hfields, hindex, -⟩ := mem_members (compares_all .lasting) hT hs hk
    unfold Ty.memberProperty? at hmember
    split at hmember
    · next f hf =>
      obtain rfl := Option.some.inj hmember
      exact hfields f (List.mem_of_find?_eq_some hf)
    · next i _ hi =>
      split_ifs at hmember
      obtain rfl := Option.some.inj hmember
      exact hindex i hi
    · exact absurd hmember (by simp)
  · have hworks := Ty.works_property (compares_all .lasting) hT hs hplain
      (fun k hk => hobject ⟨k, hk⟩) name
    have hproperty := Ty.property?_of_isPlain hplain name 0
    rw [hrun] at hproperty
    exact (hworks.runs 1 _ _ hproperty).2 p rfl

/-- An object that is compared with itself, and a type that fits everything, have the field at
once. -/
theorem exists_byIdentity (hid : byIdentity s t = some true) (hne : s ≠ .never)
    (ht : T.shape t = .object m) (hfields : m.fields = [g]) (hrequired : g.optional = false) :
    ∃ p, Ty.plainProperty (T.shape s) g.name T = (some p, T) ∧ p.optional = false ∧
      Lasts T p.type g.type := by
  obtain ⟨j, rfl⟩ := Table.exists_made (T := T) (t := t) (by rw [ht]; rfl)
  have hany : ∃ p, Ty.primitiveProperty? .any g.name = some p ∧ p.optional = false ∧
      Lasts T p.type g.type :=
    ⟨_, rfl, rfl, lasts_of_byIdentity (byIdentity_true.mpr (.inr (.inl rfl))) T⟩
  obtain ⟨p, hp, hrest⟩ := hany
  rcases byIdentity_true.mp hid with rfl | rfl | h | rfl | h | h | h
  · refine ⟨g, ?_, hrequired, lasts_self T g.type⟩
    have hfound : Ty.memberProperty? m g.name = some g := by
      simp [Ty.memberProperty?, Members.field?, hfields]
    rw [ht]
    exact Prod.ext hfound rfl
  · exact ⟨p, Prod.ext hp rfl, hrest⟩
  · simp [Ty.any] at h
  · exact ⟨p, Prod.ext hp rfl, hrest⟩
  · simp [Ty.invalid] at h
  · simp [Ty.unknown] at h
  · exact absurd h hne

/-- Only a type that is compared part by part fits an object without a look at the shapes. -/
theorem byIdentity_object (h : Lasts T s t) (hT : T.Sound) (hs : (T.shape s).isPlain = false)
    (ht : T.shape t = .object m) : byIdentity s t = none := by
  obtain ⟨j, rfl⟩ := Table.exists_made (T := T) (t := t) (by rw [ht]; rfl)
  have hsprim : ∀ q, s ≠ .prim q := by
    rintro q rfl
    simp [Table.shape, Shape.isPlain] at hs
  have hne : s ≠ .made j := by
    rintro rfl
    simp [ht, Shape.isPlain] at hs
  cases hid : byIdentity s (.made j) with
  | none => rfl
  | some b =>
    cases b with
    | false => exact absurd hid (h.not_false hT)
    | true => simp [byIdentity_true, hne, hsprim, Ty.any, Ty.invalid, Ty.unknown, Ty.never] at hid

/-- An access finds in such a type what the comparison found. -/
theorem finds_plain {unions : Prop} (hT : T.Resolved) (hs : T.Has s)
    (hplain : (T.shape s).isPlain = true)
    (hne : s ≠ .never) (ht : T.shape t = .object m) (hfields : m.fields = [g])
    (hrequired : g.optional = false) (h : Lasts T s t) : T.Finds unions g.name g.type s := by
  have hsound := hT.truthful.sound
  obtain ⟨p, T1, hrun, hp, hfits⟩ : ∃ p T1, Ty.plainProperty (T.shape s) g.name T = (some p, T1) ∧
      p.optional = false ∧ Lasts T1 p.type g.type := by
    cases hid : byIdentity s t with
    | none =>
      exact exists_plainProperty hid hplain ht hfields hrequired (h.unfolds hsound fun _ _ _ => id)
    | some b =>
      cases b with
      | false => exact absurd hid (h.not_false hsound)
      | true =>
        obtain ⟨p, hp⟩ := exists_byIdentity hid hne ht hfields hrequired
        exact ⟨p, T, hp⟩
  have hcalls := called_plainProperty T (T.shape s) g.name
  have hhas := has_plainProperty hsound hs hplain hrun
  rw [hrun] at hcalls
  refine ⟨1, p, T1, [p.type], fun d n hd _ => ?_, hcalls, ?_, .inl rfl⟩
  · obtain ⟨d, rfl⟩ : ∃ k, d = k + 1 := ⟨d - 1, by omega⟩
    rw [Ty.propertyAt_of_isPlain hplain, hrun]
  · exact Table.gathers_single (hT.calls hcalls).truthful.sound.wellFormed hp hhas hfits

end Assign

/-! ## Types that are taken apart -/

namespace Table

variable {unions : Prop} {T T1 : Table} {s t b : Ty} {m : Members} {g : Field}

/-- The members of a union are asked in turn. -/
theorem finds_all (hT : T.Resolved)
    (h : ∀ m ∈ ms, ∀ U, U.Resolved → T ≤ U → U.Finds unions name b m) :
    ∃ n T1, ∃ fs : List (Field × List Ty), (∀ d k, n ≤ d → n ≤ k →
        Ty.propertyOfAll (Ty.propertyAt name d) ms k T = some (some (fs.map (·.1)), T1)) ∧
      ReflTransGen Called T T1 ∧ ∀ f ∈ fs, T1.Gathers f.1 f.2 b := by
  induction ms generalizing T with
  | nil => exact ⟨0, T, [], fun _ _ _ _ => rfl, .refl, by simp⟩
  | cons m ms ih =>
    obtain ⟨n1, p, T1, ts, hfirst, hcalls1, hp, -⟩ := h m (by simp) T hT (le_refl T)
    have hT1 := hT.calls hcalls1
    have hle1 := (hT.truthful.succeeds hcalls1).1.le
    obtain ⟨n2, T2, fs, hrest, hcalls2, hfs⟩ := ih hT1 fun k hk U hU hle =>
      h k (List.mem_cons_of_mem _ hk) U hU (hle1.trans hle)
    have hle2 := (hT1.truthful.succeeds hcalls2).1.le
    refine ⟨max n1 n2, T2, (p, ts) :: fs, fun d k hd hk => ?_, hcalls1.trans hcalls2, ?_⟩
    · rw [Ty.propertyOfAll, bind_of_some (hfirst d k (by omega) (by omega))]
      simp only
      rw [bind_of_some (hrest d k (by omega) (by omega))]
      rfl
    · exact List.forall_mem_cons.mpr ⟨hp.of_le hT1.truthful.sound.wellFormed hle2, hfs⟩

/-- The union of what is found in the members is the property of the union. -/
theorem finds_union (hT : T.Resolved) (hs : T.shape s = .union ms) (hu : unions)
    (h : ∀ m ∈ ms, ∀ U, U.Resolved → T ≤ U → U.Finds unions name b m) :
    T.Finds unions name b s := by
  obtain ⟨n, T1, fs, hrun, hcalls, hfs⟩ := finds_all hT h
  have hT1 := (hT.calls hcalls).truthful.sound.wellFormed
  have hinputs : ∀ t ∈ (Construction.union ((fs.map (·.1)).map Field.type)).inputs, T1.Has t := by
    intro t ht
    obtain ⟨f, hf, rfl⟩ : ∃ f ∈ fs, f.1.type = t := by simpa [Construction.inputs] using ht
    exact (hfs f hf).has hT1
  have hunion : Called T1 (Ty.unionField name (fs.map (·.1)) T1).2 := by
    have hcall := Called.construct _ hinputs trivial
    rw [Construction.run] at hcall
    rwa [Ty.unionField_apply]
  refine ⟨n + 1, _, _, _, fun d k hd hk => ?_, hcalls.tail hunion, gathers_unionField hT1 name hfs,
    .inr hu⟩
  obtain ⟨d, rfl⟩ : ∃ i, d = i + 1 := ⟨d - 1, by omega⟩
  exact Ty.propertyAt_union hs (hrun d k (by omega) (by omega))

/-- A property is found where the access leads, perhaps without a nested step. -/
theorem Finds.step (h : T1.Finds unions name b t) {e : Nat}
    (hstep : ∀ d k, n ≤ k → Ty.propertyAt name (d + 1) s k T = Ty.propertyAt name (d + e) t k T1)
    (hcalls : ReflTransGen Called T T1) : T.Finds unions name b s := by
  obtain ⟨n', p, T2, ts, hrun, hcalls2, hrest⟩ := h
  refine ⟨max (n' + 1) n, p, T2, ts, fun d k hd hk => ?_, hcalls.trans hcalls2, hrest⟩
  obtain ⟨d, rfl⟩ : ∃ i, d = i + 1 := ⟨d - 1, by omega⟩
  rw [hstep d k (by omega)]
  exact hrun (d + e) k (by omega) (by omega)

section Heads

variable (hT : T.Resolved) (ht : T.shape t = .object m) (hfits : Assign.Lasts T s t)

include hT ht hfits

/-- Where the shapes have to be looked at, one layer of the rules says what is compared next. -/
theorem layer_of_object (hs : (T.shape s).isPlain = false) :
    Assign.byIdentity s t = none ∧ (T.shape t).isTaken = true ∧ Assign.Unfolds Assign.Lasts T s t :=
  have hsound := hT.truthful.sound
  ⟨Assign.byIdentity_object hfits hsound hs ht,
    by rw [ht]; rfl, hfits.unfolds hsound fun _ _ _ => id⟩

theorem finds_enumMember (hs : T.shape s = .enumMember enum text v)
    (hfields : m.fields = [g]) (hrequired : g.optional = false) :
    T.Finds unions g.name g.type s := by
  obtain ⟨hid, htaken, hlayer⟩ := layer_of_object hT ht hfits (by rw [hs]; rfl)
  have hhas : T.Has s := has_of_shape (by simp [hs])
  obtain ⟨hv, hliteral⟩ :=
    Assign.value_spec hT.truthful.sound.wellFormed hhas (by rw [Ty.enumValue?, hs])
  have hne : v ≠ .never := by
    rintro rfl
    simp [Table.literal?, Table.shape] at hliteral
  have hvalue : T.Finds unions g.name g.type v :=
    Assign.finds_plain hT hv (Assign.isPlain_of_literal? hliteral) hne ht hfields hrequired
      ((Assign.unfolds_enumMember hid htaken hs).mp hlayer)
  exact hvalue.step (n := 0) (e := 0) (fun _ _ _ => Ty.propertyAt_enumMember hs) .refl

theorem finds_parameter {v : TypeVar} (hs : T.shape s = .parameter v)
    (h : ∀ b', (T.typeVar v).bound = some b' → Assign.Lasts T b' t → T.Finds unions name b b') :
    T.Finds unions name b s := by
  obtain ⟨hid, htaken, hlayer⟩ := layer_of_object hT ht hfits (by rw [hs]; rfl)
  have hbound := (Assign.unfolds_parameter hid htaken hs).mp hlayer
  cases hb : (T.typeVar v).bound with
  | none =>
    rw [hb] at hbound
    obtain ⟨j, rfl⟩ := exists_made (T := T) (t := t) (by rw [ht]; rfl)
    exact absurd rfl (hbound.not_false hT.truthful.sound)
  | some b' =>
    rw [hb] at hbound
    exact (h b' hb hbound).step (n := 0) (e := 0) (fun _ _ _ => Ty.propertyAt_parameter hs hb) .refl

theorem finds_reference (hs : (T.shape s).isReference = true)
    (h : ∀ T1 n r, T ≤ T1 → T1.Resolved → s.resolve n T = some (r, T1) → T1.Has r →
    Assign.Lasts T1 r t →
      T1.Finds unions name b r) : T.Finds unions name b s := by
  have hplain : (T.shape s).isPlain = false := by
    cases hshape : T.shape s <;> simp_all [Shape.isReference, Shape.isPlain]
  obtain ⟨hid, -, hlayer⟩ := layer_of_object hT ht hfits hplain
  have hhas := Assign.has_of_isReference hs
  obtain ⟨n, r, T1, hrun, -, hle, hr, -⟩ := hT.truthful.sound.exists_resolvesTo hhas
  have hcall := hrun n (Nat.le_refl n)
  have hfound := h T1 n r hle (hT.call (.resolve hhas hcall)) hcall hr
    ((Assign.unfolds_source hid hs hrun).mp hlayer)
  have hclosed := hT.closed_resolve hhas hcall
  exact hfound.step (e := 1) (fun _ k hk => Ty.propertyAt_resolve (hrun k hk) hclosed)
    (.single (.resolve hhas hcall))

end Heads

/-- **What the comparison finds, an access does**, in a type that is accessed as it is compared. -/
theorem Accessible.finds (h : T.Accessible unions s) (hT : T.Sound) (hs : T.Has s) (hle : T ≤ T1)
    (hT1 : T1.Resolved) (ht : T1.shape t = .object m) (hfields : m.fields = [g])
    (hrequired : g.optional = false) (hfits : Assign.Lasts T1 s t) :
    T1.Finds unions g.name g.type s := by
  induction h generalizing T1 with
  | @plain T s hplain hne =>
    rw [← shape_of_le hle hs] at hplain
    exact Assign.finds_plain hT1 (has_of_le hle hs) hplain hne ht hfields hrequired hfits
  | @enumMember T s enum v name h =>
    exact finds_enumMember hT1 ht hfits ((shape_of_le hle hs).trans h) hfields hrequired
  | @union T s ms hu h _ ih =>
    have hshape := (shape_of_le hle hs).trans h
    obtain ⟨hid, htaken, hlayer⟩ := layer_of_object hT1 ht hfits (by rw [hshape]; rfl)
    have hmembers := (Assign.unfolds_sourceUnion hid hshape
      (Assign.not_isReference_of_isTaken htaken)).mp hlayer
    refine finds_union hT1 hshape hu fun k hk U hU hleU => ?_
    have hthas : T1.Has t := has_of_shape (by simp [ht])
    exact ih k hk hT (hT.wellFormed.has_part hs (by rw [h]; exact hk)) (hle.trans hleU) hU
      ((shape_of_le hleU hthas).trans ht) ((hmembers k hk).of_le hleU)
  | @parameter T s v h _ ih =>
    have hshape := (shape_of_le hle hs).trans h
    have hknown := Assign.knows_of_shape hT.wellFormed h
    have hhas := Assign.has_bound hT.wellFormed hknown
    refine finds_parameter hT1 ht hfits hshape fun b hb hbfits => ?_
    rw [typeVar_of_le hle hknown] at hb
    rw [hb] at hhas
    exact ih b hb hT hhas hle hT1 ht hbfits
  | @reference T s h _ ih =>
    refine finds_reference hT1 ht hfits ((shape_of_le hle hs).symm ▸ h)
      fun T2 n r hle2 hT2 hrun hr hrfits => ?_
    have hthas : T1.Has t := has_of_shape (by simp [ht])
    exact ih T1 T2 n r hT1 hle hrun hT2.truthful.sound hr (le_refl T2) hT2
      ((shape_of_le hle2 hthas).trans ht) hrfits

end Table

/-! ## The union of what is found -/

namespace Assign

variable {T T1 : Table} {u t r m : Ty}

/-- Each member of the type has nothing to be resolved, and is a member of a type that fits the
target. -/
def Collected (T : Table) (u t : Ty) : Prop :=
  ∀ m ∈ T.members u, (m.isTop = false ∧ m ≠ .never) ∧ Ty.hasOpenHead T m = false ∧
    ∃ v, T.Has v ∧ Lasts T v t ∧ m ∈ T.members v

theorem Collected.closed (h : Collected T u t) : Ty.hasOpenHead T u = false := by
  by_cases hunion : (T.shape u).IsUnion
  · obtain ⟨ms, hms⟩ := hunion
    rw [Ty.hasOpenHead, hms]
  · exact (h u (by simp [members_of_not_isUnion hunion])).2.1

theorem Collected.of_le (h : Collected T u t) (hT : T.WellFormed) (hu : T.Has u) (hle : T ≤ T1) :
    Collected T1 u t := by
  intro m hm
  rw [Table.members_of_le hle hu] at hm
  obtain ⟨hproper, hclosed, v, hv, hfits, hmv⟩ := h m hm
  refine ⟨hproper, (Ty.hasOpenHead_of_le hT hle (hT.has_member hu hm)).trans hclosed, v,
    Table.has_of_le hle hv, hfits.of_le hle, ?_⟩
  rwa [Table.members_of_le hle hv]

/-- The type that a member is taken from is compared as it is. -/
theorem not_isReference_of_member (hclosed : Ty.hasOpenHead T m = false) (hm : m ∈ T.members v) :
    (T.shape v).isReference = false := by
  by_cases hunion : (T.shape v).IsUnion
  · obtain ⟨ms, hms⟩ := hunion
    rw [hms]
    rfl
  · rw [members_of_not_isUnion hunion, List.mem_singleton] at hm
    exact not_isReference_of_closed (hm ▸ hclosed)

theorem Collected.resolved (h : Collected T u t) (hT : T.Sound)
    (ht : (T.shape t).isReference = true)
    (hr : T.ResolvesTo t r) : Collected T u r := by
  intro m hm
  obtain ⟨hproper, hclosed, v, hv, hfits, hmv⟩ := h m hm
  exact ⟨hproper, hclosed, v, hv,
    hfits.resolved hT (not_isReference_of_member hclosed hmv) ht hr, hmv⟩

/-- Once the target is resolved, each member is a part of it. -/
theorem Collected.whole (h : Collected T u t) (hT : T.Sound)
    (ht : (T.shape t).isReference = false) :
    Whole T u t := by
  refine ⟨u, Table.resolvesTo_of_closed h.closed, h.closed, fun m hm => ?_⟩
  obtain ⟨hproper, hclosed, v, hv, hfits, hmv⟩ := h m hm
  refine ⟨hproper, hclosed, not_isUnion_of_member hT.wellFormed hm, ?_⟩
  by_cases hunion : (T.shape v).IsUnion
  · obtain ⟨ms, hms⟩ := hunion
    have hmms : m ∈ ms := by simpa [Table.members_of_union hms] using hmv
    by_cases heq : v = t
    · exact .inr ⟨ms, heq ▸ hms, m, hmms, .inl (lasts_self T m)⟩
    · exact .inl (.inl (hfits.sourceMember hT hms ht heq hmms))
  · rw [members_of_not_isUnion hunion, List.mem_singleton] at hmv
    exact .inl (.inl (hmv ▸ hfits))

theorem Collected.not_false (h : Collected T u t) (hT : T.Sound) : byIdentity u t ≠ some false := by
  intro hid
  obtain ⟨m, hm⟩ := exists_mem_members hT.wellFormed u
  obtain ⟨hproper, -, v, -, hfits, hmv⟩ := h m hm
  rcases byIdentity_false hid with rfl | rfl
  · obtain rfl : m = .unknown := List.mem_singleton.mp hm
    exact absurd hproper.1 (by decide)
  · by_cases hunion : (T.shape v).IsUnion
    · obtain ⟨ms, hms⟩ := hunion
      obtain ⟨i, rfl⟩ := Table.exists_made (T := T) (t := v) (by rw [hms]; rfl)
      exact hfits.ne_never hT ⟨rfl, by simp [Ty.never]⟩ rfl
    · rw [members_of_not_isUnion hunion, List.mem_singleton] at hmv
      exact (hmv ▸ hfits).ne_never hT hproper rfl

/-- A type fits a target if its members are collected from types that do. -/
theorem Collected.holds (h : Collected T u t) : Holds T u t := by
  refine ⟨fun T s t => Collected T s t ∨ Whole T s t ∨ Part T s t ∨ Near T s t,
    fun T s t hT hs ht h => ?_, .inl h⟩
  rcases h with h | h | h | h
  · cases href : (T.shape t).isReference with
    | false =>
      exact (h.whole hT href).unfolds hT hs ht (fun _ _ _ h => .inr (.inr (.inr h)))
        (fun _ _ _ h => .inr (.inr (.inl h))) fun _ _ _ h => .inr (.inl h)
    | true =>
      cases hid : byIdentity s t with
      | some b =>
        rw [unfolds_byIdentity hid]
        cases b with
        | true => rfl
        | false => exact absurd hid (h.not_false hT)
      | none =>
        obtain ⟨n, r, T1, hrun, hT1, hle, -, hr⟩ := hT.exists_resolvesTo ht
        refine (unfolds_target hid (not_isReference_of_closed h.closed) href hrun).mpr (.inl ?_)
        exact (h.of_le hT.wellFormed hs hle).resolved hT1 (Table.shape_of_le hle ht ▸ href) hr
  · exact h.unfolds hT hs ht (fun _ _ _ h => .inr (.inr (.inr h)))
      (fun _ _ _ h => .inr (.inr (.inl h))) fun _ _ _ h => .inr (.inl h)
  · exact h.unfolds hT hs fun _ _ _ h => .inr (.inr (.inr h))
  · exact h.unfolds hT hs fun _ _ _ h => .inr (.inr (.inr h))

end Assign

/-- **A type that fits an object with a required field has a property of that name**, from the
answer on, if it is accessed as it is compared. The property is not optional, and its type is the
union of types that fit the type of the field; without unions that is one type. The union fits as
well if its members have nothing to be resolved and are members of the types that it is made of. -/
theorem Ty.accepts_property {unions : Prop} {T T1 T2 : Table} (h : T.Resolved)
    {s t : Ty} {m : Members}
    {g : Field} (hs : T.Has s) (haccess : T.Accessible unions s) (ht : T.shape t = .object m)
    (hfields : m.fields = [g]) (hrequired : g.optional = false) {n : Nat}
    (hrun : s.isAssignableTo t n T = some (true, T1)) (hcalls : ReflTransGen Table.Called T1 T2) :
    ∃ k p T3 ts, (∀ j, k ≤ j → s.property? g.name j T2 = some (some p, T3)) ∧ p.optional = false ∧
      Ty.unionOf ts T3 = (p.type, T3) ∧ (∀ u ∈ ts, T3.Accepts u g.type) ∧ (ts = [p.type] ∨ unions) ∧
      ((∀ q ∈ T3.members p.type, Ty.hasOpenHead T3 q = false ∧ ∃ u ∈ ts, q ∈ T3.members u) →
        T3.Accepts p.type g.type) := by
  have hT := h.truthful.sound
  have hthas : T.Has t := Table.has_of_shape (by simp [ht])
  have hghas : T.Has g.type :=
    (Assign.mem_members (Assign.compares_all .lasting) hT hthas ht).1 g (by simp [hfields])
  have h1 := h.call (.assignable hs hthas hrun)
  have h2 := h1.calls hcalls
  have hle1 := (h.truthful.asked hs hthas hrun).1.le
  have hle2 := (h1.truthful.succeeds hcalls).1.le
  have hfits := (h.lasts_of_true hs hthas hrun).of_le hle2
  obtain ⟨k, p, T3, ts, hfound, hcalls3, hgathers, hone⟩ := haccess.finds hT hs (hle1.trans hle2) h2
    ((Table.shape_of_le (hle1.trans hle2) hthas).trans ht) hfields hrequired hfits
  have h3 := h2.calls hcalls3
  have hwf := h3.truthful.sound.wellFormed
  have hle := (hle1.trans hle2).trans (h2.truthful.succeeds hcalls3).1.le
  have hghas3 := Table.has_of_le hle hghas
  have hphas := hgathers.has hwf
  have heach : ∀ u ∈ ts, T3.Accepts u g.type := fun u hu =>
    h3.accepts (hgathers.fits u hu).1 hghas3
      (fun _ _ hleU => ((hgathers.fits u hu).2.of_le hleU).holds) .refl
  refine ⟨k, p, T3, ts, fun j hj => hfound j j hj hj, hgathers.required,
    hgathers.union, heach, hone,
    fun hmembers => ?_⟩
  by_cases hmem : p.type ∈ ts
  · exact heach _ hmem
  have hcollected : Assign.Collected T3 p.type g.type := by
    intro q hq
    obtain ⟨hclosed, u, hu, hqu⟩ := hmembers q hq
    refine ⟨?_, hclosed, u, (hgathers.fits u hu).1, (hgathers.fits u hu).2, hqu⟩
    by_cases hunion : (T3.shape u).IsUnion
    · obtain ⟨ms, hms⟩ := hunion
      rw [Table.members_of_union hms] at hqu
      exact Assign.proper_of_canonical (hwf.canonical_union hms) hqu
    by_cases hpunion : (T3.shape p.type).IsUnion
    · obtain ⟨ms, hms⟩ := hpunion
      rw [Table.members_of_union hms] at hq
      exact Assign.proper_of_canonical (hwf.canonical_union hms) hq
    · -- neither is a union, so the property has one of the types that were found
      rw [Assign.members_of_not_isUnion hunion, List.mem_singleton] at hqu
      rw [Assign.members_of_not_isUnion hpunion, List.mem_singleton] at hq
      exact absurd (hq ▸ hqu ▸ hu) hmem
  exact h3.accepts hphas hghas3
    (fun U hU hleU => (hcollected.of_le hwf hphas hleU).holds) .refl

/-- A type parameter that is bounded by `string` has a length, and that is a number. -/
theorem Ty.accepts_property_length : ∃ (T1 : Table) (k : Nat) (p : Field) (T2 : Table),
    (∀ j, k ≤ j → (Table.bounding .string {}).1.property? "length" j T1 = some (some p, T2)) ∧
      p.optional = false ∧ T2.Accepts p.type .number := by
  let T := (Alias.freeze Table.measuring).2
  let s := (Table.bounding .string {}).1
  let t := (lengthObject.run (Table.bounding .string {}).2).1
  obtain ⟨hs, hbound, ht⟩ : T.shape s = .parameter ⟨0⟩ ∧ (T.typeVar ⟨0⟩).bound = some .string ∧
      T.shape t = .object { fields := [{ name := "length", type := .number }] } := by
    with_unfolding_all decide
  have hhas : T.Has s := Table.has_of_shape (by simp [hs])
  have haccess : T.Accessible False s := .parameter hs fun b hb => by
    obtain rfl : b = .string := Option.some.inj (hb.symm.trans hbound)
    exact .plain rfl (by decide)
  have hrun : (s.isAssignableTo t 9 T).map Prod.fst = some true := by
    with_unfolding_all decide
  obtain ⟨⟨_, T1⟩, hrun, rfl⟩ := Option.map_eq_some_iff.mp hrun
  obtain ⟨k, p, T2, ts, hfound, hrequired, -, heach, hone, -⟩ :=
    accepts_property Table.resolved_measuring hhas haccess ht rfl rfl hrun .refl
  obtain rfl := hone.resolve_right id
  exact ⟨T1, k, p, T2, hfound, hrequired, heach p.type (by simp)⟩

namespace Table

/-- A table with a text. -/
def spelling : Table := (Ty.literalOf (.string "a") {}).2

/-- A table with an enum that has a text as its only value, and the objects that have a length. -/
def spelled : Table := (lengthObject.run (Ty.enumOf "E" false [("A", .made 0)] spelling).2).2

/-- What is to be computed about the text, before the enum is there. -/
theorem facts_spelling : spelling.shape (.made 0) ≠ .primitive .invalid ∧
    (spelling.entries.toList.all fun e => (e.shape matches .enumeration _) = false) ∧
    ∀ p ∈ [("A", Ty.made 0)], (spelling.literal? p.2).isSome := by
  with_unfolding_all decide

theorem prepared_spelling : spelling.Prepared :=
  Prepared.empty.call (.construct (.literal (.string "a")) (by simp [Construction.inputs]) trivial)

theorem resolved_spelled : (Alias.freeze spelled).2.Resolved := by
  obtain ⟨htext, hfresh, hvalue⟩ := facts_spelling
  have henum := prepared_spelling.call (.construct (.enumeration "E" false [("A", .made 0)])
    (by simpa [Construction.inputs] using has_of_shape htext) ⟨freshEnum_of_all hfresh, hvalue⟩)
  have hobject : spelled.Prepared :=
    henum.call (.construct lengthObject (by simp [lengthObject, Construction.inputs, Shape.parts])
    trivial)
  exact hobject.frozen (by with_unfolding_all decide)

end Table

/-- **An enum need not have the property of an object that it fits**: the texts have a length, the
enum of a text has only its member. -/
theorem Ty.not_property_enum : ∃ (T : Table) (s t : Ty) (e : Enumeration) (m : Members) (g : Field),
    T.Resolved ∧ T.shape s = .enumeration e ∧ T.shape t = .object m ∧ m.fields = [g] ∧
    g.optional = false ∧ (s.isAssignableTo t 9 T).map Prod.fst = some true ∧
    (s.property? g.name 9 T).map Prod.fst = some none := by
  refine ⟨(Alias.freeze Table.spelled).2, .made 1, .made 3, { name := "E", members := [.made 2] },
    { fields := [{ name := "length", type := .number }] }, { name := "length", type := .number },
    Table.resolved_spelled, ?_⟩
  with_unfolding_all decide

end ShapeCheck
