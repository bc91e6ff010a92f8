import ShapeCheck.Proofs.Unification
import ShapeCheck.Proofs.UnionTargets
import ShapeCheck.Proofs.Untouched

/-!
# Templates

A template is a first-order type in which some type parameters may stand. A substitution of
first-order types rebuilds it from the inside out. What it makes of the template is a first-order
type again, and it is the template with every part replaced: at an array, a tuple or an object the
type says the same about the replaced parts, at a union it is their union.

* `Table.Unites` says that a type is the union of some types; `Table.Unites.fits_iff` is what the
  union fits, `Table.Unites.cases` what fits the union.
* `Interning.settles_substituteAt_image` says that a substitution makes just that.
-/

namespace ShapeCheck

variable {u v : Tuple} {m : Members}

namespace Table

/-! ### Unions of first-order types -/

/-- The type is the union of some first-order types. -/
structure Unites (T : Table) (ts : List Ty) (w : Ty) : Prop where
  each : ∀ t ∈ ts, T.FirstOrder t
  firstOrder : T.FirstOrder w
  members : Interning.Stands T (Ty.unionMembers T ts) w

section Unions

variable {T T1 : Table} {ts : List Ty} {w k : Ty} {s : Shape}

theorem Unites.of_le (h : T.Unites ts w) (hT : T.WellFormed) (hle : T ≤ T1) : T1.Unites ts w where
  each t ht := (h.each t ht).of_agrees (.of_le hle)
  firstOrder := h.firstOrder.of_agrees (.of_le hle)
  members m := by
    rw [members_of_le hle h.firstOrder.has,
      Interning.unionMembers_of_le hT hle fun t ht => (h.each t ht).has]
    exact h.members m

/-- A union fits where all its parts do. -/
theorem Unites.fits_iff (h : T.Unites ts w) (hT : T.WellFormed) {u : Ty} :
    T.Fits (T.shape w) (T.shape u) ↔ ∀ t ∈ ts, T.Fits (T.shape t) (T.shape u) := by
  rw [h.firstOrder.fits_iff_members hT, ← fits_unionMembers_iff hT h.each]
  exact forall_congr' fun m => by rw [h.members m]

theorem Unites.fits_part (h : T.Unites ts w) (hT : T.WellFormed) {t : Ty} (ht : t ∈ ts) :
    T.Fits (T.shape t) (T.shape w) :=
  (h.fits_iff hT).mp (.refl _) t ht

/-- A member of a first-order type fits the type. -/
theorem FirstOrder.fits_member (hT : T.WellFormed) (h : T.FirstOrder w) {m : Ty}
    (hm : m ∈ T.members w) :
    T.Fits (T.shape m) (T.shape w) :=
  (h.fits_iff_members hT).mp (.refl _) m hm

/-- What fits one of the members that a union is made of fits one of the types, or it is `boolean`
and its two values do. -/
theorem fits_of_unionMember (hT : T.WellFormed) (hts : ∀ t ∈ ts, T.FirstOrder t)
    (hunion : ¬s.IsUnion)
    (hk : k ∈ Ty.unionMembers T ts) (h : T.Fits s (T.shape k)) :
    s = .primitive .never ∨ (∃ t ∈ ts, T.Fits s (T.shape t)) ∨
      s = .primitive .boolean ∧ ∀ b, ∃ t ∈ ts, T.Fits (.literal (.boolean b)) (T.shape t) := by
  have hmember : ∀ {m : Ty}, m ∈ Ty.allMembers T ts → ∃ t ∈ ts, T.Fits (T.shape m) (T.shape t) := by
    intro m hm
    obtain ⟨t, ht, hmt⟩ := mem_allMembers.mp hm
    exact ⟨t, ht, (hts t ht).fits_member hT hmt⟩
  have hfits : ∀ {m : Ty}, m ∈ Ty.allMembers T ts → T.Fits s (T.shape m) →
      ∃ t ∈ ts, T.Fits s (T.shape t) := by
    intro m hm hsm
    obtain ⟨t, ht, hmt⟩ := hmember hm
    exact ⟨t, ht, hsm.trans hT hmt⟩
  rcases unionMembers_cases hts with ⟨htop, heq⟩ | ⟨-, ⟨-, heq⟩ | ⟨-, heq⟩⟩
  · rw [heq, List.mem_singleton] at hk
    subst hk
    exact .inr (.inl (hfits htop h))
  · rw [heq, List.mem_singleton] at hk
    subst hk
    exact .inl h.never_right
  · rw [heq, Ty.essentialMembers, List.mem_append] at hk
    rcases hk with hk | hk
    · exact .inr (.inl (hfits (List.mem_filter.mp hk).1 h))
    · -- both truth values are there, and `boolean` stands for them
      split_ifs at hk with hsplit
      · obtain rfl := List.mem_singleton.mp hk
        simp only [Ty.splitsBoolean, Bool.and_eq_true, List.contains_eq_mem, decide_eq_true_eq]
          at hsplit
        obtain ⟨⟨htrue, hfalse⟩, -⟩ := hsplit
        have hvalue : ∀ b, ∃ t ∈ ts, T.Fits (.literal (.boolean b)) (T.shape t) := fun b => by
          cases b
          · exact hmember hfalse
          · exact hmember htrue
        cases h with
        | refl => exact .inr (.inr ⟨rfl, hvalue⟩)
        | bottom => exact .inl rfl
        | split => exact absurd ⟨_, rfl⟩ hunion
        | @base l _ hl =>
          cases l with
          | boolean b => exact .inr (.inl (hvalue b))
          | _ => simp [Literal.base] at hl
      · exact absurd hk (by simp)

/-- **What fits a union**, if it is no union itself, fits one of its parts, or it is `boolean` and
its two values do. -/
theorem Unites.cases (h : T.Unites ts w) (hT : T.WellFormed) (hunion : ¬s.IsUnion)
    (hfits : T.Fits s (T.shape w)) :
    s = .primitive .never ∨ (∃ t ∈ ts, T.Fits s (T.shape t)) ∨
      s = .primitive .boolean ∧ ∀ b, ∃ t ∈ ts, T.Fits (.literal (.boolean b)) (T.shape t) := by
  by_cases hw : (T.shape w).IsUnion
  · obtain ⟨ks, hks⟩ := hw
    have hmembers : ∀ k ∈ ks, k ∈ Ty.unionMembers T ts := fun k hk =>
      (h.members k).mp (by simpa [Table.members, hks] using hk)
    have hproper := (hT.canonical_union hks).truths
    rw [hks] at hfits
    cases hfits with
    | refl => exact absurd ⟨ks, rfl⟩ hunion
    | bottom => exact .inl rfl
    | split => exact absurd ⟨_, rfl⟩ hunion
    | truths htrue hfalse => exact absurd ⟨htrue, hfalse⟩ hproper
    | member _ _ hk hsk => exact fits_of_unionMember hT h.each hunion (hmembers _ hk) hsk
  · have hself : w ∈ Ty.unionMembers T ts :=
      (h.members w).mp (by simp [Assign.members_of_not_isUnion hw])
    exact fits_of_unionMember hT h.each hunion hself hfits

end Unions

end Table

namespace Interning

open Table

variable {T : Table} {ts : List Ty}

/-- The union of first-order types is one. -/
theorem settles_unites (hT : T.WellFormed) (hts : ∀ t ∈ ts, T.FirstOrder t) :
    Settles T (Ty.unionOf ts) fun T1 w => T1.Unites ts w := by
  refine ((settles_union_fits hT hts).and (settles_unionOf hT fun t ht => (hts t ht).has)).imp ?_
  rintro w T1 - h1 ⟨⟨hw, -⟩, -, hmembers⟩
  refine ⟨fun t ht => (hts t ht).of_agrees (.of_le h1.le), hw, ?_⟩
  rwa [unionMembers_of_le hT h1.le fun t ht => (hts t ht).has]

end Interning

namespace Table

variable {T : Table} {t : Ty}

/-- A first-order type is the union of itself alone. -/
theorem Unites.self (hT : T.WellFormed) (ht : T.FirstOrder t) : T.Unites [t] t := by
  have hone : ∀ u ∈ [t], T.FirstOrder u := by simpa using ht
  obtain ⟨w, T1, hat, hw⟩ := Interning.settles_unites hT hone
  obtain ⟨rfl, rfl⟩ := Prod.mk.inj (hat.result.symm.trans (Interning.unionOf_self hT t))
  exact hw

end Table

/-! ### Types with parameters in them -/

/-- Slots that say the same are equal. -/
theorem Tuple.eq_of_alike (h : u.Alike Eq v) : u = v := by
  obtain ⟨hslots, hrest, hreadonly⟩ := h
  have hsame : u.slots = v.slots := by
    rw [← List.forall₂_eq_eq_eq]
    refine hslots.imp ?_
    rintro ⟨s, o⟩ ⟨s', o'⟩ ⟨rfl, rfl⟩
    rfl
  cases u
  cases v
  simp only [Tuple.mk.injEq]
  exact ⟨hsame, option_rel_eq_iff.mp hrest, hreadonly⟩

namespace Shape

/-- The shapes of objects, arrays and tuples. -/
def isContainer : Shape → Bool
  | .object _ | .array _ _ | .tuple _ => true
  | _ => false

variable {s : Shape}

theorem isPlain_of_isContainer (h : s.isContainer = true) : s.isPlain = true := by
  cases s <;> first | rfl | exact absurd h (by simp [isContainer])

theorem eq_array_of_alike {e : Ty} {readonly : Bool} (h : s.Alike Eq (.array e readonly)) :
    s = .array e readonly := by
  cases s with
  | array =>
    obtain ⟨rfl, rfl⟩ := h
    rfl
  | _ => exact h.elim

theorem eq_tuple_of_alike (h : s.Alike Eq (.tuple u)) : s = .tuple u := by
  cases s with
  | tuple => exact congrArg _ (Tuple.eq_of_alike h)
  | _ => exact h.elim

/-- Objects that say the same have the same field under every name. -/
theorem eq_object_of_alike (h : s.Alike Eq (.object m)) :
    ∃ n, s = .object n ∧ ∀ name, n.field? name = m.field? name := by
  cases s with
  | object n =>
    refine ⟨n, rfl, fun name => ?_⟩
    have hrel := Members.Alike.fields h name
    cases hn : n.field? name with
    | none =>
      rw [hn] at hrel
      cases hm : m.field? name with
      | none => rfl
      | some g =>
        rw [hm] at hrel
        cases hrel
    | some f =>
      obtain ⟨g, hg, htype, hoptional, hreadonly⟩ := exists_of_option_rel hrel hn
      have hname := (Members.mem_of_field? hn).2.trans (Members.mem_of_field? hg).2.symm
      rw [Option.mem_def.mp hg]
      cases f
      cases g
      simp_all
  | _ => exact h.elim

end Shape

namespace Tuple

/-- The tuple with the type of every place replaced. -/
def mapTypes (f : Ty → Ty) (u : Tuple) : Tuple :=
  { u with slots := u.slots.map fun s => { s with type := f s.type }, rest := u.rest.map f }

variable {f : Ty → Ty} {i : Nat}

theorem place?_mapTypes : (u.mapTypes f).place? i = (u.place? i).map f := by
  simp only [place?, mapTypes, List.getElem?_map, Option.map_map, Option.map_or]
  rfl

theorem requires_mapTypes : (u.mapTypes f).Requires i ↔ u.Requires i := by
  simp [Requires, mapTypes]

theorem elements_mapTypes : (u.mapTypes f).elements = u.elements.map f := by
  simp [elements, mapTypes, Option.toList_map]

theorem trailingOptional_mapTypes (seen : Bool) (slots : List Slot) :
    Ty.trailingOptional seen (slots.map fun s => { s with type := f s.type }) =
      (Ty.trailingOptional seen slots).map fun s => { s with type := f s.type } := by
  induction slots generalizing seen with
  | nil => rfl
  | cons s rest ih => simp [Ty.trailingOptional, ih]

theorem tupleShape_mapTypes (h : Ty.trailingOptional false u.slots = u.slots) :
    Interning.tupleShape (u.mapTypes f) = .tuple (u.mapTypes f) := by
  have hslots := trailingOptional_mapTypes (f := f) false u.slots
  rw [h] at hslots
  rw [Interning.tupleShape, mapTypes, hslots]

theorem suits_mapTypes : v.Suits (u.mapTypes f) ↔ v.Suits u := by
  constructor
  · rintro ⟨hrequired, hwithin⟩
    exact ⟨fun i hi => hrequired i (requires_mapTypes.mpr hi),
      fun i hi => by simpa [place?_mapTypes] using hwithin i hi⟩
  · rintro ⟨hrequired, hwithin⟩
    exact ⟨fun i hi => hrequired i (requires_mapTypes.mp hi),
      fun i hi => by simpa [place?_mapTypes] using hwithin i hi⟩

end Tuple

/-- The field with its type replaced. -/
def Field.mapType (f : Ty → Ty) (g : Field) : Field := { g with type := f g.type }

namespace Members

/-- The fields with their types replaced, and nothing else. -/
def mapTypes (f : Ty → Ty) (m : Members) : Members := { fields := m.fields.map (Field.mapType f) }

variable {f : Ty → Ty}

theorem field?_mapTypes (name : String) :
    (m.mapTypes f).field? name = (m.field? name).map (Field.mapType f) := by
  rw [field?, mapTypes, List.find?_map]
  rfl

theorem objectShape_mapTypes (h : (m.fields.map Field.name).Nodup) :
    Interning.objectShape (m.mapTypes f) = .object (m.mapTypes f) := by
  have hnames : ((m.mapTypes f).fields.map Field.name).Nodup := by
    rw [mapTypes, List.map_map]
    exact h
  rw [Interning.objectShape, Interning.foldl_putField_self hnames]

end Members

namespace Table

/-- The first-order types in which some of the parameters may stand. -/
inductive Template (T : Table) (vars : List TypeVar) : Ty → Prop
  | parameter {t : Ty} {v : TypeVar} (h : T.shape t = .parameter v)
      (hv : v ∈ vars) : Template T vars t
  | primitive {p : Primitive} (hany : p ≠ .any) (hvalid : p ≠ .invalid) : Template T vars (.prim p)
  | literal {t : Ty} {l : Literal} (h : T.shape t = .literal l) : Template T vars t
  | array {t e : Ty} {readonly : Bool} (h : T.shape t = .array e readonly)
    (he : Template T vars e) :
    Template T vars t
  | tuple {t : Ty} {u : Tuple} (h : T.shape t = .tuple u)
    (hu : ∀ e ∈ u.elements, Template T vars e) :
    Template T vars t
  | union {t : Ty} {ms : List Ty} (h : T.shape t = .union ms) (hms : ∀ m ∈ ms, Template T vars m) :
    Template T vars t
  | object {t : Ty} {m : Members} (h : T.shape t = .object m)
    (hm : ∀ f ∈ m.fields, Template T vars f.type)
    (hplain : ∀ f ∈ m.fields, f.optional = false ∧ Decimal.isNumeric f.name = false)
    (hindex : m.index = none) (hcalls : m.calls = []) : Template T vars t

section Templates

variable {T T1 : Table} {vars : List TypeVar} {p t : Ty}

variable (h : T.Template vars p)
include h

theorem Template.has : T.Has p := by
  cases h with
  | primitive => exact T.has_prim _
  | parameter h | literal h | array h | tuple h | union h | object h =>
    apply has_of_shape
    rw [h]
    simp

theorem Template.part (ht : t ∈ (T.shape p).parts) : T.Template vars t := by
  cases h with
  | primitive => simp [shape, Shape.parts] at ht
  | parameter h | literal h => simp [h, Shape.parts] at ht
  | array h he =>
    rw [h] at ht
    rwa [List.mem_singleton.mp ht]
  | tuple h hu =>
    rw [h] at ht
    exact hu t ht
  | union h hms =>
    rw [h] at ht
    exact hms t ht
  | object h hm _ hindex hcalls =>
    rw [h] at ht
    simp only [Shape.parts, hindex, hcalls, Option.map_none, Option.toList_none, List.append_nil,
      List.mem_map] at ht
    obtain ⟨f, hf, rfl⟩ := ht
    exact hm f hf

theorem Template.of_le (hle : T ≤ T1) : T1.Template vars p := by
  have hshape := fun {u : Ty} (hu : T.Template vars u) => shape_of_le hle hu.has
  induction h with
  | parameter h hv => exact .parameter ((hshape (.parameter h hv)).trans h) hv
  | primitive hany hvalid => exact .primitive hany hvalid
  | literal h => exact .literal ((hshape (.literal h)).trans h)
  | array h he ih => exact .array ((hshape (.array h he)).trans h) ih
  | tuple h hu ih => exact .tuple ((hshape (.tuple h hu)).trans h) ih
  | union h hms ih => exact .union ((hshape (.union h hms)).trans h) ih
  | object h hm hplain hindex hcalls ih =>
    exact .object ((hshape (.object h hm hplain hindex hcalls)).trans h) ih hplain hindex hcalls

/-- All parts of a template are places where it can mention a parameter. -/
theorem Template.mentionParts :
    Ty.mentionParts (T.shape p) = (T.shape p).parts := by
  cases h with
  | primitive => rfl
  | parameter h | literal h | array h | tuple h | union h | object h => rw [h]; rfl

/-- A part of a template that mentions no parameter mentions none. -/
theorem Template.unmentioned_part (hT : T.WellFormed)
    (hp : Ty.mentions T vars p = false) (ht : t ∈ (T.shape p).parts) :
    Ty.mentions T vars t = false := by
  rw [Bool.eq_false_iff] at hp ⊢
  exact fun hmentions => hp (mentions_of_part hT (h.mentionParts ▸ ht) hmentions)

/-- What mentions a parameter is one, or it has parts. -/
theorem Template.composite (hp : Ty.mentions T vars p = true)
    (hv : ∀ v, T.shape p ≠ .parameter v) : (T.shape p).parts ≠ [] := by
  intro hnone
  unfold Ty.mentions Ty.mentionsAt at hp
  rw [← h.mentionParts] at hnone
  cases hs : T.shape p with
  | parameter v => exact hv v hs
  | _ =>
    rw [hs] at hnone
    simp [hs, hnone] at hp

omit h

theorem mentions_parameter {v : TypeVar} (h : T.shape p = .parameter v) :
    Ty.mentions T vars p = vars.contains v := by
  unfold Ty.mentions Ty.mentionsAt
  rw [h]

/-- A template that mentions no parameter is a first-order type. -/
theorem Template.firstOrder (h : T.Template vars p) (hT : T.WellFormed)
    (hp : Ty.mentions T vars p = false) : T.FirstOrder p := by
  have hpart := fun {u t : Ty} (hu : T.Template vars u) (h : Ty.mentions T vars u = false) ht =>
    hu.unmentioned_part (t := t) hT h ht
  induction h with
  | parameter h hv =>
    rw [mentions_parameter h] at hp
    exact absurd hv (by simpa using hp)
  | primitive hany hvalid => exact .primitive hany hvalid
  | literal h => exact .literal h
  | array h he ih => exact .array h (ih (hpart (.array h he) hp (by simp [h, Shape.parts])))
  | tuple h hu ih =>
    exact .tuple h fun e he => ih e he (hpart (.tuple h hu) hp (by simpa [h, Shape.parts] using he))
  | union h hms ih =>
    have hcanonical := hT.canonical_union h
    refine .union h (fun hnil => ?_) (fun m hm => ih m hm (hpart (.union h hms) hp ?_))
      fun m hm => ?_
    · have hseveral := hcanonical.several
      rw [hnil] at hseveral
      exact absurd hseveral (by simp)
    · rw [h]
      exact hm
    · obtain ⟨hnever, -, hunknown, -⟩ := hcanonical.proper m hm
      exact ⟨hnever, hunknown⟩
  | object h hm hplain hindex hcalls ih =>
    refine .object h (fun f hf => ih f hf (hpart (.object h hm hplain hindex hcalls) hp ?_)) hplain
      hindex hcalls
    rw [h]
    exact mem_parts_of_field hf

/-- A first-order type refers to no parameter and has no function in it. -/
theorem FirstOrder.spared (h : T.FirstOrder t) (keys : List TypeVar) : T.Spared keys t := by
  have hparameter : ∀ {u : Ty}, T.FirstOrder u → ∀ v, T.shape u ≠ .parameter v := by
    intro u hu v
    cases hu with
    | primitive => simp [shape]
    | literal h | array h | tuple h | union h | object h => simp [h]
  have hfunction : ∀ {u : Ty}, T.FirstOrder u → ∀ c, T.shape u ≠ .function c := by
    intro u hu c
    cases hu with
    | primitive => simp [shape]
    | literal h | array h | tuple h | union h | object h => simp [h]
  refine ⟨?_, fun hhides => ?_⟩
  · unfold Ty.mentions
    generalize t.rank + 1 = depth
    induction depth generalizing t with
    | zero => rfl
    | succ depth ih =>
      unfold Ty.mentionsAt
      have hparts : (Ty.mentionParts (T.shape t)).any (Ty.mentionsAt T keys depth) = false := by
        rw [List.any_eq_false]
        intro p hp
        rw [ih (h.part (Shape.mem_parts_of_mem_mentionParts hp))]
        exact Bool.false_ne_true
      cases hs : T.shape t with
      | parameter v => exact absurd hs (hparameter h v)
      | _ => rwa [hs] at hparts
  · induction hhides with
    | declares hs | receiver hs | inReceiver hs => exact hfunction h _ hs
    | inPart hp _ ih => exact ih (h.part (Shape.mem_parts_of_mem_mentionParts hp))

end Templates

/-! ### What a substitution makes of a template -/

/-- The type is a composite shape with every part replaced. -/
def Rebuilds (T : Table) (image : Ty → Ty) (q : Ty) : Shape → Prop
  | .union ms => T.Unites (ms.map image) q
  | .array e readonly => T.shape q = .array (image e) readonly
  | .tuple u => T.shape q = .tuple (u.mapTypes image)
  | .object m => ∃ n, T.shape q = .object n ∧
      ∀ name, n.field? name = (m.field? name).map (Field.mapType image)
  | _ => False

/-- The second type is what a substitution makes of a template, down to the given depth. A template
that mentions none of the parameters stays as it is. -/
def imageAt (T : Table) (vars : List TypeVar) (subs : Substitution) : Nat → Ty → Ty → Prop
  | 0, _, _ => False
  | depth + 1, p, q =>
    if Ty.mentions T vars p then
      match T.shape p with
      | .parameter v => subs.lookup v = some q
      | s => ∃ image : Ty → Ty, (∀ t ∈ s.parts, T.imageAt vars subs depth t (image t)) ∧
          T.Rebuilds image q s
    else q = p

section Images

variable {T T1 : Table} {vars : List TypeVar} {subs : Substitution} {p q : Ty} {depth : Nat}

theorem imageAt_unmentioned (hp : Ty.mentions T vars p = false) :
    T.imageAt vars subs (depth + 1) p q ↔ q = p := by
  simp [imageAt, hp]

theorem imageAt_parameter {v : TypeVar} (hp : Ty.mentions T vars p = true)
    (hs : T.shape p = .parameter v) :
    T.imageAt vars subs (depth + 1) p q ↔ subs.lookup v = some q := by
  simp [imageAt, hp, hs]

/-- Only a parameter is replaced as a whole. -/
theorem imageAt_composite (hp : Ty.mentions T vars p = true) (hs : ∀ v, T.shape p ≠ .parameter v) :
    T.imageAt vars subs (depth + 1) p q ↔ ∃ image : Ty → Ty,
      (∀ t ∈ (T.shape p).parts, T.imageAt vars subs depth t (image t)) ∧
        T.Rebuilds image q (T.shape p) := by
  rw [imageAt, if_pos hp]
  cases hshape : T.shape p with
  | parameter v => exact absurd hshape (hs v)
  | _ => rfl

theorem Rebuilds.of_le {image : Ty → Ty} {s : Shape} (h : T.Rebuilds image q s) (hT : T.WellFormed)
    (hle : T ≤ T1) : T1.Rebuilds image q s := by
  have hshape : T.shape q ≠ .primitive .invalid → T1.shape q = T.shape q := fun h =>
    shape_of_le hle (has_of_shape h)
  cases s with
  | union ms => exact Unites.of_le h hT hle
  | array e readonly =>
    have hs : T.shape q = .array (image e) readonly := h
    exact (hshape (by simp [hs])).trans hs
  | tuple u =>
    have hs : T.shape q = .tuple (u.mapTypes image) := h
    exact (hshape (by simp [hs])).trans hs
  | object m =>
    obtain ⟨n, hs, hfields⟩ := h
    exact ⟨n, (hshape (by simp [hs])).trans hs, hfields⟩
  | _ => exact h.elim

theorem imageAt_of_le (hT : T.WellFormed) (hle : T ≤ T1) (hp : T.Template vars p)
    (h : T.imageAt vars subs depth p q) : T1.imageAt vars subs depth p q := by
  induction depth generalizing p q with
  | zero => exact h
  | succ depth ih =>
    have hmentions : Ty.mentions T1 vars p = Ty.mentions T vars p := mentions_of_le hle hT hp.has
    have hshape := shape_of_le hle hp.has
    cases hm : Ty.mentions T vars p with
    | false =>
      rw [imageAt_unmentioned (hmentions.trans hm)]
      exact (imageAt_unmentioned hm).mp h
    | true =>
      by_cases hv : ∃ v, T.shape p = .parameter v
      · obtain ⟨v, hv⟩ := hv
        rw [imageAt_parameter (hmentions.trans hm) (hshape.trans hv)]
        exact (imageAt_parameter hm hv).mp h
      · rw [not_exists] at hv
        rw [imageAt_composite (hmentions.trans hm) (hshape ▸ hv), hshape]
        obtain ⟨image, hparts, hrebuilds⟩ := (imageAt_composite hm hv).mp h
        exact ⟨image, fun t ht => ih (hp.part ht) (hparts t ht), hrebuilds.of_le hT hle⟩

end Images

end Table

namespace Interning

open Table

/-- From this table on, the work gives one result and leaves the table as it is. -/
def Rests {α : Type} (T : Table) (work : Interning α) : Prop :=
  ∀ T1, T ≤ T1 → work T1 = ((work T).1, T1)

section Resting

variable {α β : Type} {T T1 : Table} {work : Interning α} {V : Table → α → Prop}

theorem Rests.result (h : Rests T work) (hle : T ≤ T1) : (work T1).1 = (work T).1 := by
  rw [h T1 hle]

theorem Rests.of_le (h : Rests T work) (hle : T ≤ T1) : Rests T1 work := by
  intro T2 h2
  rw [h T2 (hle.trans h2), h.result hle]

/-- Work that has settled is at rest. -/
theorem Settles.rests (h : Settles T work V) :
    Settles T work fun T1 a => V T1 a ∧ a = (work T1).1 ∧ Rests T1 work := by
  obtain ⟨a, T1, hat, hv⟩ := h
  have hself : (work T1).1 = a := congrArg Prod.fst (hat.again T1 (le_refl T1))
  refine ⟨a, T1, hat, hv, hself.symm, fun T2 h2 => ?_⟩
  rw [hself]
  exact hat.again T2 h2

theorem Settles.of_rests (h : Settles T work V) (hrests : Rests T work) : V T (work T).1 := by
  obtain ⟨a, T1, hat, hv⟩ := h
  obtain ⟨rfl, rfl⟩ := Prod.mk.inj (hat.result.symm.trans (hrests T (le_refl T)))
  exact hv

/-- Once the same work has settled on each of a list, it is a function of what it works on. -/
theorem settles_mapM_rests {f : α → Interning β} (hT : T.WellFormed) (xs : List α)
    (hf : ∀ x ∈ xs, ∀ T1, T1.WellFormed → T.Adds T1 → Settles T1 (f x) fun _ _ => True) :
    Settles T (xs.mapM f) fun T1 bs =>
      bs = xs.map (fun x => (f x T1).1) ∧ ∀ x ∈ xs, Rests T1 (f x) := by
  induction xs generalizing T with
  | nil => exact settles_pure hT (by simp)
  | cons x xs ih =>
    rw [List.mapM_cons]
    refine (hf x (by simp) T hT (.refl T)).rests.bind fun b T1 hT1 h1 hb => ?_
    refine (ih hT1 fun y hy T2 hT2 h2 =>
      hf y (List.mem_cons_of_mem x hy) T2 hT2 (h1.trans h2)).bind fun bs T2 hT2 h2 hbs => ?_
    obtain ⟨-, rfl, hx⟩ := hb
    obtain ⟨rfl, hxs⟩ := hbs
    refine settles_pure hT2 ⟨?_, ?_⟩
    · rw [List.map_cons, hx.result h2.le]
    · exact List.forall_mem_cons.mpr ⟨hx.of_le h2.le, hxs⟩

end Resting

section Substituting

variable {T : Table} {part : Ty → Interning Ty}

theorem settles_rebuildFields_map (hT : T.WellFormed) {fields : List Field}
    (hpart : ∀ f ∈ fields, ∀ T1, T1.WellFormed → T.Adds T1 →
      Settles T1 (part f.type) fun _ _ => True) :
    Settles T (Ty.rebuildFields part fields) fun T1 fs =>
      fs = fields.map (Field.mapType fun t => (part t T1).1) ∧
        ∀ f ∈ fields, Rests T1 (part f.type) := by
  refine (settles_mapM_rests hT fields fun f hf T1 hT1 h1 => ?_).imp fun fs T1 _ _ h => ?_
  · exact (hpart f hf T1 hT1 h1).bind fun _ T2 hT2 _ _ => settles_pure hT2 trivial
  · refine ⟨h.1, fun f hf T2 h2 => ?_⟩
    obtain ⟨hfield, htable⟩ := Prod.mk.inj (h.2 f hf T2 h2)
    exact Prod.ext (congrArg Field.type hfield) htable

/-- An object without an index signature and call signatures is rebuilt field by field. -/
theorem settles_rebuildMembers_map {dropped : TypeVar → Bool} (hT : T.WellFormed)
    (hindex : m.index = none) (hcalls : m.calls = [])
    (hpart : ∀ f ∈ m.fields, ∀ T1, T1.WellFormed → T.Adds T1 →
      Settles T1 (part f.type) fun _ _ => True) :
    Settles T (Ty.rebuildMembers part dropped m) fun T1 n =>
      n = m.mapTypes (fun t => (part t T1).1) ∧ ∀ f ∈ m.fields, Rests T1 (part f.type) := by
  unfold Ty.rebuildMembers
  rw [hindex, hcalls]
  refine (settles_rebuildFields_map hT hpart).bind fun fields T1 hT1 h1 h => ?_
  obtain ⟨rfl, hrests⟩ := h
  exact settles_pure hT1 ⟨rfl, hrests⟩

theorem settles_rebuildTuple_map (hT : T.WellFormed)
    (hpart : ∀ t ∈ u.elements, ∀ T1, T1.WellFormed → T.Adds T1 →
      Settles T1 (part t) fun _ _ => True) :
    Settles T (Ty.rebuildTuple part u) fun T1 v =>
      v = u.mapTypes (fun t => (part t T1).1) ∧ ∀ t ∈ u.elements, Rests T1 (part t) := by
  obtain ⟨hslots, hrest⟩ := Tuple.forall_elements.mp hpart
  refine (settles_mapM_rests hT u.slots fun s hs T1 hT1 h1 => ?_).bind fun slots T1 hT1 h1 h => ?_
  · exact (hslots s hs T1 hT1 h1).bind fun _ T2 hT2 _ _ => settles_pure hT2 trivial
  have hslot : ∀ s ∈ u.slots, Rests T1 (part s.type) := by
    intro s hs T2 h2
    obtain ⟨hslot, htable⟩ := Prod.mk.inj (h.2 s hs T2 h2)
    exact Prod.ext (congrArg Slot.type hslot) htable
  have hmap : ∀ T2, T1 ≤ T2 →
      slots = u.slots.map fun s => { s with type := (part s.type T2).1 } := by
    intro T2 h2
    rw [h.1]
    refine List.map_congr_left fun s hs => ?_
    rw [(hslot s hs).result h2]
    rfl
  cases hr : u.rest with
  | none =>
    refine settles_pure hT1 ⟨?_, Tuple.forall_elements.mpr ⟨hslot, by simp [hr]⟩⟩
    simp only [Tuple.mapTypes, hr, hmap T1 (le_refl T1), Option.map_none]
  | some r =>
    refine Settles.bind (V := fun T2 o => o = some (part r T2).1 ∧ Rests T2 (part r))
      ((hrest r hr T1 hT1 h1).rests.bind fun x T2 hT2 _ hx => ?_) fun o T2 hT2 h2 ho => ?_
    · exact settles_pure hT2 ⟨congrArg some hx.2.1, hx.2.2⟩
    · refine settles_pure hT2 ⟨?_, Tuple.forall_elements.mpr
        ⟨fun s hs => (hslot s hs).of_le h2.le, ?_⟩⟩
      · simp only [Tuple.mapTypes, hr, hmap T2 h2.le, ho.1, Option.map_some]
      · simpa [hr] using ho.2

theorem settles_rebuildParameters_map (hT : T.WellFormed) (ps : List Parameter)
    (hpart : ∀ p ∈ ps, ∀ T1, T1.WellFormed → T.Adds T1 → Settles T1 (part p.type) fun _ _ => True) :
    Settles T (ps.mapM (Ty.rebuildParameter part)) fun T1 qs =>
      qs = ps.map (fun p => { p with type := (part p.type T1).1 }) ∧
        ∀ p ∈ ps, Rests T1 (part p.type) := by
  refine (settles_mapM_rests hT ps fun p hp T1 hT1 h1 => ?_).imp fun qs T1 _ _ h => ?_
  · exact (hpart p hp T1 hT1 h1).bind fun _ T2 hT2 _ _ => settles_pure hT2 trivial
  · refine ⟨h.1, fun p hp T2 h2 => ?_⟩
    obtain ⟨hparameter, htable⟩ := Prod.mk.inj (h.2 p hp T2 h2)
    exact Prod.ext (congrArg Parameter.type hparameter) htable

/-- A signature is rebuilt part by part. -/
theorem settles_rebuildCallable_map (dropped : TypeVar → Bool) (hT : T.WellFormed) {c : Callable}
    (hpart : ∀ t ∈ (Shape.function c).parts, ∀ T1, T1.WellFormed → T.Adds T1 →
      Settles T1 (part t) fun _ _ => True) :
    Settles T (Ty.rebuildCallable part dropped c) fun T1 d =>
      d.params = c.params.map (fun p => { p with type := (part p.type T1).1 }) ∧
      d.rest = c.rest.map (fun p => { p with type := (part p.type T1).1 }) ∧
      (∀ p ∈ c.params, Rests T1 (part p.type)) ∧ ∀ p ∈ c.rest, Rests T1 (part p.type) := by
  obtain ⟨hparams, hrest, hreceiver, hresult⟩ := Shape.forall_parts_function.mp hpart
  unfold Ty.rebuildCallable
  refine (hresult T hT (.refl T)).bind fun result T1 hT1 h1 _ => ?_
  have hthis : Settles T1 (Ty.rebuildOption part c.receiver) fun _ _ => True := by
    cases hr : c.receiver with
    | none => exact settles_pure hT1 trivial
    | some t => exact (hreceiver t hr T1 hT1 h1).bind fun _ T2 hT2 _ _ => settles_pure hT2 trivial
  refine hthis.bind fun receiver T2 hT2 h2 _ => ?_
  refine (settles_rebuildParameters_map hT2 c.params fun p hp T3 hT3 h3 =>
    hparams p hp T3 hT3 ((h1.trans h2).trans h3)).bind fun params T3 hT3 h3 hps => ?_
  have hmap : ∀ T4, T3 ≤ T4 → params = c.params.map
    (fun p => { p with type := (part p.type T4).1 }) := by
    intro T4 h4
    rw [hps.1]
    refine List.map_congr_left fun p hp => ?_
    rw [(hps.2 p hp).result h4]
  cases hr : c.rest with
  | none => exact settles_pure hT3 ⟨hmap T3 (le_refl T3), rfl, hps.2, by simp⟩
  | some r =>
    refine Settles.bind (V := fun T4 o => o = some { r with type := (part r.type T4).1 } ∧
      Rests T4 (part r.type)) ?_ fun rest T4 hT4 h4 hrest' => ?_
    · refine Settles.bind ((hrest r hr T3 hT3 ((h1.trans h2).trans h3)).rests.bind
        (W := fun T4 q => q = { r with type := (part r.type T4).1 } ∧ Rests T4 (part r.type))
        fun x T4 hT4 _ hx => ?_) fun q T5 hT5 _ hq => ?_
      · exact settles_pure hT4 ⟨by rw [← hx.2.1], hx.2.2⟩
      · exact settles_pure hT5 ⟨by rw [← hq.1], hq.2⟩
    · refine settles_pure hT4 ⟨hmap T4 h4.le, hrest'.1, fun p hp => (hps.2 p hp).of_le h4.le, ?_⟩
      simpa using hrest'.2

/-- What a constructor makes of first-order types is one. -/
theorem settles_firstOrder_run {c : Construction} {V : Table → Ty → Prop} (hT : T.WellFormed)
    (hc : c.IsFirstOrder) (hin : ∀ t ∈ c.inputs, T.FirstOrder t) (h : Settles T c.run V) :
    Settles T c.run fun T1 t => V T1 t ∧ T1.FirstOrder t := by
  obtain ⟨t, T1, hat, hv⟩ := h
  have hfirst := Construction.firstOrder_run hT hc hin
  rw [hat.result] at hfirst
  exact ⟨t, T1, hat, hv, hfirst⟩

variable {vars : List TypeVar} {subs : Substitution} {p : Ty}

/-- One level of a substitution rebuilds a composite template from what the parts become. -/
theorem settles_substituteStep_rebuilds (hT : T.WellFormed) (horderly : T.Orderly)
    (hp : T.Template vars p) (hcomposite : (T.shape p).parts ≠ [])
    (hpart : ∀ t ∈ (T.shape p).parts, ∀ T1, T1.WellFormed → T.Adds T1 →
      Settles T1 (part t) Table.FirstOrder) :
    Settles T (Ty.substituteStep subs part p) fun T1 q => T1.FirstOrder q ∧
      ∃ T', T'.WellFormed ∧ T.Adds T' ∧ T' ≤ T1 ∧ (∀ t ∈ (T.shape p).parts, Rests T' (part t)) ∧
        T1.Rebuilds (fun t => (part t T').1) q (T.shape p) := by
  have hsettles := fun t ht T1 hT1 h1 => (hpart t ht T1 hT1 h1).imp fun _ _ _ _ _ => trivial
  have hfirst : ∀ {T1 : Table} {t : Ty}, T1.WellFormed → T.Adds T1 → t ∈ (T.shape p).parts →
      Rests T1 (part t) → T1.FirstOrder (part t T1).1 :=
    fun hT1 h1 ht hrests => (hpart _ ht _ hT1 h1).of_rests hrests
  refine settles_get_bind (fun T2 h2 => by rw [Table.shape_of_le h2 hp.has]) ?_
  cases hp with
  | parameter hs | literal hs => exact absurd (by simp [hs, Shape.parts]) hcomposite
  | primitive => exact absurd (by simp [Table.shape, Shape.parts]) hcomposite
  | @array _ e readonly hs =>
    rw [hs] at hsettles hfirst ⊢
    have he : e ∈ (Shape.array e readonly).parts := by simp [Shape.parts]
    refine (hsettles e he T hT (.refl T)).rests.bind fun u T1 hT1 h1 hu => ?_
    obtain ⟨-, rfl, hrests⟩ := hu
    have hu := hfirst hT1 h1 he hrests
    refine (settles_firstOrder_run (c := .array _ readonly) hT1 trivial
      (by simpa [Construction.inputs] using hu) (gives_arrayOf hT1 hu.has readonly)).imp ?_
    rintro q T2 - h2 ⟨⟨-, halike⟩, hq⟩
    refine ⟨hq, T1, hT1, h1, h2.le, ?_, Shape.eq_array_of_alike halike⟩
    simpa [Shape.parts] using hrests
  | @tuple _ u hs =>
    have hstandard := horderly.standard p
    rw [hs] at hsettles hfirst hstandard ⊢
    refine (settles_rebuildTuple_map hT hsettles).bind fun v T1 hT1 h1 hv => ?_
    obtain ⟨rfl, hrests⟩ := hv
    have hin : ∀ x ∈ (u.mapTypes fun t => (part t T1).1).elements, T1.FirstOrder x := by
      rw [Tuple.elements_mapTypes]
      intro x hx
      obtain ⟨t, ht, rfl⟩ := List.mem_map.mp hx
      exact hfirst hT1 h1 ht (hrests t ht)
    refine (settles_firstOrder_run (c := .tuple _) hT1 trivial hin
      (gives_tupleOf hT1 fun x hx => (hin x hx).has)).imp ?_
    rintro q T2 - h2 ⟨⟨-, halike⟩, hq⟩
    rw [Tuple.tupleShape_mapTypes hstandard] at halike
    exact ⟨hq, T1, hT1, h1, h2.le, hrests, Shape.eq_tuple_of_alike halike⟩
  | @union _ ms hs =>
    rw [hs] at hsettles hfirst ⊢
    refine (settles_mapM_rests hT ms hsettles).bind fun us T1 hT1 h1 hus => ?_
    obtain ⟨rfl, hrests⟩ := hus
    refine (settles_unites hT1 fun u hu => ?_).imp fun q T2 _ h2 hq => ?_
    · obtain ⟨m, hm, rfl⟩ := List.mem_map.mp hu
      exact hfirst hT1 h1 hm (hrests m hm)
    · exact ⟨hq.firstOrder, T1, hT1, h1, h2.le, hrests, hq⟩
  | @object _ m hs hfields hplain hindex hcalls =>
    have hnames := hT.tidy p
    rw [hs] at hsettles hfirst hnames ⊢
    refine (settles_rebuildMembers_map hT hindex hcalls fun f hf =>
      hsettles _ (mem_parts_of_field hf)).bind fun n T1 hT1 h1 hn => ?_
    obtain ⟨rfl, hrests⟩ := hn
    have hparts : ∀ t ∈ (Shape.object m).parts, ∃ f ∈ m.fields, f.type = t := by
      simp [Shape.parts, hindex, hcalls]
    have hin : ∀ x ∈ (Shape.object (m.mapTypes fun t => (part t T1).1)).parts, T1.FirstOrder x := by
      intro x hx
      simp only [Members.mapTypes, Shape.parts, List.map_map, Option.map_none, Option.toList_none,
        List.append_nil, List.mem_map] at hx
      obtain ⟨f, hf, rfl⟩ := hx
      exact hfirst hT1 h1 (mem_parts_of_field hf) (hrests f hf)
    have hfirstOrder : (Construction.object (m.mapTypes fun t => (part t T1).1)).IsFirstOrder := by
      refine ⟨fun f hf => ?_, rfl, rfl⟩
      obtain ⟨g, hg, rfl⟩ := List.mem_map.mp hf
      exact hplain g hg
    refine (settles_firstOrder_run (c := .object _) hT1 hfirstOrder hin
      (gives_objectOf hT1 fun x hx => (hin x hx).has)).imp ?_
    rintro q T2 - h2 ⟨⟨-, halike⟩, hq⟩
    rw [Members.objectShape_mapTypes hnames] at halike
    obtain ⟨n, hn, hfield⟩ := Shape.eq_object_of_alike halike
    refine ⟨hq, T1, hT1, h1, h2.le, fun t ht => ?_, n, hn, fun name => ?_⟩
    · obtain ⟨f, hf, rfl⟩ := hparts t ht
      exact hrests f hf
    · rw [hfield name, Members.field?_mapTypes]

/-- **A substitution of first-order types makes a first-order type of a template**, the template
with every part replaced. -/
theorem settles_substituteAt_image (hsubs : ∀ b ∈ subs, T.FirstOrder b.2)
    (hbinds : ∀ v ∈ vars, (subs.lookup v).isSome) (depth : Nat) (hT : T.WellFormed)
    (horderly : T.Orderly)
    (hp : T.Template vars p) (hdepth : p.rank < depth) :
    Settles T (Ty.substituteAt subs depth p) fun T1 q =>
      T1.imageAt vars subs depth p q ∧ T1.FirstOrder q := by
  induction depth generalizing T p with
  | zero => exact absurd hdepth (by omega)
  | succ depth ih =>
    have hpart : ∀ t ∈ (T.shape p).parts, ∀ T1, T1.WellFormed → T.Adds T1 →
        Settles T1 (Ty.substituteAt subs depth t) fun T2 u =>
          T2.imageAt vars subs depth t u ∧ T2.FirstOrder u := by
      intro t ht T1 hT1 h1
      refine ih (fun b hb => (hsubs b hb).of_agrees (.of_le h1.le)) hT1 (h1.orderly horderly)
        ((hp.part ht).of_le h1.le) ?_
      have := hT.rank_part ht
      omega
    cases hm : Ty.mentions T vars p with
    | false =>
      have hfirst := hp.firstOrder hT hm
      have hself : Ty.substituteAt subs (depth + 1) p T = (p, T) :=
        substituteAt_self hT horderly _ (hfirst.spared _)
      refine (settles_substituteAt _ hT (fun b hb => (hsubs b hb).has) hp.has).result.imp ?_
      rintro q T1 - h1 ⟨-, rfl⟩
      rw [hself]
      exact ⟨(imageAt_unmentioned ((mentions_of_le h1.le hT hp.has).trans hm)).mpr rfl,
        hfirst.of_agrees (.of_le h1.le)⟩
    | true =>
      by_cases hv : ∃ v, T.shape p = .parameter v
      · obtain ⟨v, hs⟩ := hv
        have hin : v ∈ vars := by simpa [mentions_parameter hs] using hm
        obtain ⟨q, hq⟩ := Option.isSome_iff_exists.mp (hbinds v hin)
        refine settles_get_bind (fun T2 h2 => by rw [Table.shape_of_le h2 hp.has]) ?_
        simp only [hs, hq, Option.getD_some]
        refine settles_pure hT ⟨(imageAt_parameter hm hs).mpr hq, ?_⟩
        obtain ⟨front, back, rfl, -⟩ := List.lookup_eq_some_iff.mp hq
        exact hsubs (v, q) (by simp)
      · rw [not_exists] at hv
        refine (settles_substituteStep_rebuilds hT horderly hp (hp.composite hm hv)
          fun t ht T1 hT1 h1 => (hpart t ht T1 hT1 h1).imp fun _ _ _ _ h => h.2).imp ?_
        rintro q T1 - h1 ⟨hq, T', hT', h', hle, hrests, hrebuilds⟩
        have hshape := shape_of_le h1.le hp.has
        refine ⟨?_, hq⟩
        rw [imageAt_composite ((mentions_of_le h1.le hT hp.has).trans hm) (hshape ▸ hv), hshape]
        refine ⟨_, fun t ht => ?_, hrebuilds⟩
        exact imageAt_of_le hT' hle ((hp.part ht).of_le h'.le)
          ((hpart t ht T' hT' h').of_rests (hrests t ht)).1

theorem settles_substitute_image (hsome : subs ≠ []) (hsubs : ∀ b ∈ subs, T.FirstOrder b.2)
    (hbinds : ∀ v ∈ vars, (subs.lookup v).isSome) (hT : T.WellFormed) (horderly : T.Orderly)
    (hp : T.Template vars p) :
    Settles T (p.substitute subs) fun T1 q =>
      T1.imageAt vars subs (p.rank + 1) p q ∧ T1.FirstOrder q := by
  unfold Ty.substitute
  rw [if_neg (by simpa using hsome)]
  exact settles_substituteAt_image hsubs hbinds _ hT horderly hp (Nat.lt_succ_self _)

end Substituting

end Interning

end ShapeCheck
