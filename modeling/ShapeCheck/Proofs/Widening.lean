import ShapeCheck.Proofs.DataComparison
import ShapeCheck.Proofs.Templates

/-!
# What widening makes

Widening replaces literals by their primitives and members of enums by their enums: in a union one
by one, and deep widening also in the fields of objects and the elements of arrays and tuples, but
not in unions further in. What is made in this way has none of them left in these places, and such a
type is found again when it is widened once more.

* `Table.Broad` and `Table.Wide` are the types that widening and deep widening leave as they are.
* `Shape.Renewed` says how a structure is rebuilt, `Interning.makes_deepWiden_container` that deep
  widening does so.
* `Interning.makes_widen` and `Interning.makes_deepWidenAt` say what is made.
-/

namespace ShapeCheck

variable {α β : Type} {x : Interning α} {f : α → Interning β} {W : Table → α → Prop}

open Table

namespace Shape

/-- The shapes that are widened: literals and members of enums. -/
def isNarrow : Shape → Bool
  | .literal _ | .enumMember _ _ _ => true
  | _ => false

/-- The types with which deep widening goes on: those of fields and of elements. -/
def widenedParts : Shape → List Ty
  | .object m => m.fields.map Field.type
  | .array element _ => [element]
  | .tuple u => u.elements
  | _ => []

/-- The second structure is the first one with these types replaced. -/
def Renewed (image : Ty → Ty) : Shape → Shape → Prop
  | .object m, .object n => (∀ name, n.field? name = (m.field? name).map (Field.mapType image)) ∧
    n.index = m.index ∧ n.calls = m.calls
  | .array e readonly, s => s = .array (image e) readonly
  | .tuple u, s => s = .tuple (u.mapTypes image)
  | _, _ => False

variable {s s' : Shape} {p : Ty} {image image' : Ty → Ty}

theorem mem_parts_of_widened (hp : p ∈ s.widenedParts) : p ∈ s.parts := by
  cases s with
  | object m => exact List.mem_append_left _ (List.mem_append_left _ hp)
  | array | tuple => exact hp
  | _ => simp [widenedParts] at hp

theorem not_isEnumeration_of_isContainer (h : s.isContainer = true) : ¬s.isEnumeration = true := by
  cases s <;> first | exact Bool.false_ne_true | exact absurd h (by simp [isContainer])

theorem widenedParts_eq_nil (h : s.isContainer = false) : s.widenedParts = [] := by
  cases s <;> first | rfl | exact absurd h (by simp [isContainer])

theorem Renewed.congr (h : s.Renewed image s') (heq : ∀ p ∈ s.widenedParts, image p = image' p) :
    s.Renewed image' s' := by
  cases s with
  | object m =>
    cases s' with
    | object n =>
      obtain ⟨hfields, hindex, hcalls⟩ := h
      refine ⟨fun name => (hfields name).trans ?_, hindex, hcalls⟩
      cases hf : m.field? name with
      | none => rfl
      | some f =>
        have hsame := heq f.type (List.mem_map_of_mem (Members.mem_of_field? hf).1)
        simp only [Option.map_some, Field.mapType, hsame]
    | _ => exact h.elim
  | array e readonly =>
    have hsame := heq e (List.mem_singleton_self e)
    exact (show s' = _ from h).trans (by rw [hsame])
  | tuple u =>
    have hslots : ∀ x ∈ u.slots, image x.type = image' x.type := fun x hx =>
      heq x.type (List.mem_append_left _ (List.mem_map_of_mem hx))
    have hrest : ∀ r ∈ u.rest, image r = image' r := fun r hr =>
      heq r (List.mem_append_right _ (Option.mem_toList.mpr hr))
    refine (show s' = _ from h).trans (congrArg _ ?_)
    unfold Tuple.mapTypes
    rw [List.map_congr_left fun x hx => by rw [hslots x hx], Option.map_congr hrest]
  | _ => exact h.elim

theorem Renewed.isContainer (h : s.Renewed image s') : s'.isContainer = true := by
  cases s with
  | object m =>
    cases s' with
    | object n => rfl
    | _ => exact h.elim
  | array | tuple =>
    rw [show s' = _ from h]
    rfl
  | _ => exact h.elim

/-- What the second structure goes on with are the replaced types. -/
theorem Renewed.widenedParts (h : s.Renewed image s') (hs' : s'.Tidy) (hp : p ∈ s'.widenedParts) :
    ∃ q ∈ s.widenedParts, image q = p := by
  cases s with
  | object m =>
    cases s' with
    | object n =>
      obtain ⟨g, hg, rfl⟩ := List.mem_map.mp hp
      have hfound := (Members.mem_fields_iff hs').mp hg
      rw [h.1] at hfound
      obtain ⟨f, hf, rfl⟩ := Option.map_eq_some_iff.mp hfound
      exact ⟨f.type, List.mem_map_of_mem (Members.mem_of_field? hf).1, rfl⟩
    | _ => exact h.elim
  | array e readonly =>
    rw [show s' = _ from h] at hp
    exact ⟨e, List.mem_singleton_self e, (List.mem_singleton.mp hp).symm⟩
  | tuple u =>
    rw [show s' = _ from h] at hp
    have hmapped : p ∈ (u.mapTypes image).elements := hp
    rw [Tuple.elements_mapTypes] at hmapped
    exact List.mem_map.mp hmapped
  | _ => exact h.elim

/-- The other parts of the second structure are parts of the first one. -/
theorem Renewed.parts (h : s.Renewed image s') (hp : p ∈ s'.parts) :
    p ∈ s'.widenedParts ∨ p ∈ s.parts := by
  cases s with
  | object m =>
    cases s' with
    | object n =>
      obtain ⟨-, hindex, hcalls⟩ := h
      simp only [Shape.parts, hindex, hcalls, List.mem_append] at hp
      rcases hp with (hp | hp) | hp
      · exact .inl hp
      · exact .inr (List.mem_append_left _ (List.mem_append_right _ hp))
      · exact .inr (List.mem_append_right _ hp)
    | _ => exact h.elim
  | array | tuple =>
    rw [show s' = _ from h] at hp ⊢
    exact .inl hp
  | _ => exact h.elim

theorem Renewed.isDatum (h : s.Renewed image s') : s'.isDatum = s.isDatum := by
  cases s with
  | object m =>
    cases s' with
    | object n => simp only [Shape.isDatum, h.2.2]
    | _ => exact h.elim
  | array | tuple =>
    rw [show s' = _ from h]
    rfl
  | _ => exact h.elim

end Shape

namespace Table

variable {T T1 : Table} {t p m : Ty} {ms : List Ty}

/-! ## What widening leaves as it is -/

/-- No member of the type is a literal or a member of an enum. -/
def Broad (T : Table) (t : Ty) : Prop := ∀ k ∈ T.members t, (T.shape k).isNarrow = false

/-- The type is broad, and so are the types of its fields or elements, and theirs in turn. -/
inductive Wide (T : Table) : Ty → Prop
  | intro {t : Ty} (hhas : T.Has t) (hbroad : T.Broad t)
    (hparts : ∀ p ∈ (T.shape t).widenedParts, Wide T p) : Wide T t

theorem Wide.has (h : T.Wide t) : T.Has t := by
  cases h with
  | intro hhas => exact hhas

theorem Wide.broad (h : T.Wide t) : T.Broad t := by
  cases h with
  | intro _ hbroad => exact hbroad

theorem Wide.part (h : T.Wide t) (hp : p ∈ (T.shape t).widenedParts) : T.Wide p := by
  cases h with
  | intro _ _ hparts => exact hparts p hp

theorem Broad.of_shapes (h : T.Broad t) (hT : T.WellFormed) (ht : T.Has t)
    (hshape : ∀ u, T.Has u → T1.shape u = T.shape u) : T1.Broad t := by
  intro k hk
  unfold members at hk
  rw [hshape t ht] at hk
  rw [hshape k (hT.has_member ht hk)]
  exact h k hk

theorem Wide.of_shapes (h : T.Wide t) (hT : T.WellFormed) (hhas : ∀ u, T.Has u → T1.Has u)
    (hshape : ∀ u, T.Has u → T1.shape u = T.shape u) : T1.Wide t := by
  induction h with
  | @intro t ht hbroad _ ih =>
    refine .intro (hhas t ht) (hbroad.of_shapes hT ht hshape) fun p hp => ih p ?_
    rwa [hshape t ht] at hp

theorem broad_of_container (h : (T.shape t).isContainer = true) : T.Broad t := by
  intro k hk
  unfold members at hk
  cases hs : T.shape t with
  | object | array | tuple =>
    rw [hs] at hk
    rw [List.mem_singleton.mp hk, hs]
    rfl
  | _ => simp [hs, Shape.isContainer] at h

/-- What a member of a union is widened to: itself, a primitive, or an enum. -/
theorem widenMember_cases (ho : T.Orderly) (t : Ty) :
    (T.shape t).isNarrow = false ∧ Ty.widenMember T t = t ∨
      (∃ l, T.shape t = .literal l ∧ Ty.widenMember T t = .prim l.base) ∨
      ∃ enum name v e, T.shape t = .enumMember enum name v ∧ Ty.widenMember T t = enum ∧
        T.shape enum = .enumeration e := by
  unfold Ty.widenMember
  cases hs : T.shape t with
  | literal l => exact .inr (.inl ⟨l, rfl, rfl⟩)
  | enumMember enum name v =>
    have hstandard := ho.standard t
    rw [hs] at hstandard
    obtain ⟨e, he⟩ := hstandard
    exact .inr (.inr ⟨enum, name, v, e, rfl, rfl, he⟩)
  | _ => exact .inl ⟨rfl, rfl⟩

theorem widenMember_of_not_narrow (h : (T.shape t).isNarrow = false) : Ty.widenMember T t = t := by
  unfold Ty.widenMember
  cases hs : T.shape t with
  | literal | enumMember => simp [hs, Shape.isNarrow] at h
  | _ => rfl

theorem not_narrow_widenMember (ho : T.Orderly) (t : Ty) :
    (T.shape (Ty.widenMember T t)).isNarrow = false := by
  rcases widenMember_cases ho t with ⟨h, heq⟩ | ⟨l, -, heq⟩ | ⟨enum, name, v, e, -, heq, he⟩
  · rwa [heq]
  · rw [heq]; rfl
  · rw [heq, he]; rfl

theorem not_isUnion_widenMember (ho : T.Orderly) (h : ¬(T.shape t).IsUnion) :
    ¬(T.shape (Ty.widenMember T t)).IsUnion := by
  rcases widenMember_cases ho t with ⟨-, heq⟩ | ⟨l, -, heq⟩ | ⟨enum, name, v, e, -, heq, he⟩
  · rwa [heq]
  · rw [heq]; rintro ⟨ms, ⟨⟩⟩
  · rw [heq, he]; rintro ⟨ms, ⟨⟩⟩

/-- Nothing is widened to a structure but that itself. -/
theorem widenMember_of_container (ho : T.Orderly)
    (h : (T.shape (Ty.widenMember T t)).isContainer = true) :
    Ty.widenMember T t = t := by
  rcases widenMember_cases ho t with ⟨-, heq⟩ | ⟨l, -, heq⟩ | ⟨enum, name, v, e, -, heq, he⟩
  · exact heq
  · rw [heq] at h
    exact absurd h Bool.false_ne_true
  · rw [heq, he] at h
    exact absurd h Bool.false_ne_true

theorem proper_widenMember (ho : T.Orderly) (h : t.isTop = false ∧ t ≠ .never) :
    (Ty.widenMember T t).isTop = false ∧ Ty.widenMember T t ≠ .never := by
  rcases widenMember_cases ho t with ⟨-, heq⟩ | ⟨l, -, heq⟩ | ⟨enum, name, v, e, -, heq, he⟩
  · rwa [heq]
  · rw [heq]
    cases l <;> exact ⟨rfl, by simp [Literal.base, Ty.never]⟩
  · rw [heq]
    cases enum with
    | prim | truth => simp [shape] at he
    | made n => exact ⟨rfl, by simp [Ty.never]⟩

theorem has_widenMember (hT : T.WellFormed) (ht : T.Has t) : T.Has (Ty.widenMember T t) := by
  unfold Ty.widenMember
  cases hs : T.shape t with
  | literal l => exact T.has_prim _
  | enumMember enum name v => exact hT.has_part ht (by rw [hs]; simp [Shape.parts])
  | _ => exact ht

theorem widenMember_of_le (hle : T ≤ T1) (ht : T.Has t) :
    Ty.widenMember T1 t = Ty.widenMember T t := by
  unfold Ty.widenMember
  rw [shape_of_le hle ht]

theorem DataOf.widenMember {E : Set Ty} (h : T.DataOf E t) : T.DataOf E (Ty.widenMember T t) := by
  unfold Ty.widenMember
  cases hs : T.shape t with
  | literal l => exact dataOf_prim E T _
  | enumMember enum name v => exact h.part (by rw [hs]; simp [Shape.parts])
  | _ => exact h

/-- **Widening leaves a broad type as it is.** -/
theorem Broad.widen (h : T.Broad t) (hT : T.WellFormed) : t.widen T = (t, T) := by
  have hread : ∀ f : Table → Interning Ty, (get >>= f) T = f T T := fun _ => rfl
  have hsame : ∀ k ∈ T.members t, Ty.widenMember T k = k :=
    fun k hk => widenMember_of_not_narrow (h k hk)
  unfold members at hsame
  rw [Ty.widen, hread]
  cases hs : T.shape t with
  | union ms =>
    rw [hs] at hsame
    dsimp only
    rw [List.map_congr_left (g := id) hsame, List.map_id]
    exact Interning.unionOf_members hT hs
  | _ =>
    rw [hs] at hsame
    dsimp only
    rw [hsame t (List.mem_singleton_self t)]
    rfl

/-- **Deep widening leaves a wide type as it is**, however deep it goes. -/
theorem Wide.deepWidenAt (h : T.Wide t) (hT : T.WellFormed) (ho : T.Orderly) (d : Nat) :
    Ty.deepWidenAt d t T = (t, T) := by
  induction d generalizing t with
  | zero => rfl
  | succ d ih =>
    have hread : ∀ f : Table → Interning Ty, (get >>= f) T = f T T := fun _ => rfl
    have hparts : ∀ p ∈ (T.shape t).widenedParts, Ty.deepWidenAt d p T = (p, T) := fun p hp =>
      ih (h.part hp)
    rw [Ty.deepWidenAt, hread]
    cases hs : T.shape t with
    | object m =>
      rw [hs] at hparts
      have hfields : Ty.rebuildFields (Ty.deepWidenAt d) m.fields T = (m.fields, T) :=
        Interning.rebuildFields_self fun f hf => hparts f.type (List.mem_map_of_mem hf)
      simp only [Interning.bind_apply, hfields, if_true]
      rfl
    | array e readonly =>
      rw [hs] at hparts
      simp only [Interning.bind_apply, hparts e (List.mem_singleton_self e)]
      exact Interning.intern_shape hT hs (Nat.le_of_ble_eq_true rfl) rfl
    | tuple u =>
      rw [hs] at hparts
      have hstandard : Ty.trailingOptional false u.slots = u.slots := by
        have hu := ho.standard t
        rwa [hs] at hu
      simp only [Interning.bind_apply, Interning.rebuildTuple_self hparts, Ty.tupleOf, hstandard]
      exact Interning.intern_shape hT hs (Nat.le_of_ble_eq_true rfl) rfl
    | _ => exact h.broad.widen hT

end Table

namespace Interning

/-! ## Work that only makes calls -/

/-- Work that settles, and does nothing to the table but to make calls. -/
def Makes {α : Type} (T : Table) (work : Interning α) (V : Table → α → Prop) : Prop :=
  Settles T work fun T1 a => Relation.ReflTransGen Called T T1 ∧ V T1 a

section Making

variable {T : Table} {V : Table → α → Prop}

theorem makes_pure {a : α} (hT : T.WellFormed) (ha : V T a) : Makes T (pure a) V :=
  settles_pure hT ⟨.refl, ha⟩

theorem Makes.bind {W : Table → β → Prop} (hx : Makes T x V)
    (hf : ∀ a T1, T1.WellFormed → T.Adds T1 → V T1 a → Makes T1 (f a) W) : Makes T (x >>= f) W := by
  refine Settles.bind hx fun a T1 hT1 h1 ha => ?_
  exact (hf a T1 hT1 h1 ha.2).imp fun b T2 _ _ hb => ⟨ha.1.trans hb.1, hb.2⟩

theorem Makes.imp (h : Makes T x V)
    (himp : ∀ a T1, T1.WellFormed → T.Adds T1 → V T1 a → W T1 a) : Makes T x W :=
  Settles.imp h fun a T1 hT1 h1 ha => ⟨ha.1, himp a T1 hT1 h1 ha.2⟩

theorem Makes.settles (h : Makes T x V) : Settles T x V :=
  Settles.imp h fun _ _ _ _ ha => ha.2

theorem Makes.and (h : Makes T x V) (h' : Settles T x W) : Makes T x fun T1 a => V T1 a ∧ W T1 a :=
  (Settles.and h h').imp fun _ _ _ _ ha => ⟨ha.1.1, ha.1.2, ha.2⟩

/-- A constructor is one call. -/
theorem makes_construct {W : Table → Ty → Prop} (c : Construction) (hin : ∀ t ∈ c.inputs, T.Has t)
    (hfits : c.Fits T) (h : Settles T c.run W) : Makes T c.run W := by
  obtain ⟨t, T1, hat, ht⟩ := h
  have hcalled : T.Called (c.run T).2 := .construct c hin hfits
  rw [hat.result] at hcalled
  exact ⟨t, T1, hat, .single hcalled, ht⟩

theorem makes_mapM (hT : T.WellFormed) (xs : List α)
    (hf : ∀ x ∈ xs, ∀ T1, T1.WellFormed → T.Adds T1 → Makes T1 (f x) fun _ _ => True) :
    Makes T (xs.mapM f) fun _ _ => True := by
  induction xs generalizing T with
  | nil => exact makes_pure hT trivial
  | cons x xs ih =>
    rw [List.mapM_cons]
    refine (hf x (by simp) T hT (.refl T)).bind fun b T1 hT1 h1 _ => ?_
    refine (ih hT1 fun y hy T2 hT2 h2 =>
      hf y (List.mem_cons_of_mem x hy) T2 hT2 (h1.trans h2)).bind fun bs T2 hT2 _ _ => ?_
    exact makes_pure hT2 trivial

variable {part : Ty → Interning Ty}

theorem makes_rebuildFields (hT : T.WellFormed) (fields : List Field)
    (hpart : ∀ f ∈ fields, ∀ T1, T1.WellFormed → T.Adds T1 →
    Makes T1 (part f.type) fun _ _ => True) :
    Makes T (Ty.rebuildFields part fields) fun _ _ => True :=
  makes_mapM hT fields fun f hf T1 hT1 h1 =>
    (hpart f hf T1 hT1 h1).bind fun _ _ hT2 _ _ => makes_pure hT2 trivial

theorem makes_rebuildTuple (hT : T.WellFormed) (u : Tuple)
    (hpart : ∀ t ∈ u.elements, ∀ T1, T1.WellFormed → T.Adds T1 →
    Makes T1 (part t) fun _ _ => True) :
    Makes T (Ty.rebuildTuple part u) fun _ _ => True := by
  obtain ⟨hslots, hrest⟩ := Tuple.forall_elements.mp hpart
  refine (makes_mapM hT u.slots fun s hs T1 hT1 h1 => ?_).bind fun slots T1 hT1 h1 _ => ?_
  · exact (hslots s hs T1 hT1 h1).bind fun _ _ hT2 _ _ => makes_pure hT2 trivial
  cases hr : u.rest with
  | none => exact makes_pure hT1 trivial
  | some r =>
    refine Makes.bind (V := fun _ _ => True) ((hrest r hr T1 hT1 h1).bind fun x T2 hT2 _ _ => ?_)
      fun o T2 hT2 _ _ => makes_pure hT2 trivial
    exact makes_pure hT2 trivial

end Making

/-! ## What is made -/

section Widening

variable {T : Table} {t : Ty} {ms : List Ty} {d : Nat}

/-- A union keeps several members, so it is not widened to a structure. -/
theorem not_container_of_union (hT : T.WellFormed) (ho : T.Orderly)
    (hs : T.shape t = .union ms) {w : Ty}
    (hw : ∀ k, k ∈ Ty.unionMembers T (ms.map (Ty.widenMember T)) ↔ k = w) :
    (T.shape w).isContainer = false := by
  have hcanonical := hT.canonical_union hs
  have hsingle : ∀ m ∈ ms, T.members (Ty.widenMember T m) = [Ty.widenMember T m] := fun m hm =>
    Assign.members_of_not_isUnion (not_isUnion_widenMember ho (hT.not_isUnion hs hm))
  have hflat : ∀ k, k ∈ T.flattened (ms.map (Ty.widenMember T)) ↔ ∃ m ∈ ms, k =
    Ty.widenMember T m := by
    intro k
    simp only [flattened, Set.mem_ofPred_eq, mem_allMembers, List.mem_map, exists_exists_and_eq_and]
    refine exists_congr fun m => and_congr_right fun hm => ?_
    rw [hsingle m hm, List.mem_singleton]
  have hproper : ∀ m ∈ ms, (Ty.widenMember T m).isTop = false ∧ Ty.widenMember T m ≠ .never :=
    fun m hm => proper_widenMember ho (Assign.proper_of_canonical hcanonical hm)
  -- what a member is widened to stays, since it is no literal
  have heach : ∀ m ∈ ms, Ty.widenMember T m = w := by
    intro m hm
    have hnarrow := not_narrow_widenMember ho m
    have hliteral : ∀ l, T.shape (Ty.widenMember T m) ≠ .literal l := by
      intro l hl
      rw [hl] at hnarrow
      exact absurd hnarrow (by simp [Shape.isNarrow])
    rw [← hw, mem_unionMembers_iff, mem_joined (not_tops fun k hk => ?_)]
    · refine .inl (.inl ⟨(hflat _).mpr ⟨m, hm, rfl⟩, (hproper m hm).2, fun l hl => ?_, ?_⟩)
      · exact absurd (shape_of_literal? hl) (hliteral l)
      · rintro ⟨htruth | htruth, -⟩
        · exact hliteral (.boolean true) (by rw [htruth]; rfl)
        · exact hliteral (.boolean false) (by rw [htruth]; rfl)
    · obtain ⟨k', hk', rfl⟩ := (hflat k).mp hk
      exact (hproper k' hk').1
  by_contra hcontainer
  rw [Bool.not_eq_false] at hcontainer
  have hall : ∀ m ∈ ms, m = w := by
    intro m hm
    have heq := heach m hm
    rw [← heq] at hcontainer
    exact (widenMember_of_container ho hcontainer).symm.trans heq
  obtain ⟨a, b, rest, rfl⟩ : ∃ a b rest, ms = a :: b :: rest := by
    have hseveral := hcanonical.several
    rcases ms with _ | ⟨a, _ | ⟨b, rest⟩⟩
    · simp at hseveral
    · simp at hseveral
    · exact ⟨a, b, rest, rfl⟩
  have hne := (List.rel_of_pairwise_cons hcanonical.ordered List.mem_cons_self).ne
  exact hne ((hall a List.mem_cons_self).trans (hall b (by simp)).symm)

/-- The second type, of the second table, is what the first one is widened to: a broad type, data
with the same enums if the first one was, and a structure only if nothing was widened. -/
structure Widened (T : Table) (t : Ty) (T1 : Table) (w : Ty) : Prop where
  has : T1.Has w
  broad : T1.Broad w
  data : ∀ E, T.DataOf E t → T1.DataOf E w
  same : (T1.shape w).isContainer = true → w = t

/-- A type that is no union is widened by itself. -/
theorem widened_member (hT : T.WellFormed) (ho : T.Orderly) (ht : T.Has t)
    (h : ¬(T.shape t).IsUnion) :
    Widened T t T (Ty.widenMember T t) where
  has := has_widenMember hT ht
  broad k hk := by
    rw [Assign.members_of_not_isUnion (not_isUnion_widenMember ho h), List.mem_singleton] at hk
    exact hk ▸ not_narrow_widenMember ho t
  data _ := DataOf.widenMember
  same := widenMember_of_container ho

/-- A union is widened member by member. -/
theorem makes_widen_union (hT : T.WellFormed) (ho : T.Orderly) (ht : T.Has t)
    (hs : T.shape t = .union ms) :
    Makes T (Ty.unionOf (ms.map (Ty.widenMember T))) (Widened T t) := by
  have hpart {m : Ty} (hm : m ∈ ms) : m ∈ (T.shape t).parts := by rw [hs]; exact hm
  have hhas {m : Ty} (hm : m ∈ ms) : T.Has (Ty.widenMember T m) :=
    has_widenMember hT (hT.has_part ht (hpart hm))
  have hts : ∀ x ∈ ms.map (Ty.widenMember T), T.Has x := List.forall_mem_map.mpr fun m hm => hhas hm
  refine (makes_construct (.union _) hts trivial (settles_unionOf hT hts)).imp
    fun w T1 _ h1 hw => ?_
  obtain ⟨hwhas, hstands⟩ := hw
  -- each member of the result is that of some member, or a primitive that stands for several
  have hmember : ∀ k ∈ T1.members w, (∃ m ∈ ms, k = Ty.widenMember T m) ∨ ∃ p, k = .prim p := by
    intro k hk
    refine (mem_unionMembers ((hstands k).mp hk)).imp_left ?_
    rintro ⟨x, hx, hkx⟩
    obtain ⟨m, hm, rfl⟩ := List.mem_map.mp hx
    rw [Assign.members_of_not_isUnion (not_isUnion_widenMember ho (hT.not_isUnion hs hm)),
      List.mem_singleton] at hkx
    exact ⟨m, hm, hkx⟩
  refine ⟨hwhas, fun k hk => ?_, fun E hdata => dataOf_of_members hwhas fun k hk => ?_,
    fun hcontainer => ?_⟩
  · rcases hmember k hk with ⟨m, hm, rfl⟩ | ⟨p, rfl⟩
    · rw [shape_of_le h1.le (hhas hm)]
      exact not_narrow_widenMember ho m
    · rfl
  · rcases hmember k hk with ⟨m, hm, rfl⟩ | ⟨p, rfl⟩
    · exact (hdata.part (hpart hm)).widenMember.of_le h1.le
    · exact dataOf_prim E T1 p
  · have hself : T1.members w = [w] := Assign.members_of_not_isUnion
      (Assign.not_isUnion_of_isPlain (Shape.isPlain_of_isContainer hcontainer))
    rcases hmember w (by rw [hself]; exact List.mem_singleton_self w) with ⟨m, hm, rfl⟩ | ⟨p, rfl⟩
    · rw [shape_of_le h1.le (hhas hm), not_container_of_union hT ho hs fun k => by
        rw [← hstands k, hself, List.mem_singleton]] at hcontainer
      exact absurd hcontainer Bool.false_ne_true
    · exact absurd hcontainer Bool.false_ne_true

/-- **What widening makes is broad**, and data with the same enums if the type was. -/
theorem makes_widen (hT : T.WellFormed) (ho : T.Orderly) (ht : T.Has t) :
    Makes T t.widen (Widened T t) := by
  refine settles_get_bind (fun T2 h2 => ?_) ?_
  · rw [shape_of_le h2 ht]
    cases hs : T.shape t with
    | union ms =>
      dsimp only
      rw [List.map_congr_left fun m hm => widenMember_of_le h2
        (hT.has_part ht (by rw [hs]; exact hm))]
    | _ =>
      dsimp only
      rw [widenMember_of_le h2 ht]
  cases hs : T.shape t with
  | union ms => exact makes_widen_union hT ho ht hs
  | _ => exact makes_pure hT (widened_member hT ho ht (by rw [hs]; rintro ⟨ms, ⟨⟩⟩))

section Rebuilding

variable {part : Ty → Interning Ty} {T1 : Table} {s : Shape} {w : Ty}

/-- The type is the structure with its fields or elements worked on, and nothing remains to be
done. -/
structure Renews (part : Ty → Interning Ty) (s : Shape) (T : Table) (w : Ty) : Prop where
  has : T.Has w
  rests : ∀ p ∈ s.widenedParts, Rests T (part p)
  renewed : s.Renewed (fun p => (part p T).1) (T.shape w)

/-- It does not matter whether the parts are worked on before the structure is made or after. -/
theorem renews_of_rests (hrests : ∀ p ∈ s.widenedParts, Rests T (part p))
    (hle : T ≤ T1) (hw : T1.Has w)
    (h : s.Renewed (fun p => (part p T).1) (T1.shape w)) : Renews part s T1 w :=
  ⟨hw, fun p hp => (hrests p hp).of_le hle, h.congr fun p hp => ((hrests p hp).result hle).symm⟩

theorem makes_renewed_object {m : Members} (hT : T.WellFormed) (ht : T.Has t)
    (hs : T.shape t = .object m)
    (hpart : ∀ p ∈ (Shape.object m).widenedParts, ∀ T1, T1.WellFormed → T.Adds T1 →
      Makes T1 (part p) Table.Has) :
    Makes T (do
      let fields ← Ty.rebuildFields part m.fields
      if fields = m.fields then return t
      Ty.objectOf { m with fields }) (Renews part (.object m)) := by
  have hfield {f : Field} (hf : f ∈ m.fields) : f.type ∈ (Shape.object m).widenedParts :=
    List.mem_map_of_mem hf
  have htrue (f : Field) (hf : f ∈ m.fields) (T1 : Table) (hT1 : T1.WellFormed) (h1 : T.Adds T1) :
      Makes T1 (part f.type) fun _ _ => True :=
    (hpart f.type (hfield hf) T1 hT1 h1).imp fun _ _ _ _ _ => trivial
  have hnames : (m.fields.map Field.name).Nodup := by
    have htidy := hT.tidy t
    rwa [hs] at htidy
  refine ((makes_rebuildFields hT m.fields htrue).and
    (settles_rebuildFields_map hT fun f hf T1 hT1 h1 =>
    (htrue f hf T1 hT1 h1).settles)).bind fun fs T1 hT1 h1 hfs => ?_
  obtain ⟨-, rfl, hfields⟩ := hfs
  have hrests : ∀ p ∈ (Shape.object m).widenedParts, Rests T1 (part p) :=
    List.forall_mem_map.mpr hfields
  have hmapped : ∀ name, (Members.mk (m.fields.map (Field.mapType fun t => (part t T1).1)) m.index
      m.calls).field? name = (m.field? name).map (Field.mapType fun t => (part t T1).1) :=
    Members.field?_mapTypes
  split
  · next heq =>
    refine makes_pure hT1 ⟨has_of_le h1.le ht, hrests, ?_⟩
    rw [shape_of_le h1.le ht, hs]
    refine ⟨fun name => ?_, rfl, rfl⟩
    rw [← hmapped, heq]
  · have hparts : ∀ p ∈ (Shape.object { m with
        fields := m.fields.map (Field.mapType fun t => (part t T1).1) }).parts, T1.Has p := by
      obtain ⟨-, hindex, hcalls⟩ := Shape.forall_parts_object.mp
        fun p (hp : p ∈ (Shape.object m).parts) =>
        has_of_le h1.le (hT.has_part ht (hs ▸ hp))
      refine Shape.forall_parts_object.mpr ⟨fun g hg => ?_, hindex, hcalls⟩
      obtain ⟨f, hf, rfl⟩ := List.mem_map.mp hg
      exact (hpart f.type (hfield hf) T1 hT1 h1).settles.of_rests (hfields f hf)
    refine (makes_construct (.object _) hparts trivial (gives_objectOf hT1 hparts)).imp
      fun w T2 _ h2 hw => ?_
    obtain ⟨hwhas, halike⟩ := hw
    rw [objectShape, foldl_putField_self (by simpa [Field.mapType, Function.comp_def] using hnames)]
      at halike
    obtain ⟨n, hn, hsame⟩ := Shape.eq_object_of_alike halike
    refine renews_of_rests hrests h2.le hwhas ?_
    rw [hn] at halike ⊢
    refine ⟨fun name => (hsame name).trans (hmapped name), ?_, List.forall₂_eq_eq_eq ▸ halike.calls⟩
    refine option_rel_eq_iff.mp (option_rel_mono halike.index ?_)
    rintro ⟨key, value⟩ - ⟨_, _⟩ - ⟨rfl, rfl⟩
    rfl

theorem makes_renewed_array {e : Ty} (readonly : Bool) (h : Makes T (part e) Table.Has) :
    Makes T (do Ty.arrayOf (← part e) readonly) (Renews part (.array e readonly)) := by
  refine Makes.bind (Settles.rests h |>.imp fun e' T1 _ _ h => ⟨h.1.1, h⟩) fun e' T1 hT1 h1 he => ?_
  obtain ⟨⟨-, hhas⟩, rfl, hrests⟩ := he
  refine (makes_construct (.array _ readonly) (by simpa [Construction.inputs] using hhas) trivial
    (gives_arrayOf hT1 hhas readonly)).imp fun w T2 _ h2 hw => ?_
  refine renews_of_rests (fun p hp => ?_) h2.le hw.1 (Shape.eq_array_of_alike hw.2)
  exact List.mem_singleton.mp hp ▸ hrests

theorem makes_renewed_tuple {u : Tuple} (hT : T.WellFormed)
    (hstandard : Ty.trailingOptional false u.slots = u.slots)
    (hpart : ∀ p ∈ u.elements, ∀ T1, T1.WellFormed → T.Adds T1 → Makes T1 (part p) Table.Has) :
    Makes T (do Ty.tupleOf (← Ty.rebuildTuple part u)) (Renews part (.tuple u)) := by
  have htrue (p : Ty) (hp : p ∈ u.elements) (T1 : Table) (hT1 : T1.WellFormed) (h1 : T.Adds T1) :
      Makes T1 (part p) fun _ _ => True := (hpart p hp T1 hT1 h1).imp fun _ _ _ _ _ => trivial
  refine ((makes_rebuildTuple hT u htrue).and (settles_rebuildTuple_map hT fun p hp T1 hT1 h1 =>
    (htrue p hp T1 hT1 h1).settles)).bind fun v T1 hT1 h1 hv => ?_
  obtain ⟨-, rfl, hrests⟩ := hv
  have helements : ∀ p ∈ (u.mapTypes fun t => (part t T1).1).elements, T1.Has p := by
    intro p hp
    rw [Tuple.elements_mapTypes] at hp
    obtain ⟨q, hq, rfl⟩ := List.mem_map.mp hp
    exact (hpart q hq T1 hT1 h1).settles.of_rests (hrests q hq)
  refine (makes_construct (.tuple _) helements trivial (gives_tupleOf hT1 helements)).imp
    fun w T2 _ h2 hw => ?_
  obtain ⟨hwhas, halike⟩ := hw
  rw [Tuple.tupleShape_mapTypes hstandard] at halike
  exact renews_of_rests hrests h2.le hwhas (Shape.eq_tuple_of_alike halike)

end Rebuilding

/-- **One level of deep widening** rebuilds a structure, each part by itself. -/
theorem makes_deepWiden_container (hT : T.WellFormed)
    (hstandard : T.Standard (T.shape t)) (ht : T.Has t)
    (hs : (T.shape t).isContainer = true)
    (hpart : ∀ p ∈ (T.shape t).widenedParts, ∀ T1, T1.WellFormed → T.Adds T1 →
      Makes T1 (Ty.deepWidenAt d p) Table.Has) :
    Makes T (Ty.deepWidenAt (d + 1) t) (Renews (Ty.deepWidenAt d) (T.shape t)) := by
  refine settles_get_bind (fun T2 h2 => by rw [shape_of_le h2 ht]) ?_
  cases hshape : T.shape t with
  | object m => exact makes_renewed_object hT ht hshape (hshape ▸ hpart)
  | array e readonly =>
    exact makes_renewed_array readonly (hpart e
      (by rw [hshape]; exact List.mem_singleton_self e) T hT (.refl T))
  | tuple u =>
    rw [hshape] at hpart hstandard
    exact makes_renewed_tuple hT hstandard hpart
  | _ => simp [hshape, Shape.isContainer] at hs

theorem deepWidenAt_of_not_container (h : (T.shape t).isContainer = false) (d : Nat) :
    Ty.deepWidenAt (d + 1) t T = t.widen T := by
  have hread : ∀ f : Table → Interning Ty, (get >>= f) T = f T T := fun _ => rfl
  rw [Ty.deepWidenAt, hread]
  cases hs : T.shape t with
  | object | array | tuple => simp [hs, Shape.isContainer] at h
  | _ => rfl

/-- **What deep widening makes is wide**, and data with the same enums if the type was. -/
theorem makes_deepWidenAt (hT : T.WellFormed) (ho : T.Orderly) (ht : T.Has t) (hd : t.rank < d) :
    Makes T (Ty.deepWidenAt d t) fun T1 w => T1.Wide w ∧ ∀ E, T.DataOf E t → T1.DataOf E w := by
  induction d generalizing T t with
  | zero => exact absurd hd (Nat.not_lt_zero _)
  | succ d ih =>
    cases hs : (T.shape t).isContainer with
    | true =>
      have hpart : ∀ p ∈ (T.shape t).widenedParts, ∀ T1, T1.WellFormed → T.Adds T1 →
          Makes T1 (Ty.deepWidenAt d p) fun T2 q => T2.Wide q ∧ ∀ E,
          T1.DataOf E p → T2.DataOf E q := by
        intro p hp T1 hT1 h1
        have hparts := Shape.mem_parts_of_widened hp
        have hrank := hT.rank_part hparts
        exact ih hT1 (h1.orderly ho) (has_of_le h1.le (hT.has_part ht hparts)) (by omega)
      refine (makes_deepWiden_container hT (ho.standard t) ht hs fun p hp T1 hT1 h1 =>
        (hpart p hp T1 hT1 h1).imp fun _ _ _ _ h => h.1.has).imp fun w T1 hT1 h1 hw => ?_
      obtain ⟨hhas, hrests, hrenewed⟩ := hw
      have himage {q : Ty} (hq : q ∈ (T1.shape w).widenedParts) :
          T1.Wide q ∧ ∀ E, T.DataOf E t → T1.DataOf E q := by
        obtain ⟨p, hp, rfl⟩ := hrenewed.widenedParts (hT1.tidy w) hq
        obtain ⟨hwide, hdata⟩ := (hpart p hp T1 hT1 h1).settles.of_rests (hrests p hp)
        exact ⟨hwide, fun E h => hdata E ((h.part (Shape.mem_parts_of_widened hp)).of_le h1.le)⟩
      refine ⟨.intro hhas (broad_of_container hrenewed.isContainer) fun q hq => (himage hq).1,
        fun E hdata => .intro hhas (hrenewed.isDatum.trans hdata.isDatum)
          (fun henum => absurd henum (Shape.not_isEnumeration_of_isContainer hrenewed.isContainer))
          fun q hq => ?_⟩
      rcases hrenewed.parts hq with hq | hq
      · exact (himage hq).2 E hdata
      · exact (hdata.part hq).of_le h1.le
    | false =>
      obtain ⟨w, T1, hat, hcalls, hhas, hbroad, hdata, hcontainer⟩ := makes_widen hT ho ht
      have hsame : ∀ T2, T ≤ T2 → Ty.deepWidenAt (d + 1) t T2 = t.widen T2 := fun T2 h2 =>
        deepWidenAt_of_not_container ((congrArg _ (shape_of_le h2 ht)).trans hs) d
      refine ⟨w, T1, ⟨(hsame T (le_refl T)).trans hat.result, hat.wellFormed,
        hat.adds, hat.instances,
        fun T2 h2 => (hsame T2 (hat.adds.le.trans h2)).trans (hat.again T2 h2)⟩, hcalls,
        .intro hhas hbroad fun q hq => ?_, hdata⟩
      have hnone : (T1.shape w).isContainer = false := by
        by_contra h
        rw [Bool.not_eq_false] at h
        rw [hcontainer h, shape_of_le hat.adds.le ht, hs] at h
        exact Bool.false_ne_true h
      rw [Shape.widenedParts_eq_nil hnone] at hq
      exact absurd hq List.not_mem_nil

end Widening

end Interning

end ShapeCheck
