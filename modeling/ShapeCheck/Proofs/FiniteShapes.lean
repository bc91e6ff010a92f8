import ShapeCheck.Proofs.HashConsing
import ShapeCheck.Proofs.Substitutions
import Mathlib.Data.Finite.Prod
import Mathlib.Data.Set.Card
import Mathlib.Data.Set.Finite.List

/-!
# Finitely many shapes

Over finitely many types there are only finitely many shapes, if names, literals and type parameters
are taken from finite sets and lists have a bounded length. How many there are depends on the number
of the types alone, not on the table that they stand in: the types may be renamed. As a table has
one type for each shape, this bounds the number of types whose parts are known.

* `Vocabulary` says what a shape may hold besides types, and `Shape.Framed` that it holds nothing
  else.
* `Shape.finite_keysOver` says that the shapes over finitely many types have finitely many keys.
* `Table.ncard_le_keysOver` counts the types of a table with parts in a given set.
-/

namespace ShapeCheck

variable {α : Type} {n : Nat} {s : Shape} {S : Set α}

/-- What the shapes of some types may hold besides types. -/
structure Vocabulary where
  names : Finset String
  vars : Finset TypeVar
  /-- How many places, parameters or arguments there are at most. -/
  width : Nat
  old : Nat

namespace Shape

/-- The shape says nothing outside of the vocabulary, and has at most so many call signatures. Its
parts are not looked at. Intersections are no frames, nor are the shapes that are never rebuilt. -/
def Framed (V : Vocabulary) (calls : Nat) : Shape → Prop
  | literal l => ∃ n ≤ V.width, l.base = .number ∧ l.text = (Literal.number (Binary64.ofNat n)).text
  | union _ | array _ _ => True
  | object m => (∀ f ∈ m.fields, f.name ∈ V.names) ∧ m.calls.length ≤ calls
  | tuple u => u.slots.length ≤ V.width
  | function c => c.typeParams.length ≤ V.width ∧ (∀ v ∈ c.typeParams, v ∈ V.vars) ∧
    c.params.length ≤ V.width
  | reference name arguments => name ∈ V.names ∧ arguments.length ≤ V.width
  | _ => False

/-- Whether the shape is an intersection. -/
def isIntersection : Shape → Bool
  | intersection _ => true
  | _ => false

end Shape

section Renaming

variable (e : Ty → Ty)

/-- The parameter with its type renamed. -/
def Parameter.rename (p : Parameter) : Parameter := { p with type := e p.type }

/-- The signature with its types renamed. -/
def Callable.rename (c : Callable) : Callable :=
  { c with
    params := c.params.map (Parameter.rename e), rest := c.rest.map (Parameter.rename e)
    receiver := c.receiver.map e, result := e c.result }

/-- The field with its type renamed. -/
def Field.rename (f : Field) : Field := { f with type := e f.type }

/-- The index signature with its type renamed. -/
def Index.rename (i : Index) : Index := { i with value := e i.value }

/-- The object with its types renamed. -/
def Members.rename (m : Members) : Members where
  fields := m.fields.map (Field.rename e)
  index := m.index.map (Index.rename e)
  calls := m.calls.map e

/-- The place of a tuple with its type renamed. -/
def Slot.rename (s : Slot) : Slot := { s with type := e s.type }

/-- The tuple with its types renamed. -/
def Tuple.rename (u : Tuple) : Tuple :=
  { u with slots := u.slots.map (Slot.rename e), rest := u.rest.map e }

/-- The shape with its parts renamed. -/
def Shape.rename : Shape → Shape
  | .union ms => .union (ms.map e)
  | .intersection ms => .intersection (ms.map e)
  | .object m => .object (m.rename e)
  | .array t readonly => .array (e t) readonly
  | .tuple u => .tuple (u.rename e)
  | .function c => .function (c.rename e)
  | .reference name arguments => .reference name (arguments.map e)
  | .enumMember enum name value => .enumMember (e enum) name (e value)
  | .classValue name instanceType constructor => .classValue name (e instanceType) (e constructor)
  | s => s

variable {e}

theorem Members.field?_rename (m : Members) (name : String) :
    (m.rename e).field? name = (m.field? name).map (Field.rename e) := by
  rw [field?, field?, rename, List.find?_map]
  rfl

theorem sameMembers_of_map {ts us : List Ty} (h : SameMembers Eq (ts.map e) (us.map e)) :
    SameMembers (fun a b => e a = e b) ts us := by
  constructor
  · intro t ht
    obtain ⟨_, hmem, heq⟩ := h.1 (e t) (List.mem_map_of_mem ht)
    obtain ⟨u, hu, rfl⟩ := List.mem_map.mp hmem
    exact ⟨u, hu, heq⟩
  · intro u hu
    obtain ⟨_, hmem, heq⟩ := h.2 (e u) (List.mem_map_of_mem hu)
    obtain ⟨t, ht, rfl⟩ := List.mem_map.mp hmem
    exact ⟨t, ht, heq⟩

theorem Callable.alike_of_rename {c d : Callable} (h : (c.rename e).Alike Eq (d.rename e)) :
    c.Alike (fun a b => e a = e b) d where
  typeParams := h.typeParams
  params := by
    have hparams := h.params
    simp only [rename, List.forall₂_map_left_iff, List.forall₂_map_right_iff] at hparams
    exact hparams
  rest := by
    have hrest := h.rest
    simp only [rename, Option.map_map] at hrest
    have hfun : Parameter.type ∘ Parameter.rename e = e ∘ Parameter.type := rfl
    rw [hfun, ← Option.map_map, ← Option.map_map] at hrest
    exact option_rel_map hrest
  receiver := option_rel_map h.receiver
  result := h.result

theorem Members.alike_of_rename {m n : Members} (h : (m.rename e).Alike Eq (n.rename e)) :
    m.Alike (fun a b => e a = e b) n where
  fields name := by
    have hfield := h.fields name
    rw [field?_rename, field?_rename] at hfield
    exact option_rel_map (f := Field.rename e) hfield
  index := option_rel_map h.index
  calls := by
    have hcalls := h.calls
    simp only [rename, List.forall₂_map_left_iff, List.forall₂_map_right_iff] at hcalls
    exact hcalls

theorem Tuple.alike_of_rename {t u : Tuple} (h : (t.rename e).Alike Eq (u.rename e)) :
    t.Alike (fun a b => e a = e b) u where
  slots := by
    have hslots := h.slots
    simp only [rename, List.forall₂_map_left_iff, List.forall₂_map_right_iff] at hslots
    exact hslots
  rest := option_rel_map h.rest
  readonly := h.readonly

namespace Shape

theorem kind_rename (s : Shape) : (s.rename e).kind = s.kind := by
  cases s <;> rfl

/-- Shapes that are alike after a renaming are alike up to the renaming. -/
theorem alike_of_rename {t : Shape} (h : (s.rename e).Alike Eq (t.rename e)) :
    s.Alike (fun a b => e a = e b) t := by
  have hkind : s.kind = t.kind := by
    rw [← kind_rename (e := e) s, kind_eq_of_alike h, kind_rename]
  cases s <;> cases t <;> try exact absurd hkind (Nat.ne_of_beq_eq_false rfl)
  case union.union => exact sameMembers_of_map h
  case intersection.intersection => exact sameMembers_of_map h
  case object.object => exact Members.alike_of_rename h
  case tuple.tuple => exact Tuple.alike_of_rename h
  case function.function => exact Callable.alike_of_rename h
  case reference.reference =>
    obtain ⟨hname, hargs⟩ := h
    simp only [List.forall₂_map_left_iff, List.forall₂_map_right_iff] at hargs
    exact ⟨hname, hargs⟩
  all_goals exact h

theorem parts_rename (s : Shape) : (s.rename e).parts = s.parts.map e := by
  cases s with
  | object m =>
    simp [rename, Members.rename, parts, Field.rename, Index.rename, Function.comp_def]
    cases m.index <;> rfl
  | function c =>
    simp [rename, Callable.rename, parts, Parameter.rename, Function.comp_def]
    cases c.rest <;> cases c.receiver <;> rfl
  | tuple u =>
    simp [rename, Tuple.rename, parts, Tuple.elements, Slot.rename, Function.comp_def]
    cases u.rest <;> rfl
  | _ => rfl

theorem tidy_rename (hs : s.Tidy) (he : Set.InjOn e { p | p ∈ s.parts }) : (s.rename e).Tidy := by
  cases s with
  | union ms => exact hs.map_on fun a ha b hb => he ha hb
  | intersection ms => exact hs.map_on fun a ha b hb => he ha hb
  | object m =>
    have hnames : (m.rename e).fields.map Field.name = m.fields.map Field.name := by
      simp [Members.rename, Field.rename, Function.comp_def]
    change ((m.rename e).fields.map Field.name).Nodup
    rw [hnames]
    exact hs
  | _ => trivial

theorem framed_rename {V : Vocabulary} {calls : Nat} (h : s.Framed V calls) :
    (s.rename e).Framed V calls := by
  cases s with
  | object m =>
    obtain ⟨hnames, hcalls⟩ := h
    refine ⟨fun f hf => ?_, by simpa [Members.rename] using hcalls⟩
    obtain ⟨g, hg, rfl⟩ := List.mem_map.mp hf
    exact hnames g hg
  | tuple u => simpa [rename, Framed, Tuple.rename] using h
  | function c => simpa [rename, Framed, Callable.rename] using h
  | reference name arguments => simpa [rename, Framed] using h
  | _ => exact h

end Shape

end Renaming

namespace Shape

/-- The keys of the shapes of some sort over some types. -/
def keysOver (Q : Shape → Prop) (X : Set Ty) : Set String :=
  { key | ∃ s : Shape, Q s ∧ s.Tidy ∧ (∀ p ∈ s.parts, p ∈ X) ∧ s.key = key }

section Finiteness

variable {X : Set Ty}

/-- There are finitely many short lists over a finite set. -/
theorem finite_lists (hS : S.Finite) (n : Nat) :
    { l : List α | l.length ≤ n ∧ ∀ a ∈ l, a ∈ S }.Finite := by
  have hfinite : Finite S := hS
  refine ((List.finite_length_le S n).image (List.map Subtype.val)).subset ?_
  rintro l ⟨hlength, hmem⟩
  exact ⟨l.attachWith (· ∈ S) hmem, by simpa using hlength, by simp⟩

theorem finite_options (hS : S.Finite) : { o : Option α | ∀ a ∈ o, a ∈ S }.Finite := by
  refine ((hS.image some).insert none).subset ?_
  rintro (_ | a) ho
  · exact Set.mem_insert none _
  · exact Set.mem_insert_of_mem _ ⟨a, ho a rfl, rfl⟩

/-- Lists without repetition are no longer than the set is large. -/
theorem finite_nodup (hS : S.Finite) : { l : List α | l.Nodup ∧ ∀ a ∈ l, a ∈ S }.Finite := by
  classical
  refine (finite_lists hS hS.toFinset.card).subset ?_
  rintro l ⟨hnodup, hmem⟩
  refine ⟨?_, hmem⟩
  rw [← List.toFinset_card_of_nodup hnodup]
  exact Finset.card_le_card fun a ha => hS.mem_toFinset.mpr (hmem a (List.mem_toFinset.mp ha))

theorem finite_fields (names : Finset String) (hX : X.Finite) :
    { f : Field | f.name ∈ names ∧ f.type ∈ X }.Finite := by
  refine ((names.finite_toSet.prod (hX.prod (Set.finite_univ (α := Bool × Bool)))).image
    fun x => (⟨x.1, x.2.1, x.2.2.1, x.2.2.2⟩ : Field)).subset ?_
  rintro ⟨name, type, optional, readonly⟩ ⟨hname, htype⟩
  exact ⟨(name, type, optional, readonly), ⟨hname, htype, trivial⟩, rfl⟩

theorem finite_indexes (hX : X.Finite) : { i : Index | i.value ∈ X }.Finite := by
  refine ((hX.image (Index.mk .string)).union (hX.image (Index.mk .number))).subset ?_
  rintro ⟨key, value⟩ hvalue
  cases key with
  | string => exact .inl ⟨value, hvalue, rfl⟩
  | number => exact .inr ⟨value, hvalue, rfl⟩

theorem finite_slots (hX : X.Finite) : { s : Slot | s.type ∈ X }.Finite := by
  refine ((hX.prod (Set.finite_univ (α := Bool))).image fun x => (⟨x.1, x.2⟩ : Slot)).subset ?_
  rintro ⟨type, optional⟩ htype
  exact ⟨(type, optional), ⟨htype, trivial⟩, rfl⟩

/-- The names of parameters do not count, so those without a name are enough. -/
theorem finite_parameters (hX : X.Finite) :
    { p : Parameter | p.name = "" ∧ p.type ∈ X }.Finite := by
  refine ((hX.prod (Set.finite_univ (α := Bool))).image
    fun x => (⟨"", x.1, x.2⟩ : Parameter)).subset ?_
  rintro ⟨name, type, optional⟩ ⟨rfl, htype⟩
  exact ⟨(type, optional), ⟨htype, trivial⟩, rfl⟩

theorem finite_objects (V : Vocabulary) (calls : Nat) (hX : X.Finite) :
    { m : Members | (object m).Framed V calls ∧ (object m).Tidy ∧
      ∀ p ∈ (object m).parts, p ∈ X }.Finite := by
  have hfields := finite_nodup (finite_fields V.names hX)
  refine ((hfields.prod ((finite_options (finite_indexes hX)).prod (finite_lists hX calls))).image
    fun x => (⟨x.1, x.2.1, x.2.2⟩ : Members)).subset ?_
  rintro ⟨fields, index, signatures⟩ ⟨⟨hnames, hcalls⟩, htidy, hparts⟩
  obtain ⟨hf, hi, hc⟩ := forall_parts_object.mp hparts
  exact ⟨(fields, index, signatures), ⟨⟨List.Nodup.of_map _ htidy,
    fun f hmem => ⟨hnames f hmem, hf f hmem⟩⟩,
    hi, hcalls, hc⟩, rfl⟩

theorem finite_tuples (V : Vocabulary) (hX : X.Finite) :
    { u : Tuple | u.slots.length ≤ V.width ∧ ∀ p ∈ u.elements, p ∈ X }.Finite := by
  refine (((finite_lists (finite_slots hX) V.width).prod
    ((finite_options hX).prod (Set.finite_univ (α := Bool)))).image
    fun x => (⟨x.1, x.2.1, x.2.2⟩ : Tuple)).subset ?_
  rintro ⟨slots, rest, readonly⟩ ⟨hwidth, hparts⟩
  obtain ⟨hs, hr⟩ := Tuple.forall_elements.mp hparts
  exact ⟨(slots, rest, readonly), ⟨⟨hwidth, hs⟩, hr, trivial⟩, rfl⟩

theorem finite_functions (V : Vocabulary) (calls : Nat) (hX : X.Finite) :
    { c : Callable | (function c).Framed V calls ∧ (∀ p ∈ (function c).parts, p ∈ X) ∧
      (∀ p ∈ c.params, p.name = "") ∧ ∀ p ∈ c.rest, p.name = "" }.Finite := by
  have hvars := finite_lists V.vars.finite_toSet V.width
  have hparams := finite_parameters hX
  refine ((hvars.prod ((finite_lists hparams V.width).prod ((finite_options hparams).prod
    ((finite_options hX).prod hX)))).image
    fun x => (⟨x.1, x.2.1, x.2.2.1, x.2.2.2.1, x.2.2.2.2⟩ : Callable)).subset ?_
  rintro ⟨vars, params, rest, receiver, result⟩ ⟨⟨hwidth, hv, hlength⟩, hparts, hnames, hname⟩
  obtain ⟨hp, hr, hrec, hres⟩ := forall_parts_function.mp hparts
  exact ⟨(vars, params, rest, receiver, result), ⟨⟨hwidth, hv⟩,
    ⟨hlength, fun p hmem => ⟨hnames p hmem, hp p hmem⟩⟩,
    fun p hmem => ⟨hname p hmem, hr p hmem⟩, hrec, hres⟩, rfl⟩

end Finiteness

end Shape

/-- The signature with its parameters unnamed. -/
def Callable.unnamed (c : Callable) : Callable :=
  { c with
    params := c.params.map ({ · with name := "" }), rest := c.rest.map ({ · with name := "" }) }

namespace Shape

theorem key_unnamed (c : Callable) : (function c.unnamed).key = (function c).key := by
  have htidy : ∀ d : Callable, (function d).Tidy := fun _ => trivial
  refine (key_eq_iff (htidy c.unnamed) (htidy c)).mpr ⟨rfl, ?_, ?_, option_rel_eq_iff.mpr rfl, rfl⟩
  · simp [Callable.unnamed, List.forall₂_map_left_iff, List.forall₂_same]
  · rw [option_rel_eq_iff, Callable.unnamed, Option.map_map]
    rfl

theorem parts_unnamed (c : Callable) : (function c.unnamed).parts = (function c).parts := by
  simp [parts, Callable.unnamed, Function.comp_def]

variable {X : Set Ty}

/-- Frames over finitely many types have finitely many keys. -/
theorem finite_keysOver_framed (V : Vocabulary) (calls : Nat) (hX : X.Finite) :
    (keysOver (Framed V calls) X).Finite := by
  let numbers : Set String := (fun n => (literal (.number (Binary64.ofNat n))).key) ''
    Set.Iic V.width
  let unions : Set String := (key ∘ union) '' { ms | ms.Nodup ∧ ∀ m ∈ ms, m ∈ X }
  let objects : Set String := (key ∘ object) '' { m | (object m).Framed V calls ∧ (object m).Tidy ∧
    ∀ p ∈ (object m).parts, p ∈ X }
  let arrays : Set String := (fun x : Ty × Bool => (array x.1 x.2).key) '' X ×ˢ Set.univ
  let tuples : Set String := (key ∘ tuple) ''
    { u | u.slots.length ≤ V.width ∧ ∀ p ∈ u.elements, p ∈ X }
  let functions : Set String := (key ∘ function) '' { c | (function c).Framed V calls ∧
    (∀ p ∈ (function c).parts, p ∈ X) ∧ (∀ p ∈ c.params, p.name = "") ∧ ∀ p ∈ c.rest, p.name = "" }
  let references : Set String := (fun x : String × List Ty => (reference x.1 x.2).key) ''
    (V.names : Set String) ×ˢ { l | l.length ≤ V.width ∧ ∀ a ∈ l, a ∈ X }
  have hall : (numbers ∪ (unions ∪ (objects ∪
    (arrays ∪ (tuples ∪ (functions ∪ references)))))).Finite :=
    ((Set.finite_Iic V.width).image _).union (((finite_nodup hX).image _).union
      (((finite_objects V calls hX).image _).union (((hX.prod Set.finite_univ).image _).union
        (((finite_tuples V hX).image _).union (((finite_functions V calls hX).image _).union
          ((V.names.finite_toSet.prod (finite_lists hX V.width)).image _))))))
  refine hall.subset ?_
  rintro _ ⟨s, hframed, htidy, hparts, rfl⟩
  cases s with
  | literal l =>
    obtain ⟨n, hn, hbase, htext⟩ := hframed
    have hnumber : (literal (.number (Binary64.ofNat n))).Tidy := trivial
    exact .inl ⟨n, hn, ((key_eq_iff htidy hnumber).mpr ⟨hbase, htext⟩).symm⟩
  | union ms => exact .inr (.inl ⟨ms, ⟨htidy, hparts⟩, rfl⟩)
  | object m => exact .inr (.inr (.inl ⟨m, ⟨hframed, htidy, hparts⟩, rfl⟩))
  | array t readonly =>
    exact .inr (.inr (.inr (.inl ⟨(t, readonly), ⟨hparts t (by simp [parts]), trivial⟩, rfl⟩)))
  | tuple u => exact .inr (.inr (.inr (.inr (.inl ⟨u, ⟨hframed, hparts⟩, rfl⟩))))
  | function c =>
    refine .inr (.inr (.inr (.inr (.inr (.inl ⟨c.unnamed, ⟨?_, ?_, ?_, ?_⟩, key_unnamed c⟩)))))
    · simpa [Framed, Callable.unnamed] using hframed
    · rwa [parts_unnamed]
    · simp [Callable.unnamed]
    · simp [Callable.unnamed]
  | reference name arguments =>
    exact .inr (.inr (.inr (.inr (.inr (.inr ⟨(name, arguments),
      ⟨hframed.1, hframed.2, hparts⟩, rfl⟩)))))
  | _ => exact hframed.elim

theorem finite_keysOver_intersection (hX : X.Finite) :
    (keysOver (isIntersection · = true) X).Finite := by
  refine ((finite_nodup hX).image (key ∘ intersection)).subset ?_
  rintro _ ⟨s, hs, htidy, hparts, rfl⟩
  cases s with
  | intersection ms => exact ⟨ms, ⟨htidy, hparts⟩, rfl⟩
  | _ => exact absurd hs (by simp [isIntersection])

end Shape

/-- The first so many composite types. -/
def Ty.firstMade (n : Nat) : Set Ty := Ty.made '' Set.Iio n

theorem Ty.finite_firstMade (n : Nat) : (firstMade n).Finite := (Set.finite_Iio n).image _

/-- The members of a finite set can be renamed to the first composite types. -/
theorem Ty.exists_renaming {S : Set Ty} (hS : S.Finite) (hn : S.ncard ≤ n) :
    ∃ e : Ty → Ty, Set.InjOn e S ∧ ∀ t ∈ S, e t ∈ firstMade n := by
  classical
  refine ⟨fun t => .made (hS.toFinset.toList.idxOf t), fun a ha b _ heq => ?_, fun t ht => ?_⟩
  · have hmem : a ∈ hS.toFinset.toList := by simpa using ha
    exact (List.idxOf_inj hmem).mp (Ty.made.inj heq)
  · have hmem : t ∈ hS.toFinset.toList := by simpa using ht
    have hlt := List.idxOf_lt_length_iff.mpr hmem
    rw [Finset.length_toList, ← Set.ncard_eq_toFinset_card S hS] at hlt
    exact ⟨_, Nat.lt_of_lt_of_le hlt hn, rfl⟩

theorem Ty.serial_le (t : Ty) : t.serial ≤ 64 + t.rank := by
  cases t with
  | prim p => cases p <;> decide
  | truth b => cases b <;> decide
  | made n => simp only [serial, rank]; omega

/-- Only finitely many types stand below a given height. -/
theorem Ty.finite_rank_le (n : Nat) : { t : Ty | t.rank ≤ n }.Finite := by
  refine ((Set.finite_Iic (64 + n)).preimage serial_injective.injOn).subset fun t ht => ?_
  have hserial := serial_le t
  have hrank : t.rank ≤ n := ht
  change t.serial ≤ 64 + n
  omega

namespace Table

variable {T : Table}

/-- **Counting types.** A table has no more types of some sort with parts in a set than there are
keys of such shapes over as many types. -/
theorem ncard_le_keysOver (hT : T.WellFormed) {Q : Shape → Prop}
    (hrename : ∀ (e : Ty → Ty) s, Q s → Q (s.rename e)) (hplain : ∀ s, Q s → s.isEnumMember = false)
    {S : Set Ty} (hS : S.Finite) (hn : S.ncard ≤ n)
    (hfinite : (Shape.keysOver Q (Ty.firstMade n)).Finite) :
    { t | T.Has t ∧ Q (T.shape t) ∧ ∀ p ∈ (T.shape t).parts, p ∈ S }.ncard ≤
      (Shape.keysOver Q (Ty.firstMade n)).ncard := by
  obtain ⟨e, he, hto⟩ := Ty.exists_renaming hS hn
  have htidy : ∀ {t}, (∀ p ∈ (T.shape t).parts, p ∈ S) → ((T.shape t).rename e).Tidy :=
    fun hparts => Shape.tidy_rename (hT.tidy _) (he.mono hparts)
  refine Set.ncard_le_ncard_of_injOn (fun t => ((T.shape t).rename e).key) ?_ ?_ hfinite
  · rintro t ⟨-, hQ, hparts⟩
    refine ⟨_, hrename e _ hQ, htidy hparts, fun p hp => ?_, rfl⟩
    rw [Shape.parts_rename] at hp
    obtain ⟨q, hq, rfl⟩ := List.mem_map.mp hp
    exact hto q (hparts q hq)
  · rintro t ⟨ht, hQ, hparts⟩ u ⟨hu, -, hparts'⟩ hkey
    have halike := Shape.alike_of_rename ((Shape.key_eq_iff (htidy hparts) (htidy hparts')).mp hkey)
    refine hT.eq_of_alike ht hu (hplain _ hQ) (halike.mono fun a ha b hb hab => ?_)
    exact he (hparts a ha) (hparts' b hb) hab

end Table

end ShapeCheck
