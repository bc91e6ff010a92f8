import ShapeCheck.Proofs.Enums
import ShapeCheck.Proofs.Meets
import ShapeCheck.Ty.Property

/-!
# One type per structure

Types are compared by their identities everywhere, so a table must give two types the same identity
exactly when they have the same structure, whatever was asked of it before.

* `Construction` is a call of one of the constructors, `Table.Built` a sequence of calls on an empty
  table.
* `Table.eq_iff_sameStructure` is the statement for a well-formed table.
-/

namespace ShapeCheck

open Interning

variable {m n : Members} {t : Ty} {u : Tuple} {s : Shape} {f : Field} {v : TypeVar} {T : Table}
  {made : List Ty}

theorem SameMembers.mono {R R' : Ty → Ty → Prop} {ts us : List Ty} (h : SameMembers R ts us)
    (hR : ∀ a ∈ ts, ∀ b ∈ us, R a b → R' a b) : SameMembers R' ts us := by
  constructor
  · intro t ht
    obtain ⟨u, hu, htu⟩ := h.1 t ht
    exact ⟨u, hu, hR t ht u hu htu⟩
  · intro u hu
    obtain ⟨t, ht, htu⟩ := h.2 u hu
    exact ⟨t, ht, hR t ht u hu htu⟩

section Parts

variable {R R' : Ty → Ty → Prop}

theorem Callable.Alike.mono {c d : Callable} (h : c.Alike R d)
    (hR : ∀ a ∈ (Shape.function c).parts, ∀ b ∈ (Shape.function d).parts, R a b → R' a b) :
    c.Alike R' d where
  typeParams := h.typeParams
  params := forall₂_mono h.params fun p hp q hq hpq =>
    ⟨hR _ (by simp only [Shape.parts, List.mem_append, List.mem_map]
              exact .inl (.inl (.inl ⟨p, hp, rfl⟩))) _
        (by simp only [Shape.parts, List.mem_append, List.mem_map]
            exact .inl (.inl (.inl ⟨q, hq, rfl⟩))) hpq.1, hpq.2⟩
  rest := option_rel_mono h.rest fun x hx y hy =>
    hR x (by simp only [Shape.parts, List.mem_append, Option.mem_toList]
             exact .inl (.inl (.inr hx))) y
      (by simp only [Shape.parts, List.mem_append, Option.mem_toList]
          exact .inl (.inl (.inr hy)))
  receiver := option_rel_mono h.receiver fun x hx y hy =>
    hR x (by simp only [Shape.parts, List.mem_append, Option.mem_toList]
             exact .inl (.inr hx)) y
      (by simp only [Shape.parts, List.mem_append, Option.mem_toList]
          exact .inl (.inr hy))
  result := hR _ (by simp [Shape.parts]) _ (by simp [Shape.parts]) h.result

theorem Members.Alike.mono (h : m.Alike R n)
    (hR : ∀ a ∈ (Shape.object m).parts, ∀ b ∈ (Shape.object n).parts, R a b → R' a b) :
    m.Alike R' n where
  fields name := option_rel_mono (h.fields name) fun f hf g hg hfg =>
    ⟨hR _ (by simp only [Shape.parts, List.mem_append, List.mem_map]
              exact .inl (.inl ⟨f, List.mem_of_find?_eq_some hf, rfl⟩)) _
        (by simp only [Shape.parts, List.mem_append, List.mem_map]
            exact .inl (.inl ⟨g, List.mem_of_find?_eq_some hg, rfl⟩)) hfg.1, hfg.2⟩
  index := option_rel_mono h.index fun i hi j hj hij =>
    ⟨hij.1, hR _ (by simp only [Shape.parts, List.mem_append]
                     exact .inl (.inr (by simp [Option.mem_def.mp hi]))) _
      (by simp only [Shape.parts, List.mem_append]
          exact .inl (.inr (by simp [Option.mem_def.mp hj]))) hij.2⟩
  calls := forall₂_mono h.calls fun a ha b hb =>
    hR a (by simp only [Shape.parts, List.mem_append]; exact .inr ha) b
      (by simp only [Shape.parts, List.mem_append]; exact .inr hb)

theorem Tuple.Alike.mono {t : Tuple} (h : t.Alike R u)
    (hR : ∀ a ∈ t.elements, ∀ b ∈ u.elements, R a b → R' a b) : t.Alike R' u where
  slots := forall₂_mono h.slots fun a ha b hb hab =>
    ⟨hR _ (List.mem_append_left _ (List.mem_map.mpr ⟨a, ha, rfl⟩)) _
      (List.mem_append_left _ (List.mem_map.mpr ⟨b, hb, rfl⟩)) hab.1, hab.2⟩
  rest := option_rel_mono h.rest fun x hx y hy =>
    hR x (List.mem_append_right _ (Option.mem_toList.mpr hx)) y
      (List.mem_append_right _ (Option.mem_toList.mpr hy))
  readonly := h.readonly

/-- Shapes that are alike stay so under a relation that holds of no fewer of their parts. -/
theorem Shape.Alike.mono {t : Shape} (h : s.Alike R t)
    (hR : ∀ a ∈ s.parts, ∀ b ∈ t.parts, R a b → R' a b) : s.Alike R' t := by
  have hkind := kind_eq_of_alike h
  cases s <;> cases t <;> try exact absurd hkind (Nat.ne_of_beq_eq_false rfl)
  case primitive.primitive => exact h
  case literal.literal => exact h
  case union.union => exact SameMembers.mono h hR
  case intersection.intersection => exact SameMembers.mono h hR
  case object.object => exact Members.Alike.mono h hR
  case array.array => exact ⟨hR _ (by simp [parts]) _ (by simp [parts]) h.1, h.2⟩
  case tuple.tuple => exact Tuple.Alike.mono h hR
  case function.function => exact Callable.Alike.mono h hR
  case parameter.parameter => exact h
  case reference.reference => exact ⟨h.1, forall₂_mono h.2 hR⟩
  case enumeration.enumeration => exact h
  case enumMember.enumMember => exact ⟨hR _ (by simp [parts]) _ (by simp [parts]) h.1, h.2⟩
  case classValue.classValue =>
    exact ⟨h.1, hR _ (by simp [parts]) _ (by simp [parts]) h.2.1,
      hR _ (by simp [parts]) _ (by simp [parts]) h.2.2⟩

/-- A shape is like itself when its parts are. -/
theorem Shape.Alike.refl (hs : s.Tidy) (hR : ∀ p ∈ s.parts, R p p) : s.Alike R s := by
  have heq : s.Alike (fun a b => a = b) s := (key_eq_iff hs hs).mp rfl
  refine heq.mono ?_
  rintro a ha b - rfl
  exact hR a ha

theorem Members.mem_of_field? {name : String}
    (h : m.field? name = some f) : f ∈ m.fields ∧ f.name = name := by
  unfold field? at h
  exact ⟨List.mem_of_find?_eq_some h, by simpa using List.find?_some h⟩

/-- A field of an object is one of the other object as well. -/
theorem Members.Alike.exists_field (h : m.Alike R n)
    (hm : (m.fields.map Field.name).Nodup) (hf : f ∈ m.fields) :
    ∃ g ∈ n.fields, f.name = g.name ∧ R f.type g.type ∧ f.optional = g.optional := by
  obtain ⟨g, hg, htype, hoptional, -⟩ :=
    exists_of_option_rel (h.fields f.name) ((Members.mem_fields_iff hm).mp hf)
  obtain ⟨hmem, hname⟩ := Members.mem_of_field? hg
  exact ⟨g, hmem, hname.symm, htype, hoptional⟩

theorem Tuple.elements_eq_of_alike {v : Tuple} (h : u.Alike Eq v) : u.elements = v.elements := by
  have hslots : u.slots.map Slot.type = v.slots.map Slot.type :=
    List.forall₂_eq_eq_eq ▸ List.forall₂_map_left_iff.mpr
      (List.forall₂_map_right_iff.mpr (h.slots.imp fun _ _ hab => hab.1))
  have hrest : u.rest = v.rest := option_rel_eq_iff.mp h.rest
  rw [elements, elements, hslots, hrest]

/-- Every part of a shape has a counterpart in a shape that is alike, unless it is the value of an
enum member. -/
theorem Shape.Alike.exists_part {t : Shape} (h : s.Alike R t) (hs : s.Tidy)
    (hplain : s.isEnumMember = false) : ∀ a ∈ s.parts, ∃ b ∈ t.parts, R a b := by
  have hkind := kind_eq_of_alike h
  cases s <;> cases t <;> try exact absurd hkind (Nat.ne_of_beq_eq_false rfl)
  case union.union => exact h.1
  case intersection.intersection => exact h.1
  case object.object m n =>
    refine forall_parts_object.mpr ⟨fun f hf => ?_, fun i hi => ?_, fun t ht => ?_⟩
    · obtain ⟨g, hg, -, htype, -⟩ := Members.Alike.exists_field h hs hf
      exact ⟨g.type, forall_parts_object.mp (fun p hp => hp) |>.1 g hg, htype⟩
    · obtain ⟨j, hj, -, hvalue⟩ := exists_of_option_rel (Members.Alike.index h) hi
      exact ⟨j.value, forall_parts_object.mp (fun p hp => hp) |>.2.1 j hj, hvalue⟩
    · obtain ⟨u, hu, htu⟩ := exists_of_forall₂ (Members.Alike.calls h) ht
      exact ⟨u, forall_parts_object.mp (fun p hp => hp) |>.2.2 u hu, htu⟩
  case array.array =>
    intro a ha
    obtain rfl := List.mem_singleton.mp ha
    exact ⟨_, List.mem_singleton_self _, h.1⟩
  case tuple.tuple u v =>
    have hself := Tuple.forall_elements (u := v) (P := (· ∈ v.elements)) |>.mp fun p hp => hp
    refine Tuple.forall_elements.mpr ⟨fun x hx => ?_, fun r hr => ?_⟩
    · obtain ⟨y, hy, hxy, -⟩ := exists_of_forall₂ (Tuple.Alike.slots h) hx
      exact ⟨y.type, hself.1 y hy, hxy⟩
    · obtain ⟨r', hr', hrr⟩ := exists_of_option_rel (Tuple.Alike.rest h) hr
      exact ⟨r', hself.2 r' hr', hrr⟩
  case function.function c d =>
    have hself := forall_parts_function (c := d)
      (P := (· ∈ (function d).parts)) |>.mp fun p hp => hp
    refine forall_parts_function.mpr ⟨fun p hp => ?_, fun p hp => ?_, fun t ht => ?_, ?_⟩
    · obtain ⟨q, hq, hpq, -⟩ := exists_of_forall₂ (Callable.Alike.params h) hp
      exact ⟨q.type, hself.1 q hq, hpq⟩
    · obtain ⟨_, hq, hpq⟩ :=
        exists_of_option_rel (Callable.Alike.rest h) (Option.mem_map_of_mem Parameter.type hp)
      obtain ⟨q, hmem, rfl⟩ := Option.mem_map.mp hq
      exact ⟨q.type, hself.2.1 q hmem, hpq⟩
    · obtain ⟨u, hu, htu⟩ := exists_of_option_rel (Callable.Alike.receiver h) ht
      exact ⟨u, hself.2.2.1 u hu, htu⟩
    · exact ⟨_, hself.2.2.2, Callable.Alike.result h⟩
  case reference.reference => exact fun a ha => exists_of_forall₂ h.2 ha
  case enumMember.enumMember => exact absurd hplain (by simp [isEnumMember])
  case classValue.classValue =>
    intro a ha
    rcases List.mem_pair.mp ha with rfl | rfl
    · exact ⟨_, List.mem_cons_self, h.2.1⟩
    · exact ⟨_, by simp [parts], h.2.2⟩
  all_goals simp [parts]

end Parts

namespace Table

/-- Two types that say the same down to the given depth. The members of enums have no structure of
their own: each is equal to itself alone. -/
def alikeAt (T : Table) : Nat → Ty → Ty → Prop
  | 0, _, _ => False
  | n + 1, t, u => (T.shape t).Alike (T.alikeAt n) (T.shape u) ∧
    ((T.shape t).isEnumMember = true → t = u)

/-- Two types with the same structure. -/
def SameStructure (T : Table) (t u : Ty) : Prop := ∃ n, T.alikeAt n t u

section Structure

variable {u : Ty}

theorem WellFormed.tidy (hT : T.WellFormed) (t : Ty) : (T.shape t).Tidy := by
  cases t with
  | prim p => trivial
  | truth b => trivial
  | made n =>
    cases he : T.entries[n]? with
    | none =>
      simp only [shape, he]
      trivial
    | some e =>
      rw [shape_made he]
      exact (hT.entry n e he).isEntry.tidy

/-- Types of a table that say the same about equal parts are equal. -/
theorem WellFormed.eq_of_alike (hT : T.WellFormed) (ht : T.Has t) (hu : T.Has u)
    (hplain : (T.shape t).isEnumMember = false) (h : (T.shape t).Alike Eq (T.shape u)) : t = u := by
  have hentry : ∀ {n : Nat}, T.Has (.made n) → (T.shape (.made n)).IsEntry := by
    intro n hn
    obtain ⟨e, he⟩ := has_iff_entry.mp hn
    rw [shape_made he]
    exact (hT.entry n e he).isEntry
  have hprim : ∀ {p : Primitive} {n : Nat}, T.Has (.made n) →
      ¬(Shape.primitive p).Alike Eq (T.shape (.made n)) := by
    intro p n hn hlike
    have := hentry hn
    cases hs : T.shape (.made n) with
    | primitive q =>
      rw [hs] at this
      exact this.elim
    | _ =>
      rw [hs] at hlike
      exact hlike.elim
  have htruth : ∀ {b : Bool} {n : Nat}, T.Has (.made n) →
      ¬(Shape.literal (.boolean b)).Alike Eq (T.shape (.made n)) := by
    intro b n hn hlike
    have := hentry hn
    cases hs : T.shape (.made n) with
    | literal l =>
      rw [hs] at this hlike
      exact this hlike.1.symm
    | _ =>
      rw [hs] at hlike
      exact hlike.elim
  have hsymm : ∀ {s r : Shape}, s.Tidy → r.Tidy → s.Alike Eq r → r.Alike Eq s := by
    intro s r hs hr hlike
    exact (Shape.key_eq_iff hr hs).mp ((Shape.key_eq_iff hs hr).mpr hlike).symm
  cases t with
  | prim p =>
    cases u with
    | prim q => exact congrArg Ty.prim h
    | truth b => exact h.elim
    | made n => exact absurd h (hprim hu)
  | truth b =>
    cases u with
    | prim q => exact h.elim
    | truth c =>
      have htext := h.2
      cases b <;> cases c <;> first | rfl | exact absurd htext (by decide)
    | made n => exact absurd h (htruth hu)
  | made n =>
    cases u with
    | prim q => exact absurd (hsymm (r := .primitive q) (hentry ht).tidy trivial h) (hprim ht)
    | truth b =>
      exact absurd (hsymm (r := .literal (.boolean b)) (hentry ht).tidy trivial h) (htruth ht)
    | made m =>
      obtain ⟨e, he⟩ := has_iff_entry.mp ht
      obtain ⟨f, hf⟩ := has_iff_entry.mp hu
      rw [shape_made he] at h hplain
      rw [shape_made hf] at h
      have hve := hT.entry n e he
      have hvf := hT.entry m f hf
      have hkey : e.key = f.key := by
        rw [hve.key, hvf.key]
        exact (Shape.key_eq_iff hve.isEntry.tidy hvf.isEntry.tidy).mpr h
      rw [hT.unique n m e f he hf hplain hkey]

theorem alikeAt_self (hT : T.WellFormed) {n : Nat} (h : t.rank < n) : T.alikeAt n t t := by
  induction n generalizing t with
  | zero => exact absurd h (by omega)
  | succ n ih =>
    refine ⟨Shape.Alike.refl (hT.tidy t) fun p hp => ih ?_, fun _ => rfl⟩
    have := hT.rank_part hp
    omega

/-- **One type per structure.** Two types of a table are equal exactly when they have the same
structure. -/
theorem eq_iff_sameStructure (hT : T.WellFormed) (ht : T.Has t) (hu : T.Has u) :
    t = u ↔ T.SameStructure t u := by
  constructor
  · rintro rfl
    exact ⟨t.rank + 1, alikeAt_self hT (Nat.lt_succ_self _)⟩
  · rintro ⟨n, hn⟩
    induction n generalizing t u with
    | zero => exact hn.elim
    | succ n ih =>
      obtain ⟨hlike, hmember⟩ := hn
      cases hplain : (T.shape t).isEnumMember with
      | true => exact hmember hplain
      | false =>
        refine hT.eq_of_alike ht hu hplain (hlike.mono ?_)
        intro a ha b hb hab
        exact ih (hT.has_part ht ha) (hT.has_part hu hb) hab

end Structure

/-- A new type parameter changes no type. -/
theorem WellFormed.newTypeVar (hT : T.WellFormed) {info : TypeVarInfo}
    (hbound : ∀ b ∈ info.bound, T.Has b) (hdefault : ∀ d ∈ info.default, T.Has d) :
    (Ty.newTypeVar info T).2.WellFormed ∧ T ≤ (Ty.newTypeVar info T).2 := by
  have hvars : ∀ (i : Nat) (k : TypeVarInfo), T.typeVars[i]? = some k →
      (T.typeVars.push info)[i]? = some k := by
    intro i k hk
    have hi := (Array.getElem?_eq_some_iff.mp hk).1
    rw [Array.getElem?_push_lt hi]
    exact congrArg some (Array.getElem?_eq_some_iff.mp hk).2
  have hle : T ≤ (Ty.newTypeVar info T).2 :=
    ⟨fun _ _ h => h, hvars, rfl, rfl, fun _ _ h => h, fun _ _ h => .inl h⟩
  refine ⟨⟨?_, hT.unique, ?_, ?_, hT.instances⟩, hle⟩
  · intro n e he
    exact (hT.entry n e he).of_le (has_iff_entry.mpr ⟨e, he⟩) hle
  · intro i k hk
    change (T.typeVars.push info)[i]? = some k at hk
    rw [Array.getElem?_push] at hk
    split at hk
    · injection hk with hk
      subst hk
      exact ⟨hbound, hdefault⟩
    · exact hT.typeVars i k hk
  · intro a ha
    obtain ⟨htarget, hparams, hout⟩ := hT.aliases a ha
    exact ⟨htarget, fun v hv => knows_of_le hle (hparams v hv), hout⟩

theorem WellFormed.empty : ({} : Table).WellFormed :=
  ⟨by simp, by simp, by simp, by simp, by simp⟩

end Table

/-- A call of one of the constructors of types. -/
inductive Construction where
  | literal (l : Literal)
  | union (ts : List Ty)
  | intersection (ts : List Ty)
  | array (element : Ty) (readonly : Bool)
  | tuple (u : Tuple)
  | object (m : Members)
  | function (c : Callable)
  | reference (name : String) (arguments : List Ty)
  | parameter (v : TypeVar)
  | classValue (name : String) (instanceType : Ty) (constructor : Callable)
  | enumeration (name : String) (isConst : Bool) (members : List (String × Ty))

namespace Construction

/-- Makes the call. -/
def run : Construction → Interning Ty
  | literal l => Ty.literalOf l
  | union ts => Ty.unionOf ts
  | intersection ts => Ty.intersectionOf ts
  | array element readonly => Ty.arrayOf element readonly
  | tuple u => Ty.tupleOf u
  | object m => Ty.objectOf m
  | function c => Ty.functionOf c
  | reference name arguments => Ty.referenceTo name arguments
  | parameter v => Ty.parameterOf v
  | classValue name instanceType constructor => Ty.classOf name instanceType constructor
  | enumeration name isConst members => Ty.enumOf name isConst members

/-- The types that are handed over. -/
def inputs : Construction → List Ty
  | literal _ | parameter _ => []
  | union ts | intersection ts | reference _ ts => ts
  | array element _ => [element]
  | tuple u => u.elements
  | object m => (Shape.object m).parts
  | function c => (Shape.function c).parts
  | classValue _ instanceType constructor => instanceType :: (Shape.function constructor).parts
  | enumeration _ _ members => members.map Prod.snd

/-- What else a call relies on: the type parameter exists, the name of the enum is new and its
values are literals. -/
def Fits (T : Table) : Construction → Prop
  | parameter v => T.Knows v
  | enumeration name _ members => T.FreshEnum name ∧ ∀ p ∈ members, (T.literal? p.2).isSome
  | _ => True

/-- The type `t` has the structure that the call asked for in the table `T`; `T1` is the table that
the call left. -/
def Delivers (T T1 : Table) (t : Ty) : Construction → Prop
  | literal l => (T1.shape t).Alike Eq (.literal l)
  | union ts => ∀ m, m ∈ T1.members t ↔ m ∈ Ty.unionMembers T ts
  | intersection ts => (Interning.intersected ts T).1 = [t] ∨
    (T1.shape t).Alike Eq (.intersection (Interning.intersected ts T).1)
  | array element readonly => (T1.shape t).Alike Eq (.array element readonly)
  | tuple u => (T1.shape t).Alike Eq (tupleShape u)
  | object m => (T1.shape t).Alike Eq (objectShape m)
  | function c => (T1.shape t).Alike Eq (.function c)
  | reference name arguments => (T1.shape t).Alike Eq (.reference name arguments)
  | parameter v => (T1.shape t).Alike Eq (.parameter v)
  | classValue name instanceType constructor => ∃ fn, T1.Has fn ∧
    (T1.shape fn).Alike Eq (.function constructor) ∧
    (T1.shape t).Alike Eq (.classValue name instanceType fn)
  | enumeration name isConst members => ∃ ms,
    T1.shape t = .enumeration { name, isConst, members := ms } ∧
    List.Forall₂ (Interning.IsMemberOf T1 t) ms members

/-- A call leaves a well-formed table, changes nothing older, and gives what was asked for. -/
theorem run_spec (hT : T.WellFormed) {c : Construction}
    (hin : ∀ t ∈ c.inputs, T.Has t) (hfits : c.Fits T) :
    ∃ t T1, c.run T = (t, T1) ∧ T1.WellFormed ∧ T.Adds T1 ∧ T1.Has t ∧ c.Delivers T T1 t := by
  have hsettles : ∀ {work : Interning Ty} {P : Table → Ty → Prop},
      Interning.Settles T work (fun T1 t => T1.Has t ∧ P T1 t) →
      ∃ t T1, work T = (t, T1) ∧ T1.WellFormed ∧ T.Adds T1 ∧ T1.Has t ∧ P T1 t := by
    rintro work P ⟨t, T1, hat, ht, hp⟩
    exact ⟨t, T1, hat.result, hat.wellFormed, hat.adds, ht, hp⟩
  cases c with
  | literal l => exact hsettles (gives_literalOf hT l)
  | union ts => exact hsettles (Interning.settles_unionOf hT hin)
  | intersection ts => exact hsettles (Interning.settles_intersectionOf hT hin)
  | array element readonly =>
    exact hsettles (gives_arrayOf hT (hin element (by simp [inputs])) readonly)
  | tuple u => exact hsettles (gives_tupleOf hT hin)
  | object m => exact hsettles (gives_objectOf hT hin)
  | function c => exact hsettles (gives_functionOf hT hin)
  | reference name arguments => exact hsettles (gives_referenceTo hT name hin)
  | parameter v => exact hsettles (gives_parameterOf hT hfits)
  | classValue name instanceType constructor =>
    exact hsettles (gives_classOf hT name (hin instanceType (by simp [inputs]))
      fun p hp => hin p (List.mem_cons_of_mem _ hp))
  | enumeration name isConst members =>
    have hvalues : ∀ p ∈ members, T.Has p.2 ∧ (T.literal? p.2).isSome := by
      intro p hp
      exact ⟨hin p.2 (List.mem_map.mpr ⟨p, hp, rfl⟩), hfits.2 p hp⟩
    obtain ⟨t, T1, hrun, hT1, h1, ht, hshape⟩ := enumOf_spec hT isConst hfits.1 hvalues
    exact ⟨t, T1, hrun, hT1, h1, ht, hshape⟩

end Construction

namespace Table

/-- The type can be handed over after some types were returned: it is fixed, one of those, or a
member that one of those has under a name. -/
def Offers (T : Table) (made : List Ty) : Ty → Prop
  | .prim _ | .truth _ => True
  | .made n => .made n ∈ made ∨ ∃ enum ∈ made, ∃ e name, T.shape enum = .enumeration e ∧
    Ty.enumMember? T e name = some (.made n)

/-- A table after a sequence of calls on an empty one, with the types that the calls returned. -/
inductive Built : Table → List Ty → Prop
  | empty : Built {} []
  | declare {T : Table} {made : List Ty} (info : TypeVarInfo) (h : Built T made)
    (hbound : ∀ b ∈ info.bound, T.Offers made b) (hdefault : ∀ d ∈ info.default, T.Offers made d) :
    Built (Ty.newTypeVar info T).2 made
  | call {T : Table} {made : List Ty} (c : Construction) (h : Built T made)
    (hin : ∀ t ∈ c.inputs, T.Offers made t) (hfits : c.Fits T) :
    Built (c.run T).2 ((c.run T).1 :: made)

theorem WellFormed.has_offered (hT : T.WellFormed)
    (hmade : ∀ t ∈ made, T.Has t) (ht : T.Offers made t) : T.Has t := by
  cases t with
  | prim p => exact T.has_prim p
  | truth b => exact T.has_truth b
  | made n =>
    rcases ht with ht | ⟨enum, henum, e, name, hshape, hfind⟩
    · exact hmade _ ht
    · have hmem : Ty.made n ∈ e.members := List.mem_of_find?_eq_some hfind
      obtain ⟨k, f, rfl, hf, hentry⟩ := exists_entry hshape (by simp) (by simp)
      exact (hT.entry k f hf).members e hentry _ hmem

/-- Every table built by calls is well-formed and has the types that were returned. -/
theorem Built.wellFormed (h : Built T made) : T.WellFormed ∧ ∀ t ∈ made, T.Has t := by
  induction h with
  | empty => exact ⟨.empty, by simp⟩
  | declare info h hbound hdefault ih =>
    obtain ⟨hT, hmade⟩ := ih
    obtain ⟨hT1, hle⟩ := hT.newTypeVar (fun b hb => hT.has_offered hmade (hbound b hb))
      fun d hd => hT.has_offered hmade (hdefault d hd)
    exact ⟨hT1, fun t ht => has_of_le hle (hmade t ht)⟩
  | call c h hin hfits ih =>
    obtain ⟨hT, hmade⟩ := ih
    obtain ⟨t, T1, hrun, hT1, h1, ht, -⟩ := Construction.run_spec hT
      (fun u hu => hT.has_offered hmade (hin u hu)) hfits
    rw [hrun]
    refine ⟨hT1, fun u hu => ?_⟩
    rcases List.mem_cons.mp hu with rfl | hu
    · exact ht
    · exact has_of_le h1.le (hmade u hu)

end Table

/-- The words of 32 bits are enough for the numbers of all types and type parameters of a table. -/
structure Table.FitsWords (T : Table) : Prop where
  types : T.entries.size ≤ 2 ^ 32 - 64
  params : T.typeVars.size < 2 ^ 32

/-- Without such a bound two types come to have one identity. -/
theorem Ty.word_repeats (n : Nat) : (Ty.made (n + 2 ^ 32)).word = (Ty.made n).word := by
  rw [← UInt32.toNat_inj]
  simp only [word, serial, UInt32.toNat_ofNat']
  omega

section Words

theorem Table.FitsWords.toNat_word (h : T.FitsWords) (ht : T.Has t) : t.word.toNat = t.serial := by
  refine UInt32.toNat_ofNat_of_lt' ?_
  change t.serial < 2 ^ 32
  cases t with
  | prim p => cases p <;> decide
  | truth b => cases b <;> decide
  | made n =>
    have hn : n + 1 ≤ T.entries.size := ht
    have htypes := h.types
    simp only [Ty.serial]
    omega

theorem Table.FitsWords.toNat_paramWord (h : T.FitsWords) (hv : T.Knows v) :
    v.word.toNat = v.number + 1 := by
  refine UInt32.toNat_ofNat_of_lt' ?_
  have hnumber : v.number < T.typeVars.size := hv
  have hparams := h.params
  change v.number + 1 < 2 ^ 32
  omega

/-- Different types of such a table have different identities. -/
theorem Table.FitsWords.word_inj (h : T.FitsWords) {u : Ty} (ht : T.Has t) (hu : T.Has u) :
    t.word = u.word ↔ t = u := by
  refine ⟨fun heq => Ty.serial_injective ?_, fun heq => by rw [heq]⟩
  rw [← h.toNat_word ht, ← h.toNat_word hu, heq]

theorem Table.FitsWords.paramWord_inj (h : T.FitsWords) {w : TypeVar} (hv : T.Knows v)
    (hw : T.Knows w) : v.word = w.word ↔ v = w := by
  refine ⟨fun heq => ?_, fun heq => by rw [heq]⟩
  have hnumbers := congrArg UInt32.toNat heq
  rw [h.toNat_paramWord hv, h.toNat_paramWord hw] at hnumbers
  exact congrArg TypeVar.mk (Nat.succ.inj hnumbers)

end Words

/-- **Hash-consing is sound and complete.** After any sequence of calls that 32 bits are enough for,
two returned types are the same exactly when they have the same structure, and whatever call comes
next returns a type of the structure that it asks for. The keys are written with the numbers that
the identities hold: no two types share an identity, no two type parameters do, and the composite
types have identities from 64 on, above those of all the fixed ones. -/
theorem hash_consing {T : Table} {made : List Ty} (h : T.Built made) (hwords : T.FitsWords) :
    (∀ t ∈ made, ∀ u ∈ made, t = u ↔ T.SameStructure t u) ∧
      (∀ c : Construction, (∀ t ∈ c.inputs, T.Offers made t) → c.Fits T → (c.run T).2.FitsWords →
        c.Delivers T (c.run T).2 (c.run T).1) ∧
      (∀ t, T.Has t → t.word.toNat = t.serial) ∧ (∀ v, T.Knows v → v.word.toNat = v.number + 1) ∧
      (∀ t u, T.Has t → T.Has u → (t.word = u.word ↔ t = u)) ∧
      (∀ v w, T.Knows v → T.Knows w → (v.word = w.word ↔ v = w)) ∧
      (∀ n p b, T.Has (.made n) →
        (Ty.prim p).word < 64 ∧ (Ty.truth b).word < 64 ∧ 64 ≤ (Ty.made n).word) := by
  obtain ⟨hT, hmade⟩ := h.wellFormed
  refine ⟨fun t ht u hu => Table.eq_iff_sameStructure hT (hmade t ht) (hmade u hu), ?_,
    fun _ => hwords.toNat_word, fun _ => hwords.toNat_paramWord, fun _ _ => hwords.word_inj,
    fun _ _ => hwords.paramWord_inj, ?_⟩
  · intro c hin hfits _
    obtain ⟨t, T1, hrun, -, -, -, hdelivers⟩ := Construction.run_spec hT
      (fun u hu => hT.has_offered hmade (hin u hu)) hfits
    rw [hrun]
    exact hdelivers
  · intro n p b hn
    refine ⟨by cases p <;> decide, by cases b <;> decide, ?_⟩
    rw [UInt32.le_iff_toNat_le, hwords.toNat_word hn]
    exact Nat.le_add_right 64 n

/-- A call for the function type with one number parameter of the given name. -/
def numberFunction (name : String) : Construction :=
  .function { params := [{ name, type := .number }] }

/-- Two functions that differ in the name of a parameter, made one after the other, are one type. -/
theorem hash_consing_functions :
    let T := ((numberFunction "x").run {}).2
    let t := ((numberFunction "x").run {}).1
    let u := ((numberFunction "y").run T).1
    t = u ∧ ((numberFunction "y").run T).2.SameStructure t u := by
  intro T t u
  have hin : ∀ name (T : Table) made, ∀ t ∈ (numberFunction name).inputs, T.Offers made t := by
    intro name T made
    simp [numberFunction, Construction.inputs, Shape.parts, Table.Offers]
  have hbuilt : ((numberFunction "y").run T).2.Built [u, t] :=
    .call _ (.call _ .empty (hin "x" _ _) trivial) (hin "y" _ _) trivial
  have heq : ((numberFunction "x").run {}).1 =
      ((numberFunction "y").run ((numberFunction "x").run {}).2).1 := by decide +kernel
  have hwords : ((numberFunction "y").run T).2.FitsWords := ⟨by decide +kernel, by decide +kernel⟩
  exact ⟨heq, ((hash_consing hbuilt hwords).1 t (by simp) u (by simp)).mp heq⟩

end ShapeCheck
