import ShapeCheck.Proofs.Untouched
import ShapeCheck.Proofs.Stability

/-!
# A substitution eliminates its domain

After a substitution no reference to a parameter of its domain is left, and no function that
declares one, however deep in the type. That holds of every type that a substitution goes through,
so of every type without a class as a value, as long as the images neither refer to such a parameter
nor declare one. It is not enough that they refer to none: an image is put in as it is, with what it
declares.

* `Table.RefersTo` and `Table.Declares` are about a type with all that is nested in it.
* `Ty.substitute_eliminates` is the main result, `Ty.not_substitute_eliminates` the image that
  declares a parameter.

The members of enums play no part in this, so the proof is about the table in which they are left
out.
-/

namespace ShapeCheck

open Relation (ReflTransGen)

namespace Table

/-- The second type is nested in the first, or the same. -/
def Nests (T : Table) : Ty → Ty → Prop :=
  ReflTransGen fun t p => p ∈ (T.shape t).parts

/-- A reference to the parameter stands somewhere in the type. -/
def RefersTo (T : Table) (t : Ty) (v : TypeVar) : Prop :=
  ∃ u, T.Nests t u ∧ T.shape u = .parameter v

/-- A function somewhere in the type declares the parameter. -/
def Declares (T : Table) (t : Ty) (v : TypeVar) : Prop :=
  ∃ u c, T.Nests t u ∧ T.shape u = .function c ∧ v ∈ c.typeParams

/-- A substitution goes through the type: nowhere in it is a class as a value, and what an object
lists as its call signatures are functions. -/
inductive Permeable (T : Table) : Ty → Prop
  | intro {t : Ty} (has : T.Has t)
    (classless : ∀ name instanceType constructor,
      T.shape t ≠ .classValue name instanceType constructor)
    (calls : ∀ m, T.shape t = .object m → ∀ f ∈ m.calls, (T.callable? f).isSome = true)
    (parts : ∀ p ∈ (T.shape t).parts, Permeable T p) : Permeable T t

section Nesting

variable {T : Table} {t u p : Ty} {v : TypeVar} {vars : List TypeVar}

/-- What is nested in a type is the type, or it is nested in one of its parts. -/
theorem nests_iff : T.Nests t u ↔ t = u ∨ ∃ p ∈ (T.shape t).parts, T.Nests p u :=
  ReflTransGen.cases_head_iff

theorem refersTo_iff : T.RefersTo t v ↔
    T.shape t = .parameter v ∨ ∃ p ∈ (T.shape t).parts, T.RefersTo p v := by
  constructor
  · rintro ⟨u, hu, hs⟩
    rcases nests_iff.mp hu with rfl | ⟨p, hp, hu⟩
    · exact .inl hs
    · exact .inr ⟨p, hp, u, hu, hs⟩
  · rintro (hs | ⟨p, hp, u, hu, hs⟩)
    · exact ⟨t, .refl, hs⟩
    · exact ⟨u, .head hp hu, hs⟩

theorem declares_iff : T.Declares t v ↔
    (∃ c, T.shape t = .function c ∧ v ∈ c.typeParams) ∨
      ∃ p ∈ (T.shape t).parts, T.Declares p v := by
  constructor
  · rintro ⟨u, c, hu, hs, hv⟩
    rcases nests_iff.mp hu with rfl | ⟨p, hp, hu⟩
    · exact .inl ⟨c, hs, hv⟩
    · exact .inr ⟨p, hp, u, c, hu, hs, hv⟩
  · rintro (⟨c, hs, hv⟩ | ⟨p, hp, u, c, hu, hs, hv⟩)
    · exact ⟨t, c, .refl, hs, hv⟩
    · exact ⟨u, c, .head hp hu, hs, hv⟩

theorem parts_unfilled (t : Ty) : (T.unfilled.shape t).parts = (T.shape t).parts := by
  rw [shape_unfilled]
  cases T.shape t with
  | _ => rfl

theorem ownVars_unfilled (t : Ty) : (T.unfilled.shape t).ownVars = (T.shape t).ownVars := by
  rw [shape_unfilled]
  cases T.shape t with
  | _ => rfl

/-- Where the members of enums are left out, every enum has none but its own. -/
theorem enrolls_unfilled (t : Ty) : T.unfilled.Enrolls t := by
  intro e hs m hm
  rw [shape_unfilled] at hs
  cases hshape : T.shape t with
  | enumeration en =>
    rw [hshape] at hs
    obtain rfl := Shape.enumeration.inj hs
    exact absurd hm List.not_mem_nil
  | _ =>
    rw [hshape] at hs
    exact absurd hs (by simp [Shape.unfilled])

theorem Avoids.nested (h : T.unfilled.Avoids vars t) (hu : T.Nests t u) :
    T.unfilled.Avoids vars u := by
  induction hu with
  | refl => exact h
  | tail _ hp ih => exact ih.parts _ (by rwa [parts_unfilled])

/-- A type that avoids a parameter does not refer to it or declare it. -/
theorem Avoids.nowhere (h : T.unfilled.Avoids vars t) (hv : v ∈ vars) :
    ¬T.RefersTo t v ∧ ¬T.Declares t v := by
  have hfree : ∀ u, T.Nests t u → ∀ w ∈ (T.shape u).ownVars, w ∉ vars := by
    intro u hu
    rw [← ownVars_unfilled]
    exact (h.nested hu).free
  constructor
  · rintro ⟨u, hu, hs⟩
    exact hfree u hu v (by simp [hs, Shape.ownVars]) hv
  · rintro ⟨u, c, hu, hs, hdeclared⟩
    exact hfree u hu v (by rwa [hs]) hv

/-- A type that neither refers to some parameters nor declares them avoids them. -/
theorem avoids_of_nowhere (hT : T.WellFormed) (ht : T.Has t)
    (hnone : ∀ v ∈ vars, ¬T.RefersTo t v ∧ ¬T.Declares t v) : T.unfilled.Avoids vars t := by
  -- the parts of a type stand below it
  induction hrank : t.rank using Nat.strong_induction_on generalizing t with
  | _ rank ih =>
    subst hrank
    refine .intro ((has_unfilled T t).mpr ht) (fun v hv hmem => ?_)
      (enrolls_unfilled t) fun p hp => ?_
    · rw [ownVars_unfilled] at hv
      obtain ⟨href, hdecl⟩ := hnone v hmem
      cases hs : T.shape t with
      | parameter w =>
        rw [hs] at hv
        exact href (refersTo_iff.mpr (.inl (List.mem_singleton.mp hv ▸ hs)))
      | function c =>
        rw [hs] at hv
        exact hdecl (declares_iff.mpr (.inl ⟨c, hs, hv⟩))
      | _ =>
        rw [hs] at hv
        exact absurd hv List.not_mem_nil
    · rw [parts_unfilled] at hp
      refine ih p.rank (hT.rank_part hp) (hT.has_part ht hp)
        (fun v hv => ⟨fun h => ?_, fun h => ?_⟩) rfl
      · exact (hnone v hv).1 (refersTo_iff.mpr (.inr ⟨p, hp, h⟩))
      · exact (hnone v hv).2 (declares_iff.mpr (.inr ⟨p, hp, h⟩))

/-- A substitution clears a type that it goes through of all parameters that it binds. -/
theorem Permeable.clears (h : T.Permeable t) (hT : T.WellFormed) (horderly : T.Orderly) :
    T.unfilled.Clears vars vars t := by
  induction h with
  | @intro t has classless calls parts ih =>
    have hhas : T.unfilled.Has t := (has_unfilled T t).mpr has
    have hshape := shape_unfilled T t
    -- a part that a substitution does not take apart has to avoid the parameters by itself
    have hkept : ∀ p ∈ (T.shape t).parts, (T.shape p).isRebuilt = false →
        (∀ v, T.shape p ≠ .parameter v) → T.unfilled.Avoids vars p := by
      intro p hp hrebuilt hparameter
      refine (ih p hp).kept ?_ fun v hs => ?_
      · rw [← hrebuilt, shape_unfilled]
        cases T.shape p with
        | _ => rfl
      · rw [shape_unfilled] at hs
        refine hparameter v ?_
        cases hp : T.shape p <;> rw [hp] at hs <;>
          first | exact hs | exact absurd hs (by simp [Shape.unfilled])
    cases hs : T.shape t with
    | parameter v =>
      rw [hs] at hshape
      by_cases hv : v ∈ vars
      · exact .parameter hshape hv
      · refine .avoids (.intro hhas ?_ (enrolls_unfilled t) ?_)
        · rw [hshape]
          exact fun w hw => List.mem_singleton.mp hw ▸ hv
        · rw [hshape]
          exact fun p hp => absurd hp List.not_mem_nil
    | classValue name instanceType constructor => exact absurd hs (classless _ _ _)
    | enumMember enum name value =>
      rw [hs] at hshape hkept
      obtain ⟨e, he⟩ : ∃ e, T.shape enum = .enumeration e := by
        have hstandard := horderly.standard t
        rwa [hs] at hstandard
      obtain ⟨l, hl⟩ : ∃ l, T.shape value = .literal l := by
        obtain ⟨-, hliteral⟩ := Assign.value_spec (v := value) hT has (by simp [Ty.enumValue?, hs])
        obtain ⟨l, hl⟩ := Option.isSome_iff_exists.mp hliteral
        exact ⟨l, shape_of_literal? hl⟩
      refine .avoids (.intro hhas ?_ (enrolls_unfilled t) ?_)
      · rw [hshape]
        exact fun v hv => absurd hv List.not_mem_nil
      · rw [hshape]
        refine Interning.forall_mem_pair (hkept enum (by simp [Shape.parts]) ?_ ?_)
          (hkept value (by simp [Shape.parts]) ?_ ?_)
        · rw [he]; rfl
        · simp [he]
        · rw [hl]; rfl
        · simp [hl]
    | primitive _ | literal _ | enumeration _ =>
      rw [hs] at hshape
      refine .avoids (.intro hhas ?_ (enrolls_unfilled t) ?_)
      · rw [hshape]
        exact fun v hv => absurd hv List.not_mem_nil
      · rw [hshape]
        exact fun p hp => absurd hp List.not_mem_nil
    | _ =>
      refine .rebuilt ?_ (fun v _ hv => hv) (fun m hm f hf => ?_) fun p hp => ih p ?_
      · rw [hshape, hs]
        rfl
      · rw [hshape, hs] at hm
        rw [callable?_unfilled]
        exact calls m (hs.trans hm) f hf
      · rwa [parts_unfilled] at hp

end Nesting

end Table

open Table

/-- **A substitution eliminates its domain.** In every table, after a substitution in a type that it
goes through, nothing in the type refers to a parameter of the domain and no function in it declares
one, if that is so of the images. -/
theorem Ty.substitute_eliminates {T : Table} (hT : ReflTransGen Operated {} T) {t : Ty}
    (ht : T.Permeable t) {subs : Substitution} (himages : ∀ b ∈ subs, T.Has b.2 ∧
      ∀ v ∈ subs.map Prod.fst, ¬T.RefersTo b.2 v ∧ ¬T.Declares b.2 v) :
    ∀ v ∈ subs.map Prod.fst,
      ¬(t.substitute subs T).2.RefersTo (t.substitute subs T).1 v ∧
        ¬(t.substitute subs T).2.Declares (t.substitute subs T).1 v := by
  have hwf := (faithful_empty.operations hT).1.wellFormed
  have hbound : ∀ v ∈ subs.map Prod.fst, Ty.binds subs v = true := by
    intro v hv
    obtain ⟨b, hb, rfl⟩ := List.mem_map.mp hv
    rw [Ty.binds, List.lookup_isSome_iff]
    exact ⟨b, hb, beq_self_eq_true b.1⟩
  have havoid : ∀ b ∈ subs, T.unfilled.Avoids (subs.map Prod.fst) b.2 :=
    fun b hb => avoids_of_nowhere hwf (himages b hb).1 (himages b hb).2
  obtain ⟨u, T1, hat, hu⟩ := Interning.settles_substitute_avoiding hbound hwf.unfilled havoid
    (ht.clears hwf (orderly_of_operated hT))
  have hrun := hat.result
  rw [Interning.substitute_unfilled t subs T] at hrun
  obtain ⟨rfl, rfl⟩ := Prod.mk.inj hrun
  exact fun v hv => hu.nowhere hv

namespace Table

theorem shape_of_map {T : Table} {shapes : Array Shape} (h : T.entries.map Entry.shape = shapes)
    (n : Nat) : T.shape (.made n) = shapes[n]?.getD (.primitive .invalid) := by
  rw [← h, Array.getElem?_map, shape]
  cases T.entries[n]? with
  | _ => rfl

theorem nowhere_prim (T : Table) (p : Primitive) (v : TypeVar) :
    ¬T.RefersTo (.prim p) v ∧ ¬T.Declares (.prim p) v := by
  rw [refersTo_iff, declares_iff]
  simp [shape, Shape.parts]

/-- The function `<X>(xs: X[]) => { x: X }`. -/
def collecting : Callable :=
  { typeParams := [⟨0⟩], params := [⟨"xs", .made 1, false⟩], result := .made 2 }

/-- The calls that make it and what it is made of. -/
def collection : List Construction :=
  [.parameter ⟨0⟩, .array (.made 0) false, .object { fields := [{ name := "x", type := .made 0 }] },
    .function collecting]

theorem shapes_collection : (beside collection).entries.map Entry.shape =
    #[.parameter ⟨0⟩, .array (.made 0) false,
    .object { fields := [{ name := "x", type := .made 0 }] },
      .function collecting] := by
  cbv

theorem operated_collection : ReflTransGen Operated {} (beside collection) := by
  have hknows : Knows (beside []) ⟨0⟩ := by simp [Knows, beside, Ty.newTypeVar]
  have h1 : (beside (collection.take 1)).entries.size = 1 := by cbv
  have h2 : (beside (collection.take 2)).entries.size = 2 := by cbv
  have h3 : (beside (collection.take 3)).entries.size = 3 := by cbv
  have hparameter : ReflTransGen Operated {} (beside (collection.take 1)) :=
    operated_construct operated_beside (.parameter ⟨0⟩) (by simp [Construction.inputs]) hknows
  have harray : ReflTransGen Operated {} (beside (collection.take 2)) :=
    operated_construct hparameter (.array (.made 0) false)
    (by simp [Construction.inputs, h1]) trivial
  have hobject : ReflTransGen Operated {} (beside (collection.take 3)) :=
    operated_construct harray (.object { fields := [{ name := "x", type := .made 0 }] })
      (by simp [Construction.inputs, Shape.parts, h2]) trivial
  exact operated_construct hobject (.function collecting)
    (by simp [Construction.inputs, Shape.parts, collecting, h3]) trivial

theorem permeable_collection : (beside collection).Permeable (.made 3) := by
  have hshape := shape_of_map shapes_collection
  have hsize : (beside collection).entries.size = 4 := by
    simpa using congrArg Array.size shapes_collection
  have hparameter : (beside collection).Permeable (.made 0) :=
    .intro (by simp [hsize]) (by simp [hshape]) (by simp [hshape]) (by simp [hshape, Shape.parts])
  have harray : (beside collection).Permeable (.made 1) :=
    .intro (by simp [hsize]) (by simp [hshape]) (by simp [hshape])
      (by simpa [hshape, Shape.parts] using hparameter)
  have hobject : (beside collection).Permeable (.made 2) := by
    refine .intro (by simp [hsize]) (by simp [hshape]) (fun m hm f hf => ?_)
      (by simpa [hshape, Shape.parts] using hparameter)
    rw [hshape] at hm
    obtain rfl := Shape.object.inj hm
    exact absurd hf List.not_mem_nil
  refine .intro (by simp [hsize]) (by simp [hshape]) (by simp [hshape]) ?_
  simpa [hshape, Shape.parts, collecting] using And.intro harray hobject

end Table

/-- A function that declares the parameter and refers to it at several places. -/
theorem Ty.substitute_eliminates_collecting :
    ReflTransGen Operated {} (beside collection) ∧
      (beside collection).Permeable (.made 3) ∧
      ((beside collection).RefersTo (.made 3) ⟨0⟩ ∧ (beside collection).Declares (.made 3) ⟨0⟩) ∧
      ¬((Ty.made 3).substitute [(⟨0⟩, .number)] (beside collection)).2.RefersTo
        ((Ty.made 3).substitute [(⟨0⟩, .number)] (beside collection)).1 ⟨0⟩ ∧
      ¬((Ty.made 3).substitute [(⟨0⟩, .number)] (beside collection)).2.Declares
        ((Ty.made 3).substitute [(⟨0⟩, .number)] (beside collection)).1 ⟨0⟩ := by
  have hshape := shape_of_map shapes_collection
  refine ⟨operated_collection, permeable_collection, ⟨?_, ?_⟩,
    substitute_eliminates operated_collection permeable_collection ?_ ⟨0⟩ (by simp)⟩
  · refine ⟨.made 0, .head (b := .made 2) ?_ (.single ?_), ?_⟩ <;>
      simp [hshape, Shape.parts, collecting]
  · exact ⟨.made 3, collecting, .refl, by simp [hshape], by simp [collecting]⟩
  · intro b hb
    obtain rfl := List.mem_singleton.mp hb
    exact ⟨has_prim _ _, fun v _ => nowhere_prim _ _ v⟩

/-- An image that declares a parameter of the domain and refers to none is put in as it is: the
parameter is declared in the result. -/
theorem Ty.not_substitute_eliminates :
    ReflTransGen Operated {} (beside [.parameter ⟨0⟩, generic]) ∧
      (beside [.parameter ⟨0⟩, generic]).Permeable (.made 0) ∧
      (beside [.parameter ⟨0⟩, generic]).Has (.made 1) ∧
      ¬(beside [.parameter ⟨0⟩, generic]).RefersTo (.made 1) ⟨0⟩ ∧
      ((Ty.made 0).substitute [(⟨0⟩, .made 1)] (beside [.parameter ⟨0⟩, generic])).2.Declares
        ((Ty.made 0).substitute [(⟨0⟩, .made 1)] (beside [.parameter ⟨0⟩, generic])).1 ⟨0⟩ := by
  have hshapes : (beside [.parameter ⟨0⟩, generic]).entries.map Entry.shape =
      #[.parameter ⟨0⟩, .function { typeParams := [⟨0⟩] }] := by cbv
  have hshape := shape_of_map hshapes
  have hsize : (beside [.parameter ⟨0⟩, generic]).entries.size = 2 := by
    simpa using congrArg Array.size hshapes
  have hresult : (Ty.made 0).substitute [(⟨0⟩, .made 1)] (beside [.parameter ⟨0⟩, generic]) =
      (.made 1, beside [.parameter ⟨0⟩, generic]) := by cbv
  rw [hresult]
  refine ⟨?_, ?_, by simp [hsize], ?_, ?_⟩
  · refine operated_construct (operated_construct operated_beside (.parameter ⟨0⟩) ?_ ?_) generic ?_
      trivial
    · simp [Construction.inputs]
    · simp [Construction.Fits, Knows, beside, Ty.newTypeVar]
    · simp [generic, Construction.inputs, Shape.parts, Ty.void]
  · exact .intro (by simp [hsize]) (by simp [hshape]) (by simp [hshape])
      (by simp [hshape, Shape.parts])
  · rw [refersTo_iff]
    simp [hshape, Shape.parts, Ty.void, nowhere_prim]
  · exact ⟨.made 1, { typeParams := [⟨0⟩] }, .refl, by simp [hshape], by simp⟩

end ShapeCheck
