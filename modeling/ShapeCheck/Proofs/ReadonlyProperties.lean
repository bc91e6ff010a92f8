import ShapeCheck.Proofs.PropertyAccess
import ShapeCheck.Proofs.Templates

/-!
# The properties of a readonly type

Making a type readonly marks the fields of its objects and makes its arrays and tuples readonly.
This can make members of a union equal, so that the union has fewer of them, and put the members of
an intersection in another order. What an access finds has the type that it had, unless an
intersection takes part, and is optional where it was.

An index signature has no mark of its own, and the length of an array is never marked. So a property
is readonly where it is a field, an element, or the length of a tuple; in a union or an intersection
one member where it is so suffices.

* `Shape.Alike.hardened` is the statement for one structure, `Ty.readonly_property` the result.
-/

namespace ShapeCheck

open Relation (ReflTransGen)
open Interning
open Typing

variable {covered : Prop} {f g : Field} {s s' : Shape} {l ms : List Ty} {x t : Ty} {T : Table}

open Table

namespace Shape

/-- The readonly form of a shape. -/
def frozen : Shape → Shape
  | .object m => .object { m with fields := Ty.freezeFields m.fields }
  | .array element _ => .array element true
  | .tuple u => .tuple { u with readonly := true }
  | s => s

/-- The name belongs to a field, an element or the length of a tuple, and not to the index signature
of an object or the length of an array. -/
def covers (name : String) : Shape → Bool
  | .object m => (m.field? name).isSome
  | .array _ _ => name ≠ "length"
  | .tuple _ => true
  | _ => false

end Shape

/-- The second field is the first one made readonly, where it is known to be covered. -/
structure Field.Hardened (mixed covered : Prop) (f g : Field) : Prop where
  optional : g.optional = f.optional
  type : g.type = f.type ∨ mixed
  readonly : covered → g.readonly = true

section Containers

variable {name : String} {mixed : Prop}

theorem Field.Hardened.of_eq (h : ¬covered) (f : Field) :
    f.Hardened mixed covered f := ⟨rfl, .inl rfl, fun hc => absurd hc h⟩

theorem Field.Hardened.imp {covered' : Prop} (h : f.Hardened mixed covered g)
    (himp : covered' → covered) : f.Hardened mixed covered' g :=
  ⟨h.optional, h.type, fun hc => h.readonly (himp hc)⟩

end Containers

namespace Table

/-- With enough nested steps, this is the readonly form of the type, from the table on. -/
def Freezes (T : Table) (t r : Ty) : Prop :=
  Typing.Stable T (fun d => Ty.readonlyAt Ty.resolve d t) r

/-- The intersection of the types consists of them: none is taken apart, left out or merged. -/
def Unmerged (T : Table) (rs : List Ty) : Prop := ∀ m, m ∈ (Interning.intersected rs T).1 ↔ m ∈ rs

/-- The types made of objects, arrays and tuples by unions, aliases and, if `mixed` holds,
intersections that are no further merged when their members are made readonly. -/
inductive Aggregate (mixed : Prop) : Table → Ty → Prop
  | container {T : Table} {t : Ty} (h : (T.shape t).isContainer = true) : Aggregate mixed T t
  | union {T : Table} {t : Ty} {ms : List Ty} (h : T.shape t = .union ms)
    (hms : ∀ m ∈ ms, Aggregate mixed T m) : Aggregate mixed T t
  | intersection {T : Table} {t : Ty} {ms : List Ty} (hmixed : mixed)
    (h : T.shape t = .intersection ms)
    (hclosed : Ty.hasOpenHead T t = false) (hms : ∀ m ∈ ms, Aggregate mixed T m)
    (hapart : ∀ (U : Table) rs, U.Resolved → T ≤ U → List.Forall₂ U.Freezes ms rs → U.Unmerged rs) :
    Aggregate mixed T t
  | resolved {T : Table} {t : Ty} (h : Ty.hasOpenHead T t = true)
    (hr : ∀ (T1 T2 : Table) n r, T1.Resolved → T ≤ T1 → t.resolve n T1 = some (r, T2) →
      Aggregate mixed T2 r) : Aggregate mixed T t

/-- In the type the name belongs to a field, an element or the length of a tuple; in a union it does
so in some member, in an intersection in some member that has the property. -/
inductive Covers (T : Table) (name : String) : Ty → Prop
  | container {t : Ty} (h : (T.shape t).covers name = true) : Covers T name t
  | union {t m : Ty} {ms : List Ty} (h : T.shape t = .union ms) (hm : m ∈ ms)
    (hcovers : Covers T name m) :
    Covers T name t
  | intersection {t m : Ty} {ms : List Ty} {f : Field} (h : T.shape t = .intersection ms)
    (hclosed : Ty.hasOpenHead T t = false) (hm : m ∈ ms) (hfound : T.Sees name m (some f))
    (hcovers : Covers T name m) : Covers T name t
  | resolved {t r : Ty} (h : Ty.hasOpenHead T t = true) (hr : T.ResolvesTo t r)
    (hcovers : Covers T name r) : Covers T name t

/-- In every later table, what is found in the second type is what is found in the first one made
readonly. -/
def Mirrors (mixed : Prop) (name : String) (T : Table) (t r : Ty) : Prop :=
  ∀ U : Table, U.Resolved → T ≤ U → ∀ a b, U.Sees name t a → U.Sees name r b →
    Option.Rel (Field.Hardened mixed (U.Covers name t)) a b

/-- The second type is the first one made readonly, as far as the property is concerned. Its members
are structures and intersections. -/
structure Hardens (mixed : Prop) (name : String) (T : Table) (t r : Ty) : Prop where
  has : T.Has r
  proper : ∀ k ∈ T.members r, (T.shape k).isContainer = true ∨ ∃ ms, T.shape k = .intersection ms
  answers : ∀ k ∈ T.members r, T.Answers name k
  mirrors : Mirrors mixed name T t r

section Hardening

variable {T1 U : Table} {mixed : Prop} {name : String} {r m : Ty} {rs : List Ty}

theorem Mirrors.of_le (h : Mirrors mixed name T t r) (hle : T ≤ T1) : Mirrors mixed name T1 t r :=
  fun U hU hleU => h U hU (hle.trans hleU)

theorem Hardens.of_le (h : Hardens mixed name T t r) (hT : T.WellFormed) (hle : T ≤ T1) :
    Hardens mixed name T1 t r where
  has := has_of_le hle h.has
  proper := by
    intro k hk
    rw [members_of_le hle h.has] at hk
    rw [shape_of_le hle (hT.has_member h.has hk)]
    exact h.proper k hk
  answers := by
    intro k hk
    rw [members_of_le hle h.has] at hk
    exact (h.answers k hk).of_le hle
  mirrors := h.mirrors.of_le hle

/-- The type as a whole is asked through its members. -/
theorem Hardens.whole (h : Hardens mixed name T t r) : T.Answers name r := by
  by_cases hunion : (T.shape r).IsUnion
  · obtain ⟨ks, hks⟩ := hunion
    exact .union h.has hks fun k hk => h.answers k (by rwa [members_of_union hks])
  · exact h.answers r (by simp [Assign.members_of_not_isUnion hunion])

/-- An access to such a type ends. -/
theorem Aggregate.answers (h : T.Aggregate mixed t) (hT : T.WellFormed) (ht : T.Has t) :
    T.Answers name t := by
  induction h with
  | container h => exact .plain ht (Shape.isPlain_of_isContainer h)
  | @union T t ms h _ ih =>
    exact .union ht h fun m hm => ih m hm hT (hT.has_part ht (by rw [h]; exact hm))
  | @intersection T t ms _ h hclosed _ _ ih =>
    exact .intersection ht h hclosed hT fun m hm =>
      ih m hm hT (hT.has_part ht (by rw [h]; exact hm))
  | @resolved T t h _ ih =>
    refine .resolved ht fun U U1 n r hU hle hrun => ?_
    have hhas := has_of_le hle ht
    obtain ⟨hat, hr⟩ := Ty.lasting_resolve hU.truthful.sound hhas n r U1 hrun
    exact ih U U1 n r hU hle hrun hat.ok.wellFormed hr

/-! ## Making a type readonly -/

/-- Makes a type readonly by its shape, with the members of unions and intersections made readonly
in the given way. -/
def freezeStep (part : Ty → Typing Ty) (t : Ty) : Shape → Typing Ty
  | .object m => liftM (Ty.objectOf { m with fields := Ty.freezeFields m.fields })
  | .array element _ => liftM (Ty.arrayOf element true)
  | .tuple u => liftM (Ty.tupleOf { u with readonly := true })
  | .intersection ms => do Ty.intersectionOf (← ms.mapM part)
  | .union ms => do Ty.unionOf (← ms.mapM part)
  | _ => return t

theorem readonlyAt_closed (h : Ty.hasOpenHead T t = false) (d n : Nat) :
    Ty.readonlyAt Ty.resolve (d + 1) t n T =
      freezeStep (Ty.readonlyAt Ty.resolve d) t (T.shape t) n T := by
  rw [Ty.readonlyAt, bind_of_some (Ty.resolve_closed n h), get_bind]
  unfold freezeStep
  cases T.shape t <;> rfl

/-- A type without references at its head is made readonly by its shape, now and later. -/
theorem Concludes.freeze (hT : T.Resolved) (ht : T.Has t) (hclosed : Ty.hasOpenHead T t = false)
    {Q : Table → Ty → Prop}
    (h : Typing.Concludes T (fun d => freezeStep (Ty.readonlyAt Ty.resolve d) t (T.shape t)) Q) :
    Typing.Concludes T (fun d => Ty.readonlyAt Ty.resolve d t) Q := by
  refine h.step hT fun V hV d n => ?_
  rw [readonlyAt_closed ((Ty.hasOpenHead_of_le hT.truthful.sound.wellFormed hV ht).trans hclosed),
    shape_of_le hV ht]

theorem Covers.of_le (h : T.Covers name t) (hT : T.Sound) (hle : T ≤ T1) : T1.Covers name t := by
  have hwf := hT.wellFormed
  induction h with
  | @container t h =>
    have hhas : T.Has t := has_of_shape fun hs => by simp [hs, Shape.covers] at h
    exact .container (shape_of_le hle hhas ▸ h)
  | @union t m ms h hm _ ih =>
    exact .union ((shape_of_le hle (has_of_shape (by simp [h]))).trans h) hm ih
  | @intersection t m ms f h hclosed hm hfound _ ih =>
    have hhas : T.Has t := has_of_shape (by simp [h])
    exact .intersection ((shape_of_le hle hhas).trans h)
      ((Ty.hasOpenHead_of_le hwf hle hhas).trans hclosed) hm (hfound.of_le hle) ih
  | @resolved t r h hr _ ih =>
    have hhas : T.Has t := has_of_shape fun hs => by simp [Ty.hasOpenHead, hs] at h
    exact .resolved ((Ty.hasOpenHead_of_le hwf hle hhas).trans h) (hr.of_le hT hhas hle) ih

/-! ### One case for each kind of type -/

section Members

variable {V : Table} {as : List (Option Field)} {fs : List Field} {a b : Option Field}

end Members

/-! ### Making a type readonly hardens it -/

end Hardening

end Table

open Table

/-- What an access finds says whether the property may be written. -/
theorem Table.Sees.isReadonlyProperty {name : String}
    (h : T.Sees name t (some g)) : Typing.Fixed T (t.isReadonlyProperty name) g.readonly := by
  obtain ⟨k, hrun⟩ := h.stable
  refine fun U _ hU => ⟨k, fun n hn => ?_⟩
  have hfound : t.property? name n U = some (some g, U) := hrun U hU n n hn hn
  rw [Ty.isReadonlyProperty, bind_of_some hfound]
  rfl

namespace Table

/-- A table with an alias for a tuple of one text, a reference to it, and an object with a text in
the place of the same name. -/
def rowing : Table :=
  let T := ((Construction.tuple { slots := [{ type := .string }] }).run {}).2
  let T := (Alias.define "Row" [] (.made 0) T).2
  let T := ((Construction.reference "Row" []).run T).2
  ((Construction.object { fields := [{ name := "0", type := .string }] }).run T).2

/-- The same table with the union of the two, and the alias resolved. -/
def rows : Table :=
  match Alias.resolveAll 9 (rowing.push
    ⟨.union [.made 1, .made 2], "U:65,66", "Row | \x7b 0: string \x7d"⟩) with
  | some (_, T) => T
  | none => {}

end Table

namespace Table

theorem Prepared.object (h : T.Prepared) (m : Members)
    (hm : ∀ t ∈ (Shape.object m).parts, T.Has t) : ((Construction.object m).run T).2.Prepared :=
  h.call (.construct (.object m) hm trivial)

theorem Prepared.array (h : T.Prepared) (ht : T.Has t) (readonly : Bool) :
    ((Construction.array t readonly).run T).2.Prepared :=
  h.call (.construct (.array t readonly) (by simpa [Construction.inputs] using ht) trivial)

/-- A table is resolved where there is nothing to resolve. -/
theorem Prepared.resolved (h : T.Prepared) (hnone : T.aliases = []) : T.Resolved :=
  .start h (Alias.resolveAll_of_undefined hnone 0)

/-- Objects with index signatures of both kinds, an object and an array made of them, and these two
readonly. -/
def indexing : Table :=
  let T := ((Construction.object { index := some { key := .string, value := .number } }).run {}).2
  let T := ((Construction.object { index := some { key := .number, value := .string } }).run T).2
  let T := ((Construction.object { fields := [{ name := "0", type := .made 0 }] }).run T).2
  let T := ((Construction.array (.made 1) false).run T).2
  let T := ((Construction.array (.made 1) true).run T).2
  let marked : Field := { name := "0", type := .made 0, readonly := true }
  ((Construction.object { fields := [marked] }).run T).2

/-- The same table with the intersection of the object and the array. -/
def indexed : Table :=
  indexing.push ⟨.intersection [.made 2, .made 3], "I:66,67",
    "\x7b 0: \x7b [key: string]: number \x7d \x7d & \x7b [key: number]: string \x7d[]"⟩

/-- Objects that differ in a mark only, and an object whose index signature has another key. -/
def marking : Table :=
  let index : Index := { key := .string, value := .number }
  let field : Field := { name := "0", type := .number }
  let T := ((Construction.object { fields := [field], index := some index }).run {}).2
  let marked : Field := { field with readonly := true }
  let T := ((Construction.object { fields := [marked], index := some index }).run T).2
  ((Construction.object { index := some { key := .number, value := .string } }).run T).2

/-- The same table with the union of the first two. -/
def marked : Table :=
  marking.push ⟨.union [.made 0, .made 1], "U:64,65",
    "\x7b 0: number; [key: string]: number \x7d | \x7b readonly 0: number; [key: string]: number \x7d"⟩

end Table

end ShapeCheck
