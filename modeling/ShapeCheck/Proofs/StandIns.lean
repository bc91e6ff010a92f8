import ShapeCheck.Proofs.Layers

/-!
# What stands in for a type

A type parameter is compared by its bound, an enum member by its value, and an enum by the union of
its values, but only once the target has been taken apart. So these types need not fit what their
stand-ins fit: of a target that is a union one member has to take the type as a whole, and a target
may have a rule of its own for the stand-in.

* `Ty.accepts_parameter` is the result for type parameters, where the target shows no union and no
  intersection.
* `Ty.accepts_enum` is the result for enums, where the target shows no union, and for enum members,
  where it may.
-/

namespace ShapeCheck

open Table

variable {R : Table → Ty → Ty → Prop} {T : Table} {ms : List Ty}

namespace Shape

/-- The shape is a union or an intersection. -/
def IsCombined (s : Shape) : Prop := ∃ ms, s = .union ms ∨ s = .intersection ms

/-- The shape is an enum or a member of one. -/
def IsEnumerated (s : Shape) : Prop :=
  (∃ e, s = .enumeration e) ∨ ∃ enum name value, s = .enumMember enum name value

theorem isTaken_or (s : Shape) :
    s.isTaken = true ∨ s.isReference = true ∨ s.IsCombined ∨ s.IsEnumerated := by
  cases s with
  | union ms => exact .inr (.inr (.inl ⟨ms, .inl rfl⟩))
  | intersection ms => exact .inr (.inr (.inl ⟨ms, .inr rfl⟩))
  | reference => exact .inr (.inl rfl)
  | enumeration e => exact .inr (.inr (.inr (.inl ⟨e, rfl⟩)))
  | enumMember enum name value => exact .inr (.inr (.inr (.inr ⟨enum, name, value, rfl⟩)))
  | _ => exact .inl rfl

end Shape

namespace Table

/-- A type of the kind comes up when a type is taken apart: the type itself is of the kind, a member
of it shows one, or what it resolves to at some time. -/
inductive Shows (kind : Shape → Prop) : Table → Ty → Prop
  | shape {T : Table} {t : Ty} (h : kind (T.shape t)) : Shows kind T t
  | member {T : Table} {t m : Ty} (hm : m ∈ T.combined t) (h : Shows kind T m) : Shows kind T t
  | resolved {T T1 T2 : Table} {t r : Ty} {n : Nat} (hT1 : T1.Sound) (hle : T ≤ T1)
    (hrun : t.resolve n T1 = some (r, T2)) (h : Shows kind T2 r) : Shows kind T t

section Showing

variable {kind : Shape → Prop} {T1 : Table} {t r m : Ty} {n : Nat}

theorem combined_of_le (hle : T ≤ T1) (ht : T.Has t) : T1.combined t = T.combined t := by
  unfold combined
  rw [shape_of_le hle ht]

/-- What a type shows later it shows from the start. -/
theorem Shows.of_le (h : T1.Shows kind t) (hT : T.WellFormed) (ht : T.Has t) (hle : T ≤ T1) :
    T.Shows kind t := by
  induction h generalizing T with
  | shape h => exact .shape (shape_of_le hle ht ▸ h)
  | member hm _ ih =>
    rw [combined_of_le hle ht] at hm
    exact .member hm (ih hT (Assign.has_combined hT ht hm) hle)
  | resolved hT1 hle' hrun h => exact .resolved hT1 (hle.trans hle') hrun h

/-- A type that is compared part by part shows itself only. -/
theorem shows_of_isPlain (h : T.Shows kind t) (hT : T.WellFormed) (ht : T.Has t)
    (hplain : (T.shape t).isPlain = true) : kind (T.shape t) := by
  induction h with
  | shape h => exact h
  | @member T t _ hm =>
    unfold combined at hm
    cases hs : T.shape t <;> simp_all [Shape.isPlain]
  | @resolved T T1 _ t _ n hT1 hle hrun h ih =>
    have hsame := shape_of_le hle ht
    rw [Ty.resolve_closed n (Ty.hasOpenHead_of_isPlain (hsame ▸ hplain))] at hrun
    obtain ⟨rfl, rfl⟩ := Prod.mk.inj (Option.some.inj hrun)
    rw [← hsame]
    exact ih hT1.wellFormed (has_of_le hle ht) (hsame ▸ hplain)

/-- A target that shows no union, no intersection and no enum is taken as it is, or is a
reference. -/
theorem isTaken_of_not_shows (hcombined : ¬T.Shows Shape.IsCombined t)
    (henum : ¬T.Shows Shape.IsEnumerated t) (href : (T.shape t).isReference = false) :
    (T.shape t).isTaken = true := by
  rcases Shape.isTaken_or (T.shape t) with h | h | h | h
  · exact h
  · simp [href] at h
  · exact absurd (.shape h) hcombined
  · exact absurd (.shape h) henum

end Showing

end Table

namespace Assign

/-! ## Type parameters -/

/-- The target is one that the source fits, or what such a target stands for, perhaps in several
steps. -/
inductive Through (T : Table) (s : Ty) : Ty → Prop
  | lasts {t : Ty} (h : Lasts T s t) : Through T s t
  | resolved {t r : Ty} (h : Through T s t) (ht : (T.shape t).isReference = true)
    (hr : T.ResolvesTo t r) (hne : r ≠ .never) : Through T s r

section Through

variable {T1 : Table} {s t r : Ty} {n : Nat}

theorem has_of_isReference (h : (T.shape t).isReference = true) : T.Has t := by
  refine Table.has_of_shape fun hs => ?_
  simp [hs, Shape.isReference] at h

theorem Through.of_le (h : Through T s t) (hT : T.Sound) (hle : T ≤ T1) : Through T1 s t := by
  induction h with
  | lasts h => exact .lasts (h.of_le hle)
  | resolved _ ht hr hne ih =>
    have hhas := has_of_isReference ht
    exact .resolved ih (Table.shape_of_le hle hhas ▸ ht) (hr.of_le hT hhas hle) hne

/-- A source that is no reference fits what the targets stand for. -/
theorem Through.fits (h : Through T s t) (hT : T.Sound) (hs : (T.shape s).isReference = false) :
    Lasts T s t := by
  induction h with
  | lasts h => exact h
  | resolved _ ht hr _ ih => exact ih.resolved hT hs ht hr

/-- A reference as the source is resolved before the target is. -/
theorem Through.source (h : Through T s t) (hT : T.Sound) (hs : (T.shape s).isReference = true)
    (hrun : ∀ m, n ≤ m → s.resolve m T = some (r, T1)) (hle : T ≤ T1) (hr : T1.ResolvesTo s r) :
    s = t ∨ Through T1 r t := by
  have hhas := has_of_isReference hs
  obtain ⟨i, rfl⟩ := exists_made_of_isReference hs
  induction h with
  | @lasts t h =>
    by_cases hne : .made i = t
    · exact .inl hne
    refine .inr (.lasts ?_)
    cases hid : byIdentity (.made i) t with
    | none => exact (unfolds_source hid hs hrun).mp (h.unfolds hT fun _ _ _ => id)
    | some b =>
      cases b with
      | false => exact absurd hid (h.not_false hT)
      | true => exact lasts_of_byIdentity (byIdentity_made_true hid hne r) T1
  | @resolved t r' _ ht hr' hne ih =>
    refine .inr ?_
    have hhas' := has_of_isReference ht
    have hr1 := hr'.of_le hT hhas' hle
    rcases ih with rfl | ih
    · obtain rfl := hr.unique hr1
      exact .lasts (lasts_self T1 r)
    · exact .resolved ih (Table.shape_of_le hle hhas' ▸ ht) hr1 hne

theorem Through.not_false (h : Through T s t) (hT : T.Sound) : byIdentity s t ≠ some false := by
  intro hid
  cases href : (T.shape s).isReference with
  | false => exact (h.fits hT href).not_false hT hid
  | true =>
    cases h with
    | lasts h => exact h.not_false hT hid
    | resolved _ _ _ hne =>
      obtain ⟨i, rfl⟩ := exists_made_of_isReference href
      exact absurd (byIdentity_false hid) (by simp [Ty.unknown, hne])

/-- One layer of the rules confirms that a source fits what its targets stand for. -/
theorem Through.unfolds (h : Through T s t) (hT : T.Sound)
    (hs : T.Has s) (hR : ∀ T s t, Through T s t → R T s t) : Unfolds R T s t := by
  cases hid : byIdentity s t with
  | some b =>
    rw [unfolds_byIdentity hid]
    cases b with
    | true => rfl
    | false => exact absurd hid (h.not_false hT)
  | none =>
    cases href : (T.shape s).isReference with
    | false => exact (h.fits hT href).unfolds hT fun _ _ _ h => hR _ _ _ (.lasts h)
    | true =>
      obtain ⟨n, r, T1, hrun, -, hle, -, hr⟩ := hT.exists_resolvesTo hs
      rw [unfolds_source hid href hrun]
      rcases h.source hT href hrun hle hr with rfl | h
      · simp [byIdentity] at hid
      · exact hR _ _ _ h

end Through

/-- A type parameter whose bound fits a target, or what such a target stands for, that shows no
union, no intersection and no enum. -/
def ByBound (T : Table) (p t : Ty) : Prop :=
  ∃ v, T.shape p = .parameter v ∧ Through T ((T.typeVar v).bound.getD .unknown) t ∧
    ¬T.Shows Shape.IsCombined t ∧ ¬T.Shows Shape.IsEnumerated t ∧
    ¬T.Shows (· = .primitive .never) t

/-- One layer of the rules confirms that a type parameter fits what its bound fits. -/
theorem ByBound.unfolds {p t : Ty} (h : ByBound T p t)
    (hT : T.Sound) (hp : T.Has p) (ht : T.Has t) (hthrough : ∀ T s t, Through T s t → R T s t)
    (hR : ∀ T s t, ByBound T s t → R T s t) : Unfolds R T p t := by
  obtain ⟨v, hv, hbound, hcombined, henum, hnever⟩ := h
  obtain ⟨i, rfl⟩ := exists_made (T := T) (t := p) (by rw [hv]; rfl)
  have hne : t ≠ .never := by
    rintro rfl
    exact hnever (.shape rfl)
  rcases byIdentity_made (i := i) hne with hid | hid
  · exact (unfolds_byIdentity hid).mpr rfl
  cases href : (T.shape t).isReference with
  | true =>
    obtain ⟨n, r, T1, hrun, -, hle, -, hr⟩ := hT.exists_resolvesTo ht
    rw [unfolds_target hid (by rw [hv]; rfl) href hrun]
    have hkeep {kind : Shape → Prop} (hno : ¬T.Shows kind t) : ¬T1.Shows kind r := fun h =>
      hno (.resolved hT (le_refl T) (hrun n (Nat.le_refl n)) h)
    have hrne : r ≠ .never := by
      rintro rfl
      exact hkeep hnever (.shape rfl)
    have hvar := typeVar_of_le hle (knows_of_shape hT.wellFormed hv)
    refine hR _ _ _ ⟨v, (Table.shape_of_le hle hp).trans hv, ?_, hkeep hcombined, hkeep henum,
      hkeep hnever⟩
    rw [hvar]
    exact .resolved (hbound.of_le hT hle) (Table.shape_of_le hle ht ▸ href) hr hrne
  | false =>
    rw [unfolds_parameter hid (Table.isTaken_of_not_shows hcombined henum href) hv]
    exact hthrough _ _ _ hbound

end Assign

/-- **A type parameter fits what its bound fits**, from the answer on, if the target shows no union,
no intersection, no enum and no `never`. -/
theorem Ty.accepts_parameter {T T1 T2 : Table} (h : T.Resolved) {p t : Ty} {v : TypeVar}
    (hp : T.shape p = .parameter v) (ht : T.Has t) (hcombined : ¬T.Shows Shape.IsCombined t)
    (henum : ¬T.Shows Shape.IsEnumerated t) (hnever : ¬T.Shows (· = .primitive .never) t) {n : Nat}
    (hrun : ((T.typeVar v).bound.getD .unknown).isAssignableTo t n T = some (true, T1))
    (hcalls : Relation.ReflTransGen Table.Called T1 T2) : T2.Accepts p t := by
  have hT := h.truthful.sound
  have hhas : T.Has p := Table.has_of_shape (by rw [hp]; simp)
  have hknown := Assign.knows_of_shape hT.wellFormed hp
  have hbound := Assign.has_bound hT.wellFormed hknown
  have hlasts := h.lasts_of_true hbound ht hrun
  have hle := (h.truthful.asked hbound ht hrun).1.le
  have h1 := h.call (.assignable hbound ht hrun)
  refine h1.accepts (Table.has_of_le hle hhas) (Table.has_of_le hle ht) (fun U hU hleU => ?_) hcalls
  have hleU' := hle.trans hleU
  have hkeep {kind : Shape → Prop} (hno : ¬T.Shows kind t) : ¬U.Shows kind t := fun hshows =>
    hno (hshows.of_le hT.wellFormed ht hleU')
  refine ⟨fun T a b => Assign.Through T a b ∨ Assign.ByBound T a b, ?_, .inr ?_⟩
  · rintro T a b hT ha hb (hab | hab)
    · exact hab.unfolds hT ha fun _ _ _ => .inl
    · exact hab.unfolds hT ha hb (fun _ _ _ => .inl) fun _ _ _ => .inr
  · refine ⟨v, (Table.shape_of_le hleU' hhas).trans hp, ?_, hkeep hcombined, hkeep henum,
      hkeep hnever⟩
    rw [typeVar_of_le hleU' hknown]
    exact .lasts (hlasts.of_le hleU)

namespace Table

/-- A new type parameter with the given bound. -/
def bounding (b : Ty) (T : Table) : Ty × Table :=
  Ty.parameterOf ⟨T.typeVars.size⟩ (Ty.newTypeVar { name := "T", bound := some b } T).2

theorem Prepared.bounding {T : Table} {b : Ty} (h : T.Prepared) (hb : T.Has b) :
    (bounding b T).2.Prepared :=
  h.declaring { name := "T", bound := some b } (by simpa using hb) (by simp)

/-- A table with a type parameter bounded by `string` and the objects that have a length. -/
def measuring : Table := (lengthObject.run (bounding .string {}).2).2

theorem resolved_measuring : (Alias.freeze measuring).2.Resolved := by
  have h : (bounding .string {}).2.Prepared := Prepared.bounding .empty (has_prim _ _)
  have h1 : measuring.Prepared :=
    h.call (.construct lengthObject (by simp [lengthObject, Construction.inputs, Shape.parts])
    trivial)
  exact h1.frozen (by with_unfolding_all decide)

/-- A new union of members that are what counts and stand in order. -/
theorem Prepared.push_union (h : T.Prepared) {key text : String}
    (hms : ∀ m ∈ ms, T.Has m) (hmembers : Ty.unionMembers T ms = ms) (hlength : ms.length ≠ 1)
    (hordered : ms.Pairwise fun a b => T.inOrder a b = true) (hkey : (Shape.union ms).key = key)
    (hnew : T.find? key = none) (htext : T.shapeText (.union ms) = text) :
    (T.push ⟨.union ms, key, text⟩).Prepared := by
  have hcall := h.call (.construct (.union ms) hms trivial)
  rwa [Construction.run, Interning.unionOf_new hmembers hlength hordered hkey hnew, htext] at hcall

/-- The union of numbers and strings, alone in a table. -/
def uniting : Table := ({} : Table).push ⟨.union [.number, .string], "U:1,2", "number | string"⟩

theorem prepared_uniting : uniting.Prepared := by
  -- `decide` has to open the sorting of the members, which goes by well-founded recursion
  obtain ⟨hmembers, hordered, hnew, htext⟩ :
      Ty.unionMembers {} [.number, .string] = [.number, .string] ∧
      [Ty.number, .string].Pairwise (fun a b => ({} : Table).inOrder a b = true) ∧
      ({} : Table).find? "U:1,2" = none ∧
      ({} : Table).shapeText (.union [.number, .string]) = "number | string" := by
    with_unfolding_all decide
  exact Prepared.empty.push_union (by simp [Ty.number, Ty.string]) hmembers (by decide) hordered
    (Shape.key_union_ordered (by decide)) hnew htext

end Table

/-- A type parameter that is bounded by `string` has a length. -/
theorem Ty.accepts_parameter_length : ∃ T : Table,
    T.Accepts (Table.bounding .string {}).1 (lengthObject.run (Table.bounding .string {}).2).1 := by
  let T := (Alias.freeze Table.measuring).2
  let t := (lengthObject.run (Table.bounding .string {}).2).1
  obtain ⟨hp, ht⟩ : T.shape (Table.bounding .string {}).1 = .parameter ⟨0⟩ ∧
      T.shape t = .object { fields := [{ name := "length", type := .number }] } := by
    with_unfolding_all decide
  have hhas : T.Has t := Table.has_of_shape (by simp [ht])
  have hshows {kind : Shape → Prop} (hno : ¬kind (T.shape t)) : ¬T.Shows kind t := fun h =>
    hno (Table.shows_of_isPlain h Table.resolved_measuring.truthful.sound.wellFormed hhas
      (by rw [ht]; rfl))
  have hrun : ((((T.typeVar ⟨0⟩).bound.getD .unknown).isAssignableTo t 9 T).map Prod.fst) =
      some true := by with_unfolding_all decide
  obtain ⟨⟨_, T1⟩, hrun, rfl⟩ := Option.map_eq_some_iff.mp hrun
  refine ⟨T1, accepts_parameter Table.resolved_measuring hp hhas (hshows ?_) (hshows ?_) (hshows ?_)
    hrun .refl⟩
  · simp [ht, Shape.IsCombined]
  · simp [ht, Shape.IsEnumerated]
  · simp [ht]

/-- **A type parameter need not fit what its bound fits**: one that is bounded by numbers or strings
fits neither, and so not their union. -/
theorem Ty.not_accepts_parameter_union : ∃ (T : Table) (p t : Ty) (v : TypeVar), T.Resolved ∧
    T.shape p = .parameter v ∧
    (((T.typeVar v).bound.getD .unknown).isAssignableTo t 9 T).map Prod.fst = some true ∧
    (p.isAssignableTo t 9 T).map Prod.fst = some false := by
  refine ⟨(Alias.freeze (Table.bounding (.made 0) Table.uniting).2).2, .made 1, .made 0, ⟨0⟩,
    Table.Prepared.frozen (Table.prepared_uniting.bounding ?_) ?_, ?_⟩
  · exact Table.has_of_shape (by with_unfolding_all decide)
  · with_unfolding_all decide
  · with_unfolding_all decide

namespace Assign

/-! ## Enum members -/

variable {T1 : Table} {s t r u m : Ty}

theorem isPlain_of_literal? (h : (T.literal? t).isSome = true) : (T.shape t).isPlain = true := by
  unfold Table.literal? at h
  cases hs : T.shape t <;> simp_all [Shape.isPlain]

/-- An enum member whose value fits a target that shows no enum. -/
def ByValue (T : Table) (s t : Ty) : Prop :=
  ∃ enum name v, T.shape s = .enumMember enum name v ∧ Lasts T v t ∧
    ¬T.Shows Shape.IsEnumerated t

/-- Only a primitive fits `never`. -/
theorem Lasts.of_never (h : Lasts T s .never) (hT : T.Sound) : ∃ p, s = .prim p := by
  have hid : byIdentity s .never = some true := by
    cases hid : byIdentity s .never with
    | none =>
      unfold byIdentity at hid
      split_ifs at hid
      contradiction
    | some b =>
      cases b with
      | true => rfl
      | false => exact absurd hid (h.not_false hT)
  rw [byIdentity_true] at hid
  rcases hid with rfl | rfl | hid | rfl | hid | hid | rfl
  all_goals first
    | exact ⟨_, rfl⟩
    | exact absurd hid (by decide)

/-- A literal that fits a union fits a member of it. -/
theorem Lasts.unionMember {l : Literal} (h : Lasts T s t) (hT : T.Sound)
    (hs : T.shape s = .literal l) (ht : T.shape t = .union ms) : ∃ m ∈ ms, Lasts T s m := by
  have hplain : (T.shape s).isPlain = true := by rw [hs]; rfl
  have hprim : ∀ p, s ≠ .prim p := by
    rintro p rfl
    simp [Table.shape] at hs
  have hid : byIdentity s t = none := by
    cases hid : byIdentity s t with
    | none => rfl
    | some b =>
      cases b with
      | false => exact absurd hid (h.not_false hT)
      | true =>
        rw [byIdentity_true] at hid
        rcases hid with rfl | rfl | rfl | rfl | rfl | rfl | rfl <;> simp_all [Table.shape]
  rcases (unfolds_targetUnion hid (Ty.hasOpenHead_of_isPlain hplain) (not_isUnion_of_isPlain hplain)
    ht).mp (h.unfolds hT fun _ _ _ => id) with ⟨rfl, -⟩ | hm
  · exact absurd rfl (hprim .boolean)
  · exact hm

/-- One layer of the rules confirms that an enum member fits what its value fits. -/
theorem ByValue.unfolds (h : ByValue T s t) (hT : T.Sound) (hs : T.Has s) (ht : T.Has t)
    (hlasts : ∀ T s t, Lasts T s t → R T s t) (hR : ∀ T s t, ByValue T s t → R T s t) :
    Unfolds R T s t := by
  obtain ⟨enum, name, v, hv, hfits, hshows⟩ := h
  obtain ⟨hhas, hliteral⟩ := value_spec hT.wellFormed hs (by rw [Ty.enumValue?, hv])
  have hplain := isPlain_of_literal? hliteral
  obtain ⟨l, hl⟩ : ∃ l, T.shape v = .literal l :=
    ⟨_, shape_of_literal? (Option.some_get hliteral).symm⟩
  obtain ⟨i, rfl⟩ := exists_made (T := T) (t := s) (by rw [hv]; rfl)
  have hne : t ≠ .never := by
    rintro rfl
    obtain ⟨p, rfl⟩ := hfits.of_never hT
    simp [Table.shape] at hl
  rcases byIdentity_made (i := i) hne with hid | hid
  · exact (unfolds_byIdentity hid).mpr rfl
  have hclosed : Ty.hasOpenHead T (.made i) = false := by rw [Ty.hasOpenHead, hv]
  have hnoref : (T.shape (.made i)).isReference = false := by rw [hv]; rfl
  have hnounion : ¬(T.shape (.made i)).IsUnion := by simp [hv, Shape.IsUnion]
  cases htarget : T.shape t with
  | reference a b =>
    have href : (T.shape t).isReference = true := by rw [htarget]; rfl
    obtain ⟨n, r, T1, hrun, hT1, hle, -, hr⟩ := hT.exists_resolvesTo ht
    rw [unfolds_target hid hnoref href hrun]
    refine hR _ _ _ ⟨enum, name, v, (Table.shape_of_le hle hs).trans hv, ?_, fun h => hshows ?_⟩
    · refine (hfits.of_le hle).resolved hT1 ?_ (Table.shape_of_le hle ht ▸ href) hr
      rw [Table.shape_of_le hle hhas]
      exact not_isReference_of_isPlain hplain
    · exact .resolved hT (le_refl T) (hrun n (Nat.le_refl n)) h
  | union ms =>
    rw [unfolds_targetUnion hid hclosed hnounion htarget]
    obtain ⟨m, hm, hfitsm⟩ := hfits.unionMember hT hl htarget
    refine .inr ⟨m, hm, hR _ _ _ ⟨enum, name, v, hv, hfitsm, fun h => hshows (.member ?_ h)⟩⟩
    rw [mem_combined_union htarget]
    exact hm
  | intersection ms =>
    rw [unfolds_targetIntersection hid hclosed hnounion htarget]
    intro m hm
    refine hR _ _ _ ⟨enum, name, v, hv, hfits.targetMember hT hplain htarget hm,
      fun h => hshows (.member ?_ h)⟩
    rw [mem_combined_intersection htarget]
    exact hm
  | enumeration e => exact absurd (.shape (.inl ⟨e, htarget⟩)) hshows
  | enumMember a b c => exact absurd (.shape (.inr ⟨a, b, c, htarget⟩)) hshows
  | _ =>
    rw [unfolds_enumMember hid (by rw [htarget]; rfl) hv]
    exact hlasts _ _ _ hfits

/-! ## Enums -/

/-- The union of the values of an enum is known, its members are literals or a primitive, and it
stays the union of the values. -/
theorem valueUnion_spec {e : Enumeration} (hT : T.WellFormed) (hs : T.shape s = .enumeration e)
    (hu : Ty.valueUnion e T = (u, T)) : T.Has u ∧ (∀ m ∈ T.members u, (T.shape m).isPlain = true) ∧
      ∀ T1, T ≤ T1 → Ty.valueUnion e T1 = (u, T1) := by
  obtain ⟨u', T', hat, hhas, hplain⟩ := settles_valueUnion hT (has_enumMembers hT hs)
  obtain ⟨rfl, rfl⟩ := Prod.mk.inj (hu.symm.trans hat.result)
  exact ⟨hhas, hplain, hat.again⟩

/-- The union of the values of an enum fits a target, or its members do. -/
def ValuesFit (T : Table) (u t : Ty) : Prop := Lasts T u t ∨ ∀ m ∈ T.members u, Lasts T m t

/-- An enum whose values fit a target that shows no union and no enum. -/
def ByValues (T : Table) (s t : Ty) : Prop :=
  ∃ e u, T.shape s = .enumeration e ∧ Ty.valueUnion e T = (u, T) ∧ ValuesFit T u t ∧
    ¬T.Shows Shape.IsUnion t ∧ ¬T.Shows Shape.IsEnumerated t ∧ ¬T.Shows (· = .primitive .never) t

/-- A union whose members fit a target, which is neither a reference nor `never`. -/
def ByMembers (T : Table) (s t : Ty) : Prop :=
  ∃ ms, T.shape s = .union ms ∧ (∀ m ∈ ms, Lasts T m t) ∧
  (T.shape t).isReference = false ∧ t ≠ .never

theorem ByMembers.unfolds (h : ByMembers T s t) (hlasts : ∀ T s t, Lasts T s t → R T s t) :
    Unfolds R T s t := by
  obtain ⟨ms, hms, hfits, href, hne⟩ := h
  obtain ⟨i, rfl⟩ := exists_made (T := T) (t := s) (by rw [hms]; rfl)
  rcases byIdentity_made (i := i) hne with hid | hid
  · exact (unfolds_byIdentity hid).mpr rfl
  · rw [unfolds_sourceUnion hid hms href]
    exact fun m hm => hlasts _ _ _ (hfits m hm)

/-- The values fit a target one by one, once it is no reference and no union. -/
theorem ValuesFit.each (h : ValuesFit T u t) (hT : T.Sound) (href : (T.shape t).isReference = false)
    (hunion : ¬(T.shape t).IsUnion) : ∀ m ∈ T.members u, Lasts T m t := by
  rcases h with h | h
  · intro m hm
    by_cases hu : (T.shape u).IsUnion
    · obtain ⟨ms, hms⟩ := hu
      refine h.sourceMember hT hms href ?_ ?_
      · rintro rfl
        exact hunion ⟨ms, hms⟩
      · simpa [members_of_union hms] using hm
    · obtain rfl : m = u := by
        unfold Table.members at hm
        split at hm
        · next ms hms => exact absurd ⟨ms, hms⟩ hu
        · exact List.mem_singleton.mp hm
      exact h
  · exact h

/-- The values of an enum fit what the target stands for. -/
theorem ValuesFit.resolved (h : ValuesFit T u t) (hT : T.Sound)
    (hplain : ∀ m ∈ T.members u, (T.shape m).isPlain = true)
    (ht : (T.shape t).isReference = true) (hr : T.ResolvesTo t r) : ValuesFit T u r := by
  have hu : (T.shape u).isReference = false := by
    unfold Table.members at hplain
    split at hplain
    · next hs => rw [hs]; rfl
    · exact not_isReference_of_isPlain (hplain u (by simp))
  exact h.imp (fun h => h.resolved hT hu ht hr) fun h m hm =>
    (h m hm).resolved hT (not_isReference_of_isPlain (hplain m hm)) ht hr

theorem ValuesFit.of_le (h : ValuesFit T u t) (hu : T.Has u) (hle : T ≤ T1) : ValuesFit T1 u t := by
  refine h.imp (fun h => h.of_le hle) fun h m hm => (h m ?_).of_le hle
  rwa [members_of_le hle hu] at hm

/-- One layer of the rules confirms that an enum fits what its values fit. -/
theorem ByValues.unfolds (h : ByValues T s t) (hT : T.Sound) (hs : T.Has s) (ht : T.Has t)
    (hlasts : ∀ T s t, Lasts T s t → R T s t) (hmembers : ∀ T s t, ByMembers T s t → R T s t)
    (hR : ∀ T s t, ByValues T s t → R T s t) : Unfolds R T s t := by
  obtain ⟨e, u, he, hu, hfits, hunion, henum, hnever⟩ := h
  obtain ⟨hhas, hplain, hagain⟩ := valueUnion_spec hT.wellFormed he hu
  obtain ⟨i, rfl⟩ := exists_made (T := T) (t := s) (by rw [he]; rfl)
  have hne : t ≠ .never := by
    rintro rfl
    exact hnever (.shape rfl)
  rcases byIdentity_made (i := i) hne with hid | hid
  · exact (unfolds_byIdentity hid).mpr rfl
  cases href : (T.shape t).isReference with
  | true =>
    obtain ⟨n, r, T1, hrun, hT1, hle, -, hr⟩ := hT.exists_resolvesTo ht
    rw [unfolds_target hid (by rw [he]; rfl) href hrun]
    have hkeep {kind : Shape → Prop} (hno : ¬T.Shows kind t) : ¬T1.Shows kind r := fun h =>
      hno (.resolved hT (le_refl T) (hrun n (Nat.le_refl n)) h)
    refine hR _ _ _ ⟨e, u, (Table.shape_of_le hle hs).trans he, hagain T1 hle, ?_, hkeep hunion,
      hkeep henum, hkeep hnever⟩
    refine (hfits.of_le hhas hle).resolved hT1 (fun m hm => ?_) (Table.shape_of_le hle ht ▸ href) hr
    rw [members_of_le hle hhas] at hm
    rw [Table.shape_of_le hle (hT.wellFormed.has_member hhas hm)]
    exact hplain m hm
  | false =>
    have heach := hfits.each hT href fun h => hunion (.shape h)
    by_cases htaken : (T.shape t).isTaken = true
    · rw [unfolds_enumeration hid htaken he hu]
      by_cases hone : ∃ ms, T.shape u = .union ms
      · obtain ⟨ms, hms⟩ := hone
        refine hmembers _ _ _ ⟨ms, hms, fun m hm => heach m ?_, href, hne⟩
        simpa [members_of_union hms] using hm
      · refine hlasts _ _ _ (heach u ?_)
        unfold Table.members
        split
        · next ms hms => exact absurd ⟨ms, hms⟩ hone
        · exact List.mem_singleton_self u
    · obtain ⟨ms, hms⟩ : ∃ ms, T.shape t = .intersection ms := by
        rcases Shape.isTaken_or (T.shape t) with h | h | ⟨ms, h | h⟩ | h
        · exact absurd h htaken
        · simp [href] at h
        · exact absurd (.shape ⟨ms, h⟩) hunion
        · exact ⟨ms, h⟩
        · exact absurd (.shape h) henum
      rw [unfolds_targetIntersection hid (by rw [Ty.hasOpenHead, he])
        (by simp [he, Shape.IsUnion]) hms]
      intro m hm
      have hshown {kind : Shape → Prop} (hno : ¬T.Shows kind t) : ¬T.Shows kind m := fun h =>
        hno (.member (by rw [mem_combined_intersection hms]; exact hm) h)
      exact hR _ _ _ ⟨e, u, he, hu, .inr fun k hk =>
        (heach k hk).targetMember hT (hplain k hk) hms hm,
        hshown hunion, hshown henum, hshown hnever⟩

end Assign

/-- **Enums fit what their values fit**, from the answer on. A member fits if its value does, and
the target shows no enum. An enum does if the union of its values does, and the target also shows no
union and no `never`. -/
theorem Ty.accepts_enum {T T1 T2 : Table} (h : T.Resolved) {s t : Ty} (ht : T.Has t)
    (henum : ¬T.Shows Shape.IsEnumerated t) {n : Nat}
    (hcalls : Relation.ReflTransGen Table.Called T1 T2) :
    (∀ enum name v, T.shape s = .enumMember enum name v →
      v.isAssignableTo t n T = some (true, T1) → T2.Accepts s t) ∧
    ∀ e, T.shape s = .enumeration e → ¬T.Shows Shape.IsUnion t →
      ¬T.Shows (· = .primitive .never) t →
      (do (← Ty.valueUnion e).isAssignableTo t : Typing Bool) n T = some (true, T1) →
        T2.Accepts s t := by
  have hT := h.truthful.sound
  have hclosed {U : Table} {a b : Ty} (hab : Assign.ByValue U a b ∨ Assign.ByValues U a b ∨
      Assign.ByMembers U a b) : Assign.Holds U a b := by
    refine Assign.holds_of_upTo (R := fun T a b => Assign.ByValue T a b ∨ Assign.ByValues T a b ∨
      Assign.ByMembers T a b) (fun T a b hT ha hb h => ?_) hab
    rcases h with h | h | h
    · exact h.unfolds hT ha hb (fun _ _ _ => .inr) fun _ _ _ h => .inl (.inl h)
    · exact h.unfolds hT ha hb (fun _ _ _ => .inr) (fun _ _ _ h => .inl (.inr (.inr h)))
        fun _ _ _ h => .inl (.inr (.inl h))
    · exact h.unfolds fun _ _ _ => .inr
  have hkeep {kind : Shape → Prop} {U : Table} (hle : T ≤ U) (hno : ¬T.Shows kind t) :
      ¬U.Shows kind t := fun hshows => hno (hshows.of_le hT.wellFormed ht hle)
  constructor
  · intro enum name v hv hrun
    have hs : T.Has s := Table.has_of_shape (by rw [hv]; simp)
    obtain ⟨hvalue, -⟩ := Assign.value_spec hT.wellFormed hs (by rw [Ty.enumValue?, hv])
    have hlasts := h.lasts_of_true hvalue ht hrun
    have hle := (h.truthful.asked hvalue ht hrun).1.le
    have h1 := h.call (.assignable hvalue ht hrun)
    refine h1.accepts (Table.has_of_le hle hs) (Table.has_of_le hle ht) (fun U _ hleU => ?_) hcalls
    have hleU' := hle.trans hleU
    exact hclosed (.inl ⟨enum, name, v, (Table.shape_of_le hleU' hs).trans hv, hlasts.of_le hleU,
      hkeep hleU' henum⟩)
  · intro e he hunion hnever hrun
    have hs : T.Has s := Table.has_of_shape (by rw [he]; simp)
    have hmembers := Assign.has_enumMembers hT.wellFormed he
    obtain ⟨u, Tᵤ, hat, hu, -⟩ := Assign.settles_valueUnion hT.wellFormed hmembers
    have hvalues : ∀ v ∈ (Construction.union (e.members.filterMap (Ty.enumValue? T))).inputs,
      T.Has v := by
      intro v hv
      obtain ⟨m, hm, hmv⟩ := List.mem_filterMap.mp hv
      exact (Assign.value_spec hT.wellFormed (hmembers m hm) hmv).1
    have hᵤ : Tᵤ.Resolved := by
      have hcall := h.call (.construct _ hvalues trivial)
      rwa [show (Construction.union (e.members.filterMap (Ty.enumValue? T))).run T = (u, Tᵤ) from
        hat.result] at hcall
    have hleᵤ := hat.adds.le
    rw [Typing.bind_of_some (Typing.lift_of_eq hat.result n)] at hrun
    have htᵤ := Table.has_of_le hleᵤ ht
    have hlasts := hᵤ.lasts_of_true hu htᵤ hrun
    have hle := hleᵤ.trans (hᵤ.truthful.asked hu htᵤ hrun).1.le
    have h1 := hᵤ.call (.assignable hu htᵤ hrun)
    refine h1.accepts (Table.has_of_le hle hs) (Table.has_of_le hle ht) (fun U _ hleU => ?_) hcalls
    have hleU' := hle.trans hleU
    have hagain := hat.again U ((hᵤ.truthful.asked hu htᵤ hrun).1.le.trans hleU)
    exact hclosed (.inr (.inl ⟨e, u, (Table.shape_of_le hleU' hs).trans he, hagain,
      .inl (hlasts.of_le hleU), hkeep hleU' hunion, hkeep hleU' henum, hkeep hleU' hnever⟩))

theorem Ty.valueUnion_apply (e : Enumeration) (T : Table) :
    Ty.valueUnion e T = Ty.unionOf (e.members.filterMap (Ty.enumValue? T)) T := rfl

namespace Table

/-- The members of an enum with a text and a number for values. -/
def choice : Enumeration := { name := "E", members := [.made 4, .made 5] }

/-- The union of numbers and strings, next to a text and a number. -/
def choices : Table :=
  ((Ty.literalOf (.number (.ofNat 0))) ((Ty.literalOf (.string "b")) uniting).2).2

/-- The same table with the enum and the objects of which nothing is asked. -/
def choosing : Table :=
  (Ty.objectOf {} (Ty.enumOf "E" false [("A", .made 1), ("B", .made 2)] choices).2).2

/-- The same table with the union of the two values, frozen. -/
def chosen : Table :=
  (Alias.freeze (choosing.push ⟨.union [.made 1, .made 2], "U:65,66", "\"b\" | 0"⟩)).2

theorem key_chosen : (Shape.union [.made 1, .made 2]).key = "U:65,66" :=
  Shape.key_union_ordered (by decide)

theorem freshEnum_of_all {name : String}
    (h : T.entries.toList.all fun e => (e.shape matches .enumeration _) = false) :
    T.FreshEnum name := by
  intro n e en he hs
  have := List.all_eq_true.mp h e (Array.mem_toList_iff.mpr (Array.mem_of_getElem? he))
  simp [hs] at this

/-- What is to be computed about the values, before the enum is there. -/
theorem facts_choices : choices.shape (.made 1) ≠ .primitive .invalid ∧
    choices.shape (.made 2) ≠ .primitive .invalid ∧
    (choices.entries.toList.all fun e => (e.shape matches .enumeration _) = false) ∧
    ∀ p ∈ [("A", Ty.made 1), ("B", .made 2)], (choices.literal? p.2).isSome := by
  with_unfolding_all decide

/-- What is to be computed about the union of the values, before it is there. -/
theorem facts_choosing : choosing.shape (.made 1) ≠ .primitive .invalid ∧
    choosing.shape (.made 2) ≠ .primitive .invalid ∧ choosing.aliases = [] ∧
    Ty.unionMembers choosing [.made 1, .made 2] = [.made 1, .made 2] ∧
    [Ty.made 1, .made 2].Pairwise (fun a b => choosing.inOrder a b = true) ∧
    choosing.find? "U:65,66" = none ∧
    choosing.shapeText (.union [.made 1, .made 2]) = "\"b\" | 0" := by
  with_unfolding_all decide

theorem resolved_chosen : chosen.Resolved := by
  obtain ⟨h1, h2, hfresh, hvalues⟩ := facts_choices
  obtain ⟨h3, h4, hnone, hmembers, hordered, hnew, htext⟩ := facts_choosing
  have hchoices : choices.Prepared :=
    .call (prepared_uniting.call (.construct (.literal (.string "b"))
    (by simp [Construction.inputs])
      trivial)) (.construct (.literal (.number (.ofNat 0))) (by simp [Construction.inputs]) trivial)
  have henum := hchoices.call (.construct (.enumeration "E" false [("A", .made 1), ("B", .made 2)])
    (Interning.forall_mem_pair (has_of_shape h1) (has_of_shape h2))
    ⟨freshEnum_of_all hfresh, hvalues⟩)
  have hchoosing : choosing.Prepared :=
    henum.call (.construct (.object {}) (by simp [Construction.inputs, Shape.parts]) trivial)
  exact (hchoosing.push_union (Interning.forall_mem_pair (has_of_shape h3)
    (has_of_shape h4)) hmembers
    (by decide) hordered key_chosen hnew htext).frozen hnone

/-- What is to be computed about the finished table. -/
theorem facts_chosen : chosen.frozen = true ∧
    chosen.shape (.made 3) = .enumeration choice ∧
    chosen.shape (.made 4) = .enumMember (.made 3) "A" (.made 1) ∧
    chosen.shape (.made 6) = .object {} ∧ chosen.shape (.made 0) = .union [.number, .string] ∧
    chosen.verdicts = [] ∧
    choice.members.filterMap (Ty.enumValue? chosen) = [.made 1, .made 2] ∧
    Ty.unionMembers chosen [.made 1, .made 2] = [.made 1, .made 2] ∧
    [Ty.made 1, .made 2].Pairwise (fun a b => chosen.inOrder a b = true) ∧
    chosen.find? "U:65,66" = some (.made 7) ∧
    ((Ty.made 7).isAssignableTo (.made 6) 9 chosen).map Prod.fst = some true ∧
    ((Ty.made 1).isAssignableTo (.made 6) 9 chosen).map Prod.fst = some true ∧
    ((Ty.made 7).isAssignableTo (.made 0) 9 chosen).map Prod.fst = some true := by
  with_unfolding_all decide

/-- The two values together are neither numbers nor strings. -/
theorem decideAt_chosen : Assign.decideAt 7 [] (.made 7) .number 9 chosen = some (false, chosen) ∧
    Assign.decideAt 7 [] (.made 7) .string 9 chosen = some (false, chosen) := by
  constructor <;> with_unfolding_all rfl

theorem valueUnion_chosen : Ty.valueUnion choice chosen = (.made 7, chosen) := by
  obtain ⟨-, -, -, -, -, -, hvalues, hmembers, hordered, hfound, -⟩ := facts_chosen
  rw [Ty.valueUnion_apply, hvalues, Interning.unionOf_ordered hmembers (by decide) hordered,
    Interning.intern_apply,
    key_chosen, hfound]

end Table

theorem Table.not_shows_chosen {kind : Shape → Prop} (hno : ¬kind (.object {})) :
    ¬Table.chosen.Shows kind (.made 6) := by
  obtain ⟨-, -, -, ht, -⟩ := facts_chosen
  intro h
  have hkind := shows_of_isPlain h resolved_chosen.truthful.sound.wellFormed
    (has_of_shape (by simp [ht])) (by rw [ht]; rfl)
  exact hno (ht ▸ hkind)

/-- The enum with a text and a number for values, and its first member, are objects. -/
theorem Ty.accepts_enum_object : ∃ T T' : Table, T.Accepts (.made 3) (.made 6) ∧
    T'.Accepts (.made 4) (.made 6) := by
  obtain ⟨-, henum, hmember, ht, -, -, -, -, -, -, hvalues, hvalue, -⟩ := Table.facts_chosen
  obtain ⟨⟨_, T1⟩, hrun1, rfl⟩ := Option.map_eq_some_iff.mp hvalues
  obtain ⟨⟨_, T2⟩, hrun2, rfl⟩ := Option.map_eq_some_iff.mp hvalue
  have hhas : Table.chosen.Has (.made 6) := Table.has_of_shape (by simp [ht])
  have henumerated : ¬Table.chosen.Shows Shape.IsEnumerated (.made 6) :=
    not_shows_chosen (by simp [Shape.IsEnumerated])
  refine ⟨T1, T2, (accepts_enum (n := 9) Table.resolved_chosen hhas henumerated .refl).2 _ henum
    (not_shows_chosen ?_) (not_shows_chosen ?_) ?_,
    (accepts_enum Table.resolved_chosen hhas henumerated .refl).1 _ _ _ hmember hrun2⟩
  · simp [Shape.IsUnion]
  · simp
  · rwa [Typing.bind_of_some (Typing.lift_of_eq Table.valueUnion_chosen 9)]

/-- **An enum need not fit what its values fit**: with a text and a number for values it fits
neither numbers nor strings, and so not their union. -/
theorem Ty.not_accepts_enum_union : ∃ (T : Table) (s t : Ty) (e : Enumeration), T.Resolved ∧
    T.shape s = .enumeration e ∧
    ((do (← Ty.valueUnion e).isAssignableTo t : Typing Bool) 9 T).map Prod.fst = some true ∧
    (s.isAssignableTo t 9 T).map Prod.fst = some false := by
  obtain ⟨-, henum, -, -, ht, hnew, -, -, -, -, -, -, hvalues⟩ := Table.facts_chosen
  obtain ⟨hnumber, hstring⟩ := Table.decideAt_chosen
  refine ⟨Table.chosen, .made 3, .made 0, Table.choice, Table.resolved_chosen, henum, ?_, ?_⟩
  · rwa [Typing.bind_of_some (Typing.lift_of_eq Table.valueUnion_chosen 9)]
  · have hclosed : Ty.hasOpenHead Table.chosen (.made 3) = false := by rw [Ty.hasOpenHead, henum]
    have hunion : ¬(Table.chosen.shape (.made 3)).IsUnion := by simp [henum, Shape.IsUnion]
    -- each member of the target is compared with the union of both values
    have hmember {p : Ty} (hid : Assign.byIdentity (.made 3) p = none)
        (hp : (Table.chosen.shape p).isTaken = true) :
        Assign.decideAt 8 [] (.made 3) p 9 Table.chosen =
          Assign.decideAt 7 [] (.made 7) p 9 Table.chosen :=
      Assign.step_enumeration hid hp henum Table.valueUnion_chosen 9
    have hany : Assign.decideAt 9 [] (.made 3) (.made 0) 9 Table.chosen =
        Assign.any (Assign.decideAt 8 [] (.made 3)) [.number, .string] 9 Table.chosen :=
      Assign.step_targetUnion rfl hclosed hunion ht (by decide) 9
    rw [Ty.isAssignableTo_anew (by decide) (fun _ => by rw [hnew]; rfl), hany]
    unfold Assign.any
    rw [Typing.bind_of_some ((hmember rfl rfl).trans hnumber)]
    unfold Assign.any
    rw [if_neg (by decide), Typing.bind_of_some ((hmember rfl rfl).trans hstring)]
    rfl

end ShapeCheck
