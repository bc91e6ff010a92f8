import ShapeCheck.Proofs.EqualityNarrowing
import ShapeCheck.Proofs.PropertyAgreement

/-!
# Narrowing by a discriminant

Where a field of a union of objects equals a constant, the objects are kept whose field the constant
fits, and where it differs, those whose field is not exactly the constant. An object may get lost in
two ways: where the comparison refuses the constant for the type of the field, and where the field
may be absent, which neither side takes into account.

* `Ty.variantSides` says on which sides an object stays, by `Ty.discriminantSides_spec`.
* `Ty.narrowByDiscriminant_selects` says which objects the two sides have.
* `Ty.narrowByDiscriminant_keeps` is the result.
-/

namespace ShapeCheck

open Table

namespace Table

/-- The field that an access finds on an object. -/
def field? (T : Table) (name : String) (m : Ty) : Option Field :=
  match T.shape m with
  | .object o => Ty.memberProperty? o name
  | _ => none

/-- The field may have the value: one of its type, or `undefined` where the field may be absent. -/
def HoldsField (T : Table) (v : RuntimeValue) (f : Field) : Prop :=
  T.Holds v f.type ∨ f.optional = true ∧ v = .undefined

/-- All members of the type are objects, whose field of that name, if any, is scalar. -/
structure OfVariants (T : Table) (name : String) (t : Ty) : Prop where
  object : ∀ m ∈ T.members t, ∃ o, T.shape m = .object o
  scalar : ∀ m ∈ T.members t, ∀ f ∈ T.field? name m, (T.shape f.type).isScalar = true

end Table

namespace Ty

variable {T U : Table} {t c m : Ty} {d : RuntimeValue} {name : String} {n : Nat}

/-! ## One object -/

/-- On which sides of the test an object stays that has the field, or none of that name. -/
def variantSides (T : Table) (c : Ty) : Option Field → Bool × Bool
  | none => (false, true)
  | some f => (Assign.constantFits T c f.type, !isExactly T c f.type)

/-- What an access finds on an object is known. -/
theorem has_field (hT : T.Sound) {f : Field} (hf : f ∈ T.field? name m) : T.Has f.type := by
  unfold field? at hf
  cases hs : T.shape m with
  | object o =>
    rw [hs] at hf
    have hrun : plainProperty (T.shape m) name T = (some f, T) := by
      rw [hs]
      exact Prod.ext hf rfl
    exact Assign.has_plainProperty hT (has_of_shape (by simp [hs]))
      (by simp [hs, Shape.isPlain]) hrun
  | _ => simp [hs] at hf

theorem property?_object {o : Members} (ho : T.shape m = .object o) (hle : T ≤ U) (hn : 1 ≤ n) :
    m.property? name n U = some (T.field? name m, U) := by
  obtain ⟨k, rfl⟩ := Nat.exists_eq_add_of_le' hn
  have hshape : U.shape m = .object o := (shape_of_le hle (has_of_shape (by simp [ho]))).trans ho
  rw [property?_of_isPlain (by simp [hshape, Shape.isPlain]) name k, hshape, field?, ho]
  rfl

/-- The test of one object finds its sides. -/
theorem discriminantSides_spec (hT : T.Sound) (hc : T.Constant c d) {o : Members}
    (ho : T.shape m = .object o) (hscalar : ∀ f ∈ T.field? name m, (T.shape f.type).isScalar = true)
    (hU : U.Resolved) (hle : T ≤ U) (hn : 2 ≤ n) : ∃ sides U1,
      discriminantSides name c m n U = some (sides, U1) ∧ Relation.ReflTransGen Called U U1 ∧
      sides = variantSides T c (T.field? name m) := by
  unfold discriminantSides
  rw [Typing.bind_of_some (property?_object ho hle (by omega))]
  cases hf : T.field? name m with
  | none => exact ⟨_, U, rfl, .refl, rfl⟩
  | some f =>
    have hfhas := has_field hT hf
    have hfscalar := hscalar f hf
    have hresolve : f.type.resolveMembers n U = some (f.type, U) :=
      resolveMembers_of_ofScalars (ofScalars_of_isScalar (by rwa [shape_of_le hle hfhas])) n
    obtain ⟨U1, hask, hcall⟩ := hU.asks_constant hT.wellFormed hle hc hfhas hfscalar hn
    have hvalue := Assign.enumValue?_of_le (hle.trans (hU.truthful.called hcall).1.le) hfhas
    refine ⟨_, U1, ?_, .single hcall, rfl⟩
    dsimp only
    rw [Typing.bind_of_some hresolve, Typing.bind_of_some hask, Typing.get_bind,
      hvalue, variantSides,
      isExactly, Bool.not_or]
    simp only [ne_eq, decide_not]
    rfl

/-! ## All objects -/

theorem filterMap_zip_map {g : Ty → Bool × Bool} {p : Bool × Bool → Bool} (ms : List Ty) :
    (ms.zip (ms.map g)).filterMap (fun (m, s) => if p s then some m else none) =
      ms.filter fun m => p (g m) := by
  induction ms with
  | nil => rfl
  | cons m ms ih =>
    rw [List.map_cons, List.zip_cons_cons, List.filterMap_cons, List.filter_cons, ih]
    cases h : p (g m) <;> simp [h]

theorem ne_of_ofVariants (h : T.OfVariants name t) (hm : m ∈ T.members t) :
    (∀ p, m ≠ .prim p) ∧ ∀ b, m ≠ .truth b := by
  obtain ⟨o, ho⟩ := h.object m hm
  constructor
  · rintro p rfl
    simp [Table.shape] at ho
  · rintro b rfl
    simp [Table.shape] at ho

theorem isTop_of_ofVariants (h : T.OfVariants name t) : t.isTop = false := by
  cases t with
  | prim p =>
    have hself : .prim p ∈ T.members (.prim p) := by simp [Table.members, Table.shape]
    exact absurd rfl ((ne_of_ofVariants h hself).1 p)
  | truth | made => rfl

theorem resolveMembers_of_ofVariants (h : T.OfVariants name t) (n : Nat) :
    t.resolveMembers n T = some (t, T) := by
  have hmembers : ∀ m ∈ T.members t, hasOpenHead T m = false := by
    intro m hm
    obtain ⟨o, ho⟩ := h.object m hm
    simp [hasOpenHead, ho]
  refine resolveMembers_closed ?_ hmembers n
  by_cases hunion : (T.shape t).IsUnion
  · obtain ⟨ms, hms⟩ := hunion
    simp [hasOpenHead, hms]
  · exact hmembers t (by simp [Assign.members_of_not_isUnion hunion])

/-- The sides have the objects that stay on them. -/
theorem narrowByDiscriminant_selects (hT : T.Resolved) (ht : T.Has t)
    (hvariants : T.OfVariants name t)
    (hc : T.Constant c d) (hn : 2 ≤ n) : ∃ s T1, t.narrowByDiscriminant name c n T = some (s, T1) ∧
      ∀ m ∈ T.members t,
        (m ∈ T1.members s.yes ↔ (variantSides T c (T.field? name m)).1 = true) ∧
        (m ∈ T1.members s.no ↔ (variantSides T c (T.field? name m)).2 = true) := by
  have hclosed := resolveMembers_of_ofVariants hvariants n
  have htop := isTop_of_ofVariants hvariants
  obtain ⟨sides, T1, hsides, hcalls, hforall⟩ := hT.mapM_calls (f := discriminantSides name c)
    (fun m hm U hU hle => discriminantSides_spec hT.truthful.sound hc
      (hvariants.object m hm).choose_spec (hvariants.scalar m hm) hU hle hn) (le_refl T)
  have hmap : (T.members t).map (fun m => variantSides T c (T.field? name m)) = sides := by
    rw [← List.forall₂_eq_eq_eq, List.forall₂_map_left_iff]
    exact hforall.imp fun _ _ h => h.symm
  have h1 := hT.calls hcalls
  have hle := (hT.truthful.succeeds hcalls).1.le
  have hsame : splitMembers T1 t = T.members t := by
    rw [splitMembers_of_le hle ht,
      splitMembers_eq_members fun h => (ne_of_ofVariants hvariants h).1 _ rfl]
  obtain ⟨yes, T2, no, T3, hyes, -, hno, -, -, hselects⟩ :=
    sides_select h1.truthful.sound.wellFormed (has_of_le hle ht) htop
      (fun m => (variantSides T c (T.field? name m)).1) fun m =>
      (variantSides T c (T.field? name m)).2
  rw [hsame] at hyes hno
  refine ⟨⟨yes, no⟩, T3, ?_, fun m hm => ?_⟩
  · have hmembers : (liftM t.members : Typing (List Ty)) n T = some (T.members t, T) := rfl
    have hfirst : (liftM (unionOf (((T.members t).zip sides).filterMap fun (m, s) =>
        if s.1 then some m else none)) : Typing Ty) n T1 = some (yes, T2) := by
      rw [← hmap, filterMap_zip_map]
      exact congrArg some hyes
    have hsecond : (liftM (unionOf (((T.members t).zip sides).filterMap fun (m, s) =>
        if s.2 then some m else none)) : Typing Ty) n T2 = some (no, T3) := by
      rw [← hmap, filterMap_zip_map]
      exact congrArg some hno
    unfold narrowByDiscriminant
    rw [Typing.bind_of_some hclosed, if_neg (by simp [htop]), Typing.bind_of_some hmembers,
      Typing.bind_of_some hsides, Typing.bind_of_some hfirst, Typing.bind_of_some hsecond]
    rfl
  · obtain ⟨hprim, htruth⟩ := ne_of_ofVariants hvariants hm
    -- neither an object nor a union of objects has anything to split
    have hwhole {u : Ty} : m ∈ splitMembers T3 u ↔ m ∈ T3.members u := by
      rw [mem_splitMembers_iff]
      simp [hprim, htruth]
    have hin : m ∈ splitMembers T1 t := hsame ▸ hm
    rw [← hwhole, ← hwhole, hselects.yes m (hprim _), hselects.no m (hprim _)]
    simp [hin]

/-- **The test of a field keeps the objects.** An object is on the one side if the constant is a
value of the type of its field and the comparison does not refuse it. It is on the other side if it
has no such field, or the field may have another value, unless that is `undefined` for a field that
may be absent and has exactly the constant for its type. It is on one of them in any case, if the
comparison does not refuse the constant. -/
theorem narrowByDiscriminant_keeps (hT : T.Resolved) (ht : T.Has t)
    (hvariants : T.OfVariants name t)
    (hc : T.Constant c d) (hn : 2 ≤ n) : ∃ s T1, t.narrowByDiscriminant name c n T = some (s, T1) ∧
      ∀ m ∈ T.members t, (T.field? name m = none → m ∈ T1.members s.no) ∧
        ∀ f ∈ T.field? name m,
          (T.Holds d f.type → T.refuses c f.type = false → m ∈ T1.members s.yes) ∧
          (∀ v, v ≠ d → T.HoldsField v f → (f.optional = true → isExactly T c f.type = false) →
            m ∈ T1.members s.no) ∧
          (T.refuses c f.type = false → m ∈ T1.members s.yes ∨ m ∈ T1.members s.no) := by
  have hsound := hT.truthful.sound
  have hwf := hsound.wellFormed
  obtain ⟨s, T1, hrun, hselects⟩ := narrowByDiscriminant_selects hT ht hvariants hc hn
  refine ⟨s, T1, hrun, fun m hm => ?_⟩
  obtain ⟨hyes, hno⟩ := hselects m hm
  refine ⟨fun hnone => hno.mpr (by rw [hnone]; rfl), fun f hf => ?_⟩
  rw [Option.mem_def.mp hf] at hyes hno
  have hfhas := has_field hsound hf
  have hfits (hv : T.Holds d f.type) (hseen : T.refuses c f.type = false) : m ∈ T1.members s.yes :=
    hyes.mpr (Assign.constantFits_of_holds hwf hc hfhas (hvariants.scalar m hm f hf) hv hseen)
  have hother (hdiffers : isExactly T c f.type = false) : m ∈ T1.members s.no :=
    hno.mpr (by simp [variantSides, hdiffers])
  refine ⟨hfits, fun v hne hv habsent => ?_, fun hseen => ?_⟩
  · rcases hv with hv | ⟨hoptional, -⟩
    · exact hother (isExactly_of_holds hwf hc hfhas hne hv)
    · exact hother (habsent hoptional)
  · cases hexactly : isExactly T c f.type with
    | true =>
      exact .inl (hfits ((constant_of_isExactly hwf hc hfhas hexactly).holds_iff.mpr rfl) hseen)
    | false => exact .inr (hother hexactly)

end Ty

namespace Table

/-- A table with the text `a`, and the objects whose kind is a text. -/
def labelled : Table :=
  (Ty.objectOf { fields := [{ name := "kind", type := .string }] } spelling).2

/-- The same table with the objects whose kind is that text, if they have one. -/
def kindred : Table :=
  (Ty.objectOf { fields := [{ name := "kind", type := .made 0, optional := true }] } labelled).2

/-- The same table with the union of both, frozen. -/
def kinds : Table := (Alias.freeze (kindred.push
  ⟨.union [.made 1, .made 2], "U:65,66", "\x7b kind: string \x7d | \x7b kind?: \"a\" \x7d"⟩)).2

/-- What is to be computed about the two sorts of objects, before their union is there. -/
theorem facts_kindred : labelled.Has (.made 0) ∧ kindred.Has (.made 1) ∧ kindred.Has (.made 2) ∧
    kindred.aliases = [] ∧ Ty.unionMembers kindred [.made 1, .made 2] = [.made 1, .made 2] ∧
    [Ty.made 1, .made 2].Pairwise (fun a b => kindred.inOrder a b = true) ∧
    kindred.find? "U:65,66" = none ∧ kindred.shapeText (.union [.made 1, .made 2]) =
      "\x7b kind: string \x7d | \x7b kind?: \"a\" \x7d" := by
  with_unfolding_all decide

theorem resolved_kinds : kinds.Resolved := by
  obtain ⟨h0, h1, h2, hnone, hmembers, hordered, hnew, htext⟩ := facts_kindred
  have hlabelled : labelled.Prepared := prepared_spelling.call (.construct
    (.object { fields := [{ name := "kind", type := .string }] })
    (by simp [Construction.inputs, Shape.parts]) trivial)
  have hkindred : kindred.Prepared := hlabelled.call (.construct
    (.object { fields := [{ name := "kind", type := .made 0, optional := true }] })
    (by simpa [Construction.inputs, Shape.parts] using h0) trivial)
  exact (hkindred.push_union (Interning.forall_mem_pair h1 h2) hmembers (by decide) hordered
    key_chosen hnew htext).frozen hnone

/-- What is to be computed about the finished table. -/
theorem facts_kinds : kinds.shape (.made 0) = .literal (.string "a") ∧
    kinds.shape (.made 1) = .object { fields := [{ name := "kind", type := .string }] } ∧
    kinds.shape (.made 2) =
      .object { fields := [{ name := "kind", type := .made 0, optional := true }] } ∧
    kinds.shape (.made 3) = .union [.made 1, .made 2] ∧
    kinds.field? "kind" (.made 1) = some { name := "kind", type := .string } ∧
    kinds.field? "kind" (.made 2) = some { name := "kind", type := .made 0, optional := true } := by
  with_unfolding_all decide

end Table

namespace Ty

/-- Where the kind is the text, both sorts of objects remain, and where it is another one, those do
whose kind may be any text. -/
theorem narrowByDiscriminant_keeps_kinds : ∃ s T1,
    (Ty.made 3).narrowByDiscriminant "kind" (.made 0) 2 kinds = some (s, T1) ∧
    .made 1 ∈ T1.members s.yes ∧ .made 2 ∈ T1.members s.yes ∧ .made 1 ∈ T1.members s.no := by
  obtain ⟨htext, hfirst, hsecond, hunion, hfield1, hfield2⟩ := facts_kinds
  have hmembers := members_of_union hunion
  have hvariants : kinds.OfVariants "kind" (.made 3) := by
    constructor
    · rw [hmembers]
      exact Interning.forall_mem_pair ⟨_, hfirst⟩ ⟨_, hsecond⟩
    · rw [hmembers]
      refine Interning.forall_mem_pair ?_ ?_
      · simp [hfield1, Table.shape, Shape.isScalar]
      · simp [hfield2, htext, Shape.isScalar]
  obtain ⟨s, T1, hrun, hkeeps⟩ := narrowByDiscriminant_keeps resolved_kinds (t := .made 3)
    (has_of_shape (by simp [hunion])) hvariants (.literal htext) (le_refl 2)
  rw [hmembers] at hkeeps
  have hstring (text : String) : kinds.Holds (.literal (.string text)) .string :=
    (holds_primitive (p := .string) rfl).mpr rfl
  obtain ⟨hyes1, hno1, -⟩ := (hkeeps (.made 1) (by simp)).2 _ hfield1
  obtain ⟨hyes2, -⟩ := (hkeeps (.made 2) (by simp)).2 _ hfield2
  refine ⟨s, T1, hrun, hyes1 (hstring "a") rfl, hyes2 (.literal htext rfl) ?_,
    hno1 (.literal (.string "b")) (by simp) (.inl (hstring "b")) (by simp)⟩
  simp [refuses, htext]

/-- **An object without the field is lost** where that may be absent: it differs from the text then,
but nothing remains of the objects there. -/
theorem not_narrowByDiscriminant_keeps_absent :
    ∃ (T : Table) (t c : Ty) (d v : RuntimeValue) (f : Field),
    T.Resolved ∧ T.Has t ∧ T.OfVariants "kind" t ∧ t ∈ T.members t ∧ T.Constant c d ∧
    T.field? "kind" t = some f ∧ T.HoldsField v f ∧ v ≠ d ∧
    (t.narrowByDiscriminant "kind" c 9 T).map (·.1) = some ⟨t, .never⟩ ∧ t ∉ T.members .never := by
  obtain ⟨htext, -, hobject, -, -, hfield⟩ := facts_kinds
  have hmembers : kinds.members (.made 2) = [.made 2] := by simp [Table.members, hobject]
  refine ⟨kinds, .made 2, .made 0, .literal (.string "a"), .undefined, _, resolved_kinds,
    has_of_shape (by simp [hobject]), ⟨?_, ?_⟩, ?_, .literal htext, hfield,
    .inr ⟨rfl, rfl⟩, by simp, ?_,
    ?_⟩
  · simp [hmembers, hobject]
  · simp [hmembers, hfield, htext, Shape.isScalar]
  · simp [hmembers]
  · with_unfolding_all decide
  · simp [Table.members, Table.shape]

end Ty

end ShapeCheck
