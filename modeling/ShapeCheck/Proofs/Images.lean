import ShapeCheck.Proofs.SplitMembers
import ShapeCheck.Proofs.Templates

/-!
# What fits the image of a template

A type fits an array, a tuple or an object when its parts fit, and a union when each of what it
splits into fits one of the members. So what fits the image of a template is decided by the images
of its parts, and it does not matter in which table the image was made.

* `Table.FirstOrder.fits_iff_splitMembers` takes a source apart, `Table.Fits.field_supplied`,
  `Table.Fits.elements_of_array` and `Table.Fits.places_of_tuple` a target.
* `Table.Image.fits_later` compares the images in two tables.
-/

namespace ShapeCheck

variable {m n : Members} {e u x a : Ty} {readonly : Bool}

namespace Table

section Parts

variable {T : Table} {s : Shape} {f : Field}

/-- The members of a first-order type are no unions, and a type with a member that has no value is
the one without values. -/
theorem FirstOrder.member_cases (h : T.FirstOrder a) (hT : T.WellFormed) {m : Ty}
    (hm : m ∈ T.members a) : ¬(T.shape m).IsUnion ∧
      (T.shape m = .primitive .never → T.shape a = .primitive .never) := by
  by_cases ha : (T.shape a).IsUnion
  · obtain ⟨ms, hms⟩ := ha
    have hin : m ∈ ms := by simpa [members, hms] using hm
    refine ⟨hT.not_isUnion hms hin, fun hnever => ?_⟩
    exact absurd (eq_prim_of_shape hT hnever (by simp)) ((hT.canonical_union hms).proper m hin).1
  · rw [Assign.members_of_not_isUnion ha, List.mem_singleton] at hm
    subst hm
    exact ⟨ha, id⟩

/-- An object gets from what fits it a value for every field. -/
theorem Fits.field_supplied (h : T.Fits s (.object n)) (hunion : ¬s.IsUnion)
    (hnever : s ≠ .primitive .never) (hnames : (n.fields.map Field.name).Nodup)
    (hf : f ∈ n.fields) :
    Assign.Supplies T s f := by
  by_cases hne : s = .object n
  · exact .inl ⟨n, f, hne, (Members.mem_fields_iff hnames).mp hf, .refl _⟩
  · exact (Assign.fits_object_iff hne hnever hunion (List.ne_nil_of_mem hf)).mp h f hf

theorem fits_of_supplies (hunion : ¬s.IsUnion) (hn : n.fields ≠ [])
    (h : ∀ f ∈ n.fields, Assign.Supplies T s f) : T.Fits s (.object n) := by
  by_cases hne : s = .object n
  · rw [hne]
    exact .refl _
  by_cases hnever : s = .primitive .never
  · rw [hnever]
    exact .bottom _
  exact (Assign.fits_object_iff hne hnever hunion hn).mpr h

theorem Fits.elements_of_array (h : T.Fits s (.array e readonly))
    (hunion : ¬s.IsUnion) : s = .primitive .never ∨
      ∃ es, s.elements? = some es ∧ ∀ x ∈ es, T.Fits (T.shape x) (T.shape e) := by
  cases h with
  | refl => exact .inr ⟨[e], rfl, by simpa using .refl _⟩
  | bottom => exact .inl rfl
  | split => exact absurd ⟨_, rfl⟩ hunion
  | elements hes h => exact .inr ⟨_, hes, h⟩

theorem Fits.places_of_tuple {v : Tuple} (h : T.Fits s (.tuple v)) (hunion : ¬s.IsUnion) :
    s = .primitive .never ∨ ∃ u, s = .tuple u ∧ u.Suits v ∧ ∀ i x y, u.place? i = some x →
      v.place? i = some y → T.Fits (T.shape x) (T.shape y) := by
  cases h with
  | refl =>
    refine .inr ⟨v, rfl, ⟨fun _ h => h, fun _ h => h⟩, fun i x y hx hy => ?_⟩
    rw [Option.some.inj (hx.symm.trans hy)]
    exact .refl _
  | bottom => exact .inl rfl
  | split => exact absurd ⟨_, rfl⟩ hunion
  | places hsuits h => exact .inr ⟨_, rfl, hsuits, h⟩

/-- A first-order type fits where everything that it splits into does. -/
theorem FirstOrder.fits_iff_splitMembers (h : T.FirstOrder a) (hT : T.WellFormed) :
    T.Fits (T.shape a) (T.shape u) ↔ ∀ x ∈ Ty.splitMembers T a, T.Fits (T.shape x) (T.shape u) := by
  rw [h.fits_iff_members hT]
  constructor
  · intro hfits x hx
    rcases Ty.mem_splitMembers_iff.mp hx with ⟨hx, -⟩ | ⟨⟨b, rfl⟩, hboolean⟩
    · exact hfits x hx
    · exact (Fits.base rfl).trans hT (hfits _ hboolean)
  · intro hfits m hm
    by_cases hboolean : m = .boolean
    · subst hboolean
      have htruth : ∀ b, .truth b ∈ Ty.splitMembers T a := fun b =>
        Ty.truth_mem_splitMembers.mpr (.inr hm)
      exact Fits.boolean hT (hfits _ (htruth true)) (hfits _ (htruth false))
    · exact hfits m (Ty.mem_splitMembers hm hboolean)

/-- What a first-order type splits into is no union and not `boolean`. -/
theorem FirstOrder.splitMember (h : T.FirstOrder a) (hT : T.WellFormed)
    (hx : x ∈ Ty.splitMembers T a) : ¬(T.shape x).IsUnion ∧ T.shape x ≠ .primitive .boolean := by
  refine ⟨?_, fun hboolean => ?_⟩
  · rcases Ty.mem_splitMembers_iff.mp hx with ⟨hx, -⟩ | ⟨⟨b, rfl⟩, -⟩
    · exact (h.member_cases hT hx).1
    · rintro ⟨ms, ⟨⟩⟩
  · rw [eq_prim_of_shape hT hboolean (by simp)] at hx
    exact Ty.boolean_not_mem_splitMembers hx

theorem FirstOrder.of_splitMember (h : T.FirstOrder a) (hx : x ∈ Ty.splitMembers T a) :
    T.FirstOrder x := by
  rcases Ty.mem_splitMembers_iff.mp hx with ⟨hx, -⟩ | ⟨⟨b, rfl⟩, -⟩
  · exact h.member hx
  · exact .literal (l := .boolean b) rfl

end Parts

/-! ### Rebuilt types as targets -/

section Rebuilt

variable {T1 T2 : Table} {s : Shape} {q1 q2 : Ty} {image1 image2 : Ty → Ty}

/-- What fits a rebuilt array in one table fits it in another one, when the elements do. -/
theorem Rebuilds.fits_array
    (hq1 : T1.Rebuilds image1 q1 (.array e readonly))
    (hq2 : T2.Rebuilds image2 q2 (.array e readonly))
    (hunion : ¬s.IsUnion) (hpart : ∀ es, s.elements? = some es →
      (∀ x ∈ es, T1.Fits (T1.shape x) (T1.shape (image1 e))) →
      ∀ x ∈ es, T2.Fits (T2.shape x) (T2.shape (image2 e)))
    (h : T1.Fits s (T1.shape q1)) : T2.Fits s (T2.shape q2) := by
  rw [show T1.shape q1 = _ from hq1] at h
  rw [show T2.shape q2 = _ from hq2]
  rcases h.elements_of_array hunion with rfl | ⟨es, hes, hfits⟩
  · exact .bottom _
  · exact .elements hes (hpart es hes hfits)

/-- What fits a rebuilt tuple in one table fits it in another one, when it does so place by
place. -/
theorem Rebuilds.fits_tuple {u : Tuple}
    (hq1 : T1.Rebuilds image1 q1 (.tuple u)) (hq2 : T2.Rebuilds image2 q2 (.tuple u))
    (hunion : ¬s.IsUnion)
    (hpart : ∀ v, s = .tuple v → ∀ i x y, v.place? i = some x → u.place? i = some y →
      T1.Fits (T1.shape x) (T1.shape (image1 y)) → T2.Fits (T2.shape x) (T2.shape (image2 y)))
    (h : T1.Fits s (T1.shape q1)) : T2.Fits s (T2.shape q2) := by
  rw [show T1.shape q1 = _ from hq1] at h
  rw [show T2.shape q2 = _ from hq2]
  rcases h.places_of_tuple hunion with rfl | ⟨v, rfl, hsuits, hfits⟩
  · exact .bottom _
  · refine .places (Tuple.suits_mapTypes.mpr (Tuple.suits_mapTypes.mp hsuits)) fun i x z hx hz => ?_
    rw [Tuple.place?_mapTypes] at hz
    obtain ⟨y, hy, rfl⟩ := Option.map_eq_some_iff.mp hz
    refine hpart v rfl i x y hx hy (hfits i x (image1 y) hx ?_)
    rw [Tuple.place?_mapTypes, hy]
    rfl

/-- What fits a rebuilt object has a value for every field. -/
theorem Rebuilds.field_supplied (hq1 : T1.Rebuilds image1 q1 (.object m)) (hT1 : T1.WellFormed)
    (hnames : (m.fields.map Field.name).Nodup) (hunion : ¬s.IsUnion)
    (hnever : s ≠ .primitive .never)
    (h : T1.Fits s (T1.shape q1)) {f : Field} (hf : f ∈ m.fields) :
    Assign.Supplies T1 s (f.mapType image1) := by
  obtain ⟨n, hn, hfield⟩ := hq1
  have hnames' := hT1.tidy q1
  rw [hn] at h hnames'
  have hfound : n.field? f.name = some (f.mapType image1) := by
    rw [hfield, (Members.mem_fields_iff hnames).mp hf]
    rfl
  exact h.field_supplied hunion hnever hnames' (Members.mem_of_field? hfound).1

/-- What has a value for every field fits a rebuilt object. -/
theorem Rebuilds.fits_of_supplies (hq2 : T2.Rebuilds image2 q2 (.object m))
    (hT2 : T2.WellFormed) (hsome : m.fields ≠ []) (hnames : (m.fields.map Field.name).Nodup)
    (hunion : ¬s.IsUnion) (h : ∀ f ∈ m.fields, Assign.Supplies T2 s (f.mapType image2)) :
    T2.Fits s (T2.shape q2) := by
  obtain ⟨n, hn, hfield⟩ := hq2
  have hnames' := hT2.tidy q2
  rw [hn] at hnames' ⊢
  refine Table.fits_of_supplies hunion ?_ fun g hg => ?_
  · obtain ⟨f, hf⟩ := List.exists_mem_of_ne_nil _ hsome
    have hfound : n.field? f.name = some (f.mapType image2) := by
      rw [hfield, (Members.mem_fields_iff hnames).mp hf]
      rfl
    exact List.ne_nil_of_mem (Members.mem_of_field? hfound).1
  · have hfind := (Members.mem_fields_iff hnames').mp hg
    rw [hfield] at hfind
    obtain ⟨f, hf, rfl⟩ := Option.map_eq_some_iff.mp hfind
    exact h f (Members.mem_of_field? hf).1

/-- No truth value fits a rebuilt array, a rebuilt tuple or a rebuilt object with a field. -/
theorem Rebuilds.not_fits_truth {T : Table} {vars : List TypeVar} {p q : Ty} {image : Ty → Ty}
    (h : T.Rebuilds image q (T.shape p)) (hT : T.WellFormed) (hp : T.Template vars p)
    (hparts : (T.shape p).parts ≠ []) (hunion : ¬(T.shape p).IsUnion) (b : Bool) :
    ¬T.Fits (.literal (.boolean b)) (T.shape q) := by
  intro hfits
  have hsource : ¬(Shape.literal (.boolean b)).IsUnion := by rintro ⟨ms, ⟨⟩⟩
  cases hp with
  | parameter hs | literal hs => exact hparts (by simp [hs, Shape.parts])
  | primitive => exact hparts (by simp [Table.shape, Shape.parts])
  | union hs => exact hunion ⟨_, hs⟩
  | array hs =>
    rw [hs] at h
    rw [show T.shape q = _ from h] at hfits
    rcases hfits.elements_of_array hsource with hnever | ⟨es, hes, -⟩
    · simp at hnever
    · simp [Shape.elements?] at hes
  | tuple hs =>
    rw [hs] at h
    rw [show T.shape q = _ from h] at hfits
    rcases hfits.places_of_tuple hsource with hnever | ⟨u, hu, -⟩
    · simp at hnever
    · simp at hu
  | @object _ m hs _ _ hindex hcalls =>
    have hnames := hT.tidy p
    rw [hs] at h hparts hnames
    have hsome : m.fields ≠ [] := by simpa [Shape.parts, hindex, hcalls] using hparts
    obtain ⟨f, hf⟩ := List.exists_mem_of_ne_nil _ hsome
    rcases h.field_supplied hT hnames hsource (by simp) hfits hf with ⟨k, g, hk, -⟩ | ⟨l, hl, -⟩
    · simp at hk
    · simp [Shape.length?] at hl

end Rebuilt

/-- The second type is what a substitution makes of a template. -/
def Image (T : Table) (vars : List TypeVar) (subs : Substitution) (p q : Ty) : Prop :=
  ∃ depth, T.imageAt vars subs depth p q

section Images

variable {T T1 T2 : Table} {vars : List TypeVar} {subs : Substitution}
  {p q q1 q2 : Ty} {depth : Nat}

theorem imageAt_mono {more : Nat} (hle : depth ≤ more) (h : T.imageAt vars subs depth p q) :
    T.imageAt vars subs more p q := by
  induction depth generalizing more p q with
  | zero => exact h.elim
  | succ depth ih =>
    obtain ⟨more, rfl⟩ : ∃ k, more = k + 1 := ⟨more - 1, by omega⟩
    cases hm : Ty.mentions T vars p with
    | false =>
      rw [imageAt_unmentioned hm] at h ⊢
      exact h
    | true =>
      by_cases hv : ∃ v, T.shape p = .parameter v
      · obtain ⟨v, hv⟩ := hv
        rw [imageAt_parameter hm hv] at h ⊢
        exact h
      · rw [not_exists] at hv
        rw [imageAt_composite hm hv] at h ⊢
        obtain ⟨image, hparts, hrebuilds⟩ := h
        exact ⟨image, fun t ht => ih (Nat.le_of_succ_le_succ hle) (hparts t ht), hrebuilds⟩

theorem Image.of_le (h : T.Image vars subs p q) (hT : T.WellFormed) (hp : T.Template vars p)
    (hle : T ≤ T1) : T1.Image vars subs p q := by
  obtain ⟨depth, h⟩ := h
  exact ⟨depth, imageAt_of_le hT hle hp h⟩

/-- The image of an array is an array of the image of the element. -/
theorem Image.element (h : T.Image vars subs p q) (hT : T.WellFormed)
    (hp : T.Template vars p) (hs : T.shape p = .array e readonly) :
    ∃ u, T.shape q = .array u readonly ∧ T.Image vars subs e u := by
  obtain ⟨depth, h⟩ := h
  have he : e ∈ (T.shape p).parts := by simp [hs, Shape.parts]
  cases depth with
  | zero => exact h.elim
  | succ depth =>
    cases hm : Ty.mentions T vars p with
    | false =>
      obtain rfl := (imageAt_unmentioned hm).mp h
      exact ⟨e, hs, 1, (imageAt_unmentioned (hp.unmentioned_part hT hm he)).mpr rfl⟩
    | true =>
      obtain ⟨image, hparts, hrebuilds⟩ := (imageAt_composite hm (by simp [hs])).mp h
      rw [hs] at hrebuilds
      exact ⟨image e, hrebuilds, depth, hparts e he⟩

/-- What fits the first type in the first table fits the second one in the second table, as long as
it is made of types that an earlier table has. -/
def Conveys (T T1 T2 : Table) (q1 q2 : Ty) : Prop :=
  ∀ s : Shape, (∀ t ∈ s.parts, T.FirstOrder t) → ¬s.IsUnion → s ≠ .primitive .boolean →
    T1.Fits s (T1.shape q1) → T2.Fits s (T2.shape q2)

theorem Conveys.fits (h : Conveys T T1 T2 q1 q2) (hT : T.WellFormed) (hT1 : T1.WellFormed)
    (hT2 : T2.WellFormed) (h1 : T ≤ T1) (h2 : T ≤ T2) (ha : T.FirstOrder a)
    (hfits : T1.Fits (T1.shape a) (T1.shape q1)) : T2.Fits (T2.shape a) (T2.shape q2) := by
  rw [(ha.of_agrees (.of_le h1)).fits_iff_splitMembers hT1,
    Ty.splitMembers_of_le h1 ha.has] at hfits
  rw [(ha.of_agrees (.of_le h2)).fits_iff_splitMembers hT2, Ty.splitMembers_of_le h2 ha.has]
  intro x hx
  have hfirst := ha.of_splitMember hx
  obtain ⟨hunion, hboolean⟩ := ha.splitMember hT hx
  have hx := hfits x hx
  rw [shape_of_le h1 hfirst.has] at hx
  rw [shape_of_le h2 hfirst.has]
  exact h _ (fun u hu => hfirst.part hu) hunion hboolean hx

/-- A type that both tables have takes the same in both. -/
theorem conveys_self (h1 : T ≤ T1) (h2 : T ≤ T2) (hu : T.FirstOrder u) : Conveys T T1 T2 u u := by
  intro s hs _ _ h
  have hparts := fun t ht => hu.part (p := t) ht
  rw [shape_of_le h1 hu.has] at h
  rw [shape_of_le h2 hu.has]
  exact ((Agrees.of_le h2).fits_iff hs hparts).mpr (((Agrees.of_le h1).fits_iff hs hparts).mp h)

theorem Rebuilds.conveys {image1 image2 : Ty → Ty} (hq1 : T1.Rebuilds image1 q1 (T.shape p))
    (hq2 : T2.Rebuilds image2 q2 (T.shape p)) (hT : T.WellFormed) (hT1 : T1.WellFormed)
    (hT2 : T2.WellFormed) (h1 : T ≤ T1) (h2 : T ≤ T2) (hp : T.Template vars p)
    (hcomposite : (T.shape p).parts ≠ [])
    (hpart : ∀ t ∈ (T.shape p).parts, Conveys T T1 T2 (image1 t) (image2 t)) :
    Conveys T T1 T2 q1 q2 := by
  intro s hs hunion hboolean h
  have htypes : ∀ t ∈ (T.shape p).parts, ∀ a, T.FirstOrder a →
      T1.Fits (T1.shape a) (T1.shape (image1 t)) → T2.Fits (T2.shape a) (T2.shape (image2 t)) :=
    fun t ht a ha => (hpart t ht).fits hT hT1 hT2 h1 h2 ha
  have hnames := hT.tidy p
  cases hp with
  | parameter hp | literal hp => exact absurd (by simp [hp, Shape.parts]) hcomposite
  | primitive => exact absurd (by simp [Table.shape, Shape.parts]) hcomposite
  | @array _ e readonly hp =>
    rw [hp] at hq1 hq2 htypes
    refine hq1.fits_array hq2 hunion (fun es hes hfits x hx => ?_) h
    exact htypes e (by simp [Shape.parts]) x (hs x (parts_of_elements? hes ▸ hx)) (hfits x hx)
  | @tuple _ u hp =>
    rw [hp] at hq1 hq2 htypes
    refine hq1.fits_tuple hq2 hunion (fun v hv i x y hx hy hfits => ?_) h
    subst hv
    exact htypes y (Tuple.mem_elements_of_place? hy) x
      (hs x (Tuple.mem_elements_of_place? hx)) hfits
  | @union _ ms hp =>
    rw [hp] at hq1 hq2 hpart
    rcases Unites.cases hq1 hT1 hunion h with rfl | ⟨t, ht, hfits⟩ | ⟨hsame, -⟩
    · exact .bottom _
    · obtain ⟨m, hm, rfl⟩ := List.mem_map.mp ht
      exact (hpart m hm s hs hunion hboolean hfits).trans hT2
        (Unites.fits_part hq2 hT2 (List.mem_map_of_mem hm))
    · exact absurd hsame hboolean
  | @object _ m hp _ _ hindex hcalls =>
    rw [hp] at hq1 hq2 hpart htypes hcomposite hnames
    by_cases hnever : s = .primitive .never
    · rw [hnever]
      exact .bottom _
    have hsome : m.fields ≠ [] := by simpa [Shape.parts, hindex, hcalls] using hcomposite
    refine hq2.fits_of_supplies hT2 hsome hnames hunion fun f hf => ?_
    have hin := mem_parts_of_field hf
    rcases hq1.field_supplied hT1 hnames hunion hnever h hf
      with ⟨k, g, rfl, hg, hfits⟩ | ⟨l, hl, hname, hfits⟩
    · refine .inl ⟨k, g, rfl, hg, htypes _ hin g.type (hs _ ?_) hfits⟩
      exact mem_parts_of_field (Members.mem_of_field? hg).1
    · -- a length is a number or a literal, with no parts
      refine .inr ⟨l, hl, hname, hpart _ hin l ?_ ?_ ?_ hfits⟩
      · simp [parts_of_length? hl]
      · rcases length?_cases hl with rfl | ⟨x, rfl⟩ <;> rintro ⟨_, ⟨⟩⟩
      · rcases length?_cases hl with rfl | ⟨x, rfl⟩ <;> simp

theorem conveys_imageAt (hT : T.WellFormed) (hT1 : T1.WellFormed)
    (hT2 : T2.WellFormed) (h1 : T ≤ T1)
    (h2 : T ≤ T2) (hsubs : ∀ b ∈ subs, T.FirstOrder b.2) (hp : T.Template vars p)
    (hq1 : T1.imageAt vars subs depth p q1) (hq2 : T2.imageAt vars subs depth p q2) :
    Conveys T T1 T2 q1 q2 := by
  induction depth generalizing p q1 q2 with
  | zero => exact hq1.elim
  | succ depth ih =>
    have hmentions : Ty.mentions T1 vars p = Ty.mentions T vars p := mentions_of_le h1 hT hp.has
    have hmentions' : Ty.mentions T2 vars p = Ty.mentions T vars p := mentions_of_le h2 hT hp.has
    have hshape := shape_of_le h1 hp.has
    have hshape' := shape_of_le h2 hp.has
    cases hm : Ty.mentions T vars p with
    | false =>
      obtain rfl := (imageAt_unmentioned (hmentions.trans hm)).mp hq1
      obtain rfl := (imageAt_unmentioned (hmentions'.trans hm)).mp hq2
      exact conveys_self h1 h2 (hp.firstOrder hT hm)
    | true =>
      by_cases hv : ∃ v, T.shape p = .parameter v
      · obtain ⟨v, hv⟩ := hv
        have hlookup := (imageAt_parameter (hmentions.trans hm) (hshape.trans hv)).mp hq1
        have hlookup' := (imageAt_parameter (hmentions'.trans hm) (hshape'.trans hv)).mp hq2
        obtain rfl := Option.some.inj (hlookup.symm.trans hlookup')
        obtain ⟨front, back, rfl, -⟩ := List.lookup_eq_some_iff.mp hlookup
        exact conveys_self h1 h2 (hsubs (v, q1) (by simp))
      · rw [not_exists] at hv
        obtain ⟨image1, himage1, hrebuilds1⟩ :=
          (imageAt_composite (hmentions.trans hm) (hshape ▸ hv)).mp hq1
        obtain ⟨image2, himage2, hrebuilds2⟩ :=
          (imageAt_composite (hmentions'.trans hm) (hshape' ▸ hv)).mp hq2
        rw [hshape] at himage1 hrebuilds1
        rw [hshape'] at himage2 hrebuilds2
        refine hrebuilds1.conveys hrebuilds2 hT hT1 hT2 h1 h2 hp (hp.composite hm hv) fun t ht => ?_
        exact ih (hp.part ht) (himage1 t ht) (himage2 t ht)

/-- **It does not matter in which table a template is rebuilt**: what fits its image in one of two
tables fits its image in the other one. -/
theorem Image.fits_later (hq1 : T1.Image vars subs p q1) (hq2 : T2.Image vars subs p q2)
    (hT : T.WellFormed) (hT1 : T1.WellFormed) (hT2 : T2.WellFormed) (h1 : T ≤ T1) (h2 : T ≤ T2)
    (hsubs : ∀ b ∈ subs, T.FirstOrder b.2) (hp : T.Template vars p) (ha : T.FirstOrder a)
    (h : T1.Fits (T1.shape a) (T1.shape q1)) : T2.Fits (T2.shape a) (T2.shape q2) := by
  obtain ⟨depth1, hq1⟩ := hq1
  obtain ⟨depth2, hq2⟩ := hq2
  have hconveys := conveys_imageAt hT hT1 hT2 h1 h2 hsubs hp
    (imageAt_mono (Nat.le_max_left depth1 depth2) hq1)
    (imageAt_mono (Nat.le_max_right depth1 depth2) hq2)
  exact hconveys.fits hT hT1 hT2 h1 h2 ha h

end Images

end Table

end ShapeCheck
