import ShapeCheck.Proofs.Images

/-!
# What evidence is good for

Unification takes a template and an argument apart together, and notes the types that it finds at
the places of parameters. If it followed every pair of parts that a comparison leads to, then the
evidence is enough: whenever some bindings make the argument fit the template, any bindings that
take the types found do so, too.

A union among the arguments is the exception. It is looked into where the template is a parameter,
an object, or a union with one member that mentions a parameter, and nowhere else.

* `Inference.fits_image` is the statement above.
-/

namespace ShapeCheck

open Table

variable {u : Tuple} {ms : List Ty} {σ τ : Substitution} {depth : Nat}

namespace Shape

/-- The shape has no property of that name. -/
def Lacks (s : Shape) (name : String) : Prop :=
  (∀ m, s = .object m → m.field? name = none) ∧ (name = "length" → s.length? = none)

end Shape

namespace Table

/-- A shape that is no union has a property of that name and type. -/
def Supplied (T : Table) (s : Shape) (name : String) (t : Ty) : Prop :=
  (∃ m g, s = .object m ∧ m.field? name = some g ∧ g.type = t) ∨
    ∃ l, s.length? = some l ∧ name = "length" ∧ (T.shape t).Alike Eq l

/-- The templates that are compared with the members of a union, and not only with the whole. -/
def LooksInside (T : Table) (vars : List TypeVar) (p : Ty) : Prop :=
  match T.shape p with
  | .parameter _ | .object _ => True
  | .union ms =>
    (ms.filter (Ty.mentions T vars)).length = 1 ∨ ∃ m ∈ ms, ∃ v ∈ vars, T.shape m = .parameter v
  | _ => False

/-- The types are those of a property of all members of a type. -/
def Draws (T : Table) (a : Ty) (name : String) (ts : List Ty) : Prop :=
  List.Forall₂ (fun m t => T.FirstOrder t ∧ T.Supplied (T.shape m) name t) (T.members a) ts

section Properties

variable {T T1 : Table} {s : Shape} {t a : Ty} {f : Field} {name : String}

theorem Supplied.supplies_iff (h : T.Supplied s f.name t) (hT : T.WellFormed) :
    Assign.Supplies T s f ↔ T.Fits (T.shape t) (T.shape f.type) := by
  rcases h with ⟨m, g, rfl, hg, rfl⟩ | ⟨l, hl, hname, halike⟩
  · simp [Assign.Supplies, hg, Shape.length?]
  · rw [Assign.fits_length_iff hT halike hl]
    have hobject : ∀ m, s ≠ .object m := by
      rintro m rfl
      simp [Shape.length?] at hl
    simp [Assign.Supplies, hobject, hl, hname]

theorem not_supplies_of_lacks (h : s.Lacks f.name) : ¬Assign.Supplies T s f := by
  rintro (⟨m, g, rfl, hg, -⟩ | ⟨l, hl, hname, -⟩)
  · simp [h.1 m rfl] at hg
  · simp [h.2 hname] at hl

theorem Supplied.of_le (h : T.Supplied s name t) (ht : T.Has t) (hle : T ≤ T1) :
    T1.Supplied s name t := by
  rwa [Supplied, shape_of_le hle ht]

theorem Draws.of_le {ts : List Ty} (h : T.Draws a name ts) (ha : T.FirstOrder a) (hle : T ≤ T1) :
    T1.Draws a name ts := by
  rw [Draws, members_of_le hle ha.has]
  refine forall₂_mono h fun m hm t _ ht => ⟨ht.1.of_agrees (.of_le hle), ?_⟩
  rw [shape_of_le hle (ha.member hm).has]
  exact ht.2.of_le ht.1.has hle

end Properties

end Table

namespace Inference

/-- Two tuples are compared at every place that both have. -/
theorem mem_tuplePairs_of_place {v : Tuple} {i : Nat} {x y : Ty} (hy : u.place? i = some y)
    (hx : v.place? i = some x) : (y, x) ∈ tuplePairs u v := by
  have helement : v.element? i = some x := by
    rw [← hx]
    unfold Tuple.element? Tuple.place?
    rw [if_neg (by omega), Int.toNat_natCast]
    cases v.slots[i]? <;> rfl
  unfold tuplePairs
  cases hs : u.slots[i]? with
  | some s =>
    obtain rfl : s.type = y := by simpa [Tuple.place?, hs] using hy
    refine List.mem_append_left _ (List.mem_filterMap.mpr ⟨(s, i), ?_, ?_⟩)
    · exact List.mem_zipIdx_iff_getElem?.mpr hs
    · simp [helement]
  | none =>
    have hr : u.rest = some y := by simpa [Tuple.place?, hs] using hy
    have hpast := List.getElem?_eq_none_iff.mp hs
    refine List.mem_append_right _ ?_
    simp only [hr, List.mem_append, List.mem_map, Option.mem_toList, Option.map_eq_some_iff]
    cases ht : v.slots[i]? with
    | some t =>
      obtain rfl : t.type = x := by simpa [Tuple.place?, ht] using hx
      refine .inl ⟨t, ?_, rfl⟩
      rw [List.mem_drop_iff_getElem]
      obtain ⟨hi, rfl⟩ := List.getElem?_eq_some_iff.mp ht
      exact ⟨i - u.slots.length, by omega, by congr 1; omega⟩
    | none => exact .inr ⟨x, by simpa [Tuple.place?, ht] using hx, rfl⟩

/-! ### Evidence that has everything -/

namespace Evidence

variable (T : Table) (vars : List TypeVar) (e : Evidence)

/-- The two types were compared, unless the template says nothing about the parameters. -/
def Compared (p a : Ty) : Prop := Ty.mentions T vars p = true → (p, a) ∈ e.visited

/-- The field was compared with the property of the argument, if all members of the argument have
one. -/
def PursuesField (a : Ty) (f : Field) : Prop :=
  (∃ ts w, T.Draws a f.name ts ∧ T.Unites ts w ∧ e.Compared T vars f.type w) ∨
    ∃ m ∈ T.members a, (T.shape m).Lacks f.name

/-- The only member of a union that mentions a parameter was compared with the parts of the argument
that do not fit the others. -/
def PursuesOnly (ms : List Ty) (g a : Ty) : Prop :=
  ∃ others parts rest, T.Unites (ms.filter (!Ty.mentions T vars ·)) others ∧ T.Unites parts rest ∧
    (∀ x, x ∈ parts ↔ x ∈ Ty.splitMembers T a ∧ ¬T.Fits (T.shape x) (T.shape others)) ∧
    (rest = .never ∨ e.Compared T vars g rest)

/-- The only member that mentions a parameter was compared with its part of the argument, several
ones with the whole. -/
def PursuesUnion (ms : List Ty) (a : Ty) : Prop :=
  match ms.filter (Ty.mentions T vars) with
  | [g] => e.PursuesOnly T vars ms g a
  | _ => ∀ g ∈ ms, e.Compared T vars g a

/-- The evidence has what comparing a template with an argument leads to. -/
def Pursues (p a : Ty) : Prop :=
  match T.shape p with
  | .parameter v => (v, a) ∈ e.found
  | .array element _ => ∀ es, (T.shape a).elements? = some es →
      ∃ w, T.Unites es w ∧ e.Compared T vars element w
  | .tuple u => ∀ v, T.shape a = .tuple v → ∀ q ∈ tuplePairs u v, e.Compared T vars q.1 q.2
  | .object m => ∀ f ∈ m.fields, e.PursuesField T vars a f
  | .union ms => e.PursuesUnion T vars ms a
  | _ => True

/-- Every comparison was followed. -/
def Closed : Prop := ∀ q ∈ e.visited, e.Pursues T vars q.1 q.2

/-- No union was compared with a template that does not look into unions. -/
def Plain : Prop := ∀ q ∈ e.visited, (T.shape q.2).IsUnion → T.LooksInside vars q.1

end Evidence

section Enough

variable {T : Table} {vars : List TypeVar} {e : Evidence} {p a q q' : Ty} {image image' : Ty → Ty}

/-- What was compared with a part fits what the second substitution makes of it if it fits what the
first one makes of it. -/
def Carries (T : Table) (vars : List TypeVar) (e : Evidence) (p q q' : Ty) : Prop :=
  ∀ a, T.FirstOrder a → e.Compared T vars p a → T.Fits (T.shape a) (T.shape q) →
    T.Fits (T.shape a) (T.shape q')

theorem carries_array {element : Ty} {readonly : Bool} (hunion : ¬(T.shape a).IsUnion)
    (hT : T.WellFormed) (hpursues : ∀ es, (T.shape a).elements? = some es →
      ∃ w, T.Unites es w ∧ e.Compared T vars element w)
    (hq : T.Rebuilds image q (.array element readonly))
    (hq' : T.Rebuilds image' q' (.array element readonly))
    (hpart : Carries T vars e element (image element) (image' element))
    (h : T.Fits (T.shape a) (T.shape q)) : T.Fits (T.shape a) (T.shape q') := by
  refine hq.fits_array hq' hunion (fun es hes hfits => ?_) h
  obtain ⟨w, hw, hcompared⟩ := hpursues es hes
  exact (hw.fits_iff hT).mp (hpart w hw.firstOrder hcompared ((hw.fits_iff hT).mpr hfits))

theorem carries_tuple (ha : T.FirstOrder a) (hunion : ¬(T.shape a).IsUnion)
    (hpursues : ∀ v, T.shape a = .tuple v → ∀ q ∈ tuplePairs u v, e.Compared T vars q.1 q.2)
    (hq : T.Rebuilds image q (.tuple u)) (hq' : T.Rebuilds image' q' (.tuple u))
    (hpart : ∀ t ∈ u.elements, Carries T vars e t (image t) (image' t))
    (h : T.Fits (T.shape a) (T.shape q)) : T.Fits (T.shape a) (T.shape q') := by
  refine hq.fits_tuple hq' hunion (fun v hv i x y hx hy hfits => ?_) h
  have hfirst : T.FirstOrder x := by
    refine ha.part ?_
    rw [hv]
    exact Tuple.mem_elements_of_place? hx
  refine hpart y (Tuple.mem_elements_of_place? hy) x hfirst ?_ hfits
  exact hpursues v hv (y, x) (mem_tuplePairs_of_place hy hx)

/-- An object is compared field by field, with all members of the argument at once. -/
theorem carries_object {m : Members} (hT : T.WellFormed) (ha : T.FirstOrder a)
    (hsome : m.fields ≠ []) (hnames : (m.fields.map Field.name).Nodup)
    (hpursues : ∀ f ∈ m.fields, e.PursuesField T vars a f)
    (hq : T.Rebuilds image q (.object m)) (hq' : T.Rebuilds image' q' (.object m))
    (hpart : ∀ f ∈ m.fields, Carries T vars e f.type (image f.type) (image' f.type))
    (h : T.Fits (T.shape a) (T.shape q)) : T.Fits (T.shape a) (T.shape q') := by
  by_cases hnever : T.shape a = .primitive .never
  · rw [hnever]
    exact .bottom _
  -- every member has a value for every field of the first object
  have hsupplies : ∀ k ∈ T.members a, ∀ f ∈ m.fields,
      Assign.Supplies T (T.shape k) (f.mapType image) := by
    intro k hk f hf
    obtain ⟨hsingle, hproper⟩ := ha.member_cases hT hk
    exact hq.field_supplied hT hnames hsingle (fun hk => hnever (hproper hk))
      ((ha.fits_iff_members hT).mp h k hk) hf
  rw [ha.fits_iff_members hT]
  intro k hk
  refine hq'.fits_of_supplies hT hsome hnames (ha.member_cases hT hk).1 fun f hf => ?_
  rcases hpursues f hf with ⟨ts, w, hdraws, hw, hcompared⟩ | ⟨k', hk', hlacks⟩
  · have hfits : T.Fits (T.shape w) (T.shape (image f.type)) := by
      rw [hw.fits_iff hT]
      intro t ht
      obtain ⟨k', hk', -, hsupplied⟩ := exists_of_forall₂ hdraws.flip ht
      exact (hsupplied.supplies_iff hT (f := f.mapType image)).mp (hsupplies k' hk' f hf)
    have hfits' := hpart f hf w hw.firstOrder hcompared hfits
    obtain ⟨t, ht, -, hsupplied⟩ := exists_of_forall₂ hdraws hk
    exact (hsupplied.supplies_iff hT (f := f.mapType image')).mpr ((hw.fits_iff hT).mp hfits' t ht)
  · exact absurd (hsupplies k' hk' f hf) (Table.not_supplies_of_lacks (f := f.mapType image) hlacks)

/-- The one member of a union that mentions a parameter takes what the others leave. -/
theorem carries_only {g : Ty} (hT : T.WellFormed) (ha : T.FirstOrder a)
    (hgeneric : ms.filter (Ty.mentions T vars) = [g]) (hpursues : e.PursuesOnly T vars ms g a)
    (hq : T.Unites (ms.map image) q) (hq' : T.Unites (ms.map image') q')
    (hfixed : ∀ m ∈ ms, Ty.mentions T vars m = false → image m = m ∧ image' m = m)
    (hpart : Carries T vars e g (image g) (image' g))
    (h : T.Fits (T.shape a) (T.shape q)) : T.Fits (T.shape a) (T.shape q') := by
  obtain ⟨others, parts, rest, hothers, hrest, hparts, hcompared⟩ := hpursues
  have hg : g ∈ ms := List.mem_of_mem_filter (hgeneric ▸ List.mem_singleton_self g)
  have hsingle : ∀ m ∈ ms, m = g ∨ m ∈ ms.filter (!Ty.mentions T vars ·) := by
    intro m hm
    cases hmentions : Ty.mentions T vars m with
    | true =>
      have hin := List.mem_filter.mpr ⟨hm, hmentions⟩
      rw [hgeneric] at hin
      exact .inl (List.mem_singleton.mp hin)
    | false => exact .inr (List.mem_filter.mpr ⟨hm, by simp [hmentions]⟩)
  have hstay : ∀ m ∈ ms.filter (!Ty.mentions T vars ·), m ∈ ms ∧ image m = m ∧ image' m = m := by
    intro m hm
    obtain ⟨hm, hmentions⟩ := List.mem_filter.mp hm
    exact ⟨hm, hfixed m hm (by simpa using hmentions)⟩
  have hfirst : T.Fits (T.shape others) (T.shape q') := by
    rw [hothers.fits_iff hT]
    intro m hm
    obtain ⟨hin, -, hself⟩ := hstay m hm
    exact hq'.fits_part hT (List.mem_map.mpr ⟨m, hin, hself⟩)
  -- what the other members do not take fits what the one member becomes
  have hleft : T.Fits (T.shape rest) (T.shape (image g)) := by
    rw [hrest.fits_iff hT]
    intro x hx
    obtain ⟨hsplit, hnot⟩ := (hparts x).mp hx
    obtain ⟨hunion, hboolean⟩ := ha.splitMember hT hsplit
    rcases hq.cases hT hunion ((ha.fits_iff_splitMembers hT).mp h x hsplit) with
      hnever | ⟨t, ht, hfits⟩ | ⟨hsame, -⟩
    · rw [hnever]
      exact .bottom _
    · obtain ⟨m, hm, rfl⟩ := List.mem_map.mp ht
      rcases hsingle m hm with rfl | hm
      · exact hfits
      · rw [(hstay m hm).2.1] at hfits
        exact absurd (hfits.trans hT (hothers.fits_part hT hm)) hnot
    · exact absurd hsame hboolean
  have hsecond : T.Fits (T.shape rest) (T.shape q') := by
    rcases hcompared with rfl | hcompared
    · exact .bottom _
    · exact (hpart rest hrest.firstOrder hcompared hleft).trans hT
        (hq'.fits_part hT (List.mem_map_of_mem hg))
  rw [ha.fits_iff_splitMembers hT]
  intro x hx
  by_cases hfits : T.Fits (T.shape x) (T.shape others)
  · exact hfits.trans hT hfirst
  · exact (hrest.fits_part hT ((hparts x).mpr ⟨hx, hfits⟩)).trans hT hsecond

/-- Several members of a union that mention parameters are all compared with the whole. -/
theorem carries_several (hT : T.WellFormed) (ha : T.FirstOrder a)
    (hpursues : ∀ m ∈ ms, e.Compared T vars m a)
    (hq : T.Unites (ms.map image) q) (hq' : T.Unites (ms.map image') q')
    (hfixed : ∀ m ∈ ms, Ty.mentions T vars m = false → image m = m ∧ image' m = m)
    (hparameter : ∀ m ∈ ms, ∀ v ∈ vars, T.shape m = .parameter v →
      T.Fits (T.shape a) (T.shape (image' m)))
    (hplain : (T.shape a).IsUnion → ∃ m ∈ ms, ∃ v ∈ vars, T.shape m = .parameter v)
    (htruth : ∀ m ∈ ms, Ty.mentions T vars m = true → (∀ v ∈ vars, T.shape m ≠ .parameter v) →
      ∀ b, ¬T.Fits (.literal (.boolean b)) (T.shape (image m)))
    (hpart : ∀ m ∈ ms, Carries T vars e m (image m) (image' m))
    (h : T.Fits (T.shape a) (T.shape q)) : T.Fits (T.shape a) (T.shape q') := by
  have hlands : ∀ m ∈ ms, T.Fits (T.shape (image' m)) (T.shape q') := fun m hm =>
    hq'.fits_part hT (List.mem_map_of_mem hm)
  by_cases hsome : ∃ m ∈ ms, ∃ v ∈ vars, T.shape m = .parameter v
  · obtain ⟨m, hm, v, hv, hs⟩ := hsome
    exact (hparameter m hm v hv hs).trans hT (hlands m hm)
  rcases hq.cases hT (fun hunion => hsome (hplain hunion)) h
    with hnever | ⟨t, ht, hfits⟩ | ⟨hsame, hvalues⟩
  · rw [hnever]
    exact .bottom _
  · obtain ⟨m, hm, rfl⟩ := List.mem_map.mp ht
    exact (hpart m hm a ha (hpursues m hm) hfits).trans hT (hlands m hm)
  · -- a truth value fits only members that stay as they are
    have hvalue : ∀ b, T.Fits (.literal (.boolean b)) (T.shape q') := by
      intro b
      obtain ⟨t, ht, hfits⟩ := hvalues b
      obtain ⟨m, hm, rfl⟩ := List.mem_map.mp ht
      cases hmentions : Ty.mentions T vars m with
      | true =>
        refine absurd hfits (htruth m hm hmentions (fun v hv hs => hsome ⟨m, hm, v, hv, hs⟩) b)
      | false =>
        obtain ⟨hself, hself'⟩ := hfixed m hm hmentions
        rw [hself] at hfits
        exact hfits.trans hT (hself' ▸ hlands m hm)
    rw [hsame]
    exact Table.Fits.boolean hT (hvalue true) (hvalue false)

theorem carries_union (hT : T.WellFormed)
    (ha : T.FirstOrder a) (hclosed : e.Closed T vars) (hplain : e.Plain T vars)
    (hfound : ∀ b ∈ e.found, ∀ u, σ.lookup b.1 = some u → T.Fits (T.shape b.2) (T.shape u))
    (hs : T.shape p = .union ms) (hms : ∀ m ∈ ms, T.Template vars m) (hvisited : (p, a) ∈ e.visited)
    (himage : ∀ m ∈ ms, T.imageAt vars τ depth m (image m))
    (himage' : ∀ m ∈ ms, T.imageAt vars σ depth m (image' m))
    (hq : T.Unites (ms.map image) q) (hq' : T.Unites (ms.map image') q')
    (hpart : ∀ m ∈ ms, Carries T vars e m (image m) (image' m))
    (h : T.Fits (T.shape a) (T.shape q)) : T.Fits (T.shape a) (T.shape q') := by
  have hpursues := hclosed _ hvisited
  have hinside := hplain _ hvisited
  have hfixed : ∀ m ∈ ms, Ty.mentions T vars m = false → image m = m ∧ image' m = m := by
    intro m hm hmentions
    have hsame := himage m hm
    have hsame' := himage' m hm
    cases depth with
    | zero => exact hsame.elim
    | succ depth =>
      exact ⟨(imageAt_unmentioned hmentions).mp hsame,
        (imageAt_unmentioned hmentions).mp hsame'⟩
  simp only [Evidence.Pursues, Evidence.PursuesUnion, Table.LooksInside, hs] at hpursues hinside
  by_cases hone : ∃ g, ms.filter (Ty.mentions T vars) = [g]
  · obtain ⟨g, hg⟩ := hone
    rw [hg] at hpursues
    have hin : g ∈ ms := List.mem_of_mem_filter (hg ▸ List.mem_singleton_self g)
    exact carries_only hT ha hg hpursues hq hq' hfixed (hpart g hin) h
  · have hcompared : ∀ m ∈ ms, e.Compared T vars m a := by
      split at hpursues
      next g hg =>
        exact absurd ⟨g, hg⟩ hone
      · exact hpursues
    refine carries_several hT ha hcompared hq hq' hfixed ?_ ?_ ?_ hpart h
    · intro m hm v hv hmv
      have hmentions : Ty.mentions T vars m = true := by
        rw [mentions_parameter hmv]
        simpa using hv
      have hobserved := hclosed _ (hcompared m hm hmentions)
      simp only [Evidence.Pursues, hmv] at hobserved
      refine hfound _ hobserved _ ?_
      have hsame' := himage' m hm
      cases depth with
      | zero => exact hsame'.elim
      | succ depth => exact (imageAt_parameter hmentions hmv).mp hsame'
    · intro hunion
      refine (hinside hunion).resolve_left fun hlength => hone ?_
      exact List.length_eq_one_iff.mp hlength
    · intro m hm hmentions hv b
      have hnone : ∀ v, T.shape m ≠ .parameter v := by
        intro v hmv
        rw [mentions_parameter hmv] at hmentions
        exact hv v (by simpa using hmentions) hmv
      have hsame := himage m hm
      cases depth with
      | zero => exact hsame.elim
      | succ depth =>
        obtain ⟨_, -, hrebuilds⟩ := (imageAt_composite hmentions hnone).mp hsame
        exact hrebuilds.not_fits_truth hT (hms m hm) ((hms m hm).composite hmentions hnone)
          (hT.not_isUnion hs hm) b

theorem fits_imageAt (hT : T.WellFormed) (hclosed : e.Closed T vars) (hplain : e.Plain T vars)
    (hfound : ∀ b ∈ e.found, ∀ u, σ.lookup b.1 = some u → T.Fits (T.shape b.2) (T.shape u))
    (hp : T.Template vars p) (hq : T.imageAt vars τ depth p q)
    (hq' : T.imageAt vars σ depth p q') : Carries T vars e p q q' := by
  induction depth generalizing p q q' with
  | zero => exact hq.elim
  | succ depth ih =>
    intro a ha hcompared hfits
    cases hmentions : Ty.mentions T vars p with
    | false =>
      rw [imageAt_unmentioned hmentions] at hq hq'
      rwa [hq', ← hq]
    | true =>
      have hvisited := hcompared hmentions
      have hpursues := hclosed _ hvisited
      by_cases hv : ∃ v, T.shape p = .parameter v
      · obtain ⟨v, hs⟩ := hv
        simp only [Evidence.Pursues, hs] at hpursues
        exact hfound _ hpursues _ ((imageAt_parameter hmentions hs).mp hq')
      · rw [not_exists] at hv
        have hparts := hp.composite hmentions hv
        obtain ⟨image, himage, hrebuilds⟩ := (imageAt_composite hmentions hv).mp hq
        obtain ⟨image', himage', hrebuilds'⟩ := (imageAt_composite hmentions hv).mp hq'
        have hpart : ∀ t ∈ (T.shape p).parts, Carries T vars e t (image t) (image' t) := fun t ht =>
          ih (hp.part ht) (himage t ht) (himage' t ht)
        have hunion : (T.shape a).IsUnion → T.LooksInside vars p := hplain _ hvisited
        cases hp with
        | parameter hs => exact absurd hs (hv _)
        | literal hs => exact absurd (by simp [hs, Shape.parts]) hparts
        | primitive => exact absurd (by simp [Table.shape, Shape.parts]) hparts
        | @array _ element readonly hs =>
          simp only [Evidence.Pursues, Table.LooksInside, hs, imp_false] at hpursues hunion
          rw [hs] at hrebuilds hrebuilds' hpart
          exact carries_array hunion hT hpursues hrebuilds hrebuilds'
            (hpart element (by simp [Shape.parts]))
            hfits
        | @tuple _ u hs =>
          simp only [Evidence.Pursues, Table.LooksInside, hs, imp_false] at hpursues hunion
          rw [hs] at hrebuilds hrebuilds' hpart
          exact carries_tuple ha hunion hpursues hrebuilds hrebuilds' hpart hfits
        | @object _ m hs _ _ hindex hcalls =>
          simp only [Evidence.Pursues, hs] at hpursues
          have hnames := hT.tidy p
          rw [hs] at hrebuilds hrebuilds' hpart hparts hnames
          exact carries_object hT ha (by simpa [Shape.parts, hindex, hcalls] using hparts) hnames
            hpursues hrebuilds hrebuilds' (fun f hf => hpart _ (mem_parts_of_field hf)) hfits
        | @union _ ms hs hms =>
          rw [hs] at hrebuilds hrebuilds' hpart himage himage'
          exact carries_union hT ha hclosed hplain hfound hs hms hvisited himage himage' hrebuilds
            hrebuilds' hpart hfits

/-- **The evidence is enough**: whatever fits what some bindings make of a template that it was
compared with, fits what any bindings make of it that take the types found. -/
theorem fits_image (hT : T.WellFormed) (hclosed : e.Closed T vars) (hplain : e.Plain T vars)
    (hfound : ∀ b ∈ e.found, ∀ u, σ.lookup b.1 = some u → T.Fits (T.shape b.2) (T.shape u))
    (hp : T.Template vars p) (hq : T.Image vars τ p q) (hq' : T.Image vars σ p q') :
    Carries T vars e p q q' := by
  obtain ⟨depth, hq⟩ := hq
  obtain ⟨depth', hq'⟩ := hq'
  exact fits_imageAt hT hclosed hplain hfound hp
    (imageAt_mono (Nat.le_max_left depth depth') hq)
    (imageAt_mono (Nat.le_max_right depth depth') hq')

end Enough

end Inference

end ShapeCheck
