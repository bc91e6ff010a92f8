import ShapeCheck.Proofs.Building
import ShapeCheck.Proofs.Descent
import ShapeCheck.Proofs.HashConsing

/-!
# First-order types

Types without functions, parameters, references and `any`: primitives, literals, arrays, tuples,
unions, and objects with required fields. On them, what fits where is a relation between shapes that
goes down on both sides. A source union is split before a target union, strings, arrays and tuples
act as objects with a length, and a tuple is compared with another one place by place.

* `Table.FirstOrder` are these types, `Table.Fits` is the relation between their shapes.
* `Table.Fits.trans` says that the relation is transitive.
* `Interning.settles_union_fits` says that a union fits where all its members fit.
-/

namespace ShapeCheck

variable {i : Nat} {x u m : Ty} {l : Shape} {es : List Ty}

namespace Tuple

/-- The type at a place, the rest past the fixed ones. -/
def place? (u : Tuple) (i : Nat) : Option Ty := (u.slots[i]?.map Slot.type).or u.rest

/-- The place is a fixed one that may not be absent. -/
def Requires (u : Tuple) (i : Nat) : Prop := ∃ s, u.slots[i]? = some s ∧ s.optional = false

/-- Whether all values of the tuple have one length. -/
def isFixed (u : Tuple) : Bool := u.rest.isNone && u.slots.all (!·.optional)

/-- The second tuple requires no more places than the first, and has all of its places. -/
structure Suits (u v : Tuple) : Prop where
  required : ∀ i, v.Requires i → u.Requires i
  within : ∀ i, (u.place? i).isSome → (v.place? i).isSome

end Tuple

namespace Shape

/-- The shape is a union. -/
def IsUnion (s : Shape) : Prop := ∃ ms, s = .union ms

/-- Whether it is no union and all its values are different from what is missing. -/
def isPresent : Shape → Bool
  | .primitive .number | .primitive .string | .primitive .boolean | .primitive .bigint
  | .primitive .symbol => true
  | .literal _ | .object _ | .array _ _ | .tuple _ => true
  | _ => false

/-- The shape of the property `length`. -/
def length? : Shape → Option Shape
  | .primitive .string => some (.primitive .number)
  | .literal (.string _) => some (.primitive .number)
  | .array _ _ => some (.primitive .number)
  | .tuple u => some (if u.isFixed then .literal (.number (.ofNat u.slots.length))
      else .primitive .number)
  | _ => none

/-- The types of the elements of an array or a tuple. -/
def elements? : Shape → Option (List Ty)
  | .array element _ => some [element]
  | .tuple u => some u.elements
  | _ => none

end Shape

namespace Table

/-- The types built from primitives and literals with arrays, tuples, unions, and objects whose
fields are required and have no numeric names. A union has members, none of them `never` or
`unknown`. -/
inductive FirstOrder (T : Table) : Ty → Prop
  | primitive {p : Primitive} (hany : p ≠ .any) (hvalid : p ≠ .invalid) : FirstOrder T (.prim p)
  | literal {t : Ty} {l : Literal} (h : T.shape t = .literal l) : FirstOrder T t
  | array {t e : Ty} {readonly : Bool} (h : T.shape t = .array e readonly) (he : FirstOrder T e) :
    FirstOrder T t
  | tuple {t : Ty} {u : Tuple} (h : T.shape t = .tuple u) (hu : ∀ e ∈ u.elements, FirstOrder T e) :
    FirstOrder T t
  | union {t : Ty} {ms : List Ty} (h : T.shape t = .union ms) (hsome : ms ≠ [])
    (hms : ∀ m ∈ ms, FirstOrder T m) (hproper : ∀ m ∈ ms, m ≠ .never ∧ m ≠ .unknown) :
    FirstOrder T t
  | object {t : Ty} {m : Members} (h : T.shape t = .object m)
    (hm : ∀ f ∈ m.fields, FirstOrder T f.type)
    (hplain : ∀ f ∈ m.fields, f.optional = false ∧ Decimal.isNumeric f.name = false)
    (hindex : m.index = none) (hcalls : m.calls = []) : FirstOrder T t

/-- A value of the first shape can be given to a variable of the second. -/
inductive Fits (T : Table) : Shape → Shape → Prop
  | refl (s : Shape) : Fits T s s
  | top (s : Shape) : Fits T s (.primitive .unknown)
  | bottom (t : Shape) : Fits T (.primitive .never) t
  | split {ms : List Ty} {t : Shape} (hnever : t ≠ .primitive .never)
    (h : ∀ m ∈ ms, Fits T (T.shape m) t) : Fits T (.union ms) t
  | truths {ms : List Ty} (htrue : .truth true ∈ ms) (hfalse : .truth false ∈ ms) :
    Fits T (.primitive .boolean) (.union ms)
  | member {s : Shape} {ms : List Ty} {m : Ty} (hunion : ¬s.IsUnion)
    (htop : s ≠ .primitive .unknown)
    (hm : m ∈ ms) (h : Fits T s (T.shape m)) : Fits T s (.union ms)
  | literal {k l : Literal} (hbase : k.base = l.base) (htext : k.text = l.text) :
    Fits T (.literal k) (.literal l)
  | base {l : Literal} {p : Primitive} (h : l.base = p) : Fits T (.literal l) (.primitive p)
  | absent : Fits T (.primitive .undefined) (.primitive .void)
  /-- The empty object takes everything that is not nullish. -/
  | empty {s : Shape} {n : Members} (hs : s.isPresent = true) (hn : n.fields = []) :
    Fits T s (.object n)
  | fields {m n : Members} (hsome : ∀ f ∈ n.fields, (m.field? f.name).isSome)
    (h : ∀ f ∈ n.fields, ∀ g, m.field? f.name = some g → Fits T (T.shape g.type) (T.shape f.type)) :
    Fits T (.object m) (.object n)
  /-- What has a length is an object with that field. -/
  | length {s l : Shape} {n : Members} (hs : s.length? = some l)
    (hnames : ∀ f ∈ n.fields, f.name = "length")
    (h : ∀ f ∈ n.fields, Fits T l (T.shape f.type)) : Fits T s (.object n)
  | elements {s : Shape} {es : List Ty} {e : Ty} {readonly : Bool} (hs : s.elements? = some es)
    (h : ∀ x ∈ es, Fits T (T.shape x) (T.shape e)) : Fits T s (.array e readonly)
  /-- Two tuples are compared at the places that both have. -/
  | places {u v : Tuple} (hsuits : u.Suits v)
    (h : ∀ i x y, u.place? i = some x → v.place? i = some y → Fits T (T.shape x) (T.shape y)) :
    Fits T (.tuple u) (.tuple v)

/-- Only the primitives themselves have their shapes. -/
theorem eq_prim_of_shape {T : Table} {t : Ty} (hT : T.WellFormed) {q : Primitive}
    (h : T.shape t = .primitive q) (hq : q ≠ .invalid) : t = .prim q := by
  cases t with
  | prim r => exact congrArg Ty.prim (Shape.primitive.inj h)
  | truth b => simp [shape] at h
  | made k =>
    cases he : T.entries[k]? with
    | none =>
      simp only [shape, he] at h
      exact absurd (Shape.primitive.inj h).symm hq
    | some e =>
      have hentry := (hT.entry k e he).isEntry
      rw [shape_made he] at h
      rw [h] at hentry
      exact hentry.elim

end Table

namespace Tuple

variable {u v w : Tuple}

theorem Suits.trans (huv : u.Suits v) (hvw : v.Suits w) : u.Suits w :=
  ⟨fun i hi => huv.required i (hvw.required i hi), fun i hi => hvw.within i (huv.within i hi)⟩

theorem mem_elements_of_place? (h : u.place? i = some x) : x ∈ u.elements := by
  rw [place?, Option.or_eq_some_iff] at h
  rcases h with h | ⟨-, h⟩
  · obtain ⟨s, hs, rfl⟩ := Option.map_eq_some_iff.mp h
    exact List.mem_append_left _ (List.mem_map_of_mem (List.mem_of_getElem? hs))
  · exact List.mem_append_right _ (Option.mem_toList.mpr h)

theorem exists_place_of_mem (h : x ∈ u.elements) : ∃ i, u.place? i = some x := by
  rcases List.mem_append.mp h with h | h
  · obtain ⟨s, hs, rfl⟩ := List.mem_map.mp h
    obtain ⟨i, hi⟩ := List.mem_iff_getElem?.mp hs
    exact ⟨i, by simp [place?, hi]⟩
  · exact ⟨u.slots.length, by simpa [place?] using h⟩

theorem isFixed_iff : u.isFixed = true ↔
    u.rest = none ∧ ∀ i, i < u.slots.length → u.Requires i := by
  simp only [isFixed, Bool.and_eq_true, Option.isNone_iff_eq_none, List.all_eq_true,
    Bool.not_eq_true']
  refine and_congr_right fun _ => ⟨fun h i hi => ?_, fun h s hs => ?_⟩
  · exact ⟨u.slots[i], List.getElem?_eq_getElem hi, h _ (List.getElem_mem hi)⟩
  · obtain ⟨i, hi⟩ := List.mem_iff_getElem?.mp hs
    obtain ⟨s', hs', hopt⟩ := h i (List.getElem?_eq_some_iff.mp hi).1
    rwa [Option.some.inj (hi.symm.trans hs')]

theorem Requires.lt (h : u.Requires i) : i < u.slots.length := by
  obtain ⟨s, hs, -⟩ := h
  exact (List.getElem?_eq_some_iff.mp hs).1

theorem isSome_place? : (u.place? i).isSome ↔ i < u.slots.length ∨ u.rest.isSome := by
  simp [place?]

/-- Only a tuple of one length suits a tuple of one length, and the lengths are the same. -/
theorem Suits.isFixed (h : u.Suits v) (hv : v.isFixed = true) :
    u.isFixed = true ∧ u.slots.length = v.slots.length := by
  obtain ⟨hrest, hrequired⟩ := isFixed_iff.mp hv
  have hplaces : ∀ i, i < u.slots.length ∨ u.rest.isSome → i < v.slots.length := by
    intro i hi
    have := isSome_place?.mp (h.within i (isSome_place?.mpr hi))
    simpa [hrest] using this
  have hnone : u.rest = none := by
    rw [← Option.not_isSome_iff_eq_none]
    intro hsome
    exact Nat.lt_irrefl _ (hplaces v.slots.length (.inr hsome))
  have hle : u.slots.length ≤ v.slots.length := by
    by_contra hlt
    exact Nat.lt_irrefl _ (hplaces v.slots.length (.inl (by omega)))
  have hall : ∀ i, i < v.slots.length → u.Requires i := fun i hi =>
    h.required i (hrequired i hi)
  have hge : v.slots.length ≤ u.slots.length := by
    by_contra hlt
    exact Nat.lt_irrefl _ (hall u.slots.length (by omega)).lt
  exact ⟨isFixed_iff.mpr ⟨hnone, fun i hi => hall i (by omega)⟩, by omega⟩

end Tuple

namespace Table

section Relation

variable {T : Table} {a b c s t : Shape}

theorem Fits.unknown_left (h : T.Fits (.primitive .unknown) t) : t = .primitive .unknown := by
  cases h with
  | refl | top => rfl
  | member _ htop => exact absurd rfl htop
  | empty hs => simp [Shape.isPresent] at hs
  | length hs => simp [Shape.length?] at hs
  | elements hs => simp [Shape.elements?] at hs

theorem Fits.never_right (h : T.Fits s (.primitive .never)) : s = .primitive .never := by
  cases h with
  | refl | bottom => rfl
  | split hnever => exact absurd rfl hnever
  | @base l _ h => cases l <;> simp [Literal.base] at h

/-- It is enough to look at sources that are no unions. -/
theorem Fits.of_single (hab : T.Fits a b) (hbc : T.Fits b c)
    (h : ∀ s, ¬s.IsUnion → T.Fits s b → T.Fits s c) : T.Fits a c := by
  by_cases ha : a.IsUnion
  · induction hab with
    | refl => exact hbc
    | top =>
      rw [hbc.unknown_left]
      exact .top _
    | @split ms t hnever hms ih =>
      refine .split ?_ fun m hm => ?_
      · rintro rfl
        exact hnever hbc.never_right
      · by_cases hm' : (T.shape m).IsUnion
        · exact ih m hm hbc h hm'
        · exact h _ hm' (hms m hm)
    | bottom | truths | literal | base | absent | fields | places =>
      obtain ⟨ms, hms⟩ := ha
      cases hms
    | member hunion => exact absurd ha hunion
    | empty hs =>
      obtain ⟨ms, rfl⟩ := ha
      simp [Shape.isPresent] at hs
    | length hs =>
      obtain ⟨ms, rfl⟩ := ha
      simp [Shape.length?] at hs
    | elements hs =>
      obtain ⟨ms, rfl⟩ := ha
      simp [Shape.elements?] at hs
  · exact h a ha hab

/-- The members of a union of the table are no unions. -/
theorem WellFormed.not_isUnion (hT : T.WellFormed) {ms : List Ty}
    (h : T.shape u = .union ms) (hm : m ∈ ms) : ¬(T.shape m).IsUnion := by
  rintro ⟨ns, hns⟩
  have hself := hT.members_member (t := u) (m := m) (by simpa [members, h] using hm)
  simp only [members, hns] at hself
  have hlt := hT.rank_part (t := m) (p := m) (by simp [hns, Shape.parts, hself])
  exact Nat.lt_irrefl _ hlt

theorem boolean_of_alike {l : Literal} {x : Bool} (hbase : (Literal.boolean x).base = l.base)
    (htext : (Literal.boolean x).text = l.text) : l = .boolean x := by
  cases l with
  | boolean y => cases x <;> cases y <;> simp_all [Literal.text]
  | _ => simp [Literal.base] at hbase

/-- Where a truth value fits, `boolean` does, or it is the truth value itself. -/
theorem Fits.of_truth {x : Bool} (h : T.Fits (.literal (.boolean x)) t)
    (ht : ¬t.IsUnion) : T.Fits (.primitive .boolean) t ∨ t = .literal (.boolean x) := by
  cases h with
  | refl => exact .inr rfl
  | top => exact .inl (.top _)
  | literal hbase htext => exact .inr (congrArg _ (boolean_of_alike hbase htext))
  | base h =>
    obtain rfl : Primitive.boolean = _ := h
    exact .inl (.refl _)
  | empty _ hn => exact .inl (.empty rfl hn)
  | member => exact absurd ⟨_, rfl⟩ ht
  | length hs => simp [Shape.length?] at hs
  | elements hs => simp [Shape.elements?] at hs

/-- Where the two truth values fit, `boolean` does. -/
theorem Fits.boolean (hT : T.WellFormed) (htrue : T.Fits (.literal (.boolean true)) (T.shape u))
    (hfalse : T.Fits (.literal (.boolean false)) (T.shape u)) :
    T.Fits (.primitive .boolean) (T.shape u) := by
  by_cases hu : (T.shape u).IsUnion
  · obtain ⟨ms, hms⟩ := hu
    have hmember : ∀ {x : Bool}, T.Fits (.literal (.boolean x)) (T.shape u) →
        T.Fits (.primitive .boolean) (T.shape u) ∨ .truth x ∈ ms := by
      intro x h
      rw [hms] at h ⊢
      cases h with
      | @member _ _ m _ _ hm h =>
        refine (h.of_truth (hT.not_isUnion hms hm)).imp (fun h => ?_) fun h => ?_
        · exact .member (by rintro ⟨_, ⟨⟩⟩) (by simp) hm h
        · rwa [← eq_truth_of_shape hT h]
    rcases hmember htrue with h | hin
    · exact h
    rcases hmember hfalse with h | hin'
    · exact h
    rw [hms]
    exact .truths hin hin'
  · rcases htrue.of_truth hu with h | h
    · exact h
    rcases hfalse.of_truth hu with h' | h'
    · exact h'
    exact absurd (h.symm.trans h') (by simp)

/-- What fits a shape that is present is so too, unions apart. -/
theorem Fits.isPresent (h : T.Fits a b) (hb : b.isPresent = true) (ha : ¬a.IsUnion) :
    a = .primitive .never ∨ a.isPresent = true := by
  cases h with
  | refl => exact .inr hb
  | bottom => exact .inl rfl
  | top | truths | member | absent => simp [Shape.isPresent] at hb
  | split => exact absurd ⟨_, rfl⟩ ha
  | literal | base | fields | places => exact .inr rfl
  | empty hs => exact .inr hs
  | @length s l n hs =>
    refine .inr ?_
    unfold Shape.length? at hs
    split at hs <;> first | rfl | simp at hs
  | elements hs =>
    refine .inr ?_
    unfold Shape.elements? at hs
    split at hs <;> first | rfl | simp at hs

theorem Fits.length_of_elements (h : s.elements? = some es) :
    ∃ l, s.length? = some l ∧ T.Fits l (.primitive .number) := by
  cases s with
  | array e readonly => exact ⟨_, rfl, .refl _⟩
  | tuple u =>
    refine ⟨_, rfl, ?_⟩
    split
    · exact .base rfl
    · exact .refl _
  | _ => simp [Shape.elements?] at h

/-- The length of a tuple fits the one of a tuple that it suits. -/
theorem Fits.length_of_suits {u v : Tuple} (h : u.Suits v) (hl : (Shape.tuple v).length? = some l) :
    ∃ k, (Shape.tuple u).length? = some k ∧ T.Fits k l := by
  obtain rfl := Option.some.inj hl
  refine ⟨_, rfl, ?_⟩
  by_cases hv : v.isFixed = true
  · obtain ⟨hu, hlength⟩ := h.isFixed hv
    rw [if_pos hv, if_pos hu, hlength]
    exact .refl _
  · rw [if_neg hv]
    split
    · exact .base rfl
    · exact .refl _

/-- What fits an object fits one that takes each of its own fields from this object. -/
theorem Fits.through_object {m n : Members} (hsm : T.Fits s (.object m)) (hs : ¬s.IsUnion)
    (hmn : T.Fits (.object m) (.object n))
    (hfields : ∀ f ∈ n.fields, ∃ x, m.field? f.name = some x ∧
      ∀ k, T.Fits k (T.shape x.type) → T.Fits k (T.shape f.type)) : T.Fits s (.object n) := by
  have hfound : ∀ f ∈ n.fields, ∃ x ∈ m.fields, x.name = f.name ∧
      ∀ k, T.Fits k (T.shape x.type) → T.Fits k (T.shape f.type) := by
    intro f hf
    obtain ⟨x, hx, hfits⟩ := hfields f hf
    obtain ⟨hmem, hname⟩ := Members.mem_of_field? hx
    exact ⟨x, hmem, hname, hfits⟩
  cases hsm with
  | refl => exact hmn
  | bottom => exact .bottom _
  | split => exact absurd ⟨_, rfl⟩ hs
  | empty hpresent hm =>
    -- an object without fields has none of those that are asked for
    refine .empty hpresent (List.eq_nil_iff_forall_not_mem.mpr fun f hf => ?_)
    obtain ⟨x, hx, -⟩ := hfound f hf
    simp [hm] at hx
  | fields hsome h =>
    refine .fields (fun f hf => ?_) fun f hf g hg => ?_
    · obtain ⟨x, hx, hname, -⟩ := hfound f hf
      exact hname ▸ hsome x hx
    · obtain ⟨x, hx, hname, hfits⟩ := hfound f hf
      exact hfits _ (h x hx g (hname ▸ hg))
  | length hl hnames h =>
    refine .length hl (fun f hf => ?_) fun f hf => ?_
    · obtain ⟨x, hx, hname, -⟩ := hfound f hf
      exact hname ▸ hnames x hx
    · obtain ⟨x, hx, -, hfits⟩ := hfound f hf
      exact hfits _ (h x hx)

/-- What fits something with a length fits an object that takes no more than this length from it. -/
theorem Fits.through_length {n : Members} (hsb : T.Fits s b) (hs : ¬s.IsUnion)
    (hbn : T.Fits b (.object n)) (hl : b.length? = some t)
    (hlength : ∀ k, s.length? = some k → T.Fits k t → T.Fits s (.object n)) :
    T.Fits s (.object n) := by
  cases hsb with
  | refl => exact hbn
  | bottom => exact .bottom _
  | split => exact absurd ⟨_, rfl⟩ hs
  | top | truths | member | absent | empty | fields | length => simp [Shape.length?] at hl
  | @literal j k hbase htext =>
    cases k with
    | string y =>
      cases j with
      | string x => exact hlength _ rfl (Option.some.inj hl ▸ .refl _)
      | _ => simp [Literal.base] at hbase
    | _ => simp [Shape.length?] at hl
  | @base j p hp =>
    cases p with
    | string =>
      cases j with
      | string x => exact hlength _ rfl (Option.some.inj hl ▸ .refl _)
      | _ => simp [Literal.base] at hp
    | _ => simp [Shape.length?] at hl
  | elements hes =>
    obtain ⟨k, hk, hfits⟩ := Fits.length_of_elements (T := T) hes
    exact hlength k hk (Option.some.inj hl ▸ hfits)
  | places hsuits =>
    obtain ⟨k, hk, hfits⟩ := Fits.length_of_suits (T := T) hsuits hl
    exact hlength k hk hfits

/-- What fits an array or a tuple fits an array that takes the elements of these. -/
theorem Fits.through_elements {e : Ty} {readonly : Bool} (hsb : T.Fits s b) (hs : ¬s.IsUnion)
    (hbe : T.Fits b (.array e readonly)) (hes : b.elements? = some es)
    (h : ∀ x ∈ es, ∀ k, T.Fits k (T.shape x) → T.Fits k (T.shape e)) :
    T.Fits s (.array e readonly) := by
  cases hsb with
  | refl => exact hbe
  | bottom => exact .bottom _
  | split => exact absurd ⟨_, rfl⟩ hs
  | top | truths | member | absent | empty | fields | literal | base | length =>
    simp [Shape.elements?] at hes
  | @elements _ ds x _ hds h' =>
    obtain rfl := Option.some.inj hes
    exact .elements hds fun d hd => h x (by simp) _ (h' d hd)
  | @places u v hsuits h' =>
    obtain rfl := Option.some.inj hes
    refine .elements rfl fun x hx => ?_
    obtain ⟨i, hi⟩ := Tuple.exists_place_of_mem hx
    obtain ⟨y, hy⟩ := Option.isSome_iff_exists.mp (hsuits.within i (by simp [hi]))
    exact h y (Tuple.mem_elements_of_place? hy) _ (h' i x y hi hy)

/-- **What fits is transitive.** -/
theorem Fits.trans (hT : T.WellFormed) (hab : T.Fits a b) (hbc : T.Fits b (T.shape u)) :
    T.Fits a (T.shape u) := by
  generalize hc : T.shape u = c at hbc ⊢
  -- the induction is on what the target asks for; a source union is split in every case
  induction hbc generalizing a u with
  | refl => exact hab
  | top => exact .top _
  | bottom =>
    rw [hab.never_right]
    exact .bottom _
  | @split ms t hnever hms ih =>
    refine hab.of_single (.split hnever hms) fun s hs hsb => ?_
    cases hsb with
    | refl => exact absurd ⟨_, rfl⟩ hs
    | bottom => exact .bottom _
    | split => exact absurd ⟨_, rfl⟩ hs
    | truths htrue hfalse =>
      subst hc
      exact Fits.boolean hT (hms _ htrue) (hms _ hfalse)
    | @member _ _ m _ _ hm h => exact ih m hm h hc
  | @truths ms htrue hfalse =>
    refine hab.of_single (.truths htrue hfalse) fun s hs hsb => ?_
    cases hsb with
    | refl => exact .truths htrue hfalse
    | bottom => exact .bottom _
    | split => exact absurd ⟨_, rfl⟩ hs
    | @base l _ h =>
      cases l with
      | boolean x =>
        have hin : .truth x ∈ ms := by
          cases x
          · exact hfalse
          · exact htrue
        exact .member hs (by simp) hin (.refl _)
      | _ => simp [Literal.base] at h
  | @member b ms m hunion htop hm h ih =>
    refine hab.of_single (.member hunion htop hm h) fun s hs hsb => ?_
    refine .member hs ?_ hm (ih hsb rfl)
    rintro rfl
    exact htop hsb.unknown_left
  | @literal k l hbase htext =>
    refine hab.of_single (.literal hbase htext) fun s hs hsb => ?_
    cases hsb with
    | refl => exact .literal hbase htext
    | bottom => exact .bottom _
    | split => exact absurd ⟨_, rfl⟩ hs
    | literal hbase' htext' => exact .literal (hbase'.trans hbase) (htext'.trans htext)
  | @base l p h =>
    refine hab.of_single (.base h) fun s hs hsb => ?_
    cases hsb with
    | refl => exact .base h
    | bottom => exact .bottom _
    | split => exact absurd ⟨_, rfl⟩ hs
    | literal hbase => exact .base (hbase.trans h)
  | absent =>
    refine hab.of_single .absent fun s hs hsb => ?_
    cases hsb with
    | refl => exact .absent
    | bottom => exact .bottom _
    | split => exact absurd ⟨_, rfl⟩ hs
    | @base l _ h => cases l <;> simp [Literal.base] at h
  | @empty b n hb hn =>
    refine hab.of_single (.empty hb hn) fun s hs hsb => ?_
    rcases hsb.isPresent hb hs with rfl | hpresent
    · exact .bottom _
    · exact .empty hpresent hn
  | fields hsome h ih =>
    refine hab.of_single (.fields hsome h) fun s hs hsm => ?_
    refine hsm.through_object hs (.fields hsome h) fun f hf => ?_
    obtain ⟨x, hx⟩ := Option.isSome_iff_exists.mp (hsome f hf)
    exact ⟨x, hx, fun k hk => ih f hf x hx hk rfl⟩
  | length hl hnames h ih =>
    refine hab.of_single (.length hl hnames h) fun s hs hsb => ?_
    exact hsb.through_length hs (.length hl hnames h) hl fun k hk hkl =>
      .length hk hnames fun f hf => ih f hf hkl rfl
  | elements hes h ih =>
    refine hab.of_single (.elements hes h) fun s hs hsb => ?_
    exact hsb.through_elements hs (.elements hes h) hes fun x hx k hk => ih x hx hk rfl
  | @places v w hsuits h ih =>
    refine hab.of_single (.places hsuits h) fun s hs hsb => ?_
    cases hsb with
    | refl => exact .places hsuits h
    | bottom => exact .bottom _
    | split => exact absurd ⟨_, rfl⟩ hs
    | @places u _ hsuits' h' =>
      refine .places (hsuits'.trans hsuits) fun i x z hx hz => ?_
      obtain ⟨y, hy⟩ := Option.isSome_iff_exists.mp (hsuits'.within i (by simp [hx]))
      exact ih i y z hy hz (h' i x y hx hy) rfl

end Relation

/-- The types of the first table are the same in the second. Only enums may get other members. -/
structure Agrees (T T1 : Table) : Prop where
  has : ∀ {t : Ty}, T.Has t → T1.Has t
  shape : ∀ {t : Ty}, T.Has t → T1.shape t = T.shape t ∨
    (∃ e, T.shape t = .enumeration e) ∧ ∃ e, T1.shape t = .enumeration e

section Agreement

variable {T T1 T2 : Table} {s t : Ty}

theorem Agrees.of_shapes (hhas : ∀ {t}, T.Has t → T1.Has t)
    (hshape : ∀ {t}, T.Has t → T1.shape t = T.shape t) : T.Agrees T1 :=
  ⟨hhas, fun ht => .inl (hshape ht)⟩

theorem Agrees.refl (T : Table) : T.Agrees T := .of_shapes id fun _ => rfl

theorem Agrees.of_le (h : T ≤ T1) : T.Agrees T1 := .of_shapes (has_of_le h) (shape_of_le h)

theorem Agrees.trans (h : T.Agrees T1) (h' : T1.Agrees T2) : T.Agrees T2 := by
  refine ⟨fun ht => h'.has (h.has ht), fun ht => ?_⟩
  rcases h'.shape (h.has ht) with heq' | ⟨⟨e, he⟩, hlast⟩
  · rcases h.shape ht with heq | ⟨hfirst, e, he⟩
    · exact .inl (heq'.trans heq)
    · exact .inr ⟨hfirst, e, heq'.trans he⟩
  · rcases h.shape ht with heq | ⟨hfirst, -⟩
    · exact .inr ⟨⟨e, heq.symm.trans he⟩, hlast⟩
    · exact .inr ⟨hfirst, hlast⟩

theorem FirstOrder.has (h : T.FirstOrder t) : T.Has t := by
  cases h with
  | primitive => exact T.has_prim _
  | literal h | array h | tuple h | union h | object h =>
    apply has_of_shape
    rw [h]
    simp

theorem FirstOrder.not_enumeration (h : T.FirstOrder t) (e : Enumeration) :
    T.shape t ≠ .enumeration e := by
  cases h with
  | primitive => simp [shape]
  | literal h | array h | tuple h | union h | object h => simp [h]

theorem FirstOrder.part (h : T.FirstOrder t) {p : Ty} (hp : p ∈ (T.shape t).parts) :
    T.FirstOrder p := by
  cases h with
  | primitive => simp [shape, Shape.parts] at hp
  | literal h => simp [h, Shape.parts] at hp
  | array h he =>
    rw [h] at hp
    rwa [List.mem_singleton.mp hp]
  | tuple h hu =>
    rw [h] at hp
    exact hu p hp
  | union h _ hms =>
    rw [h] at hp
    exact hms p hp
  | object h hm _ hindex hcalls =>
    rw [h] at hp
    simp only [Shape.parts, hindex, hcalls, Option.map_none, Option.toList_none, List.append_nil,
      List.mem_map] at hp
    obtain ⟨f, hf, rfl⟩ := hp
    exact hm f hf

theorem Agrees.shape_eq (h : T.Agrees T1) (ht : T.FirstOrder t) : T1.shape t = T.shape t := by
  rcases h.shape ht.has with heq | ⟨⟨e, he⟩, -⟩
  · exact heq
  · exact absurd he (ht.not_enumeration e)

theorem FirstOrder.of_agrees (ht : T.FirstOrder t) (h : T.Agrees T1) : T1.FirstOrder t := by
  have hshape := fun {u : Ty} (hu : T.FirstOrder u) => h.shape_eq hu
  induction ht with
  | primitive hany hvalid => exact .primitive hany hvalid
  | literal hs => exact .literal ((hshape (.literal hs)).trans hs)
  | array hs he ih => exact .array ((hshape (.array hs he)).trans hs) ih
  | tuple hs hu ih => exact .tuple ((hshape (.tuple hs hu)).trans hs) ih
  | union hs hsome hms hproper ih =>
    exact .union ((hshape (.union hs hsome hms hproper)).trans hs) hsome ih hproper
  | object hs hm hplain hindex hcalls ih =>
    exact .object ((hshape (.object hs hm hplain hindex hcalls)).trans hs) ih hplain hindex hcalls

/-- A type that is first-order in a later table was so before. -/
theorem Agrees.firstOrder (h : T.Agrees T1) (hT : T.WellFormed) (hhas : T.Has t)
    (ht : T1.FirstOrder t) : T.FirstOrder t := by
  have hshape : ∀ {u : Ty}, T.Has u → T1.FirstOrder u → T.shape u = T1.shape u := by
    intro u hu hfirst
    rcases h.shape hu with heq | ⟨-, e, he⟩
    · exact heq.symm
    · exact absurd he (hfirst.not_enumeration e)
  induction ht with
  | primitive hany hvalid => exact .primitive hany hvalid
  | literal hs => exact .literal ((hshape hhas (.literal hs)).trans hs)
  | array hs he ih =>
    have hs' := (hshape hhas (.array hs he)).trans hs
    exact .array hs' (ih (hT.has_part hhas (by simp [hs', Shape.parts])))
  | tuple hs hu ih =>
    have hs' := (hshape hhas (.tuple hs hu)).trans hs
    exact .tuple hs' fun e he => ih e he (hT.has_part hhas (by simpa [hs', Shape.parts] using he))
  | union hs hsome hms hproper ih =>
    have hs' := (hshape hhas (.union hs hsome hms hproper)).trans hs
    refine .union hs' hsome (fun m hm => ih m hm (hT.has_part hhas ?_)) hproper
    simpa [hs', Shape.parts] using hm
  | object hs hm hplain hindex hcalls ih =>
    have hs' := (hshape hhas (.object hs hm hplain hindex hcalls)).trans hs
    refine .object hs' (fun f hf => ih f hf (hT.has_part hhas ?_)) hplain hindex hcalls
    rw [hs']
    exact List.mem_append_left _ (List.mem_append_left _ (List.mem_map_of_mem hf))

theorem parts_of_elements? {s : Shape} (h : s.elements? = some es) : s.parts = es := by
  cases s with
  | array e readonly => exact Option.some.inj h
  | tuple u => exact Option.some.inj h
  | _ => simp [Shape.elements?] at h

theorem length?_cases {s : Shape} (h : s.length? = some l) :
    l = .primitive .number ∨ ∃ x, l = .literal (.number x) := by
  unfold Shape.length? at h
  split at h
  · exact .inl (Option.some.inj h).symm
  · exact .inl (Option.some.inj h).symm
  · exact .inl (Option.some.inj h).symm
  · obtain rfl := Option.some.inj h
    split
    · exact .inr ⟨_, rfl⟩
    · exact .inl rfl
  · exact absurd h (by simp)

theorem parts_of_length? {s : Shape} (h : s.length? = some l) : l.parts = [] := by
  rcases length?_cases h with rfl | ⟨x, rfl⟩
  · rfl
  · rfl

theorem mem_parts_of_field {m : Members} {f : Field} (h : f ∈ m.fields) :
    f.type ∈ (Shape.object m).parts :=
  List.mem_append_left _ (List.mem_append_left _ (List.mem_map_of_mem h))

/-- What fits depends on the shapes of the parts only. -/
theorem Fits.congr {P : Ty → Prop} (hshape : ∀ t, P t → T1.shape t = T.shape t)
    (hparts : ∀ t, P t → ∀ p ∈ (T.shape t).parts, P p) {s t : Shape} (h : T.Fits s t)
    (hs : ∀ p ∈ s.parts, P p) (ht : ∀ p ∈ t.parts, P p) : T1.Fits s t := by
  induction h with
  | refl => exact .refl _
  | top => exact .top _
  | bottom => exact .bottom _
  | split hnever _ ih =>
    refine .split hnever fun m hm => ?_
    rw [hshape m (hs m hm)]
    exact ih m hm (hparts m (hs m hm)) ht
  | truths htrue hfalse => exact .truths htrue hfalse
  | member hunion htop hm _ ih =>
    refine .member hunion htop hm ?_
    rw [hshape _ (ht _ hm)]
    exact ih hs (hparts _ (ht _ hm))
  | literal hbase htext => exact .literal hbase htext
  | base h => exact .base h
  | absent => exact .absent
  | empty hpresent hn => exact .empty hpresent hn
  | fields hsome _ ih =>
    refine .fields hsome fun f hf g hg => ?_
    have hPf := ht _ (mem_parts_of_field hf)
    have hPg := hs _ (mem_parts_of_field (Members.mem_of_field? hg).1)
    rw [hshape _ hPf, hshape _ hPg]
    exact ih f hf g hg (hparts _ hPg) (hparts _ hPf)
  | length hl hnames _ ih =>
    refine .length hl hnames fun f hf => ?_
    have hPf := ht _ (mem_parts_of_field hf)
    rw [hshape _ hPf]
    exact ih f hf (by simp [parts_of_length? hl]) (hparts _ hPf)
  | @elements _ _ e _ hes _ ih =>
    refine .elements hes fun x hx => ?_
    have hPx := hs x (by rwa [parts_of_elements? hes])
    have hPe := ht e (by simp [Shape.parts])
    rw [hshape _ hPx, hshape _ hPe]
    exact ih x hx (hparts _ hPx) (hparts _ hPe)
  | places hsuits _ ih =>
    refine .places hsuits fun i x y hx hy => ?_
    have hPx := hs _ (Tuple.mem_elements_of_place? hx)
    have hPy := ht _ (Tuple.mem_elements_of_place? hy)
    rw [hshape _ hPx, hshape _ hPy]
    exact ih i x y hx hy (hparts _ hPx) (hparts _ hPy)

/-- What fits stays so, and so does what does not. -/
theorem Agrees.fits_iff (h : T.Agrees T1) {s t : Shape} (hs : ∀ p ∈ s.parts, T.FirstOrder p)
    (ht : ∀ p ∈ t.parts, T.FirstOrder p) : T1.Fits s t ↔ T.Fits s t := by
  constructor
  · refine fun hfits => hfits.congr (fun u hu => (h.shape_eq hu).symm) (fun u hu p hp => ?_) hs ht
    exact hu.part (h.shape_eq hu ▸ hp)
  · exact fun hfits => hfits.congr (fun u hu => h.shape_eq hu) (fun u hu p hp => hu.part hp) hs ht

theorem Agrees.fits_types_iff (h : T.Agrees T1) (hs : T.FirstOrder s) (ht : T.FirstOrder t) :
    T1.Fits (T1.shape s) (T1.shape t) ↔ T.Fits (T.shape s) (T.shape t) := by
  rw [h.shape_eq hs, h.shape_eq ht]
  exact h.fits_iff (fun p hp => hs.part hp) fun p hp => ht.part hp

end Agreement

section Members

variable {T : Table} {t : Ty} {ts : List Ty}

theorem FirstOrder.member (h : T.FirstOrder t) (hm : m ∈ T.members t) : T.FirstOrder m := by
  by_cases ht : (T.shape t).IsUnion
  · obtain ⟨ms, hms⟩ := ht
    cases h with
    | primitive => simp [shape] at hms
    | union hs _ hall =>
      simp only [members, hs] at hm
      exact hall m hm
    | literal hs | array hs | tuple hs | object hs => simp [hs] at hms
  · have hself : T.members t = [t] := by
      unfold members
      split
      next ms hms =>
        exact absurd ⟨ms, hms⟩ ht
      · rfl
    rw [hself, List.mem_singleton] at hm
    exact hm ▸ h

/-- A first-order type fits where all its members fit. -/
theorem FirstOrder.fits_iff_members (hT : T.WellFormed) (h : T.FirstOrder t) {c : Shape} :
    T.Fits (T.shape t) c ↔ ∀ m ∈ T.members t, T.Fits (T.shape m) c := by
  cases h with
  | primitive => simp [members, shape]
  | literal hs | array hs | tuple hs | object hs => simp [members, hs]
  | @union _ ms hs hsome hms hproper =>
    have hmembers : T.members t = ms := by simp [members, hs]
    rw [hmembers, hs]
    constructor
    · intro hfits m hm
      cases hfits with
      | refl =>
        refine .member (hT.not_isUnion hs hm) (fun htop => ?_) hm (.refl _)
        exact (hproper m hm).2 (eq_prim_of_shape hT htop (by simp))
      | top => exact .top _
      | split _ hall => exact hall m hm
      | member hunion => exact absurd ⟨ms, rfl⟩ hunion
      | empty hpresent => simp [Shape.isPresent] at hpresent
      | length hl => simp [Shape.length?] at hl
      | elements hes => simp [Shape.elements?] at hes
    · intro hall
      refine .split ?_ hall
      rintro rfl
      obtain ⟨m, hm⟩ := List.exists_mem_of_ne_nil ms hsome
      exact (hproper m hm).1 (eq_prim_of_shape hT (hall m hm).never_right (by simp))

/-- The members that a union of first-order types is made of. -/
theorem unionMembers_cases (hts : ∀ t ∈ ts, T.FirstOrder t) :
    .unknown ∈ Ty.allMembers T ts ∧ Ty.unionMembers T ts = [.unknown] ∨
      .unknown ∉ Ty.allMembers T ts ∧
        (Ty.essentialMembers T (Ty.allMembers T ts) = [] ∧ Ty.unionMembers T ts = [.never] ∨
          Ty.essentialMembers T (Ty.allMembers T ts) ≠ [] ∧
            Ty.unionMembers T ts = Ty.essentialMembers T (Ty.allMembers T ts)) := by
  have hprim : ∀ {p : Primitive}, .prim p ∈ Ty.allMembers T ts → p ≠ .any ∧ p ≠ .invalid := by
    intro p hp
    obtain ⟨t, ht, hm⟩ := mem_allMembers.mp hp
    cases (hts t ht).member hm with
    | primitive hany hvalid => exact ⟨hany, hvalid⟩
    | literal h | array h | tuple h | union h | object h => simp [shape] at h
  have hinvalid : .invalid ∉ Ty.allMembers T ts := fun h => (hprim h).2 rfl
  have hany : .any ∉ Ty.allMembers T ts := fun h => (hprim h).1 rfl
  simp only [Ty.unionMembers]
  rw [if_neg (by simpa using hinvalid), if_neg (by simpa using hany)]
  by_cases htop : .unknown ∈ Ty.allMembers T ts
  · rw [if_pos (by simpa using htop)]
    exact .inl ⟨htop, rfl⟩
  · rw [if_neg (by simpa using htop)]
    refine .inr ⟨htop, ?_⟩
    cases Ty.essentialMembers T (Ty.allMembers T ts) with
    | nil => exact .inl ⟨rfl, rfl⟩
    | cons m ms => exact .inr ⟨by simp, rfl⟩

theorem shape_of_literal? {l : Literal} (h : T.literal? m = some l) : T.shape m = .literal l := by
  unfold literal? at h
  cases hs : T.shape m with
  | literal k =>
    rw [hs] at h
    exact congrArg _ (Option.some.inj h)
  | _ => simp [hs] at h

/-- What a union leaves out fits where what it keeps does. -/
theorem fits_of_essential (hT : T.WellFormed) {all : List Ty}
    (h : ∀ k ∈ Ty.essentialMembers T all, T.Fits (T.shape k) (T.shape u)) (hm : m ∈ all) :
    T.Fits (T.shape m) (T.shape u) := by
  by_cases hnever : m = .never
  · subst hnever
    exact .bottom _
  by_cases hbase : ∃ l, T.shape m = .literal l ∧ .prim l.base ∈ all
  · -- the literal is absorbed by its primitive, which stays
    obtain ⟨l, hl, hin⟩ := hbase
    rw [hl]
    refine .trans hT (.base rfl) (h (.prim l.base) (List.mem_append_left _ ?_))
    refine List.mem_filter.mpr ⟨hin, ?_⟩
    cases l <;> simp [Ty.isAbsorbed, literal?, shape, Literal.base, Ty.never]
  by_cases htruth : (∃ x, m = .truth x) ∧ Ty.splitsBoolean all = true
  · obtain ⟨⟨x, rfl⟩, hsplit⟩ := htruth
    refine .trans hT (.base rfl) (h .boolean (List.mem_append_right _ ?_))
    rw [if_pos hsplit]
    exact List.mem_singleton_self _
  refine h m (List.mem_append_left _ (List.mem_filter.mpr ⟨hm, ?_⟩))
  have hsplit : ((m = .truth true || m = .truth false) && Ty.splitsBoolean all) = false := by
    by_contra hne
    simp only [Bool.not_eq_false, Bool.and_eq_true, Bool.or_eq_true, decide_eq_true_eq] at hne
    exact htruth ⟨hne.1.elim (⟨_, ·⟩) (⟨_, ·⟩), hne.2⟩
  cases hl : T.literal? m with
  | none =>
    simp only [Ty.isAbsorbed, hnever, hl, hsplit, decide_false, Bool.or_self, Bool.not_false]
  | some l =>
    have hout : all.contains (.prim l.base) = false := by
      rw [List.contains_eq_mem, decide_eq_false_iff_not]
      exact fun hin => hbase ⟨l, shape_of_literal? hl, hin⟩
    simp only [Ty.isAbsorbed, hnever, hl, hout, hsplit, decide_false, Bool.or_self, Bool.not_false]

theorem fits_unionMembers_iff (hT : T.WellFormed) (hts : ∀ t ∈ ts, T.FirstOrder t) :
    (∀ m ∈ Ty.unionMembers T ts, T.Fits (T.shape m) (T.shape u)) ↔
      ∀ t ∈ ts, T.Fits (T.shape t) (T.shape u) := by
  have hall : (∀ t ∈ ts, T.Fits (T.shape t) (T.shape u)) ↔
      ∀ m ∈ Ty.allMembers T ts, T.Fits (T.shape m) (T.shape u) := by
    constructor
    · intro h m hm
      obtain ⟨t, ht, hm⟩ := mem_allMembers.mp hm
      exact ((hts t ht).fits_iff_members hT).mp (h t ht) m hm
    · intro h t ht
      exact ((hts t ht).fits_iff_members hT).mpr fun m hm => h m (mem_allMembers.mpr ⟨t, ht, hm⟩)
  rw [hall]
  constructor
  · intro h m hm
    rcases unionMembers_cases hts with ⟨-, heq⟩ | ⟨-, ⟨hnone, -⟩ | ⟨-, heq⟩⟩
    · have htop := (h .unknown (by simp [heq])).unknown_left
      rw [htop]
      exact .top _
    · exact fits_of_essential hT (by simp [hnone]) hm
    · exact fits_of_essential hT (heq ▸ h) hm
  · intro h m hm
    rcases unionMembers_cases hts with ⟨htop, heq⟩ | ⟨-, ⟨-, heq⟩ | ⟨-, heq⟩⟩
    · rw [heq, List.mem_singleton] at hm
      exact hm ▸ h .unknown htop
    · rw [heq, List.mem_singleton] at hm
      subst hm
      exact .bottom _
    · rw [heq] at hm
      rcases List.mem_append.mp hm with hm | hm
      · exact h m (List.mem_filter.mp hm).1
      · split at hm
        next hsplit =>
          obtain rfl := List.mem_singleton.mp hm
          simp only [Ty.splitsBoolean, Bool.and_eq_true, List.contains_eq_mem, decide_eq_true_eq]
            at hsplit
          exact Fits.boolean hT (h _ hsplit.1.1) (h _ hsplit.1.2)
        · exact absurd hm (by simp)

end Members

end Table

namespace Interning

variable {T : Table} {ts : List Ty}

/-- What a union of first-order types is made of is first-order. -/
theorem firstOrder_unionMembers (hts : ∀ t ∈ ts, T.FirstOrder t)
    (hm : m ∈ Ty.unionMembers T ts) : T.FirstOrder m ∧
      (Ty.unionMembers T ts = [m] ∨ m ≠ .never ∧ m ≠ .unknown) := by
  rcases Table.unionMembers_cases hts with ⟨-, heq⟩ | ⟨htop, ⟨-, heq⟩ | ⟨-, heq⟩⟩
  · rw [heq] at hm ⊢
    obtain rfl := List.mem_singleton.mp hm
    exact ⟨.primitive (by simp) (by simp), .inl rfl⟩
  · rw [heq] at hm ⊢
    obtain rfl := List.mem_singleton.mp hm
    exact ⟨.primitive (by simp) (by simp), .inl rfl⟩
  · rw [heq] at hm
    rcases List.mem_append.mp hm with hm | hm
    · obtain ⟨hall, habsorbed⟩ := List.mem_filter.mp hm
      obtain ⟨t, ht, hmt⟩ := Table.mem_allMembers.mp hall
      refine ⟨(hts t ht).member hmt, .inr ⟨?_, ?_⟩⟩
      · rintro rfl
        simp [Ty.isAbsorbed] at habsorbed
      · rintro rfl
        exact htop hall
    · split at hm
      · obtain rfl := List.mem_singleton.mp hm
        exact ⟨.primitive (by simp) (by simp), .inr ⟨by simp, by simp⟩⟩
      · exact absurd hm (by simp)

/-- **The union of first-order types** is one, and fits where all of them do. -/
theorem settles_union_fits (hT : T.WellFormed) (hts : ∀ t ∈ ts, T.FirstOrder t) :
    Settles T (Ty.unionOf ts) fun T1 w => T1.FirstOrder w ∧ ∀ u, T.FirstOrder u →
      (T1.Fits (T1.shape w) (T1.shape u) ↔ ∀ t ∈ ts, T.Fits (T.shape t) (T.shape u)) := by
  obtain ⟨w, T1, hat, hw, hstands⟩ := settles_unionOf hT fun t ht => (hts t ht).has
  have hagrees := Table.Agrees.of_le hat.adds.le
  have hfirst : T1.FirstOrder w := by
    by_cases hunion : (T1.shape w).IsUnion
    · obtain ⟨ms, hms⟩ := hunion
      have hmembers : ∀ m, m ∈ ms ↔ m ∈ Ty.unionMembers T ts := by
        intro m
        rw [← hstands m]
        simp [Table.members, hms]
      refine .union hms ?_ (fun m hm => ?_) fun m hm => ?_
      · rintro rfl
        rcases Table.unionMembers_cases hts with ⟨-, heq⟩ | ⟨-, ⟨-, heq⟩ | ⟨hsome, heq⟩⟩
        · exact absurd ((hmembers .unknown).mpr (by simp [heq])) (by simp)
        · exact absurd ((hmembers .never).mpr (by simp [heq])) (by simp)
        · obtain ⟨m, hm⟩ := List.exists_mem_of_ne_nil _ hsome
          exact absurd ((hmembers m).mpr (heq ▸ hm)) (by simp)
      · exact (firstOrder_unionMembers hts ((hmembers m).mp hm)).1.of_agrees hagrees
      · refine (firstOrder_unionMembers hts ((hmembers m).mp hm)).2.resolve_left fun hone => ?_
        -- a single member is the type itself, and no member of it is a union
        have hself : w = m := congrArg Prod.fst (hat.result.symm.trans (unionOf_single hone))
        exact hat.wellFormed.not_isUnion hms hm ⟨ms, hself ▸ hms⟩
    · have hself : w ∈ T1.members w := by
        unfold Table.members
        split
        next ms hms =>
          exact absurd ⟨ms, hms⟩ hunion
        · exact List.mem_singleton_self w
      exact (firstOrder_unionMembers hts ((hstands w).mp hself)).1.of_agrees hagrees
  refine ⟨w, T1, hat, hfirst, fun u hu => ?_⟩
  rw [hfirst.fits_iff_members hat.wellFormed, ← Table.fits_unionMembers_iff hT hts]
  refine forall_congr' fun m => ?_
  rw [hstands m]
  exact imp_congr_right fun hm =>
    hagrees.fits_types_iff (firstOrder_unionMembers hts hm).1 hu

end Interning

end ShapeCheck
