import ShapeCheck.Proofs.Transitivity

/-!
# Tuples as sets of lists

A tuple over atomic types describes lists of values: at least as long as the places that have to be
present, no longer than its places unless there is a rest, with a value of the right type at every
place. A tuple can be given to a variable of another tuple type exactly when every list that it
describes is one that the other describes.

* `Atom` is a value of an atomic type, `Tuple.Lists` says that a tuple describes a list of values.
* `Ty.tuple_assignable_iff` is the statement about assignability.
-/

namespace ShapeCheck

/-- A value of an atomic type. Symbols are told apart by numbers. -/
inductive Atom where
  | number (x : Binary64)
  | string (s : String)
  | bigint (n : Int)
  | symbol (n : Nat)
  | null
  deriving DecidableEq, Repr

/-- The value belongs to a type of the given shape. Numbers that print alike are one literal. -/
def Atom.IsIn : Atom → Shape → Prop
  | .number _, .primitive .number => True
  | .number x, .literal (.number y) => x.text = y.text
  | .string _, .primitive .string => True
  | .string s, .literal (.string t) => s = t
  | .bigint _, .primitive .bigint => True
  | .bigint n, .literal (.bigint k) => n = k
  | .symbol _, .primitive .symbol => True
  | .null, .primitive .null => True
  | _, _ => False

/-- The shapes of the atomic types: numbers, strings, bigints, symbols, `null`, and the literals
among them. -/
def Shape.isAtomic : Shape → Bool
  | .primitive .number | .primitive .string | .primitive .bigint | .primitive .symbol
  | .primitive .null => true
  | .literal (.number _) | .literal (.string _) | .literal (.bigint _) => true
  | _ => false

/-! ## Atomic types -/

/-- The text of a bigint: a sign, the digits, and the mark. -/
theorem Literal.toList_text_bigint (n : Int) : (Literal.bigint n).text.toList =
    (if n < 0 then ['-'] else []) ++ Nat.toDigits 10 n.natAbs ++ ['n'] := by
  cases n with
  | ofNat k =>
    change (Nat.repr k ++ "n").toList = _
    simp [Nat.repr]
  | negSucc k =>
    change (toString (Int.negSucc k) ++ "n").toList = _
    simp [toString, Int.repr, Int.negSucc_lt_zero]

theorem Literal.bigint_text_injective {m n : Int}
    (h : (Literal.bigint m).text = (Literal.bigint n).text) : m = n := by
  have hlist := congrArg String.toList h
  rw [toList_text_bigint, toList_text_bigint] at hlist
  have hsign : ∀ k : Nat, ∀ rest, Nat.toDigits 10 k ++ ['n'] ≠ '-' :: rest := by
    intro k rest heq
    have hmem : '-' ∈ Nat.toDigits 10 k ++ ['n'] := heq ▸ List.mem_cons_self
    rcases List.mem_append.mp hmem with hmem | hmem
    · exact absurd (Key.isDigit_of_mem_digits hmem) (by decide)
    · exact absurd hmem (by decide)
  have habs : ∀ {k l : Nat}, Nat.toDigits 10 k ++ ['n'] = Nat.toDigits 10 l ++ ['n'] → k = l :=
    fun heq => Key.digits_injective (List.append_cancel_right heq)
  by_cases hm : m < 0 <;> by_cases hn : n < 0 <;>
    simp only [hm, hn, if_true, if_false, List.nil_append, List.cons_append]
      at hlist
  · have := habs (List.cons.inj hlist).2
    omega
  · exact absurd hlist.symm (hsign _ _)
  · exact absurd hlist (hsign _ _)
  · have := habs hlist
    omega

namespace Shape

variable {a b : Shape}

/-- The primitive that an atomic shape is or belongs to. -/
def family : Shape → Primitive
  | .primitive p => p
  | .literal l => l.base
  | _ => .never

/-- Every atomic type has a value. -/
theorem exists_isIn (ha : a.isAtomic = true) : ∃ v : Atom, v.IsIn a := by
  cases a with
  | primitive p =>
    cases p with
    | number => exact ⟨.number (.ofNat 0), trivial⟩
    | string => exact ⟨.string "", trivial⟩
    | bigint => exact ⟨.bigint 0, trivial⟩
    | symbol => exact ⟨.symbol 0, trivial⟩
    | null => exact ⟨.null, trivial⟩
    | _ => simp [isAtomic] at ha
  | literal l =>
    cases l with
    | number x => exact ⟨.number x, rfl⟩
    | string s => exact ⟨.string s, rfl⟩
    | bigint n => exact ⟨.bigint n, rfl⟩
    | boolean x => simp [isAtomic] at ha
  | _ => simp [isAtomic] at ha

/-- A value tells to which primitive its types belong. -/
theorem family_eq_of_isIn {v : Atom} (ha : v.IsIn a) (hb : v.IsIn b) : a.family = b.family := by
  have hown : ∀ {s : Shape}, v.IsIn s → s.family = match v with
      | .number _ => .number
      | .string _ => .string
      | .bigint _ => .bigint
      | .symbol _ => .symbol
      | .null => .null := by
    intro s hs
    unfold Atom.IsIn at hs
    split at hs <;> first | rfl | exact hs.elim
  rw [hown ha, hown hb]

/-- A literal lacks a value of its primitive. -/
theorem exists_not_isIn (l : Literal) (hl : (literal l).isAtomic = true) :
    ∃ v : Atom, v.IsIn (.primitive l.base) ∧ ¬v.IsIn (.literal l) := by
  cases l with
  | number x =>
    by_cases hx : (Binary64.ofNat 0).text = x.text
    · refine ⟨.number (.ofNat 1), trivial, fun h => ?_⟩
      have heq : (Binary64.ofNat 1).text = (Binary64.ofNat 0).text := Eq.trans h hx.symm
      exact absurd heq (by decide +kernel)
    · exact ⟨.number (.ofNat 0), trivial, hx⟩
  | string s =>
    by_cases hs : "" = s
    · exact ⟨.string "a", trivial, fun h => absurd (Eq.trans h hs.symm) (by decide)⟩
    · exact ⟨.string "", trivial, hs⟩
  | bigint n => exact ⟨.bigint (n + 1), trivial, fun h => absurd h (by simp [Atom.IsIn])⟩
  | boolean x => simp [isAtomic] at hl

end Shape

namespace Table

variable {T : Table} {a b : Shape}

/-- **Atomic types are compared by their values.** -/
theorem fits_iff_isIn (ha : a.isAtomic = true) (hb : b.isAtomic = true) :
    T.Fits a b ↔ ∀ v : Atom, v.IsIn a → v.IsIn b := by
  constructor
  · intro h v hv
    cases h with
    | refl => exact hv
    | @literal k l hbase htext =>
      cases k <;> cases l <;> simp [Shape.isAtomic, Literal.base] at ha hb hbase
      case number.number =>
        cases v with
        | number x => exact Eq.trans hv htext
        | _ => exact hv.elim
      case string.string =>
        have hquoted := Key.quoted_injective htext
        cases v with
        | string x => exact Eq.trans hv hquoted
        | _ => exact hv.elim
      case bigint.bigint =>
        cases v with
        | bigint n => exact Eq.trans hv (Literal.bigint_text_injective htext)
        | _ => exact hv.elim
    | @base l _ hbase =>
      subst hbase
      cases l <;> cases v <;> trivial
    | top | bottom | split | truths | member | empty | fields | length | elements | places
    | absent =>
      simp_all [Shape.isAtomic]
  · intro h
    obtain ⟨w, hw⟩ := Shape.exists_isIn ha
    have hfamily := Shape.family_eq_of_isIn hw (h w hw)
    cases a with
    | primitive p =>
      cases b with
      | primitive q =>
        obtain rfl : p = q := hfamily
        exact .refl _
      | literal l =>
        obtain rfl : p = l.base := hfamily
        obtain ⟨v, hv, hnot⟩ := Shape.exists_not_isIn l hb
        exact absurd (h v hv) hnot
      | _ => simp [Shape.isAtomic] at hb
    | literal k =>
      cases b with
      | primitive q => exact .base hfamily
      | literal l =>
        refine .literal hfamily ?_
        cases k <;> cases l <;> simp [Shape.isAtomic, Shape.family, Literal.base] at ha hb hfamily
        case number.number x y => exact h (.number x) rfl
        case string.string s t => exact congrArg Text.quoted (h (.string s) rfl)
        case bigint.bigint m n => exact congrArg (toString · ++ "n") (h (.bigint m) rfl)
      | _ => simp [Shape.isAtomic] at hb
    | _ => simp [Shape.isAtomic] at ha

end Table

/-! ## Lists -/

namespace Tuple

/-- The list of values is one that the tuple describes. -/
def Lists (T : Table) (u : Tuple) (vs : List Atom) : Prop :=
  u.required ≤ vs.length ∧ (u.rest = none → vs.length ≤ u.slots.length) ∧
    ∀ (i : Nat) (v : Atom), vs[i]? = some v → ∃ e, u.element? i = some e ∧ v.IsIn (T.shape e)

/-- The tuple as a table keeps it. -/
def kept (u : Tuple) : Tuple := { u with slots := Ty.trailingOptional false u.slots }

section Kept

variable {u : Tuple}

theorem place?_kept (i : Nat) : u.kept.place? i = u.place? i := by
  have hmap := congrArg (·[i]?) (Interning.map_type_trailingOptional false u.slots)
  simp only [List.getElem?_map] at hmap
  rw [place?, place?, kept, hmap]

theorem elements_kept : u.kept.elements = u.elements := by
  rw [elements, elements, kept, Interning.map_type_trailingOptional]

theorem element?_eq_place? (i : Nat) : u.element? i = u.place? i := by
  have hnonneg : ¬(i : Int) < 0 := by omega
  simp only [element?, if_neg hnonneg, Int.toNat_natCast, place?]
  cases u.slots[i]? with
  | none => simp
  | some s => rfl

/-- Once a place may be absent, no later one has to be present. -/
theorem requires_trailingOptional (seen : Bool) (slots : List Slot) (i : Nat) :
    (∃ s, (Ty.trailingOptional seen slots)[i]? = some s ∧ s.optional = false) ↔
      seen = false ∧ i < (slots.takeWhile (!·.optional)).length := by
  induction slots generalizing seen i with
  | nil => simp [Ty.trailingOptional]
  | cons s rest ih =>
    rw [Ty.trailingOptional]
    cases hopt : s.optional with
    | true =>
      cases i with
      | zero => simp [hopt]
      | succ i => simp [ih, hopt]
    | false =>
      cases i with
      | zero => simp [hopt]
      | succ i => simp [ih, hopt]

theorem requires_kept_iff {i : Nat} : u.kept.Requires i ↔ i < u.required := by
  refine (requires_trailingOptional false u.slots i).trans ?_
  simp [required]

end Kept

section Inclusion

variable {T : Table} {u v : Tuple}

theorem required_le : u.required ≤ u.slots.length :=
  (List.takeWhile_prefix _).length_le

/-- A value for every place of the tuple. -/
theorem exists_filling (hu : ∀ e ∈ u.elements, (T.shape e).isAtomic = true) :
    ∃ fill : Nat → Atom, ∀ i e, u.place? i = some e → (fill i).IsIn (T.shape e) := by
  have heach : ∀ i, ∃ a : Atom, ∀ e, u.place? i = some e → a.IsIn (T.shape e) := by
    intro i
    cases hi : u.place? i with
    | none => exact ⟨.null, by simp⟩
    | some e =>
      obtain ⟨a, ha⟩ := Shape.exists_isIn (hu e (mem_elements_of_place? hi))
      exact ⟨a, by simpa using ha⟩
  exact Classical.skolem.mp heach

/-- A filling that is long enough and not too long is described. -/
theorem lists_ofFn {f : Nat → Atom}
    (hfill : ∀ i e, u.place? i = some e → (f i).IsIn (T.shape e)) {n : Nat}
    (hn : u.required ≤ n) (hmax : u.rest = none → n ≤ u.slots.length) :
    u.Lists T (List.ofFn fun i : Fin n => f i) := by
  refine ⟨by simpa using hn, by simpa using hmax, fun i a ha => ?_⟩
  obtain ⟨hi, rfl⟩ : i < n ∧ f i = a := by simpa [List.getElem?_ofFn] using ha
  have hplace : (u.place? i).isSome := by
    rw [isSome_place?]
    cases hrest : u.rest with
    | none => exact .inl (Nat.lt_of_lt_of_le hi (hmax hrest))
    | some r => exact .inr rfl
  obtain ⟨e, he⟩ := Option.isSome_iff_exists.mp hplace
  exact ⟨e, (element?_eq_place? i).trans he, hfill i e he⟩

/-- The shortest list that reaches a place is described. -/
theorem exists_lists_of_place {i : Nat} {e : Ty} {a : Atom}
    (hu : ∀ e ∈ u.elements, (T.shape e).isAtomic = true) (hi : u.place? i = some e)
    (ha : a.IsIn (T.shape e)) : ∃ vs, u.Lists T vs ∧ vs[i]? = some a := by
  obtain ⟨fill, hfill⟩ := exists_filling hu
  refine ⟨_, lists_ofFn (f := Function.update fill i a) (n := max u.required (i + 1)) ?_
    (Nat.le_max_left ..) fun hrest => ?_, ?_⟩
  · intro j f hj
    by_cases hji : j = i
    · subst hji
      obtain rfl := Option.some.inj (hi.symm.trans hj)
      simpa using ha
    · simpa [hji] using hfill j f hj
  · have hlt : i < u.slots.length := by
      have := isSome_place?.mp (Option.isSome_iff_exists.mpr ⟨e, hi⟩)
      simpa [hrest] using this
    exact Nat.max_le.mpr ⟨required_le, hlt⟩
  · have hlt : i < max u.required (i + 1) := by omega
    simp [hlt]

/-- Where all lists of one tuple belong to another one, the other requires no more places, and has
all places of the first. -/
theorem suits_of_subset (hu : ∀ e ∈ u.elements, (T.shape e).isAtomic = true)
    (h : ∀ vs, u.Lists T vs → v.Lists T vs) : u.kept.Suits v.kept := by
  refine ⟨fun i hi => ?_, fun i hi => ?_⟩
  · obtain ⟨fill, hfill⟩ := exists_filling hu
    have hshort := (h _ (lists_ofFn hfill (Nat.le_refl u.required) fun _ => required_le)).1
    rw [requires_kept_iff] at hi ⊢
    exact Nat.lt_of_lt_of_le hi (by simpa using hshort)
  · rw [place?_kept] at hi ⊢
    obtain ⟨e, he⟩ := Option.isSome_iff_exists.mp hi
    obtain ⟨a, ha⟩ := Shape.exists_isIn (hu e (mem_elements_of_place? he))
    obtain ⟨vs, hvs, hat⟩ := exists_lists_of_place hu he ha
    obtain ⟨f, hf, -⟩ := (h vs hvs).2.2 i a hat
    rw [← element?_eq_place?, hf]
    rfl

/-- A tuple fits another one that it suits, with the types of its places. -/
theorem fits_kept_iff :
    T.Fits (.tuple u.kept) (.tuple v.kept) ↔ u.kept.Suits v.kept ∧
      ∀ i x y, u.place? i = some x → v.place? i = some y → T.Fits (T.shape x) (T.shape y) := by
  constructor
  · intro h
    generalize hu : u.kept = ku at h
    generalize hv : v.kept = kv at h
    have hplaces : ku.Suits kv ∧ ∀ i x y, ku.place? i = some x → kv.place? i = some y →
        T.Fits (T.shape x) (T.shape y) := by
      cases h with
      | refl =>
        refine ⟨⟨fun _ h => h, fun _ h => h⟩, fun i x y hx hy => ?_⟩
        obtain rfl := Option.some.inj (hx.symm.trans hy)
        exact .refl _
      | places hsuits h => exact ⟨hsuits, h⟩
    subst hu hv
    simpa only [place?_kept] using hplaces
  · rintro ⟨hsuits, h⟩
    exact .places hsuits (by simpa only [place?_kept] using h)

/-- A list stays described where a tuple suits another one and every value goes along. -/
theorem Lists.of_suits (hsuits : u.kept.Suits v.kept)
    (hin : ∀ i x y, u.place? i = some x → v.place? i = some y →
      ∀ a : Atom, a.IsIn (T.shape x) → a.IsIn (T.shape y)) {vs : List Atom} (h : u.Lists T vs) :
    v.Lists T vs := by
  obtain ⟨hrequired, -, hvalues⟩ := h
  have hplace : ∀ i a, vs[i]? = some a → ∃ x y, u.place? i = some x ∧ v.place? i = some y ∧
      a.IsIn (T.shape x) := by
    intro i a ha
    obtain ⟨x, hx, hax⟩ := hvalues i a ha
    rw [element?_eq_place?] at hx
    have hsome := hsuits.within i
    simp only [place?_kept] at hsome
    obtain ⟨y, hy⟩ := Option.isSome_iff_exists.mp (hsome (by simp [hx]))
    exact ⟨x, y, hx, hy, hax⟩
  refine ⟨?_, fun hrest => ?_, fun i a ha => ?_⟩
  · by_contra hshort
    have hmust := hsuits.required vs.length
    rw [requires_kept_iff, requires_kept_iff] at hmust
    omega
  · by_contra hlong
    -- the place behind the last one is taken in the first tuple, so the second one has it
    obtain ⟨x, y, -, hy, -⟩ := hplace v.slots.length _ (List.getElem?_eq_getElem (by omega))
    have := isSome_place?.mp (Option.isSome_iff_exists.mpr ⟨y, hy⟩)
    simp [hrest] at this
  · obtain ⟨x, y, hx, hy, hax⟩ := hplace i a ha
    exact ⟨y, (element?_eq_place? i).trans hy, hin i x y hx hy a hax⟩

/-- **A tuple fits another one** exactly when all its lists are lists of the other. -/
theorem fits_iff_subset (hu : ∀ e ∈ u.elements, (T.shape e).isAtomic = true)
    (hv : ∀ e ∈ v.elements, (T.shape e).isAtomic = true) :
    T.Fits (.tuple u.kept) (.tuple v.kept) ↔ ∀ vs, u.Lists T vs → v.Lists T vs := by
  have hatomic : ∀ {i x y}, u.place? i = some x → v.place? i = some y →
      (T.Fits (T.shape x) (T.shape y) ↔ ∀ a : Atom, a.IsIn (T.shape x) → a.IsIn (T.shape y)) :=
    fun hx hy => Table.fits_iff_isIn (hu _ (mem_elements_of_place? hx))
      (hv _ (mem_elements_of_place? hy))
  rw [fits_kept_iff]
  constructor
  · rintro ⟨hsuits, h⟩ vs hvs
    exact hvs.of_suits hsuits fun i x y hx hy => (hatomic hx hy).mp (h i x y hx hy)
  · intro h
    refine ⟨suits_of_subset hu h, fun i x y hx hy => (hatomic hx hy).mpr fun a ha => ?_⟩
    obtain ⟨vs, hvs, hat⟩ := exists_lists_of_place hu hx ha
    obtain ⟨f, hf, hin⟩ := (h vs hvs).2.2 i a hat
    rw [element?_eq_place?, hy] at hf
    exact Option.some.inj hf ▸ hin

end Inclusion

end Tuple

namespace Table

variable {T : Table} {s e : Ty} {u : Tuple}

theorem firstOrder_of_isAtomic (hT : T.WellFormed) (he : (T.shape e).isAtomic = true) :
    T.FirstOrder e := by
  cases hs : T.shape e with
  | primitive p =>
    rw [hs] at he
    have hp : p ≠ .any ∧ p ≠ .invalid := by
      constructor
      · rintro rfl
        simp [Shape.isAtomic] at he
      · rintro rfl
        simp [Shape.isAtomic] at he
    rw [eq_prim_of_shape hT hs hp.2]
    exact .primitive hp.1 hp.2
  | literal l => exact .literal hs
  | _ => simp [hs, Shape.isAtomic] at he

/-- A tuple type that is there says what was asked for. -/
theorem shape_tupleOf (hT : T.WellFormed) (hu : ∀ e ∈ u.elements, T.Has e)
    (h : Ty.tupleOf u T = (s, T)) : T.shape s = .tuple u.kept := by
  obtain ⟨s', T', hat, -, halike⟩ := Interning.gives_tupleOf hT hu
  obtain ⟨rfl, rfl⟩ := Prod.mk.inj (hat.result.symm.trans h)
  cases hs : T'.shape s' with
  | tuple w =>
    rw [hs] at halike
    exact congrArg Shape.tuple (Key.tuple_injective (Shape.tuple_key_eq_iff.mpr halike))
  | _ =>
    rw [hs] at halike
    exact halike.elim

end Table

/-- **A tuple type can be given to another one exactly when its lists are among the lists of the
other**, in a table after any operations, whatever places are required, optional or part of a rest.
The elements are atomic, and the question always has an answer. -/
theorem Ty.tuple_assignable_iff {T : Table} (hT : Relation.ReflTransGen Table.Operated {} T)
    {s t : Ty} {u v : Tuple} (hs : tupleOf u T = (s, T)) (ht : tupleOf v T = (t, T))
    (hu : ∀ e ∈ u.elements, (T.shape e).isAtomic = true)
    (hv : ∀ e ∈ v.elements, (T.shape e).isAtomic = true) :
    ∃ k b T1, (∀ m, k ≤ m → s.isAssignableTo t m T = some (b, T1)) ∧
      (b = true ↔ ∀ vs, u.Lists T vs → v.Lists T vs) := by
  have hfaithful := (Table.faithful_empty.operations hT).1
  have hwf := hfaithful.wellFormed
  have hfirst : ∀ {w : Tuple}, (∀ e ∈ w.elements, (T.shape e).isAtomic = true) →
      ∀ e ∈ w.elements, T.FirstOrder e := fun hw e he => Table.firstOrder_of_isAtomic hwf (hw e he)
  have htuple : ∀ {w : Tuple} {r : Ty}, (∀ e ∈ w.elements, (T.shape e).isAtomic = true) →
      tupleOf w T = (r, T) → T.shape r = .tuple w.kept ∧ T.FirstOrder r := by
    intro w r hw hr
    have hshape := Table.shape_tupleOf hwf (fun e he => (hfirst hw e he).has) hr
    exact ⟨hshape, .tuple hshape (by rw [Tuple.elements_kept]; exact hfirst hw)⟩
  obtain ⟨hshape, hs'⟩ := htuple hu hs
  obtain ⟨hshape', ht'⟩ := htuple hv ht
  obtain ⟨k, b, T1, hrun⟩ := hfaithful.answers hs' ht'
  refine ⟨k, b, T1, hrun, ?_⟩
  rw [hfaithful.answered hs' ht' (hrun k (Nat.le_refl k)), hshape, hshape']
  exact Tuple.fits_iff_subset hu hv

/-- At least one number, by a rest. -/
def openRow : Tuple := { slots := [{ type := .number }], rest := some .number }

/-- At least one number, by an optional place and a rest. -/
def looseRow : Tuple :=
  { slots := [{ type := .number }, { type := .number, optional := true }], rest := some .number }

/-- A tuple type that was made is found in the table, and in every later one. -/
theorem Table.made_tupleOf {T : Table} (hT : T.WellFormed) {u : Tuple}
    (hu : ∀ e ∈ u.elements, T.Has e) :
    T.Operated (Ty.tupleOf u T).2 ∧ (Ty.tupleOf u T).2.WellFormed ∧ T ≤ (Ty.tupleOf u T).2 ∧
      ∀ T1, (Ty.tupleOf u T).2 ≤ T1 → Ty.tupleOf u T1 = ((Ty.tupleOf u T).1, T1) := by
  obtain ⟨s, T1, hat, -⟩ := Interning.gives_tupleOf hT hu
  refine ⟨.call (.construct (.tuple u) hu trivial), ?_⟩
  rw [hat.result]
  exact ⟨hat.wellFormed, hat.adds.le, hat.again⟩

/-- A rest may stand for an optional place: the two tuples describe the same lists, and each of them
can be given to the other. -/
theorem Ty.tuple_assignable_iff_rows :
    let T := (tupleOf looseRow (tupleOf openRow {}).2).2
    let s := (tupleOf openRow {}).1
    let t := (tupleOf looseRow (tupleOf openRow {}).2).1
    (∀ vs, openRow.Lists T vs ↔ looseRow.Lists T vs) ∧
      ∃ k T1 T2, s.isAssignableTo t k T = some (true, T1) ∧
        t.isAssignableTo s k T = some (true, T2) := by
  intro T s t
  have hopen : ∀ e ∈ openRow.elements, e = .number := by simp [openRow, Tuple.elements]
  have hloose : ∀ e ∈ looseRow.elements, e = .number := by simp [looseRow, Tuple.elements]
  obtain ⟨hop1, hwf1, -, hfound1⟩ := Table.made_tupleOf (T := {}) .empty (u := openRow)
    fun e he => hopen e he ▸ Table.has_prim _ _
  obtain ⟨hop2, -, hle2, hfound2⟩ := Table.made_tupleOf hwf1 (u := looseRow)
    fun e he => hloose e he ▸ Table.has_prim _ _
  have hops : Relation.ReflTransGen Table.Operated {} T := .tail (.single hop1) hop2
  have hs : tupleOf openRow T = (s, T) := hfound1 T hle2
  have ht : tupleOf looseRow T = (t, T) := hfound2 T (le_refl T)
  have hatomic : ∀ {u : Tuple}, (∀ e ∈ u.elements, e = .number) →
      ∀ e ∈ u.elements, (T.shape e).isAtomic = true := fun hu e he => by rw [hu e he]; rfl
  have hsame : ∀ vs, openRow.Lists T vs ↔ looseRow.Lists T vs := by
    have hplaces : ∀ i : Nat, openRow.place? i = some .number ∧
      looseRow.place? i = some .number := by
      rintro (_ | _ | i) <;> exact ⟨rfl, rfl⟩
    intro vs
    simp only [Tuple.Lists, Tuple.element?_eq_place?, hplaces]
    simp [openRow, looseRow, Tuple.required]
  obtain ⟨k, b, T1, hrun, hb⟩ := tuple_assignable_iff hops hs ht (hatomic hopen) (hatomic hloose)
  obtain ⟨k', b', T2, hrun', hb'⟩ :=
    tuple_assignable_iff hops ht hs (hatomic hloose) (hatomic hopen)
  obtain rfl : b = true := hb.mpr fun vs => (hsame vs).mp
  obtain rfl : b' = true := hb'.mpr fun vs => (hsame vs).mpr
  exact ⟨hsame, max k k', T1, T2, hrun _ (Nat.le_max_left ..), hrun' _ (Nat.le_max_right ..)⟩

end ShapeCheck
