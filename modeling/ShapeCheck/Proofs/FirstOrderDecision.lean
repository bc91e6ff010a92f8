import ShapeCheck.Proofs.FirstOrder
import ShapeCheck.Proofs.Numerals

/-!
# Comparing first-order types

On first-order types a comparison always ends, and it decides what fits where: the target goes down
with every question, so no pair is met again and nothing is ever assumed.

* `Assign.Decides` says that work ends and decides a statement, `Assign.DecidesBelow` that a
  comparison does so for low targets.
* `Assign.decides_step` says that one layer of the rules decides what fits.
* `Assign.decides_decideAt` says that a comparison of first-order types does.
-/

namespace ShapeCheck

open Table Typing

variable {α : Type} {b readonly verdict : Bool} {test : Nat → α → Typing Bool}
  {R : α → Prop} {s t e : Ty}
  {u v : Tuple} {n : Nat} {name : String} {ms : List Ty} {T : Table}

namespace Assign

/-- From some depth and some number of steps on, the work has one result, the truth of the
statement. -/
def Decides (T : Table) (x : Nat → Typing Bool) (P : Prop) : Prop :=
  ∃ b T1, T1.WellFormed ∧ T.Adds T1 ∧ (b = true ↔ P) ∧
    ∃ k, ∀ d n, k ≤ d → k ≤ n → x d n T = some (b, T1)

section Deciding

variable {x y : Nat → Typing Bool} {P Q : Prop}

theorem decides_return (hT : T.WellFormed) (h : b = true ↔ P) : Decides T (fun _ => return b) P :=
  ⟨b, T, hT, .refl T, h, 0, fun _ _ _ _ => rfl⟩

theorem Decides.imp_iff (h : Decides T x P) (hPQ : P ↔ Q) : Decides T x Q := by
  obtain ⟨b, T1, hT1, h1, hb, hk⟩ := h
  exact ⟨b, T1, hT1, h1, hb.trans hPQ, hk⟩

/-- Only the deep runs count. -/
theorem Decides.of_eq (h : Decides T x P) (heq : ∃ k, ∀ d n, k ≤ d → k ≤ n → y d n T = x d n T) :
    Decides T y P := by
  obtain ⟨b, T1, hT1, h1, hb, k, hk⟩ := h
  obtain ⟨k', hk'⟩ := heq
  refine ⟨b, T1, hT1, h1, hb, max k k', fun d n hd hn => ?_⟩
  rw [hk' d n (by omega) (by omega), hk d n (by omega) (by omega)]

/-- The second part is tried unless the first gives the result at which to stop. -/
theorem Decides.next (stop : Bool) (hx : Decides T x P)
    (hy : ∀ T1, T1.WellFormed → T.Adds T1 → Decides T1 y Q) :
    Decides T (fun d => x d >>= fun b => if b = stop then return b else y d)
      (if stop then P ∨ Q else P ∧ Q) := by
  obtain ⟨b, T1, hT1, h1, hb, k, hk⟩ := hx
  by_cases hstop : b = stop
  · refine ⟨b, T1, hT1, h1, ?_, k, fun d n hd hn => ?_⟩
    · subst hstop
      cases b <;> simp_all
    · dsimp only
      rw [bind_of_some (hk d n hd hn), if_pos hstop]
      rfl
  · obtain ⟨b', T2, hT2, h2, hb', k', hk'⟩ := hy T1 hT1 h1
    refine ⟨b', T2, hT2, h1.trans h2, ?_, max k k', fun d n hd hn => ?_⟩
    · cases stop <;> simp_all
    · dsimp only
      rw [bind_of_some (hk d n (by omega) (by omega)), if_neg hstop]
      exact hk' d n (by omega) (by omega)

theorem Decides.both (hx : Decides T x P) (hy : ∀ T1, T1.WellFormed → T.Adds T1 → Decides T1 y Q) :
    Decides T (fun d => (do if ← x d then y d else return false)) (P ∧ Q) := by
  have heq : ∀ d, (do if ← x d then y d else return false : Typing Bool) =
      x d >>= fun b => if b = false then return b else y d := by
    intro d
    congr 1
    funext b
    cases b <;> rfl
  exact (hx.next false hy).of_eq ⟨0, fun d n _ _ => by rw [heq d]⟩

theorem Decides.either (hx : Decides T x P)
    (hy : ∀ T1, T1.WellFormed → T.Adds T1 → Decides T1 y Q) :
    Decides T (fun d => (do if ← x d then return true else y d)) (P ∨ Q) := by
  have heq : ∀ d, (do if ← x d then return true else y d : Typing Bool) =
      x d >>= fun b => if b = true then return b else y d := by
    intro d
    congr 1
    funext b
    cases b <;> rfl
  exact (hx.next true hy).of_eq ⟨0, fun d n _ _ => by rw [heq d]⟩

theorem decides_all (hT : T.WellFormed) (xs : List α)
    (h : ∀ a ∈ xs, ∀ T1, T1.WellFormed → T.Adds T1 → Decides T1 (fun d => test d a) (R a)) :
    Decides T (fun d => all (test d) xs) (∀ a ∈ xs, R a) := by
  induction xs generalizing T with
  | nil => exact decides_return hT (by simp)
  | cons a xs ih =>
    refine ((h a (by simp) T hT (.refl T)).both fun T1 hT1 h1 => ih hT1 ?_).imp_iff (by simp)
    exact fun b hb T2 hT2 h2 => h b (List.mem_cons_of_mem a hb) T2 hT2 (h1.trans h2)

theorem decides_any (hT : T.WellFormed) (xs : List α)
    (h : ∀ a ∈ xs, ∀ T1, T1.WellFormed → T.Adds T1 → Decides T1 (fun d => test d a) (R a)) :
    Decides T (fun d => any (test d) xs) (∃ a ∈ xs, R a) := by
  induction xs generalizing T with
  | nil => exact decides_return hT (by simp)
  | cons a xs ih =>
    refine ((h a (by simp) T hT (.refl T)).either fun T1 hT1 h1 => ih hT1 ?_).imp_iff (by simp)
    exact fun b hb T2 hT2 h2 => h b (List.mem_cons_of_mem a hb) T2 hT2 (h1.trans h2)

/-- Types may be made first. -/
theorem decides_after {work : Interning α} {V : Table → α → Prop} {f : Nat → α → Typing Bool}
    (hwork : Interning.Settles T work V)
    (hf : ∀ a T1, T1.WellFormed → T.Adds T1 → V T1 a → Decides T1 (fun d => f d a) P) :
    Decides T (fun d => (do f d (← work))) P := by
  obtain ⟨a, T1, hat, hv⟩ := hwork
  obtain ⟨b, T2, hT2, h2, hb, k, hk⟩ := hf a T1 hat.wellFormed hat.adds hv
  refine ⟨b, T2, hT2, hat.adds.trans h2, hb, k, fun d n hd hn => ?_⟩
  have hrun : (liftM work : Typing α) n T = some (a, T1) := congrArg some hat.result
  dsimp only
  rw [bind_of_some hrun]
  exact hk d n hd hn

end Deciding

/-- The comparison decides what fits, as long as the target stands low enough. -/
def DecidesBelow (c : Nat → Compare) (r : Nat) : Prop :=
  ∀ T s t, T.WellFormed → T.FirstOrder s → T.FirstOrder t → t.rank < r →
    Decides T (fun d => c d s t) (T.Fits (T.shape s) (T.shape t))

section Parts

variable {c : Nat → Compare} {r : Nat} {T1 : Table}

/-- The answer in a later table is the one in the table. -/
theorem DecidesBelow.later (hc : DecidesBelow c r)
    (hs : T.FirstOrder s) (ht : T.FirstOrder t) (hr : t.rank < r) (hT1 : T1.WellFormed)
    (h : T.Adds T1) : Decides T1 (fun d => c d s t) (T.Fits (T.shape s) (T.shape t)) := by
  have hagrees := Table.Agrees.of_le h.le
  refine (hc T1 s t hT1 (hs.of_agrees hagrees) (ht.of_agrees hagrees) hr).imp_iff ?_
  exact hagrees.fits_types_iff hs ht

/-- The places that one of two tuples fixes fit. -/
def SlotsFit (T : Table) (u v : Tuple) : Prop :=
  (∀ i, v.Requires i → u.Requires i) ∧
    ∀ i, i < max u.slots.length v.slots.length → ∀ x, u.place? i = some x →
      ∃ y, v.place? i = some y ∧ T.Fits (T.shape x) (T.shape y)

theorem slotsFit_iff_tail (h : u.slots ≠ [] ∨ v.slots ≠ []) :
    SlotsFit T u v ↔ (v.Requires 0 → u.Requires 0) ∧
      (∀ x, u.place? 0 = some x → ∃ y, v.place? 0 = some y ∧ T.Fits (T.shape x) (T.shape y)) ∧
        SlotsFit T { u with slots := u.slots.tail } { v with slots := v.slots.tail } := by
  have hplace : ∀ (w : Tuple) i,
      Tuple.place? { w with slots := w.slots.tail } i = w.place? (i + 1) := by
    intro w i
    simp [Tuple.place?]
  have hrequires : ∀ (w : Tuple) i,
      Tuple.Requires { w with slots := w.slots.tail } i ↔ w.Requires (i + 1) := by
    intro w i
    simp [Tuple.Requires]
  have hlength : ∀ i, i < max u.slots.tail.length v.slots.tail.length ↔
      i + 1 < max u.slots.length v.slots.length := by
    intro i
    simp only [List.length_tail]
    omega
  have hfirst : 0 < max u.slots.length v.slots.length := by
    have := h.imp List.length_pos_of_ne_nil List.length_pos_of_ne_nil
    omega
  unfold SlotsFit
  simp only [hplace, hrequires, hlength]
  constructor
  · rintro ⟨hreq, hfits⟩
    exact ⟨hreq 0, hfits 0 hfirst, fun i => hreq (i + 1), fun i => hfits (i + 1)⟩
  · rintro ⟨hreq, hfits, hreq', hfits'⟩
    refine ⟨fun i => ?_, fun i => ?_⟩
    · cases i with
      | zero => exact hreq
      | succ i => exact hreq' i
    · cases i with
      | zero => exact fun _ => hfits
      | succ i => exact hfits' i

/-- Two tuples fit when the places that one of them fixes do, and the rests. -/
theorem fits_tuple_iff (hne : u ≠ v) :
    T.Fits (.tuple u) (.tuple v) ↔ SlotsFit T u v ∧
      ∀ x, u.rest = some x → ∃ y, v.rest = some y ∧ T.Fits (T.shape x) (T.shape y) := by
  have hpast : ∀ {w : Tuple} {i : Nat}, w.slots.length ≤ i → w.place? i = w.rest := by
    intro w i hi
    simp [Tuple.place?, hi]
  constructor
  · intro h
    cases h with
    | refl => exact absurd rfl hne
    | places hsuits h =>
      have hplace : ∀ i x, u.place? i = some x →
          ∃ y, v.place? i = some y ∧ T.Fits (T.shape x) (T.shape y) := by
        intro i x hx
        obtain ⟨y, hy⟩ := Option.isSome_iff_exists.mp (hsuits.within i (by simp [hx]))
        exact ⟨y, hy, h i x y hx hy⟩
      refine ⟨⟨hsuits.required, fun i _ => hplace i⟩, fun x hx => ?_⟩
      have hlast := hplace (max u.slots.length v.slots.length) x
      rw [hpast (by omega), hpast (by omega)] at hlast
      exact hlast hx
  · rintro ⟨⟨hrequired, hslots⟩, hrest⟩
    have hplace : ∀ i x, u.place? i = some x →
        ∃ y, v.place? i = some y ∧ T.Fits (T.shape x) (T.shape y) := by
      intro i x hx
      by_cases hi : i < max u.slots.length v.slots.length
      · exact hslots i hi x hx
      · rw [hpast (by omega)] at hx ⊢
        exact hrest x hx
    refine .places ⟨hrequired, fun i hi => ?_⟩ fun i x y hx hy => ?_
    · obtain ⟨x, hx⟩ := Option.isSome_iff_exists.mp hi
      obtain ⟨y, hy, -⟩ := hplace i x hx
      simp [hy]
    · obtain ⟨z, hz, hfits⟩ := hplace i x hx
      rwa [Option.some.inj (hy.symm.trans hz)]

theorem decides_slots (hc : DecidesBelow c r) {sr tr : Option Ty}
    (hsr : ∀ x ∈ sr, T.FirstOrder x) (htr : ∀ y ∈ tr, T.FirstOrder y ∧ y.rank < r)
    (ss ts : List Slot) (hss : ∀ s ∈ ss, T.FirstOrder s.type)
    (hts : ∀ t ∈ ts, T.FirstOrder t.type ∧ t.type.rank < r) (hT1 : T1.WellFormed) (h1 : T.Adds T1) :
    Decides T1 (fun d => slots (c d) sr tr ss ts)
      (SlotsFit T { slots := ss, rest := sr } { slots := ts, rest := tr }) := by
  induction ss generalizing T1 ts with
  | nil =>
    induction ts generalizing T1 with
    | nil =>
      unfold slots
      refine decides_return hT1 ?_
      simp [SlotsFit, Tuple.Requires]
    | cons t ts ih =>
      have hrest := fun (T2 : Table) (hT2 : T2.WellFormed) (h2 : T.Adds T2) =>
        ih (fun u hu => hts u (List.mem_cons_of_mem t hu)) hT2 h2
      obtain ⟨ht, hlow⟩ := hts t List.mem_cons_self
      have htail := slotsFit_iff_tail (T := T) (u := ⟨[], sr, false⟩) (v := ⟨t :: ts, tr, false⟩)
        (.inr (List.cons_ne_nil t ts))
      refine Decides.imp_iff ?_ htail.symm
      unfold slots
      cases hopt : t.optional with
      | false =>
        refine decides_return hT1 ?_
        simp [Tuple.Requires, hopt]
      | true =>
        cases sr with
        | none => exact (hrest T1 hT1 h1).imp_iff (by simp [Tuple.Requires, Tuple.place?, hopt])
        | some x =>
          refine ((hc.later (hsr x rfl) ht hlow hT1 h1).both fun T2 hT2 h2 =>
            hrest T2 hT2 (h1.trans h2)).imp_iff ?_
          simp [Tuple.Requires, Tuple.place?, hopt]
  | cons s ss ih =>
    have hs := hss s (by simp)
    have hrest := fun ts hts (T2 : Table) (hT2 : T2.WellFormed) (h2 : T.Adds T2) =>
      ih ts (fun u hu => hss u (List.mem_cons_of_mem s hu)) hts hT2 h2
    have htail := slotsFit_iff_tail (T := T) (u := ⟨s :: ss, sr, false⟩) (v := ⟨ts, tr, false⟩)
      (.inl (List.cons_ne_nil s ss))
    refine Decides.imp_iff ?_ htail.symm
    cases ts with
    | nil =>
      unfold slots
      cases tr with
      | none =>
        refine decides_return hT1 ?_
        simp [Tuple.place?]
      | some y =>
        obtain ⟨hy, hlow⟩ := htr y rfl
        refine ((hc.later hs hy hlow hT1 h1).both fun T2 hT2 h2 =>
          hrest [] (by simp) T2 hT2 (h1.trans h2)).imp_iff ?_
        simp [Tuple.Requires, Tuple.place?]
    | cons t ts =>
      obtain ⟨ht, hlow⟩ := hts t (by simp)
      unfold slots
      by_cases hopt : (s.optional && !t.optional) = true
      · simp only [hopt, if_true]
        refine decides_return hT1 ?_
        simp_all [Tuple.Requires]
      · simp only [hopt, Bool.false_eq_true, if_false]
        refine ((hc.later hs ht hlow hT1 h1).both fun T2 hT2 h2 =>
          hrest ts (fun u hu => hts u (List.mem_cons_of_mem t hu)) T2 hT2 (h1.trans h2)).imp_iff ?_
        have hfill : t.optional = false → s.optional = false := by
          cases hs : s.optional <;> simp_all
        simp [Tuple.Requires, Tuple.place?]
        tauto

/-- Comparing two tuples. -/
theorem decides_tuples (hc : DecidesBelow c r) (hT : T.WellFormed) (hne : u ≠ v)
    (hu : ∀ e ∈ u.elements, T.FirstOrder e) (hv : ∀ e ∈ v.elements, T.FirstOrder e ∧ e.rank < r) :
    Decides T (fun d => tuples (c d) u v) (T.Fits (.tuple u) (.tuple v)) := by
  have hrest : ∀ {w : Tuple} {x : Ty}, w.rest = some x → x ∈ w.elements := fun hx =>
    List.mem_append_right _ (Option.mem_toList.mpr hx)
  have hslot : ∀ {w : Tuple} {s : Slot}, s ∈ w.slots → s.type ∈ w.elements := fun hs =>
    List.mem_append_left _ (List.mem_map_of_mem hs)
  have hslots := decides_slots hc (fun x hx => hu x (hrest hx)) (fun y hy => hv y (hrest hy))
    u.slots v.slots (fun s hs => hu _ (hslot hs)) (fun t ht => hv _ (hslot ht)) hT (.refl T)
  refine (hslots.both fun T1 hT1 h1 => ?_).imp_iff (fits_tuple_iff hne).symm
  cases hur : u.rest with
  | none => exact decides_return hT1 (by simp)
  | some x =>
    cases hvr : v.rest with
    | none => exact decides_return hT1 (by simp)
    | some y =>
      obtain ⟨hy, hlow⟩ := hv y (hrest hvr)
      exact (hc.later (hu x (hrest hur)) hy hlow hT1 h1).imp_iff (by simp)

/-- The source has what a field of the target asks for. -/
def Supplies (T : Table) (s : Shape) (f : Field) : Prop :=
  (∃ m g, s = .object m ∧ m.field? f.name = some g ∧ T.Fits (T.shape g.type) (T.shape f.type)) ∨
    ∃ l, s.length? = some l ∧ f.name = "length" ∧ T.Fits l (T.shape f.type)

/-- An object takes what supplies all its fields. -/
theorem fits_object_iff {s : Shape} {n : Members} (hne : s ≠ .object n)
    (hnever : s ≠ .primitive .never)
    (hunion : ¬s.IsUnion) (hn : n.fields ≠ []) :
    T.Fits s (.object n) ↔ ∀ f ∈ n.fields, Supplies T s f := by
  constructor
  · intro h f hf
    cases h with
    | refl => exact absurd rfl hne
    | bottom => exact absurd rfl hnever
    | split => exact absurd ⟨_, rfl⟩ hunion
    | empty _ hempty => exact absurd hempty hn
    | @fields m _ hsome h =>
      obtain ⟨g, hg⟩ := Option.isSome_iff_exists.mp (hsome f hf)
      exact .inl ⟨m, g, rfl, hg, h f hf g hg⟩
    | length hl hnames h => exact .inr ⟨_, hl, hnames f hf, h f hf⟩
  · intro h
    obtain ⟨f0, hf0⟩ := List.exists_mem_of_ne_nil _ hn
    -- the source is an object, or it has a length, and not both
    rcases h f0 hf0 with ⟨m, -, rfl, -⟩ | ⟨l, hl, -⟩
    · have hfield : ∀ f ∈ n.fields, ∃ g, m.field? f.name = some g ∧
          T.Fits (T.shape g.type) (T.shape f.type) := by
        intro f hf
        rcases h f hf with ⟨k, g, hk, hg, hfits⟩ | ⟨l, hl, -⟩
        · cases hk
          exact ⟨g, hg, hfits⟩
        · simp [Shape.length?] at hl
      refine .fields (fun f hf => ?_) fun f hf g hg => ?_
      · obtain ⟨g, hg, -⟩ := hfield f hf
        simp [hg]
      · obtain ⟨k, hk, hfits⟩ := hfield f hf
        rwa [Option.some.inj (hg.symm.trans hk)]
    · have hfield : ∀ f ∈ n.fields, f.name = "length" ∧ T.Fits l (T.shape f.type) := by
        intro f hf
        rcases h f hf with ⟨m, -, rfl, -⟩ | ⟨k, hk, hname, hfits⟩
        · simp [Shape.length?] at hl
        · rw [Option.some.inj (hl.symm.trans hk)]
          exact ⟨hname, hfits⟩
      exact .length hl (fun f hf => (hfield f hf).1) fun f hf => (hfield f hf).2

theorem tupleLength_eq (u : Tuple) : Ty.tupleLength u = if u.isFixed then
    Ty.literalOf (.number (Binary64.ofNat u.slots.length)) else return .number := by
  have hrequired : u.required = u.slots.length ↔ u.slots.all (!·.optional) = true := by
    rw [Tuple.required, List.all_eq_true, ← List.takeWhile_eq_self_iff]
    exact ⟨fun h => (List.takeWhile_prefix _).eq_of_length h, fun h => by rw [h]⟩
  unfold Ty.tupleLength Tuple.isFixed
  cases u.rest with
  | some x => simp
  | none =>
    by_cases h : u.required = u.slots.length
    · simp [h, hrequired.mp h]
    · have hall : u.slots.all (!·.optional) = false := by
        rwa [hrequired, Bool.not_eq_true] at h
      simp [h, hall]

/-- The length was found under the name, or nothing. -/
def FindsLength (s : Shape) (name : String) (T1 : Table) (f : Option Field) : Prop :=
  f = none ∧ (name = "length" → s.length? = none) ∨
    ∃ g l, f = some g ∧ g.optional = false ∧ name = "length" ∧ s.length? = some l ∧
      T1.FirstOrder g.type ∧ (T1.shape g.type).Alike Eq l

theorem findsLength_number {s : Shape} {g : Field} (hopt : g.optional = false)
    (hname : name = "length") (htype : g.type = .number)
    (hs : s.length? = some (.primitive .number)) : FindsLength s name T (some g) := by
  refine .inr ⟨g, _, rfl, hopt, hname, hs, ?_⟩
  rw [htype]
  exact ⟨.primitive (by simp) (by simp), rfl⟩

theorem findsLength_primitive {s : Shape} (p : Primitive) (name : String) (hany : p ≠ .any)
    (hvalid : p ≠ .invalid)
    (hs : s.length? = if p = .string then some (.primitive .number) else none) :
    FindsLength s name T (Ty.primitiveProperty? p name) := by
  by_cases hstring : p = .string
  · subst hstring
    by_cases hname : name = "length"
    · simp only [Ty.primitiveProperty?, if_pos hname]
      exact findsLength_number rfl hname rfl (by simpa using hs)
    · exact .inl ⟨by simp [Ty.primitiveProperty?, hname], fun h => absurd h hname⟩
  · refine .inl ⟨?_, fun _ => by simpa [hstring] using hs⟩
    cases p <;> simp_all [Ty.primitiveProperty?]

/-- What is found under a name that is not numeric in a first-order type, unions and objects
apart. -/
theorem settles_property (hT : T.WellFormed) (hs : T.FirstOrder s)
    (hunion : ¬(T.shape s).IsUnion) (hobject : ∀ m, T.shape s ≠ .object m)
    (hname : Decimal.isNumeric name = false) :
    Interning.Settles T (Ty.plainProperty (T.shape s) name) (FindsLength (T.shape s) name) := by
  have hinteger : Decimal.integer? name = none := by
    cases hi : Decimal.integer? name with
    | none => rfl
    | some i =>
      rw [Decimal.isNumeric_of_integer? hi] at hname
      exact absurd hname (by simp)
  cases hs with
  | @primitive p hany hvalid =>
    refine Interning.settles_pure hT (findsLength_primitive p name hany hvalid ?_)
    cases p <;> rfl
  | @literal _ l h =>
    rw [h]
    have hbase : l.base ≠ .any ∧ l.base ≠ .invalid := by cases l <;> simp [Literal.base]
    refine Interning.settles_pure hT (findsLength_primitive l.base name hbase.1 hbase.2 ?_)
    cases l <;> rfl
  | array h =>
    rw [h]
    refine Interning.settles_pure hT ?_
    by_cases hlength : name = "length"
    · simp only [Ty.arrayProperty?, if_pos hlength]
      exact findsLength_number rfl hlength rfl rfl
    · refine .inl ⟨?_, fun h => absurd h hlength⟩
      simp [Ty.arrayProperty?, hlength, hname]
  | @tuple _ u h =>
    rw [h]
    change Interning.Settles T (Ty.tupleProperty? u name) _
    unfold Ty.tupleProperty?
    by_cases hlength : name = "length"
    · rw [if_pos hlength, tupleLength_eq]
      cases hfixed : u.isFixed with
      | true =>
        refine (Interning.gives_literalOf hT (.number (Binary64.ofNat u.slots.length))).bind ?_
        rintro t T1 hT1 - ⟨-, halike⟩
        refine Interning.settles_pure hT1 (.inr ⟨_, _, rfl, rfl, hlength, rfl, ?_, ?_⟩)
        · cases hshape : T1.shape t with
          | literal l => exact .literal hshape
          | _ =>
            rw [hshape] at halike
            exact halike.elim
        · rw [if_pos hfixed]
          exact halike
      | false =>
        refine Interning.settles_pure hT (findsLength_number rfl hlength rfl ?_)
        simp [Shape.length?, hfixed]
    · rw [if_neg hlength, hinteger]
      exact Interning.settles_pure hT (.inl ⟨rfl, fun h => absurd h hlength⟩)
  | union h => exact absurd ⟨_, h⟩ hunion
  | object h => exact absurd h (hobject _)

/-- A type like the shape of a length fits where the length fits. -/
theorem fits_length_iff (hT : T.WellFormed) {s k l : Shape} (h : k.Alike Eq l)
    (hl : s.length? = some l) {u : Ty} : T.Fits k (T.shape u) ↔ T.Fits l (T.shape u) := by
  rcases length?_cases hl with rfl | ⟨x, rfl⟩
  · cases k with
    | primitive q => rw [show q = .number from h]
    | _ => exact h.elim
  · cases k with
    | literal k =>
      obtain ⟨hbase, htext⟩ := h
      exact ⟨.trans hT (.literal hbase.symm htext.symm), .trans hT (.literal hbase htext)⟩
    | _ => exact h.elim

/-- Looking for a field in a type that is neither a union nor an object. -/
theorem field_of_isPlain (hplain : (T.shape s).isPlain = true)
    (hobject : ∀ m, T.shape s ≠ .object m) (compare : Compare) (f : Field) (hn : 1 ≤ n) :
    field compare s f n T =
      (do found compare f (← Ty.plainProperty (T.shape s) f.name) : Typing Bool) n T := by
  obtain ⟨n, rfl⟩ : ∃ k, n = k + 1 := ⟨n - 1, by omega⟩
  have hown : s.ownField? f.name (n + 1) T = some (Ty.plainProperty (T.shape s) f.name T) := by
    rw [← Ty.property?_of_isPlain hplain]
    unfold Ty.ownField?
    rw [get_bind]
    cases hs : T.shape s with
    | object m => exact absurd hs (hobject m)
    | _ => rfl
  unfold field
  rw [bind_of_some hown]
  rfl

theorem decides_field (hc : DecidesBelow c r) (hs : T.FirstOrder s)
    (hunion : ¬(T.shape s).IsUnion) {f : Field} (hf : T.FirstOrder f.type) (hlow : f.type.rank < r)
    (hopt : f.optional = false) (hname : Decimal.isNumeric f.name = false)
    (hT1 : T1.WellFormed) (h1 : T.Adds T1) :
    Decides T1 (fun d => field (c d) s f) (Supplies T (T.shape s) f) := by
  have hshape := shape_of_le h1.le hs.has
  by_cases hobject : ∃ m, T.shape s = .object m
  · obtain ⟨m, hm⟩ := hobject
    have hown : ∀ d n, field (c d) s f n T1 = found (c d) f (m.field? f.name) n T1 := by
      intro d n
      have hread : s.ownField? f.name n T1 = some (m.field? f.name, T1) := by
        unfold Ty.ownField?
        rw [get_bind, hshape, hm]
        rfl
      unfold field
      rw [bind_of_some hread]
    refine Decides.of_eq (x := fun d => found (c d) f (m.field? f.name)) ?_
      ⟨0, fun d n _ _ => hown d n⟩
    have hsupplies : Supplies T (T.shape s) f ↔
        ∃ g, m.field? f.name = some g ∧ T.Fits (T.shape g.type) (T.shape f.type) := by
      simp [Supplies, hm, Shape.length?]
    rw [hsupplies]
    cases hg : m.field? f.name with
    | none => exact decides_return hT1 (by simp [hopt])
    | some g =>
      obtain ⟨hg', hrequired⟩ : T.FirstOrder g.type ∧ g.optional = false := by
        have hmem := (Members.mem_of_field? hg).1
        cases hs with
        | primitive => simp [Table.shape] at hm
        | object h hfields hplain =>
          rw [h] at hm
          cases hm
          exact ⟨hfields g hmem, (hplain g hmem).1⟩
        | literal h | array h | tuple h | union h => simp [h] at hm
      simp only [found, hrequired, Bool.false_and, Bool.false_eq_true, if_false]
      exact (hc.later hg' hf hlow hT1 h1).imp_iff (by simp)
  · have hobject' : ∀ m, T1.shape s ≠ .object m := fun m hm => hobject ⟨m, hshape.symm.trans hm⟩
    have hplain : (T1.shape s).isPlain = true := by
      rw [hshape]
      cases hs with
      | primitive => rfl
      | literal h | array h | tuple h | object h => rw [h]; rfl
      | union h => exact absurd ⟨_, h⟩ hunion
    have hfirst := hs.of_agrees (Table.Agrees.of_le h1.le)
    have hfind := settles_property hT1 hfirst (hshape ▸ hunion) hobject' hname
    refine Decides.of_eq (decides_after (f := fun d => found (c d) f) hfind ?_)
      ⟨1, fun d n _ hn => field_of_isPlain hplain hobject' (c d) f hn⟩
    rintro o T2 hT2 h2 (⟨rfl, hnone⟩ | ⟨g, l, rfl, hrequired, hlength, hl, hg, halike⟩)
    · refine decides_return hT2 ?_
      rw [hshape] at hnone
      simp only [hopt, Bool.false_eq_true, false_iff]
      rintro (⟨m, g, hm, -⟩ | ⟨l, hl, hlength, -⟩)
      · exact hobject ⟨m, hm⟩
      · rw [hnone hlength] at hl
        exact absurd hl (by simp)
    · simp only [found, hrequired, Bool.false_and, Bool.false_eq_true, if_false]
      have hagrees := Table.Agrees.of_le (h1.trans h2).le
      refine (hc T2 g.type f.type hT2 hg (hf.of_agrees hagrees) hlow).imp_iff ?_
      rw [hshape] at hl
      have hsupplies : Supplies T (T.shape s) f ↔ T.Fits l (T.shape f.type) := by
        have hnone : ∀ m, T.shape s ≠ .object m := fun m hm => hobject ⟨m, hm⟩
        simp [Supplies, hnone, hl, hlength]
      rw [hsupplies, fits_length_iff hT2 halike hl, hagrees.shape_eq hf]
      exact hagrees.fits_iff (by simp [parts_of_length? hl]) fun p hp => hf.part hp

/-- Comparing with an object that has fields. -/
theorem decides_toObject (hc : DecidesBelow c r) (hT : T.WellFormed) (hs : T.FirstOrder s)
    (hunion : ¬(T.shape s).IsUnion) {m : Members}
    (hm : ∀ f ∈ m.fields, T.FirstOrder f.type ∧ f.type.rank < r)
    (hplain : ∀ f ∈ m.fields, f.optional = false ∧ Decimal.isNumeric f.name = false)
    (hindex : m.index = none) (hcalls : m.calls = []) :
    Decides T (fun d => toObject (c d) s m) (∀ f ∈ m.fields, Supplies T (T.shape s) f) := by
  have hfields : Decides T (fun d => all (field (c d) s) m.fields)
      (∀ f ∈ m.fields, Supplies T (T.shape s) f) :=
    decides_all hT m.fields fun f hf T1 hT1 h1 => decides_field hc hs hunion (hm f hf).1
      (hm f hf).2 (hplain f hf).1 (hplain f hf).2 hT1 h1
  have hrest : ∀ T1, T1.WellFormed → T.Adds T1 → Decides T1 (fun d => (do
      if ← all (index (c d) s) m.index.toList then
        if m.calls.isEmpty then return true
        let signatures ← s.callSignatures
        all (fun wanted => any (fun s => functions (c d) s wanted) signatures) m.calls
      else return false)) True := by
    intro T1 hT1 _
    refine (decides_return hT1 (b := true) (by simp)).of_eq ⟨0, fun d n _ _ => ?_⟩
    rw [hindex, hcalls]
    rfl
  exact (hfields.both hrest).imp_iff (by simp)

theorem fits_array_iff {s : Shape} (hne : s ≠ .array e readonly)
    (hnever : s ≠ .primitive .never) (hunion : ¬s.IsUnion) :
    T.Fits s (.array e readonly) ↔
      ∃ es, s.elements? = some es ∧ ∀ x ∈ es, T.Fits (T.shape x) (T.shape e) := by
  constructor
  · intro h
    cases h with
    | refl => exact absurd rfl hne
    | bottom => exact absurd rfl hnever
    | split => exact absurd ⟨_, rfl⟩ hunion
    | elements hes h => exact ⟨_, hes, h⟩
  · rintro ⟨es, hes, h⟩
    exact .elements hes h

/-- Comparing with an array. -/
theorem decides_toArray (hc : DecidesBelow c r) (hT : T.WellFormed)
    (hs : T.FirstOrder s) (hunion : ¬(T.shape s).IsUnion) (ht : T.shape t = .array e readonly)
    (he : T.FirstOrder e) (hlow : e.rank < r) :
    Decides T (fun d => structural (c d) s t)
      (∃ es, (T.shape s).elements? = some es ∧ ∀ x ∈ es, T.Fits (T.shape x) (T.shape e)) := by
  cases hs with
  | primitive =>
    refine (decides_return hT (b := false) ?_).of_eq ⟨0, fun d n _ _ => ?_⟩
    · simp [Table.shape, Shape.elements?]
    · unfold structural
      rw [get_bind, ht]
      rfl
  | literal h | object h =>
    refine (decides_return hT (b := false) ?_).of_eq ⟨0, fun d n _ _ => ?_⟩
    · simp [h, Shape.elements?]
    · unfold structural
      rw [get_bind, ht, h]
  | array h hown =>
    refine ((hc.later hown he hlow hT (.refl T)).imp_iff ?_).of_eq ⟨0, fun d n _ _ => ?_⟩
    · simp [h, Shape.elements?]
    · unfold structural
      rw [get_bind, ht, h]
  | tuple h hu =>
    -- the element type of the tuple is a union that is made on the way
    refine Decides.of_eq (decides_after (f := fun d w => c d w e)
      (Interning.settles_union_fits hT hu) ?_) ⟨0, fun d n _ _ => ?_⟩
    · rintro w T1 hT1 h1 ⟨hw, hfits⟩
      have hagrees := Table.Agrees.of_le h1.le
      refine (hc T1 w e hT1 hw (he.of_agrees hagrees) hlow).imp_iff ?_
      rw [hfits e he, h]
      simp [Shape.elements?]
    · unfold structural
      rw [get_bind, ht, h]
      rfl
  | union h => exact absurd ⟨_, h⟩ hunion

/-- Comparing with a tuple. -/
theorem decides_toTuple (hc : DecidesBelow c r) (hT : T.WellFormed)
    (hs : T.FirstOrder s) (hunion : ¬(T.shape s).IsUnion) (hnever : T.shape s ≠ .primitive .never)
    (ht : T.shape t = .tuple v) (hne : T.shape s ≠ .tuple v)
    (hv : ∀ e ∈ v.elements, T.FirstOrder e ∧ e.rank < r) :
    Decides T (fun d => structural (c d) s t) (T.Fits (T.shape s) (.tuple v)) := by
  have hfalse : (∀ u, T.shape s ≠ .tuple u) → ¬T.Fits (T.shape s) (.tuple v) := by
    intro hnone h
    generalize T.shape s = a at h hne hnever hunion hnone
    cases h with
    | refl => exact hne rfl
    | bottom => exact hnever rfl
    | split => exact hunion ⟨_, rfl⟩
    | places => exact hnone _ rfl
  cases hs with
  | primitive =>
    refine (decides_return hT (b := false) ?_).of_eq ⟨0, fun d n _ _ => ?_⟩
    · simpa using hfalse (by simp [Table.shape])
    · unfold structural
      rw [get_bind, ht]
      rfl
  | literal h | object h | array h =>
    refine (decides_return hT (b := false) ?_).of_eq ⟨0, fun d n _ _ => ?_⟩
    · simpa using hfalse (by simp [h])
    · unfold structural
      rw [get_bind, ht, h]
  | tuple h hu =>
    rw [h] at hne ⊢
    refine (decides_tuples hc hT (fun heq => hne (congrArg _ heq)) hu hv).of_eq
      ⟨0, fun d n _ _ => ?_⟩
    unfold structural
    rw [get_bind, ht, h]
  | union h => exact absurd ⟨_, h⟩ hunion

end Parts

section Layer

variable {compare inner : Nat → Compare}

/-- A first-order type is a union, or it is compared part by part. -/
theorem isPlain_of_firstOrder (h : T.FirstOrder t) (hunion : ¬(T.shape t).IsUnion) :
    (T.shape t).isPlain = true := by
  cases h with
  | primitive => rfl
  | literal h | array h | tuple h | object h => rw [h]; rfl
  | union h => exact absurd ⟨_, h⟩ hunion

theorem not_isTop_of_firstOrder (h : T.FirstOrder t) : t ≠ .any ∧ t ≠ .invalid := by
  constructor
  · rintro rfl
    cases h with
    | primitive hany => exact hany rfl
    | literal h | array h | tuple h | union h | object h => simp [Table.shape] at h
  · rintro rfl
    cases h with
    | primitive _ hvalid => exact hvalid rfl
    | literal h | array h | tuple h | union h | object h => simp [Table.shape] at h

/-- First-order types that say the same are one. -/
theorem eq_of_alike (hT : T.WellFormed) (hs : T.FirstOrder s) (ht : T.FirstOrder t)
    (h : (T.shape s).Alike Eq (T.shape t)) : s = t := by
  refine hT.eq_of_alike hs.has ht.has ?_ h
  cases hs with
  | primitive => rfl
  | literal h | array h | tuple h | union h | object h => rw [h]; rfl

theorem shape_ne (hT : T.WellFormed) (hs : T.FirstOrder s) (ht : T.FirstOrder t) (hne : s ≠ t) :
    T.shape s ≠ T.shape t := by
  intro h
  refine hne (eq_of_alike hT hs ht ?_)
  rw [← h]
  exact .refl (hT.tidy s) fun _ _ => rfl

/-- The rules that need no look at the shapes. -/
theorem fits_of_byIdentity (hT : T.WellFormed) (hs : T.FirstOrder s) (ht : T.FirstOrder t)
    (h : byIdentity s t = some verdict) :
    verdict = true ↔ T.Fits (T.shape s) (T.shape t) := by
  obtain ⟨hsany, hsvalid⟩ := not_isTop_of_firstOrder hs
  obtain ⟨htany, htvalid⟩ := not_isTop_of_firstOrder ht
  unfold byIdentity at h
  rw [if_neg (show ¬(s = .any || t = .any || s = .invalid || t = .invalid) = true by
    simp [hsany, htany, hsvalid, htvalid])] at h
  split_ifs at h with hst htop hunknown hbottom hnever
  · obtain rfl := Option.some.inj h
    subst hst
    exact ⟨fun _ => .refl _, fun _ => rfl⟩
  · obtain rfl := Option.some.inj h
    subst htop
    exact ⟨fun _ => .top _, fun _ => rfl⟩
  · obtain rfl := Option.some.inj h
    subst hunknown
    refine ⟨by simp, fun hfits => absurd ?_ htop⟩
    exact eq_prim_of_shape hT hfits.unknown_left (by simp)
  · obtain rfl := Option.some.inj h
    subst hbottom
    exact ⟨fun _ => .bottom _, fun _ => rfl⟩
  · obtain rfl := Option.some.inj h
    subst hnever
    refine ⟨by simp, fun hfits => absurd ?_ hbottom⟩
    exact eq_prim_of_shape hT hfits.never_right (by simp)

/-- The pair is not decided by identity. -/
structure Apart (s t : Ty) : Prop where
  ne : s ≠ t
  source_unknown : s ≠ .unknown
  source_never : s ≠ .never
  target_unknown : t ≠ .unknown
  target_never : t ≠ .never

theorem apart_of_byIdentity (h : byIdentity s t = none) : Apart s t := by
  unfold byIdentity at h
  split_ifs at h with h1 h2 h3 h4 h5 h6
  exact ⟨h1, h4, h5, h3, h6⟩

section Plain

variable (hs : (T.shape s).isPlain = true) (ht : (T.shape t).isPlain = true)

include hs ht

theorem stepResolved_atom (h : byAtom T s t = some verdict) (assumed : Bool)
    (c c' : Compare) : stepResolved assumed c c' s t n T = some (verdict, T) := by
  unfold stepResolved
  rw [get_bind, h, toEnum]
  cases hst : T.shape t <;> simp [hst, Shape.isPlain] at ht <;>
    cases hss : T.shape s <;> simp [hss, Shape.isPlain] at hs <;> rfl

theorem stepResolved_structural (h : byAtom T s t = none) (c c' : Compare) :
    stepResolved false c c' s t n T = structural c' s t n T := by
  unfold stepResolved
  rw [get_bind, h, toEnum]
  cases hst : T.shape t <;> simp [hst, Shape.isPlain] at ht <;>
    cases hss : T.shape s <;> simp [hss, Shape.isPlain] at hs <;> rfl

end Plain

/-- What is not nullish is present. -/
theorem isPresent_iff (hs : T.FirstOrder s) (hunion : ¬(T.shape s).IsUnion)
    (hunknown : s ≠ .unknown)
    (hnever : s ≠ .never) : (T.shape s).isPresent = true ↔ s.isNullish = false := by
  cases hs with
  | @primitive p => cases p <;> simp_all [Table.shape, Shape.isPresent, Ty.isNullish]
  | @literal _ _ h | @array _ _ _ h | @tuple _ _ h | @object _ _ h =>
    have hprim : ∀ p, s ≠ .prim p := by
      rintro p rfl
      simp [Table.shape] at h
    simp [h, Shape.isPresent, Ty.isNullish, hprim]
  | union h => exact absurd ⟨_, h⟩ hunion

/-- A primitive takes its literals, and `void` takes what is undefined. -/
theorem fits_primitive_iff (hT : T.WellFormed) (hs : T.FirstOrder s) (hunion : ¬(T.shape s).IsUnion)
    {p : Primitive} (h : Apart s (.prim p)) (hp : (T.FirstOrder (.prim p))) :
    T.Fits (T.shape s) (.primitive p) ↔ byAtom T s (.prim p) = some true := by
  have hne : T.shape s ≠ .primitive p := shape_ne hT hs hp h.ne
  have hnever : T.shape s ≠ .primitive .never := fun hshape =>
    h.source_never (eq_prim_of_shape hT hshape (by simp))
  have hunknown : p ≠ .unknown := fun heq => h.target_unknown (congrArg _ heq)
  have hiff : T.Fits (T.shape s) (.primitive p) ↔ (∃ l, T.shape s = .literal l ∧ l.base = p) ∨
      T.shape s = .primitive .undefined ∧ p = .void := by
    constructor
    · intro hfits
      generalize T.shape s = a at hfits hne hnever hunion
      cases hfits with
      | refl => exact absurd rfl hne
      | top => exact absurd rfl hunknown
      | bottom => exact absurd rfl hnever
      | split => exact absurd ⟨_, rfl⟩ hunion
      | base h => exact .inl ⟨_, rfl, h⟩
      | absent => exact .inr ⟨rfl, rfl⟩
    · rintro (⟨l, hl, hbase⟩ | ⟨hshape, rfl⟩)
      · rw [hl]
        exact .base hbase
      · rw [hshape]
        exact .absent
  rw [hiff]
  have htarget : T.shape (.prim p) = .primitive p := rfl
  unfold byAtom
  rw [htarget]
  cases hshape : T.shape s <;> simp

/-- A union takes what one of its members takes, and `boolean` if it has the truth values. -/
theorem fits_union_iff (hT : T.WellFormed) (hs : T.FirstOrder s) (hunion : ¬(T.shape s).IsUnion)
    (h : Apart s t) :
    T.Fits (T.shape s) (.union ms) ↔ s = .boolean ∧ .truth true ∈ ms ∧ .truth false ∈ ms ∨
      ∃ m ∈ ms, T.Fits (T.shape s) (T.shape m) := by
  have hunknown : T.shape s ≠ .primitive .unknown := fun hshape =>
    h.source_unknown (eq_prim_of_shape hT hshape (by simp))
  have hnever : T.shape s ≠ .primitive .never := fun hshape =>
    h.source_never (eq_prim_of_shape hT hshape (by simp))
  have hboolean : T.shape s = .primitive .boolean → s = .boolean := fun hshape =>
    eq_prim_of_shape hT hshape (by simp)
  constructor
  · intro hfits
    generalize T.shape s = a at hfits hnever hunion hboolean
    cases hfits with
    | refl => exact absurd ⟨_, rfl⟩ hunion
    | bottom => exact absurd rfl hnever
    | split => exact absurd ⟨_, rfl⟩ hunion
    | truths htrue hfalse => exact .inl ⟨hboolean rfl, htrue, hfalse⟩
    | member _ _ hm hfits => exact .inr ⟨_, hm, hfits⟩
  · rintro (⟨rfl, htrue, hfalse⟩ | ⟨m, hm, hfits⟩)
    · exact .truths htrue hfalse
    · exact .member hunion hunknown hm hfits

/-- Comparing with a union. -/
theorem decides_toUnion (hcompare : DecidesBelow compare t.rank) (hT : T.WellFormed)
    (hs : T.FirstOrder s) (ht : T.FirstOrder t) (hunion : ¬(T.shape s).IsUnion) (h : Apart s t)
    (hms : T.shape t = .union ms) :
    Decides T (fun d => stepResolved false (compare d) (inner d) s t)
      (T.Fits (T.shape s) (.union ms)) := by
  rw [fits_union_iff hT hs hunion h]
  have hmember : ∀ m ∈ ms, T.FirstOrder m := fun m hm =>
    ht.member (by simpa [members, hms] using hm)
  have hany : Decides T (fun d => any (compare d s) ms)
      (∃ m ∈ ms, T.Fits (T.shape s) (T.shape m)) :=
    decides_any hT ms fun m hm T1 hT1 h1 => hcompare.later hs (hmember m hm)
      (hT.rank_part (by simpa [hms, Shape.parts] using hm)) hT1 h1
  by_cases hboolean : (decide (s = .boolean) && ms.contains (.truth true) &&
      ms.contains (.truth false)) = true
  · refine (decides_return hT (b := true) ?_).of_eq ⟨0, fun d n _ _ => ?_⟩
    · simp only [Bool.and_eq_true, decide_eq_true_eq, List.contains_eq_mem] at hboolean
      exact ⟨fun _ => .inl ⟨hboolean.1.1, hboolean.1.2, hboolean.2⟩, fun _ => rfl⟩
    · unfold stepResolved
      rw [get_bind, toEnum, hms]
      dsimp only
      rw [if_pos hboolean]
  · refine (hany.imp_iff ?_).of_eq ⟨0, fun d n _ _ => ?_⟩
    · simp only [Bool.and_eq_true, decide_eq_true_eq, List.contains_eq_mem, and_assoc] at hboolean
      exact (or_iff_right hboolean).symm
    · unfold stepResolved
      rw [get_bind, toEnum, hms]
      dsimp only
      rw [if_neg hboolean]

/-- Where the shapes are compared, nothing is known about the pair but that the source is not
nullish. -/
theorem decides_composite (hT : T.WellFormed) (hs : T.FirstOrder s)
    (hunion : ¬(T.shape s).IsUnion) (hplain : (T.shape t).isPlain = true) (h : Apart s t)
    (hatom : byAtom T s t = if s.isNullish then some false else none)
    (hpresent : T.Fits (T.shape s) (T.shape t) → (T.shape s).isPresent = true)
    (hstructural : Decides T (fun d => structural (inner d) s t) (T.Fits (T.shape s) (T.shape t))) :
    Decides T (fun d => stepResolved false (compare d) (inner d) s t)
      (T.Fits (T.shape s) (T.shape t)) := by
  have hsource := isPlain_of_firstOrder hs hunion
  cases hnullish : s.isNullish with
  | true =>
    rw [hnullish] at hatom
    refine (decides_return hT (b := false) ?_).of_eq
      ⟨0, fun d n _ _ => stepResolved_atom hsource hplain hatom _ _ _⟩
    have hnot : ¬T.Fits (T.shape s) (T.shape t) := by
      intro hfits
      have := (isPresent_iff hs hunion h.source_unknown h.source_never).mp (hpresent hfits)
      rw [hnullish] at this
      exact absurd this (by simp)
    simpa using hnot
  | false =>
    rw [hnullish] at hatom
    exact hstructural.of_eq ⟨0, fun d n _ _ => stepResolved_structural hsource hplain hatom _ _⟩

/-- Nothing but a literal of the same value fits a literal. -/
theorem not_fits_literal (hT : T.WellFormed) (hs : T.FirstOrder s) {l : Literal}
    (hl : T.shape t = .literal l) (hunion : ¬(T.shape s).IsUnion) (h : Apart s t) :
    ¬T.Fits (T.shape s) (T.shape t) := by
  intro hfits
  have hfirst : T.FirstOrder t := .literal hl
  have hne := shape_ne hT hs hfirst h.ne
  have hnever : T.shape s ≠ .primitive .never := fun hshape =>
    h.source_never (eq_prim_of_shape hT hshape (by simp))
  rw [hl] at hfits hne
  generalize hshape : T.shape s = a at hfits hne hnever hunion
  cases hfits with
  | refl => exact hne rfl
  | bottom => exact hnever rfl
  | split => exact hunion ⟨_, rfl⟩
  | literal hbase htext =>
    refine h.ne (eq_of_alike hT hs hfirst ?_)
    rw [hshape, hl]
    exact ⟨hbase, htext⟩

/-- The rules for a target that is an object. -/
theorem decides_object {m : Members} (hinner : DecidesBelow inner t.rank) (hT : T.WellFormed)
    (hs : T.FirstOrder s) (ht : T.FirstOrder t) (hunion : ¬(T.shape s).IsUnion) (h : Apart s t)
    (hobject : T.shape t = .object m) (hm : ∀ f ∈ m.fields, T.FirstOrder f.type)
    (hplain : ∀ f ∈ m.fields, f.optional = false ∧ Decimal.isNumeric f.name = false)
    (hindex : m.index = none) (hcalls : m.calls = []) :
    Decides T (fun d => stepResolved false (compare d) (inner d) s t)
      (T.Fits (T.shape s) (T.shape t)) := by
  have hnever : T.shape s ≠ .primitive .never := fun hshape =>
    h.source_never (eq_prim_of_shape hT hshape (by simp))
  have htarget : (T.shape t).isPlain = true := by
    rw [hobject]
    rfl
  have hpresent : T.Fits (T.shape s) (T.shape t) → (T.shape s).isPresent = true := fun hfits =>
    (hfits.isPresent (by rw [hobject]; rfl) hunion).resolve_left hnever
  by_cases hempty : m.fields = []
  · have hisEmpty : m.isEmpty = true := by simp [Members.isEmpty, hempty, hindex, hcalls]
    have hatom : byAtom T s t = some (!s.isNullish) := by
      unfold byAtom
      rw [hobject]
      simp [hisEmpty]
    refine (decides_return hT (b := !s.isNullish) ?_).of_eq
      ⟨0, fun d n _ _ => stepResolved_atom (isPlain_of_firstOrder hs hunion) htarget hatom _ _ _⟩
    rw [Bool.not_eq_true', ← isPresent_iff hs hunion h.source_unknown h.source_never, hobject]
    exact ⟨fun hp => .empty hp hempty, fun hfits => hpresent (hobject ▸ hfits)⟩
  · have hisEmpty : m.isEmpty = false := by simp [Members.isEmpty, hempty]
    refine decides_composite hT hs hunion htarget h ?_ hpresent ?_
    · unfold byAtom
      rw [hobject]
      simp [hisEmpty]
    · have hlow : ∀ f ∈ m.fields, T.FirstOrder f.type ∧ f.type.rank < t.rank := fun f hf =>
        ⟨hm f hf, hT.rank_part (by rw [hobject]; exact mem_parts_of_field hf)⟩
      have hne := shape_ne hT hs ht h.ne
      rw [hobject] at hne ⊢
      rw [fits_object_iff hne hnever hunion hempty]
      refine (decides_toObject hinner hT hs hunion hlow hplain hindex hcalls).of_eq
        ⟨0, fun d n _ _ => ?_⟩
      unfold structural
      rw [get_bind, hobject]

/-- Comparing a type that is no union. -/
theorem decides_stepResolved (hcompare : DecidesBelow compare t.rank)
    (hinner : DecidesBelow inner t.rank) (hT : T.WellFormed) (hs : T.FirstOrder s)
    (ht : T.FirstOrder t) (hunion : ¬(T.shape s).IsUnion) (h : Apart s t) :
    Decides T (fun d => stepResolved false (compare d) (inner d) s t)
      (T.Fits (T.shape s) (T.shape t)) := by
  have hsource := isPlain_of_firstOrder hs hunion
  have hne := shape_ne hT hs ht h.ne
  have hnever : T.shape s ≠ .primitive .never := fun hshape =>
    h.source_never (eq_prim_of_shape hT hshape (by simp))
  have hpart : ∀ {p : Ty}, p ∈ (T.shape t).parts → p.rank < t.rank := fun hp => hT.rank_part hp
  have hpresent : ∀ {b : Shape}, T.Fits (T.shape s) b → b.isPresent = true →
      (T.shape s).isPresent = true := fun hfits hb =>
    (hfits.isPresent hb hunion).resolve_left hnever
  cases ht with
  | @primitive p hany hvalid =>
    have hiff := fits_primitive_iff hT hs hunion h (.primitive hany hvalid)
    have hsome : ∃ b, byAtom T s (.prim p) = some b := by
      unfold byAtom
      cases T.shape s <;> exact ⟨_, rfl⟩
    obtain ⟨b, hb⟩ := hsome
    refine (decides_return hT (b := b) ?_).of_eq
      ⟨0, fun d n _ _ => stepResolved_atom hsource rfl hb _ _ _⟩
    change b = true ↔ T.Fits (T.shape s) (.primitive p)
    rw [hiff, hb, Option.some.injEq]
  | @literal _ l hl =>
    refine (decides_return hT (b := false) ?_).of_eq ⟨0, fun d n _ _ =>
      stepResolved_atom hsource (by rw [hl]; rfl) (by unfold byAtom; rw [hl]) _ _ _⟩
    simpa using not_fits_literal hT hs hl hunion h
  | union hms hsome hmembers hproper =>
    rw [hms]
    exact decides_toUnion hcompare hT hs (.union hms hsome hmembers hproper) hunion h hms
  | @array _ e readonly harray he =>
    refine decides_composite hT hs hunion (by rw [harray]; rfl) h ?_
      (fun hfits => hpresent hfits (by rw [harray]; rfl)) ?_
    · unfold byAtom
      rw [harray]
    · have hlow := hpart (p := e) (by simp [harray, Shape.parts])
      rw [harray] at hne ⊢
      rw [fits_array_iff hne hnever hunion]
      exact decides_toArray hinner hT hs hunion harray he hlow
  | @tuple _ v htuple hv =>
    refine decides_composite hT hs hunion (by rw [htuple]; rfl) h ?_
      (fun hfits => hpresent hfits (by rw [htuple]; rfl)) ?_
    · unfold byAtom
      rw [htuple]
    · have hlow : ∀ e ∈ v.elements, T.FirstOrder e ∧ e.rank < t.rank := fun e he =>
        ⟨hv e he, hpart (by simpa [htuple, Shape.parts] using he)⟩
      rw [htuple] at hne ⊢
      exact decides_toTuple hinner hT hs hunion hnever htuple hne hlow
  | object hobject hm hplain hindex hcalls =>
    exact decides_object hinner hT hs (.object hobject hm hplain hindex hcalls) hunion h hobject hm
      hplain hindex hcalls

/-- One layer of the rules, on first-order types. -/
theorem decides_step (hcompare : DecidesBelow compare t.rank) (hinner : DecidesBelow inner t.rank)
    (hsplit : ∀ m ∈ T.members s, m.rank < s.rank → ∀ T1, T1.WellFormed → T.Adds T1 →
      Decides T1 (fun d => compare d m t) (T.Fits (T.shape m) (T.shape t)))
    (hT : T.WellFormed) (hs : T.FirstOrder s) (ht : T.FirstOrder t) :
    Decides T (fun d => step false (compare d) (inner d) s t) (T.Fits (T.shape s) (T.shape t)) := by
  cases hid : byIdentity s t with
  | some verdict =>
    refine (decides_return hT (fits_of_byIdentity hT hs ht hid)).of_eq ⟨0, fun d n _ _ => ?_⟩
    rw [step, hid]
  | none =>
    have hnoref : ∀ {u : Ty}, T.FirstOrder u → ∀ name arguments,
        T.shape u ≠ .reference name arguments := by
      intro u hu name arguments hshape
      cases hu with
      | primitive => simp [Table.shape] at hshape
      | literal h | array h | tuple h | union h | object h => simp [h] at hshape
    by_cases hunion : (T.shape s).IsUnion
    · obtain ⟨ms, hms⟩ := hunion
      have hmembers : T.members s = ms := by simp [members, hms]
      rw [hmembers] at hsplit
      have hall : Decides T (fun d => all (fun m => compare d m t) ms)
          (∀ m ∈ ms, T.Fits (T.shape m) (T.shape t)) :=
        decides_all hT ms fun m hm =>
          hsplit m hm (hT.rank_part (by simpa [hms, Shape.parts] using hm))
      rw [hs.fits_iff_members hT, hmembers]
      refine hall.of_eq ⟨0, fun d n _ _ => ?_⟩
      rw [step, hid]
      dsimp only
      rw [get_bind, hms]
      cases hst : T.shape t with
      | reference name arguments => exact absurd hst (hnoref ht name arguments)
      | _ => rfl
    · refine (decides_stepResolved hcompare hinner hT hs ht hunion
        (apart_of_byIdentity hid)).of_eq ⟨0, fun d n _ _ => ?_⟩
      rw [step, hid]
      dsimp only
      rw [get_bind]
      have hsource := isPlain_of_firstOrder hs hunion
      cases hss : T.shape s <;> simp [hss, Shape.isPlain] at hsource <;>
        cases hst : T.shape t <;>
          first | rfl | exact absurd hst (hnoref ht _ _)

end Layer

/-- **A comparison of first-order types** ends, and decides what fits. The pairs assumed meanwhile
all have a target above this one. -/
theorem decides_decideAt (hT : T.WellFormed) (hs : T.FirstOrder s)
    (ht : T.FirstOrder t) (A : List (Ty × Ty)) (hA : ∀ p ∈ A, t.rank < p.2.rank) :
    Decides T (fun d => decideAt d A s t) (T.Fits (T.shape s) (T.shape t)) := by
  -- the target goes down, or it stays and the source goes down
  induction htr : t.rank using Nat.strong_induction_on generalizing T s t A with
  | _ r iht =>
  induction hsr : s.rank using Nat.strong_induction_on generalizing T s with
  | _ q ihs =>
  have hbelow : ∀ B : List (Ty × Ty), (∀ p ∈ B, r ≤ p.2.rank) →
      DecidesBelow (fun d => decideAt d B) t.rank := by
    intro B hB T1 a b hT1 ha hb hlt
    exact iht b.rank (htr ▸ hlt) hT1 ha hb B (fun p hp =>
      Nat.lt_of_lt_of_le (htr ▸ hlt) (hB p hp)) rfl
  have hcontains : A.contains (s, t) = false := by
    rw [List.contains_eq_mem, decide_eq_false_iff_not]
    exact fun hmem => Nat.lt_irrefl _ (hA (s, t) hmem)
  have hstep : Decides T (fun d => step false (decideAt d A) (decideAt d ((s, t) :: A)) s t)
      (T.Fits (T.shape s) (T.shape t)) := by
    refine decides_step (hbelow A fun p hp => htr ▸ Nat.le_of_lt (hA p hp))
      (hbelow ((s, t) :: A) fun p hp => ?_) ?_ hT hs ht
    · rcases List.mem_cons.mp hp with rfl | hp
      · exact Nat.le_of_eq htr.symm
      · exact htr ▸ Nat.le_of_lt (hA p hp)
    · intro m hm hlt T1 hT1 h1
      have hagrees := Table.Agrees.of_le h1.le
      have hfirst := hs.member hm
      refine (ihs m.rank (hsr ▸ hlt) hT1 (hfirst.of_agrees hagrees) (ht.of_agrees hagrees)
        rfl).imp_iff ?_
      exact hagrees.fits_types_iff hfirst ht
  obtain ⟨b, T1, hT1, h1, hb, k, hk⟩ := hstep
  refine ⟨b, T1, hT1, h1, hb, k + 1, fun d n hd hn => ?_⟩
  obtain ⟨d, rfl⟩ : ∃ e, d = e + 1 := ⟨d - 1, by omega⟩
  dsimp only
  rw [decideAt, hcontains]
  exact hk d n (by omega) (by omega)

/-- A comparison of first-order types that has an answer has the right one. -/
theorem fits_of_decideAt {T1 : Table} (hT : T.WellFormed) (hs : T.FirstOrder s)
    (ht : T.FirstOrder t) {d : Nat} (hrun : decideAt d [] s t n T = some (b, T1)) :
    b = true ↔ T.Fits (T.shape s) (T.shape t) := by
  obtain ⟨b', T', -, -, hb', k, hk⟩ := decides_decideAt hT hs ht [] (by simp)
  have hmore := (runs_decideAt (K := .building)
    (fun T u hT hu => ⟨Ty.building_resolve hT hu, False.elim⟩) (Nat.le_max_left d k) [] hT hs.has
    ht.has n b T1 hrun).1.more (max n k) (Nat.le_max_left n k)
  have heq := hmore.symm.trans (hk (max d k) (max n k) (Nat.le_max_right d k)
    (Nat.le_max_right n k))
  rw [(Prod.mk.inj (Option.some.inj heq)).1]
  exact hb'

end Assign

end ShapeCheck
