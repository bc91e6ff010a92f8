import ShapeCheck.Proofs.DataComparison
import ShapeCheck.Proofs.Joins

/-!
# Comparisons of data read the entries only

A comparison of data resolves nothing and asks for no bound of a type parameter. It makes types, and
what it makes and finds depends on the entries of the table alone: on their keys, and on the members
of the enums in the data. So a comparison that was made once is made again, with the same answer, in
every table that has the entries by now and the members of these enums as they were, whatever became
of the aliases, the type parameters and the answers kept meanwhile.

* `Table.Includes` says that a table has all entries of another, the enums of the set with the same
  members.
* `Typing.Recurs` says of a piece of work that it does the same in every table that includes the one
  it left, `Assign.recurs_decideAt` that comparisons of data do.
-/

namespace ShapeCheck

variable {α β : Type} {E : Set Ty} {V : Table} {e : Enumeration} {test : α → Typing Bool}
  {xs : List α}

namespace Table

/-- The second table has all entries of the first, and the enums of the set have the same
members. -/
structure Includes (E : Set Ty) (T V : Table) : Prop where
  lists : T.Lists V
  same : ∀ u ∈ E, T.Has u → V.shape u = T.shape u

section Including

variable {T T1 : Table} {t : Ty}

theorem Lists.has (h : T.Lists V) (ht : T.Has t) : V.Has t := by
  cases t with
  | prim | truth => exact Nat.zero_le _
  | made n =>
    obtain ⟨e, he⟩ := has_iff_entry.mp ((has_unfilled T _).mpr ht)
    exact (has_unfilled V _).mp (has_iff_entry.mpr ⟨e, h n e he⟩)

/-- Only an enum can have changed. -/
theorem Lists.saysAlike (h : T.Lists V) (ht : T.Has t) : T.SaysAlike V t := by
  have hsame : V.unfilled.shape t = T.unfilled.shape t := by
    cases t with
    | prim | truth => rfl
    | made n =>
      obtain ⟨e, he⟩ := has_iff_entry.mp ((has_unfilled T _).mpr ht)
      rw [shape_made he, shape_made (h n e he)]
  rw [shape_unfilled, shape_unfilled] at hsame
  revert hsame
  unfold SaysAlike
  cases T.shape t <;> cases V.shape t <;> simp [Shape.unfilled]

theorem Lists.enumValue? (h : T.Lists V) (ht : T.Has t) :
    Ty.enumValue? V t = Ty.enumValue? T t := by
  rw [Ty.enumValue?, Ty.enumValue?]
  rcases h.saysAlike ht with hsame | ⟨old, new, hold, hnew⟩
  · rw [hsame]
  · rw [hold, hnew]

theorem Includes.of_entries (h : ∀ (n : Nat) (e : Entry), T.entries[n]? = some e →
    V.entries[n]? = some e) :
    T.Includes E V := by
  refine ⟨.of_entries h, fun u _ hu => ?_⟩
  cases u with
  | prim | truth => rfl
  | made n =>
    obtain ⟨e, he⟩ := has_iff_entry.mp hu
    rw [shape_made he, shape_made (h n e he)]

theorem Includes.of_le (hle : T ≤ T1) : T.Includes E T1 := .of_entries hle.entries

theorem Includes.trans (h : T.Includes E T1) (h' : T1.Includes E V) : T.Includes E V :=
  ⟨fun n e he => h'.lists n e (h.lists n e he),
    fun u hu ht => (h'.same u hu (h.lists.has ht)).trans (h.same u hu ht)⟩

/-- Data is the same in both tables. -/
theorem Includes.shape (h : T.Includes E V) (ht : T.DataOf E t) : V.shape t = T.shape t := by
  rcases h.lists.saysAlike ht.has with hsame | ⟨e, -, he, -⟩
  · exact hsame
  · exact h.same t (ht.mem (by rw [he]; rfl)) ht.has

theorem Includes.dataOf (h : T.Includes E V) (ht : T.DataOf E t) : V.DataOf E t := by
  induction ht with
  | @intro t hhas hdatum henum hparts ih =>
    have hsame := h.shape (.intro hhas hdatum henum hparts)
    rw [← hsame] at hdatum henum ih
    exact .intro (h.lists.has hhas) hdatum henum ih

end Including

end Table

open Table

/-- A type that is found is found in every table with the entries. -/
theorem Interning.intern_of_lists {U : Table} {s : Shape} {t : Ty}
    (hU : U.WellFormed) (h : U.Lists V)
    (hrun : Ty.intern s U = (t, U)) : Ty.intern s V = (t, V) := by
  rw [intern_apply] at hrun ⊢
  cases hfound : U.find? s.key with
  | some u =>
    rw [hfound] at hrun
    rw [(h.found hU (by simp : ∀ t ∈ [], U.Has t)).2.2 _ u hfound, (Prod.mk.inj hrun).1]
  | none =>
    rw [hfound] at hrun
    have hsize := congrArg (·.entries.size) (Prod.mk.inj hrun).2
    simp [Table.push] at hsize

namespace Typing

/-- Work that keeps to well-formed tables and does the same in every table that includes the one it
left. -/
def Recurs (E : Set Ty) {α : Type} (T : Table) (x : Typing α) (P : Table → α → Prop) : Prop :=
  ∀ n a T1, x n T = some (a, T1) → (T1.WellFormed ∧ T ≤ T1 ∧ P T1 a) ∧
    ∀ V, T1.Includes E V → x n V = some (a, V)

section Rules

variable {T : Table} {P : Table → α → Prop} {Q : Table → β → Prop}

theorem recurs_pure {a : α} (hT : T.WellFormed) (ha : P T a) : Recurs E T (pure a) P := by
  intro n b T1 hrun
  obtain ⟨rfl, rfl⟩ := Prod.mk.inj (Option.some.inj hrun)
  exact ⟨⟨hT, le_rfl, ha⟩, fun _ _ => rfl⟩

theorem Recurs.bind {x : Typing α} {f : α → Typing β} (hx : Recurs E T x P)
    (hf : ∀ a T1, T1.WellFormed → T ≤ T1 → P T1 a → Recurs E T1 (f a) Q) :
    Recurs E T (x >>= f) Q := by
  intro n b T2 hrun
  obtain ⟨a, T1, hfirst, hrest⟩ := bind_some hrun
  obtain ⟨⟨hT1, hle, ha⟩, hagain⟩ := hx n a T1 hfirst
  obtain ⟨⟨hT2, hle', hb⟩, hagain'⟩ := hf a T1 hT1 hle ha n b T2 hrest
  refine ⟨⟨hT2, hle.trans hle', hb⟩, fun V hV => ?_⟩
  rw [bind_of_some (hagain V ((Includes.of_le hle').trans hV))]
  exact hagain' V hV

theorem recurs_get_bind {f : Table → Typing α} (hsame : ∀ V, T.Includes E V → f V = f T)
    (h : Recurs E T (f T) P) : Recurs E T (get >>= f) P := by
  intro n a T1 hrun
  obtain ⟨⟨hT1, hle, ha⟩, hagain⟩ := h n a T1 hrun
  refine ⟨⟨hT1, hle, ha⟩, fun V hV => ?_⟩
  rw [get_bind, hsame V ((Includes.of_le hle).trans hV)]
  exact hagain V hV

/-- A constructor that finds its type again wherever the entries are. -/
theorem recurs_lift {work : Interning α} (h : Interning.Settles T work P)
    (hwork : ∀ a U V, U.WellFormed → T ≤ U → U.Lists V → work U = (a, U) → work V = (a, V)) :
    Recurs E T (liftM work) P := by
  obtain ⟨b, T', hat, hb⟩ := h
  intro n a T1 hrun
  obtain ⟨rfl, rfl⟩ := Prod.mk.inj (hat.result.symm.trans (Option.some.inj hrun))
  exact ⟨⟨hat.wellFormed, hat.adds.le, hb⟩, fun V hV =>
    congrArg some (hwork b T' V hat.wellFormed hat.adds.le hV.lists (hat.again T' le_rfl))⟩

end Rules

end Typing

open Typing

variable {T : Table} {s t : Ty}

theorem recurs_unionOf {ts : List Ty} (hT : T.WellFormed) (hts : ∀ t ∈ ts, T.DataOf E t) :
    Recurs E T (liftM (Ty.unionOf ts)) (DataOf E) :=
  recurs_lift (settles_unionOf_dataOf hT hts) fun _ _ _ hU hle hlists hrun =>
    Interning.unionOf_of_lists hU (fun t ht => has_of_le hle (hts t ht).has) hrun hlists

/-- The length of a tuple is found again. -/
theorem recurs_tupleLength (hT : T.WellFormed) (u : Tuple) :
    Recurs E T (liftM (Ty.tupleLength u)) (DataOf E) := by
  refine recurs_lift (settles_tupleLength_dataOf hT u) fun _ U V hU _ hlists hrun => ?_
  unfold Ty.tupleLength at hrun ⊢
  split at hrun
  · rw [if_pos ‹_›]
    exact congrArg (·, V) (congrArg Prod.fst hrun)
  · rw [if_neg ‹_›]
    exact Interning.intern_of_lists hU hlists hrun

/-- The union of the values of an enum is found again. -/
theorem recurs_valueUnion (hT : T.WellFormed) (he : ∀ m ∈ e.members, T.Has m) :
    Recurs E T (liftM (Ty.valueUnion e)) (DataOf E) := by
  refine recurs_lift (settles_valueUnion_dataOf hT he) fun a U V hU hle hlists hrun => ?_
  change Ty.unionOf (e.members.filterMap (Ty.enumValue? U)) U = _ at hrun
  change Ty.unionOf (e.members.filterMap (Ty.enumValue? V)) V = _
  have heU : ∀ m ∈ e.members, U.Has m := fun m hm => has_of_le hle (he m hm)
  rw [List.filterMap_congr fun m hm => hlists.enumValue? (heU m hm)]
  refine Interning.unionOf_of_lists hU (fun v hv => ?_) hrun hlists
  obtain ⟨m, hm, hmv⟩ := List.mem_filterMap.mp hv
  exact (Assign.value_spec hU (heU m hm) hmv).1

namespace Assign

/-- Work that gives a verdict, and gives it again. -/
abbrev Reproduces (E : Set Ty) (T : Table) (x : Typing Bool) : Prop := Recurs E T x fun _ _ => True

/-- Answers about data that are given again. -/
def ReproducesData (E : Set Ty) (T : Table) (c : Compare) : Prop :=
  ∀ (T1 : Table) (a b : Ty), T1.WellFormed → T ≤ T1 → T1.DataOf E a → T1.DataOf E b →
  Reproduces E T1 (c a b)

variable {c inner : Compare}

theorem reproduces_verdict (hT : T.WellFormed) (b : Bool) : Reproduces E T (pure b) :=
  recurs_pure hT trivial

theorem ReproducesData.of_le {T1 : Table} (h : ReproducesData E T c) (hle : T ≤ T1) :
    ReproducesData E T1 c := fun T2 a b hT2 hle' => h T2 a b hT2 (hle.trans hle')

theorem ReproducesData.ask (h : ReproducesData E T c) (hT : T.WellFormed) (hs : T.DataOf E s)
    (ht : T.DataOf E t) : Reproduces E T (c s t) := h T s t hT le_rfl hs ht

theorem Reproduces.and {x y : Typing Bool} (hx : Reproduces E T x)
    (hy : ∀ T1 : Table, T1.WellFormed → T ≤ T1 → Reproduces E T1 y) :
    Reproduces E T (do if ← x then y else return false) :=
  hx.bind fun b T1 hT1 hle _ => by
    cases b with
    | true => exact hy T1 hT1 hle
    | false => exact reproduces_verdict hT1 false

section

variable (hT : T.WellFormed)
include hT

theorem reproduces_all
    (h : ∀ x ∈ xs, ∀ T1 : Table, T1.WellFormed → T ≤ T1 → Reproduces E T1 (test x)) :
    Reproduces E T (all test xs) := by
  induction xs generalizing T with
  | nil => exact reproduces_verdict hT true
  | cons x xs ih =>
    refine (h x (by simp) T hT le_rfl).and fun T1 hT1 hle => ih hT1 fun y hy T2 hT2 hle' => ?_
    exact h y (List.mem_cons_of_mem x hy) T2 hT2 (hle.trans hle')

theorem reproduces_any
    (h : ∀ x ∈ xs, ∀ T1 : Table, T1.WellFormed → T ≤ T1 → Reproduces E T1 (test x)) :
    Reproduces E T (any test xs) := by
  induction xs generalizing T with
  | nil => exact reproduces_verdict hT false
  | cons x xs ih =>
    refine (h x (by simp) T hT le_rfl).bind fun b T1 hT1 hle _ => ?_
    cases b with
    | true => exact reproduces_verdict hT1 true
    | false =>
      exact ih hT1 fun y hy T2 hT2 hle' => h y (List.mem_cons_of_mem x hy) T2 hT2 (hle.trans hle')

theorem reproduces_slots (hc : ReproducesData E T c) {a b : Option Ty}
    (ha : ∀ r ∈ a, T.DataOf E r) (hb : ∀ r ∈ b, T.DataOf E r) {xs ys : List Slot}
    (hxs : ∀ x ∈ xs, T.DataOf E x.type) (hys : ∀ y ∈ ys, T.DataOf E y.type) :
    Reproduces E T (slots c a b xs ys) := by
  induction xs generalizing ys T with
  | nil =>
    induction ys generalizing T with
    | nil =>
      rw [slots]
      exact reproduces_verdict hT true
    | cons y ys ih =>
      unfold slots
      split
      · exact reproduces_verdict hT false
      cases a with
      | none => exact ih hT hc ha hb (by simp) fun z hz => hys z (List.mem_cons_of_mem y hz)
      | some r =>
        refine (hc.ask hT (ha r rfl) (hys y (by simp))).and fun T1 hT1 hle => ?_
        exact ih hT1 (hc.of_le hle) (fun r hr => (ha r hr).of_le hle)
          (fun r hr => (hb r hr).of_le hle)
          (by simp) fun z hz => (hys z (List.mem_cons_of_mem y hz)).of_le hle
  | cons x xs ih =>
    have hrest {T1 : Table} (hT1 : T1.WellFormed) (hle : T ≤ T1) {zs : List Slot}
        (hzs : ∀ z ∈ zs, T.DataOf E z.type) : Reproduces E T1 (slots c a b xs zs) :=
      ih hT1 (hc.of_le hle) (fun r hr => (ha r hr).of_le hle) (fun r hr => (hb r hr).of_le hle)
        (fun z hz => (hxs z (List.mem_cons_of_mem x hz)).of_le hle) fun z hz => (hzs z hz).of_le hle
    cases ys with
    | nil =>
      unfold slots
      cases b with
      | none => exact reproduces_verdict hT false
      | some r =>
        exact (hc.ask hT (hxs x (by simp)) (hb r rfl)).and fun T1 hT1 hle => hrest hT1 hle hys
    | cons y ys =>
      rw [slots]
      split
      · exact reproduces_verdict hT false
      · exact (hc.ask hT (hxs x (by simp)) (hys y (by simp))).and fun T1 hT1 hle =>
          hrest hT1 hle fun z hz => hys z (List.mem_cons_of_mem y hz)

theorem reproduces_tuples (hc : ReproducesData E T c) {u v : Tuple}
    (hu : ∀ e ∈ u.elements, T.DataOf E e) (hv : ∀ e ∈ v.elements, T.DataOf E e) :
    Reproduces E T (tuples c u v) := by
  obtain ⟨hslots, hrest⟩ := Tuple.forall_elements.mp hu
  obtain ⟨hslots', hrest'⟩ := Tuple.forall_elements.mp hv
  refine (reproduces_slots hT hc hrest hrest' hslots hslots').and fun T1 hT1 hle => ?_
  cases hr : u.rest with
  | none => exact reproduces_verdict hT1 true
  | some r =>
    cases hr' : v.rest with
    | none => exact reproduces_verdict hT1 false
    | some r' => exact (hc.of_le hle).ask hT1 ((hrest r hr).of_le hle) ((hrest' r' hr').of_le hle)

/-- What is found under a name in data that is compared part by part. -/
theorem recurs_ownField (hs : T.DataOf E s) (hplain : (T.shape s).isPlain = true)
    (name : String) : Recurs E T (s.ownField? name) fun T1 f => ∀ g ∈ f, T1.DataOf E g.type := by
  refine recurs_get_bind (fun V hV => by rw [hV.shape hs]) ?_
  have hpart {p : Ty} (hp : p ∈ (T.shape s).parts) : T.DataOf E p := hs.part hp
  -- the other types are asked by their shapes, in the same way in every table
  have hproperty (h : Recurs E T (liftM (Ty.plainProperty (T.shape s) name))
      fun T1 f => ∀ g ∈ f, T1.DataOf E g.type) :
      Recurs E T (s.property? name) fun T1 f => ∀ g ∈ f, T1.DataOf E g.type := by
    intro n f T1 hrun
    match n with
    | 0 => exact nomatch (show none = some (f, T1) from hrun)
    | n + 1 =>
      rw [Ty.property?_of_isPlain hplain] at hrun
      obtain ⟨hleft, hagain⟩ := h (n + 1) f T1 hrun
      refine ⟨hleft, fun V hV => ?_⟩
      have hshape : V.shape s = T.shape s := ((Includes.of_le hleft.2.1).trans hV).shape hs
      rw [Ty.property?_of_isPlain (hshape ▸ hplain), hshape]
      exact hagain V hV
  cases hshape : T.shape s with
  | object m =>
    obtain ⟨hfields, -⟩ := Shape.forall_parts_object.mp fun p hp => hpart (hshape ▸ hp)
    exact recurs_pure hT fun g hg => hfields g (Members.mem_of_field? hg).1
  | primitive p | literal l =>
    rw [hshape] at hproperty
    refine hproperty (recurs_pure hT fun g hg => ?_)
    obtain ⟨q, hq⟩ := Ty.primitiveProperty_prim _ name g hg
    exact hq ▸ dataOf_prim E T q
  | array e readonly =>
    rw [hshape] at hproperty hpart
    refine hproperty (recurs_pure hT fun g hg => ?_)
    unfold Ty.arrayProperty? at hg
    split_ifs at hg
    · obtain rfl := Option.some.inj hg
      exact dataOf_prim E T _
    · obtain rfl := Option.some.inj hg
      exact hpart (List.mem_singleton_self e)
    · exact absurd hg (by simp)
  | tuple u =>
    rw [hshape] at hproperty hpart
    refine hproperty ?_
    change Recurs E T (liftM (Ty.tupleProperty? u name)) _
    unfold Ty.tupleProperty?
    split
    · change Recurs E T (liftM (Ty.tupleLength u) >>= fun l =>
        pure (some ({ name, type := l, readonly := true } : Field))) _
      refine (recurs_tupleLength hT u).bind fun l T1 hT1 _ hl => recurs_pure hT1 fun g hg => ?_
      obtain rfl := Option.some.inj hg
      exact hl
    · cases Decimal.integer? name with
      | none => exact recurs_pure hT (by simp)
      | some i =>
        refine recurs_pure hT fun g hg => ?_
        obtain ⟨e, he, rfl⟩ := Option.map_eq_some_iff.mp hg
        exact hpart (Ty.mem_elements_of_element? he)
  | _ =>
    have hdatum := hs.isDatum
    simp_all [Shape.isPlain, Shape.isDatum]

theorem reproduces_field (hc : ReproducesData E T c) (hs : T.DataOf E s)
    (hplain : (T.shape s).isPlain = true) {g : Field} (hg : T.DataOf E g.type) :
    Reproduces E T (field c s g) :=
  (recurs_ownField hT hs hplain g.name).bind fun f T1 hT1 hle hf => by
    cases f with
    | none => exact recurs_pure hT1 trivial
    | some f =>
      rw [found]
      split
      · exact recurs_pure hT1 trivial
      · exact (hc.of_le hle).ask hT1 (hf f rfl) (hg.of_le hle)

theorem reproduces_index (hc : ReproducesData E T c) (hs : T.DataOf E s) {i : Index}
    (hi : T.DataOf E i.value) : Reproduces E T (index c s i) := by
  refine recurs_get_bind (fun V hV => by rw [hV.shape hs]) ?_
  cases hshape : T.shape s with
  | object m =>
    obtain ⟨hfields, hindex, -⟩ := Shape.forall_parts_object.mp fun p hp => hs.part (hshape ▸ hp)
    refine (reproduces_all hT fun f hf T1 hT1 hle => ?_).and fun T1 hT1 hle => ?_
    · exact (hc.of_le hle).ask hT1 ((hfields f (List.mem_filter.mp hf).1).of_le hle) (hi.of_le hle)
    · cases hj : m.index with
      | none => exact reproduces_verdict hT1 true
      | some j =>
        dsimp only
        split
        · exact (hc.of_le hle).ask hT1 ((hindex j hj).of_le hle) (hi.of_le hle)
        · exact reproduces_verdict hT1 true
  | array e readonly =>
    dsimp only
    split
    · exact hc.ask hT (hs.part (by rw [hshape]; exact List.mem_singleton_self e)) hi
    · exact reproduces_verdict hT false
  | tuple u =>
    dsimp only
    split
    · exact (recurs_unionOf hT fun e he => hs.part (by rw [hshape]; exact he)).bind
        fun e T1 hT1 hle he => (hc.of_le hle).ask hT1 he (hi.of_le hle)
    · exact reproduces_verdict hT false
  | _ => exact reproduces_verdict hT false

theorem reproduces_toObject (hc : ReproducesData E T c) (hs : T.DataOf E s)
    (hplain : (T.shape s).isPlain = true) {m : Members} (ht : T.DataOf E t)
    (hshape : T.shape t = .object m) :
    Reproduces E T (toObject c s m) := by
  obtain ⟨hfields, hindex, -⟩ := Shape.forall_parts_object.mp fun p hp => ht.part (hshape ▸ hp)
  have hcalls : m.calls.isEmpty = true := by
    have hdatum := ht.isDatum
    rwa [hshape] at hdatum
  refine (reproduces_all hT fun g hg T1 hT1 hle => ?_).and fun T1 hT1 hle => ?_
  · exact reproduces_field hT1 (hc.of_le hle) (hs.of_le hle) (shape_of_le hle hs.has ▸ hplain)
      ((hfields g hg).of_le hle)
  refine (reproduces_all hT1 fun i hi T2 hT2 hle' => ?_).and fun T2 hT2 _ => ?_
  · have hle := hle.trans hle'
    exact reproduces_index hT2 (hc.of_le hle) (hs.of_le hle)
      ((hindex i (Option.mem_toList.mp hi)).of_le hle)
  · rw [hcalls]
    exact reproduces_verdict hT2 true

theorem reproduces_structural (hc : ReproducesData E T c) (hs : T.DataOf E s)
    (hplain : (T.shape s).isPlain = true) (ht : T.DataOf E t) :
    Reproduces E T (structural c s t) := by
  refine recurs_get_bind (fun V hV => by rw [hV.shape hs, hV.shape ht]) ?_
  cases htarget : T.shape t with
  | object m => exact reproduces_toObject hT hc hs hplain ht htarget
  | function =>
    have hdatum := ht.isDatum
    simp [htarget, Shape.isDatum] at hdatum
  | array e readonly =>
    have he : T.DataOf E e := ht.part (by rw [htarget]; exact List.mem_singleton_self e)
    cases hsource : T.shape s with
    | array own r =>
      exact hc.ask hT (hs.part (by rw [hsource]; exact List.mem_singleton_self own)) he
    | tuple u =>
      exact (recurs_unionOf hT fun e he => hs.part (by rw [hsource]; exact he)).bind
        fun u T1 hT1 hle hu => (hc.of_le hle).ask hT1 hu (he.of_le hle)
    | _ => exact reproduces_verdict hT false
  | tuple v =>
    cases hsource : T.shape s with
    | tuple u =>
      exact reproduces_tuples hT hc (fun e he => hs.part (by rw [hsource]; exact he))
        fun e he => ht.part (by rw [htarget]; exact he)
    | _ => exact reproduces_verdict hT false
  | _ => exact reproduces_verdict hT false

theorem hasNumericMember_of_lists (hV : T.Lists V)
    (he : ∀ m ∈ e.members, T.Has m) : hasNumericMember V e = hasNumericMember T e := by
  have hvalue : ∀ m ∈ e.members,
      (Ty.enumValue? V m).bind V.literal? = (Ty.enumValue? T m).bind T.literal? := by
    intro m hm
    rw [hV.enumValue? (he m hm)]
    cases hv : Ty.enumValue? T m with
    | none => rfl
    | some v => exact (hV.saysAlike (value_spec hT (he m hm) hv).1).literal?
  unfold hasNumericMember
  rw [Bool.eq_iff_iff, List.any_eq_true, List.any_eq_true]
  exact exists_congr fun m => and_congr_right fun hm => by rw [hvalue m hm]

theorem toEnum_of_includes (hV : T.Includes E V) (hs : T.DataOf E s)
    (ht : T.DataOf E t) : toEnum V s t = toEnum T s t := by
  unfold toEnum isNumber
  rw [hV.shape hs, hV.shape ht, (hV.lists.saysAlike hs.has).literal?]
  cases htarget : T.shape t with
  | enumeration e =>
    dsimp only
    rw [hasNumericMember_of_lists hT hV.lists (has_enumMembers hT htarget)]
  | _ => rfl

end

theorem byAtom_of_includes (hV : T.Includes E V) (hs : T.DataOf E s) (ht : T.DataOf E t) :
    byAtom V s t = byAtom T s t := by
  unfold byAtom
  rw [hV.shape hs, hV.shape ht]

/-- The rules for a source that is looked into, once the target is not. -/
theorem reproduces_bySource (hT : T.WellFormed) (hc : ReproducesData E T c) (hs : T.DataOf E s)
    (ht : T.DataOf E t) {r : Typing Bool} (hnounion : ∀ ms, T.shape s ≠ .union ms)
    (hrest : (T.shape s).isPlain = true → Reproduces E T r) :
    Reproduces E T (match T.shape s with
      | .enumMember _ _ value => c value t
      | .enumeration e => do c (← Ty.valueUnion e) t
      | .intersection ms => any (c · t) ms
      | .parameter v => c ((T.typeVar v).bound.getD .unknown) t
      | _ => r) := by
  have hdatum := hs.isDatum
  cases hsource : T.shape s with
  | enumMember enum name value => exact hc.ask hT (hs.part (by rw [hsource]; simp [Shape.parts])) ht
  | enumeration e =>
    refine (recurs_valueUnion hT (has_enumMembers hT hsource)).bind fun u T1 hT1 hle hu => ?_
    exact (hc.of_le hle).ask hT1 hu (ht.of_le hle)
  | union ms => exact absurd hsource (hnounion ms)
  | intersection | parameter | reference => simp [hsource, Shape.isDatum] at hdatum
  | _ => exact hrest (by rw [hsource]; rfl)

theorem reproduces_stepResolved (hT : T.WellFormed) (assumed : Bool) (hc : ReproducesData E T c)
    (hinner : ReproducesData E T inner) (hs : T.DataOf E s) (ht : T.DataOf E t)
    (hnounion : ∀ ms, T.shape s ≠ .union ms) :
    Reproduces E T (stepResolved assumed c inner s t) := by
  have hdatum := hs.isDatum
  refine recurs_get_bind (fun V hV => ?_) ?_
  · rw [toEnum_of_includes hT hV hs ht, byAtom_of_includes hV hs ht,
      hV.shape hs, hV.shape ht]
    cases hsource : T.shape s with
    | parameter v => simp [hsource, Shape.isDatum] at hdatum
    | _ => rfl
  cases toEnum T s t with
  | some verdict => exact reproduces_verdict hT verdict
  | none =>
  cases htarget : T.shape t with
  | union ms =>
    dsimp only
    split
    · exact reproduces_verdict hT true
    · refine reproduces_any hT fun m hm T1 hT1 hle => ?_
      exact (hc.of_le hle).ask hT1 (hs.of_le hle) ((ht.part (by rw [htarget]; exact hm)).of_le hle)
  | intersection =>
    have hdatum := ht.isDatum
    simp [htarget, Shape.isDatum] at hdatum
  | parameter =>
    exact reproduces_bySource hT hc hs ht hnounion fun _ => reproduces_verdict hT false
  | _ =>
    refine reproduces_bySource hT hc hs ht hnounion fun hplain => ?_
    cases byAtom T s t with
    | some verdict => exact reproduces_verdict hT verdict
    | none =>
      cases assumed with
      | true => exact reproduces_verdict hT true
      | false => exact reproduces_structural hT hinner hs hplain ht

theorem reproduces_step (hT : T.WellFormed) (assumed : Bool) (hc : ReproducesData E T c)
    (hinner : ReproducesData E T inner) (hs : T.DataOf E s) (ht : T.DataOf E t) :
    Reproduces E T (step assumed c inner s t) := by
  unfold step
  cases byIdentity s t with
  | some verdict => exact reproduces_verdict hT verdict
  | none =>
  have hdatum := hs.isDatum
  have hdatum' := ht.isDatum
  refine recurs_get_bind (fun V hV => by rw [hV.shape hs, hV.shape ht]) ?_
  cases hsource : T.shape s with
  | reference | intersection => simp [hsource, Shape.isDatum] at hdatum
  | union ms =>
    cases htarget : T.shape t with
    | reference => simp [htarget, Shape.isDatum] at hdatum'
    | _ =>
      refine reproduces_all hT fun m hm T1 hT1 hle => ?_
      exact (hc.of_le hle).ask hT1 ((hs.part (by rw [hsource]; exact hm)).of_le hle) (ht.of_le hle)
  | _ =>
    cases htarget : T.shape t with
    | reference => simp [htarget, Shape.isDatum] at hdatum'
    | _ => exact reproduces_stepResolved hT assumed hc hinner hs ht (by simp [hsource])

/-- **A comparison of data is made again** in every table with the entries of the one that it
left. -/
theorem recurs_decideAt (hT : T.WellFormed) (d : Nat) (pairs : List (Ty × Ty)) (hs : T.DataOf E s)
    (ht : T.DataOf E t) : Reproduces E T (decideAt d pairs s t) := by
  induction d generalizing T pairs s t with
  | zero => exact fun n b T1 hrun => nomatch (show none = some (b, T1) from hrun)
  | succ d ih =>
    have hbelow (pairs) : ReproducesData E T (decideAt d pairs) := fun T1 a b hT1 _ ha hb =>
      ih hT1 pairs ha hb
    exact reproduces_step hT _ (hbelow _) (hbelow _) hs ht

end Assign
end ShapeCheck
