import ShapeCheck.Proofs.Evidence
import ShapeCheck.Proofs.Narrowing

/-!
# Unification follows every pair

Unification of a template with a first-order argument ends. Its steps keep to the order of the
template: each compares the parts of a template with what it reads off the argument. So the evidence
that it leaves has everything that the pairs met on the way lead to.

* `Ty.delivers_property` is what a property access finds on a first-order type.
* `Inference.records_unifyAt` says that the comparison of a template with an argument adds that.
-/

namespace ShapeCheck

open Table

variable {f : Field} {ms : List Ty} {g p : Ty} {x : Nat → Inference.Unify Unit}

/-- The second table holds what the first one holds, keeps right answers only, and has the parts of
its types in order. -/
structure Table.Leads (T T1 : Table) : Prop where
  le : T ≤ T1
  faithful : T1.Faithful
  orderly : T1.Orderly

namespace Table

variable {T T1 T2 : Table}

theorem Leads.wellFormed (h : T.Leads T1) : T1.WellFormed := h.faithful.wellFormed

theorem Leads.self (h : T.Leads T1) : T1.Leads T1 := ⟨le_refl T1, h.faithful, h.orderly⟩

theorem Leads.trans (h : T.Leads T1) (h' : T1.Leads T2) : T.Leads T2 :=
  ⟨h.le.trans h'.le, h'.faithful, h'.orderly⟩

theorem Leads.of_settles {α : Type} {work : Interning α} {a : α} (hT : T.Leads T)
    (h : Interning.SettlesAt T work a T1) : T.Leads T1 where
  le := h.adds.le
  faithful := hT.faithful.of_agrees h.wellFormed (.of_le h.adds.le) h.adds.verdicts
  orderly := h.adds.orderly hT.orderly

end Table

namespace Typing

/-- From some depth and some number of steps on, the work has one result. -/
def Delivers {α : Type} (T : Table) (x : Nat → Typing α) (Q : Table → α → Prop) : Prop :=
  ∃ a T1, T.Leads T1 ∧ Q T1 a ∧ ∃ k, ∀ d n, k ≤ d → k ≤ n → x d n T = some (a, T1)

section Rules

variable {α β : Type} {T : Table} {x y : Nat → Typing α} {Q R : Table → α → Prop}

theorem delivers_pure (hT : T.Leads T) {a : α} (h : Q T a) : Delivers T (fun _ => pure a) Q :=
  ⟨a, T, hT, h, 0, fun _ _ _ _ => rfl⟩

theorem Delivers.imp (h : Delivers T x Q) (himp : ∀ a T1, T.Leads T1 → Q T1 a → R T1 a) :
    Delivers T x R := by
  obtain ⟨a, T1, h1, ha, hk⟩ := h
  exact ⟨a, T1, h1, himp a T1 h1 ha, hk⟩

theorem Delivers.bind {f : Nat → α → Typing β} {R : Table → β → Prop} (hx : Delivers T x Q)
    (hf : ∀ a T1, T.Leads T1 → Q T1 a → Delivers T1 (fun d => f d a) R) :
    Delivers T (fun d => x d >>= f d) R := by
  obtain ⟨a, T1, h1, ha, k, hk⟩ := hx
  obtain ⟨b, T2, h2, hb, k', hk'⟩ := hf a T1 h1 ha
  refine ⟨b, T2, h1.trans h2, hb, max k k', fun d n hd hn => ?_⟩
  dsimp only
  rw [bind_of_some (hk d n (by omega) (by omega))]
  exact hk' d n (by omega) (by omega)

/-- Work one level down. -/
theorem Delivers.deeper (h : Delivers T x Q) (heq : ∀ d, y (d + 1) = x d) : Delivers T y Q := by
  obtain ⟨a, T1, h1, ha, k, hk⟩ := h
  refine ⟨a, T1, h1, ha, k + 1, fun d n hd hn => ?_⟩
  obtain ⟨d, rfl⟩ : ∃ e, d = e + 1 := ⟨d - 1, by omega⟩
  rw [heq d]
  exact hk d n (by omega) (by omega)

/-- The number of steps is taken for the depth. -/
theorem delivers_bounded (h : Delivers T x Q) : Delivers T (fun _ => bounded x) Q := by
  obtain ⟨a, T1, h1, ha, k, hk⟩ := h
  exact ⟨a, T1, h1, ha, k, fun _ n _ hn => hk n n hn hn⟩

theorem delivers_get_bind {f : Nat → Table → Typing β} {R : Table → β → Prop}
    (h : Delivers T (fun d => f d T) R) : Delivers T (fun d => get >>= f d) R := h

/-- Types can be made in a table that can be used. -/
theorem delivers_settlesAt {work : Interning α} (hT : T.Leads T) (h : Interning.Settles T work Q)
    {k : Nat} (hx : ∀ d n, k ≤ d → k ≤ n → x d n T = some (work T)) : Delivers T x Q := by
  obtain ⟨a, T1, hat, ha⟩ := h
  refine ⟨a, T1, hT.of_settles hat, ha, k, fun d n hd hn => ?_⟩
  rw [hx d n hd hn, hat.result]

theorem delivers_settles {work : Interning α} (hT : T.Leads T) (h : Interning.Settles T work Q) :
    Delivers T (fun _ => liftM work) Q :=
  delivers_settlesAt (k := 0) hT h fun _ _ _ _ => rfl

end Rules

end Typing

namespace Ty

open Typing

variable {T : Table} {a s t : Ty} {name : String}

/-- First-order types are compared in the end, and the answer is right. -/
theorem delivers_isAssignableTo (hT : T.Leads T) (hs : T.FirstOrder s) (ht : T.FirstOrder t) :
    Delivers T (fun _ => s.isAssignableTo t)
      fun T1 b => b = true ↔ T1.Fits (T1.shape s) (T1.shape t) := by
  rcases isAssignableTo_cases T s t with ⟨c, -, hknown⟩ | hanew
  · exact ⟨c, T, hT, hT.faithful.answered hs ht (hknown 0), 0, fun _ n _ _ => hknown n⟩
  · obtain ⟨b, T', -, h', -, k, hk⟩ := Assign.decides_decideAt hT.wellFormed hs ht [] (by simp)
    have hrun : ∀ n, k ≤ n → s.isAssignableTo t n T = some (b, T'.keeping s t b) := by
      intro n hn
      have hdecide : Assign.decideAt n [] s t n T = some (b, T') := hk n n hn hn
      rw [hanew, hdecide, Option.bind_some, ← h'.le.frozen]
      rfl
    obtain ⟨hfaithful, hagrees⟩ := hT.faithful.asked hs.has ht.has (hrun k (le_refl k))
    have hle : T ≤ T'.keeping s t b := h'.le.trans (le_keeping s t b T')
    refine ⟨b, T'.keeping s t b, ⟨hle, hfaithful, ?_⟩, ?_, k, fun _ n _ hn => hrun n hn⟩
    · refine (h'.orderly hT.orderly).of_entries ?_
      unfold Table.keeping
      split <;> rfl
    · exact (hT.faithful.answered hs ht (hrun k (le_refl k))).trans
        (hagrees.fits_types_iff hs ht).symm

theorem delivers_resolve (hT : T.Leads T) (ht : T.FirstOrder t) :
    Delivers T (fun _ => t.resolve) fun _ r => r = t :=
  ⟨t, T, hT, rfl, 0, fun _ n _ _ => Ty.resolve_firstOrder ht n⟩

/-- What is left of some types when those that fit another one are taken away. -/
theorem delivers_select (hT : T.Leads T) (ht : T.FirstOrder t) (xs : List Ty)
    (hxs : ∀ x ∈ xs, T.FirstOrder x) :
    Delivers T (fun _ => select (fun m => return !(← m.isAssignableTo t)) xs) fun T1 parts =>
      ∀ x, x ∈ parts ↔ x ∈ xs ∧ ¬T1.Fits (T1.shape x) (T1.shape t) := by
  induction xs generalizing T with
  | nil => exact delivers_pure hT (by simp)
  | cons m xs ih =>
    have hm := hxs m (by simp)
    have htest : Delivers T (fun _ => (do return !(← m.isAssignableTo t) : Typing Bool)) fun T1 b =>
        b = false ↔ T1.Fits (T1.shape m) (T1.shape t) := by
      refine (delivers_isAssignableTo hT hm ht).bind fun b T1 h1 hb => ?_
      refine delivers_pure h1.self ?_
      simpa using hb
    refine htest.bind fun b T1 h1 hb => ?_
    have hagrees := Table.Agrees.of_le h1.le
    have hrest := ih h1.self (ht.of_agrees hagrees) fun x hx =>
      (hxs x (List.mem_cons_of_mem m hx)).of_agrees hagrees
    have hkept : ∀ T2, T1.Leads T2 →
        (T2.Fits (T2.shape m) (T2.shape t) ↔ T1.Fits (T1.shape m) (T1.shape t)) := fun T2 h2 =>
      (Table.Agrees.of_le h2.le).fits_types_iff (hm.of_agrees hagrees) (ht.of_agrees hagrees)
    cases b with
    | true =>
      refine Delivers.bind hrest fun parts T2 h2 hparts => delivers_pure h2.self fun x => ?_
      have hnot : ¬T2.Fits (T2.shape m) (T2.shape t) := by
        rw [hkept T2 h2, ← hb]
        simp
      rw [List.mem_cons, List.mem_cons, hparts x, or_and_right]
      exact or_congr_left ⟨fun h => ⟨h, h ▸ hnot⟩, And.left⟩
    | false =>
      refine hrest.imp fun parts T2 h2 hparts x => ?_
      have hfits := (hkept T2 h2).mpr (hb.mp rfl)
      rw [hparts x, List.mem_cons, or_and_right]
      refine ⟨.inr, fun h => h.resolve_left ?_⟩
      rintro ⟨rfl, hnot⟩
      exact hnot hfits

/-! ### Properties and call signatures of first-order types -/

/-- The property that was found has the type that the shape supplies, or the shape has none. -/
def FindsField (T : Table) (s : Shape) (name : String) (o : Option Field) : Prop :=
  (∃ g, o = some g ∧ T.FirstOrder g.type ∧ T.Supplied s name g.type) ∨ o = none ∧ s.Lacks name

/-- The property that was found has the union of the types that the members supply, or one of them
has none. -/
def FindsProperty (T : Table) (a : Ty) (name : String) (o : Option Field) : Prop :=
  (∃ g ts, o = some g ∧ T.Draws a name ts ∧ T.Unites ts g.type) ∨
    o = none ∧ ∃ m ∈ T.members a, (T.shape m).Lacks name

theorem findsField_of_findsLength {shape : Shape} {o : Option Field}
    (h : Assign.FindsLength shape name T o)
    (hobject : ∀ m, shape ≠ .object m) : FindsField T shape name o := by
  rcases h with ⟨rfl, hnone⟩ | ⟨g, l, rfl, -, hname, hl, hg, halike⟩
  · exact .inr ⟨rfl, fun m hm => absurd hm (hobject m), hnone⟩
  · exact .inl ⟨g, rfl, hg, .inr ⟨l, hl, hname, halike⟩⟩

/-- What a type without members supplies is found on it. -/
theorem delivers_propertyAt_single (hT : T.Leads T) (hs : T.FirstOrder s)
    (hunion : ¬(T.shape s).IsUnion)
    (hname : Decimal.isNumeric name = false) :
    Delivers T (fun d => propertyAt name d s) fun T1 o => FindsField T1 (T.shape s) name o := by
  have hsettles : Interning.Settles T (plainProperty (T.shape s) name)
      fun T1 o => FindsField T1 (T.shape s) name o := by
    by_cases hobject : ∃ m, T.shape s = .object m
    · obtain ⟨m, hm⟩ := hobject
      have hparts := fun p => hs.part (p := p)
      rw [hm] at hparts ⊢
      refine Interning.settles_pure hT.wellFormed ?_
      have hindex : m.index = none := by
        cases hs with
        | primitive => simp [Table.shape] at hm
        | literal h | array h | tuple h | union h => simp [h] at hm
        | object h _ _ hindex =>
          rw [h] at hm
          cases hm
          exact hindex
      cases hf : m.field? name with
      | none =>
        refine .inr ⟨by simp [memberProperty?, hf, hindex], ?_, fun _ => rfl⟩
        rintro k ⟨⟩
        exact hf
      | some g =>
        refine .inl ⟨g, by simp [memberProperty?, hf], ?_, .inl ⟨m, g, rfl, hf, rfl⟩⟩
        exact hparts _ (mem_parts_of_field (Members.mem_of_field? hf).1)
    · rw [not_exists] at hobject
      exact (Assign.settles_property hT.wellFormed hs hunion hobject hname).imp
        fun o T1 _ _ ho => findsField_of_findsLength ho hobject
  refine delivers_settlesAt (k := 1) hT hsettles fun d n hd _ => ?_
  obtain ⟨d, rfl⟩ : ∃ e, d = e + 1 := ⟨d - 1, by omega⟩
  exact propertyAt_of_isPlain (Assign.isPlain_of_firstOrder hs hunion) name d n

/-- The members are asked in turn. -/
theorem delivers_propertyOfAll (hT : T.Leads T)
    (hname : Decimal.isNumeric name = false) (ms : List Ty)
    (hms : ∀ m ∈ ms, T.FirstOrder m ∧ ¬(T.shape m).IsUnion) :
    Delivers T (fun d => propertyOfAll (propertyAt name d) ms) fun T1 o =>
      (∃ fields, o = some fields ∧ List.Forall₂
        (fun m t => T1.FirstOrder t ∧ T1.Supplied (T1.shape m) name t) ms (fields.map Field.type)) ∨
      o = none ∧ ∃ m ∈ ms, (T1.shape m).Lacks name := by
  induction ms generalizing T with
  | nil => exact delivers_pure hT (.inl ⟨[], rfl, .nil⟩)
  | cons m ms ih =>
    obtain ⟨hm, hunion⟩ := hms m (by simp)
    refine (delivers_propertyAt_single hT hm hunion hname).bind fun o T1 h1 ho => ?_
    have hshape := fun {T2 : Table} (h2 : T1.Leads T2) =>
      shape_of_le (h1.le.trans h2.le) hm.has
    rcases ho with ⟨g, rfl, hg, hsupplied⟩ | ⟨rfl, hlacks⟩
    · have hrest := ih h1.self fun k hk => by
        obtain ⟨hk, hunion⟩ := hms k (List.mem_cons_of_mem m hk)
        rw [shape_of_le h1.le hk.has]
        exact ⟨hk.of_agrees (.of_le h1.le), hunion⟩
      refine Delivers.bind hrest fun o T2 h2 ho => delivers_pure h2.self ?_
      rcases ho with ⟨fields, rfl, hfields⟩ | ⟨rfl, k, hk, hlacks⟩
      · refine .inl ⟨g :: fields, rfl, .cons ⟨hg.of_agrees (.of_le h2.le), ?_⟩ hfields⟩
        rw [hshape h2]
        exact hsupplied.of_le hg.has h2.le
      · exact .inr ⟨rfl, k, List.mem_cons_of_mem m hk, hlacks⟩
    · refine delivers_pure h1.self (.inr ⟨rfl, m, by simp, ?_⟩)
      rwa [hshape h1.self]

/-- **What a property access finds on a first-order type.** -/
theorem delivers_property (hT : T.Leads T) (ha : T.FirstOrder a)
    (hname : Decimal.isNumeric name = false) :
    Delivers T (fun _ => a.property? name) fun T1 o => FindsProperty T1 a name o := by
  refine delivers_bounded ?_
  by_cases hunion : (T.shape a).IsUnion
  · obtain ⟨ms, hms⟩ := hunion
    have hmember : ∀ m ∈ ms, T.FirstOrder m ∧ ¬(T.shape m).IsUnion := fun m hm =>
      ⟨ha.member (by simpa [Table.members, hms] using hm), hT.wellFormed.not_isUnion hms hm⟩
    have hmembers := fun {T1 : Table} (h1 : T.Leads T1) =>
      (members_of_le h1.le ha.has).trans (members_of_union hms)
    refine Delivers.deeper (x := fun d => propertyAt name (d + 1) a) ?_ fun d => rfl
    refine Delivers.bind (delivers_resolve hT ha) fun r T1 h1 hr => ?_
    subst hr
    refine delivers_get_bind ?_
    have hshape : T1.shape r = .union ms := (shape_of_le h1.le ha.has).trans hms
    simp only [hshape]
    have hall := delivers_propertyOfAll h1.self hname ms fun m hm => by
      obtain ⟨hm, hunion⟩ := hmember m hm
      rw [shape_of_le h1.le hm.has]
      exact ⟨hm.of_agrees (.of_le h1.le), hunion⟩
    refine Delivers.bind hall fun o T2 h2 ho => ?_
    have hsame := hmembers (h1.trans h2)
    rcases ho with ⟨fields, rfl, hfields⟩ | ⟨rfl, m, hm, hlacks⟩
    · have hfirst : ∀ t ∈ fields.map Field.type, T2.FirstOrder t := by
        intro t ht
        obtain ⟨m, -, ht, -⟩ := exists_of_forall₂ hfields.flip ht
        exact ht
      refine Delivers.bind (delivers_settles h2.self ?_ : Delivers T2 _ fun T3 g =>
        T3.Unites (fields.map Field.type) g.type) fun g T3 h3 hg => delivers_pure h3.self ?_
      · exact (Interning.settles_unites h2.wellFormed hfirst).bind fun w T3 hT3 _ hw =>
          Interning.settles_pure hT3 hw
      · refine .inl ⟨g, _, rfl, ?_, hg⟩
        have hdraws : T2.Draws r name (fields.map Field.type) := by
          rw [Table.Draws, hsame]
          exact hfields
        exact hdraws.of_le (ha.of_agrees (.of_le (h1.trans h2).le)) h3.le
    · exact delivers_pure h2.self (.inr ⟨rfl, m, hsame ▸ hm, hlacks⟩)
  · have hmembers := Assign.members_of_not_isUnion hunion
    refine (delivers_propertyAt_single hT ha hunion hname).imp fun o T1 h1 ho => ?_
    have hshape := shape_of_le h1.le ha.has
    have hsame := (members_of_le h1.le ha.has).trans hmembers
    rcases ho with ⟨g, rfl, hg, hsupplied⟩ | ⟨rfl, hlacks⟩
    · refine .inl ⟨g, [g.type], rfl, ?_, .self h1.wellFormed hg⟩
      rw [Table.Draws, hsame]
      refine .cons ⟨hg, ?_⟩ .nil
      rwa [hshape]
    · refine .inr ⟨rfl, a, by simp [hsame], ?_⟩
      rwa [hshape]

/-- A first-order type cannot be called. -/
theorem delivers_callSignatures (hT : T.Leads T) (ha : T.FirstOrder a) :
    Delivers T (fun _ => a.callSignatures) fun _ cs => cs = [] := by
  refine delivers_bounded ?_
  refine Delivers.deeper (x := fun d => callSignaturesAt (d + 1) a) ?_ fun d => rfl
  refine Delivers.bind (delivers_resolve hT ha) fun r T1 h1 hr => ?_
  subst hr
  refine delivers_get_bind ?_
  have hr := ha.of_agrees (.of_le h1.le)
  cases hr with
  | primitive => exact delivers_pure h1.self rfl
  | literal h | array h | tuple h | union h =>
    simp only [h]
    exact delivers_pure h1.self rfl
  | object h _ _ _ hcalls =>
    simp only [h]
    exact delivers_pure h1.self hcalls

end Ty

namespace Inference

open Typing

namespace Evidence

/-- What a comparison adds to the evidence: more types that were found, more pairs that were
compared, and for each new pair whatever it leads to. -/
structure Extends (T : Table) (vars : List TypeVar) (e e' : Evidence) : Prop where
  found : ∀ b ∈ e.found, b ∈ e'.found
  visited : ∀ q ∈ e.visited, q ∈ e'.visited
  first : ∀ b ∈ e'.found, b ∈ e.found ∨ T.FirstOrder b.2
  pursues : ∀ q ∈ e'.visited, q ∈ e.visited ∨
    T.Template vars q.1 ∧ T.FirstOrder q.2 ∧ e'.Pursues T vars q.1 q.2

section Extensions

variable {T T1 T2 : Table} {vars : List TypeVar} {e e' e'' : Evidence} {a : Ty}

theorem Extends.refl (T : Table) (vars : List TypeVar) (e : Evidence) : e.Extends T vars e :=
  ⟨fun _ h => h, fun _ h => h, fun _ => .inl, fun _ => .inl⟩

theorem Compared.of_le (h : e.Compared T vars p a) (hT : T.WellFormed) (hp : T.Has p) (hle : T ≤ T1)
    (hvisited : ∀ q ∈ e.visited, q ∈ e'.visited) : e'.Compared T1 vars p a := by
  intro hmentions
  rw [mentions_of_le hle hT hp] at hmentions
  exact hvisited _ (h hmentions)

theorem PursuesField.of_le (h : e.PursuesField T vars a f) (hT : T.WellFormed)
    (ha : T.FirstOrder a) (hf : T.Has f.type) (hle : T ≤ T1)
    (hvisited : ∀ q ∈ e.visited, q ∈ e'.visited) : e'.PursuesField T1 vars a f := by
  rcases h with ⟨ts, w, hdraws, hw, hcompared⟩ | ⟨m, hm, hlacks⟩
  · exact .inl ⟨ts, w, hdraws.of_le ha hle, hw.of_le hT hle, hcompared.of_le hT hf hle hvisited⟩
  · refine .inr ⟨m, (members_of_le hle ha.has).symm ▸ hm, ?_⟩
    rwa [shape_of_le hle (ha.member hm).has]

theorem filter_mentions_of_le (hT : T.WellFormed) (hms : ∀ m ∈ ms, T.Has m)
    (hle : T ≤ T1) : ms.filter (Ty.mentions T1 vars) = ms.filter (Ty.mentions T vars) :=
  List.filter_congr fun m hm => mentions_of_le hle hT (hms m hm)

theorem filter_not_mentions_of_le (hT : T.WellFormed) (hms : ∀ m ∈ ms, T.Has m)
    (hle : T ≤ T1) : ms.filter (!Ty.mentions T1 vars ·) = ms.filter (!Ty.mentions T vars ·) :=
  List.filter_congr fun m hm => by rw [mentions_of_le hle hT (hms m hm)]

theorem PursuesOnly.of_le (h : e.PursuesOnly T vars ms g a)
    (hT : T.WellFormed) (ha : T.FirstOrder a) (hms : ∀ m ∈ ms, T.Has m) (hg : g ∈ ms) (hle : T ≤ T1)
    (hvisited : ∀ q ∈ e.visited, q ∈ e'.visited) : e'.PursuesOnly T1 vars ms g a := by
  obtain ⟨others, parts, rest, hothers, hrest, hparts, hcompared⟩ := h
  have hfixed : ms.filter (!Ty.mentions T1 vars ·) = ms.filter (!Ty.mentions T vars ·) :=
    filter_not_mentions_of_le hT hms hle
  refine ⟨others, parts, rest, hfixed ▸ hothers.of_le hT hle, hrest.of_le hT hle, fun x => ?_,
    hcompared.imp_right fun h => h.of_le hT (hms g hg) hle hvisited⟩
  rw [hparts x, Ty.splitMembers_of_le hle ha.has]
  refine and_congr_right fun hx => not_congr ?_
  exact ((Table.Agrees.of_le hle).fits_types_iff (ha.of_splitMember hx) hothers.firstOrder).symm

theorem PursuesUnion.of_le (h : e.PursuesUnion T vars ms a) (hT : T.WellFormed)
    (ha : T.FirstOrder a) (hms : ∀ m ∈ ms, T.Has m) (hle : T ≤ T1)
    (hvisited : ∀ q ∈ e.visited, q ∈ e'.visited) : e'.PursuesUnion T1 vars ms a := by
  unfold PursuesUnion at h ⊢
  rw [filter_mentions_of_le hT hms hle]
  split at h
  next g hg =>
    have hin : g ∈ ms := List.mem_of_mem_filter (hg ▸ List.mem_singleton_self g)
    exact h.of_le hT ha hms hin hle hvisited
  · exact fun g hg => (h g hg).of_le hT (hms g hg) hle hvisited

theorem Pursues.of_le (h : e.Pursues T vars p a) (hT : T.WellFormed) (hp : T.Template vars p)
    (ha : T.FirstOrder a) (hle : T ≤ T1) (hfound : ∀ b ∈ e.found, b ∈ e'.found)
    (hvisited : ∀ q ∈ e.visited, q ∈ e'.visited) : e'.Pursues T1 vars p a := by
  have hshape := shape_of_le hle hp.has
  have hshape' := shape_of_le hle ha.has
  have hup : ∀ {t b : Ty}, t ∈ (T.shape p).parts → e.Compared T vars t b →
      e'.Compared T1 vars t b := fun ht h => h.of_le hT (hp.part ht).has hle hvisited
  have hhas : ∀ t ∈ (T.shape p).parts, T.Has t := fun t ht => (hp.part ht).has
  unfold Pursues at h ⊢
  rw [hshape]
  cases hp with
  | primitive => trivial
  | literal hs => simp only [hs]
  | parameter hs =>
    simp only [hs] at h ⊢
    exact hfound _ h
  | array hs =>
    simp only [hs, hshape'] at h hup ⊢
    intro es hes
    obtain ⟨w, hw, hcompared⟩ := h es hes
    exact ⟨w, hw.of_le hT hle, hup (by simp [Shape.parts]) hcompared⟩
  | tuple hs =>
    simp only [hs, hshape'] at h hup ⊢
    intro v hv q hq
    exact hup (mem_tuplePairs hq).1 (h v hv q hq)
  | object hs =>
    simp only [hs] at h hhas ⊢
    exact fun f hf => (h f hf).of_le hT ha (hhas _ (mem_parts_of_field hf)) hle hvisited
  | union hs =>
    simp only [hs] at h hhas ⊢
    exact h.of_le hT ha hhas hle hvisited

theorem Extends.trans (h : e.Extends T1 vars e') (hT1 : T1.WellFormed) (hle : T1 ≤ T2)
    (h' : e'.Extends T2 vars e'') : e.Extends T2 vars e'' where
  found b hb := h'.found b (h.found b hb)
  visited q hq := h'.visited q (h.visited q hq)
  first b hb := by
    rcases h'.first b hb with hb | hb
    · exact (h.first b hb).imp_right fun hb => hb.of_agrees (.of_le hle)
    · exact .inr hb
  pursues q hq := by
    rcases h'.pursues q hq with hq | hq
    · refine (h.pursues q hq).imp_right fun ⟨hp, ha, hpursues⟩ => ?_
      exact ⟨hp.of_le hle, ha.of_agrees (.of_le hle),
        hpursues.of_le hT1 hp ha hle h'.found h'.visited⟩
    · exact .inr hq

/-- Evidence that is built from nothing is closed. -/
theorem Extends.closed (h : ({} : Evidence).Extends T vars e) : e.Closed T vars := fun q hq => by
  rcases h.pursues q hq with hq | ⟨-, -, hpursues⟩
  · exact absurd hq (by simp)
  · exact hpursues

theorem Extends.firstOrder (h : ({} : Evidence).Extends T vars e) :
    ∀ b ∈ e.found, T.FirstOrder b.2 := fun b hb => by
  rcases h.first b hb with hb | hb
  · exact absurd hb (by simp)
  · exact hb

theorem looksInside_of_le (h : T.LooksInside vars p) (hT : T.WellFormed) (hp : T.Template vars p)
    (hle : T ≤ T1) : T1.LooksInside vars p := by
  have hparts := fun t => hp.part (t := t)
  unfold Table.LooksInside at h ⊢
  rw [shape_of_le hle hp.has]
  cases hs : T.shape p with
  | union ms =>
    rw [hs] at hparts
    replace hparts : ∀ m ∈ ms, T.Template vars m := hparts
    simp only [hs] at h ⊢
    rw [filter_mentions_of_le hT (fun m hm => (hparts m hm).has) hle]
    refine h.imp_right fun ⟨m, hm, v, hv, hshape⟩ => ⟨m, hm, v, hv, ?_⟩
    rwa [shape_of_le hle (hparts m hm).has]
  | _ =>
    rw [hs] at h
    exact h

theorem Plain.of_le (h : e.Plain T vars) (hT : T.WellFormed) (he : ({} : Evidence).Extends T vars e)
    (hle : T ≤ T1) : e.Plain T1 vars := by
  intro q hq hunion
  rcases he.pursues q hq with hq | ⟨hp, ha, -⟩
  · exact absurd hq (by simp)
  · rw [shape_of_le hle ha.has] at hunion
    exact looksInside_of_le (h q hq hunion) hT hp hle

end Extensions

end Evidence

section Recording

variable (vars : List TypeVar)

/-- The work ends from some depth on, adds to the evidence, and leaves what it should. -/
def Records (T : Table) (e : Evidence) (x : Nat → Unify Unit)
    (Q : Table → Evidence → Prop) : Prop :=
  Delivers T (fun d => (x d).run e) fun T1 r => e.Extends T1 vars r.2 ∧ Q T1 r.2

/-- The comparison of the template with any first-order argument has its place in the evidence. -/
def Compares (c : Nat → Ty → Ty → Unify Unit) (T : Table) (p : Ty) : Prop :=
  ∀ T1 a e, T.Leads T1 → T1.FirstOrder a →
    Records vars T1 e (fun d => c d p a) fun T2 e' => e'.Compared T2 vars p a

variable {vars} {α : Type} {T T1 : Table} {e : Evidence} {Q R : Table → Evidence → Prop}

theorem records_pure (hT : T.Leads T) (h : Q T e) : Records vars T e (fun _ => pure ()) Q :=
  delivers_pure hT ⟨.refl T vars e, h⟩

theorem Records.imp (h : Records vars T e x Q)
    (himp : ∀ T1 e', T.Leads T1 → Q T1 e' → R T1 e') : Records vars T e x R :=
  Delivers.imp h fun r T1 h1 hr => ⟨hr.1, himp T1 r.2 h1 hr.2⟩

theorem records_after {x : Nat → Typing α} {f : Nat → α → Unify Unit} {V : Table → α → Prop}
    (hx : Delivers T x V)
    (hf : ∀ a T1, T.Leads T1 → V T1 a → Records vars T1 e (fun d => f d a) Q) :
    Records vars T e (fun d => liftM (x d) >>= f d) Q := by
  have hlift : Delivers T (fun d => (liftM (x d) : Unify α).run e) fun T1 r =>
    V T1 r.1 ∧ r.2 = e := by
    change Delivers T (fun d => x d >>= fun a => pure (a, e)) _
    exact hx.bind fun a T1 h1 ha => delivers_pure h1.self ⟨ha, rfl⟩
  unfold Records
  simp only [StateT.run_bind]
  refine Delivers.bind hlift fun r T1 h1 hr => ?_
  obtain ⟨a, e'⟩ := r
  obtain ⟨ha, rfl⟩ := hr
  exact hf a T1 h1 ha

theorem records_table {f : Nat → Table → Unify Unit} (h : Records vars T e (fun d => f d T) Q) :
    Records vars T e (fun d => table >>= f d) Q := h

/-- One piece of work after the other. -/
theorem Records.next {y : Nat → Unify Unit} (hx : Records vars T e x Q)
    (hy : ∀ T1 e', T.Leads T1 → Q T1 e' → Records vars T1 e' y fun T2 e'' =>
      e'.Extends T2 vars e'' → R T2 e'') : Records vars T e (fun d => do x d; y d) R := by
  unfold Records
  simp only [StateT.run_bind]
  refine Delivers.bind hx fun r T1 h1 hr => ?_
  obtain ⟨⟨⟩, e'⟩ := r
  refine Delivers.imp (hy T1 e' h1 hr.2) fun r T2 h2 h => ?_
  exact ⟨hr.1.trans h1.wellFormed h2.le h.1, h.2 h.1⟩

/-- The same work on each of a list. -/
theorem records_forM {ι : Type} {f : Nat → ι → Unify Unit} {R : ι → Table → Evidence → Prop}
    (hT : T.Leads T) (xs : List ι)
    (hup : ∀ i ∈ xs, ∀ T1 T2 e e', T.Leads T1 → T1.Leads T2 → e.Extends T2 vars e' → R i T1 e →
      R i T2 e')
    (hf : ∀ i ∈ xs, ∀ T1 e, T.Leads T1 → Records vars T1 e (fun d => f d i) (R i)) :
    Records vars T e (fun d => xs.forM (f d)) fun T1 e' => ∀ i ∈ xs, R i T1 e' := by
  induction xs generalizing T e with
  | nil => exact records_pure hT (by simp)
  | cons i xs ih =>
    refine Records.next (hf i (by simp) T e hT) fun T1 e' h1 hi => ?_
    have hrest := ih (e := e') h1.self
      (fun k hk T2 T3 e e' h2 => hup k (List.mem_cons_of_mem i hk) T2 T3 e e' (h1.trans h2))
      fun k hk T2 e h2 => hf k (List.mem_cons_of_mem i hk) T2 e (h1.trans h2)
    refine hrest.imp fun T2 e'' h2 h hextends k hk => ?_
    rcases List.mem_cons.mp hk with rfl | hk
    · exact hup _ hk T1 T2 e' e'' h1 h2 hextends hi
    · exact h k hk

variable {c : Nat → Ty → Ty → Unify Unit} {a : Ty}

theorem Compares.later (h : Compares vars c T p) (h1 : T.Leads T1) : Compares vars c T1 p :=
  fun T2 a e h2 ha => h T2 a e (h1.trans h2) ha

variable (hT : T.Leads T)
include hT

theorem records_pairwise (pairs : List (Ty × Ty))
    (hpairs : ∀ q ∈ pairs, T.Has q.1 ∧ T.FirstOrder q.2 ∧ Compares vars c T q.1) :
    Records vars T e (fun d => pairwise (c d) pairs) fun T1 e' =>
      ∀ q ∈ pairs, e'.Compared T1 vars q.1 q.2 := by
  refine records_forM hT pairs (fun q hq T1 T2 e e' h1 h2 hextends h => ?_) fun q hq T1 e h1 => ?_
  · exact h.of_le h1.wellFormed (has_of_le h1.le (hpairs q hq).1) h2.le hextends.visited
  · obtain ⟨-, hfirst, hcompares⟩ := hpairs q hq
    exact hcompares T1 q.2 e h1 (hfirst.of_agrees (.of_le h1.le))

theorem records_array {element : Ty} (ha : T.FirstOrder a)
    (hc : Compares vars c T element) :
    Records vars T e (fun d => array (c d) element a) fun T1 e' =>
      ∀ es, (T1.shape a).elements? = some es → ∃ w, T1.Unites es w ∧
      e'.Compared T1 vars element w := by
  refine records_after (Ty.delivers_resolve hT ha) fun r T1 h1 hr => records_table ?_
  subst hr
  have hr := ha.of_agrees (.of_le h1.le)
  have hshape := fun {T2 : Table} (h2 : T1.Leads T2) => shape_of_le h2.le hr.has
  have hnone : (T1.shape r).elements? = none → Records vars T1 e (fun _ => pure ()) fun T1 e' =>
      ∀ es, (T1.shape r).elements? = some es →
        ∃ w, T1.Unites es w ∧ e'.Compared T1 vars element w := fun hnone =>
    records_pure h1.self fun es hes => by simp [hnone] at hes
  cases hs : T1.shape r with
  | array own readonly =>
    have hown : T1.FirstOrder own := hr.part (by simp [hs, Shape.parts])
    refine (hc T1 own e h1 hown).imp fun T2 e' h2 hcompared es hes => ?_
    obtain rfl : [own] = es := by simpa [hshape h2, hs, Shape.elements?] using hes
    exact ⟨own, .self h2.wellFormed (hown.of_agrees (.of_le h2.le)), hcompared⟩
  | tuple u =>
    have helements : ∀ t ∈ u.elements, T1.FirstOrder t :=
      fun t ht => hr.part (by simpa [hs, Shape.parts])
    have hunion := delivers_settles h1.self (Interning.settles_unites h1.wellFormed helements)
    refine records_after hunion fun w T2 h2 hw => ?_
    refine (hc T2 w e (h1.trans h2) hw.firstOrder).imp fun T3 e' h3 hcompared es hes => ?_
    obtain rfl : u.elements = es := by
      simpa [hshape (h2.trans h3), hs, Shape.elements?] using hes
    exact ⟨w, hw.of_le h2.wellFormed h3.le, hcompared⟩
  | _ => exact hnone (by rw [hs]; rfl)

theorem records_tuple {u : Tuple} (ha : T.FirstOrder a)
    (hhas : ∀ t ∈ u.elements, T.Has t) (hc : ∀ t ∈ u.elements, Compares vars c T t) :
    Records vars T e (fun d => tuple (c d) u a) fun T1 e' =>
      ∀ v, T1.shape a = .tuple v → ∀ q ∈ tuplePairs u v, e'.Compared T1 vars q.1 q.2 := by
  refine records_after (Ty.delivers_resolve hT ha) fun r T1 h1 hr => records_table ?_
  subst hr
  have hr := ha.of_agrees (.of_le h1.le)
  have hshape := fun {T2 : Table} (h2 : T1.Leads T2) => shape_of_le h2.le hr.has
  cases hs : T1.shape r with
  | tuple v =>
    refine (records_pairwise h1.self (tuplePairs u v) fun q hq => ?_).imp
      fun T2 e' h2 hcompared w hw => ?_
    · obtain ⟨hfirst, hsecond⟩ := mem_tuplePairs hq
      refine ⟨has_of_le h1.le (hhas _ hfirst), hr.part ?_, (hc _ hfirst).later h1⟩
      simpa [hs, Shape.parts] using hsecond
    · rw [hshape h2, hs] at hw
      cases hw
      exact hcompared
  | array element readonly =>
    have helement : T1.FirstOrder element := hr.part (by simp [hs, Shape.parts])
    refine (records_pairwise h1.self _ fun q hq => ?_).imp fun T2 e' h2 _ w hw => ?_
    · obtain ⟨t, ht, rfl⟩ := List.mem_map.mp hq
      exact ⟨has_of_le h1.le (hhas t ht), helement, (hc t ht).later h1⟩
    · simp [hshape h2, hs] at hw
  | _ =>
    refine records_pure h1.self fun v hv => ?_
    simp [hs] at hv

theorem records_field (ha : T.FirstOrder a)
    (hname : Decimal.isNumeric f.name = false) (hc : Compares vars c T f.type) :
    Records vars T e (fun d => do
      match ← a.property? f.name with
      | some g => c d f.type g.type
      | none => return ()) fun T1 e' => e'.PursuesField T1 vars a f := by
  refine records_after (Ty.delivers_property hT ha hname) fun o T1 h1 ho => ?_
  rcases ho with ⟨g, ts, rfl, hdraws, hunites⟩ | ⟨rfl, k, hk, hlacks⟩
  · refine (hc T1 g.type e h1 hunites.firstOrder).imp fun T2 e' h2 hcompared => ?_
    exact .inl ⟨ts, g.type, hdraws.of_le (ha.of_agrees (.of_le h1.le)) h2.le,
      hunites.of_le h1.wellFormed h2.le, hcompared⟩
  · exact records_pure h1.self (.inr ⟨k, hk, hlacks⟩)

theorem records_object {m : Members} (ha : T.FirstOrder a)
    (hindex : m.index = none) (hcalls : m.calls = [])
    (hnames : ∀ f ∈ m.fields, Decimal.isNumeric f.name = false)
    (hhas : ∀ f ∈ m.fields, T.Has f.type) (hc : ∀ f ∈ m.fields, Compares vars c T f.type) :
    Records vars T e (fun d => object (c d) m a) fun T1 e' =>
      ∀ f ∈ m.fields, e'.PursuesField T1 vars a f := by
  refine records_after (Ty.delivers_resolve hT ha) fun r T1 h1 hr => ?_
  subst hr
  have hr := ha.of_agrees (.of_le h1.le)
  refine Records.next (Q := fun T2 e' => ∀ f ∈ m.fields, e'.PursuesField T2 vars r f)
    (records_forM h1.self m.fields (fun f hf T2 T3 e e' h2 h3 hextends h => ?_)
    fun f hf T2 e h2 => ?_)
    fun T2 e' h2 hpursues => records_table ?_
  · exact h.of_le h2.wellFormed (hr.of_agrees (.of_le h2.le))
      (has_of_le (h1.trans h2).le (hhas f hf)) h3.le hextends.visited
  · exact records_field h2.self (hr.of_agrees (.of_le h2.le)) (hnames f hf)
      ((hc f hf).later (h1.trans h2))
  have hrest : ∀ T3 e3, T2.Leads T3 → Records vars T3 e3 (fun d => do
      let signatures ← liftM r.callSignatures
      pairwise (c d) (m.calls.zip signatures)) fun _ _ => True := by
    intro T3 e3 h3
    refine records_after (Ty.delivers_callSignatures h3.self
      (hr.of_agrees (.of_le (h2.trans h3).le)))
      fun cs T4 h4 _ => ?_
    exact (records_pairwise h4.self (m.calls.zip cs) (by simp [hcalls])).imp fun _ _ _ _ => trivial
  refine Records.imp (Q := fun _ _ => True) ?_ fun T3 e'' h3 _ hextends f hf =>
    (hpursues f hf).of_le h2.wellFormed (hr.of_agrees (.of_le h2.le))
      (has_of_le (h1.trans h2).le (hhas f hf)) h3.le hextends.visited
  cases hs : T2.shape r with
  | object k =>
    refine Records.next (records_pairwise h2.self (indexPairs m k)
      (by simp [indexPairs, hindex])) ?_
    exact fun T3 e3 h3 _ => (hrest T3 e3 h3).imp fun _ _ _ _ _ => trivial
  | _ => exact hrest T2 e' h2.self

/-- What the members without a parameter leave of the argument is compared with the one that has
some. -/
theorem records_only {fixed : List Ty} (ha : T.FirstOrder a)
    (hfixed : ∀ m ∈ fixed, T.FirstOrder m) (hc : Compares vars c T g) :
    Records vars T e (fun d => do
      let others ← Ty.unionOf fixed
      let a ← a.resolve
      let parts := Ty.splitMembers (← getThe Table) a
      let rest ← Ty.unionOf (← Ty.select (fun m => return !(← m.isAssignableTo others)) parts)
      if rest ≠ .never then c d g rest) fun T1 e' =>
      ∃ others parts rest, T1.Unites fixed others ∧ T1.Unites parts rest ∧
        (∀ x, x ∈ parts ↔ x ∈ Ty.splitMembers T1 a ∧ ¬T1.Fits (T1.shape x) (T1.shape others)) ∧
        (rest = .never ∨ e'.Compared T1 vars g rest) := by
  refine records_after (delivers_settles hT (Interning.settles_unites hT.wellFormed hfixed))
    fun others T1 h1 hothers => ?_
  have ha1 := ha.of_agrees (.of_le h1.le)
  refine records_after (Ty.delivers_resolve h1.self ha1) fun r T2 h2 hr => records_table ?_
  subst hr
  have ha2 := ha1.of_agrees (.of_le h2.le)
  have hsplit : ∀ x ∈ Ty.splitMembers T2 r, T2.FirstOrder x := fun x hx => ha2.of_splitMember hx
  have hothers2 := hothers.of_le h1.wellFormed h2.le
  refine records_after (Ty.delivers_select h2.self hothers2.firstOrder _ hsplit)
    fun parts T3 h3 hparts => ?_
  have hfirst : ∀ x ∈ parts, T3.FirstOrder x := fun x hx =>
    (hsplit x ((hparts x).mp hx).1).of_agrees (.of_le h3.le)
  refine records_after (delivers_settles h3.self (Interning.settles_unites h3.wellFormed hfirst))
    fun rest T4 h4 hrest => ?_
  have hothers3 := hothers2.of_le h2.wellFormed h3.le
  -- what is true of the parts stays true
  have hkept : ∀ T5, T4.Leads T5 → T5.Unites fixed others ∧ T5.Unites parts rest ∧
      ∀ x, x ∈ parts ↔ x ∈ Ty.splitMembers T5 r ∧ ¬T5.Fits (T5.shape x) (T5.shape others) := by
    intro T5 h5
    have hle := (h4.trans h5).le
    refine ⟨hothers3.of_le h3.wellFormed hle, hrest.of_le h4.wellFormed h5.le, fun x => ?_⟩
    rw [hparts x, Ty.splitMembers_of_le (h3.le.trans hle) ha2.has]
    refine and_congr_right fun hx => not_congr ?_
    exact ((Table.Agrees.of_le hle).fits_types_iff ((hsplit x hx).of_agrees (.of_le h3.le))
      hothers3.firstOrder).symm
  by_cases hnever : rest = .never
  · simp only [hnever, ne_eq, not_true_eq_false, if_false]
    obtain ⟨h, h', h''⟩ := hkept T4 h4.self
    exact records_pure h4.self ⟨others, parts, rest, h, h', h'', .inl hnever⟩
  · simp only [ne_eq, hnever, not_false_eq_true, if_true]
    refine (hc T4 rest e (h1.trans (h2.trans (h3.trans h4))) hrest.firstOrder).imp
      fun T5 e' h5 hcompared => ?_
    obtain ⟨h, h', h''⟩ := hkept T5 h5
    exact ⟨others, parts, rest, h, h', h'', .inr hcompared⟩

theorem records_union (ha : T.FirstOrder a)
    (hms : ∀ m ∈ ms, T.Template vars m) (hseveral : 2 ≤ ms.length)
    (hc : ∀ m ∈ ms, Compares vars c T m) :
    Records vars T e (fun d => union vars (c d) ms a)
    fun T1 e' => e'.PursuesUnion T1 vars ms a := by
  have hhas : ∀ m ∈ ms, T.Has m := fun m hm => (hms m hm).has
  have hfixed : ms.filter (not ∘ Ty.mentions T vars) = ms.filter (!Ty.mentions T vars ·) := rfl
  refine records_table ?_
  simp only [List.partition_eq_filter_filter, hfixed]
  split
  next g hgeneric hnone =>
    -- a union has several members
    have hall := List.filter_eq_nil_iff.mp hnone
    have hself : ms.filter (Ty.mentions T vars) = ms :=
      List.filter_eq_self.mpr fun m hm => by simpa using hall m hm
    rw [hself] at hgeneric
    rw [hgeneric] at hseveral
    exact absurd hseveral (by simp)
  next g hgeneric _ =>
    have hg : g ∈ ms := List.mem_of_mem_filter (hgeneric ▸ List.mem_singleton_self g)
    refine (records_only hT ha (fun m hm => ?_) (hc g hg)).imp fun T1 e' h1 h => ?_
    · obtain ⟨hm, hmentions⟩ := List.mem_filter.mp hm
      exact (hms m hm).firstOrder hT.wellFormed (by simpa using hmentions)
    · rw [Evidence.PursuesUnion, Evidence.filter_mentions_of_le hT.wellFormed hhas h1.le, hgeneric]
      obtain ⟨others, parts, rest, hothers, h⟩ := h
      have hsame : ms.filter (!Ty.mentions T1 vars ·) = ms.filter (!Ty.mentions T vars ·) :=
        Evidence.filter_not_mentions_of_le hT.wellFormed hhas h1.le
      exact ⟨others, parts, rest, hsame ▸ hothers, h⟩
  next hmany _ =>
    refine (records_pairwise hT _ fun q hq => ?_).imp fun T1 e' h1 hcompared => ?_
    · obtain ⟨g, hg, rfl⟩ := List.mem_map.mp hq
      have hg := List.mem_of_mem_filter hg
      exact ⟨hhas g hg, ha, hc g hg⟩
    · have hsame : ms.filter (Ty.mentions T1 vars) = ms.filter (Ty.mentions T vars) :=
        Evidence.filter_mentions_of_le hT.wellFormed hhas h1.le
      unfold Evidence.PursuesUnion
      split
      next g hg =>
        exact absurd (hsame.symm.trans hg) (hmany g)
      · intro g hg hmentions
        refine hcompared (g, a) (List.mem_map.mpr ⟨g, ?_, rfl⟩) hmentions
        rw [← hsame]
        exact List.mem_filter.mpr ⟨hg, hmentions⟩

theorem records_byShape (hp : T.Template vars p) (ha : T.FirstOrder a)
    (hc : ∀ t ∈ (T.shape p).parts, Compares vars c T t) :
    Records vars T e (fun d => byShape vars (c d) p a) fun T1 e' => e'.Pursues T1 vars p a := by
  have hshape := fun {T1 : Table} (h1 : T.Leads T1) => shape_of_le h1.le hp.has
  have hparts := fun t => hp.part (t := t)
  have hnames := hT.wellFormed.tidy p
  refine records_table ?_
  unfold Evidence.Pursues
  cases hp with
  | primitive => exact records_pure hT trivial
  | literal hs =>
    refine Records.imp (Q := fun _ _ => True) ?_ fun T1 e' h1 _ => ?_
    · simp only [hs]
      exact records_pure hT trivial
    · simp only [hshape h1, hs]
  | @parameter _ v hs =>
    refine Records.imp (Q := fun _ e' => (v, a) ∈ e'.found) ?_ fun T1 e' h1 h => ?_
    · simp only [hs]
      let e' : Evidence := { e with found := e.found ++ [(v, a)] }
      refine ⟨((), e'), T, hT, ⟨⟨fun b hb => ?_, fun _ h => h, fun b hb => ?_, fun _ => .inl⟩, ?_⟩,
        0, fun _ _ _ _ => rfl⟩
      · exact List.mem_append_left _ hb
      · refine (List.mem_append.mp hb).imp_right fun hb => ?_
        rw [List.mem_singleton.mp hb]
        exact ha
      · exact List.mem_append_right _ (List.mem_singleton_self _)
    · simpa only [hshape h1, hs] using h
  | array hs =>
    rw [hs] at hc
    simp only [hs]
    refine (records_array hT ha (hc _ (by simp [Shape.parts]))).imp fun T1 e' h1 h => ?_
    simpa only [hshape h1, hs] using h
  | tuple hs =>
    rw [hs] at hc hparts
    simp only [hs]
    refine (records_tuple hT ha (fun t ht => (hparts t ht).has) hc).imp fun T1 e' h1 h => ?_
    simpa only [hshape h1, hs] using h
  | object hs _ hplain hindex hcalls =>
    rw [hs] at hc hparts
    simp only [hs]
    refine (records_object hT ha hindex hcalls (fun f hf => (hplain f hf).2)
      (fun f hf => (hparts _ (mem_parts_of_field hf)).has)
      fun f hf => hc _ (mem_parts_of_field hf)).imp fun T1 e' h1 h => ?_
    simpa only [hshape h1, hs] using h
  | union hs hms =>
    rw [hs] at hc
    simp only [hs]
    refine (records_union hT ha hms (hT.wellFormed.canonical_union hs).several hc).imp
      fun T1 e' h1 h => ?_
    simp only [hshape h1, hs]
    exact h

omit hT

/-- A pair is looked into if it mentions a parameter and was not compared before. -/
theorem unifyAt_succ (p a : Ty) (e : Evidence) (d n : Nat) (T : Table) :
    (unifyAt vars (d + 1) p a).run e n T =
      if Ty.mentions T vars p = true ∧ (p, a) ∉ e.visited then
        (byShape vars (unifyAt vars d) p a).run { e with visited := (p, a) :: e.visited } n T
      else some (((), e), T) := by
  change ((if !Ty.mentions T vars p then pure () else do
    if (← get).visited.contains (p, a) then return ()
    modify fun e => { e with visited := (p, a) :: e.visited }
    byShape vars (unifyAt vars d) p a : Unify Unit).run e) n T = _
  cases hmentions : Ty.mentions T vars p with
  | false => rfl
  | true =>
    change ((if e.visited.contains (p, a) then pure () else do
      modify fun e => { e with visited := (p, a) :: e.visited }
      byShape vars (unifyAt vars d) p a : Unify Unit).run e) n T = _
    by_cases hvisited : (p, a) ∈ e.visited
    · rw [if_pos (by simpa using hvisited), if_neg (by simp [hvisited])]
      rfl
    · rw [if_neg (by simpa using hvisited), if_pos ⟨rfl, hvisited⟩]
      rfl

/-- **Unification of a template with a first-order argument ends**, and every pair that it meets is
followed. -/
theorem records_unifyAt (hT : T.Leads T) (hp : T.Template vars p) :
    Compares vars (fun d => unifyAt vars d) T p := by
  generalize hr : p.rank = r
  induction r using Nat.strong_induction_on generalizing T p with
  | _ r ih =>
    intro T1 a e h1 ha
    have hp1 := hp.of_le h1.le
    have hparts : ∀ t ∈ (T1.shape p).parts, Compares vars
      (fun d => unifyAt vars d) T1 t := fun t ht =>
      ih t.rank (hr ▸ h1.wellFormed.rank_part ht) h1.self (hp1.part ht) rfl
    by_cases hnew : Ty.mentions T1 vars p = true ∧ (p, a) ∉ e.visited
    · have hbyShape := records_byShape (e := { e with visited := (p, a) :: e.visited })
        h1.self hp1 ha
        hparts
      obtain ⟨r, T2, h2, ⟨hextends, hpursues⟩, k, hk⟩ := hbyShape
      have hin : (p, a) ∈ r.2.visited := hextends.visited _ (List.mem_cons_self)
      refine ⟨r, T2, h2, ⟨⟨hextends.found, fun q hq => ?_, hextends.first, fun q hq => ?_⟩,
        fun _ => hin⟩,
        k + 1, fun d n hd hn => ?_⟩
      · exact hextends.visited q (List.mem_cons_of_mem _ hq)
      · rcases hextends.pursues q hq with hq | hq
        · rcases List.mem_cons.mp hq with rfl | hq
          · exact .inr ⟨hp1.of_le h2.le, ha.of_agrees (.of_le h2.le), hpursues⟩
          · exact .inl hq
        · exact .inr hq
      · obtain ⟨d, rfl⟩ : ∃ i, d = i + 1 := ⟨d - 1, by omega⟩
        dsimp only
        rw [unifyAt_succ, if_pos hnew]
        exact hk d n (by omega) (by omega)
    · refine ⟨((), e), T1, h1.self, ⟨.refl T1 vars e, fun hmentions => ?_⟩, 1, fun d n hd _ => ?_⟩
      · exact Classical.not_not.mp (not_and.mp hnew hmentions)
      · obtain ⟨d, rfl⟩ : ∃ i, d = i + 1 := ⟨d - 1, by omega⟩
        dsimp only
        rw [unifyAt_succ, if_neg hnew]

/-- The evidence of an argument. -/
theorem delivers_unify (hT : T.Leads T) (hp : T.Template vars p) (ha : T.FirstOrder a) :
    Delivers T (fun _ => unify vars e p a) fun T1 e' =>
      e.Extends T1 vars e' ∧ e'.Compared T1 vars p a := by
  refine delivers_bounded ?_
  exact Delivers.bind (records_unifyAt hT hp T a e hT ha) fun r T1 h1 hr => delivers_pure h1.self hr

end Recording

end Inference

end ShapeCheck
