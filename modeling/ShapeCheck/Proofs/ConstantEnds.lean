import ShapeCheck.Proofs.ComparisonEnds
import ShapeCheck.Proofs.ConstantComparison

/-!
# Comparisons of constants return

A comparison may go on for ever where a type leads to ever more types. A constant leads to little: a
member of an enum to its value, and a text to its length, a number, which leads to nothing. The
target is taken apart, or it is resolved, and then there is nothing at its head to be resolved
again. So a constant can be compared with every type, whatever its aliases look like.

* `Assign.Simple` is what the sources of such a comparison are, `Assign.Leads` what is needed of
  one.
* `Assign.SimpleAsks` is what the rules ask about, by `Assign.rule_step_simple`.
-/

namespace ShapeCheck

open Table

namespace Ty

/-- The only property of a literal is the length of a text. -/
theorem type_of_base_property {l : Literal} {name : String} {g : Field}
    (hg : g ∈ primitiveProperty? l.base name) : g.type = .number := by
  cases l with
  | string =>
    simp only [Literal.base, primitiveProperty?] at hg
    split at hg
    · obtain rfl := Option.some.inj hg
      rfl
    · exact absurd hg (by simp)
  | _ => exact absurd hg (by simp [Literal.base, primitiveProperty?])

end Ty

namespace Assign

variable {K : Regime} {Q : Bool → Table → Ty → Ty → Prop} {T T1 : Table} {s t : Ty}
  {assumed : List (Ty × Ty)}

section Structure

/-- A literal, null, undefined, or `number`, which is the length of a text. -/
def Atomic (T : Table) (s : Ty) : Prop :=
  (∃ l, T.shape s = .literal l) ∨ s = .null ∨ s = .undefined ∨ s = .number

theorem Atomic.shape (h : Atomic T s) :
    (∃ l, T.shape s = .literal l) ∨ ∃ p, T.shape s = .primitive p := by
  rcases h with h | rfl | rfl | rfl
  · exact .inl h
  · exact .inr ⟨_, rfl⟩
  · exact .inr ⟨_, rfl⟩
  · exact .inr ⟨_, rfl⟩

theorem Atomic.isPlain (h : Atomic T s) : (T.shape s).isPlain = true := by
  rcases h.shape with ⟨l, hs⟩ | ⟨p, hs⟩
  · rw [hs]; rfl
  · rw [hs]; rfl

theorem Atomic.has (h : Atomic T s) : T.Has s := by
  rcases h with ⟨l, h⟩ | rfl | rfl | rfl
  · exact has_of_shape (by simp [h])
  all_goals exact has_prim T _

/-- An atomic type has no property but a length. -/
theorem Atomic.settles_property (hT : T.WellFormed) (h : Atomic T s) (name : String) :
    Interning.Settles T (Ty.plainProperty (T.shape s) name)
      (fun _ f => ∀ g ∈ f, g.type = .number ∧ s ≠ .number) := by
  rcases h with ⟨l, hs⟩ | rfl | rfl | rfl
  · rw [hs]
    refine Interning.settles_pure hT fun g hg => ⟨Ty.type_of_base_property hg, ?_⟩
    rintro rfl
    simp [Table.shape] at hs
  all_goals exact Interning.settles_pure hT (by simp [Ty.primitiveProperty?])

theorem works_ownField_atomic (hT : K.ok T) (hs : Atomic T s) (name : String) :
    Typing.Works K T (s.ownField? name) (fun _ f => ∀ g ∈ f, g.type = .number ∧ s ≠ .number) := by
  have hproperty : Typing.Works K T (s.property? name)
    (fun _ f => ∀ g ∈ f, g.type = .number ∧ s ≠ .number) := by
    refine Typing.works_of_settles hT (hs.settles_property (K.wellFormed hT) name) rfl
      fun n T2 h2 => ?_
    have hshape := shape_of_le h2 hs.has
    rw [Ty.property?_of_isPlain (hshape ▸ hs.isPlain), hshape]
  refine Typing.works_get_bind (fun T2 h2 => ?_) ?_
  · rw [shape_of_le h2 hs.has]
  rcases hs.shape with ⟨l, hshape⟩ | ⟨p, hshape⟩
  · rw [hshape]
    exact hproperty
  · rw [hshape]
    exact hproperty

variable (hlength : ∀ T1 b, s ≠ .number → T1.Has b → Q true T1 .number b)

include hlength

theorem rule_toObject_atomic (hT : K.ok T) (hs : Atomic T s) {m : Members}
    (hm : ∀ p ∈ (Shape.object m).parts, T.Has p) : Rule K Q T fun c => toObject (c true) s m := by
  have hkeep : ∀ {T1}, K.Reach T T1 → Atomic T1 s := fun h1 => by
    unfold Atomic
    rw [h1.shape_eq hs.has]
    exact hs
  obtain ⟨hfields, -, -⟩ := Shape.forall_parts_object.mp hm
  refine .both (.all (fun f c => field (c true) s f) hT _ ?fields) fun T1 hT1 h1 =>
    .both (.all (fun i c => index (c true) s i) hT1 _ ?index) fun T2 hT2 h2 => ?calls
  case fields =>
    intro f hf T1 hT1 h1
    refine .work (works_ownField_atomic hT1 (hkeep h1) f.name) fun g T2 hT2 h2 hg => ?_
    cases g with
    | none => exact .verdict _
    | some g =>
      obtain ⟨htype, hne⟩ := hg g rfl
      simp only [found, htype]
      split
      · exact .verdict false
      · exact .ask (hlength T2 _ hne ((h1.trans h2).has (hfields f hf)))
  case index =>
    intro i _ T2 hT2 h2
    have hs2 := hkeep (h1.trans h2)
    refine .look (fun T3 h3 => by rw [shape_of_le h3 hs2.has]) ?_
    rcases hs2.shape with ⟨l, hshape⟩ | ⟨p, hshape⟩
    · rw [hshape]
      exact .verdict false
    · rw [hshape]
      exact .verdict false
  case calls =>
    have hs2 := hkeep (h1.trans h2)
    split
    · exact .verdict true
    refine .work (Ty.works_plainSignatures hT2 hs2.has hs2.isPlain) fun us T3 hT3 h3 hus => ?_
    obtain rfl : us = [] := by
      rcases hs2.shape with ⟨l, hshape⟩ | ⟨p, hshape⟩
      · rw [hus, hshape]; rfl
      · rw [hus, hshape]; rfl
    exact .all (fun w c => any (fun s => functions (c true) s w) []) hT3 _ fun w _ T4 _ _ =>
      .verdict false

/-- Where the structure of an atomic type is compared, only the length of a text is asked about. -/
theorem rule_structural_atomic (hT : K.ok T) (hs : Atomic T s) (ht : T.Has t) :
    Rule K Q T fun c => structural (c true) s t := by
  refine .look (fun T2 h2 => by rw [shape_of_le h2 hs.has, shape_of_le h2 ht]) ?_
  cases htarget : T.shape t with
  | object m =>
    exact rule_toObject_atomic hlength hT hs fun p hp =>
      (K.wellFormed hT).has_part ht (by rw [htarget]; exact hp)
  | function c =>
    refine .work (Ty.works_plainSignatures hT hs.has hs.isPlain) fun us T1 hT1 h1 hus => ?_
    rcases hs.shape with ⟨l, hshape⟩ | ⟨p, hshape⟩
    · rw [hus, hshape]
      exact .verdict false
    · rw [hus, hshape]
      exact .verdict false
  | array | tuple =>
    rcases hs.shape with ⟨l, hshape⟩ | ⟨p, hshape⟩
    · simp only [hshape]
      exact .verdict false
    · simp only [hshape]
      exact .verdict false
  | _ => exact .verdict false

end Structure

section Descent

/-- An atomic type or a member of an enum. -/
def Simple (T : Table) (s : Ty) : Prop := Atomic T s ∨ (Ty.enumValue? T s).isSome = true

theorem Simple.has (h : Simple T s) : T.Has s := by
  rcases h with h | h
  · exact h.has
  · obtain ⟨v, hv⟩ := Option.isSome_iff_exists.mp h
    obtain ⟨enum, name, hs⟩ := Ty.shape_of_enumValue hv
    exact has_of_shape (by simp [hs])

/-- Nothing is asked about instead of such a type, but for its value. -/
theorem Simple.descends (h : Simple T s) {a b : Ty} (hd : Descends T s t a b) :
    a = s ∧ b ∈ T.combined t ∨ Ty.enumValue? T s = some a ∧ b = t := by
  have hshape : (∃ l, T.shape s = .literal l) ∨ (∃ p, T.shape s = .primitive p) ∨
      ∃ enum name v, T.shape s = .enumMember enum name v := by
    rcases h with h | h
    · exact h.shape.imp_right .inl
    · obtain ⟨v, hv⟩ := Option.isSome_iff_exists.mp h
      obtain ⟨enum, name, hs⟩ := Ty.shape_of_enumValue hv
      exact .inr (.inr ⟨enum, name, v, hs⟩)
  cases hd with
  | targetMember hm => exact .inl ⟨rfl, hm⟩
  | value hs => exact .inr ⟨by rw [Ty.enumValue?, hs], rfl⟩
  | sourceMember hm =>
    unfold Table.combined at hm
    rcases hshape with ⟨l, hs⟩ | ⟨p, hs⟩ | ⟨enum, name, v, hs⟩ <;> simp [hs] at hm
  | values hs | bound hs =>
    rcases hshape with ⟨l, hs'⟩ | ⟨p, hs'⟩ | ⟨enum, name, v, hs'⟩ <;> simp [hs'] at hs

theorem Simple.hasOpenHead (h : Simple T s) : Ty.hasOpenHead T s = false := by
  rcases h with h | h
  · exact Ty.hasOpenHead_of_isPlain h.isPlain
  · obtain ⟨v, hv⟩ := Option.isSome_iff_exists.mp h
    obtain ⟨enum, name, hs⟩ := Ty.shape_of_enumValue hv
    simp [Ty.hasOpenHead, hs]

/-- What the rules ask about where the source is such a type: what it descends to, the target as it
is resolved, or the length of a text. -/
inductive SimpleAsks (T0 : Table) (s t : Ty) : Bool → Table → Ty → Ty → Prop
  | down {T : Table} {a b : Ty} (h : Descends T s t a b) : SimpleAsks T0 s t false T a b
  | resolved {T : Table} {r : Ty} (href : (T0.shape t).isReference = true) (hr : T.Headed .all r) :
    SimpleAsks T0 s t true T s r
  | length {T : Table} {b : Ty} (hs : Atomic T0 s) (hne : s ≠ .number) (hb : T.Has b) :
    SimpleAsks T0 s t true T .number b

theorem rule_step_simple (hresolve : ∀ u, T.Has u → Typing.Works K T u.resolve
      fun T1 r => Ty.hasOpenHead T u = true → T1.Headed .all r)
    (b : Bool) (hT : K.ok T) (hs : Simple T s) (ht : T.Has t) :
    Rule K (SimpleAsks T s t) T fun c => step b (c false) (c true) s t := by
  refine rule_step_of (H := Family.closed) (compares_all K)
    (fun _ _ _ _ _ h => .down h) hresolve hT hs.has
    ht (fun _ _ _ hopen _ _ => absurd (hs.hasOpenHead.symm.trans hopen) (by simp))
    (fun _ _ _ _ href hr => .resolved href hr) fun _ _ hplain => ?_
  have hatomic : Atomic T s := by
    refine hs.resolve_right fun h => ?_
    obtain ⟨v, hv⟩ := Option.isSome_iff_exists.mp h
    obtain ⟨enum, name, hshape⟩ := Ty.shape_of_enumValue hv
    simp [hshape, Shape.isPlain] at hplain
  exact rule_structural_atomic (fun _ _ hne hb => .length hatomic hne hb) hT hatomic ht

/-- What such a type leads to can be compared with all types: the value of a member of an enum, and
the length of a text. -/
structure Leads (K : Regime) (T0 : Table) (s : Ty) : Prop where
  simple : Simple T0 s
  value : ∀ v, Ty.enumValue? T0 s = some v → ∀ T t assumed, K.ok T → K.grows T0 T → T.Has t →
    Returns K T fun d => decideAt d assumed v t
  length : Atomic T0 s → s ≠ .number → ∀ T t assumed, K.ok T → K.grows T0 T → T.Has t →
    Returns K T fun d => decideAt d assumed .number t

variable {T0 : Table}

theorem Leads.simple_of_grows (h : Leads K T0 s) (hgrows : K.grows T0 T) : Simple T s := by
  have hshape := K.shape hgrows h.simple.has
  unfold Simple Atomic Ty.enumValue?
  rw [hshape]
  exact h.simple

/-- One layer of the rules, for a source that leads to nothing that cannot be compared. -/
theorem Leads.returns_step (h : Leads K T0 s) (hends : K.ends)
    (hresolve : ∀ T u, K.ok T → T.Has u → Typing.Works K T u.resolve
      fun T1 r => Ty.hasOpenHead T u = true → T1.Headed .all r)
    (hT : K.ok T) (h0 : K.grows T0 T) (ht : T.Has t)
    (hmember : ∀ T1 m, K.ok T1 → K.grows T T1 → m ∈ T.combined t →
      Returns K T1 fun d => decideAt d assumed s m)
    (hresolved : ∀ T1 r, K.ok T1 → K.grows T T1 → (T.shape t).isReference =
    true → T1.Headed .all r →
      Returns K T1 fun d => decideAt d ((s, t) :: assumed) s r) :
    Returns K T fun d => decideAt d assumed s t := by
  have hs := h.simple_of_grows h0
  have hrule := rule_step_simple (fun u hu => hresolve T u hT hu) (assumed.contains (s, t)) hT hs ht
  have hreturns := hrule.returns hends hT
    (c := fun d inner => decideAt d (if inner then (s, t) :: assumed else assumed)) ?_
  · obtain ⟨b, T1, hT1, h1, k, hk⟩ := hreturns
    refine ⟨b, T1, hT1, h1, k + 1, fun d n hd hn => ?_⟩
    obtain ⟨d, rfl⟩ : ∃ e, d = e + 1 := ⟨d - 1, by omega⟩
    exact hk d n (by omega) (by omega)
  · intro inner a b T1 hT1 h1 hask
    have h01 := K.trans h0 h1
    have ht1 := K.has h1 ht
    cases hask with
    | down hd =>
      rcases (h.simple_of_grows h01).descends hd with ⟨rfl, hm⟩ | ⟨hv, rfl⟩
      · refine hmember T1 b hT1 h1 ?_
        rwa [Table.combined, K.shape h1 ht] at hm
      · refine h.value a ?_ T1 b assumed hT1 h01 ht1
        rwa [Ty.enumValue?, K.shape h01 h.simple.has] at hv
    | resolved href hr => exact hresolved T1 b hT1 h1 href hr
    | length hatomic hne hb =>
      refine h.length ?_ hne T1 b _ hT1 h01 hb
      unfold Atomic at hatomic ⊢
      rwa [K.shape h0 h.simple.has] at hatomic

/-- **The descent in the target ends.** A target without a reference at its head is taken apart for
good, and any other target is taken apart until it is resolved to one. -/
theorem Leads.returns (h : Leads K T0 s) (hends : K.ends)
    (hresolve : ∀ T u, K.ok T → T.Has u → Typing.Works K T u.resolve
      fun T1 r => Ty.hasOpenHead T u = true → T1.Headed .all r)
    (hT : K.ok T) (h0 : K.grows T0 T) (ht : T.Has t) :
    Returns K T fun d => decideAt d assumed s t := by
  have hheaded : ∀ {T t assumed}, K.ok T → K.grows T0 T → T.Headed .all t →
      Returns K T fun d => decideAt d assumed s t := by
    intro T t assumed hT h0 ht
    induction hr : t.rank using Nat.strong_induction_on generalizing T t assumed with
    | _ n ih =>
    refine h.returns_step hends hresolve hT h0 ht.has (fun T1 m hT1 h1 hm => ?_) ?_
    · have hlt := (K.wellFormed hT).rank_part (combined_subset_parts hm)
      have hm1 := Headed.of_shapes (fun _ => K.has h1) (fun _ => K.shape h1) (ht.combined hm)
      exact ih m.rank (by omega) hT1 (K.trans h0 h1) hm1 rfl
    · rw [ht.isReference]
      exact fun _ _ _ _ href _ => absurd href (by simp)
  induction hr : t.rank using Nat.strong_induction_on generalizing T t assumed with
  | _ n ih =>
  refine h.returns_step hends hresolve hT h0 ht (fun T1 m hT1 h1 hm => ?_)
    fun T1 r hT1 h1 _ hr => hheaded hT1 (K.trans h0 h1) hr
  have hwf := K.wellFormed hT
  have hlt := hwf.rank_part (combined_subset_parts hm)
  exact ih m.rank (by omega) hT1 (K.trans h0 h1) (K.has h1 (has_combined hwf ht hm)) rfl

variable (hends : K.ends)
  (hresolve : ∀ T u, K.ok T → T.Has u → Typing.Works K T u.resolve
    fun T1 r => Ty.hasOpenHead T u = true → T1.Headed .all r)

include hends hresolve

omit hends hresolve in
theorem leads_number (T0 : Table) : Leads K T0 .number where
  simple := .inl (.inr (.inr (.inr rfl)))
  value v hv := absurd hv (by simp [Ty.enumValue?, Table.shape])
  length _ hne := absurd rfl hne

theorem leads_atomic (hs : Atomic T0 s) : Leads K T0 s where
  simple := .inl hs
  value v hv := by
    obtain ⟨enum, name, hshape⟩ := Ty.shape_of_enumValue hv
    rcases hs.shape with ⟨l, hs⟩ | ⟨p, hs⟩ <;> simp [hs] at hshape
  length _ _ T t assumed hT h0 ht := (leads_number T0).returns hends hresolve hT h0 ht

/-- A constant leads to nothing that cannot be compared. -/
theorem leads_constant {c : Ty} {v : RuntimeValue} (hc : T0.Constant c v) : Leads K T0 c := by
  cases hc with
  | literal h => exact leads_atomic hends hresolve (.inl ⟨_, h⟩)
  | null => exact leads_atomic hends hresolve (.inr (.inl rfl))
  | undefined => exact leads_atomic hends hresolve (.inr (.inr (.inl rfl)))
  | @enumMember _ enum value name l h hl =>
    have hvalue : Ty.enumValue? T0 c = some value := by rw [Ty.enumValue?, h]
    refine ⟨.inr (by simp [hvalue]), fun w hw T t assumed hT h0 ht => ?_, fun hatomic => ?_⟩
    · obtain rfl := Option.some.inj (hvalue.symm.trans hw)
      have hleads : Leads K T0 value := leads_atomic hends hresolve (.inl ⟨l, hl⟩)
      exact hleads.returns hends hresolve hT h0 ht
    · rcases hatomic.shape with ⟨l, hs⟩ | ⟨p, hs⟩ <;> simp [hs] at h

end Descent

end Assign

/-- **A constant can be compared with every type**, whatever a table has been used for. -/
theorem Ty.isAssignableTo_constant_returns {T : Table}
    (hT : Relation.ReflTransGen Table.Operated {} T)
    {c t : Ty} {v : RuntimeValue} (hc : T.Constant c v) (ht : T.Has t) :
    ∃ n b T1, ∀ m, n ≤ m → c.isAssignableTo t m T = some (b, T1) := by
  have hok : Recalling .closed T T :=
    ⟨(faithful_empty.operations hT).1.wellFormed, .refl T, recalls_of_operations hT⟩
  have hresolve : ∀ U u, Recalling .closed T U → U.Has u →
      Typing.Works (.recalling .closed T) U u.resolve
        fun U1 r => Ty.hasOpenHead U u = true → U1.Headed .all r := fun U u hU hu =>
    ((resolves_closed T).works hU hu).imp fun _ _ hr => hr.2
  have hreturns : Assign.Returns (.recalling .closed T) T fun d => Assign.decideAt d [] c t :=
    (Assign.leads_constant trivial hresolve hc).returns trivial hresolve hok
    (Table.Evolves.refl T) ht
  exact hreturns.answers

end ShapeCheck
