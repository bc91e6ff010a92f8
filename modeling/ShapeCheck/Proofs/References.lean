import ShapeCheck.Proofs.Entries
import ShapeCheck.Proofs.Building
import Mathlib.Order.WellFounded
import Mathlib.Data.Set.Finite.List

/-!
# References between aliases

An alias refers to another where a reference to it stands at the top of its target or in the members
of unions and intersections there, at any nesting. The argument of a readonly type counts as well.
An alias is in order when every way along such references ends in structural types; it fails when
one comes to a cycle, to an alias that is not defined, or to the error type.

* `Table.Refers` is the graph of the aliases, `Table.Fails` says that an alias leads to trouble.
* `Table.Fine` says of a type that all its ways end, `Table.fails_iff` that an alias whose target is
  not fine is one that fails.
-/

namespace ShapeCheck

open Relation

namespace Table

/-- The types at the top of a type: the members of a union or an intersection, and the argument that
a readonly type is made of. -/
def exposed (T : Table) (t : Ty) : List Ty :=
  match T.shape t with
  | .union ms => ms
  | .intersection ms => ms
  | .reference name [argument] =>
    if name = readonlyName && (T.alias? name).isNone then [argument] else []
  | _ => []

/-- The second type stands at the top of the first, at any nesting. -/
inductive Exposes (T : Table) : Ty → Ty → Prop
  | self (t : Ty) : Exposes T t t
  | inner {t m u : Ty} (hm : m ∈ T.exposed t) (h : Exposes T m u) : Exposes T t u

/-- A reference to the second alias stands at the top of the target of the first. -/
def Refers (T : Table) (a b : String) : Prop :=
  ∃ x r arguments, T.alias? a = some x ∧ T.Exposes x.target r ∧
    T.shape r = .reference b arguments ∧ (T.alias? b).isSome = true

/-- The type stands for nothing: it is the error type, or a reference to an alias that is not
defined. -/
def Missing (T : Table) (t : Ty) : Prop :=
  t = .invalid ∨ ∃ name arguments, T.shape t = .reference name arguments ∧
    T.alias? name = none ∧ T.exposed t = []

/-- The target of the alias has something at its top that stands for nothing. -/
def Broken (T : Table) (name : String) : Prop :=
  ∃ x u, T.alias? name = some x ∧ T.Exposes x.target u ∧ T.Missing u

/-- The alias reaches a cycle, an alias that is not defined, or the error type. -/
def Fails (T : Table) (name : String) : Prop :=
  ∃ b, ReflTransGen T.Refers name b ∧ (TransGen T.Refers b b ∨ T.Broken b)

/-- Every way from the type ends in structural types. -/
inductive Fine (T : Table) : Ty → Prop
  | intro {t : Ty} (hthere : ¬T.Missing t) (hexposed : ∀ m ∈ T.exposed t, Fine T m)
    (halias : ∀ name arguments a, T.shape t = .reference name arguments → T.alias? name = some a →
      Fine T a.target) : Fine T t

section Graph

variable {T : Table} {t u v : Ty} {name : String} {a : Alias}

theorem mem_parts_of_exposed (h : u ∈ T.exposed t) : u ∈ (T.shape t).parts := by
  unfold exposed at h
  split at h
  next hs =>
    rw [hs]
    exact h
  next hs =>
    rw [hs]
    exact h
  next hs =>
    rw [hs]
    split at h
    · exact h
    · exact absurd h (by simp)
  · exact absurd h (by simp)

theorem exposed_of_alias {arguments : List Ty} (hs : T.shape t = .reference name arguments)
    (ha : T.alias? name = some a) : T.exposed t = [] := by
  unfold exposed
  rw [hs]
  match arguments with
  | [] => rfl
  | [argument] => simp [ha]
  | _ :: _ :: _ => rfl

theorem Exposes.trans (h : T.Exposes t u) (h' : T.Exposes u v) : T.Exposes t v := by
  induction h with
  | self => exact h'
  | inner hm _ ih => exact .inner hm (ih h')

theorem Exposes.has (hT : T.WellFormed) (h : T.Exposes t u) (ht : T.Has t) : T.Has u := by
  induction h with
  | self => exact ht
  | inner hm _ ih => exact ih (hT.has_part ht (mem_parts_of_exposed hm))

/-- A fine type exposes fine types only. -/
theorem Fine.exposes (h : T.Fine t) (hu : T.Exposes t u) : T.Fine u := by
  induction hu with
  | self => exact h
  | inner hm _ ih =>
    cases h with
    | intro _ hexposed _ => exact ih (hexposed _ hm)

/-- A type is fine when nothing at its top is missing and its references are to fine targets. -/
theorem fine_of_exposes (hT : T.WellFormed) (hthere : ∀ u, T.Exposes t u → ¬T.Missing u)
    (halias : ∀ u name arguments a, T.Exposes t u → T.shape u = .reference name arguments →
      T.alias? name = some a → T.Fine a.target) : T.Fine t := by
  induction hk : t.rank using Nat.strong_induction_on generalizing t with
  | _ k ih =>
  refine .intro (hthere t (.self t)) ?_ fun name arguments a => halias t name arguments a (.self t)
  intro m hm
  have hlt := hT.rank_part (mem_parts_of_exposed hm)
  exact ih m.rank (by omega) (fun u hu => hthere u (.inner hm hu))
    (fun u name arguments a hu => halias u name arguments a (.inner hm hu)) rfl

/-- From a fine target no alias on a cycle is reached. -/
theorem Fine.acyclic (h : T.Fine t) {r : Ty} {arguments : List Ty} (hr : T.Exposes t r)
    (hs : T.shape r = .reference name arguments) (hname : (T.alias? name).isSome = true) :
    ¬T.Fails name := by
  induction h generalizing r name arguments with
  | @intro t hthere hexposed halias ihexposed ihalias =>
  cases hr with
  | inner hm hr => exact ihexposed _ hm hr hs hname
  | self =>
    obtain ⟨a, ha⟩ := Option.isSome_iff_exists.mp hname
    have hnext : ∀ b, T.Refers name b → ¬T.Fails b := by
      rintro b ⟨x, r, args, hx, hr, hs', hb⟩
      rw [ha] at hx
      obtain rfl := Option.some.inj hx
      exact ihalias name arguments a hs ha hr hs' hb
    rintro ⟨b, hreach, hbad⟩
    rcases hreach.cases_head with rfl | ⟨c, hc, hcb⟩
    · rcases hbad with hcycle | ⟨x, u, hx, hu, hmissing⟩
      · -- the first step of the cycle leads to an alias that reaches the same cycle
        obtain ⟨c, hc, hback⟩ := TransGen.head'_iff.mp hcycle
        exact hnext c hc ⟨name, hback, .inl hcycle⟩
      · rw [ha] at hx
        obtain rfl := Option.some.inj hx
        cases (halias name arguments a hs ha).exposes hu with
        | intro hthere _ _ => exact hthere hmissing
    · exact hnext c hc ⟨b, hcb, hbad⟩

/-- An alias that does not fail has a fine target. There are only finitely many aliases, so ways
without a cycle end. -/
theorem fine_of_not_fails (hT : T.WellFormed) (ha : T.alias? name = some a) (h : ¬T.Fails name) :
    T.Fine a.target := by
  let Sound := { b : String // (T.alias? b).isSome = true ∧ ¬T.Fails b }
  have hfinite : Finite Sound := by
    have hsub : { b : String | (T.alias? b).isSome = true ∧ ¬T.Fails b } ⊆
        { b | b ∈ T.aliases.map Alias.name } := by
      rintro b ⟨hb, -⟩
      obtain ⟨x, hx⟩ := Option.isSome_iff_exists.mp hb
      obtain ⟨hmem, rfl⟩ := alias?_eq_some hx
      exact List.mem_map_of_mem hmem
    exact ((List.finite_toSet _).subset hsub).to_subtype
  let next : Sound → Sound → Prop := fun c b => TransGen T.Refers b.1 c.1
  have htrans : IsTrans Sound next := ⟨fun _ _ _ h1 h2 => h2.trans h1⟩
  have hirrefl : Std.Irrefl next := ⟨fun b hb => b.2.2 ⟨b.1, .refl, .inl hb⟩⟩
  have hwf : WellFounded next := Finite.wellFounded_of_trans_of_irrefl next
  suffices hall : ∀ b : Sound, ∀ x, T.alias? b.1 = some x → T.Fine x.target from
    hall ⟨name, by simp [ha], h⟩ a ha
  intro b
  induction b using hwf.induction with
  | _ b ih =>
  intro x hx
  refine fine_of_exposes hT ?_ ?_
  · intro u hu hmissing
    exact b.2.2 ⟨b.1, .refl, .inr ⟨x, u, hx, hu, hmissing⟩⟩
  · intro u c arguments y hu hs hy
    have hrefers : T.Refers b.1 c := ⟨x, u, arguments, hx, hu, hs, by simp [hy]⟩
    have hc : ¬T.Fails c := by
      rintro ⟨d, hd, hbad⟩
      exact b.2.2 ⟨d, hd.head hrefers, hbad⟩
    exact ih ⟨c, by simp [hy], hc⟩ (.single hrefers) y hy

/-- **Trouble is what is not fine.** An alias fails exactly when its target is not fine. -/
theorem fails_iff (hT : T.WellFormed) (ha : T.alias? name = some a) :
    T.Fails name ↔ ¬T.Fine a.target := by
  constructor
  · rintro ⟨b, hreach, hbad⟩ hfine
    rcases hreach.cases_head with rfl | ⟨c, ⟨x, r, arguments, hx, hr, hs, hc⟩, hcb⟩
    · rcases hbad with hcycle | ⟨x, u, hx, hu, hmissing⟩
      · obtain ⟨c, ⟨x, r, arguments, hx, hr, hs, hc⟩, hback⟩ := TransGen.head'_iff.mp hcycle
        rw [ha] at hx
        obtain rfl := Option.some.inj hx
        exact hfine.acyclic hr hs hc ⟨name, hback, .inl hcycle⟩
      · rw [ha] at hx
        obtain rfl := Option.some.inj hx
        cases hfine.exposes hu with
        | intro hthere _ _ => exact hthere hmissing
    · rw [ha] at hx
      obtain rfl := Option.some.inj hx
      exact hfine.acyclic hr hs hc ⟨b, hcb, hbad⟩
  · intro hfine
    by_contra hnot
    exact hfine (fine_of_not_fails hT ha hnot)

/-- An alias on a cycle has no fine target. -/
theorem not_fine_of_cycle (hT : T.WellFormed) (ha : T.alias? name = some a)
    (h : TransGen T.Refers name name) : ¬T.Fine a.target :=
  (fails_iff hT ha).mp ⟨name, .refl, .inl h⟩

end Graph

/-- How a table changes once all aliases are defined: types are added and aliases are resolved. -/
structure Develops (T T1 : Table) : Prop where
  gains : T.Gains T1
  aliases : ∀ name, Option.Rel Alias.Proceeds (T.alias? name) (T1.alias? name)

section Development

variable {T T1 T2 : Table} {t u : Ty} {name : String} {a : Alias}

theorem Develops.of_aliases (hgains : T.Gains T1) (haliases : T1.aliases = T.aliases) :
    T.Develops T1 := by
  refine ⟨hgains, fun name => ?_⟩
  rw [alias?, alias?, haliases]
  cases T.aliases.find? (·.name = name) with
  | none => exact .none
  | some a => exact .some (.refl a)

theorem Develops.refl (T : Table) : T.Develops T := .of_aliases (.refl T) rfl

theorem Evolves.develops (h : T.Evolves T1) : T.Develops T1 :=
  ⟨⟨h.entries, fun i info hi => by rwa [h.typeVars]⟩, h.aliases⟩

theorem Develops.alias (h : T.Develops T1) (ha : T.alias? name = some a) :
    ∃ b, T1.alias? name = some b ∧ a.Proceeds b := by
  have hrel := h.aliases name
  rw [ha] at hrel
  cases hb : T1.alias? name with
  | none =>
    rw [hb] at hrel
    cases hrel
  | some b =>
    rw [hb] at hrel
    cases hrel with
    | some hab => exact ⟨b, rfl, hab⟩

theorem Develops.alias_before (h : T.Develops T1) {b : Alias} (hb : T1.alias? name = some b) :
    ∃ a, T.alias? name = some a ∧ a.Proceeds b := by
  have hrel := h.aliases name
  rw [hb] at hrel
  cases ha : T.alias? name with
  | none =>
    rw [ha] at hrel
    cases hrel
  | some a =>
    rw [ha] at hrel
    cases hrel with
    | some hab => exact ⟨a, rfl, hab⟩

theorem Develops.isSome (h : T.Develops T1) (name : String) :
    (T1.alias? name).isSome = (T.alias? name).isSome := by
  have hrel := h.aliases name
  generalize T.alias? name = a at hrel
  generalize T1.alias? name = b at hrel
  cases hrel with
  | none => rfl
  | some _ => rfl

theorem Develops.none_iff (h : T.Develops T1) (name : String) :
    T1.alias? name = none ↔ T.alias? name = none := by
  rw [← Option.not_isSome_iff_eq_none, ← Option.not_isSome_iff_eq_none, h.isSome]

theorem Develops.trans (h : T.Develops T1) (h' : T1.Develops T2) : T.Develops T2 := by
  refine ⟨h.gains.trans h'.gains, fun name => ?_⟩
  cases ha : T.alias? name with
  | none =>
    rw [(h'.none_iff name).mpr ((h.none_iff name).mpr ha)]
    exact .none
  | some a =>
    obtain ⟨b, hb, hab⟩ := h.alias ha
    obtain ⟨c, hc, hbc⟩ := h'.alias hb
    rw [hc]
    exact .some (hab.trans hbc)

theorem Develops.exposed (h : T.Develops T1) (ht : T.Has t) : T1.exposed t = T.exposed t := by
  have hnone : ∀ name, (T1.alias? name).isNone = (T.alias? name).isNone := by
    intro name
    rw [← Option.not_isSome, ← Option.not_isSome, h.isSome]
  simp only [Table.exposed, h.gains.shape ht, hnone]

theorem Develops.exposes_iff (hT : T.WellFormed) (h : T.Develops T1) (ht : T.Has t) :
    T1.Exposes t u ↔ T.Exposes t u := by
  constructor
  · intro hu
    induction hu with
    | self => exact .self _
    | inner hm _ ih =>
      rw [h.exposed ht] at hm
      exact .inner hm (ih (hT.has_part ht (mem_parts_of_exposed hm)))
  · intro hu
    induction hu with
    | self => exact .self _
    | inner hm _ ih =>
      have hm' := hm
      rw [← h.exposed ht] at hm'
      exact .inner hm' (ih (hT.has_part ht (mem_parts_of_exposed hm)))

theorem WellFormed.has_target (hT : T.WellFormed) (ha : T.alias? name = some a) : T.Has a.target :=
  (hT.aliases a (alias?_eq_some ha).1).1

/-- The graph of the aliases stays the same. -/
theorem Develops.refers_iff (hT : T.WellFormed) (h : T.Develops T1) (a b : String) :
    T1.Refers a b ↔ T.Refers a b := by
  constructor
  · rintro ⟨y, r, arguments, hy, hr, hs, hb⟩
    obtain ⟨x, hx, hxy⟩ := h.alias_before hy
    have htarget := hT.has_target hx
    rw [hxy.target] at hr
    have hr' := (h.exposes_iff hT htarget).mp hr
    rw [h.gains.shape (hr'.has hT htarget)] at hs
    exact ⟨x, r, arguments, hx, hr', hs, (h.isSome b).symm.trans hb⟩
  · rintro ⟨x, r, arguments, hx, hr, hs, hb⟩
    obtain ⟨y, hy, hxy⟩ := h.alias hx
    have htarget := hT.has_target hx
    refine ⟨y, r, arguments, hy, ?_, ?_, (h.isSome b).trans hb⟩
    · rw [hxy.target]
      exact (h.exposes_iff hT htarget).mpr hr
    · rw [h.gains.shape (hr.has hT htarget)]
      exact hs

theorem Develops.refers_eq (hT : T.WellFormed) (h : T.Develops T1) : T1.Refers = T.Refers := by
  funext a b
  exact propext (h.refers_iff hT a b)

theorem Develops.missing_iff (h : T.Develops T1) (ht : T.Has t) : T1.Missing t ↔ T.Missing t := by
  simp only [Missing, h.gains.shape ht, h.exposed ht, h.none_iff]

/-- What is fine stays so, and nothing else becomes fine. -/
theorem Develops.fine_iff (hT : T.WellFormed) (h : T.Develops T1) (ht : T.Has t) :
    T1.Fine t ↔ T.Fine t := by
  constructor
  · intro hfine
    induction hfine with
    | intro hthere hexposed halias ihexposed ihalias =>
      refine .intro (mt (h.missing_iff ht).mpr hthere) ?_ ?_
      · intro m hm
        have hm' := hm
        rw [← h.exposed ht] at hm'
        exact ihexposed m hm' (hT.has_part ht (mem_parts_of_exposed hm))
      · intro name arguments a hs ha
        obtain ⟨b, hb, hab⟩ := h.alias ha
        have hfine := ihalias name arguments b ((h.gains.shape ht).trans hs) hb
        rw [hab.target] at hfine
        exact hfine (hT.has_target ha)
  · intro hfine
    induction hfine with
    | intro hthere hexposed halias ihexposed ihalias =>
      refine .intro (mt (h.missing_iff ht).mp hthere) ?_ ?_
      · intro m hm
        rw [h.exposed ht] at hm
        exact ihexposed m hm (hT.has_part ht (mem_parts_of_exposed hm))
      · intro name arguments b hs hb
        obtain ⟨a, ha, hab⟩ := h.alias_before hb
        rw [hab.target]
        exact ihalias name arguments a ((h.gains.shape ht).symm.trans hs) ha (hT.has_target ha)

end Development

end Table

end ShapeCheck
