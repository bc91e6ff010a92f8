import Mathlib.Data.List.Forall2

/-!
# Lists and options place by place

Facts about lists and options that agree in length and are related place by place, and about work on
each member of a list.

* `Sequential` says that a property of work holds of a sequence if it holds of its steps. Its lemmas
  carry the property to work on lists.
-/

namespace ShapeCheck

section Pointwise

variable {α β : Type} {R R' : α → α → Prop} {as bs : List α} {f : α → β} {a b : Option α}

/-- Only the relation between the members that there are counts. -/
theorem forall₂_mono (h : List.Forall₂ R as bs)
    (hR : ∀ a ∈ as, ∀ b ∈ bs, R a b → R' a b) : List.Forall₂ R' as bs := by
  induction h with
  | nil => exact .nil
  | cons hab _ ih =>
    refine .cons (hR _ (by simp) _ (by simp) hab) (ih ?_)
    intro a ha b hb
    exact hR a (List.mem_cons_of_mem _ ha) b (List.mem_cons_of_mem _ hb)

theorem forall₂_trans (hR : ∀ ⦃a b c⦄, R a b → R b c → R a c)
    {cs : List α} (hab : List.Forall₂ R as bs) (hbc : List.Forall₂ R bs cs) :
    List.Forall₂ R as cs := by
  induction hab generalizing cs with
  | nil => exact hbc
  | cons h _ ih =>
    cases hbc with
    | cons h' hrest => exact .cons (hR h h') (ih hrest)

theorem forall₂_iff_map_eq : List.Forall₂ (fun a b => f a = f b) as bs ↔ as.map f = bs.map f := by
  rw [← List.forall₂_eq_eq_eq, List.forall₂_map_left_iff, List.forall₂_map_right_iff]

/-- Each member of the first list is related to some member of the second one. -/
theorem exists_of_forall₂ {R : α → β → Prop} {bs : List β}
    (h : List.Forall₂ R as bs) {a : α} (ha : a ∈ as) : ∃ b ∈ bs, R a b := by
  obtain ⟨i, hi, rfl⟩ := List.mem_iff_getElem.mp ha
  obtain ⟨hlength, heach⟩ := List.forall₂_iff_get.mp h
  exact ⟨bs[i], List.getElem_mem (hlength ▸ hi), heach i hi (hlength ▸ hi)⟩

/-- What exists for each member exists for all of them at once. -/
theorem exists_forall₂ {R : α → β → Prop} {xs : List α} (h : ∀ x ∈ xs, ∃ y, R x y) :
    ∃ ys, List.Forall₂ R xs ys := by
  induction xs with
  | nil => exact ⟨[], .nil⟩
  | cons x xs ih =>
    obtain ⟨y, hy⟩ := h x (by simp)
    obtain ⟨ys, hys⟩ := ih fun z hz => h z (List.mem_cons_of_mem x hz)
    exact ⟨y :: ys, .cons hy hys⟩

/-- Two readings of the same things, one of which follows from the other. -/
theorem eq_map_of_forall₂ {R R' : α → β → Prop} {φ : β → β} {ps : List α}
    {xs ys : List β} (h : List.Forall₂ R ps xs) (h' : List.Forall₂ R' ps ys)
    (hφ : ∀ p ∈ ps, ∀ x y, R p x → R' p y → y = φ x) : ys = xs.map φ := by
  induction h generalizing ys with
  | nil =>
    cases h'
    rfl
  | cons hr hrest ih =>
    cases h' with
    | cons hr' hrest' =>
      rw [List.map_cons, hφ _ List.mem_cons_self _ _ hr hr',
        ih hrest' fun p hp => hφ p (List.mem_cons_of_mem _ hp)]

theorem option_rel_mono (h : Option.Rel R a b)
    (hR : ∀ x ∈ a, ∀ y ∈ b, R x y → R' x y) : Option.Rel R' a b := by
  cases h with
  | some h => exact .some (hR _ rfl _ rfl h)
  | none => exact .none

theorem option_rel_map {R : β → β → Prop}
    (h : Option.Rel R (a.map f) (b.map f)) : Option.Rel (fun x y => R (f x) (f y)) a b := by
  cases a with
  | none =>
    cases b with
    | none => exact .none
    | some y => nomatch h
  | some x =>
    cases b with
    | none => nomatch h
    | some y =>
      cases h with
      | some h => exact .some h

theorem option_rel_eq_iff : Option.Rel Eq a b ↔ a = b := by
  constructor
  · rintro (h | _)
    · rw [h]
    · rfl
  · rintro rfl
    cases a with
    | none => exact .none
    | some a => exact .some rfl

theorem exists_of_option_rel {x y : Option α} (h : Option.Rel R x y)
    {a : α} (ha : a ∈ x) : ∃ b ∈ y, R a b := by
  cases h with
  | none => exact absurd ha (by simp)
  | some h =>
    obtain rfl := Option.some.inj ha
    exact ⟨_, rfl, h⟩

end Pointwise

/-- The property holds of work that only gives a result, and of a sequence if it holds of the steps,
whatever the first one gives. -/
structure Sequential {m : Type → Type} [Monad m] (P : ∀ α : Type, m α → Prop) : Prop where
  pure : ∀ {α : Type} (a : α), P α (pure a)
  bind : ∀ {α β : Type} {x : m α} {f : α → m β}, P α x → (∀ a, P β (f a)) → P β (x >>= f)

namespace Sequential

variable {m : Type → Type} [Monad m] {P : ∀ α : Type, m α → Prop} {α β : Type} {as : List α}

theorem mapM [LawfulMonad m] (h : Sequential P) {f : α → m β} (hf : ∀ a ∈ as, P β (f a)) :
    P (List β) (as.mapM f) := by
  induction as with
  | nil => simpa using h.pure []
  | cons a as ih =>
    rw [List.mapM_cons]
    have hrest := ih fun b hb => hf b (List.mem_cons_of_mem _ hb)
    exact h.bind (hf a List.mem_cons_self) fun b => h.bind hrest fun bs => h.pure (b :: bs)

theorem foldlM (h : Sequential P) {f : β → α → m β} (hf : ∀ b a, P β (f b a)) (b : β) :
    P β (as.foldlM f b) := by
  induction as generalizing b with
  | nil => exact h.pure b
  | cons a as ih => exact h.bind (hf b a) ih

theorem forM (h : Sequential P) {f : α → m Unit} (hf : ∀ a ∈ as, P Unit (f a)) :
    P Unit (as.forM f) := by
  induction as with
  | nil => exact h.pure ()
  | cons a as ih =>
    exact h.bind (hf a List.mem_cons_self) fun _ => ih fun b hb => hf b (List.mem_cons_of_mem _ hb)

end Sequential

end ShapeCheck
