import ShapeCheck.Proofs.Substitutions

/-!
# Work that lasts

Resolving a type may run out of the steps it is allowed, so it gives a result only if it ends. What
it gives then stays: more steps change nothing, and where the table only grew since, the same
question has the same answer and leaves the table as it is.

* `Regime` is a way in which tables are met and change, `Regime.lasting` the one in which they only
  grow.
* `Typing.Runs K T x y V` says that whatever `x` gives in `T` is got within the regime `K`, and that
  `y` gives the same, with the same or more steps. The two are mostly the same work with different
  depths.
* `Typing.Terminates K T x V` says that the work `x d`, for all depths `d`, runs in this way and has
  a result from some depth on.
-/

namespace ShapeCheck

variable {α β : Type} {T2 T : Table} {x y : Typing α} {f g : α → Typing β} {n : Nat} {a : α}
  {V : Table → α → Prop} {W : Table → β → Prop} {work : Interning α}

/-- Which tables are met, how they change, in which later tables the same work is done again, and
whether all work ends. Work that settles is always allowed. -/
structure Regime where
  ok : Table → Prop
  grows : Table → Table → Prop
  later : Table → Table → Prop
  ends : Prop
  refl : ∀ T, grows T T
  trans : ∀ {T T1 T2}, grows T T1 → grows T1 T2 → grows T T2
  wellFormed : ∀ {T}, ok T → T.WellFormed
  settles : ∀ {T T1 : Table}, ok T → T1.WellFormed → T.Adds T1 → T1.instances = T.instances →
    ok T1 ∧ grows T T1
  has : ∀ {T T1 t}, grows T T1 → T.Has t → T1.Has t
  shape : ∀ {T T1 t}, grows T T1 → T.Has t → T1.shape t = T.shape t
  later_trans : ∀ {T T1 T2}, grows T T1 → later T1 T2 → later T T2
  later_reach : ∀ {T T1 T2}, later T T1 → grows T1 T2 ∨ later T1 T2 → later T T2
  later_le : ∀ {T T2}, later T T2 → T ≤ T2

namespace Regime

variable {K : Regime} {T1 : Table} {t : Ty}

/-- The table may be met after the first one. -/
def Reach (K : Regime) (T T1 : Table) : Prop := K.grows T T1 ∨ K.later T T1

theorem Reach.refl (K : Regime) (T : Table) : K.Reach T T := .inl (K.refl T)

theorem Reach.trans (h : K.Reach T T1) (h' : K.Reach T1 T2) : K.Reach T T2 := by
  rcases h with h | h
  · rcases h' with h' | h'
    · exact .inl (K.trans h h')
    · exact .inr (K.later_trans h h')
  · exact .inr (K.later_reach h h')

theorem Reach.has (h : K.Reach T T1) (ht : T.Has t) : T1.Has t := by
  rcases h with h | h
  · exact K.has h ht
  · exact Table.has_of_le (K.later_le h) ht

theorem Reach.shape_eq (h : K.Reach T T1) (ht : T.Has t) : T1.shape t = T.shape t := by
  rcases h with h | h
  · exact K.shape h ht
  · exact Table.shape_of_le (K.later_le h) ht

theorem Reach.mem (h : K.Reach T T1) (G : Table.Family) (ht : G.Mem T t) : G.Mem T1 t :=
  G.keep (fun _ hu => h.has hu) (fun _ hu => h.shape_eq hu) ht

end Regime

namespace Typing

section Running

theorem bind_some {b : β} (h : (x >>= f) n T = some (b, T2)) :
    ∃ a T1, x n T = some (a, T1) ∧ f a n T1 = some (b, T2) := by
  change (x n T).bind (fun p => f p.1 n p.2) = _ at h
  obtain ⟨⟨a, T1⟩, ha, hf⟩ := Option.bind_eq_some_iff.mp h
  exact ⟨a, T1, ha, hf⟩

theorem bind_of_some {T1 : Table} (h : x n T = some (a, T1)) : (x >>= f) n T = f a n T1 := by
  change (x n T).bind (fun p => f p.1 n p.2) = _
  rw [h]
  rfl

theorem get_bind (f : Table → Typing α) (n : Nat) (T : Table) : (get >>= f) n T = f T n T := rfl

/-- A filter is the union of the members that pass in the table it meets. -/
theorem lift_filterMembers (t : Ty) (keep : Ty → Bool) (n : Nat) (T : Table) :
    (liftM (t.filterMembers keep) : Typing Ty) n T =
      (liftM (Ty.unionOf ((Ty.splitMembers T t).filter keep)) : Typing Ty) n T := by
  rfl

end Running

/-- What is known of work that gave `a` and left `T1` after at most `n` nested steps. -/
structure RunsAt {α : Type} (K : Regime) (T : Table) (n : Nat) (y : Typing α) (a : α)
    (T1 : Table) : Prop where
  ok : K.ok T1
  grows : K.grows T T1
  more : ∀ m, n ≤ m → y m T = some (a, T1)
  again : ∀ m, n ≤ m → ∀ T2, K.later T1 T2 → y m T2 = some (a, T2)

/-- Whatever `x` gives is of the given kind and keeps to the regime, and `y` gives it too. -/
def Runs {α : Type} (K : Regime) (T : Table) (x y : Typing α) (V : Table → α → Prop) : Prop :=
  ∀ n a T1, x n T = some (a, T1) → RunsAt K T n y a T1 ∧ V T1 a

section Rules

variable {K : Regime}

theorem Runs.imp {W : Table → α → Prop} (h : Runs K T x y V)
    (himp : ∀ a T1, K.ok T1 → K.grows T T1 → V T1 a → W T1 a) : Runs K T x y W := by
  intro n a T1 hx
  obtain ⟨hat, hv⟩ := h n a T1 hx
  exact ⟨hat, himp a T1 hat.ok hat.grows hv⟩

theorem runs_pure (hT : K.ok T) (ha : V T a) : Runs K T (pure a) (pure a) V := by
  intro n b T1 hx
  obtain ⟨rfl, rfl⟩ := Prod.mk.inj (Option.some.inj hx)
  exact ⟨⟨hT, K.refl T, fun _ _ => rfl, fun _ _ _ _ => rfl⟩, ha⟩

theorem runs_outOfSteps : Runs K T outOfSteps y V := by
  intro n a T1 hx
  exact absurd hx (by simp [outOfSteps])

theorem Runs.bind (hx : Runs K T x y V)
    (hf : ∀ a T1, K.ok T1 → K.grows T T1 → V T1 a → Runs K T1 (f a) (g a) W) :
    Runs K T (x >>= f) (y >>= g) W := by
  intro n b T2 hrun
  obtain ⟨a, T1, ha, hb⟩ := bind_some hrun
  obtain ⟨hat, hv⟩ := hx n a T1 ha
  obtain ⟨hbt, hw⟩ := hf a T1 hat.ok hat.grows hv n b T2 hb
  refine ⟨⟨hbt.ok, K.trans hat.grows hbt.grows, ?_, ?_⟩, hw⟩
  · intro m hm
    rw [bind_of_some (hat.more m hm)]
    exact hbt.more m hm
  · intro m hm T3 h3
    rw [bind_of_some (hat.again m hm T3 (K.later_trans hbt.grows h3))]
    exact hbt.again m hm T3 h3

/-- Work that looks at the table, but only at what no later table changes. -/
theorem runs_get_bind {f g : Table → Typing α}
    (hsame : ∀ T2, K.later T T2 → g T2 = g T) (h : Runs K T (f T) (g T) V) :
    Runs K T (get >>= f) (get >>= g) V := by
  intro n a T1 hx
  obtain ⟨hat, hv⟩ := h n a T1 hx
  refine ⟨⟨hat.ok, hat.grows, hat.more, ?_⟩, hv⟩
  intro m hm T2 h2
  change g T2 m T2 = _
  rw [hsame T2 (K.later_trans hat.grows h2)]
  exact hat.again m hm T2 h2

theorem runs_lift (hT : K.ok T)
    (h : Interning.Settles T work V) : Runs K T (liftM work) (liftM work) V := by
  obtain ⟨a, T1, hat, hv⟩ := h
  intro n b T2 hx
  change some (work T) = some (b, T2) at hx
  rw [hat.result] at hx
  obtain ⟨rfl, rfl⟩ := Prod.mk.inj (Option.some.inj hx)
  obtain ⟨hok, hg⟩ := K.settles hT hat.wellFormed hat.adds hat.instances
  refine ⟨⟨hok, hg, fun m _ => congrArg some hat.result, ?_⟩, hv⟩
  intro m _ T3 h3
  exact congrArg some (hat.again T3 (K.later_le h3))

theorem runs_mapM {V : Table → β → Prop} (hT : K.ok T)
    (hup : ∀ b T1 T2, K.grows T1 T2 → V T1 b → V T2 b) (xs : List α)
    (hf : ∀ x ∈ xs, ∀ T1, K.ok T1 → K.grows T T1 → Runs K T1 (f x) (g x) V) :
    Runs K T (xs.mapM f) (xs.mapM g) (fun T1 bs => ∀ b ∈ bs, V T1 b) := by
  induction xs generalizing T with
  | nil => exact runs_pure hT (by simp)
  | cons x xs ih =>
    rw [List.mapM_cons, List.mapM_cons]
    refine (hf x (by simp) T hT (K.refl T)).bind fun b T1 hT1 h1 hb => ?_
    refine (ih hT1 fun y hy T2 hT2 h2 =>
      hf y (List.mem_cons_of_mem _ hy) T2 hT2 (K.trans h1 h2)).bind fun bs T2 hT2 h2 hbs => ?_
    refine runs_pure hT2 fun c hc => ?_
    rcases List.mem_cons.mp hc with rfl | hc
    · exact hup _ T1 T2 h2 hb
    · exact hbs c hc

/-- Work that keeps to the regime, and has a result with enough steps where all work ends. -/
structure Works (K : Regime) (T : Table) (x : Typing α) (V : Table → α → Prop) : Prop where
  runs : Runs K T x x V
  ends : K.ends → ∃ n p, ∀ m, n ≤ m → x m T = some p

theorem works_lift (hT : K.ok T) (h : Interning.Settles T work V) : Works K T (liftM work) V :=
  ⟨runs_lift hT h, fun _ => ⟨0, work T, fun _ _ => rfl⟩⟩

theorem works_get_bind {f : Table → Typing α}
    (hsame : ∀ T2, T ≤ T2 → f T2 = f T) (h : Works K T (f T) V) : Works K T (get >>= f) V :=
  ⟨runs_get_bind (fun T2 h2 => hsame T2 (K.later_le h2)) h.runs, h.ends⟩

theorem works_pure (hT : K.ok T) (ha : V T a) : Works K T (pure a) V :=
  ⟨runs_pure hT ha, fun _ => ⟨0, (a, T), fun _ _ => rfl⟩⟩

/-- Work in at most so many nested steps that keeps to the regime and has a result from some depth
on. -/
structure Terminates (K : Regime) (T : Table) (x : Nat → Typing α)
    (V : Table → α → Prop) : Prop where
  runs : ∀ d d', d ≤ d' → Runs K T (x d) (x d') V
  result : ∃ d p, x d 0 T = some p

theorem Terminates.bind {x : Nat → Typing α} {f : Nat → α → Typing β} (hx : Terminates K T x V)
    (hf : ∀ a T1, K.ok T1 → K.grows T T1 → V T1 a → Terminates K T1 (f · a) W) :
    Terminates K T (fun d => x d >>= f d) W where
  runs d d' hd := (hx.runs d d' hd).bind fun a T1 hT1 h1 ha => (hf a T1 hT1 h1 ha).runs d d' hd
  result := by
    obtain ⟨d1, ⟨a, T1⟩, hrun1⟩ := hx.result
    obtain ⟨hat, ha⟩ := hx.runs d1 d1 (Nat.le_refl d1) 0 a T1 hrun1
    have hrest := hf a T1 hat.ok hat.grows ha
    obtain ⟨d2, ⟨b, T2⟩, hrun2⟩ := hrest.result
    have h1 := (hx.runs d1 (max d1 d2) (by omega) 0 a T1 hrun1).1.more 0 (Nat.le_refl 0)
    have h2 := (hrest.runs d2 (max d1 d2) (by omega) 0 b T2 hrun2).1.more 0 (Nat.le_refl 0)
    refine ⟨max d1 d2, (b, T2), ?_⟩
    rw [bind_of_some h1]
    exact h2

theorem terminates_pure (hT : K.ok T) (ha : V T a) : Terminates K T (fun _ => pure a) V :=
  ⟨fun _ _ _ => runs_pure hT ha, 0, (a, T), rfl⟩

theorem terminates_lift (hT : K.ok T)
    (h : Interning.Settles T work V) : Terminates K T (fun _ => liftM work) V :=
  ⟨fun _ _ _ => runs_lift hT h, 0, work T, rfl⟩

theorem terminates_mapM {f : Nat → α → Typing β} {V : Table → β → Prop} (hT : K.ok T)
    (hup : ∀ b T1 T2, K.grows T1 T2 → V T1 b → V T2 b) (xs : List α)
    (hf : ∀ x ∈ xs, ∀ T1, K.ok T1 → K.grows T T1 → Terminates K T1 (f · x) V) :
    Terminates K T (fun d => xs.mapM (f d)) (fun T1 bs => ∀ b ∈ bs, V T1 b) := by
  induction xs generalizing T with
  | nil => exact terminates_pure hT (by simp)
  | cons x xs ih =>
    simp only [List.mapM_cons]
    refine (hf x (by simp) T hT (K.refl T)).bind fun b T1 hT1 h1 hb => ?_
    refine (ih hT1 fun y hy T2 hT2 h2 =>
      hf y (List.mem_cons_of_mem _ hy) T2 hT2 (K.trans h1 h2)).bind fun bs T2 hT2 h2 hbs => ?_
    refine terminates_pure hT2 fun c hc => ?_
    rcases List.mem_cons.mp hc with rfl | hc
    · exact hup _ T1 T2 h2 hb
    · exact hbs c hc

/-- A result at one depth below is a result. -/
theorem terminates_of_succ {x : Nat → Typing α}
    (hruns : ∀ d d', d ≤ d' → Runs K T (x d) (x d') V) (h : ∃ d p, x (d + 1) 0 T = some p) :
    Terminates K T x V := by
  obtain ⟨d, p, hp⟩ := h
  exact ⟨hruns, d + 1, p, hp⟩

end Rules

end Typing

end ShapeCheck
