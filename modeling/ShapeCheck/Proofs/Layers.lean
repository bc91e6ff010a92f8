import ShapeCheck.Proofs.LastingFits
import ShapeCheck.Proofs.Recalling
import ShapeCheck.Proofs.Stability

/-!
# One layer of the rules

What a layer of the rules asks about a pair of types follows from the shapes of the two: a reference
is replaced by what it stands for, a union as the source by all its members, a union as the target
by one of them, and so on. For a relation on types this says when the rules confirm a pair by it,
case by case.

* `Assign.Confirms` says that some work gives `true`.
* `Assign.unfolds_source`, `Assign.unfolds_target` and so on are the cases, `Assign.Lasts.resolved`
  and so on what they say of a pair that fits from some table on.
-/

namespace ShapeCheck

variable {T : Table} {t q u : Ty} {b assumed : Bool} {n i : Nat} {compare inner : Compare}
  {e : Enumeration}

/-- The shapes that a target is taken with as it is: no union, intersection or reference, whose
parts are taken instead, and no enum or enum member, which have rules of their own. -/
def Shape.isTaken : Shape → Bool
  | .union _ | .intersection _ | .reference _ _ | .enumeration _ | .enumMember _ _ _ => false
  | _ => true

/-- The shapes of primitives and literals. -/
def Shape.isAtom : Shape → Bool
  | .primitive _ | .literal _ => true
  | _ => false

/-- What is neither a primitive nor a literal has an entry. -/
theorem Table.exists_made (h : (T.shape t).isAtom = false) : ∃ i, t = .made i := by
  cases t with
  | made i => exact ⟨i, rfl⟩
  | prim | truth => simp [Table.shape, Shape.isAtom] at h

/-- A union has its members. -/
theorem Table.members_of_union {ms : List Ty} (h : T.shape t = .union ms) : T.members t = ms := by
  rw [Table.members, h]

/-- Work that always ends takes no steps. -/
theorem Typing.lift_of_eq {α : Type} {work : Interning α} {T1 : Table} {a : α}
    (h : work T = (a, T1)) (n : Nat) : (liftM work : Typing α) n T = some (a, T1) :=
  congrArg some h

namespace Assign

/-! ## Work that gives `true` -/

/-- With enough steps the work gives `true`. -/
def Confirms (T : Table) (x : Typing Bool) : Prop := ∃ n T1, ∀ m, n ≤ m → x m T = some (true, T1)

section Work

variable {R : Table → Ty → Ty → Prop} {T1 : Table} {α : Type}

theorem confirms_pure : Confirms T (pure b) ↔ b = true := by
  constructor
  · rintro ⟨n, T1, hrun⟩
    exact congrArg Prod.fst (Option.some.inj (hrun n (Nat.le_refl n)))
  · rintro rfl
    exact ⟨0, T, fun _ _ => rfl⟩

/-- Work goes on where its first part leads. -/
theorem confirms_bind {x : Typing α} {f : α → Typing Bool} {a : α}
    (hx : ∀ m, n ≤ m → x m T = some (a, T1)) : Confirms T (x >>= f) ↔ Confirms T1 (f a) := by
  constructor
  · rintro ⟨k, T2, hrun⟩
    refine ⟨max n k, T2, fun m hm => ?_⟩
    rw [← hrun m (by omega), Typing.bind_of_some (hx m (by omega))]
  · rintro ⟨k, T2, hrun⟩
    refine ⟨max n k, T2, fun m hm => ?_⟩
    rw [Typing.bind_of_some (hx m (by omega))]
    exact hrun m (by omega)

theorem confirms_get {f : Table → Typing Bool} : Confirms T (get >>= f) ↔ Confirms T (f T) :=
  Iff.rfl

theorem asking_eq (R : Table → Ty → Ty → Prop) (T : Table) (a b : Ty) (n : Nat) :
    asking R a b n T = some (truthOf R T a b, T) := rfl

theorem truthOf_iff {a b : Ty} : truthOf R T a b = true ↔ R T a b := by
  simp [truthOf]

theorem confirms_ask {a b : Ty} : Confirms T (asking R a b) ↔ R T a b :=
  (confirms_pure (T := T) (b := truthOf R T a b)).trans truthOf_iff

theorem confirms_all (test : α → Ty × Ty) (xs : List α) :
    Confirms T (all (fun x => asking R (test x).1 (test x).2) xs) ↔
      ∀ x ∈ xs, R T (test x).1 (test x).2 := by
  induction xs with
  | nil =>
    unfold all
    simp [confirms_pure]
  | cons x xs ih =>
    unfold all
    rw [confirms_bind fun m (_ : 0 ≤ m) => asking_eq R T (test x).1 (test x).2 m,
      List.forall_mem_cons, ← ih, ← truthOf_iff (R := R)]
    cases truthOf R T (test x).1 (test x).2 with
    | true => simp
    | false => simp [confirms_pure]

theorem confirms_any (test : α → Ty × Ty) (xs : List α) :
    Confirms T (any (fun x => asking R (test x).1 (test x).2) xs) ↔
      ∃ x ∈ xs, R T (test x).1 (test x).2 := by
  induction xs with
  | nil =>
    unfold any
    simp [confirms_pure]
  | cons x xs ih =>
    unfold any
    rw [confirms_bind fun m (_ : 0 ≤ m) => asking_eq R T (test x).1 (test x).2 m,
      List.exists_mem_cons_iff, ← ih, ← truthOf_iff (R := R)]
    cases truthOf R T (test x).1 (test x).2 with
    | true => simp [confirms_pure]
    | false => simp

end Work

end Assign

/-! ## What a type stands for -/

namespace Table

/-- The type stands for another one: it resolves to that, and nothing remains to be done. -/
def ResolvesTo (T : Table) (t r : Ty) : Prop := ∃ n, ∀ m, n ≤ m → t.resolve m T = some (r, T)

variable {T1 : Table} {r : Ty}

/-- Every type of a table whose aliases are resolved comes to stand for one. -/
theorem Sound.exists_resolvesTo (hT : T.Sound) (ht : T.Has t) :
    ∃ n r T1, (∀ m, n ≤ m → t.resolve m T = some (r, T1)) ∧ T1.Sound ∧ T ≤ T1 ∧ T1.Has r ∧
      T1.ResolvesTo t r := by
  obtain ⟨n, ⟨r, T1⟩, hrun⟩ := Ty.resolve_ends hT ht
  obtain ⟨hat, hr⟩ := Ty.lasting_resolve hT ht n r T1 (hrun n (Nat.le_refl n))
  exact ⟨n, r, T1, hrun, hat.ok, hat.grows.le, hr, n, fun m hm => hat.again m hm T1 (le_refl T1)⟩

theorem ResolvesTo.of_le (h : T.ResolvesTo t r) (hT : T.Sound) (ht : T.Has t) (hle : T ≤ T1) :
    T1.ResolvesTo t r := by
  obtain ⟨n, hrun⟩ := h
  obtain ⟨hat, -⟩ := Ty.lasting_resolve hT ht n r T (hrun n (Nat.le_refl n))
  exact ⟨n, fun m hm => hat.again m hm T1 hle⟩

theorem ResolvesTo.has (h : T.ResolvesTo t r) (hT : T.Sound) (ht : T.Has t) : T.Has r := by
  obtain ⟨n, hrun⟩ := h
  exact (Ty.lasting_resolve hT ht n r T (hrun n (Nat.le_refl n))).2

theorem ResolvesTo.unique (h : T.ResolvesTo t r) (h' : T.ResolvesTo t q) : r = q := by
  obtain ⟨n, hr⟩ := h
  obtain ⟨m, hq⟩ := h'
  have heq := (hr (max n m) (by omega)).symm.trans (hq (max n m) (by omega))
  exact (Prod.mk.inj (Option.some.inj heq)).1

theorem resolvesTo_of_closed (h : Ty.hasOpenHead T t = false) : T.ResolvesTo t t :=
  ⟨0, fun m _ => Ty.resolve_closed m h⟩

theorem Resolved.operated (h : T.Resolved) : Relation.ReflTransGen Operated {} T := by
  induction h with
  | start hprep hrun => exact hprep.operated.tail (.resolveAll hrun)
  | call _ hcall ih => exact ih.tail (.call hcall)
  | rebind _ _ hbind ih => exact ih.tail (.rebind hbind)
  | freeze _ ih => exact ih.tail .freeze

/-- A resolved type has nothing at its head to be resolved again. -/
theorem Resolved.closed_resolve (h : T.Resolved) (ht : T.Has t)
    (hrun : t.resolve n T = some (r, T1)) : Ty.hasOpenHead T1 r = false := by
  cases hopen : Ty.hasOpenHead T t with
  | false =>
    rw [Ty.resolve_closed n hopen] at hrun
    obtain ⟨rfl, rfl⟩ := Prod.mk.inj (Option.some.inj hrun)
    exact hopen
  | true =>
    have hok : Recalling .closed T T :=
      ⟨h.truthful.sound.wellFormed, .refl T, recalls_of_operations h.operated⟩
    obtain ⟨-, -, hclosed⟩ := ((resolves_closed T).works hok ht).runs n r T1 hrun
    exact (hclosed hopen).hasOpenHead

/-- What a type was resolved to it stands for from then on. -/
theorem Sound.resolvesTo (h : T.Sound) (ht : T.Has t)
    (hrun : t.resolve n T = some (r, T1)) : T1.ResolvesTo t r :=
  let ⟨hat, _⟩ := Ty.lasting_resolve h ht n r T1 hrun
  ⟨n, fun m hm => hat.again m hm T1 (le_refl T1)⟩

end Table

namespace Assign

/-! ## The cases of a layer -/

section Layers

variable {R : Table → Ty → Ty → Prop} {T1 : Table} {s r : Ty} {ms : List Ty}

theorem unfolds_iff : Unfolds R T s t ↔ Confirms T (step false (asking R) (asking R) s t) := Iff.rfl

theorem unfolds_byIdentity (h : byIdentity s t = some b) : Unfolds R T s t ↔ b = true := by
  rw [unfolds_iff, ← confirms_pure (T := T)]
  unfold step
  rw [h]

variable (hid : byIdentity s t = none)
include hid

/-- A reference as the source is replaced by what it stands for. -/
theorem unfolds_source (hs : (T.shape s).isReference = true)
    (hrun : ∀ m, n ≤ m → s.resolve m T = some (r, T1)) : Unfolds R T s t ↔ R T1 r t := by
  rw [← confirms_ask (R := R), ← confirms_bind (f := fun r => asking R r t) hrun, unfolds_iff]
  unfold step
  rw [hid]
  dsimp only
  rw [confirms_get]
  cases hshape : T.shape s with
  | reference => rfl
  | _ => simp [hshape, Shape.isReference] at hs

/-- A reference as the target is replaced by what it stands for, unless the source is one too. -/
theorem unfolds_target (hs : (T.shape s).isReference = false)
    (ht : (T.shape t).isReference = true)
    (hrun : ∀ m, n ≤ m → t.resolve m T = some (r, T1)) : Unfolds R T s t ↔ R T1 s r := by
  rw [← confirms_ask (R := R), ← confirms_bind (f := fun r => asking R s r) hrun, unfolds_iff]
  unfold step
  rw [hid]
  dsimp only
  rw [confirms_get]
  cases hshape : T.shape t with
  | reference =>
    cases hsource : T.shape s with
    | reference => simp [hsource, Shape.isReference] at hs
    | _ => rfl
  | _ => simp [hshape, Shape.isReference] at ht

/-- All members of a union as the source are compared. -/
theorem unfolds_sourceUnion (hs : T.shape s = .union ms)
    (ht : (T.shape t).isReference = false) : Unfolds R T s t ↔ ∀ m ∈ ms, R T m t := by
  rw [← confirms_all (fun m => (m, t)), unfolds_iff]
  unfold step
  rw [hid]
  dsimp only
  rw [confirms_get, hs]
  cases hshape : T.shape t with
  | reference => simp [hshape, Shape.isReference] at ht
  | _ => rfl

/-- An intersection as the source is replaced by what it stands for, if that is another type. -/
theorem unfolds_sourceIntersection (hs : T.shape s = .intersection ms)
    (ht : (T.shape t).isReference = false) (hrun : ∀ m, n ≤ m → s.resolve m T = some (r, T1)) :
    Unfolds R T s t ↔
      if r = s then Confirms T1 (stepResolved false (asking R) (asking R) s t) else R T1 r t := by
  have hbranches : Unfolds R T s t ↔ Confirms T (s.resolve >>= fun r =>
      if r = s then stepResolved false (asking R) (asking R) s t else asking R r t) := by
    rw [unfolds_iff]
    unfold step
    rw [hid]
    dsimp only
    rw [confirms_get, hs]
    cases hshape : T.shape t with
    | reference => simp [hshape, Shape.isReference] at ht
    | _ => rfl
  rw [hbranches, confirms_bind hrun]
  split_ifs
  · rfl
  · exact confirms_ask

/-- A source with nothing to resolve, and no union, is compared as it is, whatever is assumed. -/
theorem step_resolved
    (hs : Ty.hasOpenHead T s = false) (hunion : ¬(T.shape s).IsUnion)
    (ht : (T.shape t).isReference = false) (m : Nat) :
    step assumed compare inner s t m T = stepResolved assumed compare inner s t m T := by
  unfold step
  rw [hid]
  dsimp only
  rw [Typing.get_bind]
  cases hsource : T.shape s with
  | reference => simp [Ty.hasOpenHead, hsource] at hs
  | union ks => exact absurd ⟨ks, hsource⟩ hunion
  | intersection ks =>
    have hclosed := Typing.bind_of_some (f := fun r => if r = s then
      stepResolved assumed compare inner s t else if assumed then return true else inner r t)
      (Ty.resolve_closed m hs)
    rw [if_pos rfl] at hclosed
    cases hshape : T.shape t with
    | reference => simp [hshape, Shape.isReference] at ht
    | _ => exact hclosed
  | _ =>
    cases hshape : T.shape t with
    | reference => simp [hshape, Shape.isReference] at ht
    | _ => rfl

omit hid

section Closed

variable (hid : byIdentity s t = none) (hs : Ty.hasOpenHead T s = false)
  (hunion : ¬(T.shape s).IsUnion)

include hid hs hunion

theorem unfolds_resolved (ht : (T.shape t).isReference = false) :
    Unfolds R T s t ↔ Confirms T (stepResolved false (asking R) (asking R) s t) := by
  unfold Unfolds Confirms
  simp only [step_resolved hid hs hunion ht]

/-- The members of a union as the target are tried one after the other. -/
theorem step_targetUnion (ht : T.shape t = .union ms) (hne : s ≠ .boolean) (m : Nat) :
    step assumed compare inner s t m T = any (compare s) ms m T := by
  rw [step_resolved hid hs hunion (by rw [ht]; rfl)]
  unfold stepResolved toEnum
  rw [Typing.get_bind]
  simp [ht, hne]

/-- One member of a union as the target is enough; the halves of `boolean` are enough together. -/
theorem unfolds_targetUnion (ht : T.shape t = .union ms) : Unfolds R T s t ↔
    (s = .boolean ∧ .truth true ∈ ms ∧ .truth false ∈ ms) ∨ ∃ m ∈ ms, R T s m := by
  rw [unfolds_resolved hid hs hunion (by rw [ht]; rfl), ← confirms_any (fun m => (s, m))]
  unfold stepResolved toEnum
  rw [confirms_get]
  simp only [ht]
  split_ifs with hboolean
  · simp_all [confirms_pure]
  · refine (or_iff_right fun h => hboolean ?_).symm
    simpa [and_assoc] using h

/-- All members of an intersection as the target are compared. -/
theorem unfolds_targetIntersection (ht : T.shape t = .intersection ms) :
    Unfolds R T s t ↔ ∀ m ∈ ms, R T s m := by
  rw [unfolds_resolved hid hs hunion (by rw [ht]; rfl), ← confirms_all (fun m => (s, m))]
  unfold stepResolved toEnum
  rw [confirms_get]
  simp only [ht]

end Closed

section Taken

variable (hid : byIdentity s t = none) (ht : (T.shape t).isTaken = true)

include ht

theorem toEnum_of_isTaken : toEnum T s t = none := by
  unfold toEnum
  cases hshape : T.shape t <;> simp_all [Shape.isTaken]

theorem not_isReference_of_isTaken : (T.shape t).isReference = false := by
  cases hshape : T.shape t <;> simp_all [Shape.isTaken, Shape.isReference]

/-- One member of an intersection as the source is enough. -/
theorem confirms_intersection (hs : T.shape s = .intersection ms) :
    Confirms T (stepResolved false (asking R) (asking R) s t) ↔ ∃ m ∈ ms, R T m t := by
  rw [← confirms_any (fun m => (m, t))]
  unfold stepResolved
  rw [confirms_get, toEnum_of_isTaken ht]
  cases hshape : T.shape t with
  | union | intersection => simp [hshape, Shape.isTaken] at ht
  | _ => simp only [hs]

include hid

/-- An enum member is compared by its value. -/
theorem unfolds_enumMember {enum v : Ty} {name : String}
    (hs : T.shape s = .enumMember enum name v) :
    Unfolds R T s t ↔ R T v t := by
  have hclosed : Ty.hasOpenHead T s = false := by rw [Ty.hasOpenHead, hs]
  rw [unfolds_resolved hid hclosed (by simp [hs, Shape.IsUnion]) (not_isReference_of_isTaken ht),
    ← confirms_ask (R := R)]
  unfold stepResolved
  rw [confirms_get, toEnum_of_isTaken ht]
  cases hshape : T.shape t with
  | union | intersection => simp [hshape, Shape.isTaken] at ht
  | _ => simp only [hs]

/-- An enum is compared by the union of its values, whatever is assumed. -/
theorem step_enumeration
    (hs : T.shape s = .enumeration e) (hrun : Ty.valueUnion e T = (u, T1)) (m : Nat) :
    step assumed compare inner s t m T = compare u t m T1 := by
  have hclosed : Ty.hasOpenHead T s = false := by rw [Ty.hasOpenHead, hs]
  rw [← Typing.bind_of_some (f := fun u => compare u t) (Typing.lift_of_eq hrun m),
    step_resolved hid hclosed (by simp [hs, Shape.IsUnion]) (not_isReference_of_isTaken ht)]
  unfold stepResolved
  rw [Typing.get_bind, toEnum_of_isTaken ht]
  cases hshape : T.shape t with
  | union | intersection => simp [hshape, Shape.isTaken] at ht
  | _ => simp only [hs]

theorem unfolds_enumeration (hs : T.shape s = .enumeration e)
    (hrun : Ty.valueUnion e T = (u, T1)) : Unfolds R T s t ↔ R T1 u t := by
  rw [← confirms_ask (R := R)]
  unfold Unfolds Confirms
  simp only [step_enumeration hid ht hs hrun]

/-- A type parameter is compared by its bound. -/
theorem unfolds_parameter {v : TypeVar} (hs : T.shape s = .parameter v) :
    Unfolds R T s t ↔ R T ((T.typeVar v).bound.getD .unknown) t := by
  have hclosed : Ty.hasOpenHead T s = false := by rw [Ty.hasOpenHead, hs]
  rw [unfolds_resolved hid hclosed (by simp [hs, Shape.IsUnion]) (not_isReference_of_isTaken ht),
    ← confirms_ask (R := R)]
  unfold stepResolved
  rw [confirms_get, toEnum_of_isTaken ht]
  cases hshape : T.shape t with
  | union | intersection => simp [hshape, Shape.isTaken] at ht
  | _ => simp only [hs]

end Taken

end Layers

/-! ## What follows of a pair that fits -/

section Identity

variable {s r : Ty}

theorem byIdentity_true : byIdentity s t = some true ↔ s = t ∨ s = .any ∨ t = .any ∨ s = .invalid ∨
    t = .invalid ∨ t = .unknown ∨ s = .never := by
  unfold byIdentity
  by_cases h : s = .never
  · subst h
    split_ifs <;> simp_all
  · split_ifs <;> grind

theorem byIdentity_false (h : byIdentity s t = some false) : s = .unknown ∨ t = .never := by
  unfold byIdentity at h
  split_ifs at h <;> simp_all

/-- A target that is no primitive is not one of the types that everything fits. -/
theorem byIdentity_true_made {j : Nat} (h : byIdentity s (.made j) = some true) (hne : s ≠ .made j)
    (r : Ty) : byIdentity s r = some true := by
  rw [byIdentity_true] at h ⊢
  simp only [Ty.any, Ty.invalid, Ty.unknown, reduceCtorEq, false_or, hne] at h ⊢
  grind

/-- A source that is no primitive is not one of the types that fit everything. -/
theorem byIdentity_made_true (h : byIdentity (.made i) t = some true) (hne : .made i ≠ t)
    (r : Ty) : byIdentity r t = some true := by
  rw [byIdentity_true] at h ⊢
  simp only [Ty.any, Ty.invalid, Ty.never, reduceCtorEq, false_or, or_false, hne] at h ⊢
  grind

/-- A source that is no primitive fits or is compared, unless the target is `never`. -/
theorem byIdentity_made (hne : t ≠ .never) :
    byIdentity (.made i) t = some true ∨ byIdentity (.made i) t = none := by
  cases h : byIdentity (.made i) t with
  | none => exact .inr rfl
  | some b =>
    cases b with
    | true => exact .inl rfl
    | false => exact absurd (byIdentity_false h) (by simp [hne, Ty.unknown])

end Identity

theorem exists_made_of_isReference (h : (T.shape t).isReference = true) : ∃ i, t = .made i := by
  refine Table.exists_made (T := T) ?_
  cases hs : T.shape t <;> simp_all [Shape.isReference, Shape.isAtom]

section Plain

theorem not_isUnion_of_isPlain (h : (T.shape t).isPlain = true) : ¬(T.shape t).IsUnion := by
  rintro ⟨ms, hms⟩
  simp [hms, Shape.isPlain] at h

theorem not_isReference_of_isPlain (h : (T.shape t).isPlain = true) :
    (T.shape t).isReference = false := by
  cases hs : T.shape t <;> simp_all [Shape.isPlain, Shape.isReference]

end Plain

section Lasting

variable {T1 : Table} {s r m : Ty} {ms : List Ty}

theorem Lasts.not_false (h : Lasts T s t) (hT : T.Sound) : byIdentity s t ≠ some false := by
  intro hid
  have := (unfolds_byIdentity hid).mp (h.unfolds hT fun _ _ _ => id)
  simp at this

/-- What a type other than a reference fits, it still fits once it is resolved. -/
theorem Lasts.resolved (h : Lasts T s t) (hT : T.Sound) (hs : (T.shape s).isReference = false)
    (ht : (T.shape t).isReference = true) (hr : T.ResolvesTo t r) : Lasts T s r := by
  have hne : s ≠ t := by
    rintro rfl
    simp [hs] at ht
  obtain ⟨j, rfl⟩ := exists_made_of_isReference ht
  cases hid : byIdentity s (.made j) with
  | none =>
    obtain ⟨n, hrun⟩ := hr
    exact (unfolds_target hid hs ht hrun).mp (h.unfolds hT fun _ _ _ => id)
  | some b =>
    cases b with
    | false => exact absurd hid (h.not_false hT)
    | true => exact lasts_of_byIdentity (byIdentity_true_made hid hne r) T

theorem not_isReference_of_closed (h : Ty.hasOpenHead T t = false) :
    (T.shape t).isReference = false := by
  unfold Ty.hasOpenHead at h
  cases hs : T.shape t <;> simp_all [Shape.isReference]

/-- What fits still fits when both types are resolved, if the target is a reference or resolved
already. -/
theorem Lasts.resolves (h : Lasts T s t) (hT : T.Sound) (hr : T.ResolvesTo s r)
    (hq : T.ResolvesTo t q) (hrclosed : Ty.hasOpenHead T r = false)
    (hqclosed : Ty.hasOpenHead T q = false) (ht : (T.shape t).isReference = true ∨ t = q) :
    Lasts T r q := by
  by_cases heq : s = t
  · subst heq
    exact hr.unique hq ▸ lasts_self T r
  have hreplaced {u : Ty} (hu : (T.shape u).isReference = false)
    (hut : Lasts T u t) : Lasts T u q := by
    rcases ht with ht | rfl
    · exact hut.resolved hT hu ht hq
    · exact hut
  obtain ⟨n, hrun⟩ := hr
  cases href : (T.shape s).isReference with
  | true =>
    refine hreplaced (not_isReference_of_closed hrclosed) ?_
    obtain ⟨i, rfl⟩ := exists_made_of_isReference href
    cases hid : byIdentity (.made i) t with
    | none => exact (unfolds_source hid href hrun).mp (h.unfolds hT fun _ _ _ => id)
    | some b =>
      cases b with
      | false => exact absurd hid (h.not_false hT)
      | true => exact lasts_of_byIdentity (byIdentity_made_true hid heq r) T
  | false =>
    have hsq := hreplaced href h
    cases hopen : Ty.hasOpenHead T s with
    | false =>
      have hsame := hrun n (Nat.le_refl n)
      rw [Ty.resolve_closed n hopen] at hsame
      obtain ⟨rfl, -⟩ := Prod.mk.inj (Option.some.inj hsame)
      exact hsq
    | true =>
      obtain ⟨ms, hms⟩ : ∃ ms, T.shape s = .intersection ms := by
        unfold Ty.hasOpenHead at hopen
        cases hs : T.shape s <;> simp_all [Shape.isReference]
      obtain ⟨i, rfl⟩ := Table.exists_made (T := T) (t := s) (by rw [hms]; rfl)
      have hne : Ty.made i ≠ q := by
        rintro rfl
        simp [hopen] at hqclosed
      cases hid : byIdentity (.made i) q with
      | none =>
        have hunfolds := (unfolds_sourceIntersection hid hms (not_isReference_of_closed hqclosed)
          hrun).mp (hsq.unfolds hT fun _ _ _ => id)
        rwa [if_neg] at hunfolds
        rintro rfl
        simp [hopen] at hrclosed
      | some b =>
        cases b with
        | false => exact absurd hid (hsq.not_false hT)
        | true => exact lasts_of_byIdentity (byIdentity_made_true hid hne r) T

/-- A union fits what all its members fit, unless it is resolved first. -/
theorem Lasts.sourceMember (h : Lasts T s t) (hT : T.Sound) (hs : T.shape s = .union ms)
    (ht : (T.shape t).isReference = false) (hne : s ≠ t) (hm : m ∈ ms) : Lasts T m t := by
  obtain ⟨i, rfl⟩ := Table.exists_made (T := T) (t := s) (by rw [hs]; rfl)
  cases hid : byIdentity (.made i) t with
  | none => exact (unfolds_sourceUnion hid hs ht).mp (h.unfolds hT fun _ _ _ => id) m hm
  | some b =>
    cases b with
    | false => exact absurd hid (h.not_false hT)
    | true => exact lasts_of_byIdentity (byIdentity_made_true hid hne m) T

/-- What fits an intersection fits its members. -/
theorem Lasts.targetMember (h : Lasts T s t) (hT : T.Sound) (hs : (T.shape s).isPlain = true)
    (ht : T.shape t = .intersection ms) (hm : m ∈ ms) : Lasts T s m := by
  obtain ⟨j, rfl⟩ := Table.exists_made (T := T) (t := t) (by rw [ht]; rfl)
  have hne : s ≠ .made j := by
    rintro rfl
    simp [ht, Shape.isPlain] at hs
  cases hid : byIdentity s (.made j) with
  | none =>
    exact (unfolds_targetIntersection hid (Ty.hasOpenHead_of_isPlain hs) (not_isUnion_of_isPlain hs)
      ht).mp (h.unfolds hT fun _ _ _ => id) m hm
  | some b =>
    cases b with
    | false => exact absurd hid (h.not_false hT)
    | true => exact lasts_of_byIdentity (byIdentity_true_made hid hne m) T

end Lasting

end Assign

end ShapeCheck
