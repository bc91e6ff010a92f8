import ShapeCheck.Proofs.FirstOrder

/-!
# Substitution rids a type of its parameters

A type avoids some type parameters if neither it nor a type nested in it refers to one of them or
declares one; an enum among these types has members of its own. What the constructors make of types
that avoid them does so too, also where objects are merged and members are dropped. A substitution
whose images avoid the parameters therefore rids a type of those that it binds, wherever they stand,
as long as they stand where a substitution reaches: it goes through every type but a class as a
value.

* `Table.Avoids` and `Table.Clears` are the two notions.
* `Interning.settles_unionOf_avoiding` and `Interning.settles_intersectionAt_avoiding` are about
  unions and intersections.
* `Interning.settles_substitute_avoiding` and `Interning.settles_substituteCallable_avoiding` are
  about substitutions.
-/

namespace ShapeCheck

variable {s : Shape} {R : Ty → Ty → Prop} {t : Ty} {c : Callable} {dropped : TypeVar → Bool}

namespace Shape

/-- The type parameters that a shape names itself: the one that it refers to, or those that it
declares. -/
def ownVars : Shape → List TypeVar
  | parameter v => [v]
  | function c => c.typeParams
  | _ => []

/-- The shapes that a substitution takes apart and puts together again. -/
def isRebuilt : Shape → Bool
  | union _ | intersection _ | object _ | array _ _ | tuple _ | function _ | reference _ _ => true
  | _ => false

/-- Whether the shape comes from the definition of an enum. -/
def isEnum : Shape → Bool
  | enumeration _ | enumMember _ _ _ => true
  | _ => false

theorem isEnumMember_eq_false (h : s.isEnum = false) : s.isEnumMember = false := by
  cases s <;> first | rfl | exact absurd h (by simp [isEnum])

theorem ownVars_eq_of_alike {t : Shape} (h : s.Alike R t) : s.ownVars = t.ownVars := by
  have hkind := kind_eq_of_alike h
  cases s <;> cases t <;> try exact absurd hkind (Nat.ne_of_beq_eq_false rfl)
  case parameter.parameter => exact congrArg (fun v => [v]) h
  case function.function => exact Callable.Alike.typeParams h
  all_goals rfl

theorem isEnum_eq_of_alike {t : Shape} (h : s.Alike R t) : s.isEnum = t.isEnum := by
  have hkind := kind_eq_of_alike h
  cases s <;> cases t <;> first | rfl | exact absurd hkind (Nat.ne_of_beq_eq_false rfl)

theorem mem_parts_of_mem_mentionParts {p : Ty} (h : p ∈ Ty.mentionParts s) : p ∈ s.parts := by
  cases s with
  | function c =>
    simp only [Ty.mentionParts, parts, List.mem_append] at h ⊢
    rcases h with (h | h) | h
    · exact .inl (.inl (.inl h))
    · exact .inl (.inl (.inr h))
    · exact .inr h
  | enumMember _ _ _ => exact absurd h (by simp [Ty.mentionParts])
  | classValue _ _ _ => exact absurd h (by simp [Ty.mentionParts])
  | _ => exact h

end Shape

namespace Table

variable {T T1 : Table} {vars bound : List TypeVar} {m : Ty} {ts : List Ty}

/-- If the type is an enum, its members belong to it. -/
def Enrolls (T : Table) (t : Ty) : Prop :=
  ∀ e, T.shape t = .enumeration e → ∀ m ∈ e.members, ∃ name v, T.shape m = .enumMember t name v

/-- Neither the type nor a type nested in it refers to one of the parameters or declares one. -/
inductive Avoids (T : Table) (vars : List TypeVar) : Ty → Prop
  | intro {t : Ty} (has : T.Has t) (free : ∀ v ∈ (T.shape t).ownVars, v ∉ vars)
      (enrolls : T.Enrolls t)
    (parts : ∀ p ∈ (T.shape t).parts, Avoids T vars p) : Avoids T vars t

theorem enrolls_of_isEnum (h : (T.shape t).isEnum = false) : T.Enrolls t := by
  intro e hs
  rw [hs] at h
  exact absurd h (by simp [Shape.isEnum])

theorem Enrolls.of_shapes (h : T.Enrolls t) (ht : T.Has t)
    (hshape : ∀ u, T.Has u → T1.shape u = T.shape u) : T1.Enrolls t := by
  intro e hs m hm
  obtain ⟨name, v, hmember⟩ := h e ((hshape t ht).symm.trans hs) m hm
  exact ⟨name, v, (hshape m (has_of_shape (by simp [hmember]))).trans hmember⟩

theorem Avoids.has (h : T.Avoids vars t) : T.Has t := by
  cases h with
  | intro has _ _ _ => exact has

theorem Avoids.free (h : T.Avoids vars t) : ∀ v ∈ (T.shape t).ownVars, v ∉ vars := by
  cases h with
  | intro _ free _ _ => exact free

theorem Avoids.enrolls (h : T.Avoids vars t) : T.Enrolls t := by
  cases h with
  | intro _ _ enrolls _ => exact enrolls

theorem Avoids.parts (h : T.Avoids vars t) : ∀ p ∈ (T.shape t).parts, T.Avoids vars p := by
  cases h with
  | intro _ _ _ parts => exact parts

theorem Avoids.of_shapes (h : T.Avoids vars t) (hhas : ∀ u, T.Has u → T1.Has u)
    (hshape : ∀ u, T.Has u → T1.shape u = T.shape u) : T1.Avoids vars t := by
  induction h with
  | @intro t has free enrolls parts ih =>
    have hs := hshape t has
    exact .intro (hhas t has) (by rwa [hs]) (enrolls.of_shapes has hshape) (by rwa [hs])

/-- The types that avoid the parameters. -/
def Family.avoiding (vars : List TypeVar) : Family :=
  ⟨fun T t => T.Avoids vars t, Avoids.has, fun hhas hshape h => h.of_shapes hhas hshape⟩

theorem Avoids.of_le (h : T.Avoids vars t) (hle : T ≤ T1) : T1.Avoids vars t :=
  (Family.avoiding vars).of_le hle h

/-- A type without parameters and parts avoids every parameter. -/
theorem avoids_of_plain (ht : T.Has t) (hvars : (T.shape t).ownVars = [])
    (hplain : (T.shape t).isEnum = false) (hparts : (T.shape t).parts = []) : T.Avoids vars t :=
  .intro ht (by simp [hvars]) (enrolls_of_isEnum hplain) (by simp [hparts])

theorem avoids_prim (T : Table) (vars : List TypeVar) (p : Primitive) : T.Avoids vars (.prim p) :=
  avoids_of_plain (T.has_prim p) rfl rfl rfl

theorem avoids_truth (T : Table) (vars : List TypeVar) (b : Bool) : T.Avoids vars (.truth b) :=
  avoids_of_plain (T.has_truth b) rfl rfl rfl

/-- A literal avoids every parameter. -/
theorem avoids_literal {l : Literal} (hs : T.shape t = .literal l) : T.Avoids vars t :=
  avoids_of_plain (has_of_shape (by simp [hs])) (by simp [hs, Shape.ownVars])
  (by simp [hs, Shape.isEnum])
    (by simp [hs, Shape.parts])

/-- The members of an enum avoid what the enum avoids. -/
theorem Avoids.enumMember (h : T.Avoids vars t) (hT : T.WellFormed) {e : Enumeration}
    (hs : T.shape t = .enumeration e) (hm : m ∈ e.members) : T.Avoids vars m := by
  obtain ⟨name, v, hmember⟩ := h.enrolls e hs m hm
  have hhas : T.Has m := has_of_shape (by simp [hmember])
  have hv : T.Avoids vars v := by
    obtain ⟨-, hliteral⟩ := Assign.value_spec hT hhas (v := v) (by simp [Ty.enumValue?, hmember])
    obtain ⟨l, hl⟩ := Option.isSome_iff_exists.mp hliteral
    exact avoids_literal (shape_of_literal? hl)
  refine .intro hhas (by simp [hmember, Shape.ownVars]) ?_ ?_
  · exact fun e' hs' => absurd (hmember.symm.trans hs') (by simp)
  · rw [hmember]
    exact Interning.forall_mem_pair h hv

/-- A type that says what a shape says avoids the parameters if the shape and its parts do. -/
theorem avoids_of_alike (hT : T.WellFormed) (ht : T.Has t) (h : (T.shape t).Alike Eq s)
    (hplain : s.isEnum = false) (hfree : ∀ v ∈ s.ownVars, v ∉ vars)
    (hparts : ∀ p ∈ s.parts, T.Avoids vars p) : T.Avoids vars t := by
  have henum := (Shape.isEnum_eq_of_alike h).trans hplain
  refine .intro ht (by rwa [Shape.ownVars_eq_of_alike h]) (enrolls_of_isEnum henum) fun p hp => ?_
  obtain ⟨q, hq, rfl⟩ := h.exists_part (hT.tidy t) (Shape.isEnumMember_eq_false henum) p hp
  exact hparts p hq

theorem Avoids.member (h : T.Avoids vars t) (hm : m ∈ T.members t) : T.Avoids vars m := by
  unfold members at hm
  cases hs : T.shape t with
  | union ms =>
    rw [hs] at hm
    exact h.parts m (by rw [hs]; exact hm)
  | _ =>
    rw [hs] at hm
    obtain rfl := List.mem_singleton.mp hm
    exact h

theorem avoids_of_members (ht : T.Has t) (h : ∀ m ∈ T.members t, T.Avoids vars m) :
    T.Avoids vars t := by
  unfold members at h
  cases hs : T.shape t with
  | union ms =>
    rw [hs] at h
    exact .intro ht (by simp [hs, Shape.ownVars]) (enrolls_of_isEnum (by rw [hs]; rfl))
      (by rw [hs]; exact h)
  | _ =>
    rw [hs] at h
    exact h t (by simp)

theorem avoids_allIntersected (hts : ∀ t ∈ ts, T.Avoids vars t) (hm : m ∈ Ty.allIntersected T ts) :
    T.Avoids vars m := by
  rw [Ty.allIntersected, List.mem_eraseDups, List.mem_flatMap] at hm
  obtain ⟨t, ht, hm⟩ := hm
  unfold Ty.intersectionMembers at hm
  cases hs : T.shape t with
  | intersection ms =>
    rw [hs] at hm
    exact (hts t ht).parts m (by rw [hs]; exact hm)
  | _ =>
    rw [hs] at hm
    obtain rfl := List.mem_singleton.mp hm
    exact hts m ht

/-- A type that avoids the parameters mentions none of them. -/
theorem Avoids.mentions (h : T.Avoids vars t) : Ty.mentions T vars t = false := by
  have hat : ∀ depth, Ty.mentionsAt T vars depth t = false := by
    intro depth
    induction depth generalizing t with
    | zero => rfl
    | succ depth ih =>
      have hany : (Ty.mentionParts (T.shape t)).any (Ty.mentionsAt T vars depth) = false := by
        rw [List.any_eq_false]
        intro p hp
        rw [ih (h.parts p (Shape.mem_parts_of_mem_mentionParts hp))]
        exact Bool.false_ne_true
      unfold Ty.mentionsAt
      cases hs : T.shape t with
      | parameter v =>
        have hv := h.free v (by rw [hs]; exact List.mem_singleton.mpr rfl)
        simpa using hv
      | _ =>
        rw [hs] at hany
        exact hany
  exact hat _

/-- Substituting for the bound ones among some parameters rids the type of all of them. Where a
substitution does not reach, the type has to avoid them. -/
inductive Clears (T : Table) (vars bound : List TypeVar) : Ty → Prop
  | avoids {t : Ty} (h : T.Avoids vars t) : Clears T vars bound t
  | parameter {t : Ty} {v : TypeVar} (hs : T.shape t = .parameter v) (hv : v ∈ bound) :
    Clears T vars bound t
  | rebuilt {t : Ty} (hs : (T.shape t).isRebuilt = true)
    (declared : ∀ v ∈ (T.shape t).ownVars, v ∈ vars → v ∈ bound)
    (calls : ∀ m, T.shape t = .object m → ∀ f ∈ m.calls, (T.callable? f).isSome = true)
    (parts : ∀ p ∈ (T.shape t).parts, Clears T vars bound p) : Clears T vars bound t

theorem Clears.has (h : T.Clears vars bound t) : T.Has t := by
  cases h with
  | avoids h => exact h.has
  | parameter hs _ => exact has_of_shape (by rw [hs]; simp)
  | rebuilt hs _ _ _ =>
    refine has_of_shape fun h => ?_
    rw [h] at hs
    exact absurd hs (by simp [Shape.isRebuilt])

theorem callable?_of_shape {f : Ty} (h : T1.shape f = T.shape f) :
    T1.callable? f = T.callable? f := by
  rw [callable?, callable?, h]

theorem Clears.of_shapes (h : T.Clears vars bound t) (hhas : ∀ u, T.Has u → T1.Has u)
    (hshape : ∀ u, T.Has u → T1.shape u = T.shape u) : T1.Clears vars bound t := by
  induction h with
  | avoids h => exact .avoids (h.of_shapes hhas hshape)
  | @parameter t v hs hv =>
    exact .parameter ((hshape t (has_of_shape (by simp [hs]))).trans hs) hv
  | @rebuilt t hs declared calls parts ih =>
    have hst := hshape t (Clears.rebuilt hs declared calls parts).has
    refine .rebuilt (by rwa [hst]) (by rwa [hst]) (fun m hm f hf => ?_) (by rwa [hst])
    rw [hst] at hm
    have hfp : f ∈ (T.shape t).parts := by
      rw [hm]
      exact List.mem_append_right _ hf
    rw [callable?_of_shape (hshape f (parts f hfp).has)]
    exact calls m hm f hf

/-- A call signature of an object is a function, or the substitution finds nothing to do in it. -/
def Signs (T : Table) (vars : List TypeVar) (f : Ty) : Prop :=
  (T.callable? f).isSome = true ∨ T.Avoids vars f

/-- What a substitution takes apart has parts that it clears. -/
theorem Clears.rebuilds (h : T.Clears vars bound t) (hs : (T.shape t).isRebuilt = true) :
    (∀ v ∈ (T.shape t).ownVars, v ∈ vars → v ∈ bound) ∧
      (∀ p ∈ (T.shape t).parts, T.Clears vars bound p) ∧
      ∀ m, T.shape t = .object m → ∀ f ∈ m.calls, T.Signs vars f := by
  cases h with
  | avoids h =>
    refine ⟨fun v hv hmem => absurd hmem (h.free v hv), fun p hp => .avoids (h.parts p hp), ?_⟩
    intro m hm f hf
    refine .inr (h.parts f ?_)
    rw [hm]
    exact List.mem_append_right _ hf
  | parameter hp _ =>
    rw [hp] at hs
    exact absurd hs (by simp [Shape.isRebuilt])
  | rebuilt _ declared calls parts =>
    exact ⟨declared, parts, fun m hm f hf => .inl (calls m hm f hf)⟩

/-- What a substitution leaves as it is avoids the parameters. -/
theorem Clears.kept (h : T.Clears vars bound t) (hs : (T.shape t).isRebuilt = false)
    (hparameter : ∀ v, T.shape t ≠ .parameter v) : T.Avoids vars t := by
  cases h with
  | avoids h => exact h
  | parameter hp _ => exact absurd hp (hparameter _)
  | rebuilt hr _ _ _ => exact absurd (hs.symm.trans hr) Bool.false_ne_true

/-- Where no bound parameter is to be avoided there is nothing to do. -/
theorem Clears.avoids_of_unbound (h : T.Clears vars bound t) (hbound : ∀ v ∈ bound, v ∉ vars) :
    T.Avoids vars t := by
  induction h with
  | avoids h => exact h
  | @parameter t v hs hv =>
    refine .intro (has_of_shape (by rw [hs]; simp)) ?_ (enrolls_of_isEnum (by rw [hs]; rfl))
      (by simp [hs, Shape.parts])
    rw [hs]
    exact fun w hw => List.mem_singleton.mp hw ▸ hbound v hv
  | @rebuilt t hs declared calls parts ih =>
    have hplain : (T.shape t).isEnum = false := by
      cases h : T.shape t <;>
        first | rfl | (rw [h] at hs; exact absurd hs (by simp [Shape.isRebuilt]))
    refine .intro (Clears.rebuilt hs declared calls parts).has (fun v hv hmem => ?_)
      (enrolls_of_isEnum hplain) ih
    exact hbound v (declared v hv hmem) hmem

end Table

namespace Interning

open Table

section Closure

variable {T : Table} {vars : List TypeVar} {ts : List Ty}

theorem settles_unionOf_avoiding (hT : T.WellFormed) (hts : ∀ t ∈ ts, T.Avoids vars t) :
    Settles T (Ty.unionOf ts) (fun T1 t => T1.Avoids vars t) := by
  refine (settles_unionOf hT fun t ht => (hts t ht).has).imp ?_
  rintro t T1 - h1 ⟨ht, hstands⟩
  refine avoids_of_members ht fun m hm => ?_
  rcases mem_unionMembers ((hstands m).mp hm) with ⟨u, hu, hmu⟩ | ⟨p, rfl⟩
  · exact ((hts u hu).member hmu).of_le h1.le
  · exact avoids_prim T1 vars p

/-- The type that is got for a shape avoids the parameters if the shape and its parts do. -/
theorem Gives.avoids {work : Interning Ty} (h : Gives T work s)
    (hplain : s.isEnum = false) (hfree : ∀ v ∈ s.ownVars, v ∉ vars)
    (hparts : ∀ p ∈ s.parts, T.Avoids vars p) : Settles T work (fun T1 t => T1.Avoids vars t) :=
  h.imp fun _ _ hT1 h1 ht =>
    avoids_of_alike hT1 ht.1 ht.2 hplain hfree fun p hp => (hparts p hp).of_le h1.le

theorem settles_arrayOf_avoiding (hT : T.WellFormed) (ht : T.Avoids vars t)
    (readonly : Bool) : Settles T (Ty.arrayOf t readonly) (fun T1 u => T1.Avoids vars u) :=
  (gives_arrayOf hT ht.has readonly).avoids rfl (by simp [Shape.ownVars])
    (by simpa [Shape.parts] using ht)

theorem settles_objectOf_avoiding (hT : T.WellFormed) {m : Members}
    (hm : ∀ p ∈ (Shape.object m).parts, T.Avoids vars p) :
    Settles T (Ty.objectOf m) (fun T1 t => T1.Avoids vars t) :=
  (gives_objectOf hT fun p hp => (hm p hp).has).avoids rfl (by simp [objectShape, Shape.ownVars])
    fun p hp => hm p (parts_objectShape hp)

theorem settles_tupleOf_avoiding (hT : T.WellFormed) {u : Tuple}
    (hu : ∀ t ∈ u.elements, T.Avoids vars t) :
    Settles T (Ty.tupleOf u) (fun T1 t => T1.Avoids vars t) :=
  (gives_tupleOf hT fun t ht => (hu t ht).has).avoids rfl (by simp [tupleShape, Shape.ownVars])
    fun p hp => hu p (parts_tupleShape u ▸ hp)

theorem settles_functionOf_avoiding (hT : T.WellFormed) (hfree : ∀ v ∈ c.typeParams, v ∉ vars)
    (hc : ∀ p ∈ (Shape.function c).parts, T.Avoids vars p) :
    Settles T (Ty.functionOf c) (fun T1 t => T1.Avoids vars t) :=
  (gives_functionOf hT fun p hp => (hc p hp).has).avoids rfl hfree hc

theorem settles_literalOf_avoiding (hT : T.WellFormed) (l : Literal) :
    Settles T (Ty.literalOf l) (fun T1 t => T1.Avoids vars t) :=
  (gives_literalOf hT l).avoids rfl (by simp [Shape.ownVars]) (by simp [Shape.parts])

/-- A merged object avoids what the objects avoid. -/
theorem avoids_of_merges (hT : T.WellFormed) (ht : T.Has t)
    (h : (Family.avoiding vars).Merges (fun _ => True) T t) : T.Avoids vars t := by
  obtain ⟨m, hfills, -, halike⟩ := h
  exact avoids_of_alike hT ht halike rfl (by simp [objectShape, Shape.ownVars])
    fun p hp => hfills.parts p (parts_objectShape hp)

/-- An intersection avoids what its members avoid, whatever depth it is allowed. -/
theorem settles_intersectionAt_avoiding (depth : Nat) (hT : T.WellFormed)
    (hts : ∀ t ∈ ts, T.Avoids vars t) :
    Settles T (Ty.intersectionAt depth ts) (fun T1 t => T1.Avoids vars t) := by
  induction depth generalizing T ts with
  | zero => exact settles_pure hT (avoids_prim T vars _)
  | succ depth ih =>
    have hmeet : MeetSettles (Family.avoiding vars) fun a b => Ty.intersectionAt depth [a, b] :=
      fun T1 a b hT1 ha hb => ih hT1 (forall_mem_pair ha hb)
    have hobjects : ∀ t ∈ Ty.allIntersected T ts, ∀ m, Ty.members? T t = some m →
        (Family.avoiding vars).Fills (fun _ => True) T m := by
      intro t ht m hm
      have hs := shape_of_members? hm
      have hparts := (avoids_allIntersected hts ht).parts
      rw [hs] at hparts
      obtain ⟨hf, hi, hc⟩ := Shape.forall_parts_object.mp hparts
      exact ⟨fun f hmem => ⟨trivial, hf f hmem⟩, hi, hc⟩
    refine (settles_intersectionAt_found hmeet hT (fun t ht => (hts t ht).has) hobjects).imp ?_
    rintro t T1 hT1 h1 ⟨ht, hfound⟩
    have havoids : ∀ m, (Family.avoiding vars).Found (fun _ => True) T ts T1 m →
        T1.Avoids vars m := by
      rintro m ⟨hm, hin | ⟨p, rfl, -⟩ | ⟨-, hmerges⟩⟩
      · exact (avoids_allIntersected hts hin).of_le h1.le
      · exact avoids_prim T1 vars p
      · exact avoids_of_merges hT1 hm hmerges
    rcases hfound with hfound | ⟨ms, hs, hms⟩
    · exact havoids t hfound
    · refine .intro ht (by simp [hs, Shape.ownVars]) (enrolls_of_isEnum (by rw [hs]; rfl)) ?_
      rw [hs]
      exact fun m hm => havoids m (hms m hm)

theorem settles_intersectionOf_avoiding (hT : T.WellFormed) (hts : ∀ t ∈ ts, T.Avoids vars t) :
    Settles T (Ty.intersectionOf ts) (fun T1 t => T1.Avoids vars t) :=
  settles_intersectionAt_avoiding _ hT hts

end Closure

section Substituting

variable {T : Table} {vars bound : List TypeVar} {subs : Substitution} {part : Ty → Interning Ty}

/-- What a substitution clears within so many levels. -/
def clearing (vars bound : List TypeVar) (depth : Nat) : Family :=
  ⟨fun T t => T.Clears vars bound t ∧ t.rank < depth, fun h => h.1.has,
    fun hhas hshape h => ⟨h.1.of_shapes hhas hshape, h.2⟩⟩

/-- The call signatures among them. -/
def clearingCalls (vars bound : List TypeVar) (depth : Nat) : Family where
  Mem T t := (clearing vars bound depth).Mem T t ∧ T.Signs vars t
  has h := h.1.1.has
  keep hhas hshape h := by
    refine ⟨(clearing vars bound depth).keep hhas hshape h.1, ?_⟩
    rcases h.2 with hcall | havoids
    · exact .inl (callable?_of_shape (hshape _ h.1.1.has) ▸ hcall)
    · exact .inr (havoids.of_shapes hhas hshape)

/-- A rebuilt signature has lost the parameters that are bound. -/
theorem settles_rebuildCallable_avoiding {F : Family}
    (hpart : Converts F (Family.avoiding vars) T part) (hdropped : ∀ v ∈ bound, dropped v = true)
    (hT : T.WellFormed) (hdeclared : ∀ v ∈ c.typeParams, v ∈ vars → v ∈ bound)
    (hc : ∀ p ∈ (Shape.function c).parts, F.Mem T p) :
    Settles T (Ty.rebuildCallable part dropped c) (fun T1 d =>
      (∀ v ∈ d.typeParams, v ∉ vars) ∧ ∀ p ∈ (Shape.function d).parts, T1.Avoids vars p) := by
  refine (settles_rebuildCallable hpart hT dropped hc).result.imp ?_
  rintro d T1 hT1 - ⟨hd, rfl⟩
  refine ⟨fun v hv hmem => ?_, hd⟩
  obtain ⟨hv, hkept⟩ := List.mem_filter.mp hv
  rw [hdropped v (hdeclared v hv hmem)] at hkept
  exact absurd hkept (by simp)

theorem converts_rebuildCall {depth : Nat}
    (hpart : Converts (clearing vars bound depth) (Family.avoiding vars) T part)
    (hdropped : ∀ v ∈ bound, dropped v = true) :
    Converts (clearingCalls vars bound depth) (Family.avoiding vars) T
      (Ty.rebuildCall part dropped) := by
  intro T1 t hT1 h1 ht
  obtain ⟨⟨hclears, hrank⟩, hsigns⟩ := ht
  refine settles_get_bind (fun T2 h2 => ?_) ?_
  · rw [callable?_of_le h2 hclears.has]
  cases hc : T1.callable? t with
  | none =>
    rcases hsigns with hcall | havoids
    · rw [hc] at hcall
      exact absurd hcall (by simp)
    · exact settles_pure hT1 havoids
  | some c =>
    have hs : T1.shape t = .function c := shape_of_callable? hc
    obtain ⟨hdeclared, hparts, -⟩ := hclears.rebuilds (by rw [hs]; rfl)
    rw [hs] at hdeclared hparts
    have hc' : ∀ p ∈ (Shape.function c).parts, (clearing vars bound depth).Mem T1 p := by
      intro p hp
      have hlt : p.rank < t.rank := hT1.rank_part (by rw [hs]; exact hp)
      exact ⟨hparts p hp, hlt.trans hrank⟩
    refine (settles_rebuildCallable_avoiding (hpart.of_le h1) hdropped hT1 hdeclared hc').bind
      fun d T2 hT2 _ hd => ?_
    exact settles_functionOf_avoiding hT2 hd.1 hd.2

/-- A substitution whose images avoid the parameters rids a type of those that it binds. -/
theorem settles_substituteAt_avoiding (depth : Nat) (hbound : ∀ v ∈ bound, Ty.binds subs v = true)
    (hT : T.WellFormed) (hsubs : ∀ b ∈ subs, T.Avoids vars b.2)
    (ht : T.Clears vars bound t) (hdepth : t.rank < depth) :
    Settles T (Ty.substituteAt subs depth t) (fun T1 u => T1.Avoids vars u) := by
  induction depth generalizing T t with
  | zero => exact absurd hdepth (Nat.not_lt_zero _)
  | succ depth ih =>
    have hpart : Converts (clearing vars bound depth) (Family.avoiding vars) T
        (Ty.substituteAt subs depth) := by
      intro T1 u hT1 h1 hu
      exact ih hT1 (fun b hb => (hsubs b hb).of_le h1) hu.1 hu.2
    refine settles_get_bind (fun T2 h2 => ?_) ?_
    · rw [shape_of_le h2 ht.has]
    have hparts : (T.shape t).isRebuilt = true →
        ∀ p ∈ (T.shape t).parts, (clearing vars bound depth).Mem T p := by
      intro hs p hp
      have := hT.rank_part hp
      exact ⟨(ht.rebuilds hs).2.1 p hp, by omega⟩
    have hrebuilds := fun hs => ht.rebuilds hs
    have hkept := fun hs => ht.kept hs
    cases hs : T.shape t with
    | parameter v =>
      refine settles_pure hT ?_
      cases hv : subs.lookup v with
      | none =>
        cases ht with
        | avoids h => exact h
        | parameter hs' hv' =>
          obtain rfl := Shape.parameter.inj (hs.symm.trans hs')
          exact absurd (hbound v hv') (by simp [Ty.binds, hv])
        | rebuilt hr _ _ _ =>
          rw [hs] at hr
          exact absurd hr (by simp [Shape.isRebuilt])
      | some u =>
        obtain ⟨front, back, rfl, -⟩ := List.lookup_eq_some_iff.mp hv
        exact hsubs (v, u) (by simp)
    | union ms =>
      rw [hs] at hparts
      refine (settles_parts hpart hT (hparts rfl)).bind fun us T1 hT1 _ hus => ?_
      exact settles_unionOf_avoiding hT1 hus
    | intersection ms =>
      rw [hs] at hparts
      refine (settles_parts hpart hT (hparts rfl)).bind fun us T1 hT1 _ hus => ?_
      exact settles_intersectionOf_avoiding hT1 hus
    | array element readonly =>
      rw [hs] at hparts
      refine (hpart T element hT (le_refl T) (hparts rfl element (List.mem_singleton.mpr rfl))).bind
        fun u T1 hT1 _ hu => ?_
      exact settles_arrayOf_avoiding hT1 hu readonly
    | tuple u =>
      rw [hs] at hparts
      refine (settles_rebuildTuple hpart hT (hparts rfl)).bind fun v T1 hT1 _ hv => ?_
      exact settles_tupleOf_avoiding hT1 hv
    | object m =>
      rw [hs] at hrebuilds hparts
      obtain ⟨-, -, hsigns⟩ := hrebuilds rfl
      obtain ⟨hf, hi, hc⟩ := Shape.forall_parts_object.mp (hparts rfl)
      have hcalls : ∀ f ∈ m.calls, (clearingCalls vars bound depth).Mem T f :=
        fun f hmem => ⟨hc f hmem, hsigns m rfl f hmem⟩
      refine (settles_rebuildMembers hpart hT _ hf hi hcalls
        (converts_rebuildCall hpart hbound)).bind fun n T1 hT1 _ hn => ?_
      exact settles_objectOf_avoiding hT1 hn
    | function c =>
      rw [hs] at hrebuilds hparts
      obtain ⟨hdeclared, -⟩ := hrebuilds rfl
      refine (settles_rebuildCallable_avoiding hpart hbound hT hdeclared (hparts rfl)).bind
        fun d T1 hT1 _ hd => ?_
      exact settles_functionOf_avoiding hT1 hd.1 hd.2
    | reference name arguments =>
      rw [hs] at hparts
      dsimp only
      split_ifs with hempty
      · exact settles_pure hT (avoids_of_plain ht.has
          (by simp [hs, Shape.ownVars]) (by rw [hs]; rfl)
          (by simp [hs, Shape.parts, List.isEmpty_iff.mp hempty]))
      · refine (settles_parts hpart hT (hparts rfl)).bind fun us T1 hT1 _ hus => ?_
        exact (gives_referenceTo hT1 name fun u hu => (hus u hu).has).avoids rfl
          (by simp [Shape.ownVars]) hus
    | _ =>
      rw [hs] at hkept
      exact settles_pure hT (hkept rfl (by simp))

theorem settles_substitute_avoiding (hbound : ∀ v ∈ bound, Ty.binds subs v = true)
    (hT : T.WellFormed) (hsubs : ∀ b ∈ subs, T.Avoids vars b.2) (ht : T.Clears vars bound t) :
    Settles T (t.substitute subs) (fun T1 u => T1.Avoids vars u) := by
  unfold Ty.substitute
  split_ifs with hempty
  · rw [List.isEmpty_iff.mp hempty] at hbound
    exact settles_pure hT (ht.avoids_of_unbound fun v hv =>
      absurd (hbound v hv) (by simp [Ty.binds]))
  · exact settles_substituteAt_avoiding _ hbound hT hsubs ht (Nat.lt_succ_self _)

/-- Substituting other types for parameters brings none of the avoided ones in. -/
theorem settles_substitute_of_avoids (hT : T.WellFormed) (hsubs : ∀ b ∈ subs, T.Avoids vars b.2)
    (ht : T.Avoids vars t) : Settles T (t.substitute subs) (fun T1 u => T1.Avoids vars u) :=
  settles_substitute_avoiding (fun _ hv => absurd hv List.not_mem_nil) hT hsubs (.avoids ht)

/-- What a substitution clears, at any depth. -/
def cleared (vars bound : List TypeVar) : Family :=
  ⟨fun T t => T.Clears vars bound t, Clears.has, fun hhas hshape h => h.of_shapes hhas hshape⟩

theorem converts_substitute (hbound : ∀ v ∈ bound, Ty.binds subs v = true)
    (hsubs : ∀ b ∈ subs, T.Avoids vars b.2) :
    Converts (cleared vars bound) (Family.avoiding vars) T (·.substitute subs) :=
  fun _ _ hT1 h1 ht =>
    settles_substitute_avoiding hbound hT1 (fun b hb => (hsubs b hb).of_le h1) ht

/-- A signature loses the parameters that are bound, and its parts avoid them. -/
theorem settles_substituteCallable_avoiding (hbound : ∀ v ∈ bound, Ty.binds subs v = true)
    (hT : T.WellFormed) (hsubs : ∀ b ∈ subs, T.Avoids vars b.2)
    (hdeclared : ∀ v ∈ c.typeParams, v ∈ vars → v ∈ bound)
    (hc : ∀ p ∈ (Shape.function c).parts, T.Clears vars bound p) :
    Settles T (Ty.substituteCallable c subs) (fun T1 d =>
      (∀ v ∈ d.typeParams, v ∉ vars) ∧ ∀ p ∈ (Shape.function d).parts, T1.Avoids vars p) :=
  settles_rebuildCallable_avoiding (converts_substitute hbound hsubs) hbound hT hdeclared hc

/-- Erasing a type that avoids the parameters gives one that does. -/
theorem settles_erase_avoiding (hT : T.WellFormed) (ht : T.Avoids vars t) :
    Settles T t.erase (fun T1 u => T1.Avoids vars u) := by
  refine settles_get_bind (fun T2 h2 => ?_) ?_
  · rw [callable?_of_le h2 ht.has]
  cases hc : T.callable? t with
  | none => exact settles_pure hT ht
  | some c =>
    have hfree := ht.free
    have hparts := ht.parts
    rw [shape_of_callable? hc] at hfree hparts
    have hany : ∀ b ∈ c.typeParams.map fun v => (v, Ty.any), T.Avoids vars b.2 := by
      intro b hb
      obtain ⟨v, -, rfl⟩ := List.mem_map.mp hb
      exact avoids_prim T vars .any
    dsimp only
    split_ifs
    · refine (settles_substituteCallable_avoiding (fun v hv => absurd hv List.not_mem_nil) hT hany
        (fun v hv hmem => absurd hmem (hfree v hv)) fun p hp => .avoids (hparts p hp)).bind
        fun d T1 hT1 _ hd => ?_
      exact settles_functionOf_avoiding hT1 hd.1 hd.2
    · exact settles_pure hT ht

end Substituting

end Interning

end ShapeCheck
