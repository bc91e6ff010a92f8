import ShapeCheck.Proofs.Values
import ShapeCheck.Check.Guard

/-!
# Narrowing keeps the values

A test splits a declarable type in two. A value of the type belongs to the one side where it passes
the test and to the other side where it does not, for each of the tests that conditions are made of:
the kind of a value, its truth, equality with a constant, and being missing.

* `Ty.parts_narrowByKind`, `Ty.parts_narrowByTruthiness`, `Ty.parts_narrowByLiteral` and
  `Guard.parts_splitByValue` are one statement per test.
-/

namespace ShapeCheck

variable {α β : Type} {a : α} {R : Table → β → Prop} {x : Typing α}
  {f : α → Typing β} {ts : List Ty}
  {T1 : Table} {m : Ty} {v : Datum}

namespace Datum

/-- What `typeof` gives for the value. -/
def kind : Datum → String
  | number _ => "number"
  | string _ => "string"
  | null => "object"
  | undefined => "undefined"

/-- Whether the value counts as true. -/
def isTruthy : Datum → Bool
  | number x => !x.isZero && x ≠ .nan
  | string s => !s.isEmpty
  | null | undefined => false

/-- Whether the value is null or undefined. -/
def isMissing : Datum → Bool
  | null | undefined => true
  | number _ | string _ => false

end Datum

namespace Typing

/-- Whatever the work gives, it leaves a table whose answers are right, and which says the same of
the types that were there. -/
def Yields {α : Type} (T : Table) (work : Typing α) (Q : Table → α → Prop) : Prop :=
  ∀ n a T1, work n T = some (a, T1) → T1.Faithful ∧ T.Agrees T1 ∧ Q T1 a

section Rules

variable {T : Table} {Q : Table → α → Prop}

theorem yields_pure (hT : T.Faithful) (ha : Q T a) : Yields T (pure a) Q := by
  intro n b T1 hrun
  obtain ⟨rfl, rfl⟩ := Prod.mk.inj (Option.some.inj hrun)
  exact ⟨hT, .refl T, ha⟩

theorem Yields.imp {work : Typing α} {R : Table → α → Prop} (h : Yields T work Q)
    (himp : ∀ a T1, T1.Faithful → T.Agrees T1 → Q T1 a → R T1 a) : Yields T work R := by
  intro n a T1 hrun
  obtain ⟨hT1, h1, ha⟩ := h n a T1 hrun
  exact ⟨hT1, h1, himp a T1 hT1 h1 ha⟩

theorem Yields.bind (hx : Yields T x Q)
    (hf : ∀ a T1, T1.Faithful → T.Agrees T1 → Q T1 a → Yields T1 (f a) R) :
    Yields T (x >>= f) R := by
  intro n b T2 hrun
  obtain ⟨a, T1, ha, hb⟩ := bind_some hrun
  obtain ⟨hT1, h1, hq⟩ := hx n a T1 ha
  obtain ⟨hT2, h2, hr⟩ := hf a T1 hT1 h1 hq n b T2 hb
  exact ⟨hT2, h1.trans h2, hr⟩

theorem yields_get_bind {f : Table → Typing α} (h : Yields T (f T) Q) :
    Yields T (get >>= f) Q := h

/-- Work that leaves the table as it is may come first. -/
theorem yields_of_result
    (hx : ∀ n, x n T = some (a, T)) (hf : Yields T (f a) R) : Yields T (x >>= f) R := by
  intro n b T1 hrun
  rw [bind_of_some (hx n)] at hrun
  exact hf n b T1 hrun

theorem yields_interning (hT : T.Faithful) {work : Interning α} (h : Interning.Settles T work Q) :
    Yields T (liftM work : Typing α) Q := by
  obtain ⟨a, T1, hat, ha⟩ := h
  intro n b T2 hrun
  obtain ⟨rfl, rfl⟩ := Prod.mk.inj (hat.result.symm.trans (Option.some.inj hrun))
  have hagrees := Table.Agrees.of_le hat.adds.le
  exact ⟨hT.of_agrees hat.wellFormed hagrees hat.adds.verdicts, hagrees, ha⟩

/-- A comparison of first-order types says whether the one fits the other. -/
theorem yields_isAssignableTo (hT : T.Faithful) {s t : Ty} (hs : T.FirstOrder s)
    (ht : T.FirstOrder t) :
    Yields T (s.isAssignableTo t) fun _ b => b = true ↔ T.Fits (T.shape s) (T.shape t) := by
  intro n b T1 hrun
  obtain ⟨hT1, h1⟩ := hT.asked hs.has ht.has hrun
  exact ⟨hT1, h1, hT.answered hs ht hrun⟩

/-- The union of first-order types. -/
theorem yields_unionOf (hT : T.Faithful) (hts : ∀ t ∈ ts, T.FirstOrder t) :
    Yields T (liftM (Ty.unionOf ts) : Typing Ty) Table.FirstOrder :=
  (yields_interning hT (Interning.settles_union_fits hT.wellFormed hts)).imp
    fun _ _ _ _ h => h.1

/-- The union of declarable types has the values of all of them. -/
theorem yields_union (hT : T.Faithful) (hts : ∀ t ∈ ts, T.Declarable t) :
    Yields T (liftM (Ty.unionOf ts) : Typing Ty) fun T1 t => T1.Declarable t ∧
      ∀ u ∈ ts, ∀ v, T.Inhabits v u → T1.Inhabits v t := by
  have hsettles := Interning.settles_union hT.wellFormed fun t ht => (hts t ht).toSimple
  refine (yields_interning hT hsettles).imp fun t T1 _ hagrees hunion => ?_
  obtain ⟨hsimple, hvalues, hmembers⟩ := hunion
  refine ⟨⟨hsimple, fun m hm => ?_⟩, hvalues⟩
  rcases hmembers m hm with rfl | ⟨u, hu, hmu⟩
  · rfl
  · have hfirst := ((hts u hu).toSimple.firstOrder hT.wellFormed).member hmu
    rw [hagrees.shape_eq hfirst]
    exact (hts u hu).numbers m hmu

end Rules

end Typing

namespace Table

section Parts

variable {T : Table} {t : Ty}

theorem Declarable.firstOrder (h : T.Declarable t) (hT : T.Faithful) : T.FirstOrder t :=
  h.toSimple.firstOrder hT.wellFormed

/-- A member of a declarable type is declarable, and has the values of its shape. -/
theorem Declarable.member (h : T.Declarable t) (hT : T.Faithful) (hm : m ∈ T.members t) :
    T.Declarable m ∧ ∀ v : Datum, T.Inhabits v m ↔ v.IsIn (T.shape m) := by
  have hself : T.members m = [m] := by
    rcases h.toSimple.of_member hm with rfl | hsimple
    · rfl
    · exact members_of_isSimple hsimple
  have hhas := ((h.firstOrder hT).member hm).has
  refine ⟨⟨⟨hhas, ?_⟩, fun k hk => ?_⟩, fun v => by simp [Inhabits, hself]⟩
  · rcases h.toSimple.of_member hm with rfl | hsimple
    · exact .inl rfl
    · exact (simple_of_isSimple hhas hsimple).members
  · rw [hself, List.mem_singleton] at hk
    rw [hk]
    exact h.numbers m hm

/-- The members in which a declarable type may have a value. -/
theorem Declarable.cases_member (h : T.Declarable t) (hT : T.Faithful) (hm : m ∈ T.members t) :
    m = .never ∨ m = .number ∨ m = .string ∨ m = .null ∨ m = .undefined ∨
      ∃ s, T.shape m = .literal (.string s) := by
  refine (h.toSimple.of_member hm).imp_right fun hsimple => ?_
  have hnumber := h.numbers m hm
  have hprim : ∀ {q : Primitive}, T.shape m = .primitive q → q ≠ .invalid → m = .prim q :=
    fun hs hq => eq_prim_of_shape hT.wellFormed hs hq
  cases hs : T.shape m with
  | primitive q =>
    cases q <;> simp [hs, Shape.isSimple] at hsimple
    · exact .inl (hprim hs (by simp))
    · exact .inr (.inl (hprim hs (by simp)))
    · exact .inr (.inr (.inl (hprim hs (by simp))))
    · exact .inr (.inr (.inr (.inl (hprim hs (by simp)))))
  | literal l =>
    cases l with
    | number x => simp [hs, Shape.isNumberLiteral] at hnumber
    | string s => exact .inr (.inr (.inr (.inr ⟨s, rfl⟩)))
    | boolean | bigint => simp [hs, Shape.isSimple] at hsimple
  | _ => simp [hs, Shape.isSimple] at hsimple

theorem Declarable.splitMembers_eq (h : T.Declarable t) (hT : T.Faithful) :
    Ty.splitMembers T t = T.members t := by
  have hboolean : ∀ m ∈ T.members t, (if m = .boolean then [.truth true, .truth false] else [m]) =
      [m] := by
    intro m hm
    rw [if_neg]
    rintro rfl
    rcases h.cases_member hT hm with h | h | h | h | h | ⟨s, h⟩ <;> simp [Table.shape] at h
  rw [Ty.splitMembers, List.flatMap_congr hboolean, List.flatMap_singleton']

end Parts

end Table

/-- The two sides of a test of the values of a type. The sides are types of the second table. -/
structure Split.Parts (T T1 : Table) (t : Ty) (test : Datum → Prop) (s : Split) : Prop where
  yes : T1.Declarable s.yes
  no : T1.Declarable s.no
  holds : ∀ v, T.Inhabits v t → test v → T1.Inhabits v s.yes
  fails : ∀ v, T.Inhabits v t → ¬test v → T1.Inhabits v s.no

namespace Ty

open Typing

section Splitting

variable {T : Table} {t : Ty}

theorem hasOpenHead_firstOrder (ht : T.FirstOrder t) : hasOpenHead T t = false := by
  cases ht with
  | primitive => rfl
  | literal h | array h | tuple h | union h | object h => simp [hasOpenHead, h]

theorem resolve_firstOrder (ht : T.FirstOrder t) (n : Nat) : t.resolve n T = some (t, T) :=
  resolve_closed n (hasOpenHead_firstOrder ht)

/-- A type with nothing to resolve, at its head and at those of its members, is left as it is. -/
theorem resolveMembers_closed (ht : hasOpenHead T t = false)
    (hmembers : ∀ m ∈ T.members t, hasOpenHead T m = false) (n : Nat) :
    t.resolveMembers n T = some (t, T) := by
  have hmapM : ∀ ms : List Ty, (∀ m ∈ ms, hasOpenHead T m = false) →
      (ms.mapM resolve : Typing (List Ty)) n T = some (ms, T) := by
    intro ms hms
    induction ms with
    | nil => rfl
    | cons m ms ih =>
      rw [List.mapM_cons, bind_of_some (resolve_closed n (hms m (by simp))),
        bind_of_some (ih fun k hk => hms k (List.mem_cons_of_mem m hk))]
      rfl
  unfold resolveMembers
  rw [bind_of_some (resolve_closed n ht), get_bind]
  cases hs : T.shape t with
  | union ms =>
    dsimp only
    rw [bind_of_some (hmapM ms fun m hm => hmembers m (by simpa [Table.members, hs] using hm)),
      if_pos rfl]
    rfl
  | _ => rfl

theorem resolveMembers_firstOrder (ht : T.FirstOrder t) (n : Nat) :
    t.resolveMembers n T = some (t, T) :=
  resolveMembers_closed (hasOpenHead_firstOrder ht)
    (fun _ hm => hasOpenHead_firstOrder (ht.member hm)) n

theorem not_isTop_of_simple (h : T.Simple t) : t.isTop = false := by
  rcases h.members with rfl | ⟨-, hsimple⟩
  · rfl
  cases t with
  | prim q =>
    have hself := hsimple (.prim q) (by simp [Table.members, Table.shape])
    cases q <;> first | rfl | simp [Table.shape, Shape.isSimple] at hself
  | truth b => rfl
  | made k => rfl

theorem not_isTop_of_declarable (h : T.Declarable t) : t.isTop = false :=
  not_isTop_of_simple h.toSimple

/-- A test that leaves the table alone selects like a filter. -/
theorem select_eq {test : Ty → Typing Bool} {p : Ty → Bool} {n : Nat} (ms : List Ty)
    (h : ∀ m ∈ ms, test m n T = some (p m, T)) : select test ms n T = some (ms.filter p, T) := by
  induction ms with
  | nil => rfl
  | cons m ms ih =>
    rw [select, bind_of_some (h m (by simp))]
    have hrest := ih fun k hk => h k (List.mem_cons_of_mem m hk)
    cases hp : p m with
    | true =>
      rw [if_pos rfl, bind_of_some hrest, List.filter_cons_of_pos hp]
      rfl
    | false => rw [if_neg (by simp), hrest, List.filter_cons_of_neg (by simp [hp])]

/-- What the two sides of a split keep of a type. -/
def KeepsValues (T T1 : Table) (t : Ty) (keep : Ty → Bool) (u : Ty) : Prop :=
  T1.Declarable u ∧ ∀ v, ∀ m ∈ T.members t, keep m = true → v.IsIn (T.shape m) → T1.Inhabits v u

/-- The union of some members of a declarable type has the values of these. -/
theorem yields_members (hT : T.Faithful) (hT1 : T1.Faithful) (h1 : T.Agrees T1)
    (ht : T.Declarable t) (keep : Ty → Bool) :
    Yields T1 (liftM (unionOf ((T.members t).filter keep)) : Typing Ty) fun T2 u =>
      KeepsValues T T2 t keep u := by
  have hparts : ∀ m ∈ (T.members t).filter keep, T1.Declarable m := fun m hm =>
    (ht.member hT (List.mem_of_mem_filter hm)).1.of_agrees hT.wellFormed h1
  refine (yields_union hT1 hparts).imp fun u T2 _ _ hunion => ⟨hunion.1, fun v m hm hkeep hv => ?_⟩
  obtain ⟨hmember, hvalues⟩ := ht.member hT hm
  refine hunion.2 m (List.mem_filter.mpr ⟨hm, hkeep⟩) v ?_
  rw [hmember.toSimple.inhabits_iff hT.wellFormed h1]
  exact (hvalues v).mpr hv

/-- A split that keeps members on either side follows a test if each value of a member finds the
member on its side. -/
theorem parts_of_keeps {T2 : Table} {test : Datum → Prop} {keepYes keepNo : Ty → Bool}
    {yes no : Ty} (hT1 : T1.Faithful) (h2 : T1.Agrees T2) (hy : KeepsValues T T1 t keepYes yes)
    (hn : KeepsValues T T2 t keepNo no)
    (hyes : ∀ v, ∀ m ∈ T.members t, v.IsIn (T.shape m) → test v → keepYes m = true)
    (hno : ∀ v, ∀ m ∈ T.members t, v.IsIn (T.shape m) → ¬test v → keepNo m = true) :
    Split.Parts T T2 t test ⟨yes, no⟩ := by
  refine ⟨hy.1.of_agrees hT1.wellFormed h2, hn.1, ?_, ?_⟩
  · rintro v ⟨m, hm, hv⟩ hv'
    rw [hy.1.toSimple.inhabits_iff hT1.wellFormed h2]
    exact hy.2 v m hm (hyes v m hm hv hv') hv
  · rintro v ⟨m, hm, hv⟩ hv'
    exact hn.2 v m hm (hno v m hm hv hv') hv

/-- The kind of a type is that of its values. -/
theorem kindOf_eq (hv : v.IsIn (T.shape m)) : kindOf T m = some v.kind := by
  unfold kindOf
  cases hs : T.shape m with
  | primitive q => cases v <;> cases q <;> rw [hs] at hv <;> first | rfl | exact hv.elim
  | literal l => cases v <;> cases l <;> rw [hs] at hv <;> first | rfl | exact hv.elim
  | _ => cases v <;> rw [hs] at hv <;> exact hv.elim

theorem hasKind_eq (hT : T.Faithful) (h1 : T.Agrees T1) (ht : T.Declarable t) (hm : m ∈ T.members t)
    (kind : String) (n : Nat) :
    hasKind kind m n T1 = some (decide ((kindOf T m).getD "" = kind), T1) := by
  have hshape := h1.shape_eq ((ht.firstOrder hT).member hm)
  have hkind : kindOf T1 m = kindOf T m := by
    unfold kindOf
    rw [hshape]
    rcases ht.cases_member hT hm with rfl | rfl | rfl | rfl | rfl | ⟨s, hs⟩
    · rfl
    · rfl
    · rfl
    · rfl
    · rfl
    · rw [hs]
  have hplain : ∀ x, T1.shape m ≠ .parameter x := by
    intro x hx
    rw [hshape] at hx
    rcases ht.cases_member hT hm with rfl | rfl | rfl | rfl | rfl | ⟨s, hs⟩
    · simp [Table.shape] at hx
    · simp [Table.shape] at hx
    · simp [Table.shape] at hx
    · simp [Table.shape] at hx
    · simp [Table.shape] at hx
    · simp [hs] at hx
  unfold hasKind
  rw [get_bind]
  cases hs : T1.shape m with
  | parameter x => exact absurd hs (hplain x)
  | _ => exact congrArg (fun k => some (decide (k.getD "" = kind), T1)) hkind

/-- **The test of the kind.** -/
theorem parts_narrowByKind (hT : T.Faithful) (ht : T.Declarable t) (kind : String) :
    Yields T (t.narrowByKind kind) fun T1 s => s.Parts T T1 t (·.kind = kind) := by
  unfold narrowByKind
  refine yields_of_result (resolveMembers_firstOrder (ht.firstOrder hT)) ?_
  rw [if_neg (by simp [not_isTop_of_declarable ht])]
  refine yields_get_bind ?_
  dsimp only
  rw [ht.splitMembers_eq hT]
  refine yields_of_result (fun n => select_eq (T.members t) fun m hm =>
    hasKind_eq hT (.refl T) ht hm kind n) ?_
  refine (yields_members hT hT (.refl T) ht _).bind fun yes T1 hT1 h1 hy => ?_
  refine yields_of_result (fun n => select_eq (T.members t) (p := fun m =>
    !decide ((kindOf T m).getD "" = kind)) fun m hm => ?_) ?_
  · rw [bind_of_some (hasKind_eq hT h1 ht hm kind n)]
    rfl
  refine (yields_members hT hT1 h1 ht _).bind fun no T2 hT2 h2 hn => ?_
  refine yields_pure hT2 (parts_of_keeps hT1 h2 hy hn ?_ ?_)
  · intro v m _ hv hkind
    simp [kindOf_eq hv, hkind]
  · intro v m _ hv hkind
    simp [kindOf_eq hv, hkind]

theorem yields_filterMembers (hT : T.Faithful) (hT1 : T1.Faithful) (h1 : T.Agrees T1)
    (ht : T.Declarable t) (keep : Ty → Bool) :
    Yields T1 (liftM (t.filterMembers keep) : Typing Ty) fun T2 u => KeepsValues T T2 t keep u := by
  have hmembers : splitMembers T1 t = T.members t := by
    rw [(ht.of_agrees hT.wellFormed h1).splitMembers_eq hT1, h1.members_eq (ht.firstOrder hT)]
  intro n u T2 hrun
  rw [Typing.lift_filterMembers, hmembers] at hrun
  exact yields_members hT hT1 h1 ht keep n u T2 hrun

/-- A value that counts as true is in no type of false values, one that counts as false is only in
types that can be false. -/
theorem truth_of_isIn (hv : v.IsIn (T.shape m))
    (hm : m = .never ∨ m = .number ∨ m = .string ∨ m = .null ∨ m = .undefined ∨
      ∃ s, T.shape m = .literal (.string s)) :
    (v.isTruthy = true → isFalsy T m = false) ∧ (v.isTruthy = false → canBeFalsy T m = true) := by
  rcases hm with rfl | rfl | rfl | rfl | rfl | ⟨s, hs⟩
  · exact absurd hv Table.not_isIn_never
  · exact ⟨fun _ => rfl, fun _ => rfl⟩
  · exact ⟨fun _ => rfl, fun _ => rfl⟩
  · refine ⟨fun h => ?_, fun _ => rfl⟩
    cases v <;> first | exact hv.elim | exact absurd h (by simp [Datum.isTruthy])
  · refine ⟨fun h => ?_, fun _ => rfl⟩
    cases v <;> first | exact hv.elim | exact absurd h (by simp [Datum.isTruthy])
  · rw [hs] at hv
    cases v with
    | string x =>
      obtain rfl : x = s := hv
      simp [isFalsy, canBeFalsy, hs, isFalsyLiteral, Datum.isTruthy]
    | _ => exact hv.elim

/-- **The test of the truth.** -/
theorem parts_narrowByTruthiness (hT : T.Faithful) (ht : T.Declarable t) :
    Yields T t.narrowByTruthiness fun T1 s => s.Parts T T1 t (·.isTruthy = true) := by
  unfold narrowByTruthiness
  refine yields_of_result (resolveMembers_firstOrder (ht.firstOrder hT)) ?_
  rw [if_neg (by simp [not_isTop_of_declarable ht])]
  refine yields_get_bind ?_
  refine (yields_filterMembers hT hT (.refl T) ht _).bind fun yes T1 hT1 h1 hy => ?_
  refine (yields_filterMembers hT hT1 h1 ht _).bind fun no T2 hT2 h2 hn => ?_
  refine yields_pure hT2 (parts_of_keeps hT1 h2 hy hn ?_ ?_)
  · intro v m hm hv htruthy
    simp [(truth_of_isIn hv (ht.cases_member hT hm)).1 htruthy]
  · intro v m hm hv htruthy
    exact (truth_of_isIn hv (ht.cases_member hT hm)).2 (by simpa using htruthy)

end Splitting

end Ty

/-- The type has the one value. -/
inductive Table.Denotes (T : Table) : Ty → Datum → Prop
  | null : Denotes T .null .null
  | undefined : Denotes T .undefined .undefined
  | string {t : Ty} {s : String} (h : T.shape t = .literal (.string s)) : Denotes T t (.string s)

namespace Ty

open Typing

section Constants

variable {T : Table} {t c : Ty} {d : Datum}

theorem isIn_iff_of_denotes (hc : T.Denotes c d) : v.IsIn (T.shape c) ↔ v = d := by
  cases hc with
  | null => cases v <;> simp [Table.shape, Datum.IsIn]
  | undefined => cases v <;> simp [Table.shape, Datum.IsIn]
  | string h => cases v <;> simp [h, Datum.IsIn]

theorem declarable_of_denotes (hc : T.Denotes c d) : T.Declarable c := by
  have hsimple : (T.shape c).isSimple = true ∧ (T.shape c).isNumberLiteral = false := by
    cases hc with
    | null | undefined => exact ⟨rfl, rfl⟩
    | string h => simp [h, Shape.isSimple, Shape.isNumberLiteral]
  have hhas : T.Has c := by
    cases hc with
    | null | undefined => exact T.has_prim _
    | string h => exact (Table.FirstOrder.literal h).has
  refine ⟨Table.simple_of_isSimple hhas hsimple.1, fun m hm => ?_⟩
  rw [Table.members_of_isSimple hsimple.1, List.mem_singleton] at hm
  rw [hm]
  exact hsimple.2

theorem denotes_of_agrees (hT : T.Faithful) (hc : T.Denotes c d) (h : T.Agrees T1) :
    T1.Denotes c d := by
  have hfirst := (declarable_of_denotes hc).firstOrder hT
  cases hc with
  | null => exact .null
  | undefined => exact .undefined
  | string hs => exact .string ((h.shape_eq hfirst).trans hs)

/-- A type with one value in common with a constant is the constant, or has other values too. -/
theorem eq_or_string (hT : T.Faithful) (hc : T.Denotes c d) (hm : v.IsIn (T.shape m))
    (hv : v.IsIn (T.shape c)) (ht : T.Declarable t) (hmem : m ∈ T.members t) :
    m = c ∨ m = .string ∧ ∃ s, T.shape c = .literal (.string s) := by
  obtain rfl := (isIn_iff_of_denotes hc).mp hv
  rcases ht.cases_member hT hmem with rfl | rfl | rfl | rfl | rfl | ⟨s, hs⟩
  · exact absurd hm Table.not_isIn_never
  · cases hc <;> exact hm.elim
  · cases hc with
    | string h => exact .inr ⟨rfl, _, h⟩
    | _ => exact hm.elim
  · cases hc with
    | null => exact .inl rfl
    | _ => exact hm.elim
  · cases hc with
    | undefined => exact .inl rfl
    | _ => exact hm.elim
  · rw [hs] at hm
    cases hc with
    | @string c s' h =>
      obtain rfl : s' = s := hm
      -- one literal, one type
      refine .inl (hT.wellFormed.eq_of_alike ((ht.firstOrder hT).member hmem).has
        (Table.FirstOrder.literal h).has (by rw [hs]; rfl) ?_)
      rw [hs, h]
      exact ⟨rfl, rfl⟩
    | _ => exact hm.elim

theorem mem_members_of_denotes (hc : T.Denotes c d) : c ∈ T.members c := by
  cases hc with
  | null | undefined => simp [Table.members, Table.shape]
  | string h => simp [Table.members, h]

/-- What remains of a member where the value is the constant. -/
theorem yields_equalPart (hT : T.Faithful) (hc : T.Denotes c d) (ht : T.Declarable t)
    (hm : m ∈ T.members t) :
    Yields T (equalPart c m) fun T1 o => (∀ u, o = some u → T1.Declarable u) ∧
      (d.IsIn (T.shape m) → ∃ u, o = some u ∧ T1.Inhabits d u) := by
  obtain ⟨hmember, hmvalues⟩ := ht.member hT hm
  obtain ⟨hconstant, hcvalues⟩ := (declarable_of_denotes hc).member hT (mem_members_of_denotes hc)
  have hd : d.IsIn (T.shape c) := (isIn_iff_of_denotes hc).mpr rfl
  have hcommon := fun hv => eq_or_string hT hc hv hd ht hm
  have hkinds := ht.cases_member hT hm
  have henum : enumValue? T m = none := by
    rcases hkinds with rfl | rfl | rfl | rfl | rfl | ⟨s, hs⟩
    · rfl
    · rfl
    · rfl
    · rfl
    · rfl
    · simp [enumValue?, hs]
  have hboolean : m ≠ .boolean ∧ m ≠ .void := by
    rcases hkinds with rfl | rfl | rfl | rfl | rfl | ⟨s, hs⟩
    · simp
    · simp
    · simp
    · simp
    · simp
    · exact ⟨by rintro rfl; simp [Table.shape] at hs, by rintro rfl; simp [Table.shape] at hs⟩
  unfold equalPart
  refine yields_get_bind ?_
  by_cases hmc : m = c
  · rw [if_pos (by simp [hmc])]
    refine yields_pure hT ⟨fun u hu => ?_, fun hv => ⟨m, rfl, (hmvalues d).mpr hv⟩⟩
    obtain rfl := Option.some.inj hu
    exact hmember
  rw [if_neg (by simp [hmc, henum]), if_neg (by simp [hboolean]), if_neg (by simp [hboolean])]
  by_cases hunit : isUnit T m = true
  · rw [if_pos (by simp [hunit])]
    refine yields_pure hT ⟨by simp, fun hv => ?_⟩
    rcases hcommon hv with heq | ⟨rfl, -⟩
    · exact absurd heq hmc
    · exact absurd hunit (by simp [isUnit, Table.literal?, Table.shape])
  rw [if_neg (by simp [hunit, isEnumMember, henum])]
  refine (yields_isAssignableTo hT (hconstant.firstOrder hT) (hmember.firstOrder hT)).bind
    fun b T1 hT1 h1 hb => ?_
  cases b with
  | true =>
    refine yields_pure hT1 ⟨fun u hu => ?_, fun _ => ⟨c, rfl, ?_⟩⟩
    · obtain rfl := Option.some.inj hu
      exact hconstant.of_agrees hT.wellFormed h1
    · rw [hconstant.toSimple.inhabits_iff hT.wellFormed h1]
      exact (hcvalues d).mpr hd
  | false =>
    refine yields_pure hT1 ⟨by simp, fun hv => ?_⟩
    rcases hcommon hv with heq | ⟨rfl, s, hs⟩
    · exact absurd heq hmc
    · refine absurd (hb.mpr ?_) (by simp)
      rw [hs]
      exact .base rfl

theorem yields_equalParts (hT : T.Faithful) (hc : T.Denotes c d) (ht : T.Declarable t)
    (ms : List Ty) (hms : ∀ m ∈ ms, m ∈ T.members t) :
    Yields T (ms.mapM (equalPart c)) fun T1 os => (∀ u, some u ∈ os → T1.Declarable u) ∧
      ∀ m ∈ ms, d.IsIn (T.shape m) → ∃ u, some u ∈ os ∧ T1.Inhabits d u := by
  induction ms generalizing T with
  | nil => exact yields_pure hT (by simp)
  | cons m ms ih =>
    rw [List.mapM_cons]
    have hm := hms m (by simp)
    refine (yields_equalPart hT hc ht hm).bind fun o T1 hT1 h1 hfirst => ?_
    have ht1 := ht.of_agrees hT.wellFormed h1
    have hfirstOrder := ht.firstOrder hT
    have hms1 : ∀ k ∈ ms, k ∈ T1.members t := by
      intro k hk
      rw [h1.members_eq hfirstOrder]
      exact hms k (List.mem_cons_of_mem m hk)
    refine (ih hT1 (denotes_of_agrees hT hc h1) ht1 hms1).bind fun os T2 hT2 h2 hrest => ?_
    refine yields_pure hT2 ⟨fun u hu => ?_, fun k hk hv => ?_⟩
    · rcases List.mem_cons.mp hu with hu | hu
      · exact (hfirst.1 u hu.symm).of_agrees hT1.wellFormed h2
      · exact hrest.1 u hu
    · rcases List.mem_cons.mp hk with rfl | hk
      · obtain ⟨u, rfl, hu⟩ := hfirst.2 hv
        refine ⟨u, List.mem_cons_self, ?_⟩
        rw [(hfirst.1 u rfl).toSimple.inhabits_iff hT1.wellFormed h2]
        exact hu
      · have hshape := h1.shape_eq (hfirstOrder.member (hms k (List.mem_cons_of_mem m hk)))
        obtain ⟨u, hu, hin⟩ := hrest.2 k hk (hshape ▸ hv)
        exact ⟨u, List.mem_cons_of_mem o hu, hin⟩

/-- **The test of equality with a constant.** -/
theorem parts_narrowByLiteral (hT : T.Faithful) (hc : T.Denotes c d) (ht : T.Declarable t) :
    Yields T (t.narrowByLiteral c) fun T1 s => s.Parts T T1 t (· = d) := by
  unfold narrowByLiteral
  refine yields_of_result (resolveMembers_firstOrder (ht.firstOrder hT)) ?_
  rw [if_neg (by simp [not_isTop_of_declarable ht])]
  refine yields_of_result (fun n => rfl) ?_
  refine (yields_equalParts hT hc ht (T.members t) fun m hm => hm).bind
    fun os T1 hT1 h1 hparts => ?_
  refine yields_get_bind ?_
  refine (yields_filterMembers hT hT1 h1 ht _).bind fun no T2 hT2 h2 hn => ?_
  have hos : ∀ u ∈ os.filterMap id, T2.Declarable u := by
    intro u hu
    obtain ⟨o, ho, rfl⟩ := List.mem_filterMap.mp hu
    exact (hparts.1 u ho).of_agrees hT1.wellFormed h2
  refine (yields_union hT2 hos).bind fun yes T3 hT3 h3 hy => ?_
  refine yields_pure hT3 ⟨hy.1, hn.1.of_agrees hT2.wellFormed h3, ?_, ?_⟩
  · rintro v ⟨m, hm, hv⟩ rfl
    obtain ⟨u, hu, hin⟩ := hparts.2 m hm hv
    refine hy.2 u (List.mem_filterMap.mpr ⟨some u, hu, rfl⟩) v ?_
    rw [(hparts.1 u hu).toSimple.inhabits_iff hT1.wellFormed h2]
    exact hin
  · rintro v ⟨m, hm, hv⟩ hne
    rw [hn.1.toSimple.inhabits_iff hT2.wellFormed h3]
    refine hn.2 v m hm ?_ hv
    have hmc : m ≠ c := fun heq => hne ((isIn_iff_of_denotes hc).mp (heq ▸ hv))
    have henum : enumValue? T1 m = none := by
      unfold enumValue?
      rw [h1.shape_eq ((ht.firstOrder hT).member hm)]
      cases hs : T.shape m with
      | enumMember => cases v <;> simp [hs, Datum.IsIn] at hv
      | _ => rfl
    simp [hmc, henum]

end Constants

end Ty

namespace Guard

open Typing

variable {T : Table} {t c : Ty} {d : Datum}

/-- **The test of being missing**, by loose equality with null. -/
theorem parts_splitByValue_loose (hT : T.Faithful) (ht : T.Declarable t) :
    Yields T (splitByValue t .null true) fun T1 s => s.Parts T T1 t (·.isMissing = true) := by
  unfold splitByValue
  rw [if_pos (show (true && Ty.null.isNullish) = true from rfl)]
  refine (Ty.parts_narrowByLiteral hT .null ht).bind fun null T1 hT1 h1 hnull => ?_
  have ht1 := ht.of_agrees hT.wellFormed h1
  refine (Ty.parts_narrowByLiteral hT1 .undefined ht1).bind fun undefined T2 hT2 h2 hundefined => ?_
  have ht2 := ht1.of_agrees hT1.wellFormed h2
  refine yields_of_result (Ty.resolve_firstOrder (ht2.firstOrder hT2)) ?_
  rw [if_neg (by simp [Ty.not_isTop_of_declarable ht])]
  refine (Ty.yields_filterMembers hT hT2 (h1.trans h2) ht _).bind fun no T3 hT3 h3 hn => ?_
  have hsides : ∀ u ∈ [null.yes, undefined.yes], T3.Declarable u := by
    intro u hu
    rcases List.mem_pair.mp hu with rfl | rfl
    · exact hnull.yes.of_agrees hT1.wellFormed (h2.trans h3)
    · exact hundefined.yes.of_agrees hT2.wellFormed h3
  refine (yields_union hT3 hsides).bind fun yes T4 hT4 h4 hy => ?_
  refine yields_pure hT4 ⟨hy.1, hn.1.of_agrees hT3.wellFormed h4, ?_, ?_⟩
  · intro v hv hmissing
    cases v with
    | null =>
      refine hy.2 null.yes (by simp) .null ?_
      rw [hnull.yes.toSimple.inhabits_iff hT1.wellFormed (h2.trans h3)]
      exact hnull.holds .null hv rfl
    | undefined =>
      refine hy.2 undefined.yes (by simp) .undefined ?_
      rw [hundefined.yes.toSimple.inhabits_iff hT2.wellFormed h3]
      exact hundefined.holds .undefined ((ht.toSimple.inhabits_iff hT.wellFormed h1).mpr hv) rfl
    | number | string => simp [Datum.isMissing] at hmissing
  · rintro v ⟨m, hm, hv⟩ hpresent
    rw [hn.1.toSimple.inhabits_iff hT3.wellFormed h4]
    refine hn.2 v m hm ?_ hv
    simp only [Bool.not_eq_true', Ty.isNullish, Bool.or_eq_false_iff, decide_eq_false_iff_not]
    refine ⟨⟨?_, ?_⟩, ?_⟩
    · rintro rfl
      cases v <;> simp [Table.shape, Datum.IsIn, Datum.isMissing] at hv hpresent
    · rintro rfl
      cases v <;> simp [Table.shape, Datum.IsIn, Datum.isMissing] at hv hpresent
    · rintro rfl
      cases v <;> simp [Table.shape, Datum.IsIn] at hv

theorem parts_splitByValue (hT : T.Faithful) (hc : T.Denotes c d) (ht : T.Declarable t) :
    Yields T (splitByValue t c false) fun T1 s => s.Parts T T1 t (· = d) :=
  Ty.parts_narrowByLiteral hT hc ht

end Guard

end ShapeCheck
