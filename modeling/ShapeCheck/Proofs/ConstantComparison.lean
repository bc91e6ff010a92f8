import ShapeCheck.Proofs.RuntimeValues
import ShapeCheck.Proofs.UnionTargets

/-!
# Constants are compared at once

A constant is a literal, a member of an enum, null or undefined. The comparison of a constant with a
scalar type ends after two steps and leaves the table as it is. It finds that the constant fits
wherever its value is one of the type's, but for enums: a text does not fit the enum that has it for
a value, and a member of one enum does not fit another one. No constant fits a type parameter.

* `Assign.constantFits` is what the comparison of a constant comes to, by
  `Assign.decideAt_constant`.
* `Table.refuses` says where that goes against the values, by `Assign.constantFits_of_holds`.
* `Table.Resolved.asks_constant` takes what the comparison comes to for the answer to a question.
-/

namespace ShapeCheck

variable {l : Literal} {T U : Table} {m value : Ty} {b : Bool} {n : Nat}

open Table

namespace Table

variable {T1 : Table} {s t c : Ty} {d : RuntimeValue}

/-- Only the primitives themselves have their shapes. -/
theorem eq_prim_of_has (hT : T.WellFormed) (ht : T.Has t) {p : Primitive}
    (h : T.shape t = .primitive p) : t = .prim p := by
  cases t with
  | prim q => exact congrArg Ty.prim (Shape.primitive.inj h)
  | truth b => simp [shape] at h
  | made n =>
    obtain ⟨e, he⟩ := has_iff_entry.mp ht
    have hentry := (hT.entry n e he).isEntry
    rw [← shape_made he, h] at hentry
    exact hentry.elim

/-- One literal, one type. -/
theorem eq_of_literal (hT : T.WellFormed) (hs : T.shape s = .literal l)
    (ht : T.shape t = .literal l) : s = t := by
  refine hT.eq_of_alike (has_of_shape (by simp [hs])) (has_of_shape (by simp [ht]))
    (by rw [hs]; rfl) ?_
  rw [hs, ht]
  exact ⟨rfl, rfl⟩

theorem Constant.has (hc : T.Constant c d) : T.Has c := by
  cases hc with
  | literal h | enumMember h => exact has_of_shape (by simp [h])
  | null | undefined => exact has_prim T _

theorem Constant.of_le (hc : T.Constant c d) (hle : T ≤ T1) : T1.Constant c d := by
  have hchas := hc.has
  cases hc with
  | literal h => exact .literal ((shape_of_le hle hchas).trans h)
  | enumMember h hl =>
    exact .enumMember ((shape_of_le hle hchas).trans h)
      ((shape_of_le hle (has_of_shape (by simp [hl]))).trans hl)
  | null => exact .null
  | undefined => exact .undefined

/-- A constant is compared as a whole. -/
theorem Constant.single (hc : T.Constant c d) : (c.isTop = false ∧ c ≠ .never) ∧
    Ty.hasOpenHead T c = false ∧ ¬(T.shape c).IsUnion := by
  have hplain {s : Shape} (h : T.shape c = s) (hprim : ∀ p, s ≠ .primitive p) :
      c.isTop = false ∧ c ≠ .never := by
    have hne : ∀ p, c ≠ .prim p := by
      rintro p rfl
      exact hprim p h.symm
    simp [Ty.isTop, hne]
  cases hc with
  | literal h | enumMember h =>
    exact ⟨hplain h (by simp), by simp [Ty.hasOpenHead, h], by simp [h, Shape.IsUnion]⟩
  | null | undefined => exact ⟨⟨rfl, by decide⟩, rfl, by simp [Table.shape, Shape.IsUnion]⟩

theorem Constant.eq_literal (hc : T.Constant c d) (h : T.shape c = .literal l) : d = .literal l :=
  (hc.holds_iff.mp (.literal h rfl)).symm

/-- The comparison refuses a constant, though its value may be one of the type's: no constant fits a
type parameter, and only numbers and its own members fit an enum. -/
def refuses (T : Table) (c m : Ty) : Bool :=
  match T.shape m with
  | .parameter _ => true
  | .enumMember _ _ _ => c ≠ m && !(T.shape c).isNumberLiteral
  | .enumeration _ => !(T.shape c).isNumberLiteral && (match T.shape c with
    | .enumMember enum _ _ => enum ≠ m
    | _ => true)
  | _ => false

end Table

theorem Ty.shape_of_enumValue (h : Ty.enumValue? T m = some value) :
    ∃ enum name, T.shape m = .enumMember enum name value := by
  unfold Ty.enumValue? at h
  cases hs : T.shape m with
  | enumMember enum name u =>
    rw [hs] at h
    exact ⟨enum, name, by rw [Option.some.inj h]⟩
  | _ => simp [hs] at h

namespace Assign

variable {T1 : Table} {s t c : Ty} {d : RuntimeValue}

/-! ## What the comparison comes to -/

/-- What the rules for atoms say of a literal, null or undefined. -/
def atomFits (T : Table) (s t : Ty) : Bool :=
  match T.shape t with
  | .parameter _ => false
  | _ => (byAtom T s t).getD false

/-- What the rules say at once of a literal, null or undefined, and a scalar type. -/
def plainFits (T : Table) (s t : Ty) : Bool :=
  (byIdentity s t).getD ((toEnum T s t).getD (atomFits T s t))

/-- What the rules say of a constant and a scalar type. -/
def constantFits (T : Table) (c m : Ty) : Bool :=
  (byIdentity c m).getD ((toEnum T c m).getD (match T.shape c with
    | .enumMember _ _ value => plainFits T value m
    | _ => atomFits T c m))

theorem decideAt_byIdentity (h : byIdentity s t = some b) (k : Nat)
    (pairs : List (Ty × Ty)) (n : Nat) : decideAt (k + 1) pairs s t n T = some (b, T) := by
  unfold decideAt step
  rw [h]
  rfl

theorem decideAt_plain (hs : (∃ l, T.shape s = .literal l) ∨ ∃ p, T.shape s = .primitive p)
    (ht : (T.shape t).isScalar = true) (k : Nat) (pairs : List (Ty × Ty)) (n : Nat) :
    decideAt (k + 1) pairs s t n T = some (plainFits T s t, T) := by
  cases hid : byIdentity s t with
  | some b =>
    rw [decideAt_byIdentity hid, plainFits, hid]
    rfl
  | none =>
    have hplain : (T.shape s).isPlain = true := by
      rcases hs with ⟨l, hs⟩ | ⟨p, hs⟩
      · rw [hs]; rfl
      · rw [hs]; rfl
    have href : (T.shape t).isReference = false :=
      not_isReference_of_closed (hasOpenHead_of_isScalar ht)
    unfold decideAt
    rw [step_resolved hid (Ty.hasOpenHead_of_isPlain hplain) (not_isUnion_of_isPlain hplain) href,
      plainFits, hid]
    unfold stepResolved
    rw [Typing.get_bind, Option.getD_none]
    cases henum : toEnum T s t with
    | some b => rfl
    | none =>
      cases htarget : T.shape t with
      | primitive | literal | parameter =>
        rcases hs with ⟨l, hs⟩ | ⟨p, hs⟩
        · simp [hs, atomFits, byAtom, htarget]; rfl
        · simp [hs, atomFits, byAtom, htarget]; rfl
      | enumeration | enumMember =>
        rcases hs with ⟨l, hs⟩ | ⟨p, hs⟩ <;> simp [toEnum, htarget, hs] at henum
      | _ => simp [htarget, Shape.isScalar] at ht

/-- **The comparison of a constant ends** after two steps, and leaves the table as it is. -/
theorem decideAt_constant (hc : T.Constant c d) (hm : (T.shape m).isScalar = true) (k : Nat)
    (pairs : List (Ty × Ty)) (n : Nat) :
    decideAt (k + 2) pairs c m n T = some (constantFits T c m, T) := by
  have hatom (hatom : (∃ l, T.shape c = .literal l) ∨ ∃ p, T.shape c = .primitive p) :
      decideAt (k + 2) pairs c m n T = some (constantFits T c m, T) := by
    rw [decideAt_plain hatom hm, plainFits, constantFits]
    rcases hatom with ⟨l, hs⟩ | ⟨p, hs⟩
    · rw [hs]
    · rw [hs]
  cases hc with
  | literal h => exact hatom (.inl ⟨_, h⟩)
  | null | undefined => exact hatom (.inr ⟨_, rfl⟩)
  | @enumMember _ enum value name l h hl =>
    rw [constantFits, h]
    cases hid : byIdentity c m with
    | some b => exact decideAt_byIdentity hid _ _ _
    | none =>
      have href : (T.shape m).isReference = false :=
        not_isReference_of_closed (hasOpenHead_of_isScalar hm)
      unfold decideAt
      rw [step_resolved hid (by simp [Ty.hasOpenHead, h]) (by simp [h, Shape.IsUnion]) href]
      unfold stepResolved
      rw [Typing.get_bind, Option.getD_none]
      cases henum : toEnum T c m with
      | some b => rfl
      | none =>
        have hvalue := decideAt_plain (.inl ⟨l, hl⟩) hm k pairs n
        cases htarget : T.shape m with
        | primitive | literal | parameter =>
          simp only [h]
          exact hvalue
        | enumeration | enumMember => simp [toEnum, htarget, h] at henum
        | _ => simp [htarget, Shape.isScalar] at hm

/-- A later table says the same of a constant and a scalar type. -/
theorem constantFits_of_le (hT : T.WellFormed) (hle : T ≤ T1) (hc : T.Constant c d) (hm : T.Has m) :
    constantFits T1 c m = constantFits T c m := by
  have hatom (s : Ty) (hs : T.Has s) : atomFits T1 s m = atomFits T s m := by
    rw [atomFits, atomFits, byAtom_of_le hle hs hm, shape_of_le hle hm]
  rw [constantFits, constantFits, toEnum_of_le hT hle hc.has hm, shape_of_le hle hc.has]
  cases hs : T.shape c with
  | enumMember enum name value =>
    have hvalue : T.Has value := hT.has_part hc.has (by simp [hs, Shape.parts])
    simp only [plainFits, toEnum_of_le hT hle hvalue hm, hatom value hvalue]
  | _ => simp only [hatom c hc.has]

/-! ## What the values say -/

theorem plainFits_self (T : Table) (t : Ty) : plainFits T t t = true := by
  simp [plainFits, byIdentity]

/-- A literal fits its primitive. -/
theorem plainFits_base (hs : T.shape s = .literal l) : plainFits T s (.prim l.base) = true := by
  have hbase : (Ty.prim l.base).isTop = false ∧ Ty.prim l.base ≠ .never := by
    cases l <;> exact ⟨rfl, by simp [Literal.base, Ty.never]⟩
  have hatom : atomFits T s (.prim l.base) = true := by
    simp [atomFits, byAtom, show T.shape (.prim l.base) = .primitive l.base from rfl, hs]
  rw [plainFits]
  cases hid : byIdentity s (.prim l.base) with
  | some b =>
    cases b with
    | true => rfl
    | false =>
      rcases byIdentity_false hid with rfl | hnever
      · simp [Table.shape] at hs
      · exact absurd hnever hbase.2
  | none => exact hatom

/-- A number that is the value of some member of an enum fits the enum. -/
theorem hasNumericMember_of_holds (hT : T.WellFormed) (hm : T.Has m) {e : Enumeration}
    {x : Binary64} (hin : m ∈ e.members) (hvalue : Ty.enumValue? T m = some value)
    (hv : T.Holds (.literal (.number x)) value) : hasNumericMember T e = true := by
  obtain ⟨l, hl⟩ := Option.isSome_iff_exists.mp (value_spec hT hm hvalue).2
  obtain rfl := RuntimeValue.literal.inj ((holds_literal (shape_of_literal? hl)).mp hv)
  exact List.any_eq_true.mpr ⟨m, hin, by simp [hvalue, hl]⟩

theorem number_of_isNumberLiteral (h : (T.shape c).isNumberLiteral = true) :
    ∃ x, T.shape c = .literal (.number x) := by
  cases hs : T.shape c with
  | literal l =>
    cases l with
    | number x => exact ⟨x, rfl⟩
    | _ => simp [hs, Shape.isNumberLiteral] at h
  | _ => simp [hs, Shape.isNumberLiteral] at h

/-- **A constant fits a type that has its value**, where the comparison does not refuse it. -/
theorem constantFits_of_holds (hT : T.WellFormed) (hc : T.Constant c d) (hmhas : T.Has m)
    (hm : (T.shape m).isScalar = true) (hv : T.Holds d m) (hseen : T.refuses c m = false) :
    constantFits T c m = true := by
  rw [constantFits]
  cases hid : byIdentity c m with
  | some b =>
    cases b with
    | true => rfl
    | false =>
      rcases byIdentity_false hid with rfl | rfl
      · cases hc with
        | literal h | enumMember h => simp [Table.shape] at h
      · exact absurd hv not_holds_never
  | none =>
    have hne : c ≠ m := by
      rintro rfl
      simp [byIdentity] at hid
    rw [Option.getD_none]
    cases hv with
    | @primitive _ p hs hv =>
      obtain rfl := eq_prim_of_has hT hmhas hs
      have htop : (Ty.prim p).isTop = false := by
        have htrue : byIdentity c (.prim p) ≠ some true := by simp [hid]
        rw [ne_eq, byIdentity_true] at htrue
        simp only [Ty.isTop, Bool.or_eq_false_iff, decide_eq_false_iff_not]
        tauto
      cases hc with
      | literal h =>
        obtain rfl := (RuntimeValue.isOf_literal htop).mp hv
        have hfits := plainFits_base h
        rw [plainFits, hid, Option.getD_none] at hfits
        rwa [h]
      | enumMember h hl =>
        obtain rfl := (RuntimeValue.isOf_literal htop).mp hv
        rw [h]
        exact plainFits_base hl
      | null =>
        cases p with
        | null => exact absurd rfl hne
        | any | unknown | invalid => exact absurd htop (by decide)
        | _ => exact absurd hv (by simp [RuntimeValue.IsOf])
      | undefined =>
        cases p with
        | void => rfl
        | undefined => exact absurd rfl hne
        | any | unknown | invalid => exact absurd htop (by decide)
        | _ => exact absurd hv (by simp [RuntimeValue.IsOf])
    | literal hs hd =>
      -- the constant is no literal of its own, or it would be this one
      cases hc with
      | literal h => exact absurd (eq_of_literal hT h (RuntimeValue.literal.inj hd ▸ hs)) hne
      | enumMember h hl =>
        obtain rfl := eq_of_literal hT hl (RuntimeValue.literal.inj hd ▸ hs)
        simp [toEnum, hs, h, plainFits_self]
      | null | undefined => simp at hd
    | union hs => simp [hs, Shape.isScalar] at hm
    | @enumMember _ enum value name hs hv =>
      simp only [refuses, hs, ne_eq, hne, not_false_eq_true, decide_true, Bool.true_and,
        Bool.not_eq_false'] at hseen
      obtain ⟨x, hx⟩ := number_of_isNumberLiteral hseen
      obtain rfl := hc.eq_literal hx
      obtain ⟨l, hl⟩ := Option.isSome_iff_exists.mp
        (value_spec hT hmhas (v := value) (by simp [Ty.enumValue?, hs])).2
      have hl := shape_of_literal? hl
      obtain rfl := RuntimeValue.literal.inj ((holds_literal hl).mp hv)
      obtain rfl := eq_of_literal hT hx hl
      simp [toEnum, hs, hx, Literal.base]
    | @enumeration _ k value e hs hin hvalue hv =>
      simp only [refuses, hs] at hseen
      cases hnumber : (T.shape c).isNumberLiteral with
      | true =>
        obtain ⟨x, hx⟩ := number_of_isNumberLiteral hnumber
        obtain rfl := hc.eq_literal hx
        have hnumeric := hasNumericMember_of_holds hT (has_enumMembers hT hs k hin) hin hvalue hv
        simp [toEnum, hs, hx, isNumber, literal?, hnumeric]
      | false =>
        cases hsource : T.shape c with
        | enumMember enum name value => simp_all [toEnum]
        | _ =>
          rw [hsource] at hnumber hseen
          simp [hnumber] at hseen
    | bounded hs | unbounded hs => simp [refuses, hs] at hseen

end Assign

/-- A comparison that ends in a table whose answers are right gives the answer to the question. -/
theorem Table.Truthful.asks (h : T.Truthful) {s t : Ty} (hs : T.Has s) (ht : T.Has t)
    (hrun : Assign.decideAt n [] s t n T = some (b, T)) :
    ∃ T1, s.isAssignableTo t n T = some (b, T1) ∧ T.Called T1 := by
  have hright := Assign.holds_iff h.sound hs ht hrun h.sound (le_refl T)
  have hanswer {c : Bool} {T1 : Table} (hask : s.isAssignableTo t n T = some (c, T1))
      (hc : c = true ↔ Assign.Holds T s t) :
      ∃ T1, s.isAssignableTo t n T = some (b, T1) ∧ T.Called T1 := by
    obtain rfl : c = b := Bool.eq_iff_iff.mpr (hc.trans hright.symm)
    exact ⟨T1, hask, .assignable hs ht hask⟩
  by_cases hne : s = t
  · subst hne
    exact hanswer (Ty.isAssignableTo_self s n T) (iff_of_true rfl (Assign.holds_refl T s))
  cases hlook : T.verdicts.lookup (s, t) with
  | none =>
    have hask := Ty.isAssignableTo_anew hne (fun _ => hlook) n
    rw [hrun, Option.bind_some] at hask
    exact ⟨_, hask, .assignable hs ht hask⟩
  | some c =>
    have hfrozen : T.frozen = true := by
      by_contra hopen
      rw [h.unasked (by simpa using hopen)] at hlook
      exact absurd hlook (by simp)
    exact hanswer (Ty.isAssignableTo_kept hne hfrozen hlook n)
      (h.answered s t c hlook T h.sound (le_refl T))

/-- Whether a constant fits a scalar type is answered within two steps. -/
theorem Table.Resolved.asks_constant {c : Ty} {d : RuntimeValue}
    (hU : U.Resolved) (hT : T.WellFormed) (hle : T ≤ U) (hc : T.Constant c d) (hmhas : T.Has m)
    (hm : (T.shape m).isScalar = true) (hn : 2 ≤ n) : ∃ U1,
      c.isAssignableTo m n U = some (Assign.constantFits T c m, U1) ∧ U.Called U1 := by
  obtain ⟨k, rfl⟩ := Nat.exists_eq_add_of_le' hn
  refine hU.truthful.asks (has_of_le hle hc.has) (has_of_le hle hmhas) ?_
  rw [Assign.decideAt_constant (hc.of_le hle) (by rwa [shape_of_le hle hmhas]),
    Assign.constantFits_of_le hT hle hc hmhas]

/-- Work on one type after the other, each of which makes calls only. -/
theorem Table.Resolved.mapM_calls {α : Type} {f : Ty → Typing α} {R : Ty → α → Prop}
    {ms : List Ty} (hf : ∀ m ∈ ms, ∀ U : Table, U.Resolved → T ≤ U → ∃ a U1,
      f m n U = some (a, U1) ∧ Relation.ReflTransGen Called U U1 ∧ R m a)
    (hU : U.Resolved) (hle : T ≤ U) : ∃ as U1, ms.mapM f n U = some (as, U1) ∧
      Relation.ReflTransGen Called U U1 ∧ List.Forall₂ R ms as := by
  induction ms generalizing U with
  | nil => exact ⟨[], U, rfl, .refl, .nil⟩
  | cons m ms ih =>
    obtain ⟨a, U1, hfirst, hcalls1, ha⟩ := hf m (by simp) U hU hle
    obtain ⟨as, U2, hrest, hcalls2, has⟩ := ih (fun k hk => hf k (List.mem_cons_of_mem m hk))
      (hU.calls hcalls1) (hle.trans (hU.truthful.succeeds hcalls1).1.le)
    refine ⟨a :: as, U2, ?_, hcalls1.trans hcalls2, .cons ha has⟩
    rw [List.mapM_cons, Typing.bind_of_some hfirst, Typing.bind_of_some hrest]
    rfl

end ShapeCheck
