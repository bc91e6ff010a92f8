import ShapeCheck.Ty.Narrowing
import ShapeCheck.Proofs.UnionTargets

/-!
# Work that makes calls

Work on types looks at a table, resolves types, compares them and makes new ones. All that it does
to the table is a sequence of calls, and calls change no entry. So what is known of the types at the
start is known at the end, whatever the aliases stand for.

* `Table.gains_of_calls` says that calls change no type.
* `Typing.calls_mapM` and `Typing.calls_select` are about one piece of work after the other.
-/

namespace ShapeCheck

open Relation (ReflTransGen)

variable {α β : Type} {a : α} {x : Typing α} {R : Table → β → Prop} {f : α → Typing β}

open Table

namespace Table

variable {T T1 : Table} {t : Ty}

variable (hT : ReflTransGen Operated {} T)
include hT

theorem operated_of_calls (hcalls : ReflTransGen Called T T1) : ReflTransGen Operated {} T1 :=
  hT.trans (ReflTransGen.mono (fun _ _ => .call) _ _ hcalls)

theorem wellFormed_of_operated : T.WellFormed :=
  (faithful_empty.operations hT).1.wellFormed

variable (hcalls : ReflTransGen Called T T1)
include hcalls

/-- Calls change no type, whatever is known of the aliases. -/
theorem gains_of_calls : T.Gains T1 := by
  induction hcalls with
  | refl => exact .refl T
  | tail hcalls hcall ih =>
    exact ih.trans (hcall.gains (wellFormed_of_operated (operated_of_calls hT hcalls)))

theorem has_of_calls (ht : T.Has t) : T1.Has t := (gains_of_calls hT hcalls).has ht

theorem shape_of_calls (ht : T.Has t) : T1.shape t = T.shape t :=
  (gains_of_calls hT hcalls).shape ht

theorem members_of_calls (ht : T.Has t) : T1.members t = T.members t := by
  unfold members
  rw [shape_of_calls hT hcalls ht]

theorem hasOpenHead_of_calls (ht : T.Has t) :
    Ty.hasOpenHead T1 t = Ty.hasOpenHead T t := by
  unfold Ty.hasOpenHead
  rw [shape_of_calls hT hcalls ht]
  cases hs : T.shape t with
  | intersection ms =>
    have hparts : ∀ m ∈ ms, T.Has m := fun m hm =>
      (wellFormed_of_operated hT).has_part ht (by rw [hs]; exact hm)
    unfold Ty.hasReference
    rw [Bool.eq_iff_iff, List.any_eq_true, List.any_eq_true]
    refine exists_congr fun m => and_congr_right fun hm => ?_
    rw [shape_of_calls hT hcalls (hparts m hm)]
  | _ => rfl

end Table

namespace Typing

variable {T T1 : Table} {Q : Table → α → Prop}

/-- With enough steps the work gives a result, always the same, and calls are all that it does to
the table. -/
def Calls (T : Table) (x : Typing α) (Q : Table → α → Prop) : Prop :=
  ∃ k a T1, (∀ n, k ≤ n → x n T = some (a, T1)) ∧ ReflTransGen Called T T1 ∧ Q T1 a

theorem calls_pure (ha : Q T a) : Calls T (pure a) Q :=
  ⟨0, a, T, fun _ _ => rfl, .refl, ha⟩

theorem Calls.imp {R : Table → α → Prop} (h : Calls T x Q)
    (himp : ∀ a T1, ReflTransGen Called T T1 → Q T1 a → R T1 a) : Calls T x R := by
  obtain ⟨k, a, T1, hrun, hcalls, ha⟩ := h
  exact ⟨k, a, T1, hrun, hcalls, himp a T1 hcalls ha⟩

theorem Calls.bind (hx : Calls T x Q)
    (hf : ∀ a T1, ReflTransGen Called T T1 → Q T1 a → Calls T1 (f a) R) : Calls T (x >>= f) R := by
  obtain ⟨k, a, T1, hx, hcalls, ha⟩ := hx
  obtain ⟨k', b, T2, hf, hcalls', hb⟩ := hf a T1 hcalls ha
  refine ⟨max k k', b, T2, fun n hn => ?_, hcalls.trans hcalls', hb⟩
  rw [bind_of_some (hx n (by omega))]
  exact hf n (by omega)

theorem calls_get_bind {f : Table → Typing α} (h : Calls T (f T) Q) : Calls T (get >>= f) Q := h

/-- Work that leaves the table as it is may come first. -/
theorem calls_of_result
    (hx : ∀ n, x n T = some (a, T)) (hf : Calls T (f a) R) : Calls T (x >>= f) R := by
  obtain ⟨k, b, T1, hrun, hcalls, hb⟩ := hf
  refine ⟨k, b, T1, fun n hn => ?_, hcalls, hb⟩
  rw [bind_of_some (hx n)]
  exact hrun n hn

/-- A union is made with one call. -/
theorem calls_unionOf (hT : T.WellFormed) {ts : List Ty} (hts : ∀ t ∈ ts, T.Has t)
    {R : Table → Ty → Prop} (h : Interning.Settles T (Ty.unionOf ts) R) :
    Calls T (liftM (Ty.unionOf ts)) fun T1 u => T ≤ T1 ∧ R T1 u := by
  obtain ⟨u, T1, hat, hu⟩ := h
  have hcall := (Assign.called_unionOf hT hts hat.result).1
  exact ⟨0, u, T1, fun _ _ => congrArg some hat.result, .single hcall, hat.adds.le, hu⟩

/-- A type is resolved with one call, whatever the table has been used for. -/
theorem calls_resolve (hT : ReflTransGen Operated {} T) {t : Ty} (ht : T.Has t) :
    Calls T t.resolve fun T1 r => T1.Has r ∧
      (Ty.hasOpenHead T t = true → T1.Headed .all r) ∧ (Ty.hasOpenHead T t = false → r = t) := by
  cases hopen : Ty.hasOpenHead T t with
  | false => exact ⟨0, t, T, fun n _ => Ty.resolve_closed n hopen, .refl, ht, by simp, fun _ => rfl⟩
  | true =>
    have hok : Recalling .closed T T :=
      ⟨wellFormed_of_operated hT, .refl T, recalls_of_operations hT⟩
    have hworks := (resolves_closed T).works hok ht
    obtain ⟨k, ⟨r, T1⟩, hrun⟩ := hworks.ends trivial
    obtain ⟨-, hr, hheaded⟩ := hworks.runs k r T1 (hrun k (Nat.le_refl k))
    exact ⟨k, r, T1, hrun, .single (.resolve ht (hrun k (Nat.le_refl k))), hr,
      fun _ => hheaded hopen, by simp⟩

/-- Work on one thing after the other. What is known of a result is still known after calls. -/
theorem calls_mapM {R : α → Table → β → Prop} (xs : List α)
    (hkeep : ∀ x ∈ xs, ∀ b T1 T2, ReflTransGen Called T T1 →
      ReflTransGen Called T1 T2 → R x T1 b → R x T2 b)
    (hf : ∀ x ∈ xs, ∀ T1, ReflTransGen Called T T1 → Calls T1 (f x) (R x)) :
    Calls T (xs.mapM f) fun T1 bs => List.Forall₂ (R · T1) xs bs := by
  induction xs generalizing T with
  | nil => exact calls_pure .nil
  | cons x xs ih =>
    rw [List.mapM_cons]
    refine (hf x (by simp) T .refl).bind fun b T1 hcalls hb => ?_
    have hrest := ih
      (fun y hy c T2 T3 h2 => hkeep y (List.mem_cons_of_mem x hy) c T2 T3 (hcalls.trans h2))
      fun y hy T2 h2 => hf y (List.mem_cons_of_mem x hy) T2 (hcalls.trans h2)
    refine hrest.bind fun bs T2 hcalls2 hbs => calls_pure ?_
    exact .cons (hkeep x (by simp) b T1 T2 hcalls hcalls2 hb) hbs

/-- From some table on the work gives that result and leaves the table as it is. -/
def Fixed (T : Table) (x : Typing α) (a : α) : Prop :=
  ∀ U : Table, U.Sound → T ≤ U → ∃ k, ∀ n, k ≤ n → x n U = some (a, U)

theorem Fixed.of_le (h : Fixed T x a) (hle : T ≤ T1) : Fixed T1 x a :=
  fun U hU hleU => h U hU (hle.trans hleU)

theorem Fixed.unique {b : α} (h : Fixed T x a) (h' : Fixed T x b) (hT : T.Sound) : a = b := by
  obtain ⟨k, ha⟩ := h T hT (le_refl T)
  obtain ⟨k', hb⟩ := h' T hT (le_refl T)
  have heq := (ha (max k k') (by omega)).symm.trans (hb (max k k') (by omega))
  exact (Prod.mk.inj (Option.some.inj heq)).1

theorem Fixed.bind {b : β} (hx : Fixed T x a) (hf : Fixed T (f a) b) : Fixed T (x >>= f) b := by
  intro U hU hle
  obtain ⟨k, hx⟩ := hx U hU hle
  obtain ⟨k', hf⟩ := hf U hU hle
  refine ⟨max k k', fun n hn => ?_⟩
  rw [bind_of_some (hx n (by omega))]
  exact hf n (by omega)

theorem fixed_pure : Fixed T (pure a) a := fun _ _ _ => ⟨0, fun _ _ => rfl⟩

theorem Fixed.calls (h : Fixed T x a) (hT : T.Sound) : Calls T x fun T1 b => Fixed T1 x b := by
  obtain ⟨k, hrun⟩ := h T hT (le_refl T)
  exact ⟨k, a, T, hrun, .refl, h⟩

/-- **A selection has what passes the test**, if the test comes to the same ever after. -/
theorem calls_select (test : Ty → Typing Bool) (hT : T.Resolved) (ms : List Ty)
    (htest : ∀ m ∈ ms, ∀ U : Table, U.Resolved → T ≤ U →
      Calls U (test m) fun U1 b => Fixed U1 (test m) b) :
    Calls T (Ty.select test ms) fun T1 ks => (∀ m ∈ ms, ∃ b, Fixed T1 (test m) b) ∧
      ∀ m, m ∈ ks ↔ m ∈ ms ∧ Fixed T1 (test m) true := by
  induction ms generalizing T with
  | nil =>
    unfold Ty.select
    exact calls_pure (by simp)
  | cons m ms ih =>
    unfold Ty.select
    refine (htest m (by simp) T hT (le_refl T)).bind fun b T1 hcalls hb => ?_
    have h1 := hT.calls hcalls
    have hle := (hT.truthful.succeeds hcalls).1.le
    have hrest := ih h1 fun k hk U hU hleU =>
      htest k (List.mem_cons_of_mem m hk) U hU (hle.trans hleU)
    have hlater : ∀ T2, ReflTransGen Called T1 T2 → Fixed T2 (test m) b :=
      fun T2 hcalls2 => hb.of_le (h1.truthful.succeeds hcalls2).1.le
    cases b with
    | true =>
      rw [if_pos rfl]
      refine hrest.bind fun ks T2 hcalls2 ⟨hall, hks⟩ => calls_pure ⟨?_, fun k => ?_⟩
      · exact List.forall_mem_cons.mpr ⟨⟨true, hlater T2 hcalls2⟩, hall⟩
      · rw [List.mem_cons, List.mem_cons, hks]
        constructor
        · rintro (rfl | ⟨hk, hpasses⟩)
          · exact ⟨.inl rfl, hlater T2 hcalls2⟩
          · exact ⟨.inr hk, hpasses⟩
        · rintro ⟨rfl | hk, hpasses⟩
          · exact .inl rfl
          · exact .inr ⟨hk, hpasses⟩
    | false =>
      rw [if_neg (by simp)]
      refine hrest.imp fun ks T2 hcalls2 ⟨hall, hks⟩ => ⟨?_, fun k => ?_⟩
      · exact List.forall_mem_cons.mpr ⟨⟨false, hlater T2 hcalls2⟩, hall⟩
      · rw [List.mem_cons, hks]
        constructor
        · rintro ⟨hk, hpasses⟩
          exact ⟨.inr hk, hpasses⟩
        · rintro ⟨rfl | hk, hpasses⟩
          · have hsound := (h1.calls hcalls2).truthful.sound
            exact absurd (hpasses.unique (hlater T2 hcalls2) hsound) (by simp)
          · exact ⟨hk, hpasses⟩

end Typing

end ShapeCheck
