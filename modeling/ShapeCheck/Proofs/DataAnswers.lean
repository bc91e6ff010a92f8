import ShapeCheck.Proofs.Calling
import ShapeCheck.Proofs.DataEntries
import ShapeCheck.Proofs.Entries
import ShapeCheck.Proofs.LastingFits

/-!
# Answers about data

A comparison of data reads entries only, so its answer is good as long as these are there. A kept
answer was found in an earlier table. No operation takes an entry away since, but an enum that has
no members yet may be given some, and an answer about a type with this enum in it is out of date
then.

* `Table.Tells` says where an answer comes from, `Table.Recounts.operated` that operations keep this
  up.
* `Table.Timely` is an operation that gives no enum of a set its members once answers are kept,
  `Table.repeatable_of_asked` says that answers about data with these enums are right then.
-/

namespace ShapeCheck

open Relation (ReflTransGen)

namespace Table

variable {E : Set Ty} {T T1 V : Table} {s t : Ty} {b : Bool} {n : Nat}

/-- The types and type parameters of a table, without its aliases and all that is remembered. -/
def bare (T : Table) : Table := ({} : Table).takeOver T

/-- Without aliases nothing remains to be resolved. -/
theorem WellFormed.sound_bare (hT : T.WellFormed) : T.bare.Sound where
  wellFormed := ⟨fun n e he =>
    have h := hT.entry n e he
    ⟨h.parts, h.members, h.vars, fun ms hms => (h.union ms hms).of_entries rfl,
      h.values, h.key, h.isEntry⟩,
    hT.unique, hT.typeVars, fun _ h => absurd h List.not_mem_nil, fun _ _ h => nomatch h⟩
  settled _ _ h := nomatch h

theorem includes_bare (T : Table) : T.Includes E T.bare := .of_entries fun _ _ h => h

theorem gains_bare (T : Table) : T.Gains T.bare := ⟨fun _ _ h => h, fun _ _ h => h⟩

/-- Calls change no entry. -/
theorem includes_of_calls (hT : ReflTransGen Operated {} T) (hcalls : ReflTransGen Called T T1) :
    T.Includes E T1 := .of_entries (gains_of_calls hT hcalls).entries

/-! ## Answers that are given again -/

/-- A comparison gives this answer in every table with the entries, if the enums of the set have the
same members there. -/
def Repeatable (E : Set Ty) (T : Table) (s t : Ty) (b : Bool) : Prop :=
  ∃ d n, ∀ V, T.Includes E V → Assign.decideAt d [] s t n V = some (b, V)

theorem Repeatable.of_includes (h : T.Repeatable E s t b) (hincludes : T.Includes E T1) :
    T1.Repeatable E s t b :=
  let ⟨d, n, hrun⟩ := h
  ⟨d, n, fun V hV => hrun V (hincludes.trans hV)⟩

/-- Such an answer is right. -/
theorem Repeatable.holds_iff (h : T.Repeatable E s t b) (hV : V.Sound) (hincludes : T.Includes E V)
    (hs : T.Has s) (ht : T.Has t) : b = true ↔ Assign.Holds V s t := by
  obtain ⟨d, n, hrun⟩ := h
  exact Assign.holds_iff hV (hincludes.lists.has hs) (hincludes.lists.has ht)
    (hrun V hincludes) hV le_rfl

theorem Repeatable.lasts (h : T.Repeatable E s t true) (hV : V.Sound) (hincludes : T.Includes E V)
    (hs : T.Has s) (ht : T.Has t) : Assign.Lasts V s t := by
  obtain ⟨d, n, hrun⟩ := h
  exact Assign.lasts_of_decideAt hV (hincludes.lists.has hs)
    (hincludes.lists.has ht) (hrun V hincludes)

/-- What is data now was data as soon as it was there. -/
theorem DataOf.of_lists (h : T1.DataOf E t) (hT : T.WellFormed) (ht : T.Has t)
    (hlists : T.Lists T1) :
    T.DataOf E t := by
  induction h with
  | @intro t _ hdatum henum _ ih =>
    rcases hlists.saysAlike ht with hsame | ⟨old, new, hold, hnew⟩
    · rw [hsame] at hdatum henum ih
      exact .intro ht hdatum henum fun p hp => ih p hp (hT.has_part ht hp)
    · exact .intro ht (by rw [hold]; rfl) (fun _ => henum (by rw [hnew]; rfl))
        (by simp [hold, Shape.parts])

/-! ## Where answers come from -/

/-- The answer was found in an earlier table. There it was given for good if the types are data, and
the enums of the set have been left as they were since. -/
def Tells (E : Set Ty) (T : Table) (s t : Ty) (b : Bool) : Prop :=
  ∃ T0 : Table, ReflTransGen Operated {} T0 ∧ T0.Includes E T ∧ T0.Has s ∧ T0.Has t ∧
    ∀ E' : Set Ty, T0.DataOf E' s → T0.DataOf E' t → T0.Repeatable E' s t b

/-- All kept answers come from earlier tables. -/
def Recounts (E : Set Ty) (T : Table) : Prop :=
  ∀ s t b, T.verdicts.lookup (s, t) = some b → T.Tells E s t b

theorem Tells.of_includes (h : T.Tells E s t b) (hincludes : T.Includes E T1) : T1.Tells E s t b :=
  let ⟨T0, hT0, hT, hknown⟩ := h
  ⟨T0, hT0, hT.trans hincludes, hknown⟩

/-- About data with enums of the set only, the answer is given again. -/
theorem Tells.repeatable (h : T.Tells E s t b) (hs : T.DataOf E s) (ht : T.DataOf E t) :
    T.Repeatable E s t b := by
  obtain ⟨T0, hT0, hincludes, hs0, ht0, hknown⟩ := h
  have hwf := wellFormed_of_operated hT0
  exact (hknown E (hs.of_lists hwf hs0 hincludes.lists)
    (ht.of_lists hwf ht0 hincludes.lists)).of_includes
    hincludes

/-- The answer to any question comes from the present table or an earlier one. -/
theorem Recounts.answer (h : T.Recounts E) (hT : ReflTransGen Operated {} T)
    (hs : T.Has s) (ht : T.Has t)
    (hrun : s.isAssignableTo t n T = some (b, T1)) : T1.Tells E s t b := by
  have hwf := wellFormed_of_operated hT
  rcases asked_cases hrun with ⟨rfl, ⟨rfl, rfl⟩ | hlook⟩ | ⟨T', hdecide, hkeeping⟩
  · refine ⟨T1, hT, .of_le le_rfl, hs, hs, fun _ _ _ => ⟨1, 0, fun V _ => ?_⟩⟩
    simp only [Assign.decideAt, Assign.step, Assign.byIdentity, if_true]
    rfl
  · exact h s t b hlook
  · have hop : T.Operated T1 := .call (.assignable hs ht hrun)
    have hlists := hop.lists hwf
    refine ⟨T1, hT.tail hop, .of_le le_rfl, hlists.has hs, hlists.has ht, fun E' hs' ht' => ?_⟩
    obtain ⟨⟨-, hle, -⟩, hagain⟩ := Assign.recurs_decideAt hwf n [] (hs'.of_lists hwf hs hlists)
      (ht'.of_lists hwf ht hlists) n b T' hdecide
    obtain rfl := hkeeping hle.frozen.symm
    exact ⟨n, n, fun V hV => hagain V ((Includes.of_le (le_keeping s t b T')).trans hV)⟩

/-- A question adds at most its answer to those that are kept. -/
theorem lookup_asked (hT : T.WellFormed) (hs : T.Has s) (ht : T.Has t)
    (hrun : s.isAssignableTo t n T = some (b, T1)) {p q : Ty} {c : Bool}
    (hlook : T1.verdicts.lookup (p, q) = some c) :
    T.verdicts.lookup (p, q) = some c ∨ p = s ∧ q = t ∧ c = b := by
  rcases asked_building hT hs ht hrun with rfl | ⟨T', -, -, hgrows, rfl⟩
  · exact .inl hlook
  rw [← hgrows.verdicts]
  exact lookup_keeping_cases s t b hlook

/-- **Operations keep up where answers come from**, if they leave the enums of the set as they
are. -/
theorem Recounts.operated (h : T.Recounts E) (hT : ReflTransGen Operated {} T) (hop : T.Operated T1)
    (hincludes : T.verdicts ≠ [] → T.Includes E T1) : T1.Recounts E := by
  intro p q c hlook
  have hkept (hold : T.verdicts.lookup (p, q) = some c) : T1.Tells E p q c :=
    (h p q c hold).of_includes (hincludes fun hnil => by simp [hnil] at hold)
  rcases hop.asks_or_keeps (wellFormed_of_operated hT) with
    ⟨s, t, n, b, hs, ht, hrun⟩ | ⟨-, -, hverdicts⟩
  · rcases lookup_asked (wellFormed_of_operated hT) hs ht hrun hlook with hold | ⟨rfl, rfl, rfl⟩
    · exact hkept hold
    · exact h.answer hT hs ht hrun
  · exact hkept (hverdicts ▸ hlook)

/-! ## Operations in time -/

/-- An operation that gives no enum of the set its members once answers are kept. -/
structure Timely (E : Set Ty) (T T1 : Table) : Prop where
  operated : T.Operated T1
  same : T.verdicts ≠ [] → ∀ u ∈ E, T.Has u → T1.shape u = T.shape u

theorem operated_of_timely (h : ReflTransGen (Timely E) {} T) : ReflTransGen Operated {} T :=
  ReflTransGen.mono (fun _ _ => Timely.operated) _ _ h

theorem timely_of_operated (h : ReflTransGen Operated {} T) : ReflTransGen (Timely ∅) {} T :=
  ReflTransGen.mono (fun _ _ hop => ⟨hop, fun _ _ hu => absurd hu (Set.notMem_empty _)⟩) _ _ h

/-- Calls come in time for every enum. -/
theorem timely_of_calls (hT : ReflTransGen (Timely E) {} T) (hcalls : ReflTransGen Called T T1) :
    ReflTransGen (Timely E) {} T1 := by
  induction hcalls with
  | refl => exact hT
  | tail _ hcall ih =>
    refine ih.tail ⟨.call hcall, fun _ u _ hu => ?_⟩
    exact shape_of_calls (operated_of_timely ih) (.single hcall) hu

theorem recounts_of_timely (h : ReflTransGen (Timely E) {} T) : T.Recounts E := by
  induction h with
  | refl => exact fun _ _ _ hlook => nomatch hlook
  | tail hops hop ih =>
    have hT := operated_of_timely hops
    exact ih.operated hT hop.operated fun hkept =>
      ⟨hop.operated.lists (wellFormed_of_operated hT), hop.same hkept⟩

/-- Data the enums of which were given no members after answers had been kept. -/
def UpToDate (T : Table) (t : Ty) : Prop := ∃ E, ReflTransGen (Timely E) {} T ∧ T.DataOf E t

theorem UpToDate.data (h : T.UpToDate t) : T.Data t :=
  let ⟨_, _, hdata⟩ := h
  hdata.data

/-- **An answer about data is given again**, if the enums in it were given their members in time. -/
theorem repeatable_of_asked (hT : ReflTransGen (Timely E) {} T)
    (hs : T.DataOf E s) (ht : T.DataOf E t)
    (hrun : s.isAssignableTo t n T = some (b, T1)) : T1.Repeatable E s t b := by
  have hoperated := operated_of_timely hT
  have hincludes : T.Includes E T1 :=
    includes_of_calls hoperated (.single (.assignable hs.has ht.has hrun))
  exact ((recounts_of_timely hT).answer hoperated hs.has ht.has hrun).repeatable
    (hincludes.dataOf hs)
    (hincludes.dataOf ht)

end Table

end ShapeCheck
