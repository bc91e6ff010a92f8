import ShapeCheck.Proofs.HashConsing
import ShapeCheck.Proofs.ParallelTables
import ShapeCheck.Proofs.Resolution

/-!
# What the constructors look at

The constructors of types read the entries of a table and its type parameters, and add entries.
Aliases and remembered answers make no difference to them. So a type that was made once is made
again in every table that has these entries, also where aliases have been resolved meanwhile. A new
entry is printed as its shape says; in particular a reference begins with the name of its alias.

* `Interning.Constructs` and `Typing.Constructs` say this of a piece of work.
* `Table.Gains` says that a table has all entries of another, `Interning.SettlesAt.repeats` that
  work which settled gives the same again in such a table.
-/

namespace ShapeCheck

variable {α : Type} {work : Interning α} {t : Ty} {T T1 : Table} {a : α} {x : Typing α} {n : Nat}

/-- The text is the name, perhaps with arguments in angle brackets. -/
def SpellsName (name text : String) : Prop :=
  text = name ∨ ∃ rest : List Char, text.toList = name.toList ++ '<' :: rest

namespace Table

/-- The table with the entries and type parameters of another. -/
def takeOver (T T1 : Table) : Table := { T with entries := T1.entries, typeVars := T1.typeVars }

/-- The two tables have the same types. -/
structure Matches (T T' : Table) : Prop where
  entries : T'.entries = T.entries
  typeVars : T'.typeVars = T.typeVars

/-- Every reference is printed with the name of its alias in front. -/
def Spelled (T : Table) : Prop :=
  ∀ (n : Nat) (e : Entry) (name : String) (arguments : List Ty), T.entries[n]? = some e →
    e.shape = .reference name arguments → SpellsName name e.text

/-- The second table has all types of the first. -/
structure Gains (T T1 : Table) : Prop where
  entries : ∀ (n : Nat) (e : Entry), T.entries[n]? = some e → T1.entries[n]? = some e
  typeVars : ∀ (i : Nat) (info : TypeVarInfo), T.typeVars[i]? = some info →
    T1.typeVars[i]? = some info

section Matching

variable {T' : Table}

theorem matches_takeOver (T T1 : Table) : T1.Matches (T.takeOver T1) := ⟨rfl, rfl⟩

theorem Matches.takeOver (h : T.Matches T') : T'.takeOver T = T' := by
  obtain ⟨hentries, htypeVars⟩ := h
  unfold Table.takeOver
  rw [← hentries, ← htypeVars]

theorem Matches.shape (h : T.Matches T') : T'.shape = T.shape := by
  funext t
  cases t <;> simp [Table.shape, h.entries]

theorem Matches.text (h : T.Matches T') : T'.text = T.text := by
  funext t
  cases t <;> simp [Table.text, h.entries]

theorem Matches.resembles (h : T.Matches T') : T.Resembles T' where
  size := by rw [h.entries]
  shape t := .inl (by rw [h.shape])
  text := h.text
  typeVar := by
    funext v
    simp [typeVar, h.typeVars]
  find? := by
    funext key
    simp only [Table.find?, h.entries]

theorem parallel_takeOver (V : Table) : Parallel True fun T U => U = V.takeOver T where
  resembles := by
    rintro T _ rfl
    exact (matches_takeOver V T).resembles
  add := by
    rintro T _ s - rfl
    simp only [Ty.add, (matches_takeOver V T).resembles.shapeText s]
    rfl
  fill := by
    rintro - T _ rfl
    refine ⟨(matches_takeOver V T).shape, fun t e => ?_⟩
    cases t <;> rfl

theorem spellsName_angled (name : String) (arguments : List String) :
    SpellsName name (name ++ angled arguments) := by
  unfold angled
  split
  · exact .inl (by simp)
  · refine .inr ⟨(joinWith ", " arguments ++ ">").toList, ?_⟩
    simp

theorem parallel_spelled : Parallel True fun T U => U = T ∧ T.Spelled where
  resembles := by
    rintro _ T ⟨rfl, -⟩
    exact (⟨rfl, rfl⟩ : T.Matches T).resembles
  add := by
    rintro _ T s - ⟨rfl, h⟩
    refine ⟨rfl, fun n e name arguments he hs => ?_⟩
    rcases getElem?_push_cases he with hold | ⟨-, rfl⟩
    · exact h n e name arguments hold hs
    · obtain rfl : s = .reference name arguments := hs
      exact spellsName_angled name _
  fill := by
    rintro - _ T ⟨rfl, h⟩
    refine ⟨rfl, fun t e => ⟨rfl, ?_⟩⟩
    cases t with
    | made n =>
      intro i entry name arguments he hshape
      change (T.entries.modify n fun old => { old with shape := .enumeration e })[i]? =
        some entry at he
      rw [Array.getElem?_modify] at he
      split at he
      · obtain ⟨old, -, rfl⟩ := Option.map_eq_some_iff.mp he
        cases hshape
      · exact h i entry name arguments he hshape
    | _ => exact h

end Matching

end Table

namespace Interning

/-- Work that looks at the entries and type parameters only, changes nothing else and spells
references as their names say. -/
structure Constructs {α : Type} (work : Interning α) : Prop where
  same : ∀ T T' : Table, T.Matches T' → work T' = ((work T).1, T'.takeOver (work T).2)
  spelled : ∀ T : Table, T.Spelled → (work T).2.Spelled

theorem Constructs.of_respects
    (h : ∀ R : Table → Table → Prop, Table.Parallel True R → Respects R work) :
    Constructs work where
  same T T' hT := by
    obtain ⟨hsame, hleft⟩ := h _ (Table.parallel_takeOver T') hT.takeOver.symm
    exact Prod.ext hsame hleft
  spelled T hT := (h _ Table.parallel_spelled ⟨rfl, hT⟩).2.2

theorem constructs_intern (s : Shape) : Constructs (Ty.intern s) :=
  .of_respects fun _ hR => respects_intern hR (.inl trivial)

theorem constructs_unionOf (ts : List Ty) : Constructs (Ty.unionOf ts) :=
  .of_respects fun _ hR => respects_unionOf hR ts

theorem constructs_intersectionOf (ts : List Ty) : Constructs (Ty.intersectionOf ts) :=
  .of_respects fun _ hR => respects_intersectionOf hR ts

end Interning

/-- Every call of a constructor only reads and adds entries. -/
theorem Construction.constructs (c : Construction) : Interning.Constructs c.run := by
  open Interning in
  refine .of_respects fun R hR => ?_
  have hintern := fun s => respects_intern hR (s := s) (.inl trivial)
  cases c with
  | literal l =>
    cases l with
    | boolean b => exact respects_pure _
    | _ => exact hintern _
  | union ts => exact respects_unionOf hR ts
  | intersection ts => exact respects_intersectionOf hR ts
  | classValue name t c => exact (hintern _).bind fun fn => hintern _
  | enumeration name isConst members => exact respects_enumOf hR trivial name isConst members
  | _ => exact hintern _

/-- A call of a constructor changes nothing but the types. -/
theorem Construction.run_takeOver (c : Construction) (T : Table) :
    (c.run T).2 = T.takeOver (c.run T).2 :=
  congrArg Prod.snd (c.constructs.same T T ⟨rfl, rfl⟩)

namespace Table

variable {T2 : Table}

theorem Gains.refl (T : Table) : T.Gains T := ⟨fun _ _ h => h, fun _ _ h => h⟩

theorem Gains.trans (h : T.Gains T1) (h' : T1.Gains T2) : T.Gains T2 :=
  ⟨fun n e he => h'.entries n e (h.entries n e he),
    fun i info hi => h'.typeVars i info (h.typeVars i info hi)⟩

theorem Gains.of_le (h : T ≤ T1) : T.Gains T1 := ⟨h.entries, h.typeVars⟩

theorem Gains.le_takeOver (h : T.Gains T1) : T ≤ T.takeOver T1 :=
  ⟨h.entries, h.typeVars, rfl, rfl, fun _ _ hr => hr, fun _ _ hr => .inl hr⟩

theorem Gains.has (h : T.Gains T1) (ht : T.Has t) : T1.Has t :=
  show (T.takeOver T1).Has t from has_of_le h.le_takeOver ht

theorem Gains.shape (h : T.Gains T1) (ht : T.Has t) : T1.shape t = T.shape t := by
  rw [(matches_takeOver T T1).shape.symm]
  exact shape_of_le h.le_takeOver ht

end Table

/-- Work that settled gives the same in every table that has gained types since, whatever else has
changed. -/
theorem Interning.SettlesAt.repeats {T2 : Table}
    (h : SettlesAt T work a T1) (hwork : Constructs work) (hgains : T1.Gains T2) :
    work T2 = (a, T2) := by
  have hagain := h.again _ hgains.le_takeOver
  have hmatches := Table.matches_takeOver T1 T2
  rw [hwork.same _ T2 ⟨hmatches.entries.symm, hmatches.typeVars.symm⟩, hagain]
  rfl

namespace Typing

/-- Work in bounded steps that looks at the entries and type parameters only, changes nothing else
and spells references as their names say. -/
structure Constructs {α : Type} (x : Typing α) : Prop where
  same : ∀ (n : Nat) (T T' : Table), T.Matches T' →
    x n T' = (x n T).map fun p => (p.1, T'.takeOver p.2)
  spelled : ∀ (n : Nat) (T : Table) (a : α) (T1 : Table), x n T = some (a, T1) → T.Spelled →
    T1.Spelled

theorem Constructs.of_respects
    (h : ∀ R : Table → Table → Prop, Table.Parallel True R → Respects R x) : Constructs x where
  same n T T' hT := by
    have hrel := h _ (Table.parallel_takeOver T') n hT.takeOver.symm
    revert hrel
    generalize x n T = o
    generalize x n T' = o'
    rintro (⟨hsame, hleft⟩ | _)
    · exact congrArg some (Prod.ext hsame hleft)
    · rfl
  spelled n T a T1 hrun hT := by
    have hrel := h _ Table.parallel_spelled n (⟨rfl, hT⟩ : T = T ∧ T.Spelled)
    rw [hrun] at hrel
    obtain ⟨-, -, hspelled⟩ := hrel
    exact hspelled

/-- Such work leaves all but the entries and type parameters as they were. -/
theorem Constructs.takeOver (hx : Constructs x) (h : x n T = some (a, T1)) :
    T1 = T.takeOver T1 := by
  have hsame := hx.same n T T ⟨rfl, rfl⟩
  rw [h] at hsame
  exact congrArg Prod.snd (Option.some.inj hsame)

end Typing

/-- The regime in which tables are only added to, whether their aliases are resolved or not. -/
def Regime.adding : Regime where
  ok := Table.WellFormed
  grows := Table.Adds
  later T T2 := T ≤ T2
  ends := False
  refl := .refl
  trans := .trans
  wellFormed h := h
  settles _ hT1 h _ := ⟨hT1, h⟩
  has h ht := Regime.lasting.has h ht
  shape h ht := Regime.lasting.shape h ht
  later_trans h h' := Regime.lasting.later_trans h h'
  later_reach h h' := Regime.lasting.later_reach h h'
  later_le h := h

namespace Ty

theorem constructs_readonlyAt (d : Nat) (t : Ty) : Typing.Constructs (readonlyAt pure d t) :=
  .of_respects fun _ hR => Typing.respects_readonlyAt hR d t

/-- A type that was made readonly is made readonly again in every table that has gained types
since. -/
theorem readonlyAt_repeats (hT : T.WellFormed) {r : Ty} (ht : T.Has t) {d : Nat}
    (h : readonlyAt pure d t n T = some (r, T1)) :
    T1.WellFormed ∧ T.Adds T1 ∧ T1.Has r ∧ ∀ d' m T2, d ≤ d' → n ≤ m → T1.Gains T2 →
      readonlyAt pure d' t m T2 = some (r, T2) := by
  have hruns := fun (d' : Nat) (hd : d ≤ d') =>
    runs_readonlyAt (K := .adding) Table.Family.gathers_all hd hT ht n r T1 h
  obtain ⟨hat, hr⟩ := hruns d (Nat.le_refl d)
  refine ⟨hat.ok, hat.grows, hr, ?_⟩
  intro d' m T2 hd hm hgains
  have hagain := (hruns d' hd).1.again m hm _ hgains.le_takeOver
  have hmatches := Table.matches_takeOver T1 T2
  rw [(constructs_readonlyAt d' t).same m _ T2 ⟨hmatches.entries.symm, hmatches.typeVars.symm⟩,
    hagain]
  rfl

end Ty

end ShapeCheck
