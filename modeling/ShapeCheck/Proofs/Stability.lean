import ShapeCheck.Proofs.EnumMembers
import ShapeCheck.Proofs.Transitivity

/-!
# Resolution is stable

Answers about assignability are kept by the identities of the two types, so they are right only if a
type always resolves to the same one. What it resolves to the first time may depend on what was
asked before, for expansions are cut off at cycles and where instances nest too deep. But once all
aliases are resolved and the table is frozen, the first answer is the answer for good.

* `Table.Sound.uses` says what such a call does to a table whose aliases are resolved. Apart from
  the members of enums, the table only grows.
* `Ty.resolve_stable` says that the answers stay.
-/

namespace ShapeCheck

open Relation (ReflTransGen)

variable {n : Nat} {e : Entry}

namespace Table

variable {T T1 T2 : Table}

/-- A call on the first table that leaves the second and defines no alias. An enum may be given
members also where its name is taken. -/
inductive Uses (T : Table) : Table → Prop
  | call {T1 : Table} (h : T.Called T1) : Uses T T1
  | enumeration (name : String) (isConst : Bool) {members : List (String × Ty)}
    (hvalues : ∀ p ∈ members, T.Has p.2 ∧ (T.literal? p.2).isSome) :
    Uses T (Ty.enumOf name isConst members T).2
  | resolveAlias {T1 : Table} {name : String} {n : Nat} {p : Ty × Option AliasError}
    (hrun : Alias.resolve name n T = some (p, T1)) : Uses T T1
  | resolveAll {T1 : Table} {n : Nat} {errors : List AliasError}
    (hrun : Alias.resolveAll n T = some (errors, T1)) : Uses T T1

section Unfilled

theorem getElem?_unfilled_eq_some (h : T.unfilled.entries[n]? = some e) :
    ∃ f, T.entries[n]? = some f ∧ e = { f with shape := f.shape.unfilled } := by
  rw [getElem?_unfilled] at h
  obtain ⟨f, hf, rfl⟩ := Option.map_eq_some_iff.mp h
  exact ⟨f, hf, rfl⟩

theorem opens_unfilled (t : Ty) : T.unfilled.Opens t ↔ T.Opens t := by
  unfold Opens
  rw [shape_unfilled]
  cases T.shape t with
  | _ => exact Iff.rfl

theorem unfilled_le (h : T ≤ T1) : T.unfilled ≤ T1.unfilled where
  entries n e he := by
    obtain ⟨f, hf, rfl⟩ := getElem?_unfilled_eq_some he
    rw [getElem?_unfilled, h.entries n f hf]
    rfl
  typeVars := h.typeVars
  aliases := h.aliases
  frozen := h.frozen
  kept := h.kept
  opened t r hr := by
    rw [opens_unfilled]
    exact h.opened t r hr

theorem EntryValid.unfilled (h : T.EntryValid n e) :
    T.unfilled.EntryValid n { e with shape := e.shape.unfilled } := by
  obtain ⟨shape, key, text⟩ := e
  cases shape with
  | enumeration en =>
    exact ⟨by simp [Shape.unfilled, Shape.parts],
      by simp [Shape.unfilled], by simp [Shape.unfilled],
      by simp [Shape.unfilled], by simp [Shape.unfilled], h.key, h.isEntry⟩
  | _ =>
    refine ⟨h.parts, by simp [Shape.unfilled], h.vars, fun ms hms => ?_, fun enum name v hv => ?_,
      h.key, h.isEntry⟩
    · have hsame := (resembles_unfilled T).shape
      exact (h.union ms hms).congr (fun m _ => (hsame m).members) (fun m _ => (hsame m).literal?)
        (by simp)
    · rw [(resembles_unfilled T).literal?]
      exact h.values enum name v hv

theorem WellFormed.unfilled (hT : T.WellFormed) : T.unfilled.WellFormed where
  entry n e he := by
    obtain ⟨f, hf, rfl⟩ := getElem?_unfilled_eq_some he
    exact (hT.entry n f hf).unfilled
  unique i j e f he hf hplain hkey := by
    obtain ⟨e', he', rfl⟩ := getElem?_unfilled_eq_some he
    obtain ⟨f', hf', rfl⟩ := getElem?_unfilled_eq_some hf
    refine hT.unique i j e' f' he' hf' ?_ hkey
    rw [← hplain]
    cases e'.shape with
    | _ => rfl
  typeVars i info hi := by
    obtain ⟨hb, hd⟩ := hT.typeVars i info hi
    exact ⟨fun b h => (has_unfilled T b).mpr (hb b h), fun d h => (has_unfilled T d).mpr (hd d h)⟩
  aliases a ha := by
    obtain ⟨htarget, hparams, hout⟩ := hT.aliases a ha
    exact ⟨(has_unfilled T _).mpr htarget, hparams, fun t h => (has_unfilled T t).mpr (hout t h)⟩
  instances t r hr := (has_unfilled T r).mpr (hT.instances t r hr)

theorem Sound.unfilled (hT : T.Sound) : T.unfilled.Sound := ⟨hT.wellFormed.unfilled, hT.settled⟩

/-- Giving members to an enum cannot be seen where they are left out. -/
theorem unfilled_reshape {en : Enumeration} (he : T.entries[n]? = some e)
    (hen : e.shape = .enumeration en) (ms : List Ty) :
    (T.reshape n (.enumeration { en with members := ms })).unfilled = T.unfilled := by
  have hentries : (T.reshape n (.enumeration { en with members := ms })).unfilled.entries =
      T.unfilled.entries := by
    refine Array.ext_getElem? fun i => ?_
    rw [getElem?_unfilled, getElem?_unfilled]
    by_cases hi : i = n
    · subst hi
      rw [getElem?_reshape_same _ he, he]
      simp [Shape.unfilled, hen]
    · rw [getElem?_reshape_other _ hi]
  unfold Table.unfilled at hentries ⊢
  simp only at hentries
  rw [hentries]
  rfl

/-- Defining an enum only adds to a table, apart from the members of enums. -/
theorem unfilled_le_enumOf (hT : T.WellFormed) (name : String) (isConst : Bool)
    {members : List (String × Ty)} (hvalues : ∀ p ∈ members, T.Has p.2 ∧ (T.literal? p.2).isSome) :
    T.unfilled ≤ (Ty.enumOf name isConst members T).2.unfilled := by
  rcases hT.enumOf_cases name isConst hvalues with
    ⟨-, h1⟩ | ⟨n, e, en, ms, T2, -, h2, he, hshape, -, hrun⟩
  · exact unfilled_le h1.le
  · rw [hrun, unfilled_reshape he hshape]
    exact unfilled_le h2.le

end Unfilled

section Calls

/-- A call on a table whose aliases are resolved only adds to it. -/
theorem Sound.called (hT : T.Sound) (hcall : T.Called T1) : T ≤ T1 ∧ T1.Sound := by
  cases hcall with
  | construct c hin hfits =>
    obtain ⟨t, T', hrun, hT', h', -, -⟩ := Construction.run_spec hT.wellFormed hin hfits
    rw [hrun]
    exact ⟨h'.le, hT.of_adds hT' h'⟩
  | declare info hbound hdefault =>
    obtain ⟨hT1, hle⟩ := hT.wellFormed.newTypeVar hbound hdefault
    exact ⟨hle, hT1, hT.settled.of_le hle⟩
  | resolve ht hrun =>
    obtain ⟨hat, -⟩ := Ty.lasting_resolve hT ht _ _ _ hrun
    exact ⟨hat.grows.le, hat.ok⟩
  | @assignable s t b n _ hs ht hrun =>
    rcases asked_cases hrun with ⟨rfl, -⟩ | ⟨T', hdecide, hkept⟩
    · exact ⟨le_refl _, hT⟩
    · obtain ⟨hat, -⟩ := Assign.runs_decideAt (K := .lasting) (fun T u => Assign.works_resolve)
        (Nat.le_refl n) [] hT hs ht n b T' hdecide
      rw [hkept hat.grows.le.frozen.symm]
      exact ⟨hat.grows.le.trans (le_keeping s t b T'), Sound.keeping s t b hat.ok⟩

/-- An alias that is resolved is only looked up. -/
theorem Sound.resolveAlias (hT : T.Sound) {name : String} {p : Ty × Option AliasError}
    (hrun : Alias.resolve name n T = some (p, T1)) : T1 = T := by
  rw [Alias.resolve, Typing.get_bind] at hrun
  cases ha : T.alias? name with
  | none =>
    rw [ha] at hrun
    exact (congrArg Prod.snd (Option.some.inj hrun)).symm
  | some a =>
    obtain ⟨o, ho⟩ := Option.isSome_iff_exists.mp (hT.settled name a ha)
    rw [ha] at hrun
    obtain ⟨t, T', hfirst, hrest⟩ := Typing.bind_some hrun
    obtain rfl : T' = T := by
      change Expansion.resolveAlias (Expansion.expandAt n) [] a n T = some (t, T') at hfirst
      rw [Expansion.resolveAlias, ho] at hfirst
      exact (congrArg Prod.snd (Option.some.inj hfirst)).symm
    rw [Typing.get_bind] at hrest
    rcases hout : (T'.alias? name).bind Alias.outcome with _ | (_ | _)
    all_goals
      rw [hout] at hrest
      exact (congrArg Prod.snd (Option.some.inj hrest)).symm

theorem Sound.resolveAll (hT : T.Sound) {errors : List AliasError}
    (hrun : Alias.resolveAll n T = some (errors, T1)) : T1 = T := by
  rw [Alias.resolveAll, Typing.get_bind] at hrun
  obtain ⟨ps, T', hmap, hrest⟩ := Typing.bind_some hrun
  obtain rfl : T' = T1 := congrArg Prod.snd (Option.some.inj hrest)
  clear hrest
  generalize T.aliases.map Alias.name = names at hmap
  induction names generalizing ps with
  | nil => exact (congrArg Prod.snd (Option.some.inj hmap)).symm
  | cons name names ih =>
    rw [List.mapM_cons] at hmap
    obtain ⟨p, U, hfirst, hothers⟩ := Typing.bind_some hmap
    obtain rfl := hT.resolveAlias hfirst
    obtain ⟨qs, U', hlater, hlast⟩ := Typing.bind_some hothers
    obtain rfl : U' = T' := congrArg Prod.snd (Option.some.inj hlast)
    exact ih qs hlater

/-- Whatever a table is used for, it only grows, apart from the members of enums. -/
theorem Sound.uses (hT : T.Sound) (huse : T.Uses T1) : T.unfilled ≤ T1.unfilled ∧ T1.Sound := by
  cases huse with
  | call hcall =>
    obtain ⟨hle, hT1⟩ := hT.called hcall
    exact ⟨unfilled_le hle, hT1⟩
  | enumeration name isConst hvalues =>
    have hle := unfilled_le_enumOf hT.wellFormed name isConst hvalues
    refine ⟨hle, (Agrees.enumOf hT.wellFormed name isConst hvalues).1, fun other a ha => ?_⟩
    exact hT.unfilled.settled.of_le hle other a ha
  | resolveAlias hrun =>
    obtain rfl := hT.resolveAlias hrun
    exact ⟨le_refl _, hT⟩
  | resolveAll hrun =>
    obtain rfl := hT.resolveAll hrun
    exact ⟨le_refl _, hT⟩

theorem Sound.used (hT : T.Sound) (huses : ReflTransGen Uses T T1) :
    T.unfilled ≤ T1.unfilled ∧ T1.Sound := by
  induction huses with
  | refl => exact ⟨le_refl _, hT⟩
  | tail _ huse ih =>
    obtain ⟨hle, hT1⟩ := ih
    obtain ⟨hle', hT2⟩ := hT1.uses huse
    exact ⟨hle.trans hle', hT2⟩

theorem Sound.freeze (hT : T.Sound) : (Alias.freeze T).2.Sound :=
  ⟨hT.wellFormed.congr rfl rfl rfl rfl, hT.settled⟩

end Calls

end Table

namespace Ty

variable {T T1 V : Table} {t r : Ty}

/-- An answer is given again however the table was used since. -/
theorem resolve_later (hT : T.Sound) (ht : T.Has t) (hrun : t.resolve n T = some (r, T1))
    (huses : ReflTransGen Table.Uses T1 V) {m : Nat} (hm : n ≤ m) :
    ∃ W, t.resolve m V = some (r, W) := by
  have hT1 : T1.Sound := (hT.called (.resolve ht hrun)).2
  have hunfilled : t.resolve n T.unfilled = some (r, T1.unfilled) := by
    rw [resolve_unfilled t n T, hrun]
    rfl
  obtain ⟨hat, -⟩ := lasting_resolve hT.unfilled ((Table.has_unfilled T t).mpr ht) _ _ _ hunfilled
  have hagain := hat.again m hm V.unfilled (hT1.used huses).1
  rw [resolve_unfilled t m V] at hagain
  obtain ⟨⟨r', W⟩, hlater, hsame⟩ := Option.map_eq_some_iff.mp hagain
  obtain ⟨rfl, -⟩ := Prod.mk.inj hsame
  exact ⟨W, hlater⟩

/-- **Resolution is stable.** When all aliases of a table were resolved and it was frozen, every
type resolves to some type, and to the same one ever after, whatever the table is used for in
between. -/
theorem resolve_stable {T T1 T2 T3 : Table} (hbuilt : ReflTransGen Table.Operated {} T)
    {n : Nat} {errors : List AliasError} (hall : Alias.resolveAll n T = some (errors, T1))
    (hbefore : ReflTransGen Table.Uses T1 T2)
    (hafter : ReflTransGen Table.Uses (Alias.freeze T2).2 T3) {t : Ty} (ht : T3.Has t) :
    ∃ k r U, (∀ m, k ≤ m → t.resolve m T3 = some (r, U)) ∧
      ∀ V, ReflTransGen Table.Uses U V →
        (∀ m, k ≤ m → ∃ W, t.resolve m V = some (r, W)) ∧
        ∀ m r' W, t.resolve m V = some (r', W) → r' = r := by
  have hT := (Table.faithful_empty.operations hbuilt).1.wellFormed
  have hT1 : T1.Sound := (Alias.resolveAll_sound hT hall).1
  have hT3 : T3.Sound := ((hT1.used hbefore).2.freeze.used hafter).2
  obtain ⟨k, ⟨r, U⟩, hrun⟩ := resolve_ends hT3 ht
  refine ⟨k, r, U, hrun, fun V hV => ?_⟩
  have hlater := fun m (hm : k ≤ m) => resolve_later hT3 ht (hrun k (Nat.le_refl k)) hV hm
  refine ⟨hlater, fun m r' W hsome => ?_⟩
  obtain ⟨hU, hsoundU⟩ := hT3.called (.resolve ht (hrun k (Nat.le_refl k)))
  obtain ⟨hUV, hsoundV⟩ := hsoundU.used hV
  have hhas : V.Has t := by
    rw [← Table.has_unfilled]
    exact Table.has_of_le hUV ((Table.has_unfilled U t).mpr (Table.has_of_le hU ht))
  -- with more steps both answers are the one of the same run
  obtain ⟨W', hlarge⟩ := hlater (max k m) (Nat.le_max_left k m)
  have hmore := (lasting_resolve hsoundV hhas m r' W hsome).1.more (max k m) (Nat.le_max_right k m)
  rw [hlarge] at hmore
  exact (congrArg Prod.fst (Option.some.inj hmore)).symm

end Ty

namespace Table

theorem Prepared.operated {T : Table} (h : T.Prepared) : ReflTransGen Operated {} T := by
  induction h with
  | empty => exact .refl
  | call _ hcall ih => exact ih.tail (.call hcall)
  | rebind _ hbind ih => exact ih.tail (.rebind hbind)
  | define _ name hparams htarget ih => exact ih.tail (.define name hparams htarget)
  | resolveAlias _ hrun ih => exact ih.tail (.resolveAlias hrun)

/-- A type in 33 references to an alias that stands for its argument resolves to the error type,
since references nest too deep, and stays so after the types inside of it were resolved. -/
theorem resolve_stable_nested :
    ∃ k U, (∀ m, k ≤ m → (nested 33).1.resolve m (nested 33).2 = some (.invalid, U)) ∧
      ∀ V, ReflTransGen Uses U V →
        ∀ m, k ≤ m → ∃ W, (nested 33).1.resolve m V = some (.invalid, W) := by
  obtain ⟨hcalls, hhas⟩ := called_nested 33
  have hsome : (Alias.resolveAll 3 naming).isSome := by decide +kernel
  obtain ⟨⟨errors, T1⟩, hall⟩ := Option.isSome_iff_exists.mp hsome
  have hnesting : nesting = (Alias.freeze T1).2 := by rw [nesting, hall]
  rw [hnesting] at hcalls
  obtain ⟨k, r, U, hrun, hlater⟩ := Ty.resolve_stable prepared_naming.operated hall .refl
    (ReflTransGen.mono (fun _ _ => .call) _ _ hcalls) hhas
  obtain ⟨⟨_, W⟩, hfirst, rfl⟩ := Option.map_eq_some_iff.mp facts_nested.2.2.1
  have hr : r = .invalid := by
    have hsound : (nested 33).2.Sound := (resolved_nesting.calls
      (called_nested 33).1).truthful.sound
    have hmore := (Ty.lasting_resolve hsound hhas _ _ _ hfirst).1.more (max 100 k)
      (Nat.le_max_left 100 k)
    rw [hrun _ (Nat.le_max_right 100 k)] at hmore
    exact congrArg Prod.fst (Option.some.inj hmore)
  subst hr
  exact ⟨k, U, hrun, fun V hV => (hlater V hV).1⟩

end Table

end ShapeCheck
