import ShapeCheck.Proofs.ChainBounds

/-!
# What is expanded is never resolved again

An expansion leaves no reference at the head of a type, at no depth of unions and intersections, and
neither does anything that a table recalls. Making a type readonly resolves it first, and its
members with it. Inside an expansion this could not be done: the aliases are being resolved already.
But there is nothing to resolve either, so any way of resolving will do that leaves a type as it is
which has nothing to be looked up, also one that gets stuck on all others.

* `Expansion.leaves_bare` is the main result.
-/

namespace ShapeCheck

open Relation (ReflTransGen)

variable {α β : Type} {x y : Typing α} {f g : α → Typing β} {t : Ty}

namespace Table

/-- The second type stands at the head of the first: it is this type, or a member of a union or an
intersection that stands there. -/
def AtHead (T : Table) : Ty → Ty → Prop := ReflTransGen fun t m => m ∈ T.combined t

/-- No reference stands at the head of the type. -/
def Bare (T : Table) (t : Ty) : Prop := ∀ u, T.AtHead t u → (T.shape u).isReference = false

variable {T : Table} {F : Family} {u : Ty}

theorem Headed.atHead (h : T.Headed F t) (hu : T.AtHead t u) : T.Headed F u := by
  induction hu with
  | refl => exact h
  | tail _ hm ih => exact ih.combined hm

theorem Headed.bare (h : T.Headed F t) : T.Bare t := fun _ hu => (h.atHead hu).isReference

/-- Nothing that the table recalls has a reference at its head. -/
structure RecallsBare (T : Table) : Prop where
  instances : ∀ t r, T.instances.lookup t = some r → T.Bare r
  outcomes : ∀ name a o, T.alias? name = some a → a.outcome = some o →
    T.Bare (Expansion.outcomeType o)

theorem Recalls.bare (h : T.Recalls .closed) : T.RecallsBare where
  instances t r hr := Headed.bare (h.instances t r hr)
  outcomes name a o ha ho := by
    cases o with
    | resolved t => exact Headed.bare (h.outcomes name a t ha ho)
    | cyclic names => exact (Family.rebuilds_all.headed_prim T .invalid).bare

end Table

namespace Typing

variable {K : Regime} {T : Table} {n : Nat}

theorem bind_congr (hx : x n T = y n T)
    (hf : ∀ a T1, y n T = some (a, T1) → f a n T1 = g a n T1) : (x >>= f) n T = (y >>= g) n T := by
  change (x n T).bind (fun p => f p.1 n p.2) = (y n T).bind (fun p => g p.1 n p.2)
  rw [hx]
  cases hy : y n T with
  | none => rfl
  | some p => exact hf p.1 p.2 hy

/-- Two pieces of work are the same if their parts are, on all tables that the second one comes
to. -/
theorem Runs.bind_congr {V : Table → α → Prop} (hy : Runs K T y y V) (hx : x n T = y n T)
    (hf : ∀ a T1, K.ok T1 → K.grows T T1 → V T1 a → f a n T1 = g a n T1) :
    (x >>= f) n T = (y >>= g) n T := by
  refine Typing.bind_congr hx fun a T1 hrun => ?_
  obtain ⟨hat, ha⟩ := hy n a T1 hrun
  exact hf a T1 hat.ok hat.grows ha

theorem mapM_congr {V : Table → β → Prop} (hT : K.ok T) (xs : List α)
    (hruns : ∀ x ∈ xs, ∀ T1, K.ok T1 → K.grows T T1 → Runs K T1 (g x) (g x) V)
    (hsame : ∀ x ∈ xs, ∀ T1, K.ok T1 → K.grows T T1 → f x n T1 = g x n T1) :
    xs.mapM f n T = xs.mapM g n T := by
  induction xs generalizing T with
  | nil => rfl
  | cons x xs ih =>
    rw [List.mapM_cons, List.mapM_cons]
    refine (hruns x (by simp) T hT (K.refl T)).bind_congr (hsame x (by simp) T hT (K.refl T)) ?_
    intro b T1 hT1 h1 _
    refine Typing.bind_congr (ih hT1 ?_ ?_) fun _ _ _ => rfl
    · exact fun y hy T2 hT2 h2 => hruns y (by simp [hy]) T2 hT2 (K.trans h1 h2)
    · exact fun y hy T2 hT2 h2 => hsame y (by simp [hy]) T2 hT2 (K.trans h1 h2)

end Typing

/-- The way of resolving leaves a type as it is where nothing at its head is to be looked up. -/
def Ty.Passes (head : Ty → Typing Ty) : Prop :=
  ∀ T t n, Ty.hasOpenHead T t = false → head t n T = some (t, T)

theorem Ty.passes_resolve : Ty.Passes Ty.resolve := fun _ _ n h => Ty.resolve_closed n h

/-- Resolving that gets stuck where something is to be looked up. -/
def Ty.resolveStuck (t : Ty) : Typing Ty := do
  if Ty.hasOpenHead (← get) t then Typing.outOfSteps else return t

theorem Ty.passes_resolveStuck : Ty.Passes Ty.resolveStuck := by
  intro T t n h
  rw [resolveStuck, Typing.get_bind, h]
  rfl

namespace Expansion

open Typing

section Using

-- How a type is resolved before it becomes readonly.
variable (head : Ty → Typing Ty)

/-- One level of an expansion in which types are resolved in the given way before they become
readonly. -/
def expandStepUsing (expand : Chain → Ty → Typing Ty) (depth : Nat) (chain : Chain) (t : Ty) :
    Typing Ty := do
  let table ← get
  match table.shape t with
  | .reference name arguments =>
    match table.alias? name, arguments with
    | none, [argument] =>
      if name = readonlyName then Ty.readonlyAt head depth (← expand chain argument)
      else instantiate expand chain t name arguments
    | some a, [] =>
      if a.params.isEmpty then resolveAlias expand chain a
      else instantiate expand chain t name arguments
    | _, _ => instantiate expand chain t name arguments
  | .union ms => do Ty.unionOf (← ms.mapM (expand chain))
  | .intersection ms => do Ty.intersectionOf (← ms.mapM (expand chain))
  | _ => return t

/-- An expansion in which types are resolved in the given way before they become readonly. -/
def expandUsing : Nat → Chain → Ty → Typing Ty
  | 0, _, _ => Typing.outOfSteps
  | depth + 1, chain, t => expandStepUsing head (expandUsing depth) depth chain t

end Using

section Same

variable {head : Ty → Typing Ty} (hhead : Ty.Passes head) {T0 T : Table}

include hhead

/-- What has no reference at its head becomes readonly without anything being resolved. -/
theorem readonlyAt_using (hT : Table.Recalling .closed T0 T) (d : Nat)
    (ht : T.Headed .all t) (n : Nat) : Ty.readonlyAt head d t n T = Ty.readonlyAt pure d t n T := by
  induction d generalizing T t with
  | zero => rfl
  | succ d ih =>
    let K := Regime.recalling .closed T0
    have hgathers : Table.Family.closed.Gathers := Table.Family.rebuilds_all.gathers
    have hmembers : ∀ ms : List Ty, (∀ m ∈ ms, m ∈ T.combined t) →
        ms.mapM (Ty.readonlyAt head d) n T = ms.mapM (Ty.readonlyAt pure d) n T := by
      intro ms hms
      have hkeep : ∀ m ∈ ms, ∀ T1, K.grows T T1 → T1.Headed .all m := fun m hm T1 h1 =>
        (ht.combined (hms m hm)).of_shapes (fun _ hu => K.has h1 hu) fun _ hu => K.shape h1 hu
      refine mapM_congr (K := K) (V := Table.Family.closed.Mem) hT ms ?_ ?_
      · exact fun m hm T1 hT1 h1 => Ty.runs_readonlyAt hgathers
          (Nat.le_refl d) hT1 (hkeep m hm T1 h1)
      · exact fun m hm T1 hT1 h1 => ih hT1 (hkeep m hm T1 h1)
    rw [Ty.readonlyAt, Ty.readonlyAt, bind_of_some (hhead T t n ht.hasOpenHead),
      pure_bind, get_bind,
      get_bind]
    unfold Table.combined at hmembers
    cases hs : T.shape t with
    | union ms | intersection ms =>
      rw [hs] at hmembers
      exact bind_congr (hmembers ms fun m hm => hm) fun _ _ _ => rfl
    | _ => rfl

variable {expand expand' : Chain → Ty → Typing Ty} {chain : Chain} {n : Nat}

/-- The second expansion keeps to the regime, and the first one is the same. -/
structure Follows (T0 : Table) (n : Nat) (expand expand' : Chain → Ty → Typing Ty) : Prop where
  runs : ExpandBuilds (.recalling .closed T0) .all .closed expand' expand'
  same : ∀ chain T t, Table.Recalling .closed T0 T → T.Has t →
    expand chain t n T = expand' chain t n T

omit hhead in
theorem resolveAlias_same (h : Follows T0 n expand expand') (hT : Table.Recalling .closed T0 T)
    {a : Alias} (ha : a ∈ T.aliases) :
    resolveAlias expand chain a n T = resolveAlias expand' chain a n T := by
  unfold resolveAlias
  cases a.outcome with
  | some o => rfl
  | none =>
    dsimp only
    split_ifs
    · rfl
    · unfold complete
      exact bind_congr (h.same _ T _ hT (hT.wellFormed.aliases a ha).1) fun _ _ _ => rfl

omit hhead in
theorem instantiate_same (h : Follows T0 n expand expand') (hT : Table.Recalling .closed T0 T)
    {ref : Ty} {name : String} {arguments : List Ty}
    (href : T.shape ref = .reference name arguments) :
    instantiate expand chain ref name arguments n T =
      instantiate expand' chain ref name arguments n T := by
  have hK := Table.resolves_closed T0
  have hargs : ∀ t ∈ arguments, T.Has t := by
    intro t ht
    exact hT.wellFormed.has_part (Table.has_of_shape (by rw [href]; simp)) (by rw [href]; exact ht)
  unfold instantiate
  rw [get_bind, get_bind]
  cases T.instances.lookup ref with
  | some r => rfl
  | none =>
  cases ha : T.alias? name with
  | none => rfl
  | some a =>
  dsimp only
  split_ifs
  · rfl
  · rfl
  · rfl
  refine (runs_lift (K := .recalling .closed T0) hT (hK.instantiated hT ha hargs)).bind_congr rfl ?_
  intro subs T1 hT1 _ hsubs
  refine (runs_lift hT1 hsubs).bind_congr rfl fun target T2 hT2 _ htarget => ?_
  exact bind_congr (h.same _ T2 target hT2 htarget) fun _ _ _ => rfl

/-- One level of an expansion is the same if the levels below are. -/
theorem expandStepUsing_same (h : Follows T0 n expand expand') (hT : Table.Recalling .closed T0 T)
    (d : Nat) (ht : T.Has t) :
    expandStepUsing head expand d chain t n T = expandStep expand' d chain t n T := by
  have hparts : ∀ ms : List Ty, (∀ m ∈ ms, m ∈ (T.shape t).parts) →
      ms.mapM (expand chain) n T = ms.mapM (expand' chain) n T := by
    intro ms hms
    have hhas := fun m hm => hT.wellFormed.has_part ht (hms m hm)
    refine mapM_congr (K := .recalling .closed T0) (V := Table.Family.closed.Mem) hT ms ?_ ?_
    · exact fun m hm T1 hT1 h1 => h.runs chain T1 m hT1 (h1.has (hhas m hm))
    · exact fun m hm T1 hT1 h1 => h.same chain T1 m hT1 (h1.has (hhas m hm))
  unfold expandStepUsing expandStep
  rw [get_bind, get_bind]
  cases hs : T.shape t with
  | union ms | intersection ms =>
    rw [hs] at hparts
    exact bind_congr (hparts ms fun m hm => hm) fun _ _ _ => rfl
  | reference name arguments =>
    have hinst : instantiate expand chain t name arguments n T =
        instantiate expand' chain t name arguments n T := instantiate_same h hT hs
    dsimp only
    cases ha : T.alias? name with
    | none =>
      rcases arguments with _ | ⟨argument, _ | ⟨second, rest⟩⟩
      · exact hinst
      · dsimp only
        split_ifs
        · have hargument : T.Has argument :=
            hT.wellFormed.has_part ht (by rw [hs]; simp [Shape.parts])
          refine (h.runs chain T argument hT hargument).bind_congr
            (h.same chain T argument hT hargument) ?_
          exact fun u T1 hT1 _ hu => readonlyAt_using hhead hT1 d hu n
        · exact hinst
      · exact hinst
    | some a =>
      rcases arguments with _ | ⟨first, rest⟩
      · dsimp only
        split_ifs
        · exact resolveAlias_same h hT (Table.alias?_eq_some ha).1
        · exact hinst
      · exact hinst
  | _ => rfl

/-- **An expansion resolves nothing before it becomes readonly**, in no table that it comes to. -/
theorem expandUsing_eq (d : Nat) (chain : Chain) (hT : Table.Recalling .closed T0 T)
    (ht : T.Has t) (n : Nat) : expandUsing head d chain t n T = expandAt d chain t n T := by
  induction d generalizing T chain t with
  | zero => rfl
  | succ d ih =>
    refine expandStepUsing_same hhead ⟨?_, fun chain T t hT ht => ih chain hT ht⟩ hT d ht
    exact expandBuilds_expandAt (Table.resolves_closed T0) (Nat.le_refl d)

end Same

end Expansion

open Table Expansion

/-- **An expansion leaves no reference at the head**, in every table that operations leave, inside
every chain and for every type, and so do all that the table recalls then and all that it recalls
afterwards. What becomes readonly in it needs no resolving, so it does not matter how that would be
done. -/
theorem Expansion.leaves_bare {T : Table} (hT : ReflTransGen Operated {} T) :
    T.RecallsBare ∧ ∀ chain t, T.Has t →
      (∃ k r T1, (∀ d n, k ≤ d → expandAt d chain t n T = some (r, T1)) ∧ T1.Bare r ∧
        T1.RecallsBare) ∧
      ∀ head, Ty.Passes head → ∀ d n, expandUsing head d chain t n T = expandAt d chain t n T := by
  have hwf := wellFormed_of_operated hT
  have hrecalls := recalls_of_operations hT
  have hok : Recalling .closed T T := ⟨hwf, .refl T, hrecalls⟩
  refine ⟨hrecalls.bare, fun chain t ht => ⟨?_,
    fun head hhead d n => expandUsing_eq hhead d chain hok ht n⟩⟩
  obtain ⟨k, ⟨r, T1⟩, hrun⟩ := expandAt_building_ends (T.aliases.map Alias.name) hwf
    (fun name => (isSome_alias? T name).mp) chain ht
  have hruns := fun d (hd : k ≤ d) =>
    expandBuilds_expandAt (resolves_closed T) hd chain T t hok ht 0 r T1 hrun
  obtain ⟨hat, hr⟩ := hruns k (Nat.le_refl k)
  exact ⟨k, r, T1, fun d n hd => (hruns d hd).1.more n (Nat.zero_le n), Headed.bare hr,
    hat.ok.recalls.bare⟩

namespace Table

/-- A table with an alias for a list of one text, a reference to it, and one to the same made
readonly. -/
def sealing : Table :=
  let T := ((Construction.tuple { slots := [{ type := .string }] }).run {}).2
  let T := (Alias.define "Row" [] (.made 0) T).2
  let T := ((Construction.reference "Row" []).run T).2
  ((Construction.reference "Readonly" [.made 1]).run T).2

theorem operated_sealing : ReflTransGen Operated {} sealing := by
  have htuple : ReflTransGen Operated {}
      ((Construction.tuple { slots := [{ type := .string }] }).run {}).2 :=
    operated_construct .refl (.tuple _) (by simp [Construction.inputs, Tuple.elements, Ty.string])
      trivial
  have halias : ReflTransGen Operated {} (Alias.define "Row" [] (.made 0) _).2 :=
    htuple.tail (.define "Row" (by simp) (by decide +kernel))
  have hrow := operated_construct halias (.reference "Row" [])
    (by simp [Construction.inputs]) trivial
  exact operated_construct hrow (.reference "Readonly" [.made 1]) (by decide +kernel) trivial

end Table

/-- The alias made readonly, also with resolving that gets stuck wherever something is to be looked
up: the result is the list, readonly. -/
theorem Expansion.leaves_bare_sealing :
    ReflTransGen Operated {} sealing ∧ sealing.Has (.made 2) ∧ sealing.RecallsBare ∧
      (∃ k r T1, (∀ d n, k ≤ d → expandAt d [] (.made 2) n sealing = some (r, T1)) ∧ T1.Bare r ∧
        T1.RecallsBare) ∧
      expandUsing Ty.resolve 3 [] (.made 2) 0 sealing = expandAt 3 [] (.made 2) 0 sealing ∧
      expandUsing Ty.resolveStuck 3 [] (.made 2) 0 sealing = expandAt 3 [] (.made 2) 0 sealing ∧
      (expandAt 3 [] (.made 2) 0 sealing).map (fun p => p.2.shape p.1) =
        some (.tuple { slots := [{ type := .string }], readonly := true }) := by
  have ht : sealing.Has (.made 2) := by decide +kernel
  obtain ⟨hrecalls, hall⟩ := leaves_bare operated_sealing
  obtain ⟨hresult, hsame⟩ := hall [] (.made 2) ht
  exact ⟨operated_sealing, ht, hrecalls, hresult, hsame _ Ty.passes_resolve 3 0,
    hsame _ Ty.passes_resolveStuck 3 0, by with_unfolding_all decide⟩

end ShapeCheck
