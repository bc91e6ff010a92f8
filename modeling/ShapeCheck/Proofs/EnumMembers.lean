import ShapeCheck.Proofs.ParallelTables
import ShapeCheck.Proofs.Resolution

/-!
# Resolution overlooks the members of enums

An enum that was made without members can be given some later. It is the one case in which the shape
of an entry changes, so a table in which it happened is no extension of the one before. But
resolving a type never looks at the members of an enum: it does the same in the table in which no
enum has any.

* `Table.Unfills` says that a table is such a table, `Table.parallel_unfills` that the constructors
  do the same in it.
* `Ty.resolve_unfilled` says so of resolution.
-/

namespace ShapeCheck

namespace Table

/-- The table without the members of its enums. -/
def unfilled (T : Table) : Table :=
  { T with entries := T.entries.map fun e => { e with shape := e.shape.unfilled } }

variable (T : Table)

theorem getElem?_unfilled (n : Nat) :
    T.unfilled.entries[n]? = T.entries[n]?.map fun e => { e with shape := e.shape.unfilled } :=
  Array.getElem?_map

theorem shape_unfilled (t : Ty) : T.unfilled.shape t = (T.shape t).unfilled := by
  cases t with
  | prim | truth => rfl
  | made n =>
    simp only [shape, getElem?_unfilled]
    cases T.entries[n]? with
    | none => rfl
    | some e => rfl

@[simp] theorem text_unfilled : T.unfilled.text = T.text := by
  funext t
  cases t with
  | prim | truth => rfl
  | made n =>
    simp only [text, getElem?_unfilled]
    cases T.entries[n]? with
    | none => rfl
    | some e => rfl

@[simp] theorem find?_unfilled (key : String) : T.unfilled.find? key = T.find? key := by
  unfold find? unfilled
  rw [Array.findIdx?_map]
  rfl

@[simp] theorem has_unfilled (t : Ty) : T.unfilled.Has t ↔ T.Has t := by
  simp [Has, unfilled]

@[simp] theorem isReference_unfilled (t : Ty) :
    (T.unfilled.shape t).isReference = (T.shape t).isReference := by
  rw [shape_unfilled]
  cases T.shape t with
  | _ => rfl

@[simp] theorem hasOpenHead_unfilled (t : Ty) :
    Ty.hasOpenHead T.unfilled t = Ty.hasOpenHead T t := by
  rw [Ty.hasOpenHead, Ty.hasOpenHead, shape_unfilled]
  cases T.shape t with
  | intersection ms => simp only [Shape.unfilled, Ty.hasReference, isReference_unfilled]
  | _ => rfl

/-- The second table is the first without the members of its enums. -/
def Unfills (T U : Table) : Prop := U = T.unfilled

theorem resembles_unfilled : T.Resembles T.unfilled where
  size := by simp [unfilled]
  shape t := by
    rw [SaysAlike, shape_unfilled]
    cases T.shape t with
    | enumeration e => exact .inr ⟨e, _, rfl, rfl⟩
    | _ => exact .inl rfl
  text := text_unfilled T
  typeVar := rfl
  find? := funext (find?_unfilled T)

@[simp] theorem alias?_unfilled : T.unfilled.alias? = T.alias? := rfl

@[simp] theorem callable?_unfilled : T.unfilled.callable? = T.callable? :=
  (resembles_unfilled T).callable?

theorem parallel_unfills : Parallel False Unfills where
  resembles := by
    rintro T U rfl
    exact resembles_unfilled T
  add := by
    rintro T U s hs rfl
    rw [Unfills, Ty.add, Ty.add, (resembles_unfilled T).shapeText]
    simp [unfilled, hs.resolve_left id]
  fill := False.elim

end Table

/-! ## Resolution -/

namespace Interning

/-- The parts of a substitution only construct types. -/
theorem substitute_unfilled (t : Ty) (subs : Substitution) (T : Table) :
    t.substitute subs T.unfilled = ((t.substitute subs T).1, (t.substitute subs T).2.unfilled) :=
  have hsame := respects_substitute Table.parallel_unfills t subs (T := T) rfl
  Prod.ext hsame.1 hsame.2

theorem respects_modify {change : Table → Table}
    (h : ∀ T : Table, change T.unfilled = (change T).unfilled) :
    Respects Table.Unfills (modify change : Interning Unit) := by
  rintro T U rfl
  exact ⟨rfl, h T⟩

theorem respects_updateAlias (name : String) (change : Alias → Alias) :
    Respects Table.Unfills (modify (·.updateAlias name change) : Interning Unit) :=
  respects_modify fun _ => rfl

end Interning

open Table Interning

namespace Expansion

theorem respects_remember (t r : Ty) : Respects Unfills (remember t r) :=
  respects_modify fun _ => rfl

theorem respects_poison (names : List String) (name : String) (i : Nat) :
    Respects Unfills (poison names name i) := by
  refine respects_get_bind (fun T U h => by rw [h, alias?_unfilled]) fun T => ?_
  split
  · refine (respects_updateAlias _ _).bind fun _ => ?_
    exact (respects_intern parallel_unfills (.inr rfl)).bind fun t => respects_remember t _
  · exact respects_pure ()

theorem respects_markCycle (chain : Chain) (key : String) :
    Respects Unfills (markCycle chain key) := by
  have hall : ∀ ps : List (String × Nat),
      Respects Unfills (ps.forM fun p => poison (cycleNames chain key) p.1 p.2) := by
    intro ps
    induction ps with
    | nil => exact respects_pure ()
    | cons p ps ih => exact (respects_poison _ _ _).bind fun _ => ih
  exact hall _

theorem respects_bindArguments (vars : List TypeVar) (arguments : List Ty) (subs : Substitution) :
    Respects Unfills (bindArguments vars arguments subs) := by
  induction vars generalizing arguments subs with
  | nil => exact respects_pure subs
  | cons v vars ih =>
    cases arguments with
    | cons a rest => exact ih _ _
    | nil =>
      have hdefault : Respects Unfills (defaultFor v subs) := by
        refine respects_get_bind (fun T U h => by rw [h]; rfl) fun T => ?_
        cases (T.typeVar v).default with
        | none => exact respects_pure _
        | some d => exact respects_substitute parallel_unfills d subs
      exact hdefault.bind fun _ => ih _ _

section Steps

open Typing

variable {expand : Chain → Ty → Typing Ty} (hexpand : ∀ chain t, Respects Unfills (expand chain t))

include hexpand

theorem respects_resolveAlias (chain : Chain) (a : Alias) :
    Respects Unfills (resolveAlias expand chain a) := by
  unfold resolveAlias
  split
  · exact respects_pure _
  split
  · exact (respects_lift (respects_markCycle chain a.name)).bind fun _ => respects_pure _
  refine (hexpand _ _).bind fun result => ?_
  refine respects_get_bind (fun T U h => by rw [h, alias?_unfilled]) fun T => ?_
  split
  · exact respects_pure _
  refine (respects_lift (respects_updateAlias _ _)).bind fun _ => ?_
  split
  · refine (respects_lift (respects_intern parallel_unfills (.inr rfl))).bind fun t => ?_
    exact (respects_lift (respects_remember t result)).bind fun _ => respects_pure result
  · exact respects_pure result

theorem respects_instantiate (chain : Chain) (ref : Ty) (name : String) (arguments : List Ty) :
    Respects Unfills (instantiate expand chain ref name arguments) := by
  refine respects_get_bind (fun T U h => ?_) fun T => ?_
  · rw [h, text_unfilled]
    rfl
  dsimp only
  split
  · exact respects_pure _
  split
  · exact respects_pure _
  split
  · exact respects_pure _
  split
  · exact (respects_lift (respects_markCycle _ _)).bind fun _ => respects_pure _
  split
  · exact (respects_lift (respects_markCycle _ _)).bind fun _ => respects_pure _
  refine (respects_lift (respects_bindArguments _ _ _)).bind fun subs => ?_
  refine (respects_lift (respects_substitute parallel_unfills _ subs)).bind fun target => ?_
  refine (hexpand _ target).bind fun result => ?_
  exact (respects_lift (respects_remember ref result)).bind fun _ => respects_pure result

end Steps

theorem respects_expandAt (d : Nat) (chain : Chain) (t : Ty) :
    Typing.Respects Unfills (expandAt d chain t) := by
  induction d generalizing chain t with
  | zero => exact Typing.respects_outOfSteps
  | succ d ih =>
    refine Typing.respects_get_bind (fun T U h => ?_) fun T => ?_
    · rw [h, shape_unfilled, alias?_unfilled]
      cases T.shape t with
      | _ => rfl
    · cases T.shape t with
      | reference name arguments =>
        dsimp only
        split
        · split
          · exact (ih _ _).bind fun _ => Typing.respects_readonlyAt parallel_unfills _ _
          · exact respects_instantiate ih _ _ _ _
        · split
          · exact respects_resolveAlias ih _ _
          · exact respects_instantiate ih _ _ _ _
        · exact respects_instantiate ih _ _ _ _
      | union ms =>
        exact (Typing.respects_mapM (ih chain) ms).bind fun us =>
          Typing.respects_lift (respects_unionOf parallel_unfills us)
      | intersection ms =>
        exact (Typing.respects_mapM (ih chain) ms).bind fun us =>
          Typing.respects_lift (respects_intersectionOf parallel_unfills us)
      | _ => exact Typing.respects_pure t

end Expansion

theorem Ty.respects_resolve (t : Ty) : Typing.Respects Unfills t.resolve := by
  refine Typing.respects_get_bind (fun T U h => ?_) fun T => ?_
  · rw [h]
    simp only [hasOpenHead_unfilled, isReference_unfilled]
    rfl
  dsimp only
  split
  · exact Typing.respects_pure t
  split
  · exact Typing.respects_pure _
  have hexpand : Typing.Respects Unfills (Typing.bounded fun d => Expansion.expandAt d [] t) :=
    fun n _ _ h => Expansion.respects_expandAt n [] t n h
  refine hexpand.bind fun r => ?_
  refine Typing.respects_get_bind (fun T U h => by rw [h]; rfl) fun T' => ?_
  split
  · exact (Typing.respects_lift (Expansion.respects_remember t r)).bind fun _ =>
      Typing.respects_pure r
  · exact Typing.respects_pure r

/-- **Resolution overlooks the members of enums.** -/
theorem Ty.resolve_unfilled (t : Ty) (n : Nat) (T : Table) :
    t.resolve n T.unfilled = (t.resolve n T).map fun p => (p.1, p.2.unfilled) := by
  have hrel := t.respects_resolve n (T := T) rfl
  revert hrel
  generalize t.resolve n T = o
  generalize t.resolve n T.unfilled = o'
  rintro (⟨hsame, hleft⟩ | _)
  · exact congrArg some (Prod.ext hsame hleft)
  · rfl

end ShapeCheck
