import ShapeCheck.Proofs.Lasting

/-!
# Work in parallel tables

The constructors of types read the entries and the type parameters of a table and add entries. They
look neither at aliases and remembered answers nor at the members of enums. So in two tables that
differ in these only they do the same, and what relates the tables relates them still.

* `Interning.Respects` and `Typing.Respects` say that work gives the same in related tables and
  leaves related tables.
-/

namespace ShapeCheck

variable {α β : Type} {t : Ty} {f : α → Interning β} {s : Shape}

/-- The shape without the members of an enum. -/
def Shape.unfilled : Shape → Shape
  | .enumeration e => .enumeration { e with members := [] }
  | s => s

namespace Table

/-- The second table has the types of the first, apart from the members of enums. -/
structure Resembles (T U : Table) : Prop where
  size : U.entries.size = T.entries.size
  shape : ∀ t, T.SaysAlike U t
  text : U.text = T.text
  typeVar : U.typeVar = T.typeVar
  find? : U.find? = T.find?

/-- The relation stands between tables that resemble each other, and new entries keep it. If enums
are among these, the tables have the same shapes and enums may be given members as well. -/
structure Parallel (enums : Prop) (R : Table → Table → Prop) : Prop where
  resembles : ∀ {T U : Table}, R T U → T.Resembles U
  add : ∀ {T U : Table} {s : Shape}, enums ∨ s.unfilled = s → R T U →
    R (Ty.add s T).2 (Ty.add s U).2
  fill : enums → ∀ {T U : Table}, R T U → U.shape = T.shape ∧ ∀ (t : Ty) (e : Enumeration),
    R (Ty.setShape t (.enumeration e) T).2 (Ty.setShape t (.enumeration e) U).2

section Resembling

variable {T U : Table}

theorem SaysAlike.literal? (h : T.SaysAlike U t) : U.literal? t = T.literal? t := by
  rw [Table.literal?, Table.literal?]
  rcases h with h | ⟨old, new, hold, hnew⟩
  · rw [h]
  · rw [hold, hnew]

theorem SaysAlike.callable? (h : T.SaysAlike U t) : U.callable? t = T.callable? t := by
  rw [Table.callable?, Table.callable?]
  rcases h with h | ⟨old, new, hold, hnew⟩
  · rw [h]
  · rw [hold, hnew]

theorem SaysAlike.members (h : T.SaysAlike U t) : U.members t = T.members t := by
  rw [Table.members, Table.members]
  rcases h with h | ⟨old, new, hold, hnew⟩
  · rw [h]
  · rw [hold, hnew]

variable (h : T.Resembles U)
include h

theorem Resembles.literal? : U.literal? = T.literal? := funext fun t => (h.shape t).literal?

theorem Resembles.callable? : U.callable? = T.callable? := funext fun t => (h.shape t).callable?

theorem Resembles.members? : Ty.members? U = Ty.members? T := funext fun t => (h.shape t).members?

theorem Resembles.isAtom : Ty.isAtom U = Ty.isAtom T := funext fun t => (h.shape t).isAtom

/-- The text of a shape is made of the texts of its parts. -/
theorem Resembles.shapeText (s : Shape) : U.shapeText s = T.shapeText s := by
  have hwrapped : U.wrapped = T.wrapped := by
    funext t
    rw [wrapped, wrapped, h.text]
    rcases h.shape t with hs | ⟨old, new, hold, hnew⟩
    · rw [hs]
    · rw [hold, hnew]
      rfl
  have hcallable : U.callableText = T.callableText := by
    have hvar : U.typeVarText = T.typeVarText := by
      funext v
      simp only [typeVarText, h.typeVar, h.text]
    have hparam : U.parameterText = T.parameterText := by
      funext i p
      simp only [parameterText, h.text]
    have hrest : U.restText = T.restText := by
      funext p
      simp only [restText, h.text]
    funext mark c
    simp only [callableText, hvar, h.text, hparam, hrest]
  cases s with
  | object m =>
    have hfield : U.fieldText = T.fieldText := by
      funext f
      simp only [fieldText, h.text]
    have hcall : U.callText = T.callText := by
      funext t
      rw [callText, callText, h.text, hcallable]
      rcases h.shape t with hs | ⟨old, new, hold, hnew⟩
      · rw [hs]
      · rw [hold, hnew]
    simp only [Table.shapeText, membersText, hfield, hcall, h.text]
  | tuple t => simp only [Table.shapeText, tupleText, h.text, hwrapped]
  | function c => simp only [Table.shapeText, hcallable]
  | parameter v => simp only [Table.shapeText, h.typeVar]
  | _ => simp only [Table.shapeText, h.text, hwrapped]

/-- Members are sorted by their texts. -/
theorem Resembles.sortMembers : U.sortMembers = T.sortMembers := by
  have horder : U.inOrder = T.inOrder := by
    funext a b
    simp only [inOrder, h.text]
  funext ts
  simp only [Table.sortMembers, horder]

/-- What absorbs a member is seen from the literals. -/
theorem Resembles.unionMembers : Ty.unionMembers U = Ty.unionMembers T := by
  have hall : Ty.allMembers U = Ty.allMembers T := by
    funext ts
    simp only [Ty.allMembers, funext fun t => (h.shape t).members]
  have hessential : Ty.essentialMembers U = Ty.essentialMembers T := by
    have habsorbed : Ty.isAbsorbed U = Ty.isAbsorbed T := by
      funext all m
      simp only [Ty.isAbsorbed, h.literal?]
    funext all
    simp only [Ty.essentialMembers, habsorbed]
  funext ts
  simp only [Ty.unionMembers, hall, hessential]

theorem Resembles.reduceAtoms : Ty.reduceAtoms U = Ty.reduceAtoms T := by
  have hliteral : Ty.isLiteralOf U = Ty.isLiteralOf T := by
    funext a b
    simp only [Ty.isLiteralOf, h.literal?]
  funext best ts
  induction ts generalizing best with
  | nil => rfl
  | cons t ts ih => cases best <;> simp only [Ty.reduceAtoms, ih, hliteral]

theorem Resembles.allIntersected : Ty.allIntersected U = Ty.allIntersected T := by
  funext ts
  simp only [Ty.allIntersected, funext fun t => (h.shape t).intersectionMembers]

theorem Resembles.mergeAmong (meet : Ty → Ty → Interning Ty) :
    Ty.mergeAmong meet U = Ty.mergeAmong meet T := by
  funext ts
  rcases ts with _ | ⟨t, _ | ⟨u, ts⟩⟩
  · rfl
  · rfl
  · simp only [Ty.mergeAmong, h.members?]

end Resembling

end Table

open Table

namespace Interning

/-- Work that gives the same in related tables and leaves related tables. -/
def Respects {α : Type} (R : Table → Table → Prop) (work : Interning α) : Prop :=
  ∀ ⦃T U : Table⦄, R T U → (work U).1 = (work T).1 ∧ R (work T).2 (work U).2

section Rules

variable {R : Table → Table → Prop}

theorem respects_pure (a : α) : Respects R (pure a : Interning α) := fun _ _ h => ⟨rfl, h⟩

/-- The second piece of work starts in tables that are related still. -/
theorem Respects.bind {x : Interning α} (hx : Respects R x)
    (hf : ∀ a, Respects R (f a)) : Respects R (x >>= f) := by
  intro T U h
  obtain ⟨hsame, hleft⟩ := hx h
  rw [bind_apply, bind_apply, hsame]
  exact hf _ hleft

/-- What is read from a table must be the same in related tables. -/
theorem respects_get_bind {f : Table → Interning α} (hsame : ∀ T U, R T U → f U = f T)
    (hf : ∀ T, Respects R (f T)) : Respects R (get >>= f) := by
  intro T U h
  change (f U U).1 = (f T T).1 ∧ R (f T T).2 (f U U).2
  rw [hsame T U h]
  exact hf T h

theorem sequential_respects (R : Table → Table → Prop) :
    Sequential fun α (x : Interning α) => Respects R x := ⟨respects_pure, Respects.bind⟩

theorem respects_mapM (hf : ∀ a, Respects R (f a)) (xs : List α) : Respects R (xs.mapM f) :=
  (sequential_respects R).mapM fun a _ => hf a

theorem respects_foldlM {f : β → α → Interning β} (hf : ∀ b a, Respects R (f b a)) (xs : List α)
    (b : β) : Respects R (xs.foldlM f b) := (sequential_respects R).foldlM hf b

end Rules

section Constructors

variable {enums : Prop} {R : Table → Table → Prop} (hR : Parallel enums R)
include hR

theorem respects_add (hs : enums ∨ s.unfilled = s) : Respects R (Ty.add s) :=
  fun _ _ h => ⟨congrArg Ty.made (hR.resembles h).size, hR.add hs h⟩

/-- A shape is found in both tables or in neither. -/
theorem respects_intern (hs : enums ∨ s.unfilled = s) : Respects R (Ty.intern s) := by
  refine respects_get_bind (fun T U h => by rw [(hR.resembles h).find?]) fun T => ?_
  cases T.find? s.key with
  | some t => exact respects_pure t
  | none => exact respects_add hR hs

/-- An enum without members is filled in both tables. -/
theorem respects_enumOf (henums : enums) (name : String) (isConst : Bool)
    (members : List (String × Ty)) : Respects R (Ty.enumOf name isConst members) := by
  refine (respects_intern hR (.inl henums)).bind fun enum => ?_
  refine respects_get_bind (fun T U h => by rw [(hR.fill henums h).1]) fun T => ?_
  cases T.shape enum with
  | enumeration e =>
    dsimp only
    split
    · refine (respects_mapM (fun p => respects_add hR (.inl henums)) _).bind fun made => ?_
      refine Respects.bind (fun T U h => ⟨?_, (hR.fill henums h).2 enum _⟩) fun _ =>
        respects_pure enum
      cases enum <;> rfl
    · exact respects_pure enum
  | _ => exact respects_pure enum

theorem respects_combine {shape : List Ty → Shape} (hshape : ∀ ms, (shape ms).unfilled = shape ms)
    (ms : List Ty) : Respects R (Ty.combine shape ms) := by
  have hmany : Respects R (do Ty.intern (shape ((← get).sortMembers ms))) :=
    respects_get_bind (fun T U h => by rw [(hR.resembles h).sortMembers]) fun T =>
      respects_intern hR (.inr (hshape _))
  match ms with
  | [] => exact hmany
  | [m] => exact respects_pure m
  | _ :: _ :: _ => exact hmany

theorem respects_unionOf (ts : List Ty) : Respects R (Ty.unionOf ts) :=
  respects_get_bind (fun T U h => by rw [(hR.resembles h).unionMembers])
    fun _ => respects_combine hR (fun _ => rfl) _

/-- The parts are sorted alike, and the same objects are merged. -/
theorem respects_meetMembers {meet : Ty → Ty → Interning Ty} (hmeet : ∀ a b, Respects R (meet a b))
    (ts : List Ty) : Respects R (Ty.meetMembers meet ts) := by
  have hfield : ∀ fields f, Respects R (Ty.mergeField meet fields f) := by
    intro fields f
    unfold Ty.mergeField
    split
    · exact respects_pure _
    · exact (hmeet _ _).bind fun _ => respects_pure _
  have hindex : ∀ a b, Respects R (Ty.mergeIndex meet a b) := by
    intro a b
    match a, b with
    | a, none => exact respects_pure a
    | none, some j => exact respects_pure _
    | some i, some j =>
      simp only [Ty.mergeIndex]
      split
      · exact (hmeet _ _).bind fun _ => respects_pure _
      · exact respects_pure _
  have hmembers : ∀ a b, Respects R (Ty.mergeMembers meet a b) := fun a b =>
    (respects_foldlM hfield _ _).bind fun _ => (hindex _ _).bind fun _ => respects_pure _
  have hamong : ∀ (T : Table) us, Respects R (Ty.mergeAmong meet T us) := by
    intro T us
    rcases us with _ | ⟨u, _ | ⟨v, us⟩⟩
    · exact respects_pure _
    · exact respects_pure _
    · exact ((respects_foldlM hmembers _ _).bind fun m => respects_intern hR (.inr rfl)).bind
        fun _ => respects_pure _
  refine respects_get_bind (fun T U h => ?_) fun T => ?_
  · have hsame := hR.resembles h
    simp only [hsame.allIntersected, hsame.mergeAmong, hsame.reduceAtoms,
      hsame.isAtom, hsame.members?,
      Ty.atomsAmong, Ty.objectsAmong, Ty.othersAmong]
  · dsimp only
    split_ifs
    · exact respects_pure _
    · exact respects_pure _
    · exact respects_pure _
    · split
      · exact respects_pure _
      · refine (hamong T _).bind fun merged => ?_
        split
        · exact respects_pure _
        · exact respects_pure _

/-- By induction on the depth of the objects that are merged. -/
theorem respects_intersectionOf (ts : List Ty) : Respects R (Ty.intersectionOf ts) := by
  have hat : ∀ depth us, Respects R (Ty.intersectionAt depth us) := by
    intro depth
    induction depth with
    | zero => exact fun us => respects_pure _
    | succ depth ih =>
      exact fun us => (respects_meetMembers hR (fun a b => ih [a, b]) us).bind
        fun ms => respects_combine hR (fun _ => rfl) ms
  exact hat _ ts

section Parts

variable {part : Ty → Interning Ty} (hpart : ∀ t, Respects R (part t))

include hpart

omit hR in
theorem respects_rebuildOption (o : Option Ty) : Respects R (Ty.rebuildOption part o) := by
  cases o with
  | none => exact respects_pure _
  | some t => exact (hpart t).bind fun _ => respects_pure _

omit hR in
theorem respects_rebuildCallable (dropped : TypeVar → Bool) (c : Callable) :
    Respects R (Ty.rebuildCallable part dropped c) := by
  have hparam : ∀ p, Respects R (Ty.rebuildParameter part p) := fun p =>
    (hpart p.type).bind fun _ => respects_pure _
  have hrest : ∀ o, Respects R (Ty.rebuildRest part o) := by
    intro o
    cases o with
    | none => exact respects_pure _
    | some p => exact (hparam p).bind fun _ => respects_pure _
  exact (hpart _).bind fun _ => (respects_rebuildOption hpart _).bind fun _ =>
    (respects_mapM hparam _).bind fun _ => (hrest _).bind fun _ => respects_pure _

theorem respects_rebuildMembers (dropped : TypeVar → Bool) (m : Members) :
    Respects R (Ty.rebuildMembers part dropped m) := by
  have hcall : ∀ t, Respects R (Ty.rebuildCall part dropped t) := by
    intro t
    refine respects_get_bind (fun T U h => by rw [(hR.resembles h).callable?]) fun T => ?_
    cases T.callable? t with
    | none => exact respects_pure t
    | some c =>
      exact (respects_rebuildCallable hpart dropped c).bind fun _ => respects_intern hR (.inr rfl)
  have hindex : ∀ o, Respects R (Ty.rebuildIndex part o) := by
    intro o
    cases o with
    | none => exact respects_pure _
    | some i => exact (hpart _).bind fun _ => respects_pure _
  have hfields : ∀ fields, Respects R (Ty.rebuildFields part fields) :=
    respects_mapM fun f => (hpart f.type).bind fun _ => respects_pure _
  exact (hfields _).bind fun _ => (hindex _).bind fun _ =>
    (respects_mapM hcall _).bind fun _ => respects_pure _

omit hR in
theorem respects_rebuildTuple (u : Tuple) : Respects R (Ty.rebuildTuple part u) :=
  (respects_mapM (fun s : Slot => (hpart s.type).bind fun _ => respects_pure _) _).bind fun _ =>
    (respects_rebuildOption hpart _).bind fun _ => respects_pure _

/-- One case for each shape, given the substitution in its parts. -/
theorem respects_substituteStep (subs : Substitution) (t : Ty) :
    Respects R (Ty.substituteStep subs part t) := by
  refine respects_get_bind (fun T U h => ?_) fun T => ?_
  · rcases (hR.resembles h).shape t with hs | ⟨old, new, hold, hnew⟩
    · rw [hs]
    · rw [hold, hnew]
  · cases T.shape t with
    | union ms => exact (respects_mapM hpart ms).bind (respects_unionOf hR)
    | intersection ms => exact (respects_mapM hpart ms).bind (respects_intersectionOf hR)
    | array element readonly => exact (hpart element).bind fun _ => respects_intern hR (.inr rfl)
    | tuple u => exact (respects_rebuildTuple hpart u).bind fun _ => respects_intern hR (.inr rfl)
    | object m =>
      exact (respects_rebuildMembers hR hpart _ m).bind fun _ => respects_intern hR (.inr rfl)
    | function c =>
      exact (respects_rebuildCallable hpart _ c).bind fun _ => respects_intern hR (.inr rfl)
    | reference name arguments =>
      dsimp only
      split
      · exact respects_pure t
      · exact (respects_mapM hpart arguments).bind fun _ => respects_intern hR (.inr rfl)
    | _ => exact respects_pure _

end Parts

theorem respects_substitute (t : Ty) (subs : Substitution) : Respects R (t.substitute subs) := by
  have hat : ∀ depth u, Respects R (Ty.substituteAt subs depth u) := by
    intro depth
    induction depth with
    | zero => exact respects_pure
    | succ depth ih => exact respects_substituteStep hR ih subs
  unfold Ty.substitute
  split
  · exact respects_pure t
  · exact hat _ t

end Constructors

end Interning

namespace Typing

/-- Work in bounded steps that ends alike in related tables, with the same and with related
tables. -/
def Respects {α : Type} (R : Table → Table → Prop) (x : Typing α) : Prop :=
  ∀ (n : Nat) ⦃T U : Table⦄, R T U → Option.Rel (fun p q => q.1 = p.1 ∧ R p.2 q.2) (x n T) (x n U)

section Rules

variable {R : Table → Table → Prop}

theorem respects_lift {work : Interning α} (h : Interning.Respects R work) :
    Respects R (liftM work : Typing α) := fun _ _ _ hTU => .some (h hTU)

theorem respects_outOfSteps : Respects R (outOfSteps : Typing α) := fun _ _ _ _ => .none

theorem respects_pure (a : α) : Respects R (pure a : Typing α) := fun _ _ _ h => .some ⟨rfl, h⟩

theorem Respects.bind {x : Typing α} {f : α → Typing β} (hx : Respects R x)
    (hf : ∀ a, Respects R (f a)) : Respects R (x >>= f) := by
  intro n T U h
  change Option.Rel _ ((x n T).bind fun p => f p.1 n p.2) ((x n U).bind fun p => f p.1 n p.2)
  have hrel := hx n h
  revert hrel
  generalize x n T = o
  generalize x n U = o'
  rintro (⟨hsame, hleft⟩ | _)
  · rw [Option.bind_some, Option.bind_some, hsame]
    exact hf _ n hleft
  · exact .none

theorem respects_get_bind {f : Table → Typing α} (hsame : ∀ T U, R T U → f U = f T)
    (hf : ∀ T, Respects R (f T)) : Respects R (get >>= f) := by
  intro n T U h
  rw [get_bind, get_bind, hsame T U h]
  exact hf T n h

theorem respects_mapM {f : α → Typing β} (hf : ∀ a, Respects R (f a)) (xs : List α) :
    Respects R (xs.mapM f) :=
  have hsequential : Sequential fun α (x : Typing α) => Respects R x :=
    ⟨respects_pure, Respects.bind⟩
  hsequential.mapM fun a _ => hf a

end Rules

open Interning in
/-- Nothing is looked at when a type without references at its top is made readonly. -/
theorem respects_readonlyAt {enums : Prop} {R : Table → Table → Prop}
    (hR : Parallel enums R) (d : Nat)
    (t : Ty) : Respects R (Ty.readonlyAt pure d t) := by
  induction d generalizing t with
  | zero => exact respects_outOfSteps
  | succ d ih =>
    unfold Ty.readonlyAt
    rw [pure_bind]
    refine respects_get_bind (fun T U h => ?_) fun T => ?_
    · rcases (hR.resembles h).shape t with hs | ⟨old, new, hold, hnew⟩
      · rw [hs]
      · rw [hold, hnew]
    · cases T.shape t with
      | object | array | tuple =>
        exact respects_lift (respects_intern hR (.inr rfl))
      | intersection ms =>
        exact (respects_mapM ih ms).bind fun us => respects_lift (respects_intersectionOf hR us)
      | union ms =>
        exact (respects_mapM ih ms).bind fun us => respects_lift (respects_unionOf hR us)
      | _ => exact respects_pure t

end Typing

end ShapeCheck
