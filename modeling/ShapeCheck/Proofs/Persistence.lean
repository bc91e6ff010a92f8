import ShapeCheck.Ty.Inference
import ShapeCheck.Proofs.Constructors
import ShapeCheck.Proofs.Lasting

/-!
# What a type says stays

Whatever is done with types, their table is only added to. An entry keeps its number, and what it
says changes in one case, when an enum without members is given some. An entry is found by what it
says, and the fields of an object have different names.

* `Table.Keeps` compares two tables; `Interning.Keeps` and `Typing.Keeps` say of a piece of work
  that the table it leaves keeps the types of the one it found.
* The lemmas `keeps_…` say this of everything that is done with types, from the constructors to the
  inference of type arguments.
* `Interning.members?_objectOf` is what an object type says, also when it was there before.
-/

namespace ShapeCheck

variable {α β : Type} {t : Ty} {m : Members} {f : α → Interning β}
  {change : Table → Table} {s shape : Shape}
  {meet : Ty → Ty → Interning Ty} {T : Table} {work : Interning α} {test : α → Typing Bool}

namespace Shape

/-- What the shape of an entry may become: nothing else, but the members of an enum may be given. -/
def Becomes (s s' : Shape) : Prop :=
  s' = s ∨ ∃ e e' : Enumeration, s = .enumeration e ∧ s' = .enumeration e' ∧ e'.name = e.name

variable {s' s'' : Shape}

theorem Becomes.trans (h : s.Becomes s') (h' : s'.Becomes s'') : s.Becomes s'' := by
  rcases h with rfl | ⟨e, e', rfl, rfl, hname⟩
  · exact h'
  · rcases h' with rfl | ⟨f, f', hf, rfl, hname'⟩
    · exact .inr ⟨e, e', rfl, rfl, hname⟩
    · cases hf
      exact .inr ⟨e, f', rfl, rfl, hname'.trans hname⟩

/-- No two fields of an object have one name. -/
def NamesDiffer : Shape → Prop
  | object m => (m.fields.map Field.name).Nodup
  | _ => True

end Shape

namespace Table

/-- Every entry is found by its shape, and the fields of objects have different names. -/
def Keyed (T : Table) : Prop :=
  ∀ (n : Nat) (e : Entry), T.entries[n]? = some e → e.key = e.shape.key ∧ e.shape.NamesDiffer

/-- The second table has the types of the first. -/
structure Keeps (T T' : Table) : Prop where
  entries : ∀ (n : Nat) (e : Entry), T.entries[n]? = some e →
    ∃ e', T'.entries[n]? = some e' ∧ e.shape.Becomes e'.shape
  keyed : T.Keyed → T'.Keyed

variable {T' T'' : Table}

theorem Keeps.of_entries (h : T'.entries = T.entries) : T.Keeps T' where
  entries _ e he := ⟨e, h ▸ he, .inl rfl⟩
  keyed hT _ _ he := hT _ _ (h ▸ he)

@[refl]
theorem Keeps.refl (T : Table) : T.Keeps T := .of_entries rfl

theorem Keeps.trans (h : T.Keeps T') (h' : T'.Keeps T'') : T.Keeps T'' where
  entries n e he := by
    obtain ⟨e', he', hs⟩ := h.entries n e he
    obtain ⟨e'', he'', hs'⟩ := h'.entries n e' he'
    exact ⟨e'', he'', hs.trans hs'⟩
  keyed hT := h'.keyed (h.keyed hT)

theorem keyed_empty : ({} : Table).Keyed := by
  intro n e he
  simp at he

/-- An object type stays the same. -/
theorem Keeps.members? (h : T.Keeps T') (ht : Ty.members? T t = some m) :
    Ty.members? T' t = some m := by
  cases t with
  | prim p => exact ht
  | truth b => exact ht
  | made n =>
    cases he : T.entries[n]? with
    | none => simp [Ty.members?, shape, he] at ht
    | some e =>
      obtain ⟨e', he', hs⟩ := h.entries n e he
      rcases hs with hs | ⟨en, en', hs, -⟩
      · simpa [Ty.members?, shape, he, he', hs] using ht
      · simp [Ty.members?, shape, he, hs] at ht

/-- The fields of an object type have different names. -/
theorem Keyed.nodup_fields (h : T.Keyed) (ht : Ty.members? T t = some m) :
    (m.fields.map Field.name).Nodup := by
  cases t with
  | prim p => cases ht
  | truth b => cases ht
  | made n =>
    cases he : T.entries[n]? with
    | none => simp [Ty.members?, shape, he] at ht
    | some e =>
      have hdiffer := (h n e he).2
      cases hs : e.shape with
      | object m' =>
        simp only [Ty.members?, shape, he, hs, Option.some.injEq] at ht
        rw [hs] at hdiffer
        exact ht ▸ hdiffer
      | _ => simp [Ty.members?, shape, he, hs] at ht

/-- Giving an enum members changes an entry that is an enum of that name already. -/
theorem Keeps.setShape {n : Nat} {e f : Enumeration} (h : T.Keeps T')
    (hT : T.shape (.made n) = .enumeration e) (hname : f.name = e.name) :
    T.Keeps (Ty.setShape (.made n) (.enumeration f) T').2 := by
  have hget (i : Nat) : (Ty.setShape (.made n) (.enumeration f) T').2.entries[i]? =
      if n = i then (T'.entries[i]?).map ({ · with shape := .enumeration f }) else T'.entries[i]? :=
    Array.getElem?_modify
  obtain ⟨old, hold⟩ : ∃ old, T.entries[n]? = some old := by
    cases hn : T.entries[n]? with
    | none => simp [shape, hn] at hT
    | some old => exact ⟨old, rfl⟩
  have hshape : old.shape = .enumeration e := by simpa [shape, hold] using hT
  obtain ⟨mid, hmid, hbecomes⟩ := h.entries n old hold
  obtain ⟨g, hmidShape, hg⟩ : ∃ g, mid.shape = .enumeration g ∧ g.name = e.name := by
    rcases hbecomes with hs | ⟨e1, g, hs, hs', hg⟩
    · exact ⟨e, hs.trans hshape, rfl⟩
    · cases hshape.symm.trans hs
      exact ⟨g, hs', hg⟩
  constructor
  · intro i entry hi
    rw [hget]
    split
    · next hni =>
      subst hni
      rw [hold] at hi
      cases hi
      exact ⟨_, by rw [hmid]; rfl, .inr ⟨e, f, hshape, rfl, hname⟩⟩
    · exact h.entries i entry hi
  · intro hkeyed i entry hi
    rw [hget] at hi
    split at hi
    · next hni =>
      subst hni
      rw [hmid] at hi
      obtain rfl : { mid with shape := .enumeration f } = entry := Option.some.inj hi
      refine ⟨?_, trivial⟩
      rw [(h.keyed hkeyed n mid hmid).1, hmidShape]
      simp only [Shape.key, Shape.spelling, hg, hname]
    · exact h.keyed hkeyed i entry hi

end Table

namespace Interning

/-- Work that keeps the types of a table. -/
def Keeps (work : Interning α) : Prop := ∀ T : Table, T.Keeps (work T).2

/-! ### Rules -/

@[grind ←]
theorem keeps_pure (a : α) : Keeps (pure a : Interning α) := fun T => .refl T

@[grind ←]
theorem keeps_bind {x : Interning α} (hx : Keeps x)
    (hf : ∀ a, Keeps (f a)) : Keeps (x >>= f) := fun T => (hx T).trans (hf (x T).1 (x T).2)

@[grind ←]
theorem keeps_get : Keeps (get : Interning Table) := fun T => .refl T

theorem sequential_keeps : Sequential fun α (x : Interning α) => Keeps x := ⟨keeps_pure, keeps_bind⟩

@[grind ←]
theorem keeps_mapM (hf : ∀ a, Keeps (f a)) (as : List α) : Keeps (as.mapM f) :=
  sequential_keeps.mapM fun a _ => hf a

@[grind ←]
theorem keeps_foldlM {f : β → α → Interning β} (hf : ∀ b a, Keeps (f b a)) (as : List α) (b : β) :
    Keeps (as.foldlM f b) :=
  sequential_keeps.foldlM hf b

@[grind ←]
theorem keeps_forM {f : α → Interning Unit} (hf : ∀ a, Keeps (f a)) (as : List α) :
    Keeps (as.forM f) := sequential_keeps.forM fun a _ => hf a

/-- Aliases, type parameters and remembered answers are no entries. -/
theorem keeps_modify (h : ∀ T, (change T).entries = T.entries) :
    Keeps (modify change : Interning Unit) := fun T => .of_entries (h T)

/-! ### Constructors -/

/-- A new entry stands behind the others. -/
theorem keeps_add (hs : s.NamesDiffer) : Keeps (Ty.add s) := by
  intro T
  constructor
  · intro n e he
    refine ⟨e, ?_, .inl rfl⟩
    have hn := (Array.getElem?_eq_some_iff.mp he).1
    change (T.entries.push _)[n]? = some e
    rw [Array.getElem?_push, if_neg (by omega), he]
  · intro hT n e he
    rcases Table.getElem?_push_cases he with hold | ⟨-, rfl⟩
    · exact hT n e hold
    · exact ⟨rfl, hs⟩

theorem keeps_intern (hs : s.NamesDiffer) : Keeps (Ty.intern s) := by
  unfold Ty.intern
  refine keeps_bind keeps_get fun T => ?_
  split
  · exact keeps_pure _
  · exact keeps_add hs

@[grind ←]
theorem keeps_literalOf (l : Literal) : Keeps (Ty.literalOf l) := by
  cases l with
  | boolean b => exact keeps_pure _
  | _ => exact keeps_intern trivial

@[grind ←]
theorem keeps_arrayOf (t : Ty) (readonly : Bool) : Keeps (Ty.arrayOf t readonly) :=
  keeps_intern trivial

@[grind ←]
theorem keeps_tupleOf (t : Tuple) : Keeps (Ty.tupleOf t) := keeps_intern trivial

@[grind ←]
theorem keeps_objectOf (m : Members) : Keeps (Ty.objectOf m) :=
  keeps_intern (nodup_foldl_putField m.fields [] (by simp))

@[grind ←]
theorem keeps_functionOf (c : Callable) : Keeps (Ty.functionOf c) := keeps_intern trivial

@[grind ←]
theorem keeps_referenceTo (name : String) (arguments : List Ty) :
    Keeps (Ty.referenceTo name arguments) := keeps_intern trivial

@[grind ←]
theorem keeps_parameterOf (v : TypeVar) : Keeps (Ty.parameterOf v) := keeps_intern trivial

@[grind ←]
theorem keeps_classOf (name : String) (t : Ty) (c : Callable) : Keeps (Ty.classOf name t c) :=
  keeps_bind (keeps_functionOf c) fun _ => keeps_intern trivial

@[grind ←]
theorem keeps_newTypeVar (info : TypeVarInfo) : Keeps (Ty.newTypeVar info) :=
  fun _ => .of_entries rfl

@[grind ←]
theorem keeps_setBound (v : TypeVar) (t : Ty) : Keeps (Ty.setBound v t) :=
  keeps_modify fun _ => rfl

@[grind ←]
theorem keeps_setDefault (v : TypeVar) (t : Ty) : Keeps (Ty.setDefault v t) :=
  keeps_modify fun _ => rfl

/-- The one constructor that changes an entry: it fills an enum. -/
@[grind ←]
theorem keeps_enumOf (name : String) (isConst : Bool) (members : List (String × Ty)) :
    Keeps (Ty.enumOf name isConst members) := by
  unfold Ty.enumOf
  refine keeps_bind (keeps_intern trivial) fun enum T => ?_
  have hmember (p : String × Ty) : Keeps (Ty.add (.enumMember enum p.1 p.2)) := keeps_add trivial
  have hadd := keeps_mapM hmember members T
  rw [bind_apply]
  change T.Keeps (_ : Ty × Table).2
  cases hshape : ((get : Interning Table) T).1.shape enum with
  | enumeration e =>
    dsimp only
    split
    · cases enum with
      | made n => exact hadd.setShape hshape rfl
      | prim p => exact hadd
      | truth b => exact hadd
    · exact .refl T
  | _ => exact .refl T

/-! ### Unions and intersections -/

theorem keeps_combine {shape : List Ty → Shape} (h : ∀ ms, (shape ms).NamesDiffer) (ms : List Ty) :
    Keeps (Ty.combine shape ms) := by
  unfold Ty.combine
  split
  · exact keeps_pure _
  · exact keeps_bind keeps_get fun T => keeps_intern (h _)

@[grind ←]
theorem keeps_unionOf (ts : List Ty) : Keeps (Ty.unionOf ts) :=
  have hplain (ms : List Ty) : (Shape.union ms).NamesDiffer := trivial
  keeps_bind keeps_get fun _ => keeps_combine hplain _

@[grind ←]
theorem keeps_filterMembers (t : Ty) (keep : Ty → Bool) : Keeps (t.filterMembers keep) :=
  keeps_bind keeps_get fun _ => keeps_unionOf _

@[grind ←]
theorem keeps_elementUnion (t : Tuple) : Keeps (Ty.elementUnion t) := keeps_unionOf _

@[grind ←]
theorem keeps_valueUnion (e : Enumeration) : Keeps (Ty.valueUnion e) :=
  keeps_bind keeps_get fun _ => keeps_unionOf _

theorem keeps_mergeWith (hmeet : ∀ a b, Keeps (meet a b))
    (objects : List Members) : Keeps (Ty.mergeWith meet objects) := by
  have hfield (fields : List Field) (f : Field) : Keeps (Ty.mergeField meet fields f) := by
    unfold Ty.mergeField
    grind
  have hindex (i j : Option Index) : Keeps (Ty.mergeIndex meet i j) := by
    unfold Ty.mergeIndex
    grind
  have hmembers (a b : Members) : Keeps (Ty.mergeMembers meet a b) := by
    unfold Ty.mergeMembers
    grind
  unfold Ty.mergeWith
  grind

theorem keeps_meetMembers (hmeet : ∀ a b, Keeps (meet a b))
    (ts : List Ty) : Keeps (Ty.meetMembers meet ts) := by
  have hamong (T : Table) (objects : List Ty) : Keeps (Ty.mergeAmong meet T objects) := by
    unfold Ty.mergeAmong
    have := keeps_mergeWith hmeet
    grind
  unfold Ty.meetMembers
  grind

/-- By induction on the depth of the objects that are merged. -/
@[grind ←]
theorem keeps_intersectionOf (ts : List Ty) : Keeps (Ty.intersectionOf ts) := by
  have hplain (ms : List Ty) : (Shape.intersection ms).NamesDiffer := trivial
  have hat (depth : Nat) (ts : List Ty) : Keeps (Ty.intersectionAt depth ts) := by
    induction depth generalizing ts with
    | zero => exact keeps_pure _
    | succ depth ih =>
      exact keeps_bind (keeps_meetMembers (fun a b => ih [a, b]) ts) fun ms =>
        keeps_combine hplain ms
  exact hat _ ts

/-! ### What an object says -/

theorem find?_replace (fields : List Field) (f : Field) (name : String) :
    (fields.map fun g => if g.name = f.name then f else g).find? (·.name = name) =
      if f.name = name then (fields.find? (·.name = name)).map fun _ => f
      else fields.find? (·.name = name) := by
  induction fields with
  | nil => simp
  | cons g fields ih =>
    rw [List.map_cons, List.find?_cons, List.find?_cons]
    by_cases hg : g.name = f.name
    · by_cases hf : f.name = name
      · simp [hg, hf]
      · simpa [hg, hf] using ih
    · rw [if_neg hg]
      by_cases hn : g.name = name
      · simp [hn, show f.name ≠ name from fun h => hg (hn.trans h.symm)]
      · simpa [hn] using ih

theorem find?_putField (fields : List Field) (f : Field) (name : String) :
    (Ty.putField fields f).find? (·.name = name) =
      if f.name = name then some f else fields.find? (·.name = name) := by
  unfold Ty.putField
  split
  · next hany =>
    obtain ⟨g, hg, hname⟩ := List.any_eq_true.mp hany
    rw [find?_replace]
    split
    · next hf =>
      cases hfind : fields.find? (·.name = name) with
      | some k => rfl
      | none => exact absurd (by simpa [hf] using hname) (List.find?_eq_none.mp hfind g hg)
    · rfl
  · next hnone =>
    rw [List.find?_append]
    split
    · next hf =>
      have hnot : fields.find? (·.name = name) = none := by
        simpa [hf] using hnone
      simp [hnot, hf]
    · next hf => simp [hf]

/-- Of several fields with one name the last counts. -/
theorem find?_foldl_putField (fs fields : List Field) (name : String) :
    (fs.foldl Ty.putField fields).find? (·.name = name) =
      (fs.reverse.find? (·.name = name)).or (fields.find? (·.name = name)) := by
  induction fs generalizing fields with
  | nil => simp
  | cons f fs ih =>
    rw [List.foldl_cons, ih, find?_putField, List.reverse_cons, List.find?_append, Option.or_assoc]
    by_cases hf : f.name = name
    · simp [hf]
    · simp [hf]

/-- A shape whose key is not in the table is added. -/
theorem intern_new (h : T.find? shape.key = none) : Ty.intern shape T = Ty.add shape T := by
  have hread : ((get : Interning Table) T).1.find? shape.key = none := h
  unfold Ty.intern
  rw [bind_apply, hread]
  rfl

theorem intern_known (h : T.find? shape.key = some t) : Ty.intern shape T = (t, T) := by
  have hread : ((get : Interning Table) T).1.find? shape.key = some t := h
  unfold Ty.intern
  rw [bind_apply, hread]
  rfl

/-- An object type has the members that it was made with, also when it was there before. -/
theorem members?_objectOf (hT : T.Keyed) (m : Members) :
    ∃ m', Ty.members? (Ty.objectOf m T).2 (Ty.objectOf m T).1 = some m' ∧
      (∀ name, m'.field? name = m.fields.reverse.find? (·.name = name)) ∧
      m'.index = m.index ∧ m'.calls = m.calls := by
  let made : Members := { m with fields := m.fields.foldl Ty.putField [] }
  have hnames : (made.fields.map Field.name).Nodup := nodup_foldl_putField m.fields [] (by simp)
  have hfind (name : String) : made.field? name = m.fields.reverse.find? (·.name = name) := by
    rw [Members.field?, find?_foldl_putField, List.find?_nil, Option.or_none]
  change ∃ m', Ty.members? (Ty.intern (.object made) T).2
    (Ty.intern (.object made) T).1 = some m' ∧ _
  cases hkey : T.find? (Shape.object made).key with
  | none =>
    rw [intern_new hkey]
    refine ⟨made, ?_, hfind, rfl, rfl⟩
    simp [Ty.add, Ty.members?, Table.shape]
  | some t =>
    rw [intern_known hkey]
    obtain ⟨n, hn, rfl⟩ := Option.map_eq_some_iff.mp hkey
    obtain ⟨hlt, hsame, -⟩ := Array.findIdx?_eq_some_iff_getElem.mp hn
    have he := Array.getElem?_eq_getElem hlt
    obtain ⟨hown, hdiffer⟩ := hT n _ he
    have hkeys : (T.entries[n]).shape.key = (Shape.object made).key := by
      rw [← hown]
      simpa using hsame
    -- An entry with the key of an object is an object.
    have hkind := Shape.kind_eq_of_spelling_eq (String.ofList_injective hkeys)
    cases hshape : (T.entries[n]).shape with
    | object m' =>
      rw [hshape] at hkeys hdiffer
      obtain ⟨hfields, hindex, hcalls⟩ := Key.members_injective (String.ofList_injective hkeys)
      have hsameField := (Members.perm_iff_field? hdiffer hnames).mp
        ((Key.sortFields_eq_iff hdiffer).mp hfields)
      exact ⟨m', by simp [Ty.members?, Table.shape, he, hshape], fun name =>
        (hsameField name).trans (hfind name), hindex, hcalls⟩
    | _ => simp [hshape, Shape.kind] at hkind

/-! ### Substitution and widening -/

section Parts

variable {part : Ty → Interning Ty}

theorem keeps_rebuildOption (h : ∀ t, Keeps (part t)) (t : Option Ty) :
    Keeps (Ty.rebuildOption part t) := by
  unfold Ty.rebuildOption
  grind

theorem keeps_rebuildCallable (h : ∀ t, Keeps (part t)) (dropped : TypeVar → Bool) (c : Callable) :
    Keeps (Ty.rebuildCallable part dropped c) := by
  have hparam (p : Parameter) : Keeps (Ty.rebuildParameter part p) := by
    unfold Ty.rebuildParameter
    grind
  have hrest (p : Option Parameter) : Keeps (Ty.rebuildRest part p) := by
    unfold Ty.rebuildRest
    grind
  have hoption := keeps_rebuildOption h
  unfold Ty.rebuildCallable
  grind

theorem keeps_rebuildFields (h : ∀ t, Keeps (part t)) (fields : List Field) :
    Keeps (Ty.rebuildFields part fields) := by
  unfold Ty.rebuildFields
  grind

theorem keeps_rebuildIndex (h : ∀ t, Keeps (part t)) (i : Option Index) :
    Keeps (Ty.rebuildIndex part i) := by
  unfold Ty.rebuildIndex
  grind

theorem keeps_rebuildMembers (h : ∀ t, Keeps (part t)) (dropped : TypeVar → Bool) (m : Members) :
    Keeps (Ty.rebuildMembers part dropped m) := by
  have hindex := keeps_rebuildIndex h
  have hcall (t : Ty) : Keeps (Ty.rebuildCall part dropped t) := by
    unfold Ty.rebuildCall
    have := keeps_rebuildCallable h dropped
    grind
  have hfields := keeps_rebuildFields h
  unfold Ty.rebuildMembers
  grind

theorem keeps_rebuildTuple (h : ∀ t, Keeps (part t)) (t : Tuple) :
    Keeps (Ty.rebuildTuple part t) := by
  have hoption := keeps_rebuildOption h
  unfold Ty.rebuildTuple
  grind

theorem keeps_substituteStep (h : ∀ t, Keeps (part t)) (subs : Substitution) (t : Ty) :
    Keeps (Ty.substituteStep subs part t) := by
  have hcallable := keeps_rebuildCallable h (Ty.binds subs)
  have hmembers := keeps_rebuildMembers h (Ty.binds subs)
  have htuple := keeps_rebuildTuple h
  unfold Ty.substituteStep
  grind

end Parts

theorem keeps_substituteAt (subs : Substitution) (depth : Nat) (t : Ty) :
    Keeps (Ty.substituteAt subs depth t) := by
  induction depth generalizing t with
  | zero => exact keeps_pure t
  | succ depth ih => exact keeps_substituteStep ih subs t

@[grind ←]
theorem keeps_substitute (t : Ty) (subs : Substitution) : Keeps (t.substitute subs) := by
  unfold Ty.substitute
  split
  · exact keeps_pure t
  · exact keeps_substituteAt subs _ t

@[grind ←]
theorem keeps_substituteCallable (c : Callable) (subs : Substitution) :
    Keeps (Ty.substituteCallable c subs) :=
  keeps_rebuildCallable (fun t => keeps_substitute t subs) _ c

section Omitting

variable {nil : Ty} {subs : Substitution}

@[grind ←]
theorem keeps_nothing : Keeps Omission.nothing := by
  unfold Omission.nothing
  grind

@[grind ←]
theorem keeps_substituteOmitting (t : Ty) : Keeps (Omission.substitute nil subs t) := by
  have hat (depth : Nat) : ∀ t, Keeps (Omission.substituteAt nil subs depth t) := by
    induction depth with
    | zero => exact fun t => keeps_pure t
    | succ depth ih =>
      intro t
      have hcallable := keeps_rebuildCallable ih (Ty.binds subs)
      have htuple := keeps_rebuildTuple ih
      have hfields := keeps_rebuildFields ih
      have hindex := keeps_rebuildIndex ih
      have hmembers (m : Members) :
          Keeps (Omission.members nil (Omission.substituteAt nil subs depth) m) := by
        unfold Omission.members
        grind
      unfold Omission.substituteAt Omission.substituteStep
      grind
  exact hat _ t

@[grind ←]
theorem keeps_callableOmitting (c : Callable) : Keeps (Omission.substituteCallable nil subs c) := by
  have hpart (t : Ty) : Keeps (Omission.substitute nil subs t) := keeps_substituteOmitting t
  have hcallable := keeps_rebuildCallable hpart (Ty.binds subs) c
  unfold Omission.substituteCallable
  grind

@[grind ←]
theorem keeps_bindOmitting (vars : List TypeVar) (ts : List Ty) :
    Keeps (Omission.bind nil vars ts subs) := by
  induction vars generalizing ts subs with
  | nil => exact keeps_pure _
  | cons v vars ih =>
    cases ts <;> unfold Omission.bind <;> grind

end Omitting

@[grind ←]
theorem keeps_erase (t : Ty) : Keeps t.erase := by
  unfold Ty.erase Ty.eraseCallable
  grind

@[grind ←]
theorem keeps_widen (t : Ty) : Keeps t.widen := by
  unfold Ty.widen
  grind

@[grind ←]
theorem keeps_deepWiden (t : Ty) : Keeps t.deepWiden := by
  have hat (depth : Nat) (t : Ty) : Keeps (Ty.deepWidenAt depth t) := by
    induction depth generalizing t with
    | zero => exact keeps_pure t
    | succ depth ih =>
      have hfields := keeps_rebuildFields ih
      have htuple := keeps_rebuildTuple ih
      unfold Ty.deepWidenAt
      grind
  exact hat _ t

/-! ### Aliases and properties -/

@[grind ←]
theorem keeps_remember (t result : Ty) : Keeps (Expansion.remember t result) :=
  keeps_modify fun _ => rfl

/-- Aliases are poisoned, and the references to them are added. -/
@[grind ←]
theorem keeps_markCycle (chain : Expansion.Chain) (key : String) :
    Keeps (Expansion.markCycle chain key) := by
  have hpoison (names : List String) (p : String × Nat) :
      Keeps (Expansion.poison names p.1 p.2) := by
    refine keeps_bind keeps_get fun T => ?_
    split
    · exact keeps_bind (keeps_modify fun _ => rfl) fun _ =>
        keeps_bind (keeps_referenceTo _ _) fun _ => keeps_remember _ _
    · exact keeps_pure _
  exact keeps_forM (hpoison _) _

@[grind ←]
theorem keeps_bindArguments (vars : List TypeVar) (arguments : List Ty) (subs : Substitution) :
    Keeps (Expansion.bindArguments vars arguments subs) := by
  have hdefault (v : TypeVar) (subs : Substitution) : Keeps (Expansion.defaultFor v subs) := by
    unfold Expansion.defaultFor
    grind
  fun_induction Expansion.bindArguments vars arguments subs with
  | case1 => exact keeps_pure _
  | case2 _ _ _ _ _ ih => exact ih
  | case3 v vars subs ih => exact keeps_bind (hdefault v subs) ih

@[grind ←]
theorem keeps_define (name : String) (params : List TypeVar) (target : Ty) :
    Keeps (Alias.define name params target) := by
  refine keeps_bind keeps_get fun T => ?_
  split
  · exact keeps_pure _
  split
  · exact keeps_pure _
  · exact keeps_bind (keeps_modify fun _ => rfl) fun _ => keeps_pure _

@[grind ←]
theorem keeps_freeze : Keeps Alias.freeze := keeps_modify fun _ => rfl

@[grind ←]
theorem keeps_tupleProperty? (t : Tuple) (name : String) : Keeps (Ty.tupleProperty? t name) := by
  unfold Ty.tupleProperty? Ty.tupleLength
  grind

@[grind ←]
theorem keeps_unionField (name : String) (fields : List Field) :
    Keeps (Ty.unionField name fields) := by
  unfold Ty.unionField
  grind

@[grind ←]
theorem keeps_intersectionField (name : String) (fields : List Field) :
    Keeps (Ty.intersectionField name fields) := by
  unfold Ty.intersectionField
  grind

@[grind ←]
theorem keeps_parameterTarget? (c : Callable) (i : Nat) :
    Keeps (Overload.parameterTarget? c i) := by
  unfold Overload.parameterTarget?
  grind

end Interning

namespace Typing

/-- Work in bounded steps that keeps the types of a table. -/
def Keeps (work : Typing α) : Prop :=
  ∀ ⦃n T a T'⦄, work n T = some (a, T') → T.Keeps T'

/-! ### Rules -/

@[grind ←]
theorem keeps_lift (h : work.Keeps) : Keeps (monadLift work : Typing α) := by
  intro n T a T' hrun
  obtain rfl : (work T).2 = T' := congrArg Prod.snd (Option.some.inj hrun)
  exact h T

@[grind ←]
theorem keeps_pure (a : α) : Keeps (pure a : Typing α) := keeps_lift (Interning.keeps_pure a)

@[grind ←]
theorem keeps_bind {x : Typing α} {f : α → Typing β} (hx : Keeps x) (hf : ∀ a, Keeps (f a)) :
    Keeps (x >>= f) := by
  intro n T b T2 hrun
  obtain ⟨a, T1, hx', hf'⟩ := bind_some hrun
  exact (hx hx').trans (hf a hf')

@[grind ←]
theorem keeps_get : Keeps (get : Typing Table) := keeps_lift Interning.keeps_get

@[grind ←]
theorem keeps_modify (h : ∀ T, (change T).entries = T.entries) :
    Keeps (modify change : Typing Unit) := keeps_lift (Interning.keeps_modify h)

@[grind ←]
theorem keeps_outOfSteps : Keeps (outOfSteps : Typing α) := by
  intro n T a T' hrun
  cases hrun

@[grind ←]
theorem keeps_bounded {work : Nat → Typing α} (h : ∀ n, Keeps (work n)) : Keeps (bounded work) :=
  fun n _ _ _ hrun => h n hrun

@[grind ←]
theorem keeps_mapM {f : α → Typing β} (hf : ∀ a, Keeps (f a)) (as : List α) :
    Keeps (as.mapM f) :=
  have hsequential : Sequential fun α (x : Typing α) => Keeps x := ⟨keeps_pure, keeps_bind⟩
  hsequential.mapM fun a _ => hf a

/-! ### Aliases -/

theorem keeps_readonlyAt {head : Ty → Typing Ty} (hhead : ∀ t, Keeps (head t)) (depth : Nat)
    (t : Ty) : Keeps (Ty.readonlyAt head depth t) := by
  induction depth generalizing t with
  | zero => exact keeps_outOfSteps
  | succ depth ih =>
    unfold Ty.readonlyAt
    grind

section Steps

variable {expand : Expansion.Chain → Ty → Typing Ty}

theorem keeps_resolveAlias (h : ∀ chain t, Keeps (expand chain t)) (chain : Expansion.Chain)
    (a : Alias) : Keeps (Expansion.resolveAlias expand chain a) := by
  have hcomplete : Keeps (Expansion.complete expand chain a) := by
    refine keeps_bind (h _ _) fun result => keeps_bind keeps_get fun T => ?_
    split
    · exact keeps_pure _
    · refine keeps_bind (keeps_modify fun _ => rfl) fun _ => ?_
      grind
  unfold Expansion.resolveAlias
  grind

theorem keeps_instantiate (h : ∀ chain t, Keeps (expand chain t)) (chain : Expansion.Chain)
    (ref : Ty) (name : String) (arguments : List Ty) :
    Keeps (Expansion.instantiate expand chain ref name arguments) := by
  unfold Expansion.instantiate
  refine keeps_bind keeps_get fun T => ?_
  split
  · exact keeps_pure _
  split
  · exact keeps_pure _
  · dsimp only
    split_ifs <;> grind

theorem keeps_expandStep (h : ∀ chain t, Keeps (expand chain t)) (depth : Nat)
    (chain : Expansion.Chain) (t : Ty) : Keeps (Expansion.expandStep expand depth chain t) := by
  have hreadonly := keeps_readonlyAt (fun t => keeps_pure t) depth
  have halias := keeps_resolveAlias h chain
  have hinstance := keeps_instantiate h chain
  unfold Expansion.expandStep
  grind

end Steps

theorem keeps_expandAt (depth : Nat) (chain : Expansion.Chain) (t : Ty) :
    Keeps (Expansion.expandAt depth chain t) := by
  induction depth generalizing chain t with
  | zero => exact keeps_outOfSteps
  | succ depth ih => exact keeps_expandStep ih depth chain t

@[grind ←]
theorem keeps_resolve (t : Ty) : Keeps t.resolve := by
  have hexpand := fun depth => keeps_expandAt depth [] t
  unfold Ty.resolve
  grind

/-- Expansion remembers answers and adds the types in them. -/
@[grind ←]
theorem keeps_resolveAll : Keeps Alias.resolveAll := by
  have hresolve (name : String) : Keeps (Alias.resolve name) := by
    have halias (depth : Nat) (a : Alias) := keeps_resolveAlias (keeps_expandAt depth) [] a
    unfold Alias.resolve
    grind
  unfold Alias.resolveAll
  grind

/-! ### Properties -/

@[grind ←]
theorem keeps_property? (t : Ty) (name : String) : Keeps (t.property? name) := by
  have hall {p : Ty → Typing (Option Field)} (hp : ∀ t, Keeps (p t)) (ts : List Ty) :
      Keeps (Ty.propertyOfAll p ts) := by
    induction ts with
    | nil => exact keeps_pure _
    | cons t ts ih =>
      unfold Ty.propertyOfAll
      grind
  have hat (depth : Nat) (t : Ty) : Keeps (Ty.propertyAt name depth t) := by
    induction depth generalizing t with
    | zero => exact keeps_outOfSteps
    | succ depth ih =>
      have hparts := hall ih
      unfold Ty.propertyAt
      refine keeps_bind (keeps_resolve t) fun u => keeps_bind keeps_get fun T => ?_
      split
      case h_9 =>
        split
        · exact ih _
        · exact keeps_pure _
      all_goals grind
  exact keeps_bounded fun depth => hat depth t

@[grind ←]
theorem keeps_ownField? (t : Ty) (name : String) : Keeps (t.ownField? name) := by
  unfold Ty.ownField?
  grind

@[grind ←]
theorem keeps_isReadonlyProperty (t : Ty) (name : String) : Keeps (t.isReadonlyProperty name) := by
  unfold Ty.isReadonlyProperty
  grind

@[grind ←]
theorem keeps_callSignatures (t : Ty) : Keeps t.callSignatures := by
  have hat (depth : Nat) (t : Ty) : Keeps (Ty.callSignaturesAt depth t) := by
    induction depth generalizing t with
    | zero => exact keeps_outOfSteps
    | succ depth ih =>
      unfold Ty.callSignaturesAt
      refine keeps_bind (keeps_resolve t) fun u => keeps_bind keeps_get fun T => ?_
      split
      case h_4 =>
        split
        · exact ih _
        · exact keeps_pure _
      all_goals grind
  exact keeps_bounded fun depth => hat depth t

/-! ### Comparison -/

section Rules

variable {compare inner : Assign.Compare}

@[grind ←]
theorem keeps_all (h : ∀ a, Keeps (test a)) (as : List α) : Keeps (Assign.all test as) := by
  induction as with
  | nil => exact keeps_pure _
  | cons a as ih =>
    unfold Assign.all
    grind

@[grind ←]
theorem keeps_any (h : ∀ a, Keeps (test a)) (as : List α) : Keeps (Assign.any test as) := by
  induction as with
  | nil => exact keeps_pure _
  | cons a as ih =>
    unfold Assign.any
    grind

theorem keeps_functions (h : ∀ s t, Keeps (compare s t)) (s t : Ty) :
    Keeps (Assign.functions compare s t) := by
  have heither (s t : Ty) : Keeps (Assign.eitherWay compare s t) := by
    unfold Assign.eitherWay
    grind
  have hcallables (c d : Callable) : Keeps (Assign.callables compare c d) := by
    unfold Assign.callables
    grind
  unfold Assign.functions
  grind

theorem keeps_tuples (h : ∀ s t, Keeps (compare s t)) (t u : Tuple) :
    Keeps (Assign.tuples compare t u) := by
  have hslots (ss ts : List Slot) : Keeps (Assign.slots compare t.rest u.rest ss ts) := by
    fun_induction Assign.slots compare t.rest u.rest ss ts <;> grind
  unfold Assign.tuples
  grind

theorem keeps_toObject (h : ∀ s t, Keeps (compare s t)) (s : Ty) (m : Members) :
    Keeps (Assign.toObject compare s m) := by
  have hfield (f : Field) : Keeps (Assign.field compare s f) := by
    unfold Assign.field Assign.found
    grind
  have hindex (i : Index) : Keeps (Assign.index compare s i) := by
    unfold Assign.index
    refine keeps_bind keeps_get fun T => ?_
    split <;> grind
  have hfunctions := keeps_functions h
  unfold Assign.toObject
  grind

theorem keeps_structural (h : ∀ s t, Keeps (compare s t)) (s t : Ty) :
    Keeps (Assign.structural compare s t) := by
  have hfunctions := keeps_functions h
  have htuples := keeps_tuples h
  have hobject := keeps_toObject h
  unfold Assign.structural
  grind

theorem keeps_stepResolved (h : ∀ s t, Keeps (compare s t)) (hinner : ∀ s t, Keeps (inner s t))
    (assumed : Bool) (s t : Ty) : Keeps (Assign.stepResolved assumed compare inner s t) := by
  have hstructural := keeps_structural hinner
  unfold Assign.stepResolved
  refine keeps_bind keeps_get fun T => ?_
  split
  · exact keeps_pure _
  · split <;> grind

theorem keeps_step (h : ∀ s t, Keeps (compare s t)) (hinner : ∀ s t, Keeps (inner s t))
    (assumed : Bool) (s t : Ty) : Keeps (Assign.step assumed compare inner s t) := by
  have hresolved := keeps_stepResolved h hinner assumed
  unfold Assign.step
  grind

end Rules

/-- Comparison adds the types that expansion makes. -/
@[grind ←]
theorem keeps_isAssignableTo (s t : Ty) : Keeps (s.isAssignableTo t) := by
  have hdecide (depth : Nat) (pairs : List (Ty × Ty)) (s t : Ty) :
      Keeps (Assign.decideAt depth pairs s t) := by
    induction depth generalizing pairs s t with
    | zero => exact keeps_outOfSteps
    | succ depth ih => exact keeps_step (ih _) (ih _) _ s t
  unfold Ty.isAssignableTo
  split
  · exact keeps_pure _
  refine keeps_bind keeps_get fun T => ?_
  split
  · exact keeps_pure _
  · refine keeps_bind (keeps_bounded fun depth => hdecide depth [] s t) fun verdict => ?_
    split
    · exact keeps_bind (keeps_modify fun _ => rfl) fun _ => keeps_pure _
    · exact keeps_pure _

/-! ### Narrowing -/

@[grind ←]
theorem keeps_resolveMembers (t : Ty) : Keeps t.resolveMembers := by
  unfold Ty.resolveMembers
  grind

@[grind ←]
theorem keeps_select {test : Ty → Typing Bool} (h : ∀ t, Keeps (test t)) (ts : List Ty) :
    Keeps (Ty.select test ts) := by
  induction ts with
  | nil => exact keeps_pure _
  | cons t ts ih =>
    unfold Ty.select
    grind

@[grind ←]
theorem keeps_narrowByKind (t : Ty) (kind : String) : Keeps (t.narrowByKind kind) := by
  have hkind (m : Ty) : Keeps (Ty.hasKind kind m) := by
    unfold Ty.hasKind
    grind
  have hother (m : Ty) : Keeps (do return !(← Ty.hasKind kind m)) :=
    keeps_bind (hkind m) fun _ => keeps_pure _
  have hno := keeps_select hother
  unfold Ty.narrowByKind
  grind

@[grind ←]
theorem keeps_narrowByLiteral (t literal : Ty) : Keeps (t.narrowByLiteral literal) := by
  have hpart (m : Ty) : Keeps (Ty.equalPart literal m) := by
    unfold Ty.equalPart
    grind
  unfold Ty.narrowByLiteral Ty.members
  grind

@[grind ←]
theorem keeps_narrowByDiscriminant (t : Ty) (field : String) (literal : Ty) :
    Keeps (t.narrowByDiscriminant field literal) := by
  have hsides (m : Ty) : Keeps (Ty.discriminantSides field literal m) := by
    unfold Ty.discriminantSides
    grind
  unfold Ty.narrowByDiscriminant Ty.members
  grind

@[grind ←]
theorem keeps_narrowByTruthiness (t : Ty) : Keeps t.narrowByTruthiness := by
  unfold Ty.narrowByTruthiness
  grind

end Typing

/-! ### Inference -/

namespace Inference

/-- Work that collects evidence and keeps the types of a table. -/
def Unify.Keeps {α : Type} (work : Unify α) : Prop := ∀ e, Typing.Keeps (work e)

namespace Unify

variable {compare : Ty → Ty → Unify Unit}

@[grind ←]
theorem keeps_lift {work : Typing α} (h : work.Keeps) : Keeps (monadLift work : Unify α) := by
  intro e
  change Typing.Keeps (work >>= fun a => pure (a, e))
  exact Typing.keeps_bind h fun a => Typing.keeps_pure _

@[grind ←]
theorem keeps_interning (h : work.Keeps) :
    Keeps (monadLift work : Unify α) := keeps_lift (Typing.keeps_lift h)

@[grind ←]
theorem keeps_pure (a : α) : Keeps (pure a : Unify α) := fun _ => Typing.keeps_pure _

@[grind ←]
theorem keeps_bind {x : Unify α} {f : α → Unify β} (hx : Keeps x) (hf : ∀ a, Keeps (f a)) :
    Keeps (x >>= f) := fun e => Typing.keeps_bind (hx e) fun p => hf p.1 p.2

@[grind ←]
theorem keeps_table : Keeps table := keeps_lift Typing.keeps_get

@[grind ←]
theorem keeps_get : Keeps (get : Unify Evidence) := fun _ => Typing.keeps_pure _

@[grind ←]
theorem keeps_modify (change : Evidence → Evidence) : Keeps (modify change : Unify Unit) :=
  fun _ => Typing.keeps_pure _

@[grind ←]
theorem keeps_forM {f : α → Unify Unit} (hf : ∀ a, Keeps (f a)) (as : List α) :
    Keeps (as.forM f) :=
  have hsequential : Sequential fun α (x : Unify α) => Keeps x := ⟨keeps_pure, keeps_bind⟩
  hsequential.forM fun a _ => hf a

theorem keeps_pairwise (h : ∀ p a, Keeps (compare p a)) (pairs : List (Ty × Ty)) :
    Keeps (pairwise compare pairs) := by
  unfold pairwise
  grind

theorem keeps_object (h : ∀ p a, Keeps (compare p a)) (p : Members) (argument : Ty) :
    Keeps (object compare p argument) := by
  have hpairs := keeps_pairwise h
  refine keeps_bind (keeps_lift (Typing.keeps_resolve _)) fun a => ?_
  refine keeps_bind (keeps_forM (fun f => ?_) _) fun _ => keeps_bind keeps_table fun T => ?_
  · refine keeps_bind (keeps_lift (Typing.keeps_property? a f.name)) fun g => ?_
    cases g with
    | some g => exact h _ _
    | none => exact keeps_pure ()
  · grind

theorem keeps_function (h : ∀ p a, Keeps (compare p a)) (p : Callable) (argument : Ty) :
    Keeps (function compare p argument) := by
  have hpairs := keeps_pairwise h
  refine keeps_bind (keeps_lift (Typing.keeps_resolve _)) fun a => ?_
  refine keeps_bind (keeps_lift (Typing.keeps_callSignatures a)) fun signatures => ?_
  split
  · exact keeps_pure _
  · grind

theorem keeps_union (vars : List TypeVar) (h : ∀ p a, Keeps (compare p a)) (ms : List Ty)
    (argument : Ty) : Keeps (union vars compare ms argument) := by
  have hpairs := keeps_pairwise h
  have hother (others m : Ty) : Typing.Keeps (do return !(← m.isAssignableTo others)) :=
    Typing.keeps_bind (Typing.keeps_isAssignableTo m others) fun _ => Typing.keeps_pure _
  have hselect := fun others => Typing.keeps_select (hother others)
  refine keeps_bind keeps_table fun T => ?_
  dsimp only
  split
  · exact h _ _
  · refine keeps_bind (keeps_interning (Interning.keeps_unionOf _)) fun others => ?_
    refine keeps_bind (keeps_lift (Typing.keeps_resolve _)) fun a => ?_
    exact keeps_bind keeps_table fun T' => by grind
  · exact hpairs _

theorem keeps_byShape (vars : List TypeVar) (h : ∀ p a, Keeps (compare p a)) (p argument : Ty) :
    Keeps (byShape vars compare p argument) := by
  have hpairs := keeps_pairwise h
  have hreference (name : String) (arguments : List Ty) :
      Keeps (reference compare p name arguments argument) := by
    unfold reference
    grind
  have harray (element : Ty) : Keeps (array compare element argument) := by
    unfold array
    grind
  have htuple (t : Tuple) : Keeps (tuple compare t argument) := by
    unfold tuple
    grind
  have hobject := keeps_object h
  have hfunction := keeps_function h
  have hunion := keeps_union vars h
  unfold byShape
  grind

theorem keeps_unifyAt (vars : List TypeVar) (depth : Nat) (p argument : Ty) :
    Keeps (unifyAt vars depth p argument) := by
  induction depth generalizing p argument with
  | zero => exact keeps_lift Typing.keeps_outOfSteps
  | succ depth ih =>
    have hshape := keeps_byShape vars ih
    unfold unifyAt
    grind

end Unify

end Inference

namespace Typing

open Inference

@[grind ←]
theorem keeps_unify (vars : List TypeVar) (evidence : Evidence) (p argument : Ty) :
    Keeps (unify vars evidence p argument) :=
  keeps_bounded fun depth =>
    keeps_bind (Unify.keeps_unifyAt vars depth p argument evidence) fun _ => keeps_pure _

@[grind ←]
theorem keeps_fitsTarget (t target : Ty) : Keeps (Overload.fitsTarget t target) := by
  unfold Overload.fitsTarget
  grind

@[grind ←]
theorem keeps_widenBinding (v : TypeVar) (t : Ty) (subs : Substitution) :
    Keeps (Inference.widen v t subs) := by
  unfold Inference.widen
  grind

@[grind ←]
theorem keeps_instantiateCallable (c : Callable) (subs : Substitution) :
    Keeps (Inference.instantiate c subs) := by
  have hviolation (vars : List TypeVar) : Keeps (violation? subs vars) := by
    induction vars with
    | nil => exact keeps_pure _
    | cons v vars ih =>
      unfold violation?
      grind
  unfold Inference.instantiate
  grind

@[grind ←]
theorem keeps_omitting (c : Callable) (explicit : List Ty) :
    Keeps (Omission.instantiate c explicit) := by
  have hviolation (nil : Ty) (subs : Substitution) (vars : List TypeVar) :
      Keeps (Omission.violation? nil subs vars) := by
    induction vars with
    | nil => exact keeps_pure _
    | cons v vars ih =>
      unfold Omission.violation? Omission.fits
      grind
  unfold Omission.instantiate
  grind

@[grind ←]
theorem keeps_bindExplicit (c : Callable) (explicit : List Ty) :
    Keeps (bindExplicit c explicit) := by
  unfold bindExplicit
  grind

@[grind ←]
theorem keeps_bindings (evidence : Evidence) (vars : List TypeVar) (subs : Substitution) :
    Keeps (bindings evidence vars subs) := by
  induction vars generalizing subs with
  | nil => exact keeps_pure _
  | cons v vars ih =>
    unfold bindings
    grind

@[grind ←]
theorem keeps_partialBindings (evidence : Evidence) (vars : List TypeVar) :
    Keeps (partialBindings evidence vars) := by
  induction vars with
  | nil => exact keeps_pure _
  | cons v vars ih =>
    unfold partialBindings
    grind

end Typing

end ShapeCheck
