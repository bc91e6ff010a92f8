import ShapeCheck.Ty.Alias
import ShapeCheck.Proofs.Structure
import Mathlib.Order.Basic

/-!
# Tables only grow

An entry of a table refers to entries made before it, keeps its number and its shape, and no two
entries have the same structure. Work on a table therefore only extends it, and what was once said
about a type stays true of it.

* `Table.Has` says that a type stands in a table, `Table.WellFormed` what holds of every table.
* `T ≤ T'` says that `T'` extends `T`: the types of `T` are unchanged, the aliases are the same, and
  what a type resolves to is only added where nothing was known.
* `Table.shape_of_le` and its companions read a type in a later table.
-/

namespace ShapeCheck

variable {P : Ty → Prop} {n : Nat} {v : TypeVar} {ms : List Ty} {p : Ty}

/-- The types that a shape is made of. The members of an enum are made after it and do not count. -/
def Shape.parts : Shape → List Ty
  | .union ms => ms
  | .intersection ms => ms
  | .object m => m.fields.map Field.type ++ (m.index.map Index.value).toList ++ m.calls
  | .array element _ => [element]
  | .tuple t => t.elements
  | .function c =>
    c.params.map Parameter.type ++ (c.rest.map Parameter.type).toList ++ c.receiver.toList ++
      [c.result]
  | .reference _ arguments => arguments
  | .enumMember enum _ value => [enum, value]
  | .classValue _ instanceType constructor => [instanceType, constructor]
  | _ => []

/-- What is said of all parts of an object. -/
theorem Shape.forall_parts_object {m : Members} :
    (∀ p ∈ (Shape.object m).parts, P p) ↔ (∀ f ∈ m.fields, P f.type) ∧ (∀ i ∈ m.index, P i.value) ∧
      ∀ t ∈ m.calls, P t := by
  constructor
  · intro h
    refine ⟨fun f hf => h _ ?_, fun i hi => h _ ?_, fun t ht => h t ?_⟩
    · simp only [Shape.parts, List.mem_append, List.mem_map]
      exact .inl (.inl ⟨f, hf, rfl⟩)
    · simp only [Shape.parts, List.mem_append]
      exact .inl (.inr (by simp [Option.mem_def.mp hi]))
    · simp only [Shape.parts, List.mem_append]
      exact .inr ht
  · rintro ⟨hf, hi, hc⟩ p hp
    simp only [Shape.parts, List.mem_append, List.mem_map] at hp
    rcases hp with (⟨f, hf', rfl⟩ | hp) | hp
    · exact hf f hf'
    · cases hix : m.index with
      | none => simp [hix] at hp
      | some i =>
        have : p = i.value := by simpa [hix] using hp
        exact this ▸ hi i hix
    · exact hc p hp

/-- What is said of all parts of a function. -/
theorem Shape.forall_parts_function {c : Callable} :
    (∀ p ∈ (Shape.function c).parts, P p) ↔ (∀ p ∈ c.params, P p.type) ∧
      (∀ p ∈ c.rest, P p.type) ∧ (∀ t ∈ c.receiver, P t) ∧ P c.result := by
  constructor
  · intro h
    refine ⟨fun p hp => h _ ?_, fun p hp => h _ ?_, fun t ht => h t ?_, h _ ?_⟩
    · simp only [Shape.parts, List.mem_append, List.mem_map]
      exact .inl (.inl (.inl ⟨p, hp, rfl⟩))
    · simp only [Shape.parts, List.mem_append, Option.mem_toList]
      exact .inl (.inl (.inr (by simp [Option.mem_def.mp hp])))
    · simp only [Shape.parts, List.mem_append, Option.mem_toList]
      exact .inl (.inr ht)
    · simp [Shape.parts]
  · rintro ⟨hparams, hrest, hreceiver, hresult⟩ p hp
    simp only [Shape.parts, List.mem_append, List.mem_map, Option.mem_toList,
      List.mem_singleton] at hp
    rcases hp with ((⟨q, hq, rfl⟩ | hp) | hp) | rfl
    · exact hparams q hq
    · obtain ⟨q, hq, rfl⟩ := Option.map_eq_some_iff.mp hp
      exact hrest q hq
    · exact hreceiver p hp
    · exact hresult

/-- What is said of all elements of a tuple. -/
theorem Tuple.forall_elements {u : Tuple} :
    (∀ t ∈ u.elements, P t) ↔ (∀ s ∈ u.slots, P s.type) ∧ ∀ r ∈ u.rest, P r := by
  simp only [elements, List.mem_append, List.mem_map, Option.mem_toList]
  constructor
  · intro h
    exact ⟨fun s hs => h s.type (.inl ⟨s, hs, rfl⟩), fun r hr => h r (.inr hr)⟩
  · rintro ⟨hslots, hrest⟩ t (⟨s, hs, rfl⟩ | ht)
    · exact hslots s hs
    · exact hrest t ht

/-- The shapes that entries have: the primitives and the truth values have no entries. -/
def Shape.IsEntry : Shape → Prop
  | .primitive _ => False
  | .literal l => l.base ≠ .boolean
  | s => s.Tidy

/-- Whether the shape is a member of an enum. Such an entry is never looked up. -/
def Shape.isEnumMember : Shape → Bool
  | .enumMember _ _ _ => true
  | _ => false

namespace Table

/-- The type stands in the table. -/
def Has (T : Table) (t : Ty) : Prop := t.rank ≤ T.entries.size

/-- The type parameter stands in the table. -/
def Knows (T : Table) (v : TypeVar) : Prop := v.number < T.typeVars.size

/-- The first type stands before the second: its printed form is smaller, or it is the same and its
number is smaller. -/
def Precedes (T : Table) (a b : Ty) : Prop :=
  T.text a < T.text b ∨ T.text a = T.text b ∧ a.serial < b.serial

/-- Some types are the members of a union in its normal form. -/
structure Canonical (T : Table) (ms : List Ty) : Prop where
  several : 2 ≤ ms.length
  flat : ∀ m ∈ ms, T.members m = [m]
  /-- No member stands for nothing, or for everything. -/
  proper : ∀ m ∈ ms, m ≠ .never ∧ m ≠ .any ∧ m ≠ .unknown ∧ m ≠ .invalid
  /-- A literal does not stand next to its primitive. -/
  literals : ∀ m ∈ ms, ∀ l, T.literal? m = some l → Ty.prim l.base ∉ ms
  /-- The two truth values are joined to `boolean`. -/
  truths : ¬(Ty.truth true ∈ ms ∧ Ty.truth false ∈ ms)
  ordered : ms.Pairwise T.Precedes

/-- What holds of every entry of a table. -/
structure EntryValid (T : Table) (n : Nat) (e : Entry) : Prop where
  parts : ∀ p ∈ e.shape.parts, p.rank ≤ n
  members : ∀ en, e.shape = .enumeration en → ∀ m ∈ en.members, T.Has m
  /-- A reference to a type parameter is to one of the table's. -/
  vars : ∀ v, e.shape = .parameter v → T.Knows v
  union : ∀ ms, e.shape = .union ms → T.Canonical ms
  /-- The value of a member of an enum is a literal. -/
  values : ∀ enum name v, e.shape = .enumMember enum name v → (T.literal? v).isSome
  key : e.key = e.shape.key
  isEntry : e.shape.IsEntry

/-- What holds of every table. -/
structure WellFormed (T : Table) : Prop where
  entry : ∀ (n : Nat) (e : Entry), T.entries[n]? = some e → T.EntryValid n e
  /-- No two entries have one key, members of enums apart. -/
  unique : ∀ (i j : Nat) (e f : Entry), T.entries[i]? = some e → T.entries[j]? = some f →
    e.shape.isEnumMember = false → e.key = f.key → i = j
  typeVars : ∀ (i : Nat) (info : TypeVarInfo), T.typeVars[i]? = some info →
    (∀ b ∈ info.bound, T.Has b) ∧ ∀ d ∈ info.default, T.Has d
  aliases : ∀ a ∈ T.aliases, T.Has a.target ∧ (∀ v ∈ a.params, T.Knows v) ∧
    ∀ t, a.outcome = some (.resolved t) → T.Has t
  instances : ∀ t r, T.instances.lookup t = some r → T.Has r

/-- The types whose resolution may be remembered: references to an alias that stands for a type, if
there are parameters or arguments, and, once the table is frozen, intersections. -/
def Opens (T : Table) (t : Ty) : Prop :=
  match T.shape t with
  | .reference name arguments =>
    ∃ a, T.alias? name = some a ∧ a.outcome.map Expansion.outcomeType ≠ some .invalid ∧
      (arguments ≠ [] ∨ a.params ≠ [])
  | .intersection _ => T.frozen = true
  | _ => False

/-- The second table extends the first. -/
structure Extends (T T' : Table) : Prop where
  entries : ∀ (n : Nat) (e : Entry), T.entries[n]? = some e → T'.entries[n]? = some e
  typeVars : ∀ (i : Nat) (info : TypeVarInfo), T.typeVars[i]? = some info →
    T'.typeVars[i]? = some info
  aliases : T'.aliases = T.aliases
  frozen : T'.frozen = T.frozen
  kept : ∀ t r, T.instances.lookup t = some r → T'.instances.lookup t = some r
  opened : ∀ t r, T'.instances.lookup t = some r → T.instances.lookup t = some r ∨ T'.Opens t

section Basics

variable {T T' T'' : Table} {t : Ty}

@[simp] theorem has_prim (T : Table) (p : Primitive) : T.Has (.prim p) := Nat.zero_le _

@[simp] theorem has_truth (T : Table) (b : Bool) : T.Has (.truth b) := Nat.zero_le _

@[simp] theorem has_made (T : Table) (n : Nat) : T.Has (.made n) ↔ n < T.entries.size := Iff.rfl

theorem has_iff_entry : T.Has (.made n) ↔ ∃ e, T.entries[n]? = some e := by
  rw [has_made]
  constructor
  · intro h
    exact ⟨_, Array.getElem?_eq_getElem h⟩
  · rintro ⟨e, he⟩
    exact (Array.getElem?_eq_some_iff.mp he).1

theorem shape_made {e : Entry} (h : T.entries[n]? = some e) : T.shape (.made n) = e.shape := by
  simp [shape, h]

theorem getElem?_size_le {α : Type} {xs ys : Array α}
    (h : ∀ (i : Nat) (a : α), xs[i]? = some a → ys[i]? = some a) : xs.size ≤ ys.size := by
  by_contra hlt
  have hin : ys.size < xs.size := by omega
  have := h _ _ (Array.getElem?_eq_getElem hin)
  simp at this

theorem Extends.refl (T : Table) : T.Extends T :=
  ⟨fun _ _ h => h, fun _ _ h => h, rfl, rfl, fun _ _ h => h, fun _ _ h => .inl h⟩

/-- What a later table says of a type of an earlier one. -/
theorem Extends.shape_eq (h : T.Extends T') (ht : T.Has t) : T'.shape t = T.shape t := by
  cases t with
  | prim p => rfl
  | truth b => rfl
  | made n =>
    obtain ⟨e, he⟩ := has_iff_entry.mp ht
    rw [shape_made he, shape_made (h.entries n e he)]

/-- A type whose entry is missing counts as an error, so every other composite type stands in the
table. -/
theorem has_of_shape (h : T.shape t ≠ .primitive .invalid) : T.Has t := by
  cases t with
  | prim p => exact has_prim T p
  | truth b => exact has_truth T b
  | made n =>
    cases he : T.entries[n]? with
    | none => exact absurd (by simp [shape, he]) h
    | some e => exact has_iff_entry.mpr ⟨e, he⟩

/-- What is neither a primitive nor `true` or `false` says what an entry says. -/
theorem exists_entry {s : Shape} (h : T.shape t = s) (hprim : ∀ p, s ≠ .primitive p)
    (htruth : ∀ b, s ≠ .literal (.boolean b)) :
    ∃ n e, t = .made n ∧ T.entries[n]? = some e ∧ e.shape = s := by
  cases t with
  | prim p => exact absurd h.symm (hprim p)
  | truth b => exact absurd h.symm (htruth b)
  | made n =>
    obtain ⟨e, he⟩ := has_iff_entry.mp (has_of_shape (h ▸ hprim _))
    exact ⟨n, e, rfl, he, (shape_made he).symm.trans h⟩

theorem Extends.opens_iff (h : T.Extends T') (ht : T.Has t) : T'.Opens t ↔ T.Opens t := by
  unfold Opens
  rw [h.shape_eq ht]
  simp only [alias?, h.aliases, h.frozen]

theorem Extends.opens (h : T.Extends T') (ht : T.Opens t) : T'.Opens t := by
  have hhas : T.Has t := by
    apply has_of_shape
    intro hs
    simp [Opens, hs] at ht
  exact (h.opens_iff hhas).mpr ht

theorem Extends.trans (h : T.Extends T') (h' : T'.Extends T'') : T.Extends T'' where
  entries n e he := h'.entries n e (h.entries n e he)
  typeVars i info hi := h'.typeVars i info (h.typeVars i info hi)
  aliases := h'.aliases.trans h.aliases
  frozen := h'.frozen.trans h.frozen
  kept t r hr := h'.kept t r (h.kept t r hr)
  opened t r hr := by
    rcases h'.opened t r hr with hr | hopen
    · rcases h.opened t r hr with hr | hopen
      · exact .inl hr
      · exact .inr (h'.opens hopen)
    · exact .inr hopen

end Basics

instance : Preorder Table where
  le := Extends
  le_refl := Extends.refl
  le_trans _ _ _ := Extends.trans

section Order

variable {T T' : Table} {t : Ty}

variable (h : T ≤ T')
include h

theorem has_of_le (ht : T.Has t) : T'.Has t :=
  Nat.le_trans ht (getElem?_size_le h.entries)

theorem knows_of_le (hv : T.Knows v) : T'.Knows v :=
  Nat.lt_of_lt_of_le hv (getElem?_size_le h.typeVars)

theorem shape_of_le (ht : T.Has t) : T'.shape t = T.shape t := h.shape_eq ht

theorem text_of_le (ht : T.Has t) : T'.text t = T.text t := by
  cases t with
  | prim p => rfl
  | truth b => rfl
  | made n =>
    obtain ⟨e, he⟩ := has_iff_entry.mp ht
    simp [text, he, h.entries n e he]

theorem typeVar_of_le (hv : T.Knows v) : T'.typeVar v = T.typeVar v := by
  have hi := Array.getElem?_eq_getElem hv
  simp only [typeVar, hi, h.typeVars _ _ hi]

theorem alias?_of_le (name : String) : T'.alias? name = T.alias? name := by
  rw [alias?, alias?, h.aliases]

theorem members_of_le (ht : T.Has t) : T'.members t = T.members t := by
  rw [members, members, shape_of_le h ht]

theorem literal?_of_le (ht : T.Has t) : T'.literal? t = T.literal? t := by
  rw [literal?, literal?, shape_of_le h ht]

theorem callable?_of_le (ht : T.Has t) : T'.callable? t = T.callable? t := by
  rw [callable?, callable?, shape_of_le h ht]

omit h

/-- A family of types. Whether a type of a table belongs to it depends on the types of the table
alone, so it does for as long as these are kept. -/
structure Family where
  Mem : Table → Ty → Prop
  has : ∀ {T t}, Mem T t → T.Has t
  keep : ∀ {T T1 t}, (∀ u, T.Has u → T1.Has u) → (∀ u, T.Has u → T1.shape u = T.shape u) →
    Mem T t → Mem T1 t

theorem Family.of_le (G : Family) (h : T ≤ T') (ht : G.Mem T t) : G.Mem T' t :=
  G.keep (fun _ hu => has_of_le h hu) (fun _ hu => shape_of_le h hu) ht

/-- All types of a table. -/
def Family.all : Family := ⟨Has, id, fun hhas _ ht => hhas _ ht⟩

/-- What is said of some members in their order only depends on what is said of each. -/
theorem Canonical.congr (h : T.Canonical ms) (hmembers : ∀ m ∈ ms, T'.members m = T.members m)
    (hliteral : ∀ m ∈ ms, T'.literal? m = T.literal? m) (htext : ∀ m ∈ ms, T'.text m = T.text m) :
    T'.Canonical ms where
  several := h.several
  flat m hm := (hmembers m hm).trans (h.flat m hm)
  proper := h.proper
  literals m hm l hl := h.literals m hm l ((hliteral m hm).symm.trans hl)
  truths := h.truths
  ordered := by
    refine h.ordered.imp_of_mem fun ha hb hab => ?_
    rwa [Precedes, htext _ ha, htext _ hb]

theorem Canonical.of_le (h : T.Canonical ms) (hle : T ≤ T')
    (hms : ∀ m ∈ ms, T.Has m) : T'.Canonical ms :=
  h.congr (fun m hm => members_of_le hle (hms m hm)) (fun m hm => literal?_of_le hle (hms m hm))
    fun m hm => text_of_le hle (hms m hm)

/-- Only the entries count for the normal form. -/
theorem Canonical.of_entries (h : T.Canonical ms) (hentries : T'.entries = T.entries) :
    T'.Canonical ms := by
  have hshape : ∀ t, T'.shape t = T.shape t := by
    rintro (_ | _ | n)
    · rfl
    · rfl
    · simp only [shape, hentries]
  have htext : ∀ t, T'.text t = T.text t := by
    rintro (_ | _ | n)
    · rfl
    · rfl
    · simp only [text, hentries]
  refine h.congr (fun m _ => ?_) (fun m _ => ?_) fun m _ => htext m
  · rw [members, members, hshape]
  · rw [literal?, literal?, hshape]

/-- A key that is found stays with its type. -/
theorem find?_of_le {key : String} (h : T ≤ T') (ht : T.find? key = some t) :
    T'.find? key = some t := by
  obtain ⟨n, hn, rfl⟩ := Option.map_eq_some_iff.mp ht
  obtain ⟨hlt, hkey, hfirst⟩ := Array.findIdx?_eq_some_iff_getElem.mp hn
  have hle := getElem?_size_le h.entries
  have hsame : ∀ i (hi : i < T.entries.size), T'.entries[i] = T.entries[i] := by
    intro i hi
    have := h.entries i _ (Array.getElem?_eq_getElem hi)
    exact (Array.getElem?_eq_some_iff.mp this).2
  have hn' : T'.entries.findIdx? (fun e => e.key == key) = some n := by
    refine Array.findIdx?_eq_some_iff_getElem.mpr ⟨by omega, ?_, ?_⟩
    · rw [hsame n hlt]
      exact hkey
    · intro j hj
      rw [hsame j (by omega)]
      exact hfirst j hj
  rw [find?, hn']
  rfl

end Order

section WellFormed

variable {T : Table} {t : Ty}

/-- The parts of a type stand below it. -/
theorem WellFormed.rank_part (hT : T.WellFormed)
    (hp : p ∈ (T.shape t).parts) : p.rank < t.rank := by
  cases t with
  | prim q => simp [shape, Shape.parts] at hp
  | truth b => simp [shape, Shape.parts] at hp
  | made n =>
    cases he : T.entries[n]? with
    | none => simp [shape, he, Shape.parts] at hp
    | some e =>
      rw [shape_made he] at hp
      exact Nat.lt_succ_of_le ((hT.entry n e he).parts p hp)

/-- Only the truth values have their shapes. -/
theorem eq_truth_of_shape (hT : T.WellFormed) {u : Ty} {x : Bool}
    (h : T.shape u = .literal (.boolean x)) : u = .truth x := by
  cases u with
  | prim p => simp [shape] at h
  | truth y =>
    simp only [shape, Shape.literal.injEq, Literal.boolean.injEq] at h
    rw [h]
  | made n =>
    cases he : T.entries[n]? with
    | none => simp [shape, he] at h
    | some e =>
      have hentry := (hT.entry n e he).isEntry
      rw [shape_made he] at h
      rw [h] at hentry
      exact absurd rfl hentry

theorem WellFormed.has_part (hT : T.WellFormed) (ht : T.Has t)
    (hp : p ∈ (T.shape t).parts) : T.Has p :=
  Nat.le_trans (Nat.le_of_lt (hT.rank_part hp)) ht

end WellFormed

end Table

end ShapeCheck
