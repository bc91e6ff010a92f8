import ShapeCheck.Proofs.Growth

/-!
# Work that settles

The constructors of types always end, only add entries to the table, and find what they added when
they are asked again in any later table. This file has the rules by which that is inherited from the
parts of a piece of work, and the one constructor below all others, `Ty.intern`.

* `Table.Orderly` says of a table that its tuples, intersections and members of enums are as their
  constructors leave them, and `Table.Adds` is what such work does to a table.
* `Interning.Settles T work V` says that `work` settles from `T` on with a result that has `V`.
* `Interning.settles_intern` says that `Ty.intern` settles, with a type that is like the given
  shape.
-/

namespace ShapeCheck

variable {α β : Type} {t : Ty} {s : Shape} {n : Nat} {e f : Entry} {T T' : Table} {key : String}
  {work : Interning α} {V W : Table → α → Prop}

namespace Table

/-- Some types are the members of an intersection as its constructor leaves them. -/
structure Reduced (T : Table) (ms : List Ty) : Prop where
  several : 2 ≤ ms.length
  flat : ∀ m ∈ ms, Ty.intersectionMembers T m = [m]
  /-- No member stands for nothing, or for everything. -/
  proper : ∀ m ∈ ms, m ≠ .never ∧ m ≠ .any ∧ m ≠ .unknown ∧ m ≠ .invalid
  atoms : (ms.filter (Ty.isAtom T)).length ≤ 1
  objects : (ms.filter fun m => (Ty.members? T m).isSome).length ≤ 1

/-- The constructors put such a shape in no other way: a member of an enum belongs to an enum. -/
def Standard (T : Table) : Shape → Prop
  | .tuple u => Ty.trailingOptional false u.slots = u.slots
  | .intersection ms => T.Reduced ms
  | .enumMember enum _ _ => ∃ e, T.shape enum = .enumeration e
  | _ => True

/-- Every entry says what it says as its constructor puts it. -/
def Orderly (T : Table) : Prop :=
  ∀ (n : Nat) (e : Entry), T.entries[n]? = some e → T.Standard e.shape

section Orders

variable {ms : List Ty}

/-- The shape is the same in both tables, or it is an enum in both. -/
def SaysAlike (T T' : Table) (t : Ty) : Prop :=
  T'.shape t = T.shape t ∨
    ∃ old new, T.shape t = .enumeration old ∧ T'.shape t = .enumeration new

theorem SaysAlike.intersectionMembers (h : T.SaysAlike T' t) :
    Ty.intersectionMembers T' t = Ty.intersectionMembers T t := by
  rw [Ty.intersectionMembers, Ty.intersectionMembers]
  rcases h with h | ⟨old, new, hold, hnew⟩
  · rw [h]
  · rw [hold, hnew]

theorem SaysAlike.isAtom (h : T.SaysAlike T' t) : Ty.isAtom T' t = Ty.isAtom T t := by
  rw [Ty.isAtom, Ty.isAtom]
  rcases h with h | ⟨old, new, hold, hnew⟩
  · rw [h]
  · rw [hold, hnew]

theorem SaysAlike.members? (h : T.SaysAlike T' t) : Ty.members? T' t = Ty.members? T t := by
  rw [Ty.members?, Ty.members?]
  rcases h with h | ⟨old, new, hold, hnew⟩
  · rw [h]
  · rw [hold, hnew]

theorem Reduced.congr (h : T.Reduced ms) (hsame : ∀ m ∈ ms, T.SaysAlike T' m) :
    T'.Reduced ms where
  several := h.several
  flat m hm := (hsame m hm).intersectionMembers.trans (h.flat m hm)
  proper := h.proper
  atoms := by
    rw [List.filter_congr fun m hm => (hsame m hm).isAtom]
    exact h.atoms
  objects := by
    rw [List.filter_congr fun m hm => by rw [(hsame m hm).members?]]
    exact h.objects

/-- The order of the members does not matter. -/
theorem Reduced.perm {ns : List Ty} (h : T.Reduced ms) (hperm : ns.Perm ms) : T.Reduced ns where
  several := hperm.length_eq ▸ h.several
  flat m hm := h.flat m (hperm.mem_iff.mp hm)
  proper m hm := h.proper m (hperm.mem_iff.mp hm)
  atoms := (hperm.filter _).length_eq ▸ h.atoms
  objects := (hperm.filter _).length_eq ▸ h.objects

theorem Standard.congr (h : T.Standard s)
    (hsame : ∀ p ∈ s.parts, T.SaysAlike T' p) : T'.Standard s := by
  cases s with
  | tuple u => exact h
  | intersection ms => exact Reduced.congr h hsame
  | enumMember enum name value =>
    obtain ⟨e, he⟩ := h
    rcases hsame enum (by simp [Shape.parts]) with hs | ⟨-, new, -, hnew⟩
    · exact ⟨e, hs.trans he⟩
    · exact ⟨new, hnew⟩
  | _ => trivial

/-- Only the entries count. -/
theorem Orderly.of_entries (h : T.Orderly) (hentries : T'.entries = T.entries) : T'.Orderly := by
  intro n e he
  rw [hentries] at he
  refine (h n e he).congr fun p _ => .inl ?_
  cases p with
  | prim | truth => rfl
  | made k => simp only [shape, hentries]

/-- The parts of an entry say the same in every later table. -/
theorem WellFormed.shape_part_of_le (hT : T.WellFormed) (hle : T ≤ T')
    (he : T.entries[n]? = some e) : ∀ p ∈ e.shape.parts, T'.shape p = T.shape p := by
  intro p hp
  have hn : T.Has (.made n) := has_iff_entry.mpr ⟨e, he⟩
  exact shape_of_le hle (Nat.le_trans ((hT.entry n e he).parts p hp) (Nat.le_of_lt hn))

/-- What a later table says in an orderly way was said so before. -/
theorem Orderly.of_later (h : T'.Orderly) (hT : T.WellFormed) (hle : T ≤ T') : T.Orderly := by
  intro n e he
  refine (h n e (hle.entries n e he)).congr fun p hp => .inl ?_
  exact (hT.shape_part_of_le hle he p hp).symm

theorem Orderly.standard (h : T.Orderly) (t : Ty) : T.Standard (T.shape t) := by
  cases t with
  | prim | truth => trivial
  | made n =>
    cases he : T.entries[n]? with
    | none =>
      simp only [shape, he]
      trivial
    | some e =>
      rw [shape_made he]
      exact h n e he

theorem Orderly.empty : ({} : Table).Orderly := by
  intro n e he
  simp at he

end Orders

end Table

/-- The second table has only further entries and answers to what types resolve to. -/
structure Table.Adds (T T1 : Table) : Prop where
  le : T ≤ T1
  typeVars : T1.typeVars = T.typeVars
  verdicts : T1.verdicts = T.verdicts
  orderly : T.Orderly → T1.Orderly

theorem Table.Adds.refl (T : Table) : T.Adds T := ⟨le_refl T, rfl, rfl, id⟩

theorem Table.Adds.trans {T1 T2 : Table} (h : T.Adds T1) (h' : T1.Adds T2) : T.Adds T2 :=
  ⟨h.le.trans h'.le, h'.typeVars.trans h.typeVars, h'.verdicts.trans h.verdicts,
    fun hT => h'.orderly (h.orderly hT)⟩

namespace Table

/-- The table with one more entry. -/
def push (T : Table) (e : Entry) : Table := { T with entries := T.entries.push e }

section Push

theorem getElem?_push_old (h : T.entries[n]? = some f) : (T.push e).entries[n]? = some f := by
  have hn := (Array.getElem?_eq_some_iff.mp h).1
  rw [push, Array.getElem?_push_lt hn]
  exact congrArg some (Array.getElem?_eq_some_iff.mp h).2

theorem getElem?_push_new : (T.push e).entries[T.entries.size]? = some e :=
  Array.getElem?_push_size

theorem getElem?_push_cases (h : (T.push e).entries[n]? = some f) :
    T.entries[n]? = some f ∨ n = T.entries.size ∧ f = e := by
  rw [push, Array.getElem?_push] at h
  split at h
  next hn =>
    exact .inr ⟨hn, by simpa using h.symm⟩
  · exact .inl h

theorem shape_push_new : (T.push e).shape (.made T.entries.size) = e.shape :=
  shape_made getElem?_push_new

theorem has_push_new : (T.push e).Has (.made T.entries.size) := by
  simp [push]

/-- A table with one more entry extends the table. -/
theorem le_push : T ≤ T.push e :=
  ⟨fun _ _ h => getElem?_push_old h, fun _ _ h => h, rfl, rfl, fun _ _ h => h, fun _ _ h => .inl h⟩

theorem adds_push (hT : T.WellFormed) (hparts : ∀ p ∈ e.shape.parts, T.Has p)
    (hstandard : T.Orderly → T.Standard e.shape) : T.Adds (T.push e) := by
  refine ⟨le_push, rfl, rfl, fun h n f hf => ?_⟩
  rcases getElem?_push_cases hf with hold | ⟨-, rfl⟩
  · exact (h n f hold).congr fun p hp => .inl (hT.shape_part_of_le le_push hold p hp)
  · exact (hstandard h).congr fun p hp => .inl (shape_of_le le_push (hparts p hp))

theorem EntryValid.of_le (h : T.EntryValid n e) (hn : T.Has (.made n))
    (hle : T ≤ T') : T'.EntryValid n e where
  parts := h.parts
  union ms hms := by
    refine (h.union ms hms).of_le hle fun m hm => ?_
    have hpart : m ∈ e.shape.parts := by
      rw [hms]
      exact hm
    exact Nat.le_trans (h.parts m hpart) (Nat.le_of_lt hn)
  values enum name v hv := by
    have hpart : v ∈ e.shape.parts := by
      rw [hv]
      simp [Shape.parts]
    rw [literal?_of_le hle (Nat.le_trans (h.parts v hpart) (Nat.le_of_lt hn))]
    exact h.values enum name v hv
  members en hen m hm := has_of_le hle (h.members en hen m hm)
  vars v hv := knows_of_le hle (h.vars v hv)
  key := h.key
  isEntry := h.isEntry

/-- What has to be known of a new entry. -/
theorem WellFormed.push (hT : T.WellFormed) (he : (T.push e).EntryValid T.entries.size e)
    (hnew : ∀ (i : Nat) (f : Entry), T.entries[i]? = some f → f.key = e.key →
      f.shape.isEnumMember = true ∧ e.shape.isEnumMember = true) :
    (T.push e).WellFormed where
  entry n f hf := by
    rcases getElem?_push_cases hf with hf | ⟨rfl, rfl⟩
    · exact (hT.entry n f hf).of_le (has_iff_entry.mpr ⟨f, hf⟩) le_push
    · exact he
  unique i j f g hf hg hplain hkey := by
    rcases getElem?_push_cases hf with hold | ⟨rfl, rfl⟩
    · rcases getElem?_push_cases hg with hold' | ⟨rfl, rfl⟩
      · exact hT.unique i j f g hold hold' hplain hkey
      · have := (hnew i f hold hkey).1
        rw [hplain] at this
        exact absurd this (by decide)
    · rcases getElem?_push_cases hg with hold' | ⟨rfl, rfl⟩
      · have := (hnew j g hold' hkey.symm).2
        rw [hplain] at this
        exact absurd this (by decide)
      · rfl
  typeVars i info hi := by
    obtain ⟨hb, hd⟩ := hT.typeVars i info hi
    exact ⟨fun b h => has_of_le le_push (hb b h), fun d h => has_of_le le_push (hd d h)⟩
  aliases a ha := by
    obtain ⟨htarget, hparams, hout⟩ := hT.aliases a ha
    exact ⟨has_of_le le_push htarget, hparams, fun t h => has_of_le le_push (hout t h)⟩
  instances t r hr := has_of_le le_push (hT.instances t r hr)

end Push

/-- The shape can be given to an entry of the table. -/
structure Admits (T : Table) (s : Shape) : Prop where
  isEntry : s.IsEntry
  isPlain : s.isEnumMember = false
  parts : ∀ p ∈ s.parts, T.Has p
  vars : ∀ v, s = .parameter v → T.Knows v
  members : ∀ en, s = .enumeration en → ∀ m ∈ en.members, T.Has m
  union : ∀ ms, s = .union ms → T.Canonical ms

theorem Admits.of_le (h : T.Admits s) (hle : T ≤ T') : T'.Admits s where
  isEntry := h.isEntry
  isPlain := h.isPlain
  parts p hp := has_of_le hle (h.parts p hp)
  vars v hv := knows_of_le hle (h.vars v hv)
  members en hen m hm := has_of_le hle (h.members en hen m hm)
  union ms hms := by
    refine (h.union ms hms).of_le hle fun m hm => h.parts m ?_
    rw [hms]
    exact hm

/-- A type that is found by a key has an entry with that key, the only one. -/
theorem find?_eq_some (h : T.find? key = some t) :
    ∃ n e, t = .made n ∧ T.entries[n]? = some e ∧ e.key = key := by
  obtain ⟨n, hn, rfl⟩ := Option.map_eq_some_iff.mp h
  obtain ⟨hlt, hkey, -⟩ := Array.findIdx?_eq_some_iff_getElem.mp hn
  exact ⟨n, _, rfl, Array.getElem?_eq_getElem hlt, by simpa using hkey⟩

theorem find?_eq_none (h : T.find? key = none) (he : T.entries[n]? = some e) : e.key ≠ key := by
  have hnone := Array.findIdx?_eq_none_iff.mp (Option.map_eq_none_iff.mp h)
  have := hnone e (Array.mem_of_getElem? he)
  simpa using this

/-- A new entry is found by its key when no older one has it. -/
theorem find?_push (h : T.find? e.key = none) :
    (T.push e).find? e.key = some (.made T.entries.size) := by
  have hidx : (T.push e).entries.findIdx? (fun f => f.key == e.key) = some T.entries.size := by
    refine Array.findIdx?_eq_some_iff_getElem.mpr ⟨by simp [push], by simp [push], ?_⟩
    intro j hj
    have hold := Array.getElem?_eq_getElem hj
    have hne := find?_eq_none h hold
    have hget : (T.push e).entries[j]? = some T.entries[j] := getElem?_push_old hold
    rw [(Array.getElem?_eq_some_iff.mp hget).2]
    simpa using hne
  rw [find?, hidx]
  rfl

end Table

theorem Shape.IsEntry.tidy (h : s.IsEntry) : s.Tidy := by
  cases s with
  | primitive p => exact h.elim
  | literal l => trivial
  | _ => exact h

theorem Shape.isEnumMember_eq_of_alike {R : Ty → Ty → Prop} {t : Shape} (h : s.Alike R t) :
    s.isEnumMember = t.isEnumMember := by
  cases s <;> cases t <;> first | rfl | exact h.elim

namespace Interning

/-- Work that gives `a` and leaves `T1`, and gives `a` again in every later table, which it then
leaves as it is. -/
structure SettlesAt {α : Type} (T : Table) (work : Interning α) (a : α) (T1 : Table) : Prop where
  result : work T = (a, T1)
  wellFormed : T1.WellFormed
  adds : T.Adds T1
  instances : T1.instances = T.instances
  again : ∀ T2, T1 ≤ T2 → work T2 = (a, T2)

/-- Work that settles with a result of the given kind. -/
def Settles {α : Type} (T : Table) (work : Interning α) (V : Table → α → Prop) : Prop :=
  ∃ a T1, SettlesAt T work a T1 ∧ V T1 a

section Rules

theorem Settles.imp (h : Settles T work V)
    (himp : ∀ a T1, T1.WellFormed → T.Adds T1 → V T1 a → W T1 a) : Settles T work W := by
  obtain ⟨a, T1, hat, hv⟩ := h
  exact ⟨a, T1, hat, himp a T1 hat.wellFormed hat.adds hv⟩

/-- Work settles in one way only. -/
theorem Settles.and (h : Settles T work V)
    (h' : Settles T work W) : Settles T work (fun T1 a => V T1 a ∧ W T1 a) := by
  obtain ⟨a, T1, hat, hv⟩ := h
  obtain ⟨b, T2, hbt, hw⟩ := h'
  obtain ⟨rfl, rfl⟩ := Prod.mk.inj (hat.result.symm.trans hbt.result)
  exact ⟨a, T1, hat, hv, hw⟩

/-- What settles is the result of the work. -/
theorem Settles.result (h : Settles T work V) :
    Settles T work (fun T1 a => V T1 a ∧ a = (work T).1) := by
  obtain ⟨a, T1, hat, hv⟩ := h
  exact ⟨a, T1, hat, hv, (congrArg Prod.fst hat.result).symm⟩

/-- Work that settles makes entries and nothing else. -/
theorem Settles.instances (h : Settles T work V) :
    Settles T work (fun T1 a => V T1 a ∧ T1.instances = T.instances) := by
  obtain ⟨a, T1, hat, hv⟩ := h
  exact ⟨a, T1, hat, hv, hat.instances⟩

theorem bind_apply (x : Interning α) (f : α → Interning β) (T : Table) :
    (x >>= f) T = f (x T).1 (x T).2 := rfl

theorem settles_pure {a : α} (hT : T.WellFormed) (ha : V T a) : Settles T (pure a) V :=
  ⟨a, T, ⟨rfl, hT, .refl T, rfl, fun _ _ => rfl⟩, ha⟩

theorem Settles.bind {x : Interning α} {f : α → Interning β}
    {W : Table → β → Prop} (hx : Settles T x V)
    (hf : ∀ a T1, T1.WellFormed → T.Adds T1 → V T1 a → Settles T1 (f a) W) :
    Settles T (x >>= f) W := by
  obtain ⟨a, T1, hat, hv⟩ := hx
  obtain ⟨b, T2, hbt, hw⟩ := hf a T1 hat.wellFormed hat.adds hv
  refine ⟨b, T2, ⟨?_, hbt.wellFormed, hat.adds.trans hbt.adds,
    hbt.instances.trans hat.instances, ?_⟩, hw⟩
  · rw [bind_apply, hat.result]
    exact hbt.result
  · intro T3 h3
    rw [bind_apply, hat.again T3 (hbt.adds.le.trans h3)]
    exact hbt.again T3 h3

/-- Work that looks at the table, but only at what no later table changes. -/
theorem settles_get_bind {f : Table → Interning α}
    (hsame : ∀ T2, T ≤ T2 → f T2 = f T) (h : Settles T (f T) V) : Settles T (get >>= f) V := by
  obtain ⟨a, T1, hat, hv⟩ := h
  refine ⟨a, T1, ⟨hat.result, hat.wellFormed, hat.adds, hat.instances, ?_⟩, hv⟩
  intro T2 h2
  change f T2 T2 = _
  rw [hsame T2 (hat.adds.le.trans h2)]
  exact hat.again T2 h2

theorem settles_mapM {f : α → Interning β} {V : Table → β → Prop} (hT : T.WellFormed)
    (hup : ∀ b T1 T2, T1 ≤ T2 → V T1 b → V T2 b) (xs : List α)
    (hf : ∀ x ∈ xs, ∀ T1, T1.WellFormed → T.Adds T1 → Settles T1 (f x) V) :
    Settles T (xs.mapM f) (fun T1 bs => ∀ b ∈ bs, V T1 b) := by
  induction xs generalizing T with
  | nil => exact settles_pure hT (by simp)
  | cons x xs ih =>
    rw [List.mapM_cons]
    refine (hf x (by simp) T hT (.refl T)).bind fun b T1 hT1 h1 hb => ?_
    refine (ih hT1 fun y hy T2 hT2 h2 =>
      hf y (List.mem_cons_of_mem _ hy) T2 hT2 (h1.trans h2)).bind fun bs T2 hT2 h2 hbs => ?_
    refine settles_pure hT2 fun c hc => ?_
    rcases List.mem_cons.mp hc with rfl | hc
    · exact hup _ T1 T2 h2.le hb
    · exact hbs c hc

theorem settles_foldlM {f : β → α → Interning β} {V : Table → β → Prop} (xs : List α) {b : β}
    (hT : T.WellFormed) (hb : V T b)
    (hf : ∀ x ∈ xs, ∀ c T1, T1.WellFormed → T.Adds T1 → V T1 c → Settles T1 (f c x) V) :
    Settles T (xs.foldlM f b) V := by
  induction xs generalizing T b with
  | nil => exact settles_pure hT hb
  | cons x xs ih =>
    rw [List.foldlM_cons]
    refine (hf x (by simp) b T hT (.refl T) hb).bind fun c T1 hT1 h1 hc => ?_
    exact ih hT1 hc fun y hy d T2 hT2 h2 => hf y (List.mem_cons_of_mem _ hy) d T2 hT2 (h1.trans h2)

end Rules

theorem intern_apply (s : Shape) (T : Table) : Ty.intern s T = match T.find? s.key with
    | some t => (t, T)
    | none => (.made T.entries.size, T.push ⟨s, s.key, T.shapeText s⟩) := by
  change (match T.find? s.key with
    | some t => (return t : Interning Ty)
    | none => Ty.add s) T = _
  cases T.find? s.key with
  | none => rfl
  | some t => rfl

/-- Asking for a shape gives a type that says the same, the one that is there or a new one. -/
theorem settles_intern (hT : T.WellFormed) (hs : T.Admits s)
    (hstandard : T.Orderly → T.Standard s) :
    Settles T (Ty.intern s) (fun T1 t => T1.Has t ∧ (T1.shape t).Alike Eq s) := by
  cases hfind : T.find? s.key with
  | some t =>
    have hagain : ∀ T2, T ≤ T2 → Ty.intern s T2 = (t, T2) := by
      intro T2 h2
      rw [intern_apply, Table.find?_of_le h2 hfind]
    refine ⟨t, T, ⟨hagain T (le_refl T), hT, .refl T, rfl, hagain⟩, ?_⟩
    obtain ⟨n, e, rfl, he, hkey⟩ := Table.find?_eq_some hfind
    have hvalid := hT.entry n e he
    refine ⟨Table.has_iff_entry.mpr ⟨e, he⟩, ?_⟩
    rw [Table.shape_made he]
    exact (Shape.key_eq_iff hvalid.isEntry.tidy hs.isEntry.tidy).mp (hvalid.key ▸ hkey)
  | none =>
    let e : Entry := ⟨s, s.key, T.shapeText s⟩
    have hadd : Ty.intern s T = (.made T.entries.size, T.push e) := by
      rw [intern_apply, hfind]
    have hwf : (T.push e).WellFormed := by
      apply hT.push
      · have hs' := hs.of_le (Table.le_push (e := e))
        have hplain : ∀ enum name v, s = .enumMember enum name v →
            ((T.push e).literal? v).isSome := by
          rintro enum name v rfl
          exact absurd hs.isPlain (by simp [Shape.isEnumMember])
        exact ⟨hs.parts, hs'.members, hs'.vars, hs'.union, hplain, rfl, hs.isEntry⟩
      · intro i f hf hkey
        exact absurd hkey (Table.find?_eq_none hfind hf)
    refine ⟨.made T.entries.size, T.push e, ⟨hadd, hwf, Table.adds_push hT hs.parts hstandard,
      rfl, ?_⟩,
      Table.has_push_new, ?_⟩
    · intro T2 h2
      rw [intern_apply, Table.find?_of_le h2 (Table.find?_push hfind)]
    · rw [Table.shape_push_new]
      exact (Shape.key_eq_iff hs.isEntry.tidy hs.isEntry.tidy).mp rfl

end Interning

end ShapeCheck
