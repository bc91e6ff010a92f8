import ShapeCheck.Proofs.Untouched

/-!
# What an intersection keeps

An intersection is known by the set of types that were intersected. Primitives and literals leave
the most specific of them. Objects leave one object: it has the fields of all of them, and a field
of several has the intersection of their types. Types that are neither stay as they are. The order
shows in three ways where types meet: call signatures are tried one after the other, of two keys of
index signatures the later counts, and `any` takes what it meets before another type excludes it.

* `Table.IsMeet T S w` says that `w` is an intersection of the types `S`.
* `Table.IsMeet.congr` says that this stays when the table is used.
* `Table.IsMeet.unique` says that there is one then.
-/

namespace ShapeCheck

variable {t : Ty} {P : Set Ty → Prop} {p : Primitive}

/-! ## Merged objects -/

/-- The field stands for all fields of its name: it may be absent if all of them may, and it is
readonly if one of them is. -/
structure Sums (F : Set Field) (g : Field) : Prop where
  named : ∃ f ∈ F, f.name = g.name
  optional : g.optional = true ↔ ∀ f ∈ F, f.name = g.name → f.optional = true
  readonly : g.readonly = true ↔ ∃ f ∈ F, f.name = g.name ∧ f.readonly = true

/-- The second fields are the first ones merged, whatever their types. -/
structure SumsUp (F G : Set Field) : Prop where
  names : ∀ f ∈ F, ∃ g ∈ G, g.name = f.name
  sums : ∀ g ∈ G, Sums F g

/-- The types of the fields of one name. -/
def typesNamed (F : Set Field) (name : String) : Set Ty :=
    { t | ∃ f ∈ F, f.name = name ∧ f.type = t }

/-- The fields of some objects. -/
def fieldsIn (O : Set Members) : Set Field := { f | ∃ o ∈ O, f ∈ o.fields }

/-- The index signatures of some objects. -/
def indicesIn (O : Set Members) : Set Index := { i | ∃ o ∈ O, o.index = some i }

/-- The call signatures of some objects. -/
def callsIn (O : Set Members) : Set Ty := { c | ∃ o ∈ O, c ∈ o.calls }

/-- Where the types inside of objects stand: under a field name, or under the index signature. -/
inductive Spot where
  | field (name : String)
  | index

/-- The types that some objects have at a place. -/
def typesAt (O : Set Members) : Spot → Set Ty
  | .field name => typesNamed (fieldsIn O) name
  | .index => Index.value '' indicesIn O

/-- The object is some objects merged, whatever the types inside. -/
structure Merges (O : Set Members) (n : Members) : Prop where
  fields : SumsUp (fieldsIn O) { f | f ∈ n.fields }
  keys : ∀ key, (∃ i ∈ n.index, i.key = key) ↔ ∃ i ∈ indicesIn O, i.key = key
  calls : ∀ c, c ∈ n.calls ↔ c ∈ callsIn O

section Merging

variable {F G H : Set Field} {f g k : Field} {O P : Set Members} {o p n : Members} {name : String}
  {place : Spot}

theorem typesNamed_union (F G : Set Field) (name : String) :
    typesNamed (F ∪ G) name = typesNamed F name ∪ typesNamed G name := by
  ext t
  simp [typesNamed, or_and_right, exists_or]

theorem typesNamed_mono (h : F ⊆ G) : typesNamed F name ⊆ typesNamed G name := by
  rintro t ⟨f, hf, hname, htype⟩
  exact ⟨f, h hf, hname, htype⟩

theorem typesNamed_eq_empty (h : ∀ f ∈ F, f.name ≠ name) : typesNamed F name = ∅ := by
  rw [Set.eq_empty_iff_forall_notMem]
  rintro t ⟨f, hf, hname, -⟩
  exact h f hf hname

/-- One field of a name has one type. -/
theorem typesNamed_eq_singleton (hf : f ∈ F) (h : ∀ g ∈ F, g.name = f.name → g = f) :
    typesNamed F f.name = {f.type} := by
  ext t
  constructor
  · rintro ⟨g, hg, hname, rfl⟩
    rw [h g hg hname]
    rfl
  · rintro rfl
    exact ⟨f, hf, rfl, rfl⟩

theorem Sums.self (hg : g ∈ F) (h : ∀ f ∈ F, f.name = g.name → f = g) : Sums F g where
  named := ⟨g, hg, rfl⟩
  optional := ⟨fun ho f hf hname => by rwa [h f hf hname], fun hall => hall g hg rfl⟩
  readonly := by
    refine ⟨fun hr => ⟨g, hg, rfl, hr⟩, ?_⟩
    rintro ⟨f, hf, hname, hr⟩
    rwa [h f hf hname] at hr

/-- A field of another name does not count. -/
theorem Sums.insert_of_ne (h : Sums F g) (hne : f.name ≠ g.name) : Sums (F ∪ {f}) g where
  named := h.named.imp fun _ hf => ⟨.inl hf.1, hf.2⟩
  optional := by
    rw [h.optional]
    simp [or_imp, forall_and, hne]
  readonly := by
    rw [h.readonly]
    simp [or_and_right, exists_or, hne]

/-- A field of the same name is merged. -/
theorem Sums.insert (h : Sums F g) (hf : f.name = g.name) (hk : k.name = g.name)
    (hoptional : k.optional = (g.optional && f.optional))
    (hreadonly : k.readonly = (g.readonly || f.readonly)) : Sums (F ∪ {f}) k where
  named := ⟨f, .inr rfl, hf.trans hk.symm⟩
  optional := by
    rw [hoptional, Bool.and_eq_true, h.optional, hk]
    simp [or_imp, forall_and, hf, and_comm]
  readonly := by
    rw [hreadonly, Bool.or_eq_true, h.readonly, hk]
    simp [or_and_right, exists_or, hf, or_comm]

/-- Merging in steps is merging at once. -/
theorem SumsUp.trans (h : SumsUp F G) (hk : Sums (G ∪ H) k) : Sums (F ∪ H) k where
  named := by
    obtain ⟨f, hf | hf, hname⟩ := hk.named
    · obtain ⟨e, he, hef⟩ := (h.sums f hf).named
      exact ⟨e, .inl he, hef.trans hname⟩
    · exact ⟨f, .inr hf, hname⟩
  optional := by
    rw [hk.optional]
    constructor
    · rintro hall f (hf | hf) hname
      · obtain ⟨g, hg, hgf⟩ := h.names f hf
        exact ((h.sums g hg).optional.mp (hall g (.inl hg) (hgf.trans hname))) f hf hgf.symm
      · exact hall f (.inr hf) hname
    · rintro hall g (hg | hg) hname
      · exact (h.sums g hg).optional.mpr fun f hf hfg => hall f (.inl hf) (hfg.trans hname)
      · exact hall g (.inr hg) hname
  readonly := by
    rw [hk.readonly]
    constructor
    · rintro ⟨g, hg | hg, hname, hr⟩
      · obtain ⟨f, hf, hfg, hfr⟩ := (h.sums g hg).readonly.mp hr
        exact ⟨f, .inl hf, hfg.trans hname, hfr⟩
      · exact ⟨g, .inr hg, hname, hr⟩
    · rintro ⟨f, hf | hf, hname, hr⟩
      · obtain ⟨g, hg, hgf⟩ := h.names f hf
        exact ⟨g, .inl hg, hgf.trans hname, (h.sums g hg).readonly.mpr ⟨f, hf, hgf.symm, hr⟩⟩
      · exact ⟨f, .inr hf, hname, hr⟩

/-- Fields are merged in one way, if their types are. -/
theorem SumsUp.subset (h : SumsUp F G) (h' : SumsUp F H)
    (htypes : ∀ g ∈ G, ∀ k ∈ H, g.name = k.name → g.type = k.type) : G ⊆ H := by
  intro g hg
  obtain ⟨f, hf, hfg⟩ := (h.sums g hg).named
  obtain ⟨k, hk, hkf⟩ := h'.names f hf
  have hname : k.name = g.name := hkf.trans hfg
  have hoptional : g.optional = k.optional := by
    rw [Bool.eq_iff_iff, (h.sums g hg).optional, (h'.sums k hk).optional, hname]
  have hreadonly : g.readonly = k.readonly := by
    rw [Bool.eq_iff_iff, (h.sums g hg).readonly, (h'.sums k hk).readonly, hname]
  have htype := htypes g hg k hk hname.symm
  obtain ⟨name, type, optional, readonly⟩ := g
  obtain rfl : name = k.name := hname.symm
  obtain rfl : type = k.type := htype
  obtain rfl : optional = k.optional := hoptional
  obtain rfl : readonly = k.readonly := hreadonly
  exact hk

theorem fieldsIn_union (O P : Set Members) : fieldsIn (O ∪ P) = fieldsIn O ∪ fieldsIn P := by
  ext f
  simp [fieldsIn, or_and_right, exists_or]

theorem indicesIn_union (O P : Set Members) : indicesIn (O ∪ P) = indicesIn O ∪ indicesIn P := by
  ext i
  simp [indicesIn, or_and_right, exists_or]

theorem callsIn_union (O P : Set Members) : callsIn (O ∪ P) = callsIn O ∪ callsIn P := by
  ext c
  simp [callsIn, or_and_right, exists_or]

theorem fieldsIn_mono (h : O ⊆ P) : fieldsIn O ⊆ fieldsIn P := by
  rintro f ⟨o, ho, hf⟩
  exact ⟨o, h ho, hf⟩

theorem indicesIn_mono (h : O ⊆ P) : indicesIn O ⊆ indicesIn P := by
  rintro i ⟨o, ho, hi⟩
  exact ⟨o, h ho, hi⟩

@[simp] theorem fieldsIn_singleton : fieldsIn {o} = { f | f ∈ o.fields } := by simp [fieldsIn]

@[simp] theorem indicesIn_singleton : indicesIn {o} = { i | i ∈ o.index } := by
  simp [indicesIn, Option.mem_def]

@[simp] theorem callsIn_singleton : callsIn {o} = { c | c ∈ o.calls } := by simp [callsIn]

theorem typesAt_union (O P : Set Members) (place : Spot) :
    typesAt (O ∪ P) place = typesAt O place ∪ typesAt P place := by
  cases place with
  | field name => rw [typesAt, fieldsIn_union, typesNamed_union]; rfl
  | index => rw [typesAt, indicesIn_union, Set.image_union]; rfl

theorem typesAt_mono (h : O ⊆ P) : typesAt O place ⊆ typesAt P place := by
  cases place with
  | field name => exact typesNamed_mono (fieldsIn_mono h)
  | index => exact Set.image_mono (indicesIn_mono h)

theorem typesAt_empty : typesAt ∅ place = ∅ := by
  cases place <;> simp [typesAt, typesNamed, fieldsIn, indicesIn]

/-- One object has one type at a place at most. -/
theorem typesAt_subsingleton (hnodup : (o.fields.map Field.name).Nodup) :
    (typesAt {o} place).Subsingleton := by
  cases place with
  | field name =>
    rintro _ ⟨f, hf, rfl, rfl⟩ _ ⟨g, hg, hname, rfl⟩
    rw [fieldsIn_singleton] at hf hg
    rw [List.inj_on_of_nodup_map hnodup hf hg hname.symm]
  | index =>
    rw [typesAt, indicesIn_singleton]
    rintro _ ⟨i, hi, rfl⟩ _ ⟨j, hj, rfl⟩
    rw [Option.some.inj (hi.symm.trans hj)]

theorem exists_of_typesAt (h : t ∈ typesAt O place) : ∃ o ∈ O, t ∈ typesAt {o} place := by
  cases place with
  | field name =>
    obtain ⟨f, ⟨o, ho, hf⟩, hname, htype⟩ := h
    exact ⟨o, ho, f, by simpa using hf, hname, htype⟩
  | index =>
    obtain ⟨i, ⟨o, ho, hi⟩, hvalue⟩ := h
    exact ⟨o, ho, i, by simpa using hi, hvalue⟩

/-- The types at a place are among the parts. -/
theorem mem_parts_of_typesAt (h : t ∈ typesAt {o} place) : t ∈ (Shape.object o).parts := by
  have hparts := Shape.forall_parts_object.mp fun p (hp : p ∈ (Shape.object o).parts) => hp
  cases place with
  | field name =>
    obtain ⟨f, hf, -, rfl⟩ := h
    exact hparts.1 f (by simpa using hf)
  | index =>
    obtain ⟨i, hi, rfl⟩ := h
    exact hparts.2.1 i (by simpa using hi)

theorem Merges.self (hnodup : (o.fields.map Field.name).Nodup) : Merges {o} o := by
  refine ⟨⟨?_, ?_⟩, by simp, by simp⟩ <;> rw [fieldsIn_singleton]
  · exact fun f hf => ⟨f, hf, rfl⟩
  · exact fun g hg => .self hg fun f hf hname => List.inj_on_of_nodup_map hnodup hf hg hname

/-- An object takes the place of those it was merged from. -/
theorem Merges.trans (h : Merges O o) (hn : Merges ({o} ∪ P) n) : Merges (O ∪ P) n where
  fields := by
    have hfields := hn.fields
    rw [fieldsIn_union, fieldsIn_singleton] at hfields
    rw [fieldsIn_union]
    refine ⟨?_, fun k hk => h.fields.trans (hfields.sums k hk)⟩
    rintro f (hf | hf)
    · obtain ⟨g, hg, hgf⟩ := h.fields.names f hf
      obtain ⟨k, hk, hkg⟩ := hfields.names g (.inl hg)
      exact ⟨k, hk, hkg.trans hgf⟩
    · exact hfields.names f (.inr hf)
  keys key := by
    rw [hn.keys, indicesIn_union, indicesIn_union, indicesIn_singleton]
    simp only [Set.mem_union, Set.mem_ofPred_eq, or_and_right, exists_or, h.keys]
  calls c := by
    rw [hn.calls, callsIn_union, callsIn_union, callsIn_singleton]
    simp only [Set.mem_union, Set.mem_ofPred_eq, h.calls]

theorem Merges.calls_eq_nil (h : Merges O n) (hO : ∀ o ∈ O, o.calls = []) : n.calls = [] := by
  refine List.eq_nil_iff_forall_not_mem.mpr fun c hc => ?_
  obtain ⟨o, ho, hc⟩ := (h.calls c).mp hc
  exact List.not_mem_nil (hO o ho ▸ hc)

/-- What is merged has a type wherever one of the objects has. -/
theorem Merges.nonempty (h : Merges O n) (hO : (typesAt O place).Nonempty) :
    (typesAt {n} place).Nonempty := by
  cases place with
  | field name =>
    obtain ⟨_, f, hf, rfl, -⟩ := hO
    obtain ⟨g, hg, hname⟩ := h.fields.names f hf
    exact ⟨g.type, g, by simpa using hg, hname, rfl⟩
  | index =>
    obtain ⟨_, i, hi, -⟩ := hO
    obtain ⟨j, hj, -⟩ := (h.keys i.key).mpr ⟨i, hi, rfl⟩
    exact ⟨j.value, j, by simpa using hj, rfl⟩

/-- Objects without call signatures are merged in one way, if the types inside are. -/
theorem Merges.eq (ho : Merges O o) (hp : Merges O p) (hcalls : ∀ q ∈ O, q.calls = [])
    (htypes : ∀ place, ∀ t ∈ typesAt {o} place, ∀ u ∈ typesAt {p} place, t = u) :
    (∀ f, f ∈ o.fields ↔ f ∈ p.fields) ∧ o.index = p.index ∧ o.calls = p.calls := by
  have hfields : ∀ f ∈ o.fields, ∀ g ∈ p.fields, f.name = g.name → f.type = g.type :=
    fun f hf g hg hname => htypes (.field f.name) _ ⟨f, by simpa using hf, rfl, rfl⟩ _
      ⟨g, by simpa using hg, hname.symm, rfl⟩
  have hvalues : ∀ i ∈ o.index, ∀ j ∈ p.index, i.value = j.value :=
    fun i hi j hj => htypes .index _ ⟨i, by simpa using hi, rfl⟩ _ ⟨j, by simpa using hj, rfl⟩
  refine ⟨fun f => ⟨fun hf => ho.fields.subset hp.fields hfields hf, fun hf => hp.fields.subset
    ho.fields (fun g hg k hk hname => (hfields k hk g hg hname.symm).symm) hf⟩, ?_,
    (ho.calls_eq_nil hcalls).trans (hp.calls_eq_nil hcalls).symm⟩
  have hkey : ∀ key, (∃ i ∈ o.index, i.key = key) ↔ ∃ j ∈ p.index, j.key = key :=
    fun key => (ho.keys key).trans (hp.keys key).symm
  cases hi : o.index with
  | none =>
    cases hj : p.index with
    | none => rfl
    | some j =>
      obtain ⟨i, hi', -⟩ := (hkey j.key).mpr ⟨j, hj, rfl⟩
      rw [hi] at hi'
      cases hi'
  | some i =>
    obtain ⟨j, hj, hname⟩ := (hkey i.key).mp ⟨i, hi, rfl⟩
    have hsame := hvalues i hi j hj
    rw [Option.mem_def.mp hj]
    obtain ⟨key, value⟩ := i
    obtain rfl : j.key = key := hname
    obtain rfl : value = j.value := hsame
    rfl

end Merging

namespace Table

/-- The members of some types as parts of an intersection. -/
def constituents (T : Table) (S : Set Ty) : Set Ty :=
  { m | ∃ t ∈ S, m ∈ Ty.intersectionMembers T t }

/-- What the objects among the constituents say. -/
def objectsOf (T : Table) (S : Set Ty) : Set Members :=
  { o | ∃ m ∈ T.constituents S, Ty.members? T m = some o }

/-- The constituents that are neither primitives, literals nor objects. -/
def othersOf (T : Table) (S : Set Ty) : Set Ty :=
  { m | m ∈ T.constituents S ∧ Ty.isAtom T m = false ∧ Ty.members? T m = none }

/-- The types that meet at a place of the objects. -/
def inside (T : Table) (S : Set Ty) (place : Spot) : Set Ty := typesAt (T.objectsOf S) place

/-- A primitive or literal among the constituents; `unknown` adds nothing. -/
def Atom (T : Table) (S : Set Ty) (a : Ty) : Prop :=
  a ∈ T.constituents S ∧ Ty.isAtom T a = true ∧ a ≠ .unknown

/-- The first of two primitives or literals has no value that the second lacks. -/
def Inside (T : Table) (a b : Ty) : Prop := a = b ∨ Ty.isLiteralOf T a b = true

/-- The most specific of the primitives and literals. -/
def Finest (T : Table) (S : Set Ty) (a : Ty) : Prop := T.Atom S a ∧ ∀ b, T.Atom S b → T.Inside a b

/-- Two primitives or literals share no value. -/
def Excludes (T : Table) (S : Set Ty) : Prop :=
  ∃ a b, T.Atom S a ∧ T.Atom S b ∧ a ≠ .any ∧ b ≠ .any ∧ ¬T.Inside a b ∧ ¬T.Inside b a

open Classical in
/-- The primitive that an intersection of some types is because of one or two of them. -/
noncomputable def verdict (T : Table) (S : Set Ty) : Option Primitive :=
  if .invalid ∈ T.constituents S then some .invalid
  else if .never ∈ T.constituents S then some .never
  else if .any ∈ T.constituents S then some .any
  else if T.Excludes S then some .never
  else none

/-- What the second types keep of the first ones, apart from the types inside their object. -/
structure Condenses (T : Table) (S R : Set Ty) : Prop where
  atoms : ∀ a, T.Atom R a ↔ T.Finest S a
  others : T.othersOf R = T.othersOf S
  objects : (T.objectsOf R).Nonempty ↔ (T.objectsOf S).Nonempty
  merges : ∀ n ∈ T.objectsOf R, Merges (T.objectsOf S) n

/-- The type is an intersection of the types. -/
inductive IsMeet (T : Table) : Set Ty → Ty → Prop
  | verdict {S : Set Ty} {p : Primitive} (h : T.verdict S = some p) : IsMeet T S (.prim p)
  | combined {S : Set Ty} {w : Ty} (hw : T.Has w) (h : T.verdict S = none)
    (hkeeps : T.Condenses S {w})
    (hinside : ∀ place, ∀ t ∈ T.inside {w} place, IsMeet T (T.inside S place) t) : IsMeet T S w

/-- From some types to those that meet one level further down. -/
def Steps (T : Table) (S R : Set Ty) : Prop := ∃ place, R = T.inside S place

/-- The condition holds wherever types meet. -/
def Throughout (T : Table) (P : Set Ty → Prop) (S : Set Ty) : Prop :=
  ∀ R, Relation.ReflTransGen T.Steps S R → P R

/-- Nothing depends on the order where the types meet: there are no call signatures, index
signatures have one key, and `any` does not meet two types that exclude each other. -/
structure Blends (T : Table) (S : Set Ty) : Prop where
  calls : ∀ o ∈ T.objectsOf S, o.calls = []
  keys : ∀ i ∈ indicesIn (T.objectsOf S), ∀ j ∈ indicesIn (T.objectsOf S), i.key = j.key
  unmixed : .any ∈ T.constituents S → ¬T.Excludes S

section Sets

variable {T : Table} {A B S R : Set Ty} {a b c : Ty}

theorem constituents_union : T.constituents (A ∪ B) = T.constituents A ∪ T.constituents B := by
  ext m
  simp [constituents, or_and_right, exists_or]

theorem objectsOf_union : T.objectsOf (A ∪ B) = T.objectsOf A ∪ T.objectsOf B := by
  ext o
  simp [objectsOf, constituents_union, or_and_right, exists_or]

theorem othersOf_union : T.othersOf (A ∪ B) = T.othersOf A ∪ T.othersOf B := by
  ext m
  simp only [othersOf, constituents_union, Set.mem_ofPred_eq, Set.mem_union, or_and_right]

theorem inside_union (place : Spot) :
    T.inside (A ∪ B) place = T.inside A place ∪ T.inside B place := by
  rw [inside, objectsOf_union, typesAt_union]
  rfl

theorem atom_union : T.Atom (A ∪ B) a ↔ T.Atom A a ∨ T.Atom B a := by
  simp [Atom, constituents_union, or_and_right]

theorem constituents_mono (h : A ⊆ B) : T.constituents A ⊆ T.constituents B := by
  rintro m ⟨t, ht, hm⟩
  exact ⟨t, h ht, hm⟩

theorem objectsOf_mono (h : A ⊆ B) : T.objectsOf A ⊆ T.objectsOf B := by
  rintro o ⟨m, hm, hmo⟩
  exact ⟨m, constituents_mono h hm, hmo⟩

theorem Excludes.of_subset (h : T.Excludes A) (hAB : T.constituents A ⊆ T.constituents B) :
    T.Excludes B := by
  obtain ⟨a, b, ha, hb, hne⟩ := h
  exact ⟨a, b, ⟨hAB ha.1, ha.2⟩, ⟨hAB hb.1, hb.2⟩, hne⟩

theorem Blends.mono (h : T.Blends B) (hAB : A ⊆ B) : T.Blends A where
  calls o ho := h.calls o (objectsOf_mono hAB ho)
  keys i hi j hj := h.keys i (indicesIn_mono (objectsOf_mono hAB) hi) j
    (indicesIn_mono (objectsOf_mono hAB) hj)
  unmixed hany hex :=
    h.unmixed (constituents_mono hAB hany) (hex.of_subset (constituents_mono hAB))

theorem inside_mono (h : A ⊆ B) (place : Spot) : T.inside A place ⊆ T.inside B place :=
  typesAt_mono (objectsOf_mono h)

theorem Throughout.here (h : T.Throughout P S) : P S := h S .refl

theorem Throughout.inside (h : T.Throughout P S) (place : Spot) :
    T.Throughout P (T.inside S place) := fun R hR => h R (hR.head ⟨place, rfl⟩)

theorem verdict_eq_none : T.verdict S = none ↔ .invalid ∉ T.constituents S ∧
    .never ∉ T.constituents S ∧ .any ∉ T.constituents S ∧ ¬T.Excludes S := by
  unfold verdict
  split_ifs <;> simp_all

theorem verdict_of_subset (h : T.verdict B = none) (hAB : A ⊆ B) : T.verdict A = none := by
  have hsub := constituents_mono (T := T) hAB
  obtain ⟨hinvalid, hnever, hany, hex⟩ := verdict_eq_none.mp h
  exact verdict_eq_none.mpr ⟨fun h => hinvalid (hsub h), fun h => hnever (hsub h),
    fun h => hany (hsub h),
    fun h => hex (h.of_subset hsub)⟩

theorem mem_of_verdict (h : T.verdict S = some p) :
    .prim p ∈ T.constituents S ∨ p = .never ∧ T.Excludes S := by
  unfold verdict at h
  split_ifs at h <;> cases h <;> simp_all [Ty.invalid, Ty.never, Ty.any]

/-- The verdict depends on what takes over and on what is excluded. -/
theorem verdict_congr {T' : Table} (himproper : ∀ p :
    Primitive, p = .invalid ∨ p = .never ∨ p = .any →
    (.prim p ∈ T'.constituents A ↔ .prim p ∈ T.constituents B))
    (hex : T'.Excludes A ↔ T.Excludes B) : T'.verdict A = T.verdict B := by
  have hinvalid : Ty.invalid ∈ T'.constituents A ↔ .invalid ∈ T.constituents B :=
    himproper _ (by simp)
  have hnever : Ty.never ∈ T'.constituents A ↔ .never ∈ T.constituents B := himproper _ (by simp)
  have hany : Ty.any ∈ T'.constituents A ↔ .any ∈ T.constituents B := himproper _ (by simp)
  unfold verdict
  rw [propext hinvalid, propext hnever, propext hany, propext hex]

/-! ### The most specific of some primitives and literals -/

theorem isLiteralOf_prim : Ty.isLiteralOf T (.prim p) a = false := rfl

theorem Inside.of_literal (h : Ty.isLiteralOf T a b = true) : ∃ p, b = .prim p := by
  unfold Ty.isLiteralOf at h
  split at h
  · exact ⟨_, by simpa using h⟩
  · exact absurd h (by simp)

theorem Inside.trans (hab : T.Inside a b) (hbc : T.Inside b c) : T.Inside a c := by
  rcases hab with rfl | hab
  · exact hbc
  · obtain ⟨p, rfl⟩ := Inside.of_literal hab
    rcases hbc with rfl | hbc
    · exact .inr hab
    · exact absurd hbc (by simp [isLiteralOf_prim])

theorem Inside.antisymm (hab : T.Inside a b) (hba : T.Inside b a) : a = b := by
  rcases hab with hab | hab
  · exact hab
  · obtain ⟨p, rfl⟩ := Inside.of_literal hab
    rcases hba with hba | hba
    · exact hba.symm
    · exact absurd hba (by simp [isLiteralOf_prim])

/-- What lies above one type is comparable. -/
theorem Inside.comparable (hab : T.Inside a b) (hac : T.Inside a c) :
    T.Inside b c ∨ T.Inside c b := by
  rcases hab with rfl | hab
  · exact .inl hac
  · rcases hac with rfl | hac
    · exact .inr (.inr hab)
    · unfold Ty.isLiteralOf at hab hac
      split at hab
      next l hl =>
        rw [hl] at hac
        simp only [decide_eq_true_eq] at hab hac
        exact .inl (.inl (hab.trans hac.symm))
      · exact absurd hab (by simp)

theorem Finest.unique (ha : T.Finest S a) (hb : T.Finest S b) : a = b :=
  (ha.2 b hb.1).antisymm (hb.2 a ha.1)

/-- One of some primitives and literals of which no two exclude each other is the most specific. -/
theorem exists_finest (h : T.verdict S = none) (ha : T.Atom S a) : ∃ b, T.Finest S b := by
  obtain ⟨-, -, hany, hno⟩ := verdict_eq_none.mp h
  have hcomparable : ∀ b c, T.Atom S b → T.Atom S c → T.Inside b c ∨ T.Inside c b := by
    intro b c hb hc
    by_contra hneither
    refine hno ⟨b, c, hb, hc, ?_, ?_, not_or.mp hneither⟩
    · rintro rfl
      exact hany hb.1
    · rintro rfl
      exact hany hc.1
  by_cases hfiner : ∃ b, T.Atom S b ∧ Ty.isLiteralOf T b a = true
  · obtain ⟨b, hb, hba⟩ := hfiner
    refine ⟨b, hb, fun c hc => (hcomparable b c hb hc).elim id fun hcb => ?_⟩
    rcases hcb with rfl | hcb
    · exact .inl rfl
    · obtain ⟨p, rfl⟩ := Inside.of_literal hcb
      exact absurd hba (by simp [isLiteralOf_prim])
  · refine ⟨a, ha, fun c hc => (hcomparable a c ha hc).elim id fun hca => ?_⟩
    rcases hca with rfl | hca
    · exact .inl rfl
    · exact absurd ⟨c, hc, hca⟩ hfiner

end Sets

/-! ## In an orderly table -/

section Orders

variable {T T' : Table} {S : Set Ty} {u m k w : Ty}

/-- Some types stand in the table. -/
def HasAll (T : Table) (S : Set Ty) : Prop := ∀ t ∈ S, T.Has t

theorem mem_constituents_singleton : m ∈ T.constituents {t} ↔ m ∈ Ty.intersectionMembers T t := by
  simp [constituents]

theorem intersectionMembers_of_not (h : ∀ ms, T.shape t ≠ .intersection ms) :
    Ty.intersectionMembers T t = [t] := by
  unfold Ty.intersectionMembers
  split
  next ms hs =>
    exact absurd hs (h ms)
  · rfl

theorem WellFormed.has_constituent (hT : T.WellFormed) (hS : T.HasAll S)
    (hm : m ∈ T.constituents S) : T.Has m := by
  obtain ⟨t, ht, hm⟩ := hm
  refine @WellFormed.has_intersected T [t] hT (by simpa using hS t ht) m ?_
  rw [Ty.allIntersected, List.mem_eraseDups]
  simpa using hm

/-- The constituents of a constituent are itself alone. -/
theorem Orderly.constituents_constituent (hO : T.Orderly) (hm : m ∈ T.constituents S) :
    T.constituents {m} = {m} := by
  obtain ⟨t, -, hm⟩ := hm
  have hflat : Ty.intersectionMembers T m = [m] := by
    refine @Orderly.flat_intersected T [t] hO m ?_
    rw [Ty.allIntersected, List.mem_eraseDups]
    simpa using hm
  ext k
  rw [mem_constituents_singleton, hflat]
  simp

theorem eq_of_mem_filter {α : Type} {p : α → Bool} {xs : List α} (h : (xs.filter p).length ≤ 1)
    {x y : α} (hx : x ∈ xs) (hy : y ∈ xs) (hpx : p x = true) (hpy : p y = true) : x = y := by
  have hin : x ∈ xs.filter p ∧ y ∈ xs.filter p :=
    ⟨List.mem_filter.mpr ⟨hx, hpx⟩, List.mem_filter.mpr ⟨hy, hpy⟩⟩
  rcases hfilter : xs.filter p with _ | ⟨z, _ | ⟨z', zs⟩⟩
  · simp [hfilter] at hin
  · rw [hfilter] at hin
    rw [List.mem_singleton.mp hin.1, List.mem_singleton.mp hin.2]
  · simp [hfilter] at h

/-- Of what an intersection has at most one, every type has at most one among its constituents. -/
theorem Orderly.constituent_unique (hO : T.Orderly) (hm : m ∈ T.constituents {t})
    (hk : k ∈ T.constituents {t}) {p : Ty → Bool}
    (hp : ∀ {ms}, T.Reduced ms → (ms.filter p).length ≤ 1) (hpm : p m = true) (hpk : p k = true) :
    m = k := by
  rw [mem_constituents_singleton] at hm hk
  have hstandard := hO.standard t
  cases hs : T.shape t with
  | intersection ms =>
    rw [hs] at hstandard
    simp only [Ty.intersectionMembers, hs] at hm hk
    exact eq_of_mem_filter (hp hstandard) hm hk hpm hpk
  | _ =>
    simp only [Ty.intersectionMembers, hs, List.mem_singleton] at hm hk
    rw [hm, hk]

theorem Orderly.object_unique (hO : T.Orderly) (hm : m ∈ T.constituents {t})
    (hk : k ∈ T.constituents {t}) (hmo : (Ty.members? T m).isSome = true)
    (hko : (Ty.members? T k).isSome = true) : m = k :=
  hO.constituent_unique hm hk (p := fun m => (Ty.members? T m).isSome) Reduced.objects hmo hko

theorem Orderly.atom_unique (hO : T.Orderly) (hm : m ∈ T.constituents {t})
    (hk : k ∈ T.constituents {t}) (hma : Ty.isAtom T m = true) (hka : Ty.isAtom T k = true) :
    m = k :=
  hO.constituent_unique hm hk Reduced.atoms hma hka

/-- A constituent that says nothing or everything is the only one. -/
theorem Orderly.eq_of_improper (hO : T.Orderly) (hm : m ∈ T.constituents {t})
    (himproper : m = .never ∨ m = .any ∨ m = .unknown ∨ m = .invalid) : t = m := by
  rw [mem_constituents_singleton] at hm
  have hstandard := hO.standard t
  cases hs : T.shape t with
  | intersection ms =>
    rw [hs] at hstandard
    simp only [Ty.intersectionMembers, hs] at hm
    obtain ⟨hnever, hany, hunknown, hinvalid⟩ := hstandard.proper m hm
    simp [hnever, hany, hunknown, hinvalid] at himproper
  | _ =>
    simp only [Ty.intersectionMembers, hs, List.mem_singleton] at hm
    exact hm.symm

/-- A type is known by its constituents. -/
theorem Orderly.eq_of_constituents (hO : T.Orderly) (hT : T.WellFormed) (ht : T.Has t)
    (hu : T.Has u) (h : T.constituents {t} = T.constituents {u}) : t = u := by
  have hmem : ∀ m, m ∈ Ty.intersectionMembers T t ↔ m ∈ Ty.intersectionMembers T u := by
    intro m
    rw [← mem_constituents_singleton, h, mem_constituents_singleton]
  -- an intersection has two different constituents
  have hmany : ∀ {v x : Ty} {ms : List Ty}, T.shape v = .intersection ms →
      ¬∀ m, m ∈ ms ↔ m ∈ [x] := by
    intro v x ms hs hsame
    have hreduced := hO.standard v
    have htidy := hT.tidy v
    rw [hs] at hreduced htidy
    have hperm := (List.perm_ext_iff_of_nodup htidy (List.nodup_singleton x)).mpr hsame
    have := hreduced.several
    rw [hperm.length_eq] at this
    simp at this
  by_cases hts : ∃ ms, T.shape t = .intersection ms
  · obtain ⟨ms, hts⟩ := hts
    by_cases hus : ∃ ks, T.shape u = .intersection ks
    · obtain ⟨ks, hus⟩ := hus
      simp only [Ty.intersectionMembers, hts, hus] at hmem
      refine hT.eq_of_alike ht hu (by rw [hts]; rfl) ?_
      rw [hts, hus]
      exact sameMembers_eq_iff.mpr hmem
    · rw [intersectionMembers_of_not (t := u) (not_exists.mp hus)] at hmem
      simp only [Ty.intersectionMembers, hts] at hmem
      exact absurd hmem (hmany hts)
  · rw [intersectionMembers_of_not (t := t) (not_exists.mp hts)] at hmem
    by_cases hus : ∃ ks, T.shape u = .intersection ks
    · obtain ⟨ks, hus⟩ := hus
      simp only [Ty.intersectionMembers, hus] at hmem
      exact absurd (fun m => (hmem m).symm) (hmany hus)
    · rw [intersectionMembers_of_not (t := u) (not_exists.mp hus)] at hmem
      simpa using (hmem t).mp (by simp)

end Orders

/-! ## While the table is used -/

section Agreement

variable {T T' : Table} {S : Set Ty} {a b w : Ty}

theorem Agrees.saysAlike (h : T.Agrees T') (ht : T.Has t) : T.SaysAlike T' t := by
  rcases h.shape ht with hsame | ⟨⟨old, hold⟩, new, hnew⟩
  · exact .inl hsame
  · exact .inr ⟨old, new, hold, hnew⟩

theorem HasAll.agrees (hS : T.HasAll S) (h : T.Agrees T') : T'.HasAll S :=
  fun t ht => h.has (hS t ht)

theorem WellFormed.hasAll_inside (hT : T.WellFormed) (hS : T.HasAll S) (place : Spot) :
    T.HasAll (T.inside S place) := by
  have hparts : ∀ o ∈ T.objectsOf S, T.HasMembers o := by
    rintro o ⟨m, hm, hmo⟩
    exact hT.hasMembers (hT.has_constituent hS hm) hmo
  cases place with
  | field name =>
    rintro _ ⟨f, ⟨o, ho, hf⟩, -, rfl⟩
    exact (hasMembers_iff.mp (hparts o ho)).1 f hf
  | index =>
    rintro _ ⟨i, ⟨o, ho, hi⟩, rfl⟩
    exact (hasMembers_iff.mp (hparts o ho)).2.1 i hi

theorem hasAll_singleton (ht : T.Has t) : T.HasAll {t} := by
  rintro _ rfl
  exact ht

variable (h : T.Agrees T') (hT : T.WellFormed) (hS : T.HasAll S)
include h hS

theorem constituents_congr : T'.constituents S = T.constituents S := by
  ext m
  refine exists_congr fun t => and_congr_right fun ht => ?_
  rw [(h.saysAlike (hS t ht)).intersectionMembers]

include hT

theorem atom_congr : T'.Atom S a ↔ T.Atom S a := by
  rw [Atom, Atom, constituents_congr h hS]
  refine and_congr_right fun ha => ?_
  rw [(h.saysAlike (hT.has_constituent hS ha)).isAtom]

theorem within_congr (ha : T.Atom S a) : T'.Inside a b ↔ T.Inside a b := by
  rw [Inside, Inside, Ty.isLiteralOf, Ty.isLiteralOf,
    (h.saysAlike (hT.has_constituent hS ha.1)).literal?]

theorem finest_congr : T'.Finest S a ↔ T.Finest S a := by
  rw [Finest, Finest, atom_congr h hT hS]
  refine and_congr_right fun ha => forall_congr' fun b => ?_
  rw [atom_congr h hT hS, within_congr h hT hS ha]

theorem excludes_congr : T'.Excludes S ↔ T.Excludes S := by
  refine exists_congr fun a => exists_congr fun b => ?_
  rw [atom_congr h hT hS, atom_congr h hT hS]
  refine and_congr_right fun ha => and_congr_right fun hb => ?_
  rw [within_congr h hT hS ha, within_congr h hT hS hb]

theorem verdict_agrees : T'.verdict S = T.verdict S := by
  refine verdict_congr (fun p _ => ?_) (excludes_congr h hT hS)
  rw [constituents_congr h hS]

theorem objectsOf_congr : T'.objectsOf S = T.objectsOf S := by
  ext o
  simp only [objectsOf, constituents_congr h hS, Set.mem_ofPred_eq]
  refine exists_congr fun m => and_congr_right fun hm => ?_
  rw [(h.saysAlike (hT.has_constituent hS hm)).members?]

theorem othersOf_congr : T'.othersOf S = T.othersOf S := by
  ext m
  simp only [othersOf, constituents_congr h hS, Set.mem_ofPred_eq]
  refine and_congr_right fun hm => ?_
  rw [(h.saysAlike (hT.has_constituent hS hm)).isAtom,
    (h.saysAlike (hT.has_constituent hS hm)).members?]

theorem inside_congr (place : Spot) : T'.inside S place = T.inside S place := by
  rw [inside, objectsOf_congr h hT hS]
  rfl

theorem Condenses.congr (hR : T.HasAll R) (hk : T.Condenses S R) : T'.Condenses S R where
  atoms a := by
    rw [atom_congr h hT hR, finest_congr h hT hS]
    exact hk.atoms a
  others := by
    rw [othersOf_congr h hT hR, othersOf_congr h hT hS]
    exact hk.others
  objects := by
    rw [objectsOf_congr h hT hR, objectsOf_congr h hT hS]
    exact hk.objects
  merges := by
    rw [objectsOf_congr h hT hR, objectsOf_congr h hT hS]
    exact hk.merges

theorem Blends.congr (hb : T.Blends S) : T'.Blends S where
  calls := by
    rw [objectsOf_congr h hT hS]
    exact hb.calls
  keys := by
    rw [objectsOf_congr h hT hS]
    exact hb.keys
  unmixed := by
    rw [constituents_congr h hS, excludes_congr h hT hS]
    exact hb.unmixed

theorem Throughout.congr {P' : Set Ty → Prop} (hP : ∀ R, T.HasAll R → P R → P' R)
    (hthrough : T.Throughout P S) : T'.Throughout P' S := by
  have hpath : ∀ R, Relation.ReflTransGen T'.Steps S R →
      Relation.ReflTransGen T.Steps S R ∧ T.HasAll R := by
    intro R hR
    induction hR with
    | refl => exact ⟨.refl, hS⟩
    | tail _ hstep ih =>
      obtain ⟨place, rfl⟩ := hstep
      rw [inside_congr h hT ih.2]
      exact ⟨ih.1.tail ⟨place, rfl⟩, hT.hasAll_inside ih.2 place⟩
  exact fun R hR => hP R (hpath R hR).2 (hthrough R (hpath R hR).1)

/-- **An intersection stays one**, whatever the table is used for. -/
theorem IsMeet.congr (hmeet : T.IsMeet S w) : T'.IsMeet S w := by
  induction hmeet with
  | verdict hv => exact .verdict ((verdict_agrees h hT hS).trans hv)
  | @combined S w hw hv hkeeps hinside ih =>
    refine .combined (h.has hw) ((verdict_agrees h hT hS).trans hv)
      (hkeeps.congr h hT hS (hasAll_singleton hw)) fun place t ht => ?_
    rw [inside_congr h hT (hasAll_singleton hw)] at ht
    rw [inside_congr h hT hS]
    exact ih place t ht (hT.hasAll_inside hS place)

end Agreement

/-! ## There is one -/

section Uniqueness

variable {T : Table} {S : Set Ty} {m k w w' : Ty} {o p n : Members}

theorem IsMeet.has (h : T.IsMeet S w) : T.Has w := by
  cases h with
  | verdict => exact T.has_prim _
  | combined hw => exact hw

theorem Orderly.constituents_nonempty (hO : T.Orderly) (t : Ty) :
    (T.constituents {t}).Nonempty := by
  have hstandard := hO.standard t
  cases hs : T.shape t with
  | intersection ms =>
    rw [hs] at hstandard
    obtain ⟨m, hm⟩ := List.exists_mem_of_length_pos
      (Nat.lt_of_lt_of_le Nat.zero_lt_two hstandard.several)
    exact ⟨m, mem_constituents_singleton.mpr (by rwa [Ty.intersectionMembers, hs])⟩
  | _ => exact ⟨t, mem_constituents_singleton.mpr (by simp [Ty.intersectionMembers, hs])⟩

theorem Orderly.objectsOf_eq (hO : T.Orderly) (hm : m ∈ T.constituents {w})
    (hmo : Ty.members? T m = some o) : T.objectsOf {w} = {o} := by
  ext p
  constructor
  · rintro ⟨k, hk, hkp⟩
    obtain rfl := hO.object_unique hm hk (by simp [hmo]) (by simp [hkp])
    exact Option.some.inj (hkp.symm.trans hmo)
  · rintro rfl
    exact ⟨m, hm, hmo⟩

theorem WellFormed.fields_nodup (hT : T.WellFormed) (hmo : Ty.members? T m = some o) :
    (o.fields.map Field.name).Nodup := by
  have := hT.tidy m
  rwa [shape_of_members? hmo] at this

/-- Objects of the table with the same fields, index signature and call signatures are the same. -/
theorem WellFormed.object_eq (hT : T.WellFormed) (hm : T.Has m) (hk : T.Has k)
    (hmo : Ty.members? T m = some o) (hkp : Ty.members? T k = some p)
    (hfields : ∀ f, f ∈ o.fields ↔ f ∈ p.fields) (hindex : o.index = p.index)
    (hcalls : o.calls = p.calls) : m = k := by
  have ho := hT.fields_nodup hmo
  have hp := hT.fields_nodup hkp
  refine hT.eq_of_alike hm hk (by rw [shape_of_members? hmo]; rfl) ?_
  rw [shape_of_members? hmo, shape_of_members? hkp]
  refine (Shape.members_key_eq_iff ho hp).mp ?_
  have hsort : Key.sortFields o.fields = Key.sortFields p.fields := (Key.sortFields_eq_iff ho).mpr
    ((List.perm_ext_iff_of_nodup (.of_map _ ho) (.of_map _ hp)).mpr hfields)
  simp only [Key.members, hsort, hindex, hcalls]

/-- Nothing but `unknown` is a constituent that is neither a primitive or literal, an object nor
something else. -/
theorem constituent_cases (hm : m ∈ T.constituents S) : m = .unknown ∨ T.Atom S m ∨
    (Ty.members? T m).isSome = true ∨ m ∈ T.othersOf S := by
  by_cases hatom : Ty.isAtom T m = true
  · by_cases hunknown : m = .unknown
    · exact .inl hunknown
    · exact .inr (.inl ⟨hm, hatom, hunknown⟩)
  · cases hmo : Ty.members? T m with
    | some o => exact .inr (.inr (.inl rfl))
    | none => exact .inr (.inr (.inr ⟨hm, by simpa using hatom, hmo⟩))

/-- Two types keep the same of some types, if they have the same object. -/
theorem Condenses.subset (hO : T.Orderly) (h : T.Condenses S {w}) (h' : T.Condenses S {w'})
    (hobject : ∀ m ∈ T.constituents {w}, ∀ k ∈ T.constituents {w'}, ∀ o p,
      Ty.members? T m = some o → Ty.members? T k = some p → m = k) :
    T.constituents {w} ⊆ T.constituents {w'} := by
  intro m hm
  rcases constituent_cases hm with rfl | hatom | hmo | hother
  · -- `unknown` stands alone, so neither type keeps anything
    obtain rfl := hO.eq_of_improper hm (by simp)
    have honly : ∀ v, v ∈ T.constituents {Ty.unknown} → v = .unknown := by
      intro v hv
      simpa [mem_constituents_singleton, Ty.intersectionMembers, shape] using hv
    obtain ⟨k, hk⟩ := hO.constituents_nonempty w'
    rcases constituent_cases hk with rfl | hatom | hko | hother
    · exact hk
    · have hin := (h.atoms k).mpr ((h'.atoms k).mp hatom)
      exact absurd (honly k hin.1) hin.2.2
    · obtain ⟨p, hp⟩ := Option.isSome_iff_exists.mp hko
      obtain ⟨o, v, hv, hvo⟩ := h.objects.mpr (h'.objects.mp ⟨p, k, hk, hp⟩)
      rw [honly v hv] at hvo
      exact absurd hvo (by simp [Ty.members?, shape])
    · rw [h'.others, ← h.others] at hother
      have := hother.2.1
      rw [honly k hother.1] at this
      exact absurd this (by simp [Ty.isAtom, shape])
  · exact ((h'.atoms m).mpr ((h.atoms m).mp hatom)).1
  · obtain ⟨o, hmo⟩ := Option.isSome_iff_exists.mp hmo
    obtain ⟨p, k, hk, hkp⟩ := h'.objects.mpr (h.objects.mp ⟨o, m, hm, hmo⟩)
    rw [hobject m hm k hk o p hmo hkp]
    exact hk
  · rw [h.others, ← h'.others] at hother
    exact hother.1

/-- **Some types have one intersection**, if nothing depends on the order. -/
theorem IsMeet.unique (hT : T.WellFormed) (hO : T.Orderly) (h : T.IsMeet S w) (h' : T.IsMeet S w')
    (hblends : T.Throughout T.Blends S) : w = w' := by
  induction h generalizing w' with
  | verdict hv =>
    cases h' with
    | verdict hv' => rw [Option.some.inj (hv.symm.trans hv')]
    | combined _ hv' => exact absurd (hv.symm.trans hv') (by simp)
  | @combined S w hw hv hkeeps hinside ih =>
    cases h' with
    | verdict hv' => exact absurd (hv'.symm.trans hv) (by simp)
    | combined hw' _ hkeeps' hinside' =>
      have hobject : ∀ m ∈ T.constituents {w}, ∀ k ∈ T.constituents {w'}, ∀ o p,
          Ty.members? T m = some o → Ty.members? T k = some p → m = k := by
        intro m hm k hk o p hmo hkp
        obtain ⟨hfields, hindex, hcalls⟩ := (hkeeps.merges o ⟨m, hm, hmo⟩).eq
          (hkeeps'.merges p ⟨k, hk, hkp⟩) hblends.here.calls fun place t ht u hu => ih place t
            (by rwa [inside, hO.objectsOf_eq hm hmo])
            (hinside' place u (by rwa [inside, hO.objectsOf_eq hk hkp])) (hblends.inside place)
        exact hT.object_eq (hT.has_constituent (hasAll_singleton hw) hm)
          (hT.has_constituent (hasAll_singleton hw') hk) hmo hkp hfields hindex hcalls
      exact hO.eq_of_constituents hT hw hw' ((hkeeps.subset hO hkeeps' hobject).antisymm
        (hkeeps'.subset hO hkeeps fun m hm k hk o p hmo hkp =>
          (hobject k hk m hm p o hkp hmo).symm))

end Uniqueness

section Single

variable {T : Table} {S : Set Ty} {w : Ty} {o : Members}

theorem mem_constituents_prim {m : Ty} : m ∈ T.constituents {.prim p} ↔ m = .prim p := by
  simp [mem_constituents_singleton, Ty.intersectionMembers, shape]

theorem WellFormed.rank_constituent (hT : T.WellFormed) (hw : w ∈ T.constituents {t}) :
    w.rank ≤ t.rank := by
  rw [mem_constituents_singleton, Ty.intersectionMembers] at hw
  split at hw
  next ms hs =>
    exact Nat.le_of_lt (hT.rank_part (by rwa [hs]))
  · rw [List.mem_singleton.mp hw]

/-- What is inside the objects of a type stands below it. -/
theorem WellFormed.rank_inside (hT : T.WellFormed) (ho : o ∈ T.objectsOf {t}) {p : Ty}
    (hp : p ∈ (Shape.object o).parts) : p.rank < t.rank := by
  obtain ⟨m, hm, hmo⟩ := ho
  refine Nat.lt_of_lt_of_le (hT.rank_part (t := m) ?_) (hT.rank_constituent hm)
  rwa [shape_of_members? hmo]

/-- The object is some objects merged, wherever they have types with an intersection of these. -/
structure MeetsObjects (T : Table) (O : Set Members) (n : Members) : Prop where
  merges : Merges O n
  inside : ∀ place, ∀ t ∈ typesAt {n} place, T.IsMeet (typesAt O place) t

/-- What is kept of the types and merged from their objects is their intersection. -/
theorem IsMeet.of_objects (hw : T.Has w) (h : T.verdict S = none)
    (hatoms : ∀ a, T.Atom {w} a ↔ T.Finest S a) (hothers : T.othersOf {w} = T.othersOf S)
    (hobjects : (T.objectsOf {w}).Nonempty ↔ (T.objectsOf S).Nonempty)
    (hmeets : ∀ n ∈ T.objectsOf {w}, T.MeetsObjects (T.objectsOf S) n) : T.IsMeet S w := by
  refine .combined hw h ⟨hatoms, hothers, hobjects, fun n hn => (hmeets n hn).merges⟩
    fun place t ht => ?_
  obtain ⟨n, hn, ht⟩ := exists_of_typesAt ht
  exact (hmeets n hn).inside place t ht

/-- An object is what it leaves alone, if the types inside are. -/
theorem meetsObjects_self (hnodup : (o.fields.map Field.name).Nodup)
    (hself : ∀ p ∈ (Shape.object o).parts, T.IsMeet {p} p) : T.MeetsObjects {o} o := by
  refine ⟨.self hnodup, fun place t ht => ?_⟩
  have hone : typesAt {o} place = {t} := (typesAt_subsingleton hnodup).eq_singleton_of_mem ht
  rw [hone]
  exact hself t (mem_parts_of_typesAt ht)

/-- A type is its own intersection. -/
theorem isMeet_self (hT : T.WellFormed) (hO : T.Orderly) (ht : T.Has t) : T.IsMeet {t} t := by
  induction hrank : t.rank using Nat.strong_induction_on generalizing t with
  | h rank ih =>
    have hatom : ∀ a b, T.Atom {t} a → T.Atom {t} b → T.Inside a b := fun a b ha hb =>
      .inl (hO.atom_unique ha.1 hb.1 ha.2.1 hb.2.1)
    by_cases himproper : ∃ p : Primitive, (p = .invalid ∨ p = .never ∨ p = .any) ∧
        .prim p ∈ T.constituents {t}
    · obtain ⟨p, hp, hin⟩ := himproper
      obtain rfl := hO.eq_of_improper hin (by
        rcases hp with rfl | rfl | rfl
        · exact .inr (.inr (.inr rfl))
        · exact .inl rfl
        · exact .inr (.inl rfl))
      refine .verdict ?_
      rcases hp with rfl | rfl | rfl <;> simp [verdict, mem_constituents_prim,
        Ty.invalid, Ty.never, Ty.any]
    · have hno : ∀ p : Primitive, p = .invalid ∨ p = .never ∨ p = .any →
          .prim p ∉ T.constituents {t} := fun p hp hin => himproper ⟨p, hp, hin⟩
      refine .of_objects ht (verdict_eq_none.mpr
        ⟨hno _ (by simp), hno _ (by simp), hno _ (by simp), ?_⟩)
        (fun a => ⟨fun ha => ⟨ha, fun b hb => hatom a b ha hb⟩, And.left⟩) rfl Iff.rfl ?_
      · rintro ⟨a, b, ha, hb, -, -, hab, -⟩
        exact hab (hatom a b ha hb)
      · rintro n ⟨m, hm, hmn⟩
        rw [hO.objectsOf_eq hm hmn]
        refine meetsObjects_self (hT.fields_nodup hmn) fun p hp => ?_
        have hpt := hT.rank_inside ⟨m, hm, hmn⟩ hp
        exact ih p.rank (hrank ▸ hpt) (hT.hasMembers
          (hT.has_constituent (hasAll_singleton ht) hm) hmn p hp) rfl

end Single

/-! ## In steps -/

section Steps

variable {T T' : Table} {A B F S : Set Ty} {a g w x : Ty} {depth : Nat}

theorem objectsOf_prim : T.objectsOf {.prim p} = ∅ := by
  rw [Set.eq_empty_iff_forall_notMem]
  rintro o ⟨m, hm, hmo⟩
  rw [mem_constituents_prim.mp hm] at hmo
  exact absurd hmo (by simp [Ty.members?, shape])

/-- A type has no object or one. -/
theorem Orderly.objectsOf_cases (hO : T.Orderly) (t : Ty) :
    T.objectsOf {t} = ∅ ∨ ∃ m o, m ∈ T.constituents {t} ∧ Ty.members? T m = some o ∧
      T.objectsOf {t} = {o} := by
  rcases Set.eq_empty_or_nonempty (T.objectsOf {t}) with h | ⟨o, m, hm, hmo⟩
  · exact .inl h
  · exact .inr ⟨m, o, hm, hmo, hO.objectsOf_eq hm hmo⟩

/-- At each place an intersection has nothing, or an intersection of what the types have there. -/
theorem IsMeet.inside_cases (hT : T.WellFormed) (hO : T.Orderly) (h : T.IsMeet S g) (place : Spot) :
    T.inside {g} place = ∅ ∧ (T.verdict S = none → T.inside S place = ∅) ∨
      ∃ y, T.inside {g} place = {y} ∧ T.IsMeet (T.inside S place) y := by
  cases h with
  | verdict hv =>
    refine .inl ⟨?_, fun hnone => absurd (hv.symm.trans hnone) (by simp)⟩
    rw [inside, objectsOf_prim, typesAt_empty]
  | combined _ _ hkeeps hinside =>
    rcases hO.objectsOf_cases g with hnone | ⟨m, o, hm, hmo, hone⟩
    · refine .inl ⟨by rw [inside, hnone, typesAt_empty], fun _ => ?_⟩
      have hS : T.objectsOf S = ∅ := by
        rw [← Set.not_nonempty_iff_eq_empty, ← hkeeps.objects, hnone]
        exact Set.not_nonempty_empty
      rw [inside, hS, typesAt_empty]
    · rcases Set.eq_empty_or_nonempty (T.inside {g} place) with hempty | ⟨y, hy⟩
      · refine .inl ⟨hempty, fun _ => ?_⟩
        rw [← Set.not_nonempty_iff_eq_empty]
        intro hsome
        have := (hkeeps.merges o ⟨m, hm, hmo⟩).nonempty hsome
        rw [← hone] at this
        exact this.ne_empty hempty
      · refine .inr ⟨y, ?_, hinside place y hy⟩
        rw [inside, hone] at hy ⊢
        exact (typesAt_subsingleton (hT.fields_nodup hmo)).eq_singleton_of_mem hy

/-- What is kept of some types is among them. -/
theorem Condenses.atom (hk : T.Condenses S {g}) (ha : T.Atom ({g} ∪ F) a) : T.Atom (S ∪ F) a := by
  rw [atom_union] at ha ⊢
  exact ha.imp_left fun ha => ((hk.atoms a).mp ha).1

/-- Of every primitive or literal one is kept that is no less specific. -/
theorem Condenses.exists_inside (hv : T.verdict S = none) (hk : T.Condenses S {g})
    (ha : T.Atom (S ∪ F) a) :
    ∃ b, T.Atom ({g} ∪ F) b ∧ T.Inside b a := by
  simp only [atom_union] at ha ⊢
  rcases ha with ha | ha
  · obtain ⟨b, hb⟩ := exists_finest hv ha
    exact ⟨b, .inl ((hk.atoms b).mpr hb), hb.2 a ha⟩
  · exact ⟨a, .inr ha, .inl rfl⟩

theorem Condenses.finest_iff (hv : T.verdict S = none) (hk : T.Condenses S {g}) :
    T.Finest ({g} ∪ F) a ↔ T.Finest (S ∪ F) a := by
  constructor
  · intro h
    refine ⟨hk.atom h.1, fun b hb => ?_⟩
    obtain ⟨b', hb', hinside⟩ := hk.exists_inside hv hb
    exact (h.2 b' hb').trans hinside
  · intro h
    refine ⟨?_, fun b hb => h.2 b (hk.atom hb)⟩
    rw [atom_union]
    refine (atom_union.mp h.1).imp_left fun ha => (hk.atoms a).mpr ⟨ha, fun b hb => ?_⟩
    exact h.2 b (atom_union.mpr (.inl hb))

theorem Condenses.excludes_iff (hv : T.verdict S = none) (hk : T.Condenses S {g}) :
    T.Excludes ({g} ∪ F) ↔ T.Excludes (S ∪ F) := by
  constructor
  · rintro ⟨a, b, ha, hb, hne⟩
    exact ⟨a, b, hk.atom ha, hk.atom hb, hne⟩
  · rintro ⟨a, b, ha, hb, haany, hbany, hab, hba⟩
    obtain ⟨a', ha', hwa⟩ := hk.exists_inside hv ha
    obtain ⟨b', hb', hwb⟩ := hk.exists_inside hv hb
    have hany : ∀ {x y : Ty}, T.Inside x y → y ≠ .any → x ≠ .any := by
      rintro x y (rfl | hlit) hy rfl
      · exact hy rfl
      · exact absurd hlit (by simp [isLiteralOf_prim])
    refine ⟨a', b', ha', hb', hany hwa haany, hany hwb hbany, fun h => ?_, fun h => ?_⟩
    · rcases hwa.comparable (h.trans hwb) with h | h
      · exact hab h
      · exact hba h
    · rcases hwb.comparable (h.trans hwa) with h | h
      · exact hba h
      · exact hab h

/-- What takes over is not kept, so it comes from the other types. -/
theorem Condenses.improper_iff (hv : T.verdict S = none) (hk : T.Condenses S {g})
    (hp : p = .invalid ∨ p = .never ∨ p = .any) :
    .prim p ∈ T.constituents ({g} ∪ F) ↔ .prim p ∈ T.constituents (S ∪ F) := by
  obtain ⟨hinvalid, hnever, hany, -⟩ := verdict_eq_none.mp hv
  have hS : .prim p ∉ T.constituents S := by
    rcases hp with rfl | rfl | rfl
    · exact hinvalid
    · exact hnever
    · exact hany
  have hg : .prim p ∉ T.constituents {g} := by
    intro hin
    refine hS ((hk.atoms (.prim p)).mp ⟨hin, rfl, ?_⟩).1.1
    rcases hp with rfl | rfl | rfl <;> decide
  rw [constituents_union, constituents_union, Set.mem_union, Set.mem_union]
  simp [hS, hg]

/-- A primitive takes over in a larger intersection what it took over before. -/
theorem verdict_prim (hv : T.verdict S = some p) (hb : T.Blends (S ∪ F)) :
    T.verdict ({.prim p} ∪ F) = T.verdict (S ∪ F) := by
  have hmem : ∀ q : Primitive, .prim q ∈ T.constituents ({.prim p} ∪ F) ↔
      q = p ∨ .prim q ∈ T.constituents F := by
    intro q
    rw [constituents_union, Set.mem_union, mem_constituents_prim, Ty.prim.injEq]
  have hmem' : ∀ m, m ∈ T.constituents (S ∪ F) ↔ m ∈ T.constituents S ∨ m ∈ T.constituents F := by
    simp [constituents_union]
  have hunmixed := hb.unmixed
  have hex : T.Excludes S → T.Excludes (S ∪ F) :=
    fun h => h.of_subset (constituents_mono Set.subset_union_left)
  classical
  unfold verdict at hv ⊢
  simp only [Ty.invalid, Ty.never, Ty.any, hmem, hmem'] at *
  split_ifs at hv <;> cases hv <;> simp_all

theorem verdict_meet (h : T.IsMeet S g) (hb : T.Blends (S ∪ F)) :
    T.verdict ({g} ∪ F) = T.verdict (S ∪ F) := by
  cases h with
  | verdict hv => exact verdict_prim hv hb
  | combined _ hv hk => exact verdict_congr (fun p hp => hk.improper_iff hv hp) (hk.excludes_iff hv)

theorem Condenses.trans (hO : T.Orderly) (hv : T.verdict S = none) (hk : T.Condenses S {g})
    (hw : T.Condenses ({g} ∪ F) {w}) : T.Condenses (S ∪ F) {w} where
  atoms a := (hw.atoms a).trans (hk.finest_iff hv)
  others := by rw [hw.others, othersOf_union, hk.others, othersOf_union]
  objects := by
    rw [hw.objects, objectsOf_union, objectsOf_union, Set.union_nonempty, Set.union_nonempty,
      hk.objects]
  merges n hn := by
    have hmerges := hw.merges n hn
    have hobjects := hk.objects
    rw [objectsOf_union] at hmerges ⊢
    rcases hO.objectsOf_cases g with hnone | ⟨m, o, hm, hmo, hone⟩
    · rw [hnone, Set.nonempty_iff_ne_empty, Set.nonempty_iff_ne_empty, not_iff_not] at hobjects
      rwa [hobjects.mp rfl, ← hnone]
    · rw [hone] at hmerges
      exact (hk.merges o ⟨m, hm, hmo⟩).trans hmerges

/-- The types can be intersected in any order: objects nest at most so deep in them, and wherever
they meet nothing depends on the order. -/
def Blendable (T : Table) : Nat → Set Ty → Prop
  | 0, S => T.HasAll S ∧ T.Blends S ∧ T.objectsOf S = ∅
  | depth + 1, S => T.HasAll S ∧ T.Blends S ∧ ∀ place, T.Blendable depth (T.inside S place)

theorem Blendable.has (h : T.Blendable depth S) : T.HasAll S := by
  cases depth <;> exact h.1

theorem Blendable.blends (h : T.Blendable depth S) : T.Blends S := by
  cases depth <;> exact h.2.1

theorem Blendable.mono (h : T.Blendable depth B) (hAB : A ⊆ B) : T.Blendable depth A := by
  induction depth generalizing A B with
  | zero =>
    exact ⟨fun t ht => h.1 t (hAB ht), h.2.1.mono hAB,
      Set.subset_empty_iff.mp ((objectsOf_mono hAB).trans h.2.2.subset)⟩
  | succ depth ih =>
    exact ⟨fun t ht => h.1 t (hAB ht), h.2.1.mono hAB,
      fun place => ih (h.2.2 place) (inside_mono hAB place)⟩

theorem Blendable.congr (hr : T.Blendable depth S) (h : T.Agrees T') (hT : T.WellFormed) :
    T'.Blendable depth S := by
  induction depth generalizing S with
  | zero =>
    refine ⟨hr.1.agrees h, hr.2.1.congr h hT hr.1, ?_⟩
    rw [objectsOf_congr h hT hr.1]
    exact hr.2.2
  | succ depth ih =>
    refine ⟨hr.1.agrees h, hr.2.1.congr h hT hr.1, fun place => ?_⟩
    rw [inside_congr h hT hr.1]
    exact ih (hr.2.2 place)

/-- What nests no deeper has nothing inside in the end. -/
theorem Blendable.inside (h : T.Blendable depth S) (place : Spot) :
    T.Blendable (depth - 1) (T.inside S place) := by
  cases depth with
  | zero =>
    have hnone : T.objectsOf ∅ = ∅ := by simp [objectsOf, constituents]
    rw [Table.inside, h.2.2, typesAt_empty]
    exact ⟨fun _ ht => ht.elim, h.2.1.mono (Set.empty_subset S), hnone⟩
  | succ depth => exact h.2.2 place

/-- **An intersection takes the place of its types** in a larger one. -/
theorem IsMeet.trans (hT : T.WellFormed) (hO : T.Orderly) (h : T.IsMeet S g)
    (h' : T.IsMeet ({g} ∪ F) w) (hr : T.Blendable depth (S ∪ F)) : T.IsMeet (S ∪ F) w := by
  generalize hset : {g} ∪ F = Q at h'
  induction h' generalizing S F g depth with
  | verdict hv =>
    subst hset
    exact .verdict ((verdict_meet h hr.blends).symm.trans hv)
  | combined hw hv hkeeps hinside ih =>
    subst hset
    rw [verdict_meet h hr.blends] at hv
    have hvS := verdict_of_subset hv Set.subset_union_left
    have hk : T.Condenses S {g} := by
      cases h with
      | verdict hv' => exact absurd (hv'.symm.trans hvS) (by simp)
      | combined _ _ hk => exact hk
    refine .combined hw hv (hk.trans hO hvS hkeeps) fun place t ht => ?_
    rw [inside_union]
    rcases h.inside_cases hT hO place with ⟨hg, hS⟩ | ⟨y, hy, hmeet⟩
    · have hrest := hinside place t ht
      rwa [inside_union, hg, ← hS hvS] at hrest
    · have hready := hr.inside place
      rw [inside_union] at hready
      exact ih place t ht hmeet hready (by rw [inside_union, hy])

theorem IsMeet.merges {o : Members} (h : T.IsMeet A x) (ho : o ∈ T.objectsOf {x}) :
    Merges (T.objectsOf A) o := by
  cases h with
  | verdict =>
    rw [objectsOf_prim] at ho
    exact ho.elim
  | combined _ _ hk => exact hk.merges o ho

theorem Blends.meet (h : T.IsMeet A x) (hb : T.Blends (A ∪ B)) : T.Blends ({x} ∪ B) where
  calls := by
    have hall := hb.calls
    rw [objectsOf_union] at hall ⊢
    rintro o (ho | ho)
    · exact (h.merges ho).calls_eq_nil fun p hp => hall p (.inl hp)
    · exact hall o (.inr ho)
  keys := by
    have hfrom : ∀ i ∈ indicesIn (T.objectsOf ({x} ∪ B)),
        ∃ j ∈ indicesIn (T.objectsOf (A ∪ B)), j.key = i.key := by
      rw [objectsOf_union, objectsOf_union]
      rintro i ⟨o, ho | ho, hi⟩
      · obtain ⟨j, hj, hkey⟩ := ((h.merges ho).keys i.key).mp ⟨i, hi, rfl⟩
        exact ⟨j, indicesIn_mono Set.subset_union_left hj, hkey⟩
      · exact ⟨i, ⟨o, .inr ho, hi⟩, rfl⟩
    intro i hi j hj
    obtain ⟨i', hi', hii⟩ := hfrom i hi
    obtain ⟨j', hj', hjj⟩ := hfrom j hj
    exact hii.symm.trans ((hb.keys i' hi' j' hj').trans hjj)
  unmixed hany hex := by
    cases h with
    | @verdict _ p hv =>
      rcases mem_of_verdict hv with hin | ⟨rfl, hA⟩
      · have hsub : T.constituents ({.prim p} ∪ B) ⊆ T.constituents (A ∪ B) := by
          rw [constituents_union, constituents_union]
          refine Set.union_subset_union_left _ fun m hm => ?_
          rwa [mem_constituents_prim.mp hm]
        exact hb.unmixed (hsub hany) (hex.of_subset hsub)
      · refine hb.unmixed ?_ (hA.of_subset (constituents_mono Set.subset_union_left))
        rw [constituents_union, Set.mem_union, mem_constituents_prim] at hany
        exact constituents_mono Set.subset_union_right (hany.resolve_left (by simp [Ty.any]))
    | combined _ hv hk =>
      exact hb.unmixed ((hk.improper_iff hv (by simp)).mp hany) ((hk.excludes_iff hv).mp hex)

/-- An intersection of some types can be intersected where they can. -/
theorem Blendable.meet (hT : T.WellFormed) (hO : T.Orderly) (h : T.IsMeet A x)
    (hr : T.Blendable depth (A ∪ B)) : T.Blendable depth ({x} ∪ B) := by
  have hall : T.HasAll ({x} ∪ B) := by
    rintro t (rfl | ht)
    · exact h.has
    · exact hr.has t (.inr ht)
  induction depth generalizing A x B with
  | zero =>
    have hnone := hr.2.2
    rw [objectsOf_union, Set.union_empty_iff] at hnone
    refine ⟨hall, hr.blends.meet h, ?_⟩
    rw [objectsOf_union, Set.union_empty_iff]
    refine ⟨?_, hnone.2⟩
    cases h with
    | verdict => exact objectsOf_prim
    | combined _ _ hk =>
      rw [← Set.not_nonempty_iff_eq_empty, hk.objects, hnone.1]
      exact Set.not_nonempty_empty
  | succ depth ih =>
    refine ⟨hall, hr.blends.meet h, fun place => ?_⟩
    have hplace := hr.2.2 place
    rw [inside_union] at hplace ⊢
    rcases h.inside_cases hT hO place with ⟨hx, -⟩ | ⟨y, hy, hmeet⟩
    · rw [hx, Set.empty_union]
      exact hplace.mono Set.subset_union_right
    · rw [hy]
      refine ih hmeet hplace ?_
      rintro t (rfl | ht)
      · exact hmeet.has
      · exact hplace.has t (.inr ht)

/-- Objects nest less deep than they stand up the table. -/
theorem Throughout.blendable (hT : T.WellFormed) (h : T.Throughout T.Blends S) (hS : T.HasAll S)
    (hrank : ∀ t ∈ S, t.rank ≤ depth) : T.Blendable depth S := by
  have hfrom : ∀ o ∈ T.objectsOf S, ∃ t ∈ S, o ∈ T.objectsOf {t} := by
    rintro o ⟨m, ⟨t, ht, hm⟩, hmo⟩
    exact ⟨t, ht, m, mem_constituents_singleton.mpr hm, hmo⟩
  induction depth generalizing S with
  | zero =>
    refine ⟨hS, h.here, Set.eq_empty_iff_forall_notMem.mpr fun o ho => ?_⟩
    obtain ⟨t, ht, m, hm, hmo⟩ := hfrom o ho
    have hlow := (hT.rank_constituent hm).trans (hrank t ht)
    cases m with
    | prim | truth => exact absurd hmo (by simp [Ty.members?, shape])
    | made n => exact absurd hlow (by simp [Ty.rank])
  | succ depth ih =>
    refine ⟨hS, h.here, fun place => ih (h.inside place) (hT.hasAll_inside hS place) ?_ ?_⟩
    · intro p hp
      obtain ⟨o, ho, hp⟩ := exists_of_typesAt hp
      obtain ⟨t, ht, ho⟩ := hfrom o ho
      have hlow := hT.rank_inside ho (mem_parts_of_typesAt hp)
      have := hrank t ht
      omega
    · rintro o ⟨m, ⟨t, ht, hm⟩, hmo⟩
      exact ⟨t, ht, m, mem_constituents_singleton.mpr hm, hmo⟩

end Steps

end Table

end ShapeCheck
