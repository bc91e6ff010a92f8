import ShapeCheck.Proofs.Annotations

/-!
# What classes inherit

The shape of a class is that of its base class with its own members put over it, and a base class is
built before the classes that extend it, wherever it is declared. So every member comes from the
nearest class on the way to the root that declares it.

* `Class.Inherits` is the extends relation between the class declarations of a program,
  `Class.Nearest` the nearest declaration of a member.
* `Class.Hierarchy` is what a program has to satisfy: its classes have no type parameters and names
  of their own, and extend each other without a cycle.
* `Class.build_spec` is one step, building a class over its base, and `Class.registerAt_spec` the
  chain of bases. `Class.shapes_follow_nearest` is the result for all classes of a program.
-/

namespace ShapeCheck

variable {α : Type} {d : ClassDecl} {info : ClassInfo} {t : Ty} {done out : List Field}
  {abstracts : List String} {field? : String → Option Field} {a : Option ClassInfo}
  {ref : BaseRef} {v n : Nat}


open Check Relation

/-- A member that a class declares. -/
inductive ClassMember where
  | field (f : ClassField)
  | method (m : FunctionDecl)

namespace ClassMember

/-- The name. -/
def name : ClassMember → String
  | field f => f.name
  | method m => m.name

/-- Whether it may be absent. -/
def optional : ClassMember → Bool
  | field f => f.optional
  | method _ => false

/-- Whether only the constructor may assign it. -/
def readonly : ClassMember → Bool
  | field f => f.readonly
  | method _ => false

/-- Whether it is an abstract method. -/
def isAbstract : ClassMember → Bool
  | field _ => false
  | method m => m.isAbstract

/-- How its type is found. -/
def type (settle : String → Check Unit) : ClassMember → Check Ty
  | field f => Class.fieldType settle f
  | method m => Class.methodType settle m

end ClassMember

namespace ClassDecl

/-- The members that a class declares, fields before methods. -/
def members (d : ClassDecl) : List ClassMember :=
  d.fields.map .field ++ d.methods.map .method

/-- The first declaration of a member. -/
def member? (d : ClassDecl) (name : String) : Option ClassMember :=
  d.members.find? (·.name = name)

end ClassDecl

namespace Class

/-! ## Chains of classes -/

/-- The class declared at a place extends the one declared at another. -/
def Inherits (units : Array Declaration) (u v : Nat) : Prop :=
  ∃ (d : ClassDecl) (ref : BaseRef) (e : ClassDecl), units[u]? = some (.classDecl d) ∧
    d.base = some ref ∧ units[v]? = some (.classDecl e) ∧ e.name = ref.name

/-- A class declares a member. -/
def Declares (units : Array Declaration) (u : Nat) (name : String) : Prop :=
  ∃ d : ClassDecl, units[u]? = some (.classDecl d) ∧ (d.member? name).isSome

/-- The nearest class on the way from a class to its root that declares a member, with the
declaration. -/
inductive Nearest (units : Array Declaration) (name : String) : Nat → Nat → ClassMember → Prop
  | own {u d m} : units[u]? = some (.classDecl d) → d.member? name = some m →
      Nearest units name u u m
  | inherited {u v c d m} : units[u]? = some (.classDecl d) → d.member? name = none →
      Inherits units u v → Nearest units name v c m → Nearest units name u c m

/-- The nearest class above a class that declares a member. -/
def Upper (units : Array Declaration) (name : String) (u c : Nat) (m : ClassMember) : Prop :=
  ∃ v, Inherits units u v ∧ Nearest units name v c m

/-- Classes without type parameters that have names of their own and extend each other without a
cycle. -/
structure Hierarchy (units : Array Declaration) : Prop where
  named : Pass.ClassesNamed units
  plain : ∀ (u : Nat) (d : ClassDecl), units[u]? = some (.classDecl d) → d.typeParams = []
  based : ∀ (u : Nat) (d : ClassDecl) (ref : BaseRef), units[u]? = some (.classDecl d) →
    d.base = some ref → ∃ (v : Nat) (e : ClassDecl), units[v]? =
    some (.classDecl e) ∧ e.name = ref.name
  acyclic : ∀ u, ¬TransGen (Inherits units) u u

variable {units : Array Declaration} {u c : Nat} {name : String} {m : ClassMember}

theorem Nearest.reaches (h : Nearest units name u c m) :
    ReflTransGen (Inherits units) u c ∧ Declares units c name := by
  induction h with
  | own hu hm => exact ⟨.refl, _, hu, by rw [hm]; rfl⟩
  | inherited _ _ hbase _ ih => exact ⟨ih.1.head hbase, ih.2⟩

/-- If a class on the way to the root declares a member, then one of them is the nearest. -/
theorem exists_nearest (h : ReflTransGen (Inherits units) u c) (hc : Declares units c name) :
    ∃ c m, Nearest units name u c m := by
  induction h using ReflTransGen.head_induction_on with
  | refl =>
    obtain ⟨d, hd, hm⟩ := hc
    obtain ⟨m, hm⟩ := Option.isSome_iff_exists.mp hm
    exact ⟨c, m, .own hd hm⟩
  | @head u v hbase _ ih =>
    obtain ⟨c', m, hnearest⟩ := ih
    obtain ⟨d, _, _, hd, -⟩ := id hbase
    cases hm : d.member? name with
    | some m => exact ⟨u, m, .own hd hm⟩
    | none => exact ⟨c', m, .inherited hd hm hbase hnearest⟩

theorem nearest_iff (hd : units[u]? = some (.classDecl d)) :
    Nearest units name u c m ↔
      d.member? name = some m ∧ c = u ∨ d.member? name = none ∧ Upper units name u c m := by
  constructor
  · intro h
    cases h with
    | own hd' hm =>
      cases hd.symm.trans hd'
      exact .inl ⟨hm, rfl⟩
    | inherited hd' hm hbase h =>
      cases hd.symm.trans hd'
      exact .inr ⟨hm, _, hbase, h⟩
  · rintro (⟨hm, rfl⟩ | ⟨hm, v, hbase, h⟩)
    · exact .own hd hm
    · exact .inherited hd hm hbase h

/-- A class extends no two. -/
theorem Hierarchy.base_unique (h : Hierarchy units) (hv : Inherits units u v)
    (hc : Inherits units u c) : v = c := by
  obtain ⟨d, ref, e, hd, href, he, hname⟩ := hv
  obtain ⟨d', ref', e', hd', href', he', hname'⟩ := hc
  cases hd.symm.trans hd'
  cases href.symm.trans href'
  exact h.named c v e' _ he' he (congrArg some (hname.trans hname'.symm))

theorem Hierarchy.upper_iff (h : Hierarchy units) (hbase : Inherits units u v) :
    Upper units name u c m ↔ Nearest units name v c m := by
  constructor
  · rintro ⟨v', hv', hn⟩
    exact h.base_unique hv' hbase ▸ hn
  · exact fun hn => ⟨v, hbase, hn⟩

theorem not_upper_of_root (hd : units[u]? = some (.classDecl d))
    (hroot : d.base = none) : ¬Upper units name u c m := by
  rintro ⟨v, ⟨d', ref, _, hd', href, -⟩, -⟩
  cases hd.symm.trans hd'
  simp [hroot] at href

end Class

/-! ## What stays while classes are built -/

namespace Session

/-- Types and classes may have been added. -/
structure Extended (s s' : Session) : Prop where
  table : s.table.Keeps s'.table
  names : s'.names = s.names
  enums : s'.enums = s.enums
  classes : ∀ name info, s.classes.lookup name = some info → s'.classes.lookup name = some info

/-- Types may have been added, and classes under names with the property. -/
structure Enlarged (P : String → Prop) (s s' : Session) : Prop extends s.Extended s' where
  registering : s'.registering = s.registering
  pending : s'.pending = s.pending
  others : ∀ name, ¬P name → s'.classes.lookup name = s.classes.lookup name

variable {P Q : String → Prop} {s s' s'' : Session}

theorem Spared.extended (h : s.Spared s') : s.Extended s' :=
  ⟨h.table, h.names, h.enums, fun _ _ hn => h.classes ▸ hn⟩

theorem Spared.enlarged (h : s.Spared s') : s.Enlarged P s' :=
  ⟨h.extended, h.registering, h.pending, fun _ _ => h.classes ▸ rfl⟩

theorem Extended.trans (h : s.Extended s') (h' : s'.Extended s'') : s.Extended s'' where
  table := h.table.trans h'.table
  names := h'.names.trans h.names
  enums := h'.enums.trans h.enums
  classes name info hn := h'.classes name info (h.classes name info hn)

theorem Enlarged.trans (h : s.Enlarged P s') (h' : s'.Enlarged P s'') : s.Enlarged P s'' where
  toExtended := h.toExtended.trans h'.toExtended
  registering := h'.registering.trans h.registering
  pending := h'.pending.trans h.pending
  others name hn := (h'.others name hn).trans (h.others name hn)

theorem Enlarged.mono (h : s.Enlarged P s') (hPQ : ∀ name, P name → Q name) : s.Enlarged Q s' :=
  { h with others := fun name hn => h.others name fun hp => hn (hPQ name hp) }

/-- A class is added under a free name. -/
theorem Enlarged.add {name : String} (h : s.classes.lookup name = none) :
    s.Enlarged (· = name) { s with classes := (name, info) :: s.classes } := by
  have hne {other : String} (hother : other ≠ name) :
      ((name, info) :: s.classes).lookup other = s.classes.lookup other := by
    rw [List.lookup_cons, beq_false_of_ne hother]
  refine ⟨⟨.refl _, rfl, rfl, fun other old hold => ?_⟩, rfl, rfl, fun other hother => hne hother⟩
  refine (hne ?_).trans hold
  rintro rfl
  simp [h] at hold

theorem Enlarged.settled (h : s.Enlarged P s') (hs : s.Settled) : s'.Settled := by
  unfold Settled
  rwa [h.pending]

/-- Under the names of the session and without type parameters in scope the work gives the type. -/
def Means (s : Session) (work : Check Ty) (t : Ty) : Prop :=
  ∃ (w : Walker) (s1 s2 : Session), work w s1 = some (t, s2) ∧ w.typeVars = [] ∧
    s1.names = s.names ∧ s1.enums = s.enums ∧ s2.table.Keeps s.table

theorem Means.extended {work : Check Ty} (h : s.Means work t) (he : s.Extended s') :
    s'.Means work t := by
  obtain ⟨w, s1, s2, hrun, hvars, hnames, henums, htable⟩ := h
  exact ⟨w, s1, s2, hrun, hvars, hnames.trans he.names.symm, henums.trans he.enums.symm,
    htable.trans he.table⟩

/-- The field of the instances of a class. -/
def fieldOf (s : Session) (info : ClassInfo) (name : String) : Option Field :=
  (Ty.members? s.table info.instanceType).bind (·.field? name)

/-- The class built from the declaration at a place. -/
def classAt (s : Session) (units : Array Declaration) (u : Nat) : Option ClassInfo :=
  match units[u]? with
  | some (.classDecl d) => s.classes.lookup d.name
  | _ => none

theorem Extended.classAt {units : Array Declaration} {u : Nat}
    (h : s.Extended s') (hu : s.classAt units u = some info) : s'.classAt units u = some info := by
  unfold Session.classAt at hu ⊢
  split at hu
  · exact h.classes _ _ hu
  · cases hu

end Session

/-! ## Own members -/

section Members

variable (settle : String → Check Unit)

/-- The field has the flags of the declaration and the type that it means. -/
structure ClassMember.Says (s : Session) (m : ClassMember) (f : Field) : Prop where
  name : f.name = m.name
  optional : f.optional = m.optional
  readonly : f.readonly = m.readonly
  type : s.Means (m.type settle) f.type

/-- Some fields are what some declarations say, the first of each name. -/
structure ClassMember.Lists (s : Session) (ms : List ClassMember) (fs : List Field) : Prop where
  distinct : (fs.map Field.name).Nodup
  each : ∀ name, Option.Rel (ClassMember.Says settle s) (ms.find? (·.name = name))
    (fs.find? (·.name = name))

/-- The names of the abstract methods among some declarations, the first of each name. -/
structure ClassMember.Abstract (ms : List ClassMember) (names : List String) : Prop where
  distinct : names.Nodup
  each : ∀ name, name ∈ names ↔ ∃ m, ms.find? (·.name = name) = some m ∧ m.isAbstract

end Members

namespace ClassMember

variable {settle : String → Check Unit} {P : String → Prop} {s s' : Session} {ms : List ClassMember}
  {m : ClassMember} {fs : List Field} {f : Field} {names : List String}

theorem Says.extended (h : m.Says settle s f) (he : s.Extended s') : m.Says settle s' f :=
  ⟨h.name, h.optional, h.readonly, h.type.extended he⟩

section

variable (h : Lists settle s ms fs)
include h

theorem Lists.extended (he : s.Extended s') :
    Lists settle s' ms fs where
  distinct := h.distinct
  each name := by
    have heach := h.each name
    generalize ms.find? (·.name = name) = m, fs.find? (·.name = name) = f at heach ⊢
    cases heach with
    | some hsaid => exact .some (hsaid.extended he)
    | none => exact .none

theorem Lists.of_some {name : String} (hm : ms.find? (·.name = name) = some m) :
    ∃ f, fs.find? (·.name = name) = some f ∧ m.Says settle s f := by
  have heach := h.each name
  rw [hm] at heach
  cases hf : fs.find? (·.name = name) with
  | none => simp [hf] at heach
  | some f => exact ⟨f, rfl, by simpa [hf] using heach⟩

theorem Lists.of_none {name : String} (hm : ms.find? (·.name = name) = none) :
    fs.find? (·.name = name) = none := by
  have heach := h.each name
  rw [hm] at heach
  cases hf : fs.find? (·.name = name) with
  | none => rfl
  | some f => simp [hf] at heach

theorem Lists.any_iff (name : String) :
    fs.any (·.name = name) ↔ (ms.find? (·.name = name)).isSome := by
  rw [List.any_eq_true, ← List.find?_isSome]
  cases hm : ms.find? (·.name = name) with
  | some m =>
    obtain ⟨f, hf, -⟩ := h.of_some hm
    rw [hf]
    rfl
  | none => simp [h.of_none hm]

/-- A name that is there already is passed over. -/
theorem Lists.skip (hm : fs.any (·.name = m.name)) :
    Lists settle s (ms ++ [m]) fs where
  distinct := h.distinct
  each name := by
    have heach := h.each name
    rw [List.find?_append]
    cases hfind : ms.find? (·.name = name) with
    | some m' => rwa [hfind] at heach
    | none =>
      rw [hfind] at heach
      have hne : m.name ≠ name := by
        rintro rfl
        simp [h.any_iff, hfind] at hm
      simpa [hne] using heach

theorem Lists.add (hm : ¬fs.any (·.name = m.name))
    (hf : m.Says settle s f) : Lists settle s (ms ++ [m]) (fs ++ [f]) where
  distinct := by
    rw [List.map_append, List.map_singleton, ← List.concat_eq_append]
    refine List.Nodup.concat ?_ h.distinct
    intro hmem
    obtain ⟨g, hg, hname⟩ := List.mem_map.mp hmem
    exact hm (List.any_eq_true.mpr ⟨g, hg, by simp [hname, hf.name]⟩)
  each name := by
    have heach := h.each name
    rw [List.find?_append, List.find?_append]
    generalize ms.find? (·.name = name) = m', fs.find? (·.name = name) = f' at heach ⊢
    cases heach with
    | some hsaid => exact .some hsaid
    | none =>
      by_cases hname : m.name = name
      · simpa [hname, hf.name] using hf
      · simp [hname, hf.name]

end

theorem Abstract.skip (h : Abstract ms names) (hm : (ms.find? (·.name = m.name)).isSome) :
    Abstract (ms ++ [m]) names where
  distinct := h.distinct
  each name := by
    rw [h.each name, List.find?_append]
    by_cases hname : m.name = name
    · subst hname
      obtain ⟨m', hm'⟩ := Option.isSome_iff_exists.mp hm
      rw [hm']
      rfl
    · simp [hname]

theorem Abstract.add (h : Abstract ms names) (hm : ms.find? (·.name = m.name) = none) :
    Abstract (ms ++ [m]) (if m.isAbstract then names ++ [m.name] else names) where
  distinct := by
    have hfresh : m.name ∉ names := by
      rw [h.each, hm]
      simp
    split
    · rw [← List.concat_eq_append]
      exact List.Nodup.concat hfresh h.distinct
    · exact h.distinct
  each name := by
    have hmem : name ∈ (if m.isAbstract then names ++ [m.name] else names) ↔
        name ∈ names ∨ m.isAbstract ∧ name = m.name := by
      split
      · simp_all
      · simp_all
    rw [hmem, h.each name, List.find?_append]
    by_cases hname : m.name = name
    · subst hname
      simp [hm]
    · simp [hname, Ne.symm hname]

end ClassMember

namespace Class

section Own

variable {settle : String → Check Unit} (hsettle : ∀ C name, Leaves True C (settle name))
include hsettle

/-- Finding the type of a member declares nothing. -/
theorem spares_memberType (m : ClassMember) : Spares (m.type settle) := by
  cases m with
  | field f => exact (leaves_fieldType hsettle f).spares
  | method m => exact (leaves_methodType (C := .any) hsettle m).spares

variable {w : Walker} {s s' : Session} {ms : List ClassMember}

theorem says_of_type {m : ClassMember} (hs : s.Settled) (hw : w.typeVars = [])
    (h : m.type settle w s = some (t, s')) :
    m.Says settle s'
      { name := m.name, type := t, optional := m.optional, readonly := m.readonly } := by
  have hspared := spares_memberType hsettle m hs h
  exact ⟨rfl, rfl, rfl, w, s, s', h, hw, hspared.names.symm, hspared.enums.symm, .refl _⟩

open ClassMember

theorem ownFields_spec {fs : List ClassField} (hs : s.Settled)
    (hw : w.typeVars = []) (hdone : Lists settle s ms done)
    (h : ownFields settle fs done w s = some (out, s')) :
    s.Spared s' ∧ Lists settle s' (ms ++ fs.map .field) out := by
  induction fs generalizing ms done s with
  | nil =>
    cases h
    exact ⟨.refl _, by simpa using hdone⟩
  | cons f fs ih =>
    rw [List.map_cons, ← List.singleton_append, ← List.append_assoc]
    unfold ownFields at h
    split at h
    · next hany =>
      obtain ⟨_, t, hreport, h⟩ := bind_eq_some.1 h
      have hspared := spares_report _ _ hs hreport
      obtain ⟨hrest, hout⟩ := ih (hspared.settled hs)
        ((hdone.skip (m := .field f) hany).extended hspared.extended) h
      exact ⟨hspared.trans hrest, hout⟩
    · next hany =>
      obtain ⟨type, t, htype, h⟩ := bind_eq_some.1 h
      have hspared := spares_memberType hsettle (.field f) hs htype
      have hsaid := says_of_type hsettle (m := .field f) hs hw htype
      obtain ⟨hrest, hout⟩ := ih (hspared.settled hs)
        ((hdone.extended hspared.extended).add (m := .field f) hany hsaid) h
      exact ⟨hspared.trans hrest, hout⟩

theorem ownMethods_spec {fs : List FunctionDecl}
    {before : List String} (hs : s.Settled) (hw : w.typeVars = [])
    (hdone : Lists settle s ms done) (hbefore : Abstract ms before)
    (h : ownMethods settle fs done before w s = some ((out, abstracts), s')) :
    s.Spared s' ∧ Lists settle s' (ms ++ fs.map .method) out ∧
      Abstract (ms ++ fs.map .method) abstracts := by
  induction fs generalizing ms done before s with
  | nil =>
    cases h
    exact ⟨.refl _, by simpa using hdone, by simpa using hbefore⟩
  | cons f fs ih =>
    rw [List.map_cons, ← List.singleton_append, ← List.append_assoc]
    unfold ownMethods at h
    split at h
    · next hany =>
      obtain ⟨_, t, hreport, h⟩ := bind_eq_some.1 h
      have hspared := spares_report _ _ hs hreport
      obtain ⟨hrest, hout⟩ := ih (hspared.settled hs)
        ((hdone.skip (m := .method f) hany).extended hspared.extended)
        (hbefore.skip (m := .method f) ((hdone.any_iff _).mp hany)) h
      exact ⟨hspared.trans hrest, hout⟩
    · next hany =>
      obtain ⟨type, t, htype, h⟩ := bind_eq_some.1 h
      have hspared := spares_memberType hsettle (.method f) hs htype
      have hsaid := says_of_type hsettle (m := .method f) hs hw htype
      have hnew : ms.find? (·.name = (ClassMember.method f).name) = none := by
        rw [← Option.not_isSome_iff_eq_none, ← hdone.any_iff]
        exact hany
      obtain ⟨hrest, hout⟩ := ih (hspared.settled hs)
        ((hdone.extended hspared.extended).add (m := .method f) hany hsaid)
        (hbefore.add hnew) h
      exact ⟨hspared.trans hrest, hout⟩

/-- The members that a class declares, with the names of the abstract ones. -/
theorem ownMembers_spec {t : Session} {fields own : List Field} (hs : s.Settled)
    (hw : w.typeVars = [])
    (hfields : ownFields settle d.fields [] w s = some (fields, t))
    (hmethods : ownMethods settle d.methods fields [] w t = some ((own, abstracts), s')) :
    s.Spared s' ∧ Lists settle s' d.members own ∧ Abstract d.members abstracts := by
  have hnone : Lists settle s [] [] := ⟨List.nodup_nil, fun _ => .none⟩
  have habstract : Abstract (d.fields.map .field) [] := by
    refine ⟨List.nodup_nil, fun name => ⟨fun h => (nomatch h), ?_⟩⟩
    rintro ⟨m, hm, ha⟩
    obtain ⟨f, -, rfl⟩ := List.mem_map.mp (List.mem_of_find?_eq_some hm)
    cases ha
  obtain ⟨h1, hfs⟩ := ownFields_spec hsettle hs hw hnone hfields
  obtain ⟨h2, hlists, habstracts⟩ := ownMethods_spec hsettle
    (h1.settled hs) hw hfs habstract hmethods
  exact ⟨h1.trans h2, hlists, habstracts⟩

end Own

/-! ## One class over its base -/

section Step

variable (units : Array Declaration) (settle : String → Check Unit)

/-- Members and open abstract methods are those of some declarations: each field is what its
declaration says and the field of the class that declares it. -/
structure Matches (s : Session) (R : String → Nat → ClassMember → Prop)
    (field? : String → Option Field) (abstracts : List AbstractMethod) : Prop where
  present : ∀ name c m, R name c m → ∃ f info, field? name = some f ∧ m.Says settle s f ∧
    s.classAt units c = some info ∧ s.fieldOf info name = some f
  absent : ∀ name, (∀ c m, ¬R name c m) → field? name = none
  unimplemented : ∀ a, a ∈ abstracts ↔ ∃ c m d, R a.name c m ∧ m.isAbstract ∧
    units[c]? = some (.classDecl d) ∧ a.owner = d.name
  distinct : (abstracts.map AbstractMethod.name).Nodup

/-- The shape and the open abstract methods of a class are those of the nearest declarations. -/
structure Follows (s : Session) (u : Nat) (info : ClassInfo) : Prop where
  unit : info.unit = some u
  params : info.params = []
  isObject : (Ty.members? s.table info.instanceType).isSome
  nearest : Matches units settle s (fun name c m => Nearest units name u c m) (s.fieldOf info)
    info.abstracts

end Step

variable {units : Array Declaration} {settle : String → Check Unit} {P : String → Prop}
  {s s' : Session} {u : Nat}

theorem fieldOf_extended {name : String} {f : Field} (he : s.Extended s')
    (h : s.fieldOf info name = some f) : s'.fieldOf info name = some f := by
  obtain ⟨m, hm, hf⟩ := Option.bind_eq_some_iff.mp h
  exact Option.bind_eq_some_iff.mpr ⟨m, he.table.members? hm, hf⟩

theorem Matches.extended {R : String → Nat → ClassMember → Prop}
    {abstracts : List AbstractMethod} (h : Matches units settle s R field? abstracts)
    (he : s.Extended s') : Matches units settle s' R field? abstracts where
  present name c m hR := by
    obtain ⟨f, info, hf, hsaid, hclass, hfield⟩ := h.present name c m hR
    exact ⟨f, info, hf, hsaid.extended he, he.classAt hclass, fieldOf_extended he hfield⟩
  absent := h.absent
  unimplemented := h.unimplemented
  distinct := h.distinct

theorem Matches.congr {R R' : String → Nat → ClassMember → Prop}
    {field?' : String → Option Field} {abstracts : List AbstractMethod}
    (h : Matches units settle s R field? abstracts) (hR : ∀ name c m, R' name c m ↔ R name c m)
    (hfield : ∀ name, field?' name = field? name) :
    Matches units settle s R' field?' abstracts where
  present name c m hn := by
    rw [hfield]
    exact h.present name c m ((hR name c m).mp hn)
  absent name hn := by
    rw [hfield]
    exact h.absent name fun c m hn' => hn c m ((hR name c m).mpr hn')
  unimplemented a := by simpa only [hR] using h.unimplemented a
  distinct := h.distinct

theorem Follows.extended (h : Follows units settle s u info)
    (he : s.Extended s') : Follows units settle s' u info := by
  obtain ⟨m, hm⟩ := Option.isSome_iff_exists.mp h.isObject
  have hm' := he.table.members? hm
  refine ⟨h.unit, h.params, by rw [hm']; rfl, ?_⟩
  refine (h.nearest.extended he).congr (fun _ _ _ => .rfl) fun name => ?_
  rw [Session.fieldOf, Session.fieldOf, hm, hm']

/-- A list of fields with different names may be searched from either end. -/
theorem find?_reverse_of_nodup {fs : List Field} (h : (fs.map Field.name).Nodup) (name : String) :
    fs.reverse.find? (·.name = name) = fs.find? (·.name = name) := by
  induction fs with
  | nil => rfl
  | cons f fs ih =>
    obtain ⟨hf, hfs⟩ := List.nodup_cons.mp h
    rw [List.reverse_cons, List.find?_append, ih hfs]
    by_cases hname : f.name = name
    · have hnone : fs.find? (·.name = name) = none := by
        refine List.find?_eq_none.mpr fun g hg heq => hf ?_
        exact List.mem_map.mpr ⟨g, hg, by simpa [hname] using heq⟩
      simp [hname, hnone]
    · simp [hname]

section Over

variable {own : List Field} {before : List AbstractMethod} (hd : units[u]? = some (.classDecl d))
  (hown : ClassMember.Lists settle s d.members own)
  (hupper : Matches units settle s (fun name c m => Upper units name u c m) field? before)
include hd hown hupper

theorem mem_openAbstracts_iff (habstract : ClassMember.Abstract d.members abstracts)
    (a : AbstractMethod) :
    a ∈ abstracts.map (⟨·, d.name⟩) ++ before.filter (fun a => !own.any (·.name = a.name)) ↔
      ∃ c m e, Nearest units a.name u c m ∧ m.isAbstract ∧ units[c]? = some (.classDecl e) ∧
        a.owner = e.name := by
  have hmember : own.any (·.name = a.name) ↔ (d.member? a.name).isSome := hown.any_iff a.name
  rw [List.mem_append, List.mem_map, List.mem_filter]
  constructor
  · rintro (⟨n, hn, rfl⟩ | ⟨ha, hnot⟩)
    · obtain ⟨m, hm, habs⟩ := (habstract.each n).mp hn
      exact ⟨u, m, d, .own hd hm, habs, hd, rfl⟩
    · obtain ⟨c, m, e, hup, hrest⟩ := (hupper.unimplemented a).mp ha
      have hnone : d.member? a.name = none := by
        rw [← Option.not_isSome_iff_eq_none, ← hmember]
        simpa using hnot
      exact ⟨c, m, e, (nearest_iff hd).mpr (.inr ⟨hnone, hup⟩), hrest⟩
  · rintro ⟨c, m, e, hn, habs, he, howner⟩
    rcases (nearest_iff hd).mp hn with ⟨hm, rfl⟩ | ⟨hm, hup⟩
    · cases hd.symm.trans he
      exact .inl ⟨a.name, (habstract.each a.name).mpr ⟨m, hm, habs⟩, by rw [← howner]⟩
    · refine .inr ⟨(hupper.unimplemented a).mpr ⟨c, m, e, hup, habs, he, howner⟩, ?_⟩
      have hnot : ¬own.any (·.name = a.name) := by
        rw [hmember, hm]
        exact Bool.false_ne_true
      simpa using hnot

/-- Own members come before what is above. -/
theorem Matches.over (hclass : s.classes.lookup d.name = some info)
    (habstract : ClassMember.Abstract d.members abstracts)
    (hfield : ∀ name, s.fieldOf info name = (own.find? (·.name = name)).or (field? name)) :
    Matches units settle s (fun name c m => Nearest units name u c m) (s.fieldOf info)
      (abstracts.map (⟨·, d.name⟩) ++ before.filter fun a => !own.any (·.name = a.name)) := by
  have hat : s.classAt units u = some info := by
    rw [Session.classAt, hd]
    exact hclass
  refine ⟨fun name c m hn => ?_, fun name hn => ?_, fun a => ?_, ?_⟩
  · rcases (nearest_iff hd).mp hn with ⟨hm, rfl⟩ | ⟨hm, hup⟩
    · obtain ⟨f, hf, hsaid⟩ := hown.of_some hm
      have hfound : s.fieldOf info name = some f := by
        rw [hfield, hf]
        rfl
      exact ⟨f, info, hfound, hsaid, hat, hfound⟩
    · obtain ⟨f, info', hf, hrest⟩ := hupper.present name c m hup
      refine ⟨f, info', ?_, hrest⟩
      rw [hfield, hown.of_none hm, hf]
      rfl
  · have hm : d.member? name = none := by
      cases hm : d.member? name with
      | none => rfl
      | some m => exact absurd (.own hd hm) (hn u m)
    have hup (c : Nat) (m : ClassMember) : ¬Upper units name u c m :=
      fun hup => hn c m ((nearest_iff hd).mpr (.inr ⟨hm, hup⟩))
    rw [hfield, hown.of_none hm, hupper.absent name hup]
    rfl
  · exact mem_openAbstracts_iff hd hown hupper habstract a
  · rw [List.map_append, List.map_map]
    refine List.nodup_append.mpr ⟨by simpa [Function.comp_def] using habstract.distinct, ?_, ?_⟩
    · exact hupper.distinct.sublist (List.Sublist.map _ List.filter_sublist)
    · rintro n hn n' hn' rfl
      obtain ⟨a, ha, rfl⟩ := List.mem_map.mp hn'
      obtain ⟨m, hm, -⟩ := (habstract.each a.name).mp (by simpa using hn)
      have hany := (hown.any_iff a.name).mpr (by rw [hm]; rfl)
      have hnot := (List.mem_filter.mp ha).2
      simp only [hany, Bool.not_true] at hnot
      cases hnot

end Over

/-- What holds while classes are registered: those that are built follow the nearest
declarations. -/
structure Registry (units : Array Declaration) (settle : String → Check Unit) (s : Session) :
    Prop where
  keyed : s.table.Keyed
  settled : s.Settled
  named : ∀ (u : Nat) (d : ClassDecl), units[u]? = some (.classDecl d) → s.NamesClass d.name u
  follows : ∀ (u : Nat) (d : ClassDecl) (info : ClassInfo), units[u]? = some (.classDecl d) →
    s.classes.lookup d.name = some info → Follows units settle s u info

theorem Registry.of_extended (h : Registry units settle s) (he : s.Extended s') (hs : s'.Settled)
    (hnew : ∀ (u : Nat) (d : ClassDecl) (info : ClassInfo), units[u]? = some (.classDecl d) →
      s.classes.lookup d.name = none → s'.classes.lookup d.name = some info →
        Follows units settle s' u info) : Registry units settle s' where
  keyed := he.table.keyed h.keyed
  settled := hs
  named u d hd := by
    obtain ⟨decl, hlook, hdecl⟩ := h.named u d hd
    exact ⟨decl, he.names ▸ hlook, hdecl⟩
  follows u d info hd hinfo := by
    cases hold : s.classes.lookup d.name with
    | none => exact hnew u d info hd hold hinfo
    | some info' =>
      cases (he.classes _ _ hold).symm.trans hinfo
      exact (h.follows u d info hd hold).extended he

theorem Registry.of_spared (h : Registry units settle s) (hs : s.Spared s') :
    Registry units settle s' :=
  h.of_extended hs.extended (hs.settled h.settled) fun u d info _ hnone hsome => by
    rw [hs.classes, hnone] at hsome
    cases hsome

section Build

variable {w : Walker} (hsettle : ∀ C name, Leaves True C (settle name))

/-- A class is entered under its name. -/
theorem declare_spec {a : Unit} (hs : s.Settled) (h : declare d info w s = some (a, s')) :
    { s with classes := (d.name, info) :: s.classes }.Spared s' := by
  obtain ⟨_, t, hdefine, h⟩ := bind_eq_some.1 h
  obtain ⟨_, t', hupdate, h⟩ := bind_eq_some.1 h
  have h1 := spares_defineAlias _ _ _ _ hs hdefine
  cases hupdate
  have h2 : { t with classes := (d.name, info) :: t.classes }.Spared s' := by
    refine (?_ : Spares _) (h1.settled hs) h
    grind
  exact ⟨h1.table.trans h2.table, h2.names.trans h1.names, h2.enums.trans h1.enums,
    h2.classes.trans (congrArg ((d.name, info) :: ·) h1.classes),
    h2.registering.trans h1.registering,
    h2.pending.trans h1.pending⟩

theorem interning_eq {work : Interning α} {a : α}
    (h : (monadLift work : Check α) w s = some (a, s')) :
    a = (work s.table).1 ∧ s' = { s with table := (work s.table).2 } := by
  cases h
  exact ⟨rfl, rfl⟩

theorem session_bind (f : Session → Check α) :
    (session >>= f) w s = f s w s := rfl

theorem withTypeVars_nil (work : Check α) : Meaning.withTypeVars [] work = work := rfl

include hsettle

/-- From a base without type parameters its shape is inherited as it is. -/
theorem inherit_spec {base : ClassInfo} {i : Inherited} (hs : s.Settled)
    (hparams : base.params = []) (h : inherit settle ref base w s = some (i, s')) :
    s.Spared s' ∧ i.base = base ∧ i.shape = base.instanceType := by
  have hspared := (leaves_inherit (C := .any) hsettle ref base).spares hs h
  obtain ⟨bindings, t, hbindings, h⟩ := bind_eq_some.1 h
  obtain ⟨shape, t', hshape, h⟩ := bind_eq_some.1 h
  obtain ⟨arguments, t1, -, hbindings⟩ := bind_eq_some.1 hbindings
  obtain ⟨T, t2, -, hbindings⟩ := bind_eq_some.1 hbindings
  have hnone : bindings = [] := by
    rw [hparams] at hbindings
    split at hbindings
    · obtain ⟨_, _, -, hbindings⟩ := bind_eq_some.1 hbindings
      cases hbindings
      rfl
    · cases hbindings
      rfl
  subst hnone
  cases hshape
  cases h
  exact ⟨hspared, rfl, rfl⟩

/-- What a class passes on that has no base, or a base that follows the nearest declarations. -/
theorem inherited?_spec {findBase : BaseRef → Check (Option ClassInfo)} (hier : Hierarchy units)
    {inherited : Option Inherited} (hd : units[u]? = some (.classDecl d))
    (hreg : Registry units settle s)
    (hbase : ∀ ref, d.base = some ref → ∀ ⦃a t⦄, findBase ref w s = some (a, t) →
      ∃ v base, a = some base ∧ Inherits units u v ∧ Follows units settle t v base ∧
        Registry units settle t ∧ s.Enlarged P t)
    (h : inherited? settle d findBase w s = some (inherited, s')) :
    s.Enlarged P s' ∧ Registry units settle s' ∧
      ∃ fields : List Field, (fields.map Field.name).Nodup ∧
      (∀ T, s'.table.Keeps T → inheritedFields T inherited = fields) ∧
      Matches units settle s' (fun name c m => Upper units name u c m)
        (fun name => fields.find? (·.name = name))
        ((inherited.map fun i => i.base.abstracts).getD []) := by
  unfold inherited? at h
  cases href : d.base with
  | none =>
    rw [href] at h
    cases h
    have hnone {name : String} {c : Nat} {m : ClassMember} : ¬Upper units name u c m :=
      not_upper_of_root hd href
    refine ⟨(Session.Spared.refl s).enlarged, hreg, [], List.nodup_nil, fun _ _ => rfl, ?_⟩
    refine ⟨fun _ _ _ hup => absurd hup hnone, fun _ _ => rfl,
      fun a => ⟨fun ha => (nomatch ha), ?_⟩,
      List.nodup_nil⟩
    rintro ⟨c, m, e, hup, -⟩
    exact absurd hup hnone
  | some ref =>
    rw [href] at h
    obtain ⟨found, t, hfound, h⟩ := bind_eq_some.1 h
    obtain ⟨v, base, rfl, hv, hfollows, hreg', henlarged⟩ := hbase ref href hfound
    obtain ⟨i, t', hinherit, h⟩ := bind_eq_some.1 h
    obtain ⟨hspared, hi, hshape⟩ :=
      inherit_spec hsettle hreg'.settled hfollows.params hinherit
    cases h
    have hreg'' := hreg'.of_spared hspared
    have hfollows' := hfollows.extended hspared.extended
    obtain ⟨m, hm⟩ := Option.isSome_iff_exists.mp hfollows'.isObject
    refine ⟨henlarged.trans hspared.enlarged, hreg'', m.fields, hreg''.keyed.nodup_fields hm,
      fun T hT => ?_, ?_⟩
    · simp only [inheritedFields, Option.bind_some, hshape, hT.members? hm, Option.map_some,
        Option.getD_some]
    · simp only [Option.map_some, Option.getD_some, hi]
      refine hfollows'.nearest.congr (fun _ _ _ => hier.upper_iff hv) fun name => ?_
      rw [Session.fieldOf, hm]
      rfl

/-- **One class over its base.** If the classes that are built follow the nearest declarations, then
so does the one that is built next. -/
theorem build_spec {findBase : BaseRef → Check (Option ClassInfo)} (hier : Hierarchy units)
    (hd : units[u]? = some (.classDecl d)) (hreg : Registry units settle s)
    (hw : w.typeVars = []) (hbase : ∀ ref, d.base = some ref → ∀ ⦃t a t'⦄, s.Spared t →
      findBase ref w t = some (a, t') → ∃ v base, a = some base ∧ Inherits units u v ∧
        Follows units settle t' v base ∧ Registry units settle t' ∧ t.Enlarged P t')
    (hP : ¬P d.name) (hnew : s.classes.lookup d.name = none)
    (h : build settle u d findBase w s = some (info, s')) :
    s.Enlarged (fun name => name = d.name ∨ P name) s' ∧ Registry units settle s' ∧
      s'.classes.lookup d.name = some info := by
  obtain ⟨vars, _, hvars, h⟩ := bind_eq_some.1 h
  rw [hier.plain u d hd] at hvars
  cases hvars
  rw [withTypeVars_nil] at h
  obtain ⟨arguments, _, hargs, h⟩ := bind_eq_some.1 h
  cases hargs
  obtain ⟨reference, s1, h1, h⟩ := bind_eq_some.1 h
  obtain ⟨_, s2, h2, h⟩ := bind_eq_some.1 h
  obtain ⟨inherited, s3, h3, h⟩ := bind_eq_some.1 h
  obtain ⟨fields, s4, h4, h⟩ := bind_eq_some.1 h
  obtain ⟨⟨own, abstracts⟩, s5, h5, h⟩ := bind_eq_some.1 h
  obtain ⟨T, _, hT, h⟩ := bind_eq_some.1 h
  cases hT
  obtain ⟨instanceType, s6, h6, h⟩ := bind_eq_some.1 h
  obtain ⟨c, s7, h7, h⟩ := bind_eq_some.1 h
  obtain ⟨type, s8, h8, h⟩ := bind_eq_some.1 h
  obtain ⟨_, s9, h9, h⟩ := bind_eq_some.1 h
  cases h
  have hs := hreg.settled
  have k1 := spares_interning (Interning.keeps_referenceTo _ _) hs h1
  have k2 := k1.trans ((leaves_define (C := .any) rfl).spares (k1.settled hs) h2)
  obtain ⟨k3, hreg3, above, hnodup, hinherited, hupper⟩ := inherited?_spec hsettle hier hd
    (hreg.of_spared k2) (fun ref href _ _ hfound => hbase ref href k2 hfound) h3
  obtain ⟨k5, hown, habstract⟩ := ownMembers_spec hsettle hreg3.settled hw h4 h5
  have hreg5 := hreg3.of_spared k5
  have k6 := spares_interning (Interning.keeps_objectOf _) hreg5.settled h6
  have hs6 := k6.settled hreg5.settled
  have k7 := (leaves_constructorSignature (C := .any) hsettle d inherited).spares hs6 h7
  have k8 := k7.trans (spares_interning (Interning.keeps_classOf _ _ _) (k7.settled hs6) h8)
  have k9 := declare_spec (k8.settled hs6) h9
  -- The class is new, so that it is found under its name and all others are found as before.
  have hreg8 := hreg5.of_spared (k6.trans k8)
  have hbefore : s.Enlarged P s8 := (k2.enlarged.trans k3).trans
    ((k5.trans k6).trans k8).enlarged
  have hfree : s8.classes.lookup d.name = none := by rw [hbefore.others d.name hP, hnew]
  have hadded := (Session.Enlarged.add hfree).trans (k9.enlarged (P := (· = d.name)))
  have hclass := (congrArg (List.lookup d.name) k9.classes).trans List.lookup_cons_self
  refine ⟨(hbefore.mono fun _ => .inr).trans (hadded.mono fun _ => .inl), ?_, hclass⟩
  refine hreg8.of_extended hadded.toExtended (hadded.settled hreg8.settled) ?_
  intro x e info hx hnone hinfo
  by_cases hname : e.name = d.name
  · obtain rfl := hier.named u x d _ hd hx (congrArg some hname)
    cases hd.symm.trans hx
    cases hclass.symm.trans hinfo
    -- Its fields are those of the object type that was made before.
    obtain ⟨hmade, hleft⟩ := interning_eq h6
    obtain ⟨m, hm, hfields, -, -⟩ := Interning.members?_objectOf hreg5.keyed
      { fields := inheritedFields s5.table inherited ++ own }
    have hm' : Ty.members? s'.table instanceType = some m := by
      refine (k8.table.trans k9.table).members? ?_
      rw [hleft, hmade]
      exact hm
    refine ⟨rfl, rfl, by rw [hm']; rfl, ?_⟩
    have hlater : s5.Enlarged (· = d.name) s' := (k6.trans k8).enlarged.trans hadded
    refine Matches.over hd (hown.extended hlater.toExtended)
      (hupper.extended (k5.enlarged.trans hlater).toExtended) hclass habstract fun name => ?_
    rw [Session.fieldOf, hm', Option.bind_some, hfields, hinherited _ k5.table,
      List.reverse_append, List.find?_append, find?_reverse_of_nodup hown.distinct,
      find?_reverse_of_nodup hnodup]
  · rw [hadded.others e.name hname, hnone] at hinfo
    cases hinfo

end Build

/-! ## Chains of bases -/

/-- The name of a class on the way from a class to its root. -/
def Above (units : Array Declaration) (u : Nat) (name : String) : Prop :=
  ∃ (v : Nat) (d : ClassDecl), ReflTransGen (Inherits units) u v ∧ units[v]? = some (.classDecl d) ∧
    d.name = name

/-- The classes being built lead to the class, and so many steps are enough for the rest of the
chain. -/
structure Approach (units : Array Declaration) (n : Nat) (s : Session) (u : Nat) : Prop where
  leads : ∀ v ∈ s.registering, TransGen (Inherits units) v u
  distinct : s.registering.Nodup
  enough : units.size + 2 ≤ n + s.registering.length

theorem Inherits.lt_size (h : Inherits units u v) : u < units.size := by
  obtain ⟨d, _, _, hd, -⟩ := h
  exact (Array.getElem?_eq_some_iff.mp hd).1

theorem Approach.length_le (h : Approach units n s u) : s.registering.length ≤ units.size := by
  have hsub : s.registering ⊆ List.range units.size := by
    intro v hv
    obtain ⟨_, hfirst, -⟩ := TransGen.head'_iff.mp (h.leads v hv)
    exact List.mem_range.mpr hfirst.lt_size
  simpa using (h.distinct.subperm hsub).length_le

/-- A class being built is not built again while its bases are. -/
theorem Approach.not_mem (hier : Hierarchy units) (h : Approach units n s u) :
    u ∉ s.registering := fun hu => hier.acyclic u (h.leads u hu)

/-- The way to a class leads on to its base. -/
theorem Approach.base {t : Session} (hier : Hierarchy units)
    (h : Approach units (n + 1) s u) (hv : Inherits units u v)
    (ht : t.registering = u :: s.registering) : Approach units n t v where
  leads x hx := by
    rw [ht] at hx
    rcases List.mem_cons.mp hx with rfl | hx
    · exact .single hv
    · exact (h.leads x hx).tail hv
  distinct := by
    rw [ht]
    exact List.nodup_cons.mpr ⟨h.not_mem hier, h.distinct⟩
  enough := by
    have := h.enough
    rw [ht, List.length_cons]
    omega

/-- The name of a class is not above its base. -/
theorem Hierarchy.not_above (hier : Hierarchy units)
    (hd : units[u]? = some (.classDecl d)) (hv : Inherits units u v) : ¬Above units v d.name := by
  rintro ⟨x, e, hx, he, hname⟩
  obtain rfl := hier.named u x d _ hd he (congrArg some hname)
  exact hier.acyclic x (TransGen.head' hv hx)

section Run

variable {w : Walker} (hsettle : ∀ C name, Leaves True C (settle name))

/-- A declared class is found by registering it. -/
theorem findBase_eq {registerUnit : Nat → Check (Option ClassInfo)}
    (h : s.NamesClass ref.name v) : findBase registerUnit ref w s = registerUnit v w s := by
  obtain ⟨decl, hlook, hkind, hunit⟩ := h
  obtain ⟨kind, params, required, unit⟩ := decl
  cases hkind
  cases hunit
  unfold findBase
  rw [session_bind, hlook]

include hsettle

theorem buildOnce_spec {registerUnit : Nat → Check (Option ClassInfo)} (hier : Hierarchy units)
    (hd : units[u]? = some (.classDecl d)) (hreg : Registry units settle s)
    (hu : u ∉ s.registering) (hnew : s.classes.lookup d.name = none)
    (hbase : ∀ (v : Nat) (e : ClassDecl), Inherits units u v → units[v]? = some (.classDecl e) →
      ∀ ⦃w t a t'⦄, Registry units settle t → t.registering = u :: s.registering →
        registerUnit v w t = some (a, t') → t.Enlarged (Above units v) t' ∧
          Registry units settle t' ∧ ∃ info, a = some info ∧ t'.classes.lookup e.name = some info)
    (h : buildOnce settle registerUnit u d w s = some (a, s')) :
    s.Enlarged (Above units u) s' ∧ Registry units settle s' ∧
      ∃ info, a = some info ∧ s'.classes.lookup d.name = some info := by
  obtain ⟨w', hw', h⟩ := of_inUnit h
  rw [session_bind, if_neg (by simpa using hu)] at h
  obtain ⟨_, t, ht, h⟩ := bind_eq_some.1 h
  obtain ⟨info, t', hbuild, h⟩ := bind_eq_some.1 h
  obtain ⟨_, t'', hend, h⟩ := bind_eq_some.1 h
  cases h
  cases hend
  cases ht
  let started : Session :=
    { s with scopes := (s.scopes.add (some globals)).2, registering := u :: s.registering }
  have hstart : s.Extended started := ⟨.refl _, rfl, rfl, fun _ _ hold => hold⟩
  have hreg' : Registry units settle started :=
    hreg.of_extended hstart hreg.settled fun _ _ _ _ hnone hsome => by
      rw [show started.classes = s.classes from rfl, hnone] at hsome
      cases hsome
  have hbase' : ∀ ref, d.base = some ref → ∀ ⦃t a t'⦄, started.Spared t →
      findBase registerUnit ref w' t = some (a, t') → ∃ v base, a = some base ∧
        Inherits units u v ∧ Follows units settle t' v base ∧ Registry units settle t' ∧
          t.Enlarged (fun name => ∃ v, Inherits units u v ∧ Above units v name) t' := by
    intro ref href t a t' ht hfound
    obtain ⟨v, e, he, hname⟩ := hier.based u d ref hd href
    have hv : Inherits units u v := ⟨d, ref, e, hd, href, he, hname⟩
    have hregT := hreg'.of_spared ht
    rw [findBase_eq (hname ▸ hregT.named v e he)] at hfound
    obtain ⟨henlarged, hregT', base, rfl, hlook⟩ := hbase v e hv he hregT ht.registering hfound
    exact ⟨v, base, rfl, hv, hregT'.follows v e base he hlook, hregT',
      henlarged.mono fun name hn => ⟨v, hv, hn⟩⟩
  obtain ⟨hk, hreg'', hclass⟩ := build_spec hsettle hier hd hreg' hw' hbase'
    (fun ⟨v, hv, habove⟩ => hier.not_above hd hv habove) hnew hbuild
  have habove (name : String) (hn : name = d.name ∨ ∃ v, Inherits units u v ∧ Above units v name) :
      Above units u name := by
    rcases hn with rfl | ⟨v, hv, x, e, hx, he, hname⟩
    · exact ⟨u, d, .refl, hd, rfl⟩
    · exact ⟨x, e, hx.head hv, he, hname⟩
  have hend : t'.Extended { t' with registering := t'.registering.erase u } :=
    ⟨.refl _, rfl, rfl, fun _ _ hold => hold⟩
  have hrestored : t'.registering.erase u = s.registering := by
    rw [hk.registering]
    simp [started]
  refine ⟨⟨⟨hk.table, hk.names, hk.enums, hk.classes⟩, hrestored, hk.pending, fun name hn =>
    hk.others name fun hp => hn (habove name hp)⟩, ?_, info, rfl, hclass⟩
  refine hreg''.of_extended hend hreg''.settled fun x e info' _ hnone hsome => ?_
  cases hnone.symm.trans hsome

/-- **A class is registered over its chain of bases**, wherever these are declared. -/
theorem registerAt_spec (hier : Hierarchy units)
    (hd : units[u]? = some (.classDecl d)) (hreg : Registry units settle s)
    (happroach : Approach units n s u) (h : registerAt settle units n u w s = some (a, s')) :
    s.Enlarged (Above units u) s' ∧ Registry units settle s' ∧
      ∃ info, a = some info ∧ s'.classes.lookup d.name = some info := by
  induction n generalizing u d w s a s' with
  | zero =>
    have := happroach.length_le
    have := happroach.enough
    omega
  | succ n ih =>
    unfold registerAt at h
    simp only [hd] at h
    obtain ⟨known, _, hknown, h⟩ := bind_eq_some.1 h
    cases hknown
    cases hlook : s.classes.lookup d.name with
    | some info =>
      have hunit := (hreg.follows u d info hd hlook).unit
      simp only [hlook, Option.filter_some, hunit, decide_true, if_true] at h
      cases h
      exact ⟨(Session.Spared.refl s).enlarged, hreg, info, rfl, hlook⟩
    | none =>
      simp only [hlook, Option.filter_none] at h
      refine buildOnce_spec hsettle hier hd hreg (happroach.not_mem hier) hlook ?_ h
      intro v e hv he w' t b t' hregT hregistering hrun
      exact ih he hregT (happroach.base hier hv hregistering) hrun

/-- Registering one class after another. -/
theorem registerAll_spec (hier : Hierarchy units) {ps : List (Nat × Declaration)}
    (hps : ∀ p ∈ ps, units[p.1]? = some p.2) (hreg : Registry units settle s)
    (hidle : s.registering = [])
    (h : ps.forM (fun p => Pass.defineClass settle units p.1 p.2) w s = some ((), s')) :
    s.Extended s' ∧ Registry units settle s' ∧
      ∀ u d, (u, .classDecl d) ∈ ps → ∃ info, s'.classes.lookup d.name = some info := by
  induction ps generalizing s with
  | nil =>
    cases h
    exact ⟨(Session.Spared.refl _).extended, hreg, fun _ _ hmem => nomatch hmem⟩
  | cons p ps ih =>
    obtain ⟨_, t, hfirst, hrest⟩ := bind_eq_some.1 h
    obtain ⟨place, decl⟩ := p
    have hplace := hps _ List.mem_cons_self
    have hps' : ∀ p ∈ ps, units[p.1]? = some p.2 := fun q hq => hps q (List.mem_cons_of_mem _ hq)
    have hstep : s.Extended t ∧ t.registering = [] ∧ Registry units settle t ∧
        ∀ d, decl = .classDecl d → ∃ info, t.classes.lookup d.name = some info := by
      cases decl with
      | classDecl d =>
        obtain ⟨a, t', hat, hend⟩ := bind_eq_some.1 hfirst
        cases hend
        have happroach : Approach units (units.size + 2) s place :=
          ⟨fun v hv => by simp [hidle] at hv, by simp [hidle], by omega⟩
        obtain ⟨hk, hreg', info, -, hinfo⟩ := registerAt_spec hsettle hier hplace hreg happroach hat
        refine ⟨hk.toExtended, hk.registering.trans hidle, hreg', fun d' hd' => ?_⟩
        cases hd'
        exact ⟨info, hinfo⟩
      | _ =>
        cases hfirst
        exact ⟨(Session.Spared.refl _).extended, hidle, hreg, fun _ hd => nomatch hd⟩
    obtain ⟨hk, hidle', hreg', hclass⟩ := hstep
    obtain ⟨hk', hreg'', hclasses⟩ := ih hps' hreg' hidle' hrest
    refine ⟨hk.trans hk', hreg'', fun u d hmem => ?_⟩
    rcases List.mem_cons.mp hmem with heq | hmem
    · cases heq
      obtain ⟨info, hinfo⟩ := hclass d rfl
      exact ⟨info, hk'.classes _ _ hinfo⟩
    · exact hclasses u d hmem

end Run

/-! ## All classes of a program -/

/-- What a class passes on, in terms of the way to its root: it has a field if and only if a class
on the way declares it, and it is the field of the nearest such class. -/
structure FollowsNearest (units : Array Declaration) (s : Session) (u : Nat) (info : ClassInfo) :
    Prop where
  declared : ∀ name, (s.fieldOf info name).isSome ↔
    ∃ c, ReflTransGen (Inherits units) u c ∧ Declares units c name
  nearest : ∀ name c m, Nearest units name u c m → ∃ f info', s.fieldOf info name = some f ∧
    m.Says (Function.settle units) s f ∧
    s.classAt units c = some info' ∧ s.fieldOf info' name = some f
  unimplemented : ∀ name, name ∈ info.abstracts.map AbstractMethod.name ↔
    ∃ c m, Nearest units name u c (.method m) ∧ m.isAbstract
  distinct : (info.abstracts.map AbstractMethod.name).Nodup

theorem Follows.followsNearest
    (h : Follows units (Function.settle units) s u info) : FollowsNearest units s u info where
  declared name := by
    constructor
    · intro hsome
      by_contra hnone
      have habsent := h.nearest.absent name fun c m hn => hnone ⟨c, hn.reaches⟩
      rw [habsent] at hsome
      cases hsome
    · rintro ⟨c, hc, hdeclares⟩
      obtain ⟨c', m, hn⟩ := exists_nearest hc hdeclares
      obtain ⟨f, _, hf, -⟩ := h.nearest.present name c' m hn
      rw [hf]
      rfl
  nearest := h.nearest.present
  unimplemented name := by
    constructor
    · intro hmem
      obtain ⟨a, ha, rfl⟩ := List.mem_map.mp hmem
      obtain ⟨c, m, d, hn, habstract, -⟩ := (h.nearest.unimplemented a).mp ha
      cases m with
      | field f => cases habstract
      | method m => exact ⟨c, m, hn, habstract⟩
    · rintro ⟨c, m, hn, habstract⟩
      obtain ⟨d, hd, -⟩ := hn.reaches.2
      exact List.mem_map.mpr ⟨⟨name, d.name⟩,
        (h.nearest.unimplemented ⟨name, d.name⟩).mpr ⟨c, _, d, hn, habstract, hd, rfl⟩, rfl⟩
  distinct := h.nearest.distinct

/-- **Class shapes follow the nearest declaration.** In a program whose classes have no type
parameters and names of their own, and extend each other without a cycle, in whatever order they are
declared, the types of every class are those of the nearest declarations on the way to its root.
With annotated fields, and parameters annotated where they have initializers, the types are
defined. -/
theorem shapes_follow_nearest {units : Array Declaration} (hier : Hierarchy units) (w : Walker)
    (recorded : Array (Option Recorded)) :
    (∀ s, Pass.defineTypes units w { recorded } = some ((), s) →
      ∀ (u : Nat) (d : ClassDecl), units[u]? = some (.classDecl d) →
        ∃ info, s.classes.lookup d.name = some info ∧ info.unit = some u ∧
          FollowsNearest units s u info) ∧
    ((∀ (u : Nat) (d : Declaration), units[u]? = some d → d.annotated) →
      ∃ s, Pass.defineTypes units w { recorded } = some ((), s)) := by
  refine ⟨fun s h u d hd => ?_, fun h => ?_⟩
  · obtain ⟨reserved, t, hawaits, hplaces, hall, hrun⟩ := Pass.awaits_of_defines hier.named h
    have hreg : Registry units (Function.settle units) t :=
      ⟨hawaits.keyed, hawaits.settled, hawaits.named, fun u d info hd hinfo => by
        rw [hawaits.unbuilt u d hd] at hinfo
        cases hinfo⟩
    obtain ⟨-, hreg', hclasses⟩ := registerAll_spec Function.leaves_settle_settled hier hplaces hreg
      hawaits.idle hrun
    obtain ⟨info, hinfo⟩ := hclasses u d (hall u d hd)
    have hfollows := hreg'.follows u d info hd hinfo
    exact ⟨info, hinfo, hfollows.unit, hfollows.followsNearest⟩
  · obtain ⟨_, s, hs⟩ := Pass.returns_defineTypes h w { recorded }
    exact ⟨s, hs⟩

/-- A class without type parameters, with some fields of type `number` and an abstract method. -/
def sketch (name : String) (base : Option String) (fields : List (String × Bool))
    (abstract : List String) : Declaration :=
  .classDecl {
    position := {}, name, isAbstract := true, typeParams := [], implementing := []
    base := base.map fun b => { position := {}, name := b, arguments := [] }
    fields := fields.map fun f =>
      { position := {}, name := f.1, type := some (.reference {} "number" []), optional := f.2
        readonly := false, value := none }
    construction := none
    methods := abstract.map fun m =>
      { position := {}, name := m, isAbstract := true, signature := default, body := none } }

/-- Three classes, each declared before the class that it extends. -/
def derivedFirst : Array Declaration :=
  #[sketch "C" (some "B") [("x", true)] [], sketch "B" (some "A") [] ["x", "run"],
    sketch "A" none [("x", false), ("y", false)] []]

theorem hierarchy_derivedFirst : Hierarchy derivedFirst := by
  have hplace {u : Nat} {d : Declaration} (h : derivedFirst[u]? = some d) : u < 3 :=
    (Array.getElem?_eq_some_iff.mp h).1
  have hforward {u v : Nat} (h : Inherits derivedFirst u v) : u < v := by
    obtain ⟨d, ref, e, hd, href, he, hname⟩ := h
    have := hplace hd
    have := hplace he
    interval_cases u <;> interval_cases v <;> cases hd <;> cases href <;> cases he <;> simp_all
  refine ⟨?_, ?_, ?_, ?_⟩
  · intro u v d e hd he hname
    have := hplace hd
    have := hplace he
    interval_cases u <;> interval_cases v <;> cases hd <;> cases he <;>
      simp_all [derivedFirst, sketch, Declaration.typeName?]
  · intro u d hd
    have := hplace hd
    interval_cases u <;> cases hd <;> rfl
  · intro u d ref hd href
    have := hplace hd
    interval_cases u
    · cases hd
      cases href
      exact ⟨1, _, rfl, rfl⟩
    · cases hd
      cases href
      exact ⟨2, _, rfl, rfl⟩
    · cases hd
      cases href
  · intro u hu
    have hlt : ∀ v, TransGen (Inherits derivedFirst) u v → u < v := by
      intro v hv
      induction hv with
      | single h => exact hforward h
      | tail _ h ih => exact ih.trans (hforward h)
    exact absurd (hlt u hu) (Nat.lt_irrefl u)

/-- The class declared first has the optional field `x` of its own, in place of the abstract method
of its base. -/
theorem shapes_follow_nearest_derivedFirst : Hierarchy derivedFirst ∧ ∃ s info,
    Pass.defineTypes derivedFirst {} { recorded := #[] } = some ((), s) ∧
      s.classes.lookup "C" = some info ∧ FollowsNearest derivedFirst s 0 info ∧
      ∃ m, Nearest derivedFirst "x" 0 0 m := by
  obtain ⟨hshapes, hreturns⟩ := shapes_follow_nearest hierarchy_derivedFirst {} #[]
  obtain ⟨s, hs⟩ := hreturns fun u d hd => by
    have hu : u < 3 := (Array.getElem?_eq_some_iff.mp hd).1
    interval_cases u <;> cases hd <;> rfl
  obtain ⟨info, hinfo, -, hfollows⟩ := hshapes s hs 0 _ rfl
  exact ⟨hierarchy_derivedFirst, s, info, hs, hinfo, hfollows, _, .own rfl rfl⟩

end Class

end ShapeCheck
