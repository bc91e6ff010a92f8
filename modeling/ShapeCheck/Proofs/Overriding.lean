import ShapeCheck.Proofs.LastingFits
import ShapeCheck.Proofs.Inheritance

/-!
# Overriding members

A class may replace members of its base, and each replacement whose type does not fit the replaced
one is reported. Instances of the class fit the base if nothing is reported, unless a member that
must be there is replaced by one that may be absent: that is not reported.

* `Assign.holds_objects` says that objects fit whose fields do.
* `Class.fits_base_of_silent` is the result for a class of which nothing is reported.
-/

namespace ShapeCheck

variable {α : Type} {t : Ty} {m : Members} {xs : List α} {name c : String}

open Check

/-! ## Comparing objects -/

namespace Assign

variable {T T1 : Table}

theorem has_of_members? (h : Ty.members? T t = some m) : T.Has t := by
  have hs := Table.shape_of_members? h
  cases t with
  | made i =>
    cases he : T.entries[i]? with
    | none => simp [Table.shape, he] at hs
    | some e => exact (Array.getElem?_eq_some_iff.mp he).1
  | prim p => cases h
  | truth b => cases h

theorem has_type_of_members? (hT : T.WellFormed) (h : Ty.members? T t = some m)
    {f : Field} (hf : f ∈ m.fields) : T.Has f.type := by
  refine hT.has_part (has_of_members? h) ?_
  rw [Table.shape_of_members? h]
  simp only [Shape.parts, List.mem_append, List.mem_map]
  exact .inl (.inl ⟨f, hf, rfl⟩)

theorem exists_made_of_members? (h : Ty.members? T t = some m) : ∃ i, t = .made i := by
  cases t with
  | made i => exact ⟨i, rfl⟩
  | prim p => cases h
  | truth b => cases h

theorem members?_of_le {T' : Table} (hle : T ≤ T')
    (h : Ty.members? T t = some m) : Ty.members? T' t = some m := by
  unfold Ty.members?
  rw [Table.shape_of_le hle (has_of_members? h), Table.shape_of_members? h]

theorem all_eq_true {test : α → Typing Bool} {n : Nat}
    (h : ∀ a ∈ xs, test a n T = some (true, T)) : all test xs n T = some (true, T) := by
  induction xs with
  | nil => rfl
  | cons a xs ih =>
    unfold all
    rw [Typing.bind_of_some (h a List.mem_cons_self)]
    exact ih fun x hx => h x (List.mem_cons_of_mem _ hx)

variable {a b : Ty} {own inherited : Members}

/-- What has to hold of the fields of two objects for one layer of the rules to confirm that they
fit. -/
def FieldsFit (R : Table → Ty → Ty → Prop) (T : Table) (own inherited : Members) : Prop :=
  ∀ f ∈ inherited.fields, ∃ g, own.field? f.name = some g ∧
    (g.optional = true → f.optional = true) ∧ R T g.type f.type

/-- Objects without index and call signatures are compared field by field. -/
theorem FieldsFit.unfolds {R : Table → Ty → Ty → Prop} (h : FieldsFit R T own inherited)
    (ha : Ty.members? T a = some own) (hb : Ty.members? T b = some inherited)
    (hindex : inherited.index = none) (hcalls : inherited.calls = []) : Unfolds R T a b := by
  have hsa := Table.shape_of_members? ha
  have hsb := Table.shape_of_members? hb
  obtain ⟨i, rfl⟩ := exists_made_of_members? ha
  obtain ⟨j, rfl⟩ := exists_made_of_members? hb
  have hnullish : (Ty.made i).isNullish = false := rfl
  refine ⟨0, T, fun n _ => ?_⟩
  have hfield : ∀ f ∈ inherited.fields, field (asking R) (.made i) f n T = some (true, T) := by
    intro f hf
    obtain ⟨g, hg, hoptional, hR⟩ := h f hf
    have hread : (Ty.made i).ownField? f.name n T = some (some g, T) := by
      unfold Ty.ownField?
      rw [Typing.get_bind, hsa, ← hg]
      rfl
    have hflags : ¬(g.optional && !f.optional) = true := by
      cases hgo : g.optional with
      | false => simp
      | true => simp [hoptional hgo]
    rw [field, Typing.bind_of_some hread, found, if_neg hflags]
    exact congrArg (fun b => some (b, T)) (truthOf_eq_true hR)
  unfold step
  cases hid : byIdentity (.made i) (.made j) with
  | some verdict =>
    have : verdict = true := by simp_all [byIdentity]
    rw [this]
    rfl
  | none =>
    simp only [Typing.get_bind, hsa, hsb, stepResolved, toEnum, byAtom, structural, toObject]
    by_cases hempty : inherited.isEmpty = true
    · rw [if_pos hempty]
      rfl
    · simp only [hempty, hnullish, Bool.false_eq_true, if_false, Typing.get_bind, hsb]
      rw [Typing.bind_of_some (all_eq_true hfield), if_pos rfl, hindex, hcalls]
      rfl

/-- **Objects fit whose fields do**, in the given table and in every later one. -/
theorem holds_objects (hle : T1 ≤ T) (ha : Ty.members? T1 a = some own)
    (hb : Ty.members? T1 b = some inherited) (hindex : inherited.index = none)
    (hcalls : inherited.calls = []) (h : FieldsFit Lasts T1 own inherited) : Holds T a b := by
  refine ⟨fun T p q => ((p, q) = (a, b) ∧ T1 ≤ T) ∨ Lasts T p q, ?_, .inl ⟨rfl, hle⟩⟩
  rintro U p q hU - - (⟨hpq, hU1⟩ | hlasts)
  · obtain ⟨rfl, rfl⟩ := Prod.mk.inj hpq
    refine FieldsFit.unfolds (fun f hf => ?_) (members?_of_le hU1 ha) (members?_of_le hU1 hb) hindex
      hcalls
    obtain ⟨g, hg, hoptional, hfits⟩ := h f hf
    exact ⟨g, hg, hoptional, .inr (hfits.of_le hU1)⟩
  · exact hlasts.unfolds hU fun _ _ _ => .inr

end Assign

namespace Class

/-! ## The shape of a class over that of its base -/

/-- An object type whose members are those of another with members that a class declares put over
them. -/
structure Overlays (T : Table) (d : ClassDecl) (t base : Ty) (m n : Members) : Prop where
  own : Ty.members? T t = some m
  inherited : Ty.members? T base = some n
  index : n.index = none
  calls : n.calls = []
  covers : ∀ f ∈ n.fields, ∃ g, m.field? f.name = some g ∧ (g = f ∨ (d.member? f.name).isSome)

variable {d : ClassDecl} {info : ClassInfo} {base : Ty} {own inherited : Members} {w : Walker}
  {s s' : Session}

/-! ## Silent overrides -/

/-- What a check of overrides leaves: later answers and, if nothing was reported, members whose
types fit for good. -/
structure Checked (own inherited : Members) (names : List String) (s s' : Session) : Prop where
  calls : Relation.ReflTransGen Table.Called s.table s'.table
  reported : s.findings.size ≤ s'.findings.size
  fits : s'.findings.size = s.findings.size → ∀ name ∈ names, ∀ f g,
    inherited.field? name = some f → own.field? name = some g →
      Assign.Lasts s'.table g.type f.type

/-- The check of one member. -/
theorem checked_checkOverride {position : Position}
    (hown : Ty.members? s.table info.instanceType = some own) (hbase : info.base = some base)
    (hinherited : Ty.members? s.table base = some inherited) (hresolved : s.table.Resolved)
    (hquiet : w.quiet = false) (h : checkOverride c info position name w s = some ((), s')) :
    Checked own inherited [name] s s' := by
  obtain ⟨T, _, hT, h⟩ := bind_eq_some.1 h
  cases hT
  simp only [hbase, Option.bind_some, hinherited, hown] at h
  cases hf : inherited.field? name with
  | none =>
    rw [hf] at h
    cases h
    exact ⟨.refl, Nat.le_refl _, by simp [hf]⟩
  | some f =>
    cases hg : own.field? name with
    | none =>
      rw [hf, hg] at h
      cases h
      exact ⟨.refl, Nat.le_refl _, by simp [hg]⟩
    | some g =>
      rw [hf, hg] at h
      obtain ⟨fit, t, hask, h⟩ := bind_eq_some.1 h
      obtain ⟨T, hrun, rfl⟩ := typing_eq_some.mp hask
      have hwell := hresolved.truthful.sound.wellFormed
      have hgs := Assign.has_type_of_members? hwell hown (List.mem_of_find?_eq_some hg)
      have hfs := Assign.has_type_of_members? hwell hinherited (List.mem_of_find?_eq_some hf)
      have hcalled : Relation.ReflTransGen Table.Called s.table T :=
        .single (.assignable hgs hfs hrun)
      cases fit with
      | true =>
        cases h
        refine ⟨hcalled, Nat.le_refl _, ?_⟩
        rintro - n hn f' g' hf' hg'
        cases List.mem_singleton.mp hn
        cases hf.symm.trans hf'
        cases hg.symm.trans hg'
        exact (hresolved.truthful.lasts_asked hresolved.lasts hgs hfs hrun).1 rfl
      | false =>
        change (if !w.quiet then _ else _ : Check Unit) w _ = _ at h
        rw [hquiet] at h
        cases h
        have hmore : (s.findings.push ⟨w.unit, position,
            .unassignable g.type f.type (.overriding c)⟩).size = s.findings.size + 1 := by
          rw [Array.size_push]
        exact ⟨hcalled, by rw [hmore]; omega,
          fun hsize => absurd (hmore.symm.trans hsize) (by omega)⟩

theorem Checked.trans {names names' : List String} {t : Session}
    (h : Checked own inherited names s t) (h' : Checked own inherited names' t s')
    (ht : t.table.Resolved) : Checked own inherited (names ++ names') s s' where
  calls := h.calls.trans h'.calls
  reported := Nat.le_trans h.reported h'.reported
  fits hsize name hname f g hf hg := by
    have := h.reported
    have := h'.reported
    rcases List.mem_append.mp hname with hname | hname
    · exact (h.fits (by omega) name hname f g hf hg).of_le (ht.truthful.succeeds h'.calls).1.le
    · exact h'.fits (by omega) name hname f g hf hg

/-- One member after another. -/
theorem checked_forM {position : α → Position} {name : α → String}
    (hown : Ty.members? s.table info.instanceType = some own)
    (hbase : info.base = some base) (hinherited : Ty.members? s.table base = some inherited)
    (hresolved : s.table.Resolved) (hquiet : w.quiet = false)
    (h : xs.forM (fun x => checkOverride c info (position x) (name x)) w s = some ((), s')) :
    Checked own inherited (xs.map name) s s' := by
  induction xs generalizing s with
  | nil =>
    cases h
    exact ⟨.refl, Nat.le_refl _, fun _ _ hname => nomatch hname⟩
  | cons x xs ih =>
    obtain ⟨_, t, hfirst, hrest⟩ := bind_eq_some.1 h
    have hchecked := checked_checkOverride hown hbase hinherited hresolved hquiet hfirst
    have hle := (hresolved.truthful.succeeds hchecked.calls).1.le
    have ht := hresolved.calls hchecked.calls
    exact hchecked.trans (ih (Assign.members?_of_le hle hown) (Assign.members?_of_le hle hinherited)
      ht hrest) ht

theorem checked_checkOverrides (hown : Ty.members? s.table info.instanceType = some own)
    (hbase : info.base = some base) (hinherited : Ty.members? s.table base = some inherited)
    (hresolved : s.table.Resolved) (hquiet : w.quiet = false)
    (h : checkOverrides d info w s = some ((), s')) :
    Checked own inherited (d.members.map ClassMember.name) s s' := by
  obtain ⟨_, t, hfields, hmethods⟩ := bind_eq_some.1 h
  have hfirst := checked_forM hown hbase hinherited hresolved hquiet hfields
  have hle := (hresolved.truthful.succeeds hfirst.calls).1.le
  have ht := hresolved.calls hfirst.calls
  have hsecond := checked_forM (Assign.members?_of_le hle hown) hbase
    (Assign.members?_of_le hle hinherited) ht hquiet hmethods
  have hnames : d.members.map ClassMember.name =
      d.fields.map (·.name) ++ d.methods.map (·.name) := by
    simp [ClassDecl.members, ClassMember.name, Function.comp_def]
  rw [hnames]
  exact hfirst.trans hsecond ht

theorem mem_names_of_member? (h : (d.member? name).isSome) :
    name ∈ d.members.map ClassMember.name := by
  obtain ⟨m, hm⟩ := Option.isSome_iff_exists.mp h
  exact List.mem_map.mpr ⟨m, List.mem_of_find?_eq_some hm, by simpa using List.find?_some hm⟩

/-- **Instances fit the base if no override is reported**, and if no member that must be there is
replaced by one that may be absent. Whatever is done with types afterwards, the rules confirm it,
and it is what is answered. -/
theorem fits_base_of_silent (hover : Overlays s.table d info.instanceType base own inherited)
    (hbase : info.base = some base) (hresolved : s.table.Resolved) (hquiet : w.quiet = false)
    (hflags : ∀ name f g, inherited.field? name = some f → own.field? name = some g →
      g.optional = true → f.optional = true)
    (hrun : checkOverrides d info w s = some ((), s'))
    (hsilent : s'.findings.size = s.findings.size)
    {T : Table} (hcalls : Relation.ReflTransGen Table.Called s'.table T) :
    Assign.Holds T info.instanceType base ∧
      ∀ n fit T1, info.instanceType.isAssignableTo base n T = some (fit, T1) → fit = true := by
  have hchecked := checked_checkOverrides hover.own hbase hover.inherited hresolved hquiet hrun
  have hle := (hresolved.truthful.succeeds hchecked.calls).1.le
  have hresolved' := hresolved.calls hchecked.calls
  have hlater := (hresolved'.truthful.succeeds hcalls).1.le
  have hT := (hresolved'.calls hcalls).truthful
  have hown := Assign.members?_of_le hle hover.own
  have hinherited := Assign.members?_of_le hle hover.inherited
  have hnodup : (inherited.fields.map Field.name).Nodup := by
    have htidy := hresolved.truthful.sound.wellFormed.tidy base
    rwa [Table.shape_of_members? hover.inherited] at htidy
  have hfits : Assign.FieldsFit Assign.Lasts s'.table own inherited := by
    intro f hf
    obtain ⟨g, hg, hsame⟩ := hover.covers f hf
    have hf' := (Members.mem_fields_iff hnodup).mp hf
    refine ⟨g, hg, hflags f.name f g hf' hg, ?_⟩
    rcases hsame with rfl | hdeclared
    · exact Assign.lasts_self _ _
    · exact hchecked.fits hsilent f.name (mem_names_of_member? hdeclared) f g hf' hg
  have hholds {U : Table} (hU : T ≤ U) : Assign.Holds U info.instanceType base :=
    Assign.holds_objects (hlater.trans hU) hown hinherited hover.index hover.calls hfits
  refine ⟨hholds (le_refl T), fun n fit T1 hask => ?_⟩
  obtain ⟨hsucceeds, hsettles⟩ := hT.asked
    (Table.has_of_le hlater (Assign.has_of_members? hown))
    (Table.has_of_le hlater (Assign.has_of_members? hinherited)) hask
  exact (hsettles.answered T1 hsettles.truthful.sound (le_refl T1)).mpr
    (hholds hsucceeds.le)

/-! ## Two classes that replace a field -/

/-- An object type with one field. -/
def oneField (t : Ty) : Construction := .object { fields := [{ name := "x", type := t }] }

/-- A table with an object type that has a boolean field. -/
def flagged : Table := ((oneField .boolean).run {}).2

/-- The same table with an object type in which that field is `true`, frozen. -/
def narrowed : Table := (Alias.freeze ((oneField (.truth true)).run flagged).2).2

theorem resolved_narrowed : narrowed.Resolved := by
  have h1 : flagged.Prepared := by
    refine .call .empty (.construct (oneField .boolean) ?_ trivial)
    simp [oneField, Construction.inputs, Shape.parts]
  have h2 : ((oneField (.truth true)).run flagged).2.Prepared := by
    refine .call h1 (.construct (oneField (.truth true)) ?_ trivial)
    simp [oneField, Construction.inputs, Shape.parts]
  exact h2.frozen (by decide +kernel)

/-- The second type as the shape of a class, over the first. -/
def narrowedInfo : ClassInfo :=
  { type := .any, reference := .any, base := some ((oneField .boolean).run {}).1
    instanceType := ((oneField (.truth true)).run flagged).1 }

/-- A class that declares the field. -/
def narrowing : ClassDecl :=
  { position := {}, name := "B", isAbstract := false, typeParams := [], implementing := []
    base := none
    fields := [{ position := {}, name := "x", type := none, optional := false, readonly := true
                 value := none }]
    construction := none, methods := [] }

/-- A field that is `true` replaces a boolean one: nothing is reported, and instances fit. -/
theorem fits_base_of_silent_narrowed : ∃ s' : Session,
    checkOverrides narrowing narrowedInfo {} { table := narrowed, recorded := #[] } =
    some ((), s') ∧
      s'.findings.size = 0 ∧ ∃ base, narrowedInfo.base = some base ∧
        Assign.Holds s'.table narrowedInfo.instanceType base := by
  have hcomputed : (checkOverrides narrowing narrowedInfo {}
      { table := narrowed, recorded := #[] }).map (fun p => p.2.findings.size) = some 0 := by
    decide +kernel
  obtain ⟨⟨_, s'⟩, hrun, hsize⟩ := Option.map_eq_some_iff.mp hcomputed
  let own : Members := { fields := [{ name := "x", type := .truth true }] }
  let inherited : Members := { fields := [{ name := "x", type := .boolean }] }
  have hover : Overlays narrowed narrowing narrowedInfo.instanceType ((oneField .boolean).run {}).1
      own inherited := by
    refine ⟨by decide +kernel, by decide +kernel, rfl, rfl, ?_⟩
    intro f hf
    cases List.mem_singleton.mp hf
    exact ⟨_, rfl, .inr rfl⟩
  refine ⟨s', hrun, hsize, _, rfl, ?_⟩
  refine (fits_base_of_silent (s := { table := narrowed, recorded := #[] }) hover rfl
    resolved_narrowed rfl ?_ hrun hsize .refl).1
  intro name f g _ hg hoptional
  cases List.mem_singleton.mp (List.mem_of_find?_eq_some hg)
  cases hoptional

/-- A class with a field, and a class that extends it in which the field may be absent. -/
def looserOverride : Array Declaration :=
  #[sketch "A" none [("x", false)] [], sketch "B" (some "A") [("x", true)] []]

/-- What is reported of the overrides of a class, and whether its instances fit the base. -/
def overrideReport (units : Array Declaration) (u : Nat) : Check (Nat × Option Bool) := do
  let _ ← Pass.declareUnits [] (units.toList.zipIdx.map fun (d, i) => (i, d))
  match units[u]?, ← registerAt (Function.settle units) units (units.size + 2) u with
  | some (.classDecl d), some info =>
    checkOverrides d info
    let fit ← info.base.mapM fun base => (info.instanceType.isAssignableTo base : Check Bool)
    return ((← session).findings.size, fit)
  | _, _ => return (0, none)

/-- **A field that may be absent replaces one that must be there unreported**, and instances do not
fit the base. -/
theorem overrideReport_looserOverride :
    (overrideReport looserOverride 1 {} { recorded := #[] }).map Prod.fst =
      some (0, some false) := by decide +kernel

end Class

end ShapeCheck
