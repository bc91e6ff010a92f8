import ShapeCheck.Proofs.Arity
import ShapeCheck.Proofs.Frames
import ShapeCheck.Proofs.Widening
import ShapeCheck.Proofs.WrittenRecords

/-!
# Access under a number

A property of an object literal is kept under its written digits, and a number in brackets is looked
up as numbers are printed. The two agree below a million; from there on numbers are printed with an
exponent.

* `Walk.silent_check_object` checks an object literal with literal values, and `Table.Records` says
  which fields the type of it has.
* `Access.run_index_object` says what a number finds in an object, and `Walk.check_index_of_mem` and
  `Walk.check_index_of_notMem` say it of the checked expression.
* `Walk.check_numeral` starts at the written text.
-/

namespace ShapeCheck

variable {α β : Type} {a : α} {e : Expr} {t o : Ty} {T : Table} {ps : List Property} {p : Property}
  {v : Binary64}

/-! ## Work that reports nothing -/

namespace Check

section Silence

variable {w : Walker} {s : Session} {Q : Table → α → Prop} {R : Table → β → Prop}

/-- The work ends, reports nothing and gives a value of which `Q` holds. The types that were there
stay. -/
def Silent (w : Walker) (s : Session) (work : Check α) (Q : Table → α → Prop) : Prop :=
  ∃ a s', work w s = some (a, s') ∧ s'.findings = s.findings ∧ s'.table.WellFormed ∧
    s.table ≤ s'.table ∧ Q s'.table a

theorem silent_pure (hT : s.table.WellFormed) (ha : Q s.table a) : Silent w s (pure a) Q :=
  ⟨a, s, rfl, rfl, hT, le_refl _, ha⟩

theorem Silent.bind {x : Check α} {f : α → Check β} (hx : Silent w s x Q)
    (hf : ∀ a s1, s1.table.WellFormed → s.table ≤ s1.table → Q s1.table a → Silent w s1 (f a) R) :
    Silent w s (x >>= f) R := by
  obtain ⟨a, s1, ha, hfindings, hT, hle, hq⟩ := hx
  obtain ⟨b, s2, hb, hfindings', hT', hle', hr⟩ := hf a s1 hT hle hq
  exact ⟨b, s2, bind_eq_some.2 ⟨a, s1, ha, hb⟩, hfindings'.trans hfindings, hT', hle.trans hle', hr⟩

theorem Silent.imp {work : Check α} {R : Table → α → Prop} (h : Silent w s work Q)
    (himp : ∀ T a, Q T a → R T a) : Silent w s work R := by
  obtain ⟨a, s', hrun, hfindings, hT, hle, hq⟩ := h
  exact ⟨a, s', hrun, hfindings, hT, hle, himp _ _ hq⟩

theorem silent_interning {work : Interning α} (h : Interning.Settles s.table work Q) :
    Silent w s (liftM work : Check α) Q := by
  obtain ⟨a, T, hat, hq⟩ := h
  exact ⟨a, { s with table := T }, typing_eq_some.mpr ⟨T, congrArg some hat.result, rfl⟩, rfl,
    hat.wellFormed, hat.adds.le, hq⟩

theorem table_bind (f : Table → Check α) : (table >>= f) w s = f s.table w s := rfl

theorem silent_typing {work : Typing α} (hT : s.table.WellFormed)
    (h : work w.steps s.table = some (a, s.table)) (ha : Q s.table a) :
    Silent w s (liftM work : Check α) Q :=
  ⟨a, s, typing_of_some h, rfl, hT, le_refl _, ha⟩

theorem silent_record (hT : s.table.WellFormed) (site : Site) (kind : NodeKind) (t : Ty) :
    Silent w s (record site kind t) fun T _ => T = s.table := by
  cases hquiet : w.quiet with
  | true =>
    refine ⟨(), s, ?_, rfl, hT, le_refl _, rfl⟩
    change (if !w.quiet then _ else _ : Check Unit) w s = _
    rw [hquiet]
    rfl
  | false =>
    let recorded := s.recorded.setIfInBounds site.number (some ⟨site.position, kind, t⟩)
    refine ⟨(), { s with recorded }, ?_, rfl, hT, le_refl _, rfl⟩
    change (if !w.quiet then _ else _ : Check Unit) w s = _
    rw [hquiet]
    rfl

theorem silent_recorded {type : Check Ty} {Q : Table → Ty → Prop} (site : Site) (kind : NodeKind)
    (h : Silent w s type Q) : Silent w s (Walk.recorded site kind type) Q :=
  h.bind fun t _ hT _ ht => (silent_record hT site kind t).bind fun _ _ hT' _ hsame =>
    silent_pure hT' (hsame ▸ ht)

end Silence

end Check

/-! ## Literal values -/

/-- The expression is a literal, and a property with this value has that type. -/
inductive Expr.Literal : Expr → Ty → Prop
  | number {site : Site} {v : Binary64} : Literal (.number site v) .number
  | string {site : Site} {text : String} : Literal (.string site text) .string
  | boolean {site : Site} {b : Bool} : Literal (.boolean site b) .boolean
  | bigint {site : Site} {digits : String} (h : (Decimal.whole? digits).isSome = true) :
    Literal (.bigint site digits) .bigint
  | null {site : Site} : Literal (.null site) .null
  | undefined {site : Site} : Literal (.undefined site) .undefined

theorem Expr.Literal.unique {u : Ty} (h : e.Literal t) (h' : e.Literal u) : t = u := by
  cases h <;> cases h' <;> rfl

theorem Expr.Literal.has (h : e.Literal t) (T : Table) : T.Has t := by
  cases h <;> exact T.has_prim _

variable {l : Literal}

theorem Ty.widen_literal (h : T.shape t = .literal l) : t.widen T = (.prim l.base, T) := by
  have hread : ((get : Interning Table) T).1.shape t = .literal l := h
  rw [Ty.widen, Interning.bind_apply, hread]
  simp only [widenMember, hread]
  rfl

theorem Ty.deepWiden_literal (h : T.shape t = .literal l) : t.deepWiden T = (.prim l.base, T) := by
  rw [Ty.deepWiden, Interning.deepWidenAt_of_not_container (by rw [h]; rfl), widen_literal h]

namespace Walk

open Check

variable {w : Walker} {s : Session} {settle : String → Check Unit}

theorem silent_literalOf (hT : s.table.WellFormed) (l : Literal) :
    Silent w s (liftM (Ty.literalOf l) : Check Ty) fun T u =>
      T.Has u ∧ u.deepWiden T = (.prim l.base, T) := by
  refine silent_interning ((Interning.gives_literalOf hT l).imp fun u T _ _ hu => ⟨hu.1, ?_⟩)
  cases hs : T.shape u with
  | literal k =>
    have halike := hu.2
    rw [hs] at halike
    rw [Ty.deepWiden_literal hs, halike.1]
  | _ => exact absurd hu.2 (by simp [hs, Shape.Alike])

/-- A literal reports nothing, and deep widening gives it the type of its properties. -/
theorem silent_check_literal (h : e.Literal t) (hT : s.table.WellFormed) (expected : Option Ty) :
    Silent w s (check settle e expected) fun T u => T.Has u ∧ u.deepWiden T = (t, T) := by
  cases h with
  | number | string | boolean =>
    rw [check]
    exact silent_recorded _ _ (silent_literalOf hT _)
  | bigint hdigits =>
    obtain ⟨n, hn⟩ := Option.isSome_iff_exists.mp hdigits
    rw [check, Meaning.bigint, hn]
    exact silent_recorded _ _ (silent_literalOf hT _)
  | null | undefined =>
    rw [check]
    exact silent_recorded _ _ (silent_pure hT ⟨Table.has_prim _ _, rfl⟩)

end Walk

/-! ## Object literals -/

/-- The field that an entry with a literal value makes. -/
structure Property.Makes (p : Property) (f : Field) : Prop where
  name : f.name = p.key
  type : p.value.Literal f.type
  required : f.optional = false

/-- The type is that of an object literal with these entries. -/
def Table.Records (T : Table) (o : Ty) (ps : List Property) : Prop :=
  ∃ m, T.shape o = .object m ∧ m.index = none ∧
    (∀ p ∈ ps, ∃ f, m.field? p.key = some f ∧ p.Makes f) ∧
    ∀ name, name ∉ ps.map Property.key → m.field? name = none

theorem Table.Records.of_le {T1 : Table} (h : T.Records o ps) (hle : T ≤ T1) : T1.Records o ps := by
  obtain ⟨m, hm, hrest⟩ := h
  exact ⟨m, (shape_of_le hle (has_of_shape (by simp [hm]))).trans hm, hrest⟩

namespace Walk

open Check

variable {w : Walker} {s : Session} {settle : String → Check Unit}

/-- The entries make one field each, in order. -/
theorem silent_fields (hT : s.table.WellFormed) (hvalues : ∀ p ∈ ps, ∃ t, p.value.Literal t)
    (done : List Field) (hkeys : (done.map Field.name ++ ps.map Property.key).Nodup) :
    Silent w s (Operator.fields none (properties settle ps) done) fun _ fs =>
      ∃ made, fs = done ++ made ∧ List.Forall₂ Property.Makes ps made := by
  induction ps generalizing s done with
  | nil => exact silent_pure hT ⟨[], (List.append_nil done).symm, .nil⟩
  | cons p ps ih =>
    obtain ⟨position, key, value⟩ := p
    obtain ⟨t, ht⟩ := hvalues _ List.mem_cons_self
    have hnew : done.any (·.name = key) = false := by
      simp only [List.any_eq_false, decide_eq_true_eq]
      intro f hf hname
      exact (List.nodup_append.mp hkeys).2.2 _ (List.mem_map_of_mem hf) key List.mem_cons_self hname
    rw [properties, Operator.fields]
    refine Silent.bind (Q := fun T o => o = none) (silent_pure hT rfl) fun o s1 hT1 _ ho => ?_
    subst ho
    refine (silent_check_literal ht hT1 none).bind fun u s2 hT2 _ hu => ?_
    rw [hnew, if_neg Bool.false_ne_true]
    have hwiden : Silent w s2 (Operator.widenElement u none) fun _ v => v = t :=
      silent_typing hT2 (congrArg some hu.2) rfl
    refine hwiden.bind fun v s3 hT3 _ hv => ?_
    subst hv
    have hkeys' : ((done ++ [({ name := key, type := v } : Field)]).map Field.name ++
        ps.map Property.key).Nodup := by simpa [Property.key] using hkeys
    refine (ih hT3 (fun p hp => hvalues p (List.mem_cons_of_mem _ hp)) _ hkeys').imp ?_
    rintro T fs ⟨made, rfl, hmade⟩
    exact ⟨{ name := key, type := v } :: made, by simp, .cons ⟨rfl, ht, rfl⟩ hmade⟩

end Walk

section Records

variable {fs : List Field}

theorem map_name_of_makes (h : List.Forall₂ Property.Makes ps fs) :
    fs.map Field.name = ps.map Property.key := by
  induction h with
  | nil => rfl
  | cons hf _ ih => rw [List.map_cons, List.map_cons, hf.name, ih]

/-- An object made with these fields has the entries. -/
theorem Table.records_of_makes (hmade : List.Forall₂ Property.Makes ps fs)
    (hkeys : (ps.map Property.key).Nodup)
    (ho : (T.shape o).Alike Eq (Interning.objectShape { fields := fs })) : T.Records o ps := by
  have hnames := map_name_of_makes hmade
  have hdistinct : (fs.map Field.name).Nodup := hnames ▸ hkeys
  rw [Interning.objectShape, Interning.foldl_putField_self hdistinct] at ho
  cases hs : T.shape o with
  | object m =>
    rw [hs] at ho
    have hsame := Members.Alike.fields ho
    have hindex : m.index = none := by
      cases hi : m.index with
      | none => rfl
      | some i => exact absurd (exists_of_option_rel (Members.Alike.index ho) hi) (by simp)
    refine ⟨m, hs, hindex, fun p hp => ?_, fun name hname => ?_⟩
    · obtain ⟨f, hf, hmakes⟩ := exists_of_forall₂ hmade hp
      have hfound : Members.field? { fields := fs } f.name = some f :=
        (Members.mem_fields_iff hdistinct).mp hf
      have hrel := hsame f.name
      rw [hfound, hmakes.name] at hrel
      cases hg : m.field? p.key with
      | none => simp [hg] at hrel
      | some g =>
        rw [hg, Option.rel_some_some] at hrel
        obtain ⟨htype, hoptional, -⟩ := hrel
        exact ⟨g, rfl, (Members.mem_of_field? hg).2, htype ▸ hmakes.type,
          hoptional.trans hmakes.required⟩
    · have hfound : Members.field? { fields := fs } name = none := by
        refine List.find?_eq_none.mpr fun f hf hname' => hname ?_
        rw [← hnames, ← of_decide_eq_true hname']
        exact List.mem_map_of_mem hf
      have hrel := hsame name
      rw [hfound] at hrel
      cases hg : m.field? name with
      | none => rfl
      | some g => simp [hg] at hrel
  | _ => exact absurd ho (by simp [hs, Shape.Alike])

end Records

/-! ## Access under a number -/

/-- The type is a number literal that is printed as this number is. -/
def Table.Spells (T : Table) (k : Ty) (v : Binary64) : Prop :=
  ∃ y : Binary64, T.shape k = .literal (.number y) ∧ y.text = v.text

namespace Access

open Check

variable {w : Walker} {s : Session} {k : Ty}

section Numbers

variable {m : Members} {y : Binary64} (hm : s.table.shape o = .object m) (hindex : m.index = none)
  (hy : s.table.shape k = .literal (.number y))

include hm

theorem run_resolve_object : (liftM o.resolve : Check Ty) w s = some (o, s) :=
  typing_of_some (Ty.resolve_closed w.steps (by rw [Ty.hasOpenHead, hm]))

include hindex

theorem run_property_object (hsteps : 0 < w.steps) (name : String) :
    (liftM (o.property? name) : Check (Option Field)) w s = some (m.field? name, s) := by
  obtain ⟨n, hn⟩ : ∃ n, w.steps = n + 1 := ⟨w.steps - 1, by omega⟩
  refine typing_of_some ?_
  rw [hn, Ty.property?_of_isPlain (by rw [hm]; rfl), hm]
  change some (Ty.memberProperty? m name, s.table) = _
  rw [Ty.memberProperty?, hindex]
  cases m.field? name <;> rfl

/-- An object without an index signature has nothing for numbers in general. -/
theorem run_elementsOf_object : elementsOf .number (s.table.members o) w s = some (none, s) := by
  have hmembers : s.table.members o = [o] := by simp [Table.members, hm]
  have helement : elementOf o .number w s = some (none, s) := by
    have hnumeric : (liftM (Ty.number.isAssignableTo .number) : Check Bool) w s = some (true, s) :=
      typing_of_some (Ty.isAssignableTo_self _ _ _)
    unfold elementOf
    rw [bind_of_some hnumeric, table_bind, hm]
    simp only [hindex]
    rfl
  rw [hmembers, elementsOf, bind_of_some (run_resolve_object hm), bind_of_some helement]
  rfl

include hy

theorem run_byKey_object : byKey o o k w s = some (.error (.notAnIndex k o), s) := by
  have hwiden : (liftM k.widen : Check Ty) w s = some (.number, s) :=
    typing_of_some (congrArg some (Ty.widen_literal hy))
  have hshape : s.table.shape .number = .primitive .number := rfl
  unfold byKey
  rw [bind_of_some hwiden, table_bind, hshape]
  dsimp only
  rw [pure_bind, table_bind, bind_of_some (run_elementsOf_object hm hindex)]
  rfl

/-- What a number finds in an object without optional fields is what its text finds among the
fields. -/
theorem run_index_object (hsteps : 0 < w.steps)
    (hrequired : ∀ f ∈ m.field? y.text, f.optional = false) :
    index o k w s =
      some (((m.field? y.text).map fun f => .ok f.type).getD (.error (.notAnIndex k o)), s) := by
  have hplain : ¬((decide (o = .any) || decide (o = .invalid)) = true) := by
    rw [Bool.or_eq_true, decide_eq_true_eq, decide_eq_true_eq]
    rintro (rfl | rfl) <;> simp [Table.shape] at hm
  have hliteral : literal? s.table k = some (.number y) := by
    simp [literal?, Ty.enumValue?, Table.literal?, hy]
  unfold index
  rw [bind_of_some (run_resolve_object hm), if_neg hplain, table_bind]
  simp only [hm, hliteral]
  rw [key, bind_of_some (run_property_object hm hindex hsteps _)]
  cases hfield : m.field? y.text with
  | some f =>
    dsimp only
    rw [hrequired f hfield]
    rfl
  | none =>
    dsimp only
    rw [noProperty, table_bind, hm]
    dsimp only
    exact run_byKey_object hm hindex hy

end Numbers

/-- A number finds the entry that has its text for a key. -/
theorem run_index_of_mem (hsteps : 0 < w.steps) (ho : s.table.Records o ps)
    (hk : s.table.Spells k v) (hp : p ∈ ps) (hkey : p.key = v.text) (ht : p.value.Literal t) :
    index o k w s = some (.ok t, s) := by
  obtain ⟨m, hm, hindex, hpresent, -⟩ := ho
  obtain ⟨y, hy, htext⟩ := hk
  obtain ⟨f, hf, hmakes⟩ := hpresent p hp
  rw [hkey, ← htext] at hf
  have hrequired : ∀ g ∈ m.field? y.text, g.optional = false := by
    intro g hg
    obtain rfl := Option.some.inj (hf.symm.trans hg)
    exact hmakes.required
  rw [run_index_object hm hindex hy hsteps hrequired, hf, ht.unique hmakes.type]
  rfl

/-- A number that has no entry is no index of the object. -/
theorem run_index_of_notMem (hsteps : 0 < w.steps) (ho : s.table.Records o ps)
    (hk : s.table.Spells k v) (hkey : v.text ∉ ps.map Property.key) :
    index o k w s = some (.error (.notAnIndex k o), s) := by
  obtain ⟨m, hm, hindex, -, habsent⟩ := ho
  obtain ⟨y, hy, htext⟩ := hk
  have hnone : m.field? y.text = none := by rw [htext, habsent _ hkey]
  rw [run_index_object hm hindex hy hsteps (by simp [hnone]), hnone]
  rfl

end Access

namespace Walk

open Check

variable {w : Walker} {s : Session} {settle : String → Check Unit}

/-- An object literal with literal values under different keys reports nothing and has its
entries. -/
theorem silent_check_object (hT : s.table.WellFormed) (hvalues : ∀ p ∈ ps, ∃ t, p.value.Literal t)
    (hkeys : (ps.map Property.key).Nodup) (site : Site) :
    Silent w s (check settle (.object site ps) none) fun T o => T.Records o ps := by
  rw [check]
  refine silent_recorded _ _ ((silent_fields hT hvalues [] hkeys).bind fun fs s1 hT1 _ hfs => ?_)
  obtain ⟨_, rfl, hmade⟩ := hfs
  have hparts : ∀ p ∈ (Shape.object { fields := fs }).parts, s1.table.Has p := by
    refine Shape.forall_parts_object.mpr ⟨fun f hf => ?_, by simp, by simp⟩
    obtain ⟨p, -, hp⟩ := exists_of_forall₂ hmade.flip hf
    exact hp.type.has _
  exact silent_interning ((Interning.gives_objectOf hT1 hparts).imp fun o T _ _ ho =>
    Table.records_of_makes hmade hkeys ho.2)

/-- A number literal reports nothing, and its type spells the number. -/
theorem silent_check_number (hT : s.table.WellFormed) (site : Site) (v : Binary64)
    (expected : Option Ty) :
    Silent w s (check settle (.number site v) expected) fun T k => T.Spells k v := by
  rw [check]
  refine silent_recorded _ _ (silent_interning ((Interning.gives_literalOf hT _).imp
    fun k T _ _ hk => ?_))
  have halike := hk.2
  cases hs : T.shape k with
  | literal l =>
    rw [hs] at halike
    cases l with
    | number y => exact ⟨y, hs, halike.2⟩
    | _ => simp [Shape.Alike, Literal.base] at halike
  | _ => simp [hs, Shape.Alike] at halike

/-- An object literal and the number literal behind it report nothing. -/
theorem silent_check_parts (settle : String → Check Unit) (hT : s.table.WellFormed)
    (hvalues : ∀ p ∈ ps, ∃ t, p.value.Literal t) (hkeys : (ps.map Property.key).Nodup)
    (own inner : Site) (v : Binary64) :
    Silent w s (do
      return (← check settle (.object own ps) none, ← check settle (.number inner v) none))
      fun T p => T.Records p.1 ps ∧ T.Spells p.2 v :=
  (silent_check_object hT hvalues hkeys own).bind fun _ _ hT1 _ ho =>
    (silent_check_number hT1 inner v none).bind fun _ _ hT2 hle hk =>
      silent_pure hT2 ⟨ho.of_le hle, hk⟩

/-- The parts of an access are checked first. -/
theorem run_check_index {own inner : Site} {k : Ty} {s1 : Session}
    (hparts : (do return (← check settle (.object own ps) none,
    ← check settle (.number inner v) none) :
      Check (Ty × Ty)) w s = some ((o, k), s1)) (site : Site) (expected : Option Ty) :
    check settle (.index site (.object own ps) (.number inner v)) expected w s =
      recorded site .index (indexAccess site.position (pure o) (pure k)) w s1 := by
  obtain ⟨o', s2, ho, hparts⟩ := bind_eq_some.1 hparts
  obtain ⟨k', s3, hk, hparts⟩ := bind_eq_some.1 hparts
  obtain ⟨hpair, rfl⟩ := Prod.mk.inj (Option.some.inj hparts)
  obtain ⟨rfl, rfl⟩ := Prod.mk.inj hpair
  rw [check, recorded, indexAccess, bind_assoc, bind_of_some ho, bind_assoc, bind_of_some hk]
  rfl

/-- **An access under a number finds what is written as the number is printed.** Take an object
literal with literal values under different keys. -/
theorem check_index_of_mem (hT : s.table.WellFormed) (hsteps : 0 < w.steps)
    (hvalues : ∀ p ∈ ps, ∃ t, p.value.Literal t) (hkeys : (ps.map Property.key).Nodup) (hp : p ∈ ps)
    (hkey : p.key = v.text)
    (ht : p.value.Literal t) (site own inner : Site) (expected : Option Ty) :
    ∃ s', check settle (.index site (.object own ps) (.number inner v)) expected w s =
    some (t, s') ∧
      s'.findings = s.findings := by
  obtain ⟨⟨o, k⟩, s1, hparts, hfindings, hT1, -, ho, hk⟩ :=
    silent_check_parts (w := w) settle hT hvalues hkeys own inner v
  have hindex : Silent w s1 (indexAccess site.position (pure o) (pure k)) fun _ u => u = t := by
    refine ⟨t, s1, ?_, rfl, hT1, le_refl _, rfl⟩
    rw [indexAccess, pure_bind, pure_bind, bind_of_some
      (Access.run_index_of_mem hsteps ho hk hp hkey ht)]
    rfl
  obtain ⟨_, s2, hrun, hfindings2, -, -, rfl⟩ := silent_recorded site .index hindex
  exact ⟨s2, (run_check_index hparts site expected).trans hrun, hfindings2.trans hfindings⟩

/-- A number without an entry is reported. -/
theorem check_index_of_notMem (hT : s.table.WellFormed) (hsteps : 0 < w.steps)
    (hw : w.quiet = false)
    (hvalues : ∀ p ∈ ps, ∃ t, p.value.Literal t) (hkeys : (ps.map Property.key).Nodup)
    (hkey : v.text ∉ ps.map Property.key) (site own inner : Site)
    (expected : Option Ty) :
    ∃ o k s', check settle (.index site (.object own ps) (.number inner v)) expected w s =
        some (.invalid, s') ∧ s'.table.Records o ps ∧ s'.table.Spells k v ∧
      s'.findings = s.findings.push ⟨w.unit, site.position, .notAnIndex k o⟩ := by
  obtain ⟨⟨o, k⟩, s1, hparts, hfindings, hT1, -, ho, hk⟩ :=
    silent_check_parts (w := w) settle hT hvalues hkeys own inner v
  have hindex : indexAccess site.position (pure o) (pure k) w s1 = some (.invalid,
      { s1 with findings := s1.findings.push ⟨w.unit, site.position, .notAnIndex k o⟩ }) := by
    rw [indexAccess, pure_bind, pure_bind, bind_of_some
      (Access.run_index_of_notMem hsteps ho hk hkey)]
    dsimp only
    rw [bind_of_some (Call.report_eq hw)]
    rfl
  obtain ⟨_, s2, hrecord, hfindings2, -, -, hsame⟩ := silent_record (w := w)
    (s := { s1 with findings := s1.findings.push ⟨w.unit, site.position, .notAnIndex k o⟩ }) hT1
    site
    .index .invalid
  refine ⟨o, k, s2, ?_, hsame ▸ ho, hsame ▸ hk, hfindings2.trans (by rw [hfindings])⟩
  rw [run_check_index hparts, recorded, bind_of_some hindex, bind_of_some hrecord]
  rfl

end Walk

/-! ## Written accesses -/

/-- The digits of a number, as one word. -/
def Word.numeral (n : Nat) : Word := ⟨.number, utf8Bytes (String.ofList (Nat.toDigits 10 n))⟩

theorem Word.Reads.literal {v : Word} {e' : Expr} (h : v.Reads e) (h' : v.Reads e')
    (ht : e.Literal t) : e'.Literal t := by
  cases h <;> cases h' <;> cases ht
  case bigint.bigint.bigint hdigits => exact .bigint hdigits
  all_goals constructor

namespace Snippet

/-- The text is an object literal with literal values under different keys, and a natural number in
brackets behind it. -/
structure WrittenAccess (text : String) (xs : List WrittenEntry) (n : Nat) : Prop where
  words : ∃ row, EntryRow xs row ∧ (Scan.ofText text).map Token.word = .symbol .leftBrace ::
    (row ++ [.symbol .rightBrace, .symbol .leftBracket, .numeral n,
    .symbol .rightBracket, .endOfInput])
  keys : (xs.map fun x => x.key.text).Nodup
  isKey : ∀ x ∈ xs, x.key.isKey = true
  value : ∀ x ∈ xs, ∃ e t, x.value.Reads e ∧ e.Literal t

variable {text : String} {xs : List WrittenEntry} {n : Nat}

theorem map_key_of_reads (h : List.Forall₂ WrittenEntry.Reads xs ps) :
    ps.map Property.key = xs.map fun x => x.key.text := by
  induction h with
  | nil => rfl
  | cons hp _ ih => rw [List.map_cons, List.map_cons, hp.key, ih]

/-- Reading it gives an access to entries with these keys under the double. -/
theorem WrittenAccess.reading (h : WrittenAccess text xs n) (hn : n < 2 ^ 53) (base : Position) :
    ∃ site own inner ps, readExpression text base =
        ⟨some (.index site (.object own ps) (.number inner (.ofNat n))), []⟩ ∧
      List.Forall₂ WrittenEntry.Reads xs ps ∧ (ps.map Property.key).Nodup ∧
      ∀ p ∈ ps, ∃ t, p.value.Literal t := by
  obtain ⟨row, hrow, hws⟩ := h.words
  have hv : Decimal.read? (ofUtf8Bytes (Word.numeral n).literal) = .ok (.ofNat n) := by
    rw [Word.numeral, ofUtf8Bytes_utf8Bytes, Decimal.read?_toDigits hn]
  have hplain : ∀ x ∈ xs, x.IsPlain := by
    intro x hx
    obtain ⟨e, _, he, -⟩ := h.value x hx
    exact ⟨h.isKey x hx, e, he⟩
  obtain ⟨site, own, inner, ps, hread, hps⟩ := readExpression_access hrow hplain hv hws base
  refine ⟨site, own, inner, ps, hread, hps, map_key_of_reads hps ▸ h.keys, fun p hp => ?_⟩
  obtain ⟨x, hx, hreads⟩ := exists_of_forall₂ hps.flip hp
  obtain ⟨e, t, he, ht⟩ := h.value x hx
  exact ⟨t, he.literal hreads.value ht⟩

theorem text_numeral (n : Nat) : (Word.numeral n).text = String.ofList (Nat.toDigits 10 n) := by
  rw [Word.numeral, Word.text, ofUtf8Bytes_utf8Bytes]

end Snippet

namespace Walk

open Check Snippet

variable {text : String} {xs : List WrittenEntry} {n : Nat}

/-- **A number finds the property with its digits below a million.** Take the text of an object
literal with literal values under different keys, and a natural number of at most 53 bits in
brackets behind it that is the key of one of the properties. The text is read without an error. The
number is looked up as it is printed, and this is its row of digits exactly below a million: then
nothing is reported, and the access has the type of the property. From a million on the number is
printed with an exponent. A property with this text for a key is found in its place; if there is
none, the number is reported as no index of the object. -/
theorem check_numeral (h : WrittenAccess text xs n) (hn : n < 2 ^ 53)
    {x : WrittenEntry} (hx : x ∈ xs)
    (hkey : x.key.text = (Word.numeral n).text) {e : Expr} {t : Ty} (he : x.value.Reads e)
    (ht : e.Literal t) (base : Position) :
    ∃ access, readExpression text base = ⟨some access, []⟩ ∧
      ((Binary64.ofNat n).text = (Word.numeral n).text ↔ n < 10 ^ 6) ∧
      ∀ (settle : String → Check Unit) (expected : Option Ty) (w : Walker) (s : Session),
        s.table.WellFormed → 0 < w.steps →
          (n < 10 ^ 6 → ∃ s', check settle access expected w s = some (t, s') ∧
            s'.findings = s.findings) ∧
          (∀ y ∈ xs, y.key.text = (Binary64.ofNat n).text → ∀ e u, y.value.Reads e → e.Literal u →
            ∃ s', check settle access expected w s = some (u, s') ∧ s'.findings = s.findings) ∧
          ((Binary64.ofNat n).text ∉ xs.map (fun y => y.key.text) → w.quiet = false →
            ∃ o k s', check settle access expected w s = some (.invalid, s') ∧
              s'.table.Spells k (.ofNat n) ∧
              s'.findings = s.findings.push ⟨w.unit, access.position, .notAnIndex k o⟩) := by
  obtain ⟨site, own, inner, ps, hread, hps, hkeys, hvalues⟩ := h.reading hn base
  have hprinted : (Binary64.ofNat n).text = (Word.numeral n).text ↔ n < 10 ^ 6 :=
    text_numeral n ▸ Binary64.text_ofNat_eq_iff hn
  refine ⟨_, hread, hprinted, fun settle expected w s hT hsteps => ?_⟩
  have hfound : ∀ y ∈ xs, y.key.text = (Binary64.ofNat n).text → ∀ e u,
    y.value.Reads e → e.Literal u →
      ∃ s', check settle (.index site (.object own ps) (.number inner (.ofNat n))) expected w s =
        some (u, s') ∧ s'.findings = s.findings := by
    intro y hy hkey e u he hu
    obtain ⟨p, hp, hreads⟩ := exists_of_forall₂ hps hy
    exact check_index_of_mem hT hsteps hvalues hkeys hp (hreads.key.trans hkey)
      (he.literal hreads.value hu) site own inner expected
  refine ⟨fun hsmall => hfound x hx (hkey.trans (hprinted.mpr hsmall).symm) e t he ht, hfound,
    fun hnone hw => ?_⟩
  obtain ⟨o, k, s', hrun, -, hk, hfindings⟩ := check_index_of_notMem hT hsteps hw hvalues hkeys
    (map_key_of_reads hps ▸ hnone) site own inner expected
  exact ⟨o, k, s', hrun, hk, hfindings⟩

/-- The largest number that finds its digits, with another property behind it and a comma at the
end. -/
def belowMillion : String := "\x7b 999999: 'a', b: null, \x7d[999999]"

/-- The properties in it. -/
def belowMillionEntries : List WrittenEntry :=
  [⟨.numeral 999999, ⟨.string, utf8Bytes "a"⟩⟩, ⟨.name "b", .keyword .null⟩]

theorem writtenAccess_belowMillion : WrittenAccess belowMillion belowMillionEntries 999999 where
  words := ⟨_, .more (.more .nil), by decide +kernel⟩
  keys := by decide +kernel
  isKey := by decide +kernel
  value := List.forall_mem_cons.mpr ⟨⟨.string {} _, _, .string, .string⟩,
    List.forall_mem_singleton.mpr ⟨.null {}, _, .null, .null⟩⟩

theorem check_numeral_belowMillion : WrittenAccess belowMillion belowMillionEntries 999999 ∧
    ∃ access s', readExpression belowMillion {} = ⟨some access, []⟩ ∧
      check (fun _ => pure ()) access none {} {} = some (.string, s') ∧ s'.findings = #[] := by
  have hx : (⟨.numeral 999999, ⟨.string, utf8Bytes "a"⟩⟩ : WrittenEntry) ∈ belowMillionEntries :=
    List.mem_cons_self
  have he : Word.Reads ⟨.string, utf8Bytes "a"⟩ (.string {} _) := .string
  obtain ⟨access, hread, -, hcheck⟩ :=
    check_numeral writtenAccess_belowMillion (by decide) hx rfl he .string {}
  obtain ⟨s', hrun, hfindings⟩ := (hcheck (fun _ => pure ()) none {} {} Table.WellFormed.empty
    (by decide)).1 (by decide)
  exact ⟨writtenAccess_belowMillion, access, s', hread, hrun, hfindings⟩

/-- A million, as the key of a property and behind the object. -/
def million : String := "\x7b 1000000: 'a' \x7d[1000000]"

/-- The property in it. -/
def millionEntries : List WrittenEntry := [⟨.numeral 1000000, ⟨.string, utf8Bytes "a"⟩⟩]

theorem writtenAccess_million : WrittenAccess million millionEntries 1000000 where
  words := ⟨_, .last, by decide +kernel⟩
  keys := by decide +kernel
  isKey := by decide +kernel
  value := List.forall_mem_singleton.mpr ⟨.string {} _, _, .string, .string⟩

/-- **A million does not find the property with its digits.** -/
theorem not_check_numeral_million : ¬∀ (text : String) (xs : List WrittenEntry) (n : Nat),
    WrittenAccess text xs n → n < 2 ^ 53 → ∀ x ∈ xs, x.key.text = (Word.numeral n).text →
      ∀ e t, x.value.Reads e → e.Literal t → ∃ access s',
      readExpression text {} = ⟨some access, []⟩ ∧
        check (fun _ => pure ()) access none {} {} = some (t, s') ∧ s'.findings = #[] := by
  intro h
  obtain ⟨access, s', hread, hrun, -⟩ := h million millionEntries 1000000 writtenAccess_million
    (by decide) _ List.mem_cons_self rfl (.string {} _) .string .string .string
  obtain ⟨site, own, inner, ps, hread', hps, hkeys, hvalues⟩ :=
    writtenAccess_million.reading (by decide) {}
  obtain rfl := Option.some.inj (congrArg Reading.tree (hread.symm.trans hread'))
  have hnone : (Binary64.ofNat 1000000).text ∉ ps.map Property.key := by
    rw [map_key_of_reads hps]
    intro hmem
    have hsame := (List.mem_singleton.mp hmem).trans (text_numeral 1000000)
    exact absurd ((Binary64.text_ofNat_eq_iff (by decide)).mp hsame) (by decide)
  obtain ⟨o, k, s'', hrun', -⟩ := check_index_of_notMem (w := {}) (s := {}) Table.WellFormed.empty
    (by decide) rfl hvalues hkeys hnone site own inner none
  exact absurd (Prod.mk.inj (Option.some.inj (hrun.symm.trans hrun'))).1 (by decide)

end Walk

end ShapeCheck
