import ShapeCheck.Proofs.Inheritance
import Mathlib.Data.List.Perm.Basic

/-!
# Interfaces of one name

The declarations of one interface name are read one after another. The first property of a name
decides its type and its flags; a later one is compared in its type alone, and with the place of the
first. So what is merged depends on the order only in the flags, and conflicts only in properties
that one declaration repeats.

* `Interface.Joins` says that properties agree with those read before, `Interface.Collects` what has
  been collected of them.
* `Interface.register_spec` says what a group of declarations defines, and when a conflict is
  reported.
* `Interface.merged_alike` compares two orders of the declarations.
-/

namespace ShapeCheck

variable {α : Type} {first : List Index} {p q f f' : Field × Nat} {i : Index} {work : Check α}
  {a : Unit} {position : Position} {unit : Nat} {ps : List PropertySpec}
  {ds : List (Nat × InterfaceDecl)} {name : String}

open Check

/-- The number of conflicts between declarations reported so far. -/
def Session.conflicts (s : Session) : Nat :=
  s.findings.countP fun f => f.problem.kind = .declarationConflict

/-- Work that reports no conflict between declarations and defines no alias, as long as no type
parameters are in scope. -/
def Check.Reading {α : Type} (work : Check α) : Prop :=
  ∀ ⦃w s a s'⦄, w.typeVars = [] → work w s = some (a, s') → s'.conflicts = s.conflicts ∧
    s'.table.frozen = s.table.frozen ∧ s'.table.aliases.map Alias.name =
    s.table.aliases.map Alias.name

namespace Interface

/-! ## Properties that agree -/

/-- A property that has the type of the first one of its name, which another declaration has. -/
def Agrees (before : List (Field × Nat)) (p : Field × Nat) : Prop :=
  ∀ q, before.find? (·.1.name = p.1.name) = some q → q.1.type = p.1.type ∧ q.2 ≠ p.2

/-- Properties each of which agrees with those before it. -/
def Joins : List (Field × Nat) → List (Field × Nat) → Prop
  | _, [] => True
  | before, p :: rest => Agrees before p ∧ Joins (before ++ [p]) rest

/-- Index signatures each of which is the first one. -/
def JoinsIndex : List Index → List Index → Prop
  | _, [] => True
  | before, i :: rest => (∀ j, before.head? = some j → j = i) ∧ JoinsIndex (before ++ [i]) rest

section Lists

variable {before fs gs : List (Field × Nat)} {is js : List Index}

theorem joins_append : Joins before (fs ++ gs) ↔ Joins before fs ∧ Joins (before ++ fs) gs := by
  induction fs generalizing before with
  | nil => simp [Joins]
  | cons p fs ih => simp [Joins, ih, and_assoc]

theorem joinsIndex_append :
    JoinsIndex first (is ++ js) ↔ JoinsIndex first is ∧ JoinsIndex (first ++ is) js := by
  induction is generalizing first with
  | nil => simp [JoinsIndex]
  | cons i is ih => simp [JoinsIndex, ih, and_assoc]

/-- Where properties agree, the first one of a name has the type of each. -/
theorem Joins.type_eq (h : Joins [] fs) (hp : p ∈ fs)
    (hq : fs.find? (·.1.name = p.1.name) = some q) : q.1.type = p.1.type := by
  obtain ⟨l, r, rfl⟩ := List.append_of_mem hp
  obtain ⟨-, hagrees, -⟩ := joins_append.mp h
  rw [List.nil_append] at hagrees
  cases hl : l.find? (·.1.name = p.1.name) with
  | none =>
    rw [List.find?_append, hl, Option.none_or, List.find?_cons_of_pos (by simp)] at hq
    cases hq
    rfl
  | some q' =>
    rw [List.find?_append, hl, Option.some_or] at hq
    cases hq
    exact (hagrees q hl).1

/-- Properties agree that have one type for each name, if no declaration repeats one. -/
theorem joins_of_types (htypes : ∀ p ∈ before ++ fs, ∀ q ∈ before ++ fs, p.1.name = q.1.name →
      p.1.type = q.1.type)
    (hnodup : ((before ++ fs).map fun p => (p.1.name, p.2)).Nodup) : Joins before fs := by
  induction fs generalizing before with
  | nil => trivial
  | cons p fs ih =>
    refine ⟨fun q hq => ?_, ih (by simpa using htypes) (by simpa using hnodup)⟩
    have hmem := List.mem_of_find?_eq_some hq
    have hname : q.1.name = p.1.name := by simpa using List.find?_some hq
    refine ⟨htypes q (by simp [hmem]) p (by simp) hname, fun hplace => ?_⟩
    rw [List.map_append, List.nodup_append] at hnodup
    exact hnodup.2.2 _ (List.mem_map_of_mem hmem) _ (List.mem_map_of_mem List.mem_cons_self)
      (Prod.ext hname hplace)

theorem JoinsIndex.eq_head (h : JoinsIndex [] is) (hi : i ∈ is) : is.head? = some i := by
  obtain ⟨l, r, rfl⟩ := List.append_of_mem hi
  obtain ⟨-, hagrees, -⟩ := joinsIndex_append.mp h
  rw [List.nil_append] at hagrees
  cases l with
  | nil => rfl
  | cons j l => rw [hagrees j rfl]; rfl

theorem joinsIndex_of_eq
    (h : ∀ i ∈ first ++ is, ∀ j ∈ first ++ is, i = j) : JoinsIndex first is := by
  induction is generalizing first with
  | nil => trivial
  | cons i is ih =>
    refine ⟨fun j hj => h j ?_ i (by simp), ih (by simpa using h)⟩
    exact List.mem_append_left _ (List.mem_of_head? hj)

end Lists

/-! ## Collecting -/

/-- What has been collected from some properties and index signatures. -/
structure Collects (fs : List (Field × Nat)) (is : List Index) (c : Collected) : Prop where
  fields : ∀ name, c.fields.find? (·.1.name = name) = fs.find? (·.1.name = name)
  nodup : (c.fields.map fun p => p.1.name).Nodup
  index : c.index = is.head?
  calls : c.calls = []
  bases : c.bases = []

/-- Work that spares what is declared and defines no alias, and reports a conflict unless the given
holds. -/
structure Merged (s s' : Session) (agreed : Prop) : Prop where
  spared : s.Spared s'
  frozen : s'.table.frozen = s.table.frozen
  aliases : s'.table.aliases.map Alias.name = s.table.aliases.map Alias.name
  counted : s.conflicts ≤ s'.conflicts
  peaceful : s'.conflicts = s.conflicts ↔ agreed

variable {settle : String → Check Unit} {w : Walker} {s t s' : Session} {P Q : Prop}
  {fs : List (Field × Nat)} {is : List Index} {c c' : Collected}

theorem Merged.refl (s : Session) : Merged s s True := ⟨.refl s, rfl, rfl, Nat.le_refl _, by simp⟩

theorem Merged.trans (h : Merged s t P) (h' : Merged t s' Q) : Merged s s' (P ∧ Q) where
  spared := h.spared.trans h'.spared
  frozen := h'.frozen.trans h.frozen
  aliases := h'.aliases.trans h.aliases
  counted := Nat.le_trans h.counted h'.counted
  peaceful := by
    have := h.counted
    have := h'.counted
    rw [← h.peaceful, ← h'.peaceful]
    omega

theorem Merged.congr (h : Merged s s' P) (hPQ : P ↔ Q) : Merged s s' Q :=
  { h with peaceful := h.peaceful.trans hPQ }

theorem merged_reading {a : α} (hs : s.Settled) (hspares : Spares work)
    (hreading : Reading work) (hvars : w.typeVars = []) (h : work w s = some (a, s')) :
    Merged s s' True := by
  obtain ⟨hconflicts, hfrozen, haliases⟩ := hreading hvars h
  exact ⟨hspares hs h, hfrozen, haliases, by rw [hconflicts], by simp [hconflicts]⟩

theorem merged_report {problem : Problem} (hw : w.quiet = false)
    (hkind : problem.kind = .declarationConflict)
    (h : report position problem w s = some (a, s')) : Merged s s' False := by
  change (if !w.quiet then _ else _ : Check Unit) w s = some (a, s') at h
  rw [hw] at h
  cases h
  have hcount :
      Session.conflicts { s with findings := s.findings.push ⟨w.unit, position, problem⟩ } =
        s.conflicts + 1 := by
    simp [Session.conflicts, hkind]
  exact ⟨⟨.refl _, rfl, rfl, rfl, rfl, rfl⟩, rfl, rfl, by rw [hcount]; omega, by rw [hcount]; simp⟩

/-- The first property of a name is kept. -/
theorem addField_spec {f : Field} (hw : w.quiet = false)
    (hc : Collects fs is c) (h : addField unit position f c w s = some (c', s')) :
    Collects (fs ++ [(f, unit)]) is c' ∧ Merged s s' (Agrees fs (f, unit)) := by
  unfold addField at h
  have hfind := hc.fields f.name
  cases hfs : fs.find? (·.1.name = f.name) with
  | none =>
    rw [hfind, hfs] at h
    cases h
    refine ⟨⟨fun name => ?_, ?_, hc.index, hc.calls, hc.bases⟩, (Merged.refl s).congr ?_⟩
    · rw [List.find?_append, List.find?_append, hc.fields]
    · rw [List.map_append, List.nodup_append]
      refine ⟨hc.nodup, by simp, ?_⟩
      rintro _ hmem _ hf rfl
      obtain ⟨q, hq, hname⟩ := List.mem_map.mp hmem
      rw [hfs] at hfind
      exact absurd (List.find?_eq_none.mp hfind q hq) (by simpa [hname] using hf)
    · simp [Agrees, hfs]
  | some q =>
    obtain ⟨g, owner⟩ := q
    rw [hfind, hfs] at h
    have hkept : Collects (fs ++ [(f, unit)]) is c := by
      refine ⟨fun name => ?_, hc.nodup, hc.index, hc.calls, hc.bases⟩
      rw [hc.fields, List.find?_append]
      by_cases hname : f.name = name
      · rw [← hname, hfs, Option.some_or]
      · simp [hname]
    have hagrees : Agrees fs (f, unit) ↔ g.type = f.type ∧ owner ≠ unit := by
      simp [Agrees, hfs]
    rw [hagrees]
    dsimp only at h
    split at h
    · next htype =>
      obtain ⟨_, t, hreport, h⟩ := bind_eq_some.1 h
      cases h
      exact ⟨hkept, (merged_report hw rfl hreport).congr (by simp [htype])⟩
    · next htype =>
      rw [not_not] at htype
      split at h
      · next howner =>
        obtain ⟨_, t, hreport, h⟩ := bind_eq_some.1 h
        cases h
        exact ⟨hkept, (merged_report hw rfl hreport).congr (by simp [howner])⟩
      · next howner =>
        cases h
        exact ⟨hkept, (Merged.refl s).congr (by simp [htype, howner])⟩

/-! ## Declarations in order -/

section Declarations

variable (settle)

/-- A field and its place, read from a written property: its type is what the annotation means. -/
structure Reads (s : Session) (p : Nat × PropertySpec) (f : Field × Nat) : Prop where
  place : f.2 = p.1
  name : f.1.name = p.2.name
  optional : f.1.optional = p.2.optional
  readonly : f.1.readonly = p.2.readonly
  type : s.Means (Walk.typeOf settle p.2.type) f.1.type

/-- An index signature, read from a written one. -/
structure ReadsIndex (s : Session) (p : IndexSpec) (i : Index) : Prop where
  key : i.key = p.key
  value : s.Means (Walk.typeOf settle p.value) i.value

/-- Declarations of properties and index signatures alone, of which the annotations are only
read. -/
structure Plain (d : InterfaceDecl) : Prop where
  typeParams : d.typeParams = []
  bases : d.bases = []
  calls : d.members.calls = []
  properties : ∀ p ∈ d.members.properties, Reading (Walk.typeOf settle p.type)
  index : ∀ i ∈ d.members.index, Reading (Walk.typeOf settle i.value)

/-- The properties of some declarations, each with its place. -/
def listed (ds : List (Nat × InterfaceDecl)) : List (Nat × PropertySpec) :=
  ds.flatMap fun d => d.2.members.properties.map (d.1, ·)

/-- The index signatures of some declarations. -/
def listedIndexes (ds : List (Nat × InterfaceDecl)) : List IndexSpec :=
  ds.filterMap fun d => d.2.members.index

variable {settle} (hsettle : ∀ C name, Leaves True C (settle name))

theorem Reads.extended {p : Nat × PropertySpec} (h : Reads settle s p f)
    (he : s.Extended s') : Reads settle s' p f :=
  { h with type := h.type.extended he }

theorem ReadsIndex.extended {p : IndexSpec} (h : ReadsIndex settle s p i)
    (he : s.Extended s') : ReadsIndex settle s' p i :=
  { h with value := h.value.extended he }

include hsettle

theorem means_of_typeOf {e : TypeExpr} {a : Ty} (hs : s.Settled) (hw : w.typeVars = [])
    (h : Walk.typeOf settle e w s = some (a, s')) : s'.Means (Walk.typeOf settle e) a := by
  have hspared := spares_typeOf hsettle e hs h
  exact ⟨w, s, s', h, hw, hspared.names.symm, hspared.enums.symm, .refl _⟩

theorem addFields_spec (hs : s.Settled) (hw : w.quiet = false) (hvars : w.typeVars = [])
    (hreading : ∀ p ∈ ps, Reading (Walk.typeOf settle p.type)) (hc : Collects fs is c)
    (h : addFields settle unit ps c w s = some (c', s')) :
    ∃ new, List.Forall₂ (Reads settle s') (ps.map (unit, ·)) new ∧ Collects (fs ++ new) is c' ∧
      Merged s s' (Joins fs new) := by
  induction ps generalizing fs c s with
  | nil =>
    cases h
    exact ⟨[], .nil, by simpa using hc, .refl _⟩
  | cons p ps ih =>
    obtain ⟨type, t, htype, h⟩ := bind_eq_some.1 h
    obtain ⟨c1, t1, hadd, h⟩ := bind_eq_some.1 h
    have hread := merged_reading hs (spares_typeOf hsettle p.type) (hreading p List.mem_cons_self)
      hvars htype
    have hmeans := means_of_typeOf hsettle hs hvars htype
    obtain ⟨hc1, hadded⟩ := addField_spec hw hc hadd
    have hfirst := hread.trans hadded
    obtain ⟨new, hnew, hc', hrest⟩ := ih (hfirst.spared.settled hs)
      (fun q hq => hreading q (List.mem_cons_of_mem _ hq)) hc1 h
    refine ⟨_ :: new, .cons ?_ hnew, by simpa using hc', (hfirst.trans hrest).congr ?_⟩
    · exact ⟨rfl, rfl, rfl, rfl,
        (hmeans.extended hadded.spared.extended).extended hrest.spared.extended⟩
    · simp [Joins]

theorem addIndex_spec {spec : Option IndexSpec} (hs : s.Settled) (hw : w.quiet = false)
    (hvars : w.typeVars = []) (hreading : ∀ i ∈ spec, Reading (Walk.typeOf settle i.value))
    (hc : Collects fs is c) (h : addIndex settle spec c w s = some (c', s')) :
    ∃ new, List.Forall₂ (ReadsIndex settle s') spec.toList new ∧ Collects fs (is ++ new) c' ∧
      Merged s s' (JoinsIndex is new) := by
  cases spec with
  | none =>
    cases h
    exact ⟨[], .nil, by simpa using hc, .refl _⟩
  | some i =>
    obtain ⟨value, t, hvalue, h⟩ := bind_eq_some.1 h
    have hread := merged_reading hs (spares_typeOf hsettle i.value) (hreading i rfl) hvars hvalue
    have hmeans := means_of_typeOf hsettle hs hvars hvalue
    let own : Index := { key := i.key, value }
    have hfirst (hnone : is.head? = none) : Collects fs (is ++ [own])
      { c with index := some own } := by
      cases List.head?_eq_none_iff.mp hnone
      exact ⟨hc.fields, hc.nodup, rfl, hc.calls, hc.bases⟩
    have hlater {old : Index} (hold : is.head? = some old) : Collects fs (is ++ [own]) c := by
      refine ⟨hc.fields, hc.nodup, ?_, hc.calls, hc.bases⟩
      rw [hc.index, List.head?_append, hold, Option.some_or]
    cases hold : is.head? with
    | none =>
      rw [hc.index, hold] at h
      cases h
      exact ⟨[own], .cons ⟨rfl, hmeans⟩ .nil, hfirst hold, hread.congr (by simp [JoinsIndex, hold])⟩
    | some old =>
      rw [hc.index, hold] at h
      dsimp only at h
      split at h
      · next hne =>
        obtain ⟨_, t', hreport, h⟩ := bind_eq_some.1 h
        cases h
        have hreported := merged_report hw rfl hreport
        refine ⟨[own], .cons ⟨rfl, hmeans.extended hreported.spared.extended⟩ .nil, hlater hold,
          (hread.trans hreported).congr ?_⟩
        simpa [JoinsIndex, hold] using hne
      · next heq =>
        rw [not_not] at heq
        cases h
        refine ⟨[own], .cons ⟨rfl, hmeans⟩ .nil, ?_, hread.congr ?_⟩
        · have hsame := hlater hold
          exact ⟨hsame.fields, hsame.nodup, by rw [← hsame.index, hc.index, hold, heq],
            hsame.calls, hsame.bases⟩
        · simpa [JoinsIndex, hold] using heq

omit hsettle in
theorem of_withReader {change : Walker → Walker}
    {r : Option (α × Session)} (h : withReader change work w s = r) : work (change w) s = r := h

/-- What one declaration adds. -/
theorem addDecl_spec {d : InterfaceDecl} (hs : s.Settled) (hd : Plain settle d)
    (hc : Collects fs is c) (h : addDecl settle [] unit d c w s = some (c', s')) :
    ∃ new newIndex, List.Forall₂ (Reads settle s') (d.members.properties.map (unit, ·)) new ∧
      List.Forall₂ (ReadsIndex settle s') d.members.index.toList newIndex ∧
      Collects (fs ++ new) (is ++ newIndex) c' ∧
      Merged s s' (Joins fs new ∧ JoinsIndex is newIndex) := by
  obtain ⟨e, t, ht, h⟩ := bind_eq_some.1 h
  cases ht
  rw [hd.typeParams, if_neg (by simp)] at h
  replace h := of_withReader h
  rw [List.map_nil, List.zip_nil_left, Class.withTypeVars_nil] at h
  obtain ⟨bases, t1, hbases, h⟩ := bind_eq_some.1 h
  rw [hd.bases] at hbases
  cases hbases
  obtain ⟨c1, t2, hfields, h⟩ := bind_eq_some.1 h
  obtain ⟨c2, t3, hindex, h⟩ := bind_eq_some.1 h
  obtain ⟨calls, t4, hcalls, h⟩ := bind_eq_some.1 h
  rw [hd.calls] at hcalls
  cases hcalls
  cases h
  have hstart : Collects fs is { c with bases := c.bases ++ [] } :=
    ⟨hc.fields, hc.nodup, hc.index, hc.calls, by simp [hc.bases]⟩
  have hopened : Merged s { s with scopes := (s.scopes.add (some globals)).2 } True :=
    ⟨⟨.refl _, rfl, rfl, rfl, rfl, rfl⟩, rfl, rfl, Nat.le_refl _, by simp [Session.conflicts]⟩
  obtain ⟨new, hnew, hc1, hmerged⟩ := addFields_spec hsettle (hopened.spared.settled hs) rfl rfl
    hd.properties hstart hfields
  have hbefore := hopened.trans hmerged
  obtain ⟨newIndex, hnewIndex, hc2, hmerged'⟩ :=
    addIndex_spec hsettle (hbefore.spared.settled hs) rfl
    rfl hd.index hc1 hindex
  refine ⟨new, newIndex, hnew.imp fun _ _ hr => hr.extended hmerged'.spared.extended, hnewIndex,
    ⟨hc2.fields, hc2.nodup, hc2.index, by simp [hc2.calls], hc2.bases⟩, ?_⟩
  exact (hbefore.trans hmerged').congr (by simp)

/-- What several declarations add. -/
theorem addDecls_spec (hs : s.Settled) (hds : ∀ d ∈ ds, Plain settle d.2) (hc : Collects fs is c)
    (h : addDecls settle [] ds c w s = some (c', s')) :
    ∃ new newIndex, List.Forall₂ (Reads settle s') (listed ds) new ∧
      List.Forall₂ (ReadsIndex settle s') (listedIndexes ds) newIndex ∧
      Collects (fs ++ new) (is ++ newIndex) c' ∧
      Merged s s' (Joins fs new ∧ JoinsIndex is newIndex) := by
  induction ds generalizing fs is c s with
  | nil =>
    cases h
    exact ⟨[], [], .nil, .nil, by simpa using hc, (Merged.refl
      _).congr (by simp [Joins, JoinsIndex])⟩
  | cons d ds ih =>
    obtain ⟨unit, d⟩ := d
    obtain ⟨c1, t, hfirst, h⟩ := bind_eq_some.1 h
    obtain ⟨new, newIndex, hnew, hnewIndex, hc1, hmerged⟩ :=
      addDecl_spec hsettle hs (hds _ List.mem_cons_self) hc hfirst
    obtain ⟨more, moreIndex, hmore, hmoreIndex, hc', hmerged'⟩ :=
      ih (hmerged.spared.settled hs) (fun p hp => hds p (List.mem_cons_of_mem _ hp)) hc1 h
    have hlater := hmerged'.spared.extended
    refine ⟨new ++ more, newIndex ++ moreIndex, ?_, ?_, by simpa using hc',
      (hmerged.trans hmerged').congr ?_⟩
    · exact List.rel_append (hnew.imp fun _ _ hr => hr.extended hlater) hmore
    · have hindexes : listedIndexes ((unit, d) :: ds) =
          d.members.index.toList ++ listedIndexes ds := by
        cases hi : d.members.index <;> simp [listedIndexes, hi]
      rw [hindexes]
      exact List.rel_append (hnewIndex.imp fun _ _ hr => hr.extended hlater) hmoreIndex
    · rw [joins_append, joinsIndex_append]
      tauto

omit hsettle in
theorem intern_rest (shape : Shape) (T : Table) :
    (Ty.intern shape T).2.aliases = T.aliases ∧ (Ty.intern shape T).2.frozen = T.frozen := by
  cases hfind : T.find? shape.key with
  | none =>
    rw [Interning.intern_new hfind]
    exact ⟨rfl, rfl⟩
  | some t =>
    rw [Interning.intern_known hfind]
    exact ⟨rfl, rfl⟩

omit hsettle in
theorem merged_objectOf {m : Members} {a : Ty} (hs : s.Settled)
    (h : (monadLift (Ty.objectOf m) : Check Ty) w s = some (a, s')) : Merged s s' True := by
  have hspared := spares_interning (Interning.keeps_objectOf m) hs h
  obtain ⟨-, hs'⟩ := Class.interning_eq h
  obtain ⟨haliases, hfrozen⟩ :=
    intern_rest (.object { m with fields := m.fields.foldl Ty.putField [] }) s.table
  have hconflicts : s'.conflicts = s.conflicts := by
    rw [hs']
    rfl
  refine ⟨hspared, ?_, ?_, by rw [hconflicts], by simp [hconflicts]⟩
  · rw [hs']
    exact hfrozen
  · rw [hs']
    exact congrArg (List.map Alias.name) haliases

omit hsettle in
theorem collects_nil : Collects [] [] {} := ⟨fun _ => rfl, by simp, rfl, rfl, rfl⟩

omit hsettle in
/-- A new name is defined without a conflict. -/
theorem defineAlias_spec {target : Ty}
    (hopen : s.table.frozen = false) (hnew : name ∉ s.table.aliases.map Alias.name)
    (h : defineAlias position name [] target w s = some (a, s')) :
    s' = { s with table := { s.table with aliases := s.table.aliases ++ [{ name, target }] } } ∧
      s'.table.alias? name = some { name, target } := by
  have hnone : s.table.alias? name = none := by
    rw [Table.alias?, List.find?_eq_none]
    intro b hb
    simpa using fun hname => hnew (List.mem_map.mpr ⟨b, hb, hname⟩)
  have hdefine : Alias.define name [] target s.table =
      (.ok (), { s.table with aliases := s.table.aliases ++ [{ name, target }] }) := by
    unfold Alias.define
    rw [Interning.bind_apply]
    change (if s.table.frozen = true then _ else _ : Interning (Except AliasError Unit)) s.table = _
    rw [if_neg (by simp [hopen])]
    change (if (s.table.alias? name).isSome = true then _ else _ :
      Interning (Except AliasError Unit)) s.table = _
    rw [if_neg (by simp [hnone])]
    rfl
  obtain ⟨result, t, hresult, h⟩ := bind_eq_some.1 h
  obtain ⟨rfl, rfl⟩ := Class.interning_eq hresult
  rw [hdefine] at h
  cases h
  refine ⟨rfl, ?_⟩
  rw [Table.alias?] at hnone ⊢
  rw [List.find?_append, hnone]
  simp

/-- **What a group of declarations defines**: an object with the first property of each name and the
first index signature. A conflict is reported unless all others agree with these. -/
theorem register_spec {g : Group} (hs : s.Settled) (hkeyed : s.table.Keyed)
    (hopen : s.table.frozen = false) (hnew : g.name ∉ s.table.aliases.map Alias.name)
    (hne : g.decls ≠ []) (hplain : ∀ d ∈ g.decls, Plain settle d.2)
    (h : register settle g w s = some (a, s')) :
    ∃ fs is target m, List.Forall₂ (Reads settle s') (listed g.decls) fs ∧
      List.Forall₂ (ReadsIndex settle s') (listedIndexes g.decls) is ∧
      s'.table.alias? g.name = some { name := g.name, target } ∧
      Ty.members? s'.table target = some m ∧
      (∀ name, m.field? name = (fs.find? (·.1.name = name)).map Prod.fst) ∧ m.index = is.head? ∧
      m.calls = [] ∧ (s'.conflicts = s.conflicts ↔ Joins [] fs ∧ JoinsIndex [] is) := by
  unfold register at h
  cases hdecls : g.decls with
  | nil => exact absurd hdecls hne
  | cons first rest =>
    obtain ⟨unit, first⟩ := first
    have hfirst : Plain settle first := hplain (unit, first) (hdecls ▸ List.mem_cons_self)
    rw [hdecls] at h
    dsimp only at h
    rw [← hdecls, hfirst.typeParams] at h
    rw [← hdecls]
    obtain ⟨e, t, ht, h⟩ := bind_eq_some.1 h
    cases ht
    replace h := of_withReader h
    obtain ⟨vars, t1, hvars, h⟩ := bind_eq_some.1 h
    cases hvars
    obtain ⟨c, t2, hadd, h⟩ := bind_eq_some.1 h
    obtain ⟨own, t3, hown, h⟩ := bind_eq_some.1 h
    let opened : Session := { s with scopes := (s.scopes.add (some globals)).2 }
    have hopened : Merged s opened True :=
      ⟨⟨.refl _, rfl, rfl, rfl, rfl, rfl⟩, rfl, rfl,
      Nat.le_refl _, by simp [opened, Session.conflicts]⟩
    obtain ⟨fs, is, hfs, his, hc, hadded⟩ := addDecls_spec hsettle (s := opened) hs hplain
      collects_nil hadd
    have hmade := merged_objectOf (hadded.spared.settled hs) hown
    have hmerged := (hopened.trans hadded).trans hmade
    rw [hc.bases] at h
    obtain ⟨hs', hdefined⟩ := defineAlias_spec (hmerged.frozen.trans hopen)
      (by rwa [hmerged.aliases]) h
    have hlater : t2.Extended s' := by
      rw [hs']
      exact ⟨hmade.spared.table.trans (.of_entries rfl), hmade.spared.names, hmade.spared.enums,
        hmade.spared.extended.classes⟩
    obtain ⟨m, hm, hfieldOf, hindex, hcalls⟩ := Interning.members?_objectOf
      (hadded.spared.table.keyed hkeyed)
      { fields := c.fields.map Prod.fst, index := c.index, calls := c.calls }
    obtain ⟨hresult, htable⟩ := Class.interning_eq hown
    refine ⟨fs, is, own, m, hfs.imp fun _ _ hr => hr.extended hlater,
      his.imp fun _ _ hr => hr.extended hlater, hdefined, ?_, fun name => ?_,
      hindex.trans hc.index, hcalls.trans hc.calls, ?_⟩
    · have hkeeps : t3.table.Keeps s'.table := by
        rw [hs']
        exact .of_entries rfl
      refine hkeeps.members? ?_
      rw [htable, hresult]
      exact hm
    · have hnodup : ((c.fields.map Prod.fst).map Field.name).Nodup := by
        simpa [Function.comp_def] using hc.nodup
      have hfirst := hc.fields name
      rw [List.nil_append] at hfirst
      rw [hfieldOf, Class.find?_reverse_of_nodup hnodup, List.find?_map, ← hfirst]
      rfl
    · have hcount : s'.conflicts = t3.conflicts := by
        rw [hs']
        rfl
      rw [hcount, hmerged.peaceful]
      simp

end Declarations

/-! ## Another order -/

section Orders

/-- Readings of permuted things are permuted, up to what tells them apart. -/
theorem exists_perm_of_reads {β : Type} {R R' : α → β → Prop} (φ : β → β) {ps ps' : List α}
    {xs ys : List β} (hperm : ps.Perm ps') (h : List.Forall₂ R ps xs) (h' : List.Forall₂ R' ps' ys)
    (hφ : ∀ p ∈ ps, ∀ x y, R p x → R' p y → y = φ x) :
    ∃ zs : List β, zs.Perm xs ∧ ys = zs.map φ := by
  obtain ⟨zs, hzs, hperm'⟩ := List.perm_comp_forall₂ hperm.symm h
  exact ⟨zs, hperm', eq_map_of_forall₂ hzs h' fun p hp => hφ p (hperm.mem_iff.mpr hp)⟩

/-- The property with another type. -/
def renamed (ρ : Ty → Ty) (p : Field × Nat) : Field × Nat :=
  ({ p.1 with type := ρ p.1.type }, p.2)

/-- The index signature with another type. -/
def renamedIndex (ρ : Ty → Ty) (i : Index) : Index := { i with value := ρ i.value }

variable {ρ : Ty → Ty} {gs : List (Field × Nat)} {js : List Index}

theorem find?_renamed (name : String) : (gs.map (renamed ρ)).find? (·.1.name = name) =
    (gs.find? (·.1.name = name)).map (renamed ρ) := by
  rw [List.find?_map]
  rfl

/-- The first property of a name in another order is one of that name. -/
theorem find?_of_perm (hperm : gs.Perm fs) (hp : fs.find? (·.1.name = name) = some p) :
    ∃ q ∈ fs, gs.find? (·.1.name = name) = some q ∧ q.1.name = name := by
  have hmem := hperm.mem_iff.mpr (List.mem_of_find?_eq_some hp)
  have hname : p.1.name = name := by simpa using List.find?_some hp
  have hsome : (gs.find? (·.1.name = name)).isSome := by
    rw [List.find?_isSome]
    exact ⟨p, hmem, by simpa using hname⟩
  obtain ⟨q, hq⟩ := Option.isSome_iff_exists.mp hsome
  exact ⟨q, hperm.mem_iff.mp (List.mem_of_find?_eq_some hq), hq, by simpa using List.find?_some hq⟩

theorem find?_none_of_perm (hperm : gs.Perm fs)
    (h : fs.find? (·.1.name = name) = none) : gs.find? (·.1.name = name) = none := by
  rw [List.find?_eq_none] at h ⊢
  exact fun q hq => h q (hperm.mem_iff.mp hq)

/-- The types of properties that agree do not depend on their order. -/
theorem Joins.type_of_perm (h : Joins [] fs) (hperm : gs.Perm fs) (name : String) :
    (gs.find? (·.1.name = name)).map (·.1.type) = (fs.find? (·.1.name = name)).map (·.1.type) := by
  cases hp : fs.find? (·.1.name = name) with
  | none => rw [find?_none_of_perm hperm hp]
  | some p =>
    obtain ⟨q, hq, hfirst, rfl⟩ := find?_of_perm hperm hp
    rw [hfirst, Option.map_some, Option.map_some, h.type_eq hq hp]

/-- Properties that agree have one type for each name. -/
theorem Joins.types (h : Joins [] fs) (hp : p ∈ fs) (hq : q ∈ fs)
    (hname : p.1.name = q.1.name) : p.1.type = q.1.type := by
  have hsome : (fs.find? (·.1.name = p.1.name)).isSome := by
    rw [List.find?_isSome]
    exact ⟨p, hp, by simp⟩
  obtain ⟨r, hr⟩ := Option.isSome_iff_exists.mp hsome
  rw [← h.type_eq hp hr, h.type_eq hq (hname ▸ hr)]

theorem Joins.renamed (h : Joins [] fs) (hperm : gs.Perm fs)
    (hnodup : (fs.map fun p => (p.1.name, p.2)).Nodup) : Joins [] (gs.map (renamed ρ)) := by
  refine joins_of_types ?_ ?_
  · simp only [List.nil_append, List.forall_mem_map]
    intro p hp q hq hname
    exact congrArg ρ (h.types (hperm.mem_iff.mp hp) (hperm.mem_iff.mp hq) hname)
  · rw [List.nil_append, List.map_map]
    exact (hperm.map _).nodup_iff.mpr hnodup

theorem JoinsIndex.head?_of_perm (h : JoinsIndex [] is) (hperm : js.Perm is) :
    js.head? = is.head? := by
  cases js with
  | nil => rw [hperm.symm.eq_nil]
  | cons j js => rw [h.eq_head (hperm.mem_iff.mp List.mem_cons_self), List.head?_cons]

theorem JoinsIndex.renamed (h : JoinsIndex [] is) (hperm : js.Perm is) :
    JoinsIndex [] (js.map (renamedIndex ρ)) := by
  refine joinsIndex_of_eq ?_
  simp only [List.nil_append, List.forall_mem_map]
  intro i hi j hj
  have hi' := h.eq_head (hperm.mem_iff.mp hi)
  have hj' := h.eq_head (hperm.mem_iff.mp hj)
  rw [Option.some.inj (hi'.symm.trans hj')]

/-- Properties are told apart by name and place if no declaration repeats one. -/
theorem nodup_listed (hplaces : (ds.map Prod.fst).Nodup)
    (hrepeat : ∀ d ∈ ds, (d.2.members.properties.map PropertySpec.name).Nodup) :
    ((listed ds).map fun p => (p.2.name, p.1)).Nodup := by
  induction ds with
  | nil => exact List.nodup_nil
  | cons d ds ih =>
    obtain ⟨hplace, hplaces⟩ := List.nodup_cons.mp hplaces
    have hsplit : (listed (d :: ds)).map (fun p => (p.2.name, p.1)) =
        (d.2.members.properties.map PropertySpec.name).map (·, d.1) ++
          (listed ds).map fun p => (p.2.name, p.1) := by
      simp [listed, Function.comp_def]
    rw [hsplit, List.nodup_append]
    refine ⟨(hrepeat d List.mem_cons_self).map fun _ _ h => congrArg Prod.fst h,
      ih hplaces fun p hp => hrepeat p (List.mem_cons_of_mem _ hp), ?_⟩
    rintro _ hfirst _ hrest rfl
    obtain ⟨name, -, rfl⟩ := List.mem_map.mp hfirst
    obtain ⟨p, hp, heq⟩ := List.mem_map.mp hrest
    obtain ⟨e, he, q, -, rfl⟩ : ∃ e ∈ ds, ∃ q ∈ e.2.members.properties, (e.1, q) = p := by
      simpa [listed] using hp
    exact hplace (List.mem_map.mpr ⟨e, he, congrArg Prod.snd heq⟩)

theorem Reads.eq_renamed {p : Nat × PropertySpec}
    (h : Reads settle s p f) (h' : Reads settle s' p f') (htype : f'.1.type = ρ f.1.type) :
    f' = renamed ρ f := by
  refine Prod.ext ?_ (h'.place.trans h.place.symm)
  have hname := h'.name.trans h.name.symm
  have hoptional := h'.optional.trans h.optional.symm
  have hreadonly := h'.readonly.trans h.readonly.symm
  obtain ⟨⟨_, _, _, _⟩, _⟩ := f
  obtain ⟨⟨_, _, _, _⟩, _⟩ := f'
  simp_all [renamed]

theorem ReadsIndex.eq_renamed {p : IndexSpec} {j : Index}
    (h : ReadsIndex settle s p i) (h' : ReadsIndex settle s' p j) (hvalue : j.value = ρ i.value) :
    j = renamedIndex ρ i := by
  have hkey := h'.key.trans h.key.symm
  obtain ⟨_, _⟩ := i
  obtain ⟨_, _⟩ := j
  simp_all [renamedIndex]

/-- Properties of one name are the same, if their types and flags are. -/
theorem field_eq_of_reads {ps : List (Nat × PropertySpec)}
    (h : List.Forall₂ (Reads settle s) ps fs) (hjoins : Joins [] fs)
    (hflags : ∀ p ∈ ps, ∀ q ∈ ps, p.2.name = q.2.name →
      p.2.optional = q.2.optional ∧ p.2.readonly = q.2.readonly) (hf : f ∈ fs) (hf' : f' ∈ fs)
      (hname : f.1.name = f'.1.name) :
    f.1 = f'.1 := by
  obtain ⟨p, hp, hread⟩ := exists_of_forall₂ (List.Forall₂.flip h) hf
  obtain ⟨q, hq, hread'⟩ := exists_of_forall₂ (List.Forall₂.flip h) hf'
  have htype := hjoins.types hf hf' hname
  obtain ⟨hoptional, hreadonly⟩ := hflags p hp q hq
    (hread.name.symm.trans (hname.trans hread'.name))
  rw [← hread.optional, ← hread'.optional] at hoptional
  rw [← hread.readonly, ← hread'.readonly] at hreadonly
  obtain ⟨⟨_, _, _, _⟩, _⟩ := f
  obtain ⟨⟨_, _, _, _⟩, _⟩ := f'
  simp_all

/-- A session in which a group of declarations can be defined. -/
structure Ready (s : Session) (g : Group) : Prop where
  settled : s.Settled
  keyed : s.table.Keyed
  unfrozen : s.table.frozen = false
  unnamed : g.name ∉ s.table.aliases.map Alias.name

/-- The object type that a name has been defined as. -/
def Defines (s : Session) (name : String) (m : Members) : Prop :=
  ∃ target, s.table.alias? name = some { name, target } ∧ Ty.members? s.table target = some m

/-- **Merging declarations in two orders.** If no conflict is reported in one order, and each
annotation means corresponding types in both, then both define objects in which every name has
corresponding types, and the index signatures correspond; so do the flags, if properties of one name
have the same flags. In the other order no conflict is reported either, if no declaration repeats a
property. -/
theorem merged_alike {settle : String → Check Unit}
    (hsettle : ∀ C name, Leaves True C (settle name))
    {g g' : Group} (hne : g.decls ≠ []) (hperm : g.decls.Perm g'.decls)
    (hplain : ∀ d ∈ g.decls, Plain settle d.2) {w w' : Walker} {s s' t t' : Session}
    (hs : Ready s g) (hs' : Ready s' g') (hrun : register settle g w s = some ((), t))
    (hrun' : register settle g' w' s' = some ((), t')) {ρ : Ty → Ty}
    (htypes : ∀ p ∈ listed g.decls, ∀ a b, t.Means (Walk.typeOf settle p.2.type) a →
      t'.Means (Walk.typeOf settle p.2.type) b → b = ρ a)
    (hvalues : ∀ i ∈ listedIndexes g.decls, ∀ a b, t.Means (Walk.typeOf settle i.value) a →
      t'.Means (Walk.typeOf settle i.value) b → b = ρ a)
    (hfree : t.conflicts = s.conflicts) :
    ∃ m m', Defines t g.name m ∧ Defines t' g'.name m' ∧
      (∀ name, (m'.field? name).map Field.type = (m.field? name).map (ρ ∘ Field.type)) ∧
      m'.index = m.index.map (renamedIndex ρ) ∧ m.calls = [] ∧ m'.calls = [] ∧
      ((∀ p ∈ listed g.decls, ∀ q ∈ listed g.decls, p.2.name = q.2.name →
          p.2.optional = q.2.optional ∧ p.2.readonly = q.2.readonly) →
        ∀ name, m'.field? name = (m.field? name).map fun f => { f with type := ρ f.type }) ∧
      ((g.decls.map Prod.fst).Nodup →
        (∀ d ∈ g.decls, (d.2.members.properties.map PropertySpec.name).Nodup) →
        t'.conflicts = s'.conflicts) := by
  obtain ⟨fs, is, target, m, hfs, his, halias, hm, hfield, hindex, hcalls, hpeace⟩ :=
    register_spec hsettle hs.settled hs.keyed hs.unfrozen hs.unnamed hne hplain hrun
  have hne' : g'.decls ≠ [] := fun hnil => hne (hnil ▸ hperm).eq_nil
  obtain ⟨fs', is', target', m', hfs', his', halias', hm', hfield', hindex', hcalls', hpeace'⟩ :=
    register_spec hsettle hs'.settled hs'.keyed hs'.unfrozen hs'.unnamed hne'
      (fun d hd => hplain d (hperm.mem_iff.mpr hd)) hrun'
  obtain ⟨hjoins, hjoinsIndex⟩ := hpeace.mp hfree
  obtain ⟨gs, hgs, rfl⟩ := exists_perm_of_reads (renamed ρ) (hperm.flatMap_right _) hfs hfs'
    fun p hp f f' hf hf' => hf.eq_renamed hf' (htypes p hp _ _ hf.type hf'.type)
  obtain ⟨js, hjs, rfl⟩ := exists_perm_of_reads (renamedIndex ρ) (hperm.filterMap _) his his'
    fun i hi x y hx hy => hx.eq_renamed hy (hvalues i hi _ _ hx.value hy.value)
  refine ⟨m, m', ⟨target, halias, hm⟩, ⟨target', halias', hm'⟩, fun name => ?_, ?_, hcalls, hcalls',
    fun hflags name => ?_, fun hplaces hrepeat => ?_⟩
  · rw [hfield, hfield', find?_renamed]
    have hsame := congrArg (Option.map ρ) (hjoins.type_of_perm hgs name)
    simpa [Function.comp_def, renamed] using hsame
  · rw [hindex, hindex', List.head?_map, hjoinsIndex.head?_of_perm hjs]
  · rw [hfield, hfield', find?_renamed]
    cases hp : fs.find? (·.1.name = name) with
    | none => rw [find?_none_of_perm hgs hp]; rfl
    | some p =>
      obtain ⟨q, hq, hfirst, rfl⟩ := find?_of_perm hgs hp
      have hname : p.1.name = q.1.name := by simpa using List.find?_some hp
      have hsame := field_eq_of_reads hfs hjoins hflags (List.mem_of_find?_eq_some hp) hq hname
      simp [hfirst, renamed, hsame]
  · refine hpeace'.mpr ⟨hjoins.renamed hgs ?_, hjoinsIndex.renamed hjs⟩
    have hnames : (listed g.decls).map (fun p => (p.2.name, p.1)) =
        fs.map fun p => (p.1.name, p.2) :=
      List.forall₂_eq_eq_eq ▸ List.forall₂_map_left_iff.mpr (List.forall₂_map_right_iff.mpr
        (hfs.imp fun p f hf => by rw [hf.name, hf.place]))
    exact hnames ▸ nodup_listed hplaces hrepeat

end Orders

/-! ## Two declarations of numbers -/

section Numbers

/-- A property of type `number`. -/
def numeric (name : String) (optional : Bool) : PropertySpec :=
  .mk {} name (.reference {} "number" []) optional false

/-- A declaration of properties of type `number`, with or without an index signature. -/
def declaring (ps : List PropertySpec) (indexed : Bool) : InterfaceDecl :=
  { position := {}, name := "A", typeParams := [], bases := []
    members := .mk ps
      (if indexed then some (.mk {} .string (.reference {} "number" [])) else none) [] }

/-- Nothing is to be inferred. -/
def settled (_ : String) : Check Unit := return ()

theorem walker_bind (f : Walker → Check α) (w : Walker) (s : Session) :
    (walker >>= f) w s = f w w s := rfl

theorem typeOf_number (hw : w.typeVars = []) (s : Session) :
    Walk.typeOf settled (.reference {} "number" []) w s = some (.number, s) := by
  have hname : Primitive.ofName? "number" = some .number := by decide
  rw [Walk.typeOf, Walk.typesOf]
  change Meaning.reference {} "number" [] w s = _
  unfold Meaning.reference
  rw [walker_bind, hw, hname]
  rfl

theorem plain_declaring (indexed : Bool)
    (hps : ∀ p ∈ ps, p.type = .reference {} "number" []) :
    Plain settled (declaring ps indexed) := by
  have hreading : Reading (Walk.typeOf settled (.reference {} "number" [])) := by
    intro w s a s' hw h
    rw [typeOf_number hw] at h
    cases h
    exact ⟨rfl, rfl, rfl⟩
  refine ⟨rfl, rfl, rfl, fun p hp => hps p hp ▸ hreading, fun i hi => ?_⟩
  cases indexed with
  | false => cases hi
  | true =>
    cases hi
    exact hreading

/-- A property, and the property with an index signature. -/
def twoOrders : List (Nat × InterfaceDecl) :=
  [(0, declaring [numeric "x" false] false), (1, declaring [numeric "x" false] true)]

/-- Both orders of the two declarations define the same object. -/
theorem merged_alike_twoOrders : ∃ t t' : Session,
    register settled ⟨"A", twoOrders⟩ {} { recorded := #[] } = some ((), t) ∧
      register settled ⟨"A", twoOrders.reverse⟩ {} { recorded := #[] } = some ((), t') ∧
      t.conflicts = 0 ∧ t'.conflicts = 0 ∧
      ∃ m m', Defines t "A" m ∧ Defines t' "A" m' ∧ ∀ name, m'.field? name = m.field? name := by
  have hcomputed : (register settled ⟨"A", twoOrders⟩ {} { recorded := #[] }).map
        (fun r => r.2.conflicts) = some 0 ∧
      (register settled ⟨"A", twoOrders.reverse⟩ {} { recorded := #[] }).isSome := by decide +kernel
  obtain ⟨⟨⟨_, t⟩, hrun, hfree⟩, hrun'⟩ := hcomputed.imp_left Option.map_eq_some_iff.mp
  obtain ⟨⟨_, t'⟩, hrun'⟩ := Option.isSome_iff_exists.mp hrun'
  have hready (ds : List (Nat × InterfaceDecl)) : Ready { recorded := #[] } ⟨"A", ds⟩ :=
    ⟨(fun _ h => nomatch h), Table.keyed_empty, rfl, by simp⟩
  have hmeans {s : Session} {a : Ty}
      (h : s.Means (Walk.typeOf settled (.reference {} "number" [])) a) : a = .number := by
    obtain ⟨w, s1, s2, hwork, hw, -⟩ := h
    rw [typeOf_number hw] at hwork
    cases hwork
    rfl
  have hplain : ∀ d ∈ twoOrders, Plain settled d.2 := by
    intro d hd
    obtain rfl | rfl : d = _ ∨ d = _ := by simpa [twoOrders] using hd
    · exact plain_declaring false (by simp [numeric, PropertySpec.type])
    · exact plain_declaring true (by simp [numeric, PropertySpec.type])
  have hproperties : ∀ p ∈ listed twoOrders, p.2 = numeric "x" false := by
    intro p hp
    obtain ⟨d, hd, q, hq, rfl⟩ : ∃ d ∈ twoOrders, ∃ q ∈ d.2.members.properties, (d.1, q) = p := by
      simpa [listed] using hp
    obtain rfl | rfl : d = _ ∨ d = _ := by simpa [twoOrders] using hd
    · exact List.mem_singleton.mp hq
    · exact List.mem_singleton.mp hq
  have hindexes : ∀ i ∈ listedIndexes twoOrders, i.value = .reference {} "number" [] := by
    intro i hi
    obtain ⟨d, hd, hdi⟩ := List.mem_filterMap.mp hi
    obtain rfl | rfl : d = _ ∨ d = _ := by simpa [twoOrders] using hd
    · cases hdi
    · cases hdi
      rfl
  obtain ⟨m, m', hm, hm', -, -, -, -, hfields, hpeace⟩ := merged_alike
    (g := ⟨"A", twoOrders⟩) (ρ := id) (fun C name => leaves_pure ())
    (by simp [twoOrders]) (List.reverse_perm twoOrders).symm hplain (hready _) (hready _) hrun hrun'
    (fun p hp a b ha hb => by
      rw [hproperties p hp] at ha hb
      rw [hmeans ha, hmeans hb]
      rfl)
    (fun i hi a b ha hb => by
      rw [hindexes i hi] at ha hb
      rw [hmeans ha, hmeans hb]
      rfl) hfree
  refine ⟨t, t', hrun, hrun', hfree, hpeace (by decide) (by decide), m, m', hm, hm', fun name => ?_⟩
  rw [hfields (fun p hp q hq _ => by simp [hproperties p hp, hproperties q hq])]
  simp

/-- The conflicts reported of some declarations in this order, and whether the property `x` may be
absent. -/
def mergeReport (ds : List (Nat × InterfaceDecl)) : Option (Nat × Option Bool) :=
  (register settled ⟨"A", ds⟩ {} { recorded := #[] }).map fun r =>
    (r.2.conflicts, do
      let a ← r.2.table.alias? "A"
      let m ← Ty.members? r.2.table a.target
      let f ← m.field? "x"
      return f.optional)

/-- **The order matters for flags and for repeated properties**: a property is optional if the first
declaration of it is, and one that a declaration repeats is a conflict only if no other declaration
has it before. -/
theorem mergeReport_orders :
    mergeReport [(0, declaring [numeric "x" true] false),
    (1, declaring [numeric "x" false] false)] =
      some (0, some true) ∧
    mergeReport [(1, declaring [numeric "x" false] false),
    (0, declaring [numeric "x" true] false)] =
      some (0, some false) ∧
    mergeReport [(0, declaring [numeric "x" false] false),
      (1, declaring [numeric "x" false, numeric "x" false] false)] = some (0, some false) ∧
    mergeReport [(1, declaring [numeric "x" false, numeric "x" false] false),
      (0, declaring [numeric "x" false] false)] = some (1, some false) := by
  decide +kernel

end Numbers

end Interface

end ShapeCheck
