import ShapeCheck.Proofs.GlobalScope
import ShapeCheck.Proofs.Speculation

/-!
# Declaring and defining type names

A pass reserves all type names before it defines any type. The first declaration of a name reserves
it; the definitions of enums, aliases and interfaces then leave the names alone, and the classes, so
that these are registered with all names in place.

* `Pass.declareUnits_spec` says what is reserved.
* `Pass.Awaits` is what holds when the first class is registered, `Pass.awaits_of_defines` that a
  pass comes to it.
-/

namespace ShapeCheck

variable {α β : Type} {work : Check α} {f : α → Check β} {unit : Nat} {w : Walker} {s s' : Session}
  {d : Declaration} {name : String} {done : Bool}

open Check

namespace Session

/-- The declared names, enums and classes and the results to be inferred are the same, and the types
are kept. -/
structure Spared (s s' : Session) : Prop where
  table : s.table.Keeps s'.table
  names : s'.names = s.names
  enums : s'.enums = s.enums
  classes : s'.classes = s.classes
  registering : s'.registering = s.registering
  pending : s'.pending = s.pending

variable {s'' : Session}

theorem Spared.refl (s : Session) : s.Spared s := ⟨.refl _, rfl, rfl, rfl, rfl, rfl⟩

theorem Spared.trans (h : s.Spared s') (h' : s'.Spared s'') : s.Spared s'' :=
  ⟨h.table.trans h'.table, h'.names.trans h.names, h'.enums.trans h.enums,
    h'.classes.trans h.classes, h'.registering.trans h.registering, h'.pending.trans h.pending⟩

theorem Spared.settled (h : s.Spared s') (hs : s.Settled) : s'.Settled := by
  unfold Settled
  rwa [h.pending]

end Session

namespace Check

/-- Work that leaves the declared names, enums and classes and the results to be inferred alone, if
no result is to be inferred, and keeps the types. -/
def Spares (work : Check α) : Prop :=
  ∀ ⦃w s a s'⦄, s.Settled → work w s = some (a, s') → s.Spared s'

/-- Work that changes no more than a frame, the table and what was recorded. -/
theorem Leaves.spares {C : Change} (h : Leaves True C work) : Spares work := by
  intro w s a s' hs hrun
  have hk := h (fun _ => hs) hrun
  have hrest := hk.rest trivial
  refine ⟨hk.table, ?_, ?_, ?_, ?_, ?_⟩ <;> rw [hrest]

@[grind ←]
theorem spares_pure (a : α) : Spares (pure a) := (leaves_pure (C := .any) a).spares

@[grind ←]
theorem spares_bind {x : Check α} (hx : Spares x) (hf : ∀ a, Spares (f a)) : Spares (x >>= f) := by
  intro w s b s' hs h
  obtain ⟨a, t, ha, hb⟩ := bind_eq_some.1 h
  have hxs := hx hs ha
  exact hxs.trans (hf a (hxs.settled hs) hb)

@[grind ←]
theorem spares_report (position : Position) (problem : Problem) :
    Spares (report position problem) := (leaves_report (C := .any) position problem).spares

@[grind ←]
theorem spares_interning {work : Interning α} (h : work.Keeps) :
    Spares (monadLift work : Check α) := (leaves_interning (C := .any) h).spares

theorem spares_withReader {change : Walker → Walker} (h : Spares work) :
    Spares (withReader change work) := fun _ _ _ _ hs hrun => h hs hrun

@[grind ←]
theorem spares_withTypeVars {vars : List (String × TypeVar)} (h : Spares work) :
    Spares (Meaning.withTypeVars vars work) := spares_withReader h

@[grind ←]
theorem spares_defineIn (e : Nat) (name : String) (v : ValueDecl) : Spares (defineIn e name v) := by
  intro w s a s' _ ha
  cases ha
  exact ⟨.refl _, rfl, rfl, rfl, rfl, rfl⟩

/-- A declaration is worked on in an environment of its own, without type parameters in scope. -/
theorem of_inUnit {a : α}
    (h : inUnit unit work w s = some (a, s')) : ∃ w' : Walker, w'.typeVars = [] ∧
      work w' { s with scopes := (s.scopes.add (some globals)).2 } = some (a, s') := by
  obtain ⟨e, t, ht, h⟩ := bind_eq_some.1 h
  cases ht
  exact ⟨_, rfl, h⟩

@[grind ←]
theorem spares_inUnit (h : Spares work) : Spares (inUnit unit work) := by
  intro w s a s' hs ha
  obtain ⟨w', -, ha⟩ := of_inUnit ha
  have hk := h (s := { s with scopes := (s.scopes.add (some globals)).2 }) hs ha
  exact ⟨hk.table, hk.names, hk.enums, hk.classes, hk.registering, hk.pending⟩

@[grind ←]
theorem spares_mapM {as : List α} (h : ∀ a ∈ as, Spares (f a)) : Spares (as.mapM f) :=
  have hsequential : Sequential fun α (x : Check α) => Spares x := ⟨spares_pure, spares_bind⟩
  hsequential.mapM h

end Check

/-! ## Enums, aliases and interfaces -/

namespace Enum

/-- Defining an enum adds to the enums, and changes nothing else that others rely on. -/
theorem register_spec {d : EnumDecl} (hs : s.Settled) (h : register d w s = some ((), s')) :
    ∃ enums, { s with enums := enums }.Spared s' := by
  have hnumber (known : Known) (next : Option Binary64) (ms : List EnumMember) :
      Spares (number known next ms) := by
    induction ms generalizing known next with
    | nil => exact spares_pure _
    | cons m ms ih =>
      unfold number
      grind
  obtain ⟨_, _, ht, h⟩ := bind_eq_some.1 h
  cases ht
  obtain ⟨values, s1, hvalues, h⟩ := bind_eq_some.1 h
  obtain ⟨members, s2, hmembers, h⟩ := bind_eq_some.1 h
  obtain ⟨t, s3, ht, h⟩ := bind_eq_some.1 h
  obtain ⟨_, s4, hupdate, h⟩ := bind_eq_some.1 h
  have h1 := hnumber _ _ _ hs hvalues
  have h2 := h1.trans (spares_mapM (fun v _ => by grind) (h1.settled hs) hmembers)
  have h3 := h2.trans (spares_interning (Interning.keeps_enumOf _ _ _) (h2.settled hs) ht)
  cases hupdate
  have hlast : { s3 with enums := s3.enums ++ [(d.name, t)] }.Spared s' := by
    refine (?_ : Spares _) (h3.settled hs) h
    grind
  exact ⟨s'.enums, ⟨h3.table.trans hlast.table, hlast.names.trans h3.names, rfl,
    hlast.classes.trans h3.classes, hlast.registering.trans h3.registering,
    hlast.pending.trans h3.pending⟩⟩

end Enum

@[grind ←]
theorem spares_defineAlias (position : Position) (name : String) (params : List TypeVar)
    (target : Ty) : Spares (defineAlias position name params target) := by
  unfold defineAlias
  grind

section Settled

variable {settle : String → Check Unit} (hsettle : ∀ C name, Leaves True C (settle name))
include hsettle

theorem spares_declareTypeVars (ps : List TypeParam) :
    Spares (Meaning.declareTypeVars (Walk.typeParams settle ps)) :=
  (Meaning.leaves_declareTypeVars (C := .any)
    (fun p hp => (Walk.leaves_typeParams hsettle _ p hp).1)
    (fun p hp => (Walk.leaves_typeParams hsettle _ p hp).2)).spares

theorem spares_typeOf (t : TypeExpr) : Spares (Walk.typeOf settle t) :=
  (Walk.leaves_typeOf hsettle .any t).spares

theorem spares_registerAlias (d : AliasDecl) : Spares (registerAlias settle d) := by
  have hvars := spares_declareTypeVars hsettle d.typeParams
  have htype := spares_typeOf hsettle d.type
  unfold registerAlias
  grind

namespace Interface

theorem spares_addFields (unit : Nat) (ps : List PropertySpec) (c : Collected) :
    Spares (addFields settle unit ps c) := by
  induction ps generalizing c with
  | nil => exact spares_pure c
  | cons p ps ih =>
    have htype := spares_typeOf hsettle p.type
    have hadd (f : Field) : Spares (addField unit p.position f c) := by
      unfold addField
      grind
    unfold addFields
    grind

theorem spares_addIndex (spec : Option IndexSpec) (c : Collected) :
    Spares (addIndex settle spec c) := by
  have htype := spares_typeOf hsettle
  unfold addIndex
  grind

theorem spares_addDecls (params : List TypeVar) (ds : List (Nat × InterfaceDecl)) (c : Collected) :
    Spares (addDecls settle params ds c) := by
  induction ds generalizing c with
  | nil => exact spares_pure c
  | cons d ds ih =>
    obtain ⟨unit, d⟩ := d
    have hbases := (Walk.leaves_typesOf hsettle .any d.bases).spares
    have hfields := spares_addFields hsettle unit d.members.properties
    have hindex := spares_addIndex hsettle d.members.index
    have hcalls := (Walk.leaves_callsOf hsettle .any d.members.calls).spares
    have hdecl : Spares (addDecl settle params unit d c) := by
      unfold addDecl
      refine spares_inUnit ?_
      grind
    exact spares_bind hdecl ih

theorem spares_register (g : Group) : Spares (register settle g) := by
  unfold register
  split
  · exact spares_pure ()
  · refine spares_inUnit (spares_bind (spares_declareTypeVars hsettle _) fun vars => ?_)
    refine spares_bind (spares_addDecls hsettle ..) fun c => ?_
    grind

end Interface

end Settled

/-! ## Reserving names -/

/-- The type name that a declaration is about. -/
def Declaration.typeName? : Declaration → Option String
  | .alias d => some d.name
  | .interface d => some d.name
  | .enumeration d => some d.name
  | .classDecl d => some d.name
  | _ => none

namespace Session

/-- Nothing but names with the property may have become declared. -/
structure Reserved (P : String → Prop) (s s' : Session) : Prop where
  table : s'.table = s.table
  classes : s'.classes = s.classes
  registering : s'.registering = s.registering
  pending : s'.pending = s.pending
  names : ∀ name, ¬P name → s'.names.lookup name = s.names.lookup name

variable {P Q : String → Prop} {s'' : Session}

theorem Reserved.refl (s : Session) : s.Reserved P s := ⟨rfl, rfl, rfl, rfl, fun _ _ => rfl⟩

theorem Reserved.trans (h : s.Reserved P s') (h' : s'.Reserved P s'') : s.Reserved P s'' :=
  ⟨h'.table.trans h.table, h'.classes.trans h.classes, h'.registering.trans h.registering,
    h'.pending.trans h.pending, fun name hn => (h'.names name hn).trans (h.names name hn)⟩

theorem Reserved.mono (h : s.Reserved P s') (hPQ : ∀ name, P name → Q name) : s.Reserved Q s' :=
  ⟨h.table, h.classes, h.registering, h.pending,
  fun name hn => h.names name fun hp => hn (hPQ name hp)⟩

/-- The name is that of a class declared at a place. -/
def NamesClass (s : Session) (name : String) (unit : Nat) : Prop :=
  ∃ decl, s.names.lookup name = some decl ∧ decl.kind = .classDecl ∧ decl.unit = some unit

end Session

namespace Pass

variable {interfaces : List Interface.Group}

/-- A name that is free is reserved, and no other. -/
theorem declareName_spec {position : Position} {kind : NameKind} {params : List TypeParam}
    (h : declareName unit position name kind params w s = some (done, s')) :
    s.Reserved (· = name) s' ∧ (s.names.lookup name = none → done = true ∧
      ∃ decl, s'.names.lookup name = some decl ∧ decl.kind = kind ∧ decl.unit = some unit) := by
  obtain ⟨_, _, ht, h⟩ := bind_eq_some.1 h
  cases ht
  cases hlook : s.names.lookup name with
  | some before =>
    rw [hlook] at h
    refine ⟨?_, fun hnone => by cases hnone⟩
    obtain ⟨_, t, hreport, hrest⟩ := bind_eq_some.1 h
    cases hrest
    cases hreport
    exact ⟨rfl, rfl, rfl, rfl, fun _ _ => rfl⟩
  | none =>
    rw [hlook] at h
    obtain ⟨_, t, hupdate, hrest⟩ := bind_eq_some.1 h
    cases hrest
    cases hupdate
    refine ⟨⟨rfl, rfl, rfl, rfl, fun other hne => ?_⟩, fun _ => ⟨rfl, ?_⟩⟩
    · change List.lookup other (_ :: s.names) = _
      rw [List.lookup_cons, beq_false_of_ne hne]
    · exact ⟨_, List.lookup_cons_self, rfl, rfl⟩

theorem declareUnit_reserved (h : declareUnit interfaces unit d w s = some (done, s')) :
    s.Reserved (fun name => d.typeName? = some name) s' := by
  have hname {position : Position} {name : String} {kind : NameKind} {params : List TypeParam}
      (hd : d.typeName? = some name)
      (h : declareName unit position name kind params w s = some (done, s')) :
      s.Reserved (fun name => d.typeName? = some name) s' :=
    (declareName_spec h).1.mono fun _ hn => hn ▸ hd
  cases d with
  | «alias» d => exact hname rfl h
  | interface d =>
    by_cases hfirst : interfaces.any fun g => (g.decls.head?.map Prod.fst) = some unit
    · rw [declareUnit, if_pos hfirst] at h
      exact hname rfl h
    · rw [declareUnit, if_neg hfirst] at h
      cases h
      exact .refl s
  | enumeration d => exact hname rfl h
  | classDecl d => exact hname rfl h
  | _ =>
    cases h
    exact .refl s

/-- **The first declaration of a name reserves it.** A class that shares its name with no other
declaration of a type is reserved under it. -/
theorem declareUnits_spec {all reserved : List (Nat × Declaration)}
    (h : declareUnits interfaces all w s = some (reserved, s'))
    (hplaces : (all.map Prod.fst).Nodup) :
    s.Reserved (fun name => ∃ p ∈ all, p.2.typeName? = some name) s' ∧ reserved ⊆ all ∧
      ∀ unit d, (unit, .classDecl d) ∈ all → s.names.lookup d.name = none →
        (∀ p ∈ all, p.2.typeName? = some d.name → p.1 = unit) →
          (unit, .classDecl d) ∈ reserved ∧ s'.NamesClass d.name unit := by
  induction all generalizing s reserved with
  | nil =>
    cases h
    exact ⟨.refl _, List.Subset.refl _, fun _ _ hmem => nomatch hmem⟩
  | cons p all ih =>
    obtain ⟨place, decl⟩ := p
    obtain ⟨hfresh, hplaces⟩ := List.nodup_cons.mp hplaces
    obtain ⟨done, t, hfirst, h⟩ := bind_eq_some.1 h
    have hown := declareUnit_reserved hfirst
    -- Whether or not the first is reserved, the others are looked at in the session it leaves.
    obtain ⟨others, hrest, hreserved⟩ : ∃ others,
        declareUnits interfaces all w t = some (others, s') ∧
          reserved = if done then (place, decl) :: others else others := by
      cases done with
      | true =>
        obtain ⟨others, t', hrest, hpure⟩ := bind_eq_some.1 h
        cases hpure
        exact ⟨others, hrest, rfl⟩
      | false => exact ⟨reserved, h, rfl⟩
    obtain ⟨hnames, hsub, hclasses⟩ := ih hrest hplaces
    refine ⟨?_, ?_, ?_⟩
    · refine (hown.mono fun name hn => ⟨(place, decl), List.mem_cons_self, hn⟩).trans
        (hnames.mono ?_)
      rintro name ⟨q, hq, hn⟩
      exact ⟨q, List.mem_cons_of_mem _ hq, hn⟩
    · rw [hreserved]
      split
      · exact List.cons_subset_cons _ hsub
      · exact fun q hq => List.mem_cons_of_mem _ (hsub hq)
    · intro unit d hmem hfree honly
      rcases List.mem_cons.mp hmem with heq | hmem
      · obtain ⟨rfl, rfl⟩ := Prod.mk.inj heq
        obtain ⟨rfl, hreservedName⟩ := (declareName_spec hfirst).2 hfree
        rw [hreserved, if_pos rfl]
        refine ⟨List.mem_cons_self, ?_⟩
        unfold Session.NamesClass
        rw [hnames.names d.name ?_]
        · exact hreservedName
        · rintro ⟨q, hq, hn⟩
          exact hfresh (List.mem_map.mpr ⟨q, hq, honly q (List.mem_cons_of_mem _ hq) hn⟩)
      · have hne : decl.typeName? ≠ some d.name := by
          intro hn
          have : place = unit := honly (place, decl) List.mem_cons_self hn
          exact hfresh (this ▸ List.mem_map.mpr ⟨_, hmem, rfl⟩)
        obtain ⟨hin, hnamed⟩ := hclasses unit d hmem ((hown.names d.name hne).trans hfree)
          fun q hq hn => honly q (List.mem_cons_of_mem _ hq) hn
        refine ⟨?_, hnamed⟩
        rw [hreserved]
        split
        · exact List.mem_cons_of_mem _ hin
        · exact hin

end Pass

/-! ## Built-in classes -/

namespace Session

/-- Names that were declared before stand for what they stood for. -/
structure Supplied (s s' : Session) : Prop where
  table : s.table.Keeps s'.table
  registering : s'.registering = s.registering
  pending : s'.pending = s.pending
  names : ∀ name decl, s.names.lookup name = some decl → s'.names.lookup name = some decl
  classes : ∀ name decl, s.names.lookup name = some decl →
    s'.classes.lookup name = s.classes.lookup name

variable {s'' : Session}

theorem Spared.supplied (h : s.Spared s') : s.Supplied s' :=
  ⟨h.table, h.registering, h.pending, fun _ _ hn => h.names ▸ hn, fun _ _ _ => h.classes ▸ rfl⟩

theorem Supplied.trans (h : s.Supplied s') (h' : s'.Supplied s'') : s.Supplied s'' where
  table := h.table.trans h'.table
  registering := h'.registering.trans h.registering
  pending := h'.pending.trans h.pending
  names name decl hn := h'.names name decl (h.names name decl hn)
  classes name decl hn := (h'.classes name decl (h.names name decl hn)).trans
    (h.classes name decl hn)

theorem Supplied.settled (h : s.Supplied s') (hs : s.Settled) : s'.Settled := by
  unfold Settled
  rwa [h.pending]

end Session

namespace Prelude

variable {a : Unit}

theorem declareClass_spec {t : Ty} {params : List Parameter} (hs : s.Settled)
    (h : declareClass name t params w s = some (a, s')) : s.Supplied s' := by
  obtain ⟨_, _, ht, h⟩ := bind_eq_some.1 h
  cases ht
  cases hlook : s.names.lookup name with
  | some decl =>
    simp only [hlook, Option.isSome_some, if_true] at h
    cases h
    exact (Session.Spared.refl s).supplied
  | none =>
    simp only [hlook, Option.isSome_none, Bool.false_eq_true, if_false] at h
    obtain ⟨defined, s1, hdefine, h⟩ := bind_eq_some.1 h
    have h1 := spares_interning (Interning.keeps_define _ _ _) hs hdefine
    cases defined with
    | error e =>
      cases h
      exact h1.supplied
    | ok _ =>
      obtain ⟨reference, s2, hreference, h⟩ := bind_eq_some.1 h
      obtain ⟨type, s3, htype, h⟩ := bind_eq_some.1 h
      obtain ⟨_, s4, hupdate, h⟩ := bind_eq_some.1 h
      have h2 := h1.trans
        (spares_interning (Interning.keeps_referenceTo _ _) (h1.settled hs) hreference)
      have h3 := h2.trans (spares_interning (Interning.keeps_classOf _ _ _) (h2.settled hs) htype)
      cases hupdate
      -- Only the name itself, which was free, is entered in front.
      have hne {other : String} {decl : TypeName} (hn : s.names.lookup other = some decl) :
          (other == name) = false := by
        refine beq_false_of_ne ?_
        rintro rfl
        simp [hlook] at hn
      have hadded : s.Supplied { s3 with
          names := (name, { kind := .builtin }) :: s3.names
          classes := (name, { type, reference, instanceType := t }) :: s3.classes } := by
        refine ⟨h3.table, h3.registering, h3.pending, fun other decl hn => ?_,
          fun other decl hn => ?_⟩
        · rw [List.lookup_cons, hne hn, h3.names]
          exact hn
        · rw [List.lookup_cons, hne hn, h3.classes]
      refine hadded.trans ((?_ : Spares _) (hadded.settled hs) h).supplied
      grind

/-- The built-in classes take no declared name. -/
theorem declare_spec (hs : s.Settled) (h : declare w s = some (a, s')) : s.Supplied s' := by
  obtain ⟨getTime, s1, h1, h⟩ := bind_eq_some.1 h
  obtain ⟨toISOString, s2, h2, h⟩ := bind_eq_some.1 h
  obtain ⟨date, s3, h3, h⟩ := bind_eq_some.1 h
  obtain ⟨time, s4, h4, h⟩ := bind_eq_some.1 h
  obtain ⟨_, s5, h5, h⟩ := bind_eq_some.1 h
  obtain ⟨error, s6, h6, h⟩ := bind_eq_some.1 h
  have k1 := spares_interning (Interning.keeps_functionOf _) hs h1
  have k2 := k1.trans (spares_interning (Interning.keeps_functionOf _) (k1.settled hs) h2)
  have k3 := k2.trans (spares_interning (Interning.keeps_objectOf _) (k2.settled hs) h3)
  have k4 := (k3.trans (spares_interning (Interning.keeps_unionOf _) (k3.settled hs) h4)).supplied
  have k5 := k4.trans (declareClass_spec (k4.settled hs) h5)
  have k6 := k5.trans (spares_interning (Interning.keeps_objectOf _) (k5.settled hs) h6).supplied
  exact k6.trans (declareClass_spec (k6.settled hs) h)

end Prelude

/-! ## Before the first class -/

namespace Pass

variable {units : Array Declaration}

/-- Every class has a type name of its own. -/
def ClassesNamed (units : Array Declaration) : Prop :=
  ∀ (u v : Nat) (d : ClassDecl) (e : Declaration), units[u]? = some (.classDecl d) →
    units[v]? = some e → e.typeName? = some d.name → v = u

/-- All classes are reserved and none is built. -/
structure Awaits (units : Array Declaration) (s : Session) : Prop where
  keyed : s.table.Keyed
  settled : s.Settled
  idle : s.registering = []
  named : ∀ (u : Nat) (d : ClassDecl), units[u]? = some (.classDecl d) → s.NamesClass d.name u
  unbuilt : ∀ (u : Nat) (d : ClassDecl), units[u]? = some (.classDecl d) →
    s.classes.lookup d.name = none

theorem Awaits.of_supplied {enums : List (String × Ty)} (h : Awaits units s)
    (hs : { s with enums := enums }.Supplied s') : Awaits units s' where
  keyed := hs.table.keyed h.keyed
  settled := hs.settled h.settled
  idle := hs.registering.trans h.idle
  named u d hd := by
    obtain ⟨decl, hlook, hdecl⟩ := h.named u d hd
    exact ⟨decl, hs.names _ _ hlook, hdecl⟩
  unbuilt u d hd := by
    obtain ⟨decl, hlook, -⟩ := h.named u d hd
    exact (hs.classes _ _ hlook).trans (h.unbuilt u d hd)

/-- Work on every declaration that adds enums at most. -/
theorem Awaits.forM {f : Nat × Declaration → Check Unit} {ps : List (Nat × Declaration)}
    (hf : ∀ p s s', s.Settled → f p w s = some ((), s') → ∃ enums,
    { s with enums := enums }.Spared s')
    (h : Awaits units s) (hrun : ps.forM f w s = some ((), s')) : Awaits units s' := by
  induction ps generalizing s with
  | nil =>
    cases hrun
    exact h
  | cons p ps ih =>
    obtain ⟨_, t, hfirst, hrest⟩ := bind_eq_some.1 hrun
    obtain ⟨enums, ht⟩ := hf p s t h.settled hfirst
    exact ih (h.of_supplied ht.supplied) hrest

theorem defineEnum_spec (hs : s.Settled)
    (h : defineEnum unit d w s = some ((), s')) : ∃ enums, { s with enums := enums }.Spared s' := by
  cases d with
  | enumeration d =>
    obtain ⟨w', -, h⟩ := of_inUnit h
    obtain ⟨enums, hk⟩ :=
      Enum.register_spec (s := { s with scopes := (s.scopes.add (some globals)).2 }) hs h
    exact ⟨enums, hk.table, hk.names, hk.enums, hk.classes, hk.registering, hk.pending⟩
  | _ =>
    cases h
    exact ⟨_, .refl s⟩

theorem spares_defineAliasOrInterface (interfaces : List Interface.Group) (unit : Nat)
    (d : Declaration) :
    Spares (defineAliasOrInterface (Function.settle units) interfaces unit d) := by
  cases d with
  | «alias» d => exact spares_inUnit (spares_registerAlias Function.leaves_settle_settled d)
  | interface d =>
    rw [defineAliasOrInterface]
    cases interfaces.find? (·.name = d.name) with
    | some g => exact Interface.spares_register Function.leaves_settle_settled g
    | none => exact spares_pure ()
  | _ => exact spares_pure ()

theorem mem_zipIdx_swap {u : Nat} :
    (u, d) ∈ units.toList.zipIdx.map (fun p => (p.2, p.1)) ↔ units[u]? = some d := by
  simp [List.mem_zipIdx_iff_getElem?]

theorem nodup_zipIdx_swap (units : Array Declaration) :
    ((units.toList.zipIdx.map fun p => (p.2, p.1)).map Prod.fst).Nodup := by
  have hrange : (units.toList.zipIdx.map fun p => (p.2, p.1)).map Prod.fst =
      List.range units.size := by
    simp [List.map_map, Function.comp_def, List.range_eq_range']
  rw [hrange]
  exact List.nodup_range

/-- **A pass reserves every class before it builds one.** What is left to do after the other types
are defined is to build the reserved classes in the order of the program. -/
theorem awaits_of_defines {recorded : Array (Option Recorded)} (hnames : ClassesNamed units)
    (h : defineTypes units w { recorded } = some ((), s')) :
    ∃ (reserved : List (Nat × Declaration)) (s : Session), Awaits units s ∧
      (∀ p ∈ reserved, units[p.1]? = some p.2) ∧
      (∀ u d, units[u]? = some (.classDecl d) → (u, .classDecl d) ∈ reserved) ∧
      reserved.forM (fun p => defineClass (Function.settle units) units p.1 p.2) w s =
        some ((), s') := by
  obtain ⟨reserved, s1, h1, h⟩ := bind_eq_some.1 h
  obtain ⟨_, s2, h2, h⟩ := bind_eq_some.1 h
  obtain ⟨_, s3, h3, h⟩ := bind_eq_some.1 h
  obtain ⟨_, s4, h4, h⟩ := bind_eq_some.1 h
  obtain ⟨hreserved, hsub, hclasses⟩ := declareUnits_spec h1 (nodup_zipIdx_swap units)
  have hclass {u : Nat} {d : ClassDecl} (hd : units[u]? = some (.classDecl d)) :
      (u, .classDecl d) ∈ reserved ∧ s1.NamesClass d.name u :=
    hclasses u d (mem_zipIdx_swap.mpr hd) rfl fun p hp hname =>
      hnames u p.1 d p.2 hd (mem_zipIdx_swap.mp hp) hname
  have k1 : Awaits units s1 := by
    refine ⟨?_, ?_, hreserved.registering, fun u d hd => (hclass hd).2, fun u d hd => ?_⟩
    · rw [hreserved.table]
      exact Table.keyed_empty
    · unfold Session.Settled
      rw [hreserved.pending]
      exact fun p hp => nomatch hp
    · rw [hreserved.classes]
      rfl
  have k2 := k1.of_supplied (Prelude.declare_spec k1.settled h2)
  have k3 := k2.forM (fun p s s' hs hp => defineEnum_spec hs hp) h3
  have k4 := k3.forM (fun p s s' hs hp =>
    ⟨s.enums, spares_defineAliasOrInterface _ p.1 p.2 hs hp⟩) h4
  exact ⟨reserved, s4, k4, fun p hp => mem_zipIdx_swap.mp (hsub hp), fun u d hd => (hclass hd).1, h⟩

end Pass

end ShapeCheck
