import ShapeCheck.Proofs.Layers
import ShapeCheck.Proofs.Joins

/-!
# Unions as targets

A union takes what one of its members takes, but only of a source that is compared as a whole: a
reference, a union or `boolean` is taken apart first. The union of some types, in turn, has not all
of them as members, since a literal is left out next to its primitive. What fits a type therefore
need not fit the unions that are made with it, but it does if it has nothing to be resolved and is
no union itself.

* `Assign.Whole.holds` says that a type fits a target if all its parts do.
* `Assign.part_unionOf` is how the parts come to fit a union.
-/

namespace ShapeCheck

open Table

variable {ts : List Ty} {u : Ty}

namespace Assign

variable {R : Table → Ty → Ty → Prop} {T T1 : Table} {s t r m p k b : Ty}

/-! ## Literals and their primitives -/

/-- Primitives and literals, as sources and as targets, are compared at once. -/
theorem unfolds_byAtom {v : Bool} (hid : byIdentity s t = none) (hs : (T.shape s).isPlain = true)
    (ht : (T.shape t).isTaken = true) (hparameter : ∀ w, T.shape t ≠ .parameter w)
    (h : byAtom T s t = some v) : Unfolds R T s t ↔ v = true := by
  rw [unfolds_resolved hid (Ty.hasOpenHead_of_isPlain hs) (not_isUnion_of_isPlain hs)
    (not_isReference_of_isTaken ht), ← confirms_pure (T := T)]
  unfold stepResolved
  rw [confirms_get, toEnum_of_isTaken ht]
  cases htarget : T.shape t with
  | union | intersection | reference | enumeration | enumMember =>
    simp [htarget, Shape.isTaken] at ht
  | parameter w => exact absurd htarget (hparameter w)
  | _ =>
    cases hsource : T.shape s with
    | union | intersection | reference | enumeration | enumMember | parameter =>
      simp [hsource, Shape.isPlain] at hs
    | _ => simp only [h]

/-- The source fits a literal, and the target is the primitive of that. -/
def ToBase (T : Table) (s b : Ty) : Prop :=
  ∃ m l, T.shape m = .literal l ∧ Lasts T s m ∧ b = .prim l.base

/-- One layer of the rules confirms that what fits a literal fits its primitive. -/
theorem ToBase.unfolds (h : ToBase T s b) (hT : T.Sound) (hs : T.Has s)
    (hR : ∀ T s b, ToBase T s b → R T s b) : Unfolds R T s b := by
  obtain ⟨m, l, hm, hfits, rfl⟩ := h
  have hprim : ∀ q, m ≠ .prim q := by
    rintro q rfl
    simp [Table.shape] at hm
  have hbase : Ty.prim l.base ≠ .never ∧ Ty.prim l.base ≠ .any ∧ Ty.prim l.base ≠ .invalid ∧
      Ty.prim l.base ≠ .unknown := by
    cases l <;> simp [Literal.base, Ty.never, Ty.any, Ty.invalid, Ty.unknown]
  have hmhas : T.Has m := has_of_shape (by simp [hm])
  have hmtaken : (T.shape m).isTaken = true := by rw [hm]; rfl
  have hlayer := hfits.unfolds hT (R := Lasts) fun _ _ _ => id
  have hlater {T1 : Table} {u : Ty} (hle : T ≤ T1) (hu : Lasts T1 u m) : R T1 u (.prim l.base) :=
    hR _ _ _ ⟨m, l, (shape_of_le hle hmhas).trans hm, hu, rfl⟩
  cases hidm : byIdentity s m with
  | some c =>
    cases c with
    | false => exact absurd hidm (hfits.not_false hT)
    | true =>
      by_cases heq : s = m
      · -- a literal is compared with its own primitive
        subst heq
        cases hid : byIdentity s (.prim l.base) with
        | some c =>
          rw [unfolds_byIdentity hid]
          cases c with
          | true => rfl
          | false => exact absurd (byIdentity_false hid) (by simp [hbase, Ty.unknown, hprim])
        | none =>
          refine (unfolds_byAtom (v := true) hid (by rw [hm]; rfl) rfl
            (by simp [Table.shape]) ?_).mpr rfl
          unfold byAtom
          rw [hm]
          simp [Table.shape]
      · refine (unfolds_byIdentity (b := true) ?_).mpr rfl
        rw [byIdentity_true] at hidm ⊢
        simp only [heq, Ty.any, Ty.invalid, Ty.unknown, hprim, false_or, Ty.never] at hidm ⊢
        grind
  | none =>
    cases hid : byIdentity s (.prim l.base) with
    | some c =>
      rw [unfolds_byIdentity hid]
      cases c with
      | true => rfl
      | false =>
        rcases byIdentity_false hid with rfl | hnever
        · have hne := Ne.symm (hprim .unknown)
          simp [byIdentity, Ty.any, Ty.invalid, Ty.unknown, hprim, hne] at hidm
        · exact absurd hnever hbase.1
    | none =>
      have hclosed : (T.shape m).isReference = false := not_isReference_of_isTaken hmtaken
      cases hsource : T.shape s with
      | reference name arguments =>
        have href : (T.shape s).isReference = true := by rw [hsource]; rfl
        obtain ⟨n, r, T1, hrun, -, hle, -⟩ := hT.exists_resolvesTo hs
        exact (unfolds_source hid href hrun).mpr
          (hlater hle ((unfolds_source hidm href hrun).mp hlayer))
      | union ms =>
        refine (unfolds_sourceUnion hid hsource rfl).mpr fun k hk => hlater (le_refl T) ?_
        exact (unfolds_sourceUnion hidm hsource hclosed).mp hlayer k hk
      | intersection ms =>
        obtain ⟨n, r, T1, hrun, -, hle, -⟩ := hT.exists_resolvesTo hs
        have hmtaken1 : (T1.shape m).isTaken = true := by rwa [shape_of_le hle hmhas]
        have hsource1 := (shape_of_le hle hs).trans hsource
        rw [unfolds_sourceIntersection hid hsource rfl hrun]
        have hlayer1 := (unfolds_sourceIntersection hidm hsource hclosed hrun).mp hlayer
        split_ifs at hlayer1 ⊢ with heq
        · obtain ⟨k, hk, hkm⟩ := (confirms_intersection hmtaken1 hsource1).mp hlayer1
          exact (confirms_intersection rfl hsource1).mpr ⟨k, hk, hlater hle hkm⟩
        · exact hlater hle hlayer1
      | enumMember enum name v =>
        exact (unfolds_enumMember hid rfl hsource).mpr
          (hlater (le_refl T) ((unfolds_enumMember hidm hmtaken hsource).mp hlayer))
      | enumeration e =>
        obtain ⟨u, T1, hat, -⟩ :=
          settles_valueUnion hT.wellFormed (has_enumMembers hT.wellFormed hsource)
        exact (unfolds_enumeration hid rfl hsource hat.result).mpr
          (hlater hat.adds.le ((unfolds_enumeration hidm hmtaken hsource hat.result).mp hlayer))
      | parameter w =>
        exact (unfolds_parameter hid rfl hsource).mpr
          (hlater (le_refl T) ((unfolds_parameter hidm hmtaken hsource).mp hlayer))
      | _ =>
        have hfalse := (unfolds_byAtom (v := false) hidm (by rw [hsource]; rfl) hmtaken
          (by simp [hm]) (by simp [byAtom, hm])).mp hlayer
        exact absurd hfalse (by simp)

theorem ToBase.of_le (h : ToBase T s b) (hle : T ≤ T1) : ToBase T1 s b := by
  obtain ⟨m, l, hm, hfits, rfl⟩ := h
  exact ⟨m, l, (shape_of_le hle (has_of_shape (by simp [hm]))).trans hm,
    hfits.of_le hle, rfl⟩

/-! ## Parts -/

/-- The source fits the target, or a literal of which that is the primitive. -/
def Near (T : Table) (s t : Ty) : Prop := Lasts T s t ∨ ToBase T s t

theorem Near.of_le (h : Near T s t) (hle : T ≤ T1) : Near T1 s t :=
  h.imp (Lasts.of_le · hle) (ToBase.of_le · hle)

theorem Near.unfolds (h : Near T s t) (hT : T.Sound) (hs : T.Has s)
    (hR : ∀ T s t, Near T s t → R T s t) : Unfolds R T s t := by
  rcases h with h | h
  · exact h.unfolds hT fun _ _ _ h => hR _ _ _ (.inl h)
  · exact h.unfolds hT hs fun _ _ _ h => hR _ _ _ (.inr h)

/-- A type that is compared as a whole, and is neither all nor nothing, fits a target or a member
of it. -/
structure Part (T : Table) (p t : Ty) : Prop where
  proper : p.isTop = false ∧ p ≠ .never
  closed : Ty.hasOpenHead T p = false
  single : ¬(T.shape p).IsUnion
  near : Near T p t ∨ ∃ ms, T.shape t = .union ms ∧ ∃ m ∈ ms, Near T p m

theorem Lasts.ne_never (h : Lasts T p t) (hT : T.Sound) (hp : p.isTop = false ∧ p ≠ .never) :
    t ≠ .never := by
  rintro rfl
  have hid := h.not_false hT
  simp only [Ty.isTop, Bool.or_eq_false_iff, decide_eq_false_iff_not] at hp
  simp [byIdentity, hp, Ty.never, Ty.any, Ty.invalid, Ty.unknown] at hid

theorem Part.not_never (h : Part T p t) (hT : T.Sound) : t ≠ .never := by
  rcases h.near with (h' | ⟨m, l, -, -, rfl⟩) | ⟨ms, hms, -⟩
  · exact h'.ne_never hT h.proper
  · cases l <;> simp [Literal.base, Ty.never]
  · rintro rfl
    simp [Table.shape] at hms

theorem Part.not_false (h : Part T p t) (hT : T.Sound) : byIdentity p t ≠ some false := by
  intro hid
  rcases byIdentity_false hid with rfl | hnever
  · exact absurd h.proper.1 (by decide)
  · exact h.not_never hT hnever

theorem Part.of_le (h : Part T p t) (hT : T.WellFormed) (hp : T.Has p)
    (ht : T.Has t) (hle : T ≤ T1) :
    Part T1 p t := by
  refine ⟨h.proper, (Ty.hasOpenHead_of_le hT hle hp).trans h.closed, ?_,
    h.near.imp (·.of_le hle) ?_⟩
  · rw [shape_of_le hle hp]
    exact h.single
  · rintro ⟨ms, hms, m, hm, hnear⟩
    exact ⟨ms, (shape_of_le hle ht).trans hms, m, hm, hnear.of_le hle⟩

/-- What a part fits it still fits once the target is resolved. -/
theorem Part.resolved (h : Part T p t) (hT : T.Sound) (ht : (T.shape t).isReference = true)
    (hr : T.ResolvesTo t r) : Part T p r := by
  refine ⟨h.proper, h.closed, h.single, .inl ?_⟩
  rcases h.near with (h' | ⟨m, l, -, -, rfl⟩) | ⟨ms, hms, -⟩
  · exact .inl (h'.resolved hT (not_isReference_of_closed h.closed) ht hr)
  · simp [Table.shape, Shape.isReference] at ht
  · simp [hms, Shape.isReference] at ht

/-- One layer of the rules confirms that a part fits a union of which it fits a member. -/
theorem Part.unfolds (h : Part T p t) (hT : T.Sound) (hp : T.Has p)
    (hR : ∀ T s t, Near T s t → R T s t) : Unfolds R T p t := by
  rcases h.near with h' | ⟨ms, hms, m, hm, h'⟩
  · exact h'.unfolds hT hp hR
  cases hid : byIdentity p t with
  | none => exact (unfolds_targetUnion hid h.closed h.single hms).mpr (.inr ⟨m, hm, hR _ _ _ h'⟩)
  | some b =>
    cases b with
    | true => exact (unfolds_byIdentity hid).mpr rfl
    | false => exact absurd hid (h.not_false hT)

/-- A type of which, once it is resolved, all parts fit a target. -/
def Whole (T : Table) (s t : Ty) : Prop :=
  ∃ r, T.ResolvesTo s r ∧ Ty.hasOpenHead T r = false ∧ ∀ p ∈ T.members r, Part T p t

theorem exists_mem_members (hT : T.WellFormed) (t : Ty) : ∃ m, m ∈ T.members t := by
  unfold members
  split
  · next ms hms =>
    exact List.exists_mem_of_length_pos (by have := (hT.canonical_union hms).several; omega)
  · exact ⟨t, List.mem_singleton_self t⟩

theorem members_of_not_isUnion (h : ¬(T.shape t).IsUnion) : T.members t = [t] := by
  unfold members
  split
  · next ms hms => exact absurd ⟨ms, hms⟩ h
  · rfl

theorem proper_of_canonical {ms : List Ty} (h : T.Canonical ms) (hp : p ∈ ms) :
    p.isTop = false ∧ p ≠ .never := by
  obtain ⟨hnever, hany, hunknown, hinvalid⟩ := h.proper p hp
  exact ⟨by simp [Ty.isTop, hany, hunknown, hinvalid], hnever⟩

theorem not_isUnion_of_member (hT : T.WellFormed) (hm : m ∈ T.members t) :
    ¬(T.shape m).IsUnion := by
  by_cases hunion : (T.shape t).IsUnion
  · obtain ⟨ms, hms⟩ := hunion
    exact hT.not_isUnion hms (members_of_union hms ▸ hm)
  · rw [members_of_not_isUnion hunion, List.mem_singleton] at hm
    exact hm ▸ hunion

/-- One layer of the rules confirms that a type fits what all its parts fit. -/
theorem Whole.unfolds (h : Whole T s t) (hT : T.Sound) (hs : T.Has s) (ht : T.Has t)
    (hnear : ∀ T s t, Near T s t → R T s t) (hpart : ∀ T s t, Part T s t → R T s t)
    (hR : ∀ T s t, Whole T s t → R T s t) : Unfolds R T s t := by
  obtain ⟨r, hr, hclosed, hparts⟩ := h
  have hreplaced : R T r t := hR _ _ _ ⟨r, resolvesTo_of_closed hclosed, hclosed, hparts⟩
  have hsame (hopen : Ty.hasOpenHead T s = false) : r = s :=
    hr.unique (resolvesTo_of_closed hopen)
  obtain ⟨n, hrun⟩ := id hr
  cases hid : byIdentity s t with
  | some b =>
    rw [unfolds_byIdentity hid]
    cases b with
    | true => rfl
    | false =>
      obtain ⟨p, hp⟩ := exists_mem_members hT.wellFormed r
      rcases byIdentity_false hid with rfl | hnever
      · obtain rfl := hsame rfl
        obtain rfl : p = .unknown := List.mem_singleton.mp hp
        exact absurd (hparts _ hp).proper.1 (by decide)
      · exact absurd hnever ((hparts p hp).not_never hT)
  | none =>
    cases hsref : (T.shape s).isReference with
    | true => exact (unfolds_source hid hsref hrun).mpr hreplaced
    | false =>
      cases htref : (T.shape t).isReference with
      | true =>
        obtain ⟨k, q, T1, hrunt, hT1, hle, -, hq⟩ := hT.exists_resolvesTo ht
        have hrhas := hr.has hT hs
        refine (unfolds_target hid hsref htref hrunt).mpr (hR _ _ _ ⟨r, hr.of_le hT hs hle,
          (Ty.hasOpenHead_of_le hT.wellFormed hle hrhas).trans hclosed, fun p hp => ?_⟩)
        rw [members_of_le hle hrhas] at hp
        have hphas := hT.wellFormed.has_member hrhas hp
        exact ((hparts p hp).of_le hT.wellFormed hphas ht hle).resolved hT1
          (shape_of_le hle ht ▸ htref) hq
      | false =>
        cases hopen : Ty.hasOpenHead T s with
        | false =>
          obtain rfl := hsame hopen
          by_cases hunion : (T.shape r).IsUnion
          · obtain ⟨ms, hms⟩ := hunion
            refine (unfolds_sourceUnion hid hms htref).mpr fun m hm => hpart _ _ _ (hparts m ?_)
            simpa [members_of_union hms] using hm
          · exact (hparts r (by simp [members_of_not_isUnion hunion])).unfolds hT hs hnear
        | true =>
          obtain ⟨ms, hms⟩ : ∃ ms, T.shape s = .intersection ms := by
            unfold Ty.hasOpenHead at hopen
            cases hshape : T.shape s <;> simp_all [Shape.isReference]
          rw [unfolds_sourceIntersection hid hms htref hrun, if_neg]
          · exact hreplaced
          · rintro rfl
            simp [hopen] at hclosed

/-- The source fits the target as a whole, as a part of it, or as it is. -/
def Fitted (T : Table) (s t : Ty) : Prop := Whole T s t ∨ Part T s t ∨ Near T s t

theorem Fitted.unfolds (h : Fitted T s t) (hT : T.Sound) (hs : T.Has s) (ht : T.Has t)
    (hR : ∀ T s t, Fitted T s t → R T s t) : Unfolds R T s t := by
  have hnear (T s t) (h : Near T s t) : R T s t := hR T s t (.inr (.inr h))
  rcases h with h | h | h
  · exact h.unfolds hT hs ht hnear (fun _ _ _ h => hR _ _ _ (.inr (.inl h))) fun _ _ _ h =>
      hR _ _ _ (.inl h)
  · exact h.unfolds hT hs hnear
  · exact h.unfolds hT hs hnear

theorem Fitted.holds (h : Fitted T s t) : Holds T s t :=
  ⟨Fitted, fun _ _ _ hT hs ht h => h.unfolds hT hs ht fun _ _ _ => id, h⟩

/-- **A type fits a target if all its parts do**, each by itself. -/
theorem Whole.holds (h : Whole T s t) : Holds T s t := Fitted.holds (.inl h)

theorem Part.holds (h : Part T p t) : Holds T p t := Fitted.holds (.inr (.inl h))

/-! ## The union of some types -/

/-- The union of some types is made by one call. -/
theorem called_unionOf (hT : T.WellFormed) (hts : ∀ t ∈ ts, T.Has t)
    (hrun : Ty.unionOf ts T = (u, T1)) : T.Called T1 ∧ T1.Has u := by
  have hcall : (Construction.union ts).run T = (u, T1) := hrun
  have hhas := Construction.has_run hT (c := .union ts) hts trivial
  rw [hcall] at hhas
  exact ⟨by simpa [hcall] using Table.Called.construct (.union ts) hts trivial, hhas⟩

/-- What fits a member of some types fits one of their union, perhaps as the primitive of a
literal. -/
theorem exists_near_unionMembers (hT : T.Sound) (hin : m ∈ T.flattened ts)
    (h : Lasts T p m) (hp : p.isTop = false ∧ p ≠ .never) :
    ∃ k ∈ Ty.unionMembers T ts, Near T p k := by
  simp only [mem_unionMembers_iff]
  generalize T.flattened ts = S at hin
  by_cases htops : Table.Tops S
  · -- the union is a type that takes everything
    have htop (q : Primitive) (hq : Ty.prim q ∈ T.joined S)
        (htrue : byIdentity p (.prim q) = some true) : ∃ k ∈ T.joined S, Near T p k :=
      ⟨.prim q, hq, .inl (lasts_of_byIdentity htrue T)⟩
    by_cases hinvalid : .invalid ∈ S
    · exact htop .invalid (Table.invalid_mem_joined.mpr hinvalid)
        (by simp [byIdentity_true, Ty.invalid])
    by_cases hany : .any ∈ S
    · exact htop .any ((any_mem_joined hinvalid).mpr hany) (by simp [byIdentity_true, Ty.any])
    have hunknown : .unknown ∈ S := by simpa [Table.Tops, hinvalid, hany] using htops
    exact htop .unknown ((unknown_mem_joined hinvalid hany).mpr hunknown)
      (by simp [byIdentity_true, Ty.unknown])
  · have hmem {k : Ty} (hk : T.Counts S k) : k ∈ T.joined S :=
      (mem_joined htops).mpr (.inl hk)
    by_cases hcounts : T.Counts S m
    · exact ⟨m, hmem hcounts, .inl h⟩
    by_cases hbase : ∃ l, T.literal? m = some l ∧ .prim l.base ∈ S
    · -- the primitive of the literal stands for it
      obtain ⟨l, hl, hbase⟩ := hbase
      refine ⟨.prim l.base, hmem ?_, .inr ⟨m, l, shape_of_literal? hl, h, rfl⟩⟩
      cases l with
      | boolean b => exact Table.counts_boolean.mpr (.inl hbase)
      | _ => exact (counts_prim (by simp [Literal.base]) (by simp [Literal.base])).mpr hbase
    · -- both truth values are there, so `boolean` stands for them
      have hsplits : (m = .truth true ∨ m = .truth false) ∧ Table.Splits S := by
        by_contra hno
        exact hcounts (.inl ⟨hin, h.ne_never hT hp, fun l hl hmem => hbase ⟨l, hl, hmem⟩, hno⟩)
      obtain ⟨htruth, htrue, hfalse, -⟩ := hsplits
      have hboolean := hmem (Table.counts_boolean.mpr (.inr ⟨htrue, hfalse⟩))
      rcases htruth with rfl | rfl
      · exact ⟨.boolean, hboolean, .inr ⟨.truth true, .boolean true, rfl, h, rfl⟩⟩
      · exact ⟨.boolean, hboolean, .inr ⟨.truth false, .boolean false, rfl, h, rfl⟩⟩

/-- **What fits one of some types is part of their union**, if it is compared as a whole. -/
theorem part_unionOf (hT : T.Sound) (hts : ∀ t ∈ ts, T.Has t)
    (hrun : Ty.unionOf ts T = (u, T1)) (hm : m ∈ ts) (hflat : T.members m = [m]) (h : Lasts T p m)
    (hp : T.Has p) (hproper : p.isTop = false ∧ p ≠ .never) (hclosed : Ty.hasOpenHead T p = false)
    (hsingle : ¬(T.shape p).IsUnion) : Part T1 p u := by
  obtain ⟨u', T', hat, -, hstands⟩ := Interning.settles_unionOf hT.wellFormed hts
  obtain ⟨rfl, rfl⟩ := Prod.mk.inj (hat.result.symm.trans hrun)
  have hle := hat.adds.le
  have hin : m ∈ T.flattened ts := by
    simp only [flattened, Set.mem_ofPred_eq, mem_allMembers]
    exact ⟨m, hm, by simp [hflat]⟩
  obtain ⟨k, hk, hnear⟩ := exists_near_unionMembers hT hin h hproper
  have hmember := (hstands k).mpr hk
  refine ⟨hproper, (Ty.hasOpenHead_of_le hT.wellFormed hle hp).trans hclosed, ?_, ?_⟩
  · rwa [shape_of_le hle hp]
  · by_cases hunion : (T'.shape u').IsUnion
    · obtain ⟨ms, hms⟩ := hunion
      exact .inr ⟨ms, hms, k, by simpa [members_of_union hms] using hmember, hnear.of_le hle⟩
    · rw [members_of_not_isUnion hunion, List.mem_singleton] at hmember
      exact .inl (hmember ▸ hnear.of_le hle)

end Assign

end ShapeCheck
