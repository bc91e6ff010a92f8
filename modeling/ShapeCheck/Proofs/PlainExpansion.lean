import ShapeCheck.Proofs.References

/-!
# Plain expansion

What an alias stands for can be found without remembering anything: replace every reference at the
top of a type by the target of its alias, go on in the result, and put unions and intersections
together again. This ends exactly where every way along the references ends.

* `Table.Clean` says that the error type is nowhere at the top of a type. Unions, intersections and
  readonly types of clean types are clean, and one with the error type is the error type.
-/

namespace ShapeCheck

namespace Ty

/-- Replaces the references at the top of a type and in the members of unions and intersections, one
by one, in at most so many nested steps. -/
def plainAt : Nat → Ty → Typing Ty
  | 0, _ => Typing.outOfSteps
  | depth + 1, t => do
    let table ← get
    match table.shape t with
    | .reference name arguments =>
      match table.alias? name, arguments with
      | some a, _ => plainAt depth a.target
      | none, [argument] =>
        if name = readonlyName then readonlyAt pure depth (← plainAt depth argument)
        else return .invalid
      | none, _ => return .invalid
    | .union ms => do unionOf (← ms.mapM (plainAt depth))
    | .intersection ms => do intersectionOf (← ms.mapM (plainAt depth))
    | _ => return t

end Ty

namespace Table

/-- The type expands plainly to another, given enough steps, also after the table has developed. -/
def Plain (T : Table) (t r : Ty) : Prop :=
  ∃ d, ∀ d' n T2, d ≤ d' → d ≤ n → T.Develops T2 → Ty.plainAt d' t n T2 = some (r, T2)

/-- The members that a type is put together of, as a union or an intersection. -/
def gathered (T : Table) (t : Ty) : List Ty :=
  match T.shape t with
  | .union ms => ms
  | .intersection ms => ms
  | _ => []

theorem gathered_eq (T : Table) (t : Ty) : T.gathered t = T.combined t := by
  unfold gathered combined
  cases T.shape t <;> rfl

/-- The error type is neither the type nor among its members, at any nesting. -/
inductive Clean (T : Table) : Ty → Prop
  | intro {t : Ty} (hhas : T.Has t) (hvalid : t ≠ .invalid)
    (hgathered : ∀ m ∈ T.gathered t, Clean T m) : Clean T t

/-- What the expansion of a type should come to: its plain expansion, or the error type where that
has no end. -/
def Yields (T : Table) (t r : Ty) : Prop :=
  T.Fine t ∧ T.Clean r ∧ T.Plain t r ∨ ¬T.Fine t ∧ r = .invalid

section Clean

variable {T T1 : Table} {t m : Ty} {ts : List Ty}

theorem Clean.ne_invalid (h : T.Clean t) : t ≠ .invalid := by
  cases h with
  | intro _ hvalid _ => exact hvalid

theorem Clean.has (h : T.Clean t) : T.Has t := by
  cases h with
  | intro hhas _ _ => exact hhas

theorem Clean.of_shapes (hhas : ∀ u, T.Has u → T1.Has u)
    (hshape : ∀ u, T.Has u → T1.shape u = T.shape u) (h : T.Clean t) : T1.Clean t := by
  induction h with
  | @intro t ht hvalid _ ih =>
    refine .intro (hhas t ht) hvalid fun m hm => ih m ?_
    unfold gathered at hm ⊢
    rwa [hshape t ht] at hm

theorem Clean.of_gains (hgains : T.Gains T1) (h : T.Clean t) : T1.Clean t :=
  h.of_shapes (fun _ ht => hgains.has ht) fun _ ht => hgains.shape ht

theorem Clean.member (h : T.Clean t) (hm : m ∈ T.members t) : T.Clean m := by
  cases hs : T.shape t with
  | union ms =>
    cases h with
    | intro _ _ hgathered =>
      refine hgathered m ?_
      simpa [members, gathered, hs] using hm
  | _ =>
    have hmt : m = t := by simpa [members, hs] using hm
    rwa [hmt]

theorem Clean.intersected (h : T.Clean t) (hm : m ∈ Ty.intersectionMembers T t) : T.Clean m := by
  cases hs : T.shape t with
  | intersection ms =>
    cases h with
    | intro _ _ hgathered =>
      refine hgathered m ?_
      simpa [Ty.intersectionMembers, gathered, hs] using hm
  | _ =>
    have hmt : m = t := by simpa [Ty.intersectionMembers, hs] using hm
    rwa [hmt]

/-- A type that is neither a union nor an intersection is clean unless it is the error type. -/
theorem clean_of_gathered (ht : T.Has t) (hvalid : t ≠ .invalid) (h : T.gathered t = []) :
    T.Clean t :=
  .intro ht hvalid (by simp [h])

theorem clean_prim {p : Primitive} (hp : p ≠ .invalid) : T.Clean (.prim p) :=
  clean_of_gathered (T.has_prim p) (by simpa [Ty.invalid] using hp) rfl

/-- A type like an object, an array or another structural type is clean. -/
theorem clean_of_shape {s : Shape} (ht : T.Has t) (halike : (T.shape t).Alike Eq s)
    (hs : 4 ≤ s.kind) : T.Clean t := by
  refine clean_of_gathered ht ?_ ?_
  · rintro rfl
    cases s with
    | primitive p => exact absurd hs (by simp [Shape.kind])
    | _ => exact halike.elim
  · unfold gathered
    cases hshape : T.shape t with
    | union | intersection =>
      rw [hshape] at halike
      cases s <;> first | exact halike.elim | exact absurd hs (by simp [Shape.kind])
    | _ => rfl

theorem clean_of_members (ht : T.Has t) (h : ∀ m ∈ T.members t, T.Clean m) : T.Clean t := by
  cases hs : T.shape t with
  | union ms =>
    refine .intro ht ?_ fun m hm => h m ?_
    · rintro rfl
      simp [shape] at hs
    · simpa [members, gathered, hs] using hm
  | _ => exact h t (by simp [members, hs])

theorem clean_unionMembers (hclean : ∀ t ∈ ts, T.Clean t) :
    ∀ m ∈ Ty.unionMembers T ts, T.Clean m := by
  intro m hm
  have hall : ∀ k ∈ Ty.allMembers T ts, T.Clean k := by
    intro k hk
    obtain ⟨t, ht, hk⟩ := mem_allMembers.mp hk
    exact (hclean t ht).member hk
  have hinvalid : ¬(Ty.allMembers T ts).contains .invalid = true := by
    intro h
    exact (hall .invalid (by simpa using h)).ne_invalid rfl
  simp only [Ty.unionMembers, if_neg hinvalid] at hm
  split_ifs at hm
  · rw [List.mem_singleton.mp hm]
    exact clean_prim (by decide)
  · rw [List.mem_singleton.mp hm]
    exact clean_prim (by decide)
  · split at hm
    · rw [List.mem_singleton.mp hm]
      exact clean_prim (by decide)
    · rcases mem_essentialMembers hm with hm | rfl
      · exact hall m hm
      · exact clean_prim (by decide)

end Clean

end Table

namespace Interning

open Table

variable {T : Table} {ts : List Ty}

theorem settles_unionOf_clean (hT : T.WellFormed) (hts : ∀ t ∈ ts, T.Clean t) :
    Settles T (Ty.unionOf ts) Table.Clean := by
  refine (settles_unionOf hT fun t ht => (hts t ht).has).imp ?_
  rintro t T1 - h1 ⟨ht, hstands⟩
  refine clean_of_members ht fun m hm => ?_
  exact (clean_unionMembers hts m ((hstands m).mp hm)).of_gains (.of_le h1.le)

theorem settles_intersectionOf_clean (hT : T.WellFormed) (hts : ∀ t ∈ ts, T.Clean t) :
    Settles T (Ty.intersectionOf ts) Table.Clean := by
  have hall : ∀ m ∈ Ty.allIntersected T ts, T.Clean m := by
    intro m hm
    rw [Ty.allIntersected, List.mem_eraseDups, List.mem_flatMap] at hm
    obtain ⟨t, ht, hm⟩ := hm
    exact (hts t ht).intersected hm
  have hmeet : MeetSettles .all fun a b => Ty.intersectionAt (Ty.height ts) [a, b] := by
    intro T1 a b hT1 ha hb
    exact settles_intersectionAt _ hT1 (forall_mem_pair ha hb)
  have hhas : ∀ t ∈ ts, T.Has t := fun t ht => (hts t ht).has
  refine (settles_intersectionAt_found hmeet hT hhas (hT.fills_intersected hhas)).imp ?_
  rintro t T1 - h1 ⟨ht, hfound⟩
  -- the error type is only found where it was
  have hclean : ∀ m, Family.all.Found (fun _ => True) T ts T1 m → T1.Clean m := by
    rintro m ⟨hm, hin | ⟨p, rfl, hp⟩ | ⟨-, hmerges⟩⟩
    · exact (hall m hin).of_gains (.of_le h1.le)
    · exact clean_prim fun hinvalid => (hall _ (hp hinvalid)).ne_invalid rfl
    · obtain ⟨n, -, -, halike⟩ := hmerges
      exact clean_of_shape hm halike (by simp [Interning.objectShape, Shape.kind])
  rcases hfound with hfound | ⟨ms, hs, hms⟩
  · exact hclean t hfound
  · refine .intro ht ?_ fun m hm => hclean m (hms m (by simpa [gathered, hs] using hm))
    rintro rfl
    simp [shape] at hs

theorem unionOf_invalid (h : .invalid ∈ ts) (T : Table) : Ty.unionOf ts T = (.invalid, T) := by
  refine unionOf_single ?_
  have hall : (Ty.allMembers T ts).contains .invalid = true := by
    rw [List.contains_eq_mem, decide_eq_true_iff]
    exact mem_allMembers.mpr ⟨.invalid, h, by simp [members, shape]⟩
  simp only [Ty.unionMembers, if_pos hall]

theorem intersectionOf_invalid (h : .invalid ∈ ts) (T : Table) :
    Ty.intersectionOf ts T = (.invalid, T) := by
  have hall : (Ty.allIntersected T ts).contains .invalid = true := by
    rw [List.contains_eq_mem, decide_eq_true_iff, Ty.allIntersected, List.mem_eraseDups,
      List.mem_flatMap]
    exact ⟨.invalid, h, by simp [Ty.intersectionMembers, shape]⟩
  have hmeet : ∀ meet, Ty.meetMembers meet ts T = ([.invalid], T) := by
    intro meet
    change (if (Ty.allIntersected T ts).contains .invalid then pure [.invalid] else _ :
      Interning (List Ty)) T = _
    rw [if_pos hall]
    rfl
  rw [Ty.intersectionOf, Ty.intersectionAt, bind_apply, hmeet]
  rfl

end Interning

namespace Table

/-- The clean types. -/
def Family.clean : Family :=
  ⟨Clean, Clean.has, fun hhas hshape h => h.of_shapes hhas hshape⟩

theorem gathers_clean : Family.clean.Gathers where
  member {T t m} _ ht hm := by
    cases ht with
    | intro _ _ hgathered =>
      exact hgathered m (gathered_eq T t ▸ hm)
  union hT hts := Interning.settles_unionOf_clean hT hts
  intersection hT hts := Interning.settles_intersectionOf_clean hT hts
  object hT ht hs := by
    refine (Interning.gives_objectOf hT fun p hp => hT.has_part ht.has ?_).imp ?_
    · rw [hs]
      simpa only [Shape.parts, Ty.map_type_freezeFields] using hp
    · rintro r T1 - - ⟨hr, halike⟩
      exact clean_of_shape hr halike (by simp [Interning.objectShape, Shape.kind])
  array hT ht hs := by
    refine (Interning.gives_arrayOf hT (hT.has_part ht.has ?_) true).imp ?_
    · rw [hs]
      simp [Shape.parts]
    · rintro r T1 - - ⟨hr, halike⟩
      exact clean_of_shape hr halike (by simp [Shape.kind])
  tuple hT ht hs := by
    refine (Interning.gives_tupleOf hT fun p hp => hT.has_part ht.has ?_).imp ?_
    · rw [hs]
      exact hp
    · rintro r T1 - - ⟨hr, halike⟩
      exact clean_of_shape hr halike (by simp [Interning.tupleShape, Shape.kind])

end Table

namespace Ty

/-- Making a clean type readonly gives a clean type. -/
theorem clean_readonlyAt (d : Nat) {T : Table} (hT : T.WellFormed) {t : Ty} (ht : T.Clean t) :
    Typing.Runs .adding T (readonlyAt pure d t) (readonlyAt pure d t) Table.Clean :=
  runs_readonlyAt (K := .adding) Table.gathers_clean (Nat.le_refl d) hT ht

theorem readonlyAt_invalid {d n : Nat} {T T1 : Table} {r : Ty}
    (h : readonlyAt pure d .invalid n T = some (r, T1)) : r = .invalid := by
  cases d with
  | zero => exact absurd h (by simp [readonlyAt, Typing.outOfSteps])
  | succ d => exact (congrArg Prod.fst (Option.some.inj h)).symm

end Ty

namespace Table

section Yields

variable {T T1 : Table} {t u r : Ty} {name : String} {arguments ms rs : List Ty} {a : Alias}

theorem Plain.of_develops (h : T.Plain t r) (h1 : T.Develops T1) : T1.Plain t r := by
  obtain ⟨d, hd⟩ := h
  exact ⟨d, fun d' n T2 hd' hn h2 => hd d' n T2 hd' hn (h1.trans h2)⟩

/-- What an expansion should come to does not change while the table develops. -/
theorem Yields.of_develops (hT : T.WellFormed) (h1 : T.Develops T1) (ht : T.Has t)
    (h : T.Yields t r) : T1.Yields t r := by
  rcases h with ⟨hfine, hclean, hplain⟩ | ⟨hfine, rfl⟩
  · exact .inl ⟨(h1.fine_iff hT ht).mpr hfine, hclean.of_gains h1.gains, hplain.of_develops h1⟩
  · exact .inr ⟨mt (h1.fine_iff hT ht).mp hfine, rfl⟩

theorem Yields.has (h : T.Yields t r) : T.Has r := by
  rcases h with ⟨-, hclean, -⟩ | ⟨-, rfl⟩
  · exact hclean.has
  · exact T.has_prim _

theorem Yields.eq_invalid_iff (h : T.Yields t r) : r = .invalid ↔ ¬T.Fine t := by
  rcases h with ⟨hfine, hclean, -⟩ | ⟨hfine, rfl⟩
  · exact ⟨fun hr => absurd hr hclean.ne_invalid, fun hnot => absurd hfine hnot⟩
  · exact ⟨fun _ => hfine, fun _ => rfl⟩

/-- An expansion should come to one type only. -/
theorem Yields.unique {r' : Ty} (h : T.Yields t r) (h' : T.Yields t r') : r = r' := by
  rcases h with ⟨hfine, -, d, hd⟩ | ⟨hfine, rfl⟩
  · rcases h' with ⟨-, -, d', hd'⟩ | ⟨hnot, -⟩
    · have hrun := hd (max d d') (max d d') T (by omega) (by omega) (.refl T)
      rw [hd' (max d d') (max d d') T (by omega) (by omega) (.refl T)] at hrun
      exact (congrArg Prod.fst (Option.some.inj hrun)).symm
    · exact absurd hfine hnot
  · exact (h'.eq_invalid_iff.mpr hfine).symm

theorem yields_missing (h : T.Missing t) : T.Yields t .invalid := by
  refine .inr ⟨fun hfine => ?_, rfl⟩
  cases hfine with
  | intro hthere _ _ => exact hthere h

/-- A structural type is its own expansion. -/
theorem yields_self (ht : T.Has t) (href : ∀ name arguments, T.shape t ≠ .reference name arguments)
    (hunion : ∀ ms, T.shape t ≠ .union ms) (hinter : ∀ ms, T.shape t ≠ .intersection ms) :
    T.Yields t t := by
  by_cases hvalid : t = .invalid
  · subst hvalid
    exact yields_missing (.inl rfl)
  have hexposed : T.exposed t = [] := by
    unfold exposed
    cases hs : T.shape t <;> simp_all
  refine .inl ⟨?_, ?_, 1, ?_⟩
  · refine .intro ?_ (by simp [hexposed]) fun name arguments _ hs => absurd hs (href name arguments)
    rintro (hinvalid | ⟨name, arguments, hs, -⟩)
    · exact hvalid hinvalid
    · exact href name arguments hs
  · refine clean_of_gathered ht hvalid ?_
    unfold gathered
    cases hs : T.shape t <;> simp_all
  · intro d n T2 hd _ h2
    obtain ⟨d, rfl⟩ : ∃ k, d = k + 1 := ⟨d - 1, by omega⟩
    unfold Ty.plainAt
    rw [Typing.get_bind, h2.gains.shape ht]
    cases hs : T.shape t <;> first | rfl | simp_all

/-- A reference is fine when the target of its alias is. -/
theorem fine_reference_iff (hs : T.shape t = .reference name arguments)
    (ha : T.alias? name = some a) : T.Fine t ↔ T.Fine a.target := by
  constructor
  · rintro ⟨-, -, halias⟩
    exact halias name arguments a hs ha
  · intro hfine
    refine .intro ?_ (by simp [exposed_of_alias hs ha]) ?_
    · rintro (rfl | ⟨name', arguments', hs', hnone, -⟩)
      · simp [shape] at hs
      · rw [hs] at hs'
        obtain ⟨rfl, rfl⟩ := Shape.reference.inj hs'
        rw [ha] at hnone
        exact absurd hnone (by simp)
    · intro name' arguments' b hs' hb
      rw [hs] at hs'
      obtain ⟨rfl, rfl⟩ := Shape.reference.inj hs'
      rw [ha] at hb
      obtain rfl := Option.some.inj hb
      exact hfine

theorem plainAt_reference (hs : T.shape t = .reference name arguments) (ha : T.alias? name = some a)
    (h1 : T.Develops T1) (d n : Nat) : Ty.plainAt (d + 1) t n T1 = Ty.plainAt d a.target n T1 := by
  have ht : T.Has t := has_of_shape (by rw [hs]; simp)
  obtain ⟨b, hb, hab⟩ := h1.alias ha
  rw [Ty.plainAt, Typing.get_bind, h1.gains.shape ht, hs]
  simp only [hb]
  rw [hab.target]

/-- A reference has the expansion of the target of its alias. -/
theorem yields_reference_iff (hs : T.shape t = .reference name arguments)
    (ha : T.alias? name = some a) : T.Yields t r ↔ T.Yields a.target r := by
  have hplain : T.Plain t r ↔ T.Plain a.target r := by
    constructor
    · rintro ⟨d, hd⟩
      refine ⟨d, fun d' n T2 hd' hn h2 => ?_⟩
      rw [← plainAt_reference hs ha h2]
      exact hd (d' + 1) n T2 (by omega) hn h2
    · rintro ⟨d, hd⟩
      refine ⟨d + 1, fun d' n T2 hd' hn h2 => ?_⟩
      obtain ⟨d', rfl⟩ : ∃ k, d' = k + 1 := ⟨d' - 1, by omega⟩
      rw [plainAt_reference hs ha h2]
      exact hd d' n T2 (by omega) (by omega) h2
  rw [Yields, Yields, fine_reference_iff hs ha, hplain]

/-- A readonly type is made of the expansion of its argument. -/
theorem yields_readonly (hT : T.WellFormed) (hs : T.shape t = .reference readonlyName [u])
    (hnone : T.alias? readonlyName = none) {v : Ty} (hu : T.Yields u v) {d n : Nat}
    (hrun : Ty.readonlyAt pure d v n T = some (r, T1)) : T1.Yields t r := by
  have ht : T.Has t := has_of_shape (by rw [hs]; simp)
  obtain ⟨hT1, h1, hr, hrepeats⟩ := Ty.readonlyAt_repeats hT hu.has hrun
  have hdevelops : T.Develops T1 := .of_aliases (.of_le h1.le) h1.le.aliases
  have hexposed : T.exposed t = [u] := by simp [exposed, hs, hnone]
  rcases hu with ⟨hfine, hclean, k, hplain⟩ | ⟨hfine, rfl⟩
  · have hfine' : T.Fine t := by
      refine .intro ?_ (by simpa [hexposed] using hfine) ?_
      · rintro (rfl | ⟨-, -, -, -, hempty⟩)
        · simp [shape] at hs
        · simp [hexposed] at hempty
      · intro name arguments b hs' hb
        rw [hs] at hs'
        obtain ⟨rfl, rfl⟩ := Shape.reference.inj hs'
        rw [hnone] at hb
        exact absurd hb (by simp)
    refine .inl ⟨(hdevelops.fine_iff hT ht).mpr hfine',
      (Ty.clean_readonlyAt d hT hclean n r T1 hrun).2, d + n + k + 1, ?_⟩
    intro d' m T2 hd hm h2
    obtain ⟨d', rfl⟩ : ∃ j, d' = j + 1 := ⟨d' - 1, by omega⟩
    have h02 := hdevelops.trans h2
    unfold Ty.plainAt
    rw [Typing.get_bind, h02.gains.shape ht, hs]
    simp only [(h02.none_iff readonlyName).mpr hnone, if_true]
    rw [Typing.bind_of_some (hplain d' m T2 (by omega) (by omega) h02)]
    exact hrepeats d' m T2 (by omega) (by omega) h2.gains
  · refine .inr ⟨fun hfine' => hfine ?_, Ty.readonlyAt_invalid hrun⟩
    cases (hdevelops.fine_iff hT ht).mp hfine' with
    | intro _ hall _ => exact hall u (by simp [hexposed])

/-- The members of a union or an intersection, each expanded plainly. -/
theorem plain_mapM (h : List.Forall₂ T.Plain ms rs) :
    ∃ d, ∀ d' n T2, d ≤ d' → d ≤ n → T.Develops T2 →
      (ms.mapM (Ty.plainAt d')) n T2 = some (rs, T2) := by
  induction h with
  | nil => exact ⟨0, fun _ _ _ _ _ _ => rfl⟩
  | cons hm _ ih =>
    obtain ⟨d1, h1⟩ := hm
    obtain ⟨d2, h2⟩ := ih
    refine ⟨max d1 d2, fun d' n T2 hd hn hT2 => ?_⟩
    rw [List.mapM_cons, Typing.bind_of_some (h1 d' n T2 (by omega) (by omega) hT2),
      Typing.bind_of_some (h2 d' n T2 (by omega) (by omega) hT2)]
    rfl

/-- Either all members are expanded plainly, or the error type is among what they come to. -/
theorem yields_cases (h : List.Forall₂ T.Yields ms rs) :
    ((∀ m ∈ ms, T.Fine m) ∧ (∀ r ∈ rs, T.Clean r) ∧ List.Forall₂ T.Plain ms rs) ∨
      (∃ m ∈ ms, ¬T.Fine m) ∧ .invalid ∈ rs := by
  induction h with
  | nil => exact .inl ⟨by simp, by simp, .nil⟩
  | @cons m r ms rs hm _ ih =>
    rcases hm with ⟨hfine, hclean, hplain⟩ | ⟨hfine, rfl⟩
    · rcases ih with ⟨hfines, hcleans, hplains⟩ | ⟨⟨k, hk, hbad⟩, hmem⟩
      · refine .inl ⟨?_, ?_, .cons hplain hplains⟩
        · simpa using ⟨hfine, hfines⟩
        · simpa using ⟨hclean, hcleans⟩
      · exact .inr ⟨⟨k, List.mem_cons_of_mem _ hk, hbad⟩, List.mem_cons_of_mem _ hmem⟩
    · exact .inr ⟨⟨m, List.mem_cons_self, hfine⟩, List.mem_cons_self⟩

/-- A type put together of members has the expansions of these put together. -/
theorem yields_gathered {build : List Ty → Interning Ty} (hT : T.WellFormed) (ht : T.Has t)
    (hexposed : T.exposed t = ms) (href : ∀ name arguments, T.shape t ≠ .reference name arguments)
    (hbuild : Interning.Constructs (build rs))
    (hclean : (∀ r ∈ rs, T.Clean r) → Interning.Settles T (build rs) Table.Clean)
    (hinvalid : .invalid ∈ rs → build rs T = (.invalid, T))
    (hplain : ∀ d n T2, T.Develops T2 → Ty.plainAt (d + 1) t n T2 =
      (do build (← ms.mapM (Ty.plainAt d)) : Typing Ty) n T2)
    (hvalid : t ≠ .invalid) (hyields : List.Forall₂ T.Yields ms rs) (hrun : build rs T = (r, T1)) :
    T1.Yields t r := by
  rcases yields_cases hyields with ⟨hfines, hcleans, hplains⟩ | ⟨⟨m, hm, hbad⟩, hmem⟩
  · obtain ⟨r', T', hat, hr'⟩ := hclean hcleans
    obtain ⟨rfl, rfl⟩ : r = r' ∧ T1 = T' := Prod.mk.inj (hrun.symm.trans hat.result)
    have hdevelops : T.Develops T1 := .of_aliases (.of_le hat.adds.le) hat.adds.le.aliases
    have hfine : T.Fine t := by
      refine .intro ?_ (by simpa [hexposed] using hfines) fun name arguments _ hs =>
        absurd hs (href name arguments)
      rintro (hbad | ⟨name, arguments, hs, -⟩)
      · exact hvalid hbad
      · exact href name arguments hs
    obtain ⟨d, hd⟩ := plain_mapM hplains
    refine .inl ⟨(hdevelops.fine_iff hT ht).mpr hfine, hr', d + 1, ?_⟩
    intro d' n T2 hd' hn h2
    obtain ⟨d', rfl⟩ : ∃ k, d' = k + 1 := ⟨d' - 1, by omega⟩
    have h02 := hdevelops.trans h2
    rw [hplain d' n T2 h02, Typing.bind_of_some (hd d' n T2 (by omega) (by omega) h02)]
    exact congrArg some (hat.repeats hbuild h2.gains)
  · obtain ⟨rfl, rfl⟩ : r = .invalid ∧ T1 = T := Prod.mk.inj (hrun.symm.trans (hinvalid hmem))
    refine .inr ⟨fun hfine => hbad ?_, rfl⟩
    cases hfine with
    | intro _ hall _ => exact hall m (by rwa [hexposed])

theorem yields_union (hT : T.WellFormed) (hs : T.shape t = .union ms)
    (hyields : List.Forall₂ T.Yields ms rs) (hrun : Ty.unionOf rs T = (r, T1)) : T1.Yields t r := by
  have ht : T.Has t := has_of_shape (by rw [hs]; simp)
  refine yields_gathered hT ht (by simp [exposed, hs]) (by simp [hs])
    (Interning.constructs_unionOf rs) (Interning.settles_unionOf_clean hT)
    (fun hmem => Interning.unionOf_invalid hmem T) ?_ ?_ hyields hrun
  · intro d n T2 h2
    rw [Ty.plainAt, Typing.get_bind, h2.gains.shape ht, hs]
  · rintro rfl
    simp [shape] at hs

theorem yields_intersection (hT : T.WellFormed) (hs : T.shape t = .intersection ms)
    (hyields : List.Forall₂ T.Yields ms rs) (hrun : Ty.intersectionOf rs T = (r, T1)) :
    T1.Yields t r := by
  have ht : T.Has t := has_of_shape (by rw [hs]; simp)
  refine yields_gathered hT ht (by simp [exposed, hs]) (by simp [hs])
    (Interning.constructs_intersectionOf rs) (Interning.settles_intersectionOf_clean hT)
    (fun hmem => Interning.intersectionOf_invalid hmem T) ?_ ?_ hyields hrun
  · intro d n T2 h2
    rw [Ty.plainAt, Typing.get_bind, h2.gains.shape ht, hs]
  · rintro rfl
    simp [shape] at hs

end Yields

end Table

end ShapeCheck
