import ShapeCheck.Proofs.Levels
import ShapeCheck.Proofs.Comparison

/-!
# Levels are closed

What a comparison builds out of the types of a level stands on the next level at most, and on the
same one if its parts are those of a type that was there: intersections merge objects, erased
signatures and other substitutions rebuild a type, and a tuple is read as the union of its elements.
No shape says more than the vocabulary allows.

* `Table.within_of_alike` puts a type on the level above its parts.
* `Interning.settles_unionOf_within` and `Interning.settles_intersectionAt_within` are about unions
  and intersections.
* `Interning.settles_substituteAt_within` and `Interning.settles_erase_within` are about
  substitutions.
-/

namespace ShapeCheck

variable {s : Shape} {t : Ty} {m : Members} {u : Tuple} {ts : List Ty} {c : Callable}
  {subs : Substitution}

namespace Shape

/-- The shapes of types that stand above their parts. -/
def isFrame : Shape → Bool
  | union _ | object _ | array _ _ | tuple _ | function _ | reference _ _ => true
  | _ => false

variable {V : Vocabulary} {n : Nat}

theorem Framed.of_alike {R : Ty → Ty → Prop} {t : Shape} (h : s.Alike R t) (hs : s.Tidy)
    (ht : t.Framed V n) : s.Framed V n := by
  have hkind := kind_eq_of_alike h
  cases s <;> cases t <;> try exact absurd hkind (Nat.ne_of_beq_eq_false rfl)
  case literal.literal =>
    obtain ⟨hbase, htext⟩ := h
    obtain ⟨i, hi, hnumber, hof⟩ := ht
    exact ⟨i, hi, hbase.trans hnumber, htext.trans hof⟩
  case object.object =>
    obtain ⟨hnames, hcalls⟩ := ht
    refine ⟨fun f hf => ?_, (Members.Alike.calls h).length_eq ▸ hcalls⟩
    obtain ⟨g, hg, hname, -⟩ := Members.Alike.exists_field h hs hf
    exact hname ▸ hnames g hg
  case tuple.tuple =>
    have hlength := (Tuple.Alike.slots h).length_eq
    exact Nat.le_trans (Nat.le_of_eq hlength) ht
  case function.function =>
    obtain ⟨hwidth, hvars, hparams⟩ := ht
    have htypeParams := Callable.Alike.typeParams h
    exact ⟨htypeParams ▸ hwidth, htypeParams ▸ hvars, (Callable.Alike.params h).length_eq ▸ hparams⟩
  case reference.reference =>
    obtain ⟨hname, harguments⟩ := h
    exact ⟨hname ▸ ht.1, harguments.length_eq ▸ ht.2⟩
  all_goals exact ht

theorem isEnumMember_of_framed (h : s.Framed V n) : s.isEnumMember = false := by
  cases s <;> first | rfl | exact h.elim

theorem framed_objectShape (h : (object m).Framed V n) : (Interning.objectShape m).Framed V n := by
  refine ⟨fun f hf => ?_, h.2⟩
  exact h.1 f ((Interning.mem_foldl_putField m.fields hf).resolve_left (by simp))

theorem framed_tupleShape (h : (tuple u).Framed V n) : (Interning.tupleShape u).Framed V n := by
  have hlength := congrArg List.length (Interning.map_type_trailingOptional false u.slots)
  simp only [List.length_map] at hlength
  exact Nat.le_trans (Nat.le_of_eq hlength) h

end Shape

namespace Table

variable {T : Table} {V : Vocabulary} {k j : Nat}

/-- The types of the first levels. -/
def Family.within (V : Vocabulary) (k : Nat) : Family :=
  ⟨fun T t => T.Within V k t, Within.has, fun hhas hshape h => h.of_shapes hhas hshape⟩

/-- A type that says what a shape says stands on the level above the parts. -/
theorem within_of_alike (hT : T.WellFormed) (h : (T.shape t).Alike Eq s)
    (hs : s.Framed V (V.calls k)) (hparts : ∀ p ∈ s.parts, T.Within V k p) :
    T.Within V (k + 1) t := by
  have hframed := Shape.Framed.of_alike h (hT.tidy t) hs
  refine .framed hframed fun p hp => ?_
  obtain ⟨q, hq, rfl⟩ := h.exists_part (hT.tidy t) (Shape.isEnumMember_of_framed hframed) p hp
  exact hparts p hq

/-- The parts of most types stand one level below. -/
theorem Within.frame (h : T.Within V k t) (hs : (T.shape t).isFrame = true) :
    ∃ j, k = j + 1 ∧ (T.shape t).Framed V (V.calls j) ∧ ∀ p ∈ (T.shape t).parts,
    T.Within V j p := by
  cases h with
  | basic h =>
    obtain ⟨-, -, hbasic⟩ := h
    cases hshape : T.shape t <;> rw [hshape] at hs hbasic <;>
      first | exact hbasic.elim | exact absurd hs (by simp [Shape.isFrame])
  | framed h hparts => exact ⟨_, rfl, h, hparts⟩
  | intersection h =>
    rw [h] at hs
    exact absurd hs (by simp [Shape.isFrame])

theorem Within.frame_succ (h : T.Within V (k + 1) t) (hs : (T.shape t).isFrame = true) :
    (T.shape t).Framed V (V.calls k) ∧ ∀ p ∈ (T.shape t).parts, T.Within V k p := by
  obtain ⟨j, hj, hframed, hparts⟩ := h.frame hs
  obtain rfl := Nat.succ.inj hj
  exact ⟨hframed, hparts⟩

/-- The members of an intersection stand where it does. -/
theorem Within.intersected (h : T.Within V k t) {ms : List Ty} (hs : T.shape t = .intersection ms) :
    ∀ m ∈ ms, T.Within V k m ∧ ((T.shape m).isIntersection = true → m.rank ≤ V.old) := by
  cases h with
  | basic h =>
    obtain ⟨-, -, hbasic⟩ := h
    rw [hs] at hbasic
    exact hbasic.elim
  | framed h =>
    rw [hs] at h
    exact h.elim
  | intersection h hms hflat =>
    obtain rfl := Shape.intersection.inj (h.symm.trans hs)
    exact fun m hm => ⟨hms m hm, hflat m hm⟩

theorem Within.member (h : T.Within V k t) {m : Ty} (hm : m ∈ T.members t) : T.Within V k m := by
  unfold members at hm
  cases hs : T.shape t with
  | union ms =>
    rw [hs] at hm
    obtain ⟨j, rfl, -, hparts⟩ := h.frame (by rw [hs]; rfl)
    rw [hs] at hparts
    exact (hparts m hm).succ
  | _ =>
    rw [hs] at hm
    obtain rfl := List.mem_singleton.mp hm
    exact h

theorem Within.combined (h : T.Within V k t) {m : Ty} (hm : m ∈ T.combined t) : T.Within V k m := by
  unfold Table.combined at hm
  cases hs : T.shape t with
  | union ms =>
    rw [hs] at hm
    exact h.member (by rw [members, hs]; exact hm)
  | intersection ms =>
    rw [hs] at hm
    exact (h.intersected hs m hm).1
  | _ =>
    rw [hs] at hm
    exact absurd hm (by simp)

/-- A type without a frame on the level of the members of a union stands for itself. -/
theorem within_of_members (hmembers : ∀ m ∈ T.members t, T.Within V k m) :
    T.Within V (k + 1) t := by
  unfold members at hmembers
  cases hs : T.shape t with
  | union ms =>
    rw [hs] at hmembers
    refine .framed (by rw [hs]; trivial) ?_
    rw [hs]
    exact hmembers
  | _ =>
    rw [hs] at hmembers
    exact (hmembers t (by simp)).succ

/-- What the members of some types are, as parts of an intersection. -/
theorem within_allIntersected (hts : ∀ t ∈ ts, T.Within V k t) {m : Ty}
    (hm : m ∈ Ty.allIntersected T ts) :
    T.Within V k m ∧ ((T.shape m).isIntersection = true → m.rank ≤ V.old) := by
  rw [Ty.allIntersected, List.mem_eraseDups, List.mem_flatMap] at hm
  obtain ⟨t, ht, hm⟩ := hm
  unfold Ty.intersectionMembers at hm
  cases hs : T.shape t with
  | intersection ms =>
    rw [hs] at hm
    exact (hts t ht).intersected hs m hm
  | _ =>
    rw [hs] at hm
    obtain rfl := List.mem_singleton.mp hm
    refine ⟨hts m ht, fun h => ?_⟩
    rw [hs] at h
    exact absurd h (by simp [Shape.isIntersection])

/-- A list of types of the first levels that has no repetition has a bounded length. -/
theorem length_le_calls (hT : T.WellFormed) (hnodup : ts.Nodup)
    (hts : ∀ t ∈ ts, T.Within V k t) : ts.length ≤ V.calls k := by
  classical
  have hle : ts.toFinset.card ≤ { t | T.Within V k t }.ncard := by
    rw [← Set.ncard_coe_finset]
    exact Set.ncard_le_ncard (fun t ht => hts t (by simpa using ht)) (finite_within T V k)
  rw [List.toFinset_card_of_nodup hnodup] at hle
  exact (hle.trans (ncard_within_le hT V k)).trans (Nat.le_max_right _ _)

end Table

namespace Interning

open Table

section Closure

variable {T : Table} {V : Vocabulary} {k : Nat}

/-- A union stands one level above its members at most. -/
theorem settles_unionOf_within (hT : T.WellFormed) (hts : ∀ t ∈ ts, T.Within V k t) :
    Settles T (Ty.unionOf ts) (fun T1 t => T1.Within V (k + 1) t) := by
  refine (settles_unionOf hT fun t ht => (hts t ht).has).imp ?_
  rintro t T1 - h1 ⟨-, hstands⟩
  refine within_of_members fun m hm => ?_
  rcases mem_unionMembers ((hstands m).mp hm) with ⟨u, hu, hmu⟩ | ⟨p, rfl⟩
  · exact ((hts u hu).member hmu).of_le h1.le
  · exact within_prim T1 V k p

/-- A merged object stands on the level of the objects. -/
theorem within_of_merges (hT : T.WellFormed)
    (h : (Family.within V k).Merges (· ∈ V.names) T t) : T.Within V (k + 1) t := by
  obtain ⟨m, hfills, hnodup, halike⟩ := h
  have hframed : (Shape.object m).Framed V (V.calls k) :=
    ⟨fun f hf => (hfills.fields f hf).1, length_le_calls hT hnodup hfills.calls⟩
  exact within_of_alike hT halike (Shape.framed_objectShape hframed)
    fun p hp => hfills.parts p (parts_objectShape hp)

/-- An intersection stands where its members do, whatever depth it is allowed. -/
theorem settles_intersectionAt_within (depth : Nat) (hT : T.WellFormed)
    (hts : ∀ t ∈ ts, T.Within V k t) :
    Settles T (Ty.intersectionAt depth ts) (fun T1 t => T1.Within V k t) := by
  induction depth generalizing T k ts with
  | zero => exact settles_pure hT (within_prim T V k _)
  | succ depth ih =>
    -- fields stand one level below the objects that are merged, where nothing is an object at last
    have hmeet : MeetSettles (Family.within V (k - 1)) fun a b => Ty.intersectionAt depth [a, b] :=
      fun T1 a b hT1 ha hb => ih hT1 (forall_mem_pair ha hb)
    have hframe : ∀ {o : Ty} {m : Members}, o ∈ Ty.allIntersected T ts → Ty.members? T o = some m →
        ∃ j, k = j + 1 ∧ (Family.within V j).Fills (· ∈ V.names) T m := by
      intro o m ho hm
      have hs := shape_of_members? hm
      obtain ⟨j, hk, hframed, hparts⟩ := (within_allIntersected hts ho).1.frame (by rw [hs]; rfl)
      rw [hs] at hframed hparts
      obtain ⟨hf, hi, hc⟩ := Shape.forall_parts_object.mp hparts
      exact ⟨j, hk, fun f hmem => ⟨hframed.1 f hmem, hf f hmem⟩, hi, hc⟩
    have hobjects : ∀ t ∈ Ty.allIntersected T ts, ∀ m, Ty.members? T t = some m →
        (Family.within V (k - 1)).Fills (· ∈ V.names) T m := by
      intro t ht m hm
      obtain ⟨j, rfl, hfills⟩ := hframe ht hm
      exact hfills
    refine (settles_intersectionAt_found hmeet hT (fun t ht => (hts t ht).has) hobjects).imp ?_
    rintro t T1 hT1 h1 ⟨-, hfound⟩
    have hwithin : ∀ m, (Family.within V (k - 1)).Found (· ∈ V.names) T ts T1 m → T1.Within V k m ∧
        ((T1.shape m).isIntersection = true → m.rank ≤ V.old) := by
      rintro m ⟨-, hin | ⟨p, rfl, -⟩ | ⟨⟨o, ho, hobject⟩, hmerges⟩⟩
      · obtain ⟨hm, hflat⟩ := within_allIntersected hts hin
        rw [shape_of_le h1.le hm.has]
        exact ⟨hm.of_le h1.le, hflat⟩
      · exact ⟨within_prim T1 V k p, fun h =>
          absurd h (by simp [Table.shape, Shape.isIntersection])⟩
      · obtain ⟨n, hn⟩ := Option.isSome_iff_exists.mp hobject
        obtain ⟨j, rfl, -⟩ := hframe ho hn
        have hm := within_of_merges hT1 hmerges
        refine ⟨hm, fun h => ?_⟩
        obtain ⟨n, -, -, halike⟩ := hmerges
        cases hs : T1.shape m with
        | intersection ms =>
          rw [hs] at halike
          exact halike.elim
        | _ =>
          rw [hs] at h
          exact absurd h (by simp [Shape.isIntersection])
    rcases hfound with hfound | ⟨ms, hs, hms⟩
    · exact (hwithin t hfound).1
    · exact .intersection hs (fun m hm => (hwithin m (hms m hm)).1) fun m hm =>
        (hwithin m (hms m hm)).2

theorem settles_intersectionOf_within (hT : T.WellFormed) (hts : ∀ t ∈ ts, T.Within V k t) :
    Settles T (Ty.intersectionOf ts) (fun T1 t => T1.Within V k t) :=
  settles_intersectionAt_within _ hT hts

/-- The type that is got for a shape stands on the level above the parts. -/
theorem Gives.within {work : Interning Ty} (h : Gives T work s)
    (hs : s.Framed V (V.calls k)) (hparts : ∀ p ∈ s.parts, T.Within V k p) :
    Settles T work (fun T1 t => T1.Within V (k + 1) t) :=
  h.imp fun _ _ hT1 h1 ht => within_of_alike hT1 ht.2 hs fun p hp => (hparts p hp).of_le h1.le

theorem settles_arrayOf_within (hT : T.WellFormed) (ht : T.Within V k t) (readonly : Bool) :
    Settles T (Ty.arrayOf t readonly) (fun T1 u => T1.Within V (k + 1) u) :=
  (gives_arrayOf hT ht.has readonly).within trivial (by simpa [Shape.parts] using ht)

theorem settles_objectOf_within (hT : T.WellFormed)
    (hframed : (Shape.object m).Framed V (V.calls k))
    (hm : ∀ p ∈ (Shape.object m).parts, T.Within V k p) :
    Settles T (Ty.objectOf m) (fun T1 t => T1.Within V (k + 1) t) :=
  (gives_objectOf hT fun p hp => (hm p hp).has).within (Shape.framed_objectShape hframed)
    fun p hp => hm p (parts_objectShape hp)

theorem settles_tupleOf_within (hT : T.WellFormed)
    (hframed : (Shape.tuple u).Framed V (V.calls k)) (hu : ∀ t ∈ u.elements, T.Within V k t) :
    Settles T (Ty.tupleOf u) (fun T1 t => T1.Within V (k + 1) t) :=
  (gives_tupleOf hT fun t ht => (hu t ht).has).within (Shape.framed_tupleShape hframed)
    fun p hp => hu p (parts_tupleShape u ▸ hp)

theorem settles_functionOf_within (hT : T.WellFormed)
    (hframed : (Shape.function c).Framed V (V.calls k))
    (hc : ∀ p ∈ (Shape.function c).parts, T.Within V k p) :
    Settles T (Ty.functionOf c) (fun T1 t => T1.Within V (k + 1) t) :=
  (gives_functionOf hT fun p hp => (hc p hp).has).within hframed hc

/-- The length of a tuple stands on the first level. -/
theorem settles_tupleLength_within (hT : T.WellFormed) (hu : u.slots.length ≤ V.width) :
    Settles T (Ty.tupleLength u) (fun T1 t => T1.Within V 1 t) := by
  unfold Ty.tupleLength
  split
  · exact settles_pure hT (within_prim T V 1 _)
  · exact (gives_literalOf hT _).within (k := 0) ⟨_, hu, rfl, rfl⟩ (by simp [Shape.parts])

end Closure

section Rebuilding

variable {α β : Type} {V : Vocabulary} {n : Nat} (part : Ty → Interning Ty)
  (dropped : TypeVar → Bool)

theorem length_mapM (f : α → Interning β) (xs : List α) (T : Table) :
    (xs.mapM f T).1.length = xs.length := by
  induction xs generalizing T with
  | nil => rfl
  | cons x xs ih =>
    rw [List.mapM_cons, bind_apply, bind_apply]
    exact congrArg (· + 1) (ih _)

theorem names_rebuildFields (fields : List Field) (T : Table) :
    (Ty.rebuildFields part fields T).1.map Field.name = fields.map Field.name := by
  unfold Ty.rebuildFields
  induction fields generalizing T with
  | nil => rfl
  | cons f fs ih =>
    rw [List.mapM_cons, bind_apply, bind_apply]
    exact congrArg (f.name :: ·) (ih _)

/-- Rebuilding a signature declares no type parameter anew. -/
theorem framed_rebuildCallable (h : (Shape.function c).Framed V n) (T : Table) :
    (Shape.function (Ty.rebuildCallable part dropped c T).1).Framed V n := by
  obtain ⟨hwidth, hvars, hparams⟩ := h
  have htypeParams : (Ty.rebuildCallable part dropped c T).1.typeParams =
      c.typeParams.filter (!dropped ·) := rfl
  refine ⟨?_, ?_, ?_⟩
  · rw [htypeParams]
    exact (List.length_filter_le _ _).trans hwidth
  · rw [htypeParams]
    exact fun v hv => hvars v (List.mem_of_mem_filter hv)
  · exact (length_mapM _ _ _).le.trans hparams

theorem framed_rebuildMembers (h : (Shape.object m).Framed V n) (T : Table) :
    (Shape.object (Ty.rebuildMembers part dropped m T).1).Framed V n := by
  obtain ⟨hnames, hcalls⟩ := h
  refine ⟨fun f hf => ?_, (length_mapM _ _ _).le.trans hcalls⟩
  have hname : f.name ∈ (Ty.rebuildFields part m.fields T).1.map Field.name :=
    List.mem_map_of_mem hf
  rw [names_rebuildFields] at hname
  obtain ⟨g, hg, heq⟩ := List.mem_map.mp hname
  exact heq ▸ hnames g hg

theorem framed_rebuildTuple (h : (Shape.tuple u).Framed V n) (T : Table) :
    (Shape.tuple (Ty.rebuildTuple part u T).1).Framed V n :=
  (length_mapM _ _ _).le.trans h

end Rebuilding

section Substituting

variable {T : Table} {V : Vocabulary} {k : Nat} {part : Ty → Interning Ty}

/-- A function is rebuilt on its level. -/
theorem settles_rebuildFunction (hpart : ∀ j, PartSettles (Family.within V j) T part)
    (dropped : TypeVar → Bool) (hT : T.WellFormed) (ht : T.Within V k t)
    (hc : T.callable? t = some c) :
    Settles T (do Ty.functionOf (← Ty.rebuildCallable part dropped c))
      (fun T1 u => T1.Within V k u) := by
  have hs : T.shape t = .function c := shape_of_callable? hc
  obtain ⟨j, rfl, hframed, hparts⟩ := ht.frame (by rw [hs]; rfl)
  rw [hs] at hframed hparts
  refine ((settles_rebuildCallable (hpart j) hT dropped hparts).result).bind ?_
  rintro d T1 hT1 - ⟨hd, rfl⟩
  exact settles_functionOf_within hT1 (framed_rebuildCallable part dropped hframed T) hd

theorem partSettles_rebuildCall (hpart : ∀ j, PartSettles (Family.within V j) T part)
    (dropped : TypeVar → Bool) :
    PartSettles (Family.within V k) T (Ty.rebuildCall part dropped) := by
  intro T1 t hT1 h1 ht
  have ht : T1.Within V k t := ht
  refine settles_get_bind (fun T2 h2 => ?_) ?_
  · rw [callable?_of_le h2 ht.has]
  cases hc : T1.callable? t with
  | none => exact settles_pure hT1 ht
  | some c => exact settles_rebuildFunction (fun j => (hpart j).of_le h1) dropped hT1 ht hc

/-- Putting primitives in place of type parameters leaves a type on its level. -/
theorem settles_substituteAt_within (hsubs : ∀ b ∈ subs, ∃ p, b.2 = .prim p)
    (depth : Nat) (hT : T.WellFormed) (ht : T.Within V k t) :
    Settles T (Ty.substituteAt subs depth t) (fun T1 u => T1.Within V k u) := by
  induction depth generalizing T k t with
  | zero => exact settles_pure hT ht
  | succ depth ih =>
    have hpart : ∀ j, PartSettles (Family.within V j) T (Ty.substituteAt subs depth) :=
      fun j T1 u hT1 _ hu => ih hT1 hu
    refine settles_get_bind (fun T2 h2 => ?_) ?_
    · rw [shape_of_le h2 ht.has]
    have hframe := ht.frame
    cases hs : T.shape t with
    | parameter v =>
      refine settles_pure hT ?_
      cases hv : subs.lookup v with
      | none => exact ht
      | some u =>
        obtain ⟨front, back, rfl, -⟩ := List.lookup_eq_some_iff.mp hv
        obtain ⟨p, hp⟩ := hsubs (v, u) (by simp)
        obtain rfl : u = .prim p := hp
        exact within_prim T V k p
    | intersection ms =>
      refine (settles_parts (hpart k) hT fun m hm => (ht.intersected hs m hm).1).bind
        fun us T1 hT1 _ hus => ?_
      exact settles_intersectionOf_within hT1 hus
    | union ms =>
      rw [hs] at hframe
      obtain ⟨j, rfl, -, hparts⟩ := hframe rfl
      refine (settles_parts (hpart j) hT hparts).bind fun us T1 hT1 _ hus => ?_
      exact settles_unionOf_within hT1 hus
    | array element readonly =>
      rw [hs] at hframe
      obtain ⟨j, rfl, -, hparts⟩ := hframe rfl
      refine (hpart j T element hT (le_refl T) (hparts element (by simp [Shape.parts]))).bind
        fun u T1 hT1 _ hu => ?_
      exact settles_arrayOf_within hT1 hu readonly
    | tuple u =>
      rw [hs] at hframe
      obtain ⟨j, rfl, hframed, hparts⟩ := hframe rfl
      refine ((settles_rebuildTuple (hpart j) hT hparts).result).bind ?_
      rintro v T1 hT1 - ⟨hv, rfl⟩
      exact settles_tupleOf_within hT1 (framed_rebuildTuple _ hframed T) hv
    | object m =>
      rw [hs] at hframe
      obtain ⟨j, rfl, hframed, hparts⟩ := hframe rfl
      obtain ⟨hf, hi, hc⟩ := Shape.forall_parts_object.mp hparts
      refine ((settles_rebuildMembers (hpart j) hT _ hf hi hc
        (partSettles_rebuildCall hpart _)).result).bind ?_
      rintro n T1 hT1 - ⟨hn, rfl⟩
      exact settles_objectOf_within hT1 (framed_rebuildMembers _ _ hframed T) hn
    | function c =>
      rw [hs] at hframe
      obtain ⟨j, rfl, hframed, hparts⟩ := hframe rfl
      refine ((settles_rebuildCallable (hpart j) hT _ hparts).result).bind ?_
      rintro d T1 hT1 - ⟨hd, rfl⟩
      exact settles_functionOf_within hT1 (framed_rebuildCallable _ _ hframed T) hd
    | reference name arguments =>
      rw [hs] at hframe
      obtain ⟨j, rfl, hframed, hparts⟩ := hframe rfl
      dsimp only
      split_ifs
      · exact settles_pure hT ht
      · refine ((settles_parts (hpart j) hT hparts).result).bind ?_
        rintro us T1 hT1 - ⟨hus, rfl⟩
        refine (gives_referenceTo hT1 name fun u hu => (hus u hu).has).within ?_ hus
        exact ⟨hframed.1, (length_mapM _ _ _).le.trans hframed.2⟩
    | _ => exact settles_pure hT ht

theorem settles_substitute_within (hsubs : ∀ b ∈ subs, ∃ p, b.2 = .prim p)
    (hT : T.WellFormed) (ht : T.Within V k t) :
    Settles T (t.substitute subs) (fun T1 u => T1.Within V k u) := by
  unfold Ty.substitute
  split_ifs
  · exact settles_pure hT ht
  · exact settles_substituteAt_within hsubs _ hT ht

/-- A signature without its type parameters stands where it did. -/
theorem settles_erase_within (hT : T.WellFormed) (ht : T.Within V k t) :
    Settles T t.erase (fun T1 u => T1.Within V k u) := by
  refine settles_get_bind (fun T2 h2 => ?_) ?_
  · rw [callable?_of_le h2 ht.has]
  cases hc : T.callable? t with
  | none => exact settles_pure hT ht
  | some c =>
    have hsubs : ∀ b ∈ c.typeParams.map fun v => (v, Ty.any), ∃ p, b.2 = .prim p :=
      List.forall_mem_map.mpr fun v _ => ⟨.any, rfl⟩
    dsimp only
    split_ifs
    · exact settles_rebuildFunction (fun j T1 u hT1 _ hu =>
        settles_substitute_within hsubs hT1 hu) _
        hT ht hc
    · exact settles_pure hT ht

end Substituting

end Interning

end ShapeCheck
