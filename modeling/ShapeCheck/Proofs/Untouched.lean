import ShapeCheck.Proofs.Avoidance
import ShapeCheck.Proofs.Joins

/-!
# Types that a substitution leaves alone

A substitution rebuilds a type through the constructors. Where nothing is replaced, each constructor
is asked for what an entry of the table says already, and finds this entry. For tuples and
intersections it takes that the entry says it as the constructor would: no operation makes one that
says it in another way.

`Ty.mentions` looks at fewer places than a substitution. It does not look at the receiver of a
function, and a function that declares a parameter loses it to a substitution, whether its parts
mention the parameter or not.

* `Table.Hides` says where a substitution reaches and `Ty.mentions` does not look.
* `Ty.substitute_unmentioned` says that the type and the table are left alone elsewhere.
-/

namespace ShapeCheck

open Relation (ReflTransGen)

variable {s : Shape} {ms : List Ty} {c : Callable} {T : Table} {depth : Nat} {v : TypeVar}

namespace Table

section Operations

variable {T1 : Table}

theorem Orderly.called (h : T.Orderly) (hT : T.WellFormed) (hcall : T.Called T1) : T1.Orderly := by
  cases hcall with
  | construct c hin hfits =>
    obtain ⟨t, T', hrun, -, h', -, -⟩ := Construction.run_spec hT hin hfits
    rw [hrun]
    exact h'.orderly h
  | declare => exact h.of_entries rfl
  | resolve ht hrun => exact (Ty.building_resolve hT ht _ _ _ hrun).1.grows.orderly h
  | @assignable s t b k _ hs ht hrun =>
    rcases asked_building hT hs ht hrun with rfl | ⟨T', -, -, hgrows, rfl⟩
    · exact h
    · refine Orderly.of_entries (hgrows.orderly h) ?_
      unfold keeping
      split <;> rfl

theorem Orderly.operated (h : T.Orderly) (hT : T.WellFormed) (hop : T.Operated T1) :
    T1.Orderly := by
  cases hop with
  | call hcall => exact h.called hT hcall
  | rebind hbind =>
    cases hbind with
    | bound | default => exact h.of_entries rfl
  | define name =>
    refine h.of_entries ?_
    rw [define_snd]
    split
    · rfl
    · split <;> rfl
  | resolveAlias hrun => exact (Alias.building_resolve hT _ _ _ _ hrun).1.grows.orderly h
  | resolveAll hrun => exact (Alias.resolveAll_sound hT hrun).2.orderly h
  | enumeration name isConst hvalues => exact (Agrees.enumOf hT name isConst hvalues).2.2.2 h
  | freeze => exact h.of_entries rfl

/-- **Every entry of every table is as its constructor leaves it.** -/
theorem orderly_of_operated (hops : ReflTransGen Operated {} T) : T.Orderly := by
  induction hops with
  | refl => exact .empty
  | tail hops hop ih => exact ih.operated (faithful_empty.operations hops).1.wellFormed hop

end Operations

end Table

/-! ## Constructors that find what is there -/

namespace Interning

open Table

section Finding

variable {t : Ty}

/-- A shape that a type of the table has is found under this type. -/
theorem intern_self (hT : T.WellFormed) (hs : (T.shape t).Alike Eq s) (htidy : s.Tidy)
    (hkind : 2 ≤ s.kind) (hplain : s.isEnumMember = false) : Ty.intern s T = (t, T) := by
  have hsame : s.kind = (T.shape t).kind := (Shape.kind_eq_of_alike hs).symm
  cases t with
  | prim p =>
    have hlow : 2 ≤ (T.shape (.prim p)).kind := hsame ▸ hkind
    exact absurd hlow (Nat.not_succ_le_zero 1)
  | truth b =>
    have hlow : 2 ≤ (T.shape (.truth b)).kind := hsame ▸ hkind
    exact absurd hlow (Nat.not_succ_le_self 1)
  | made n =>
    have hhas : T.Has (.made n) := by
      apply has_of_shape
      intro h
      rw [hsame, h] at hkind
      exact absurd hkind (by decide)
    obtain ⟨e, he⟩ := has_iff_entry.mp hhas
    rw [shape_made he] at hs
    have hvalid := hT.entry n e he
    have hkey : e.key = s.key := by
      rw [hvalid.key]
      exact (Shape.key_eq_iff hvalid.isEntry.tidy htidy).mpr hs
    have hfind := hT.find?_key he ((Shape.isEnumMember_eq_of_alike hs).trans hplain)
    rw [intern_apply, ← hkey, hfind]

/-- The shape of a type is found under the type. -/
theorem intern_shape (hT : T.WellFormed) (hs : T.shape t = s) (hkind : 2 ≤ s.kind)
    (hplain : s.isEnumMember = false) : Ty.intern s T = (t, T) := by
  have htidy : s.Tidy := hs ▸ hT.tidy t
  refine intern_self hT ?_ htidy hkind hplain
  rw [hs]
  exact (Shape.key_eq_iff htidy htidy).mp rfl

/-- The union of the members of a union is that union. -/
theorem unionOf_members (hT : T.WellFormed) (hs : T.shape t = .union ms) :
    Ty.unionOf ms T = (t, T) := by
  have hflat := (hT.canonical_union hs).flat
  have hsame : T.flattened ms = T.flattened [t] := by
    ext m
    simp only [flattened, Set.mem_ofPred_eq, mem_allMembers, List.mem_singleton, exists_eq_left,
      members, hs]
    constructor
    · rintro ⟨k, hk, hm⟩
      have hmk : m ∈ T.members k := hm
      rw [hflat k hk] at hmk
      exact List.mem_singleton.mp hmk ▸ hk
    · intro hm
      have hself : m ∈ T.members m := by simp [hflat m hm]
      exact ⟨m, hm, hself⟩
  have hcongr : Ty.unionOf ms T = Ty.unionOf [t] T := unionOf_congr (by rw [hsame])
  rw [hcongr, unionOf_self hT t]

theorem reduceAtoms_of_length_le {as : List Ty} (h : as.length ≤ 1) :
    Ty.reduceAtoms T none as = some as.head? := by
  rcases as with _ | ⟨a, _ | ⟨b, as⟩⟩
  · rfl
  · rfl
  · simp at h

/-- Where at most one member is an atom and at most one an object, an intersection consists of its
members. -/
theorem meetMembers_unmerged (meet : Ty → Ty → Interning Ty) {ts : List Ty}
    (hall : (Ty.allIntersected T ts).Perm ms) (hne : ms ≠ [])
    (hproper : ∀ m ∈ ms, m ≠ .never ∧ m ≠ .any ∧ m ≠ .unknown ∧ m ≠ .invalid)
    (hatom : (ms.filter (Ty.isAtom T)).length ≤ 1)
    (hobject : (ms.filter fun m => (Ty.members? T m).isSome).length ≤ 1) :
    ∃ ns, ns.Perm ms ∧ Ty.meetMembers meet ts T = (ns, T) := by
  have hmem : ∀ m, m ∈ Ty.allIntersected T ts ↔ m ∈ ms := fun m => hall.mem_iff
  generalize hgen : Ty.allIntersected T ts = all at hmem hall
  have hmissing : ∀ t, (∀ m ∈ ms, m ≠ t) → all.contains t = false := by
    intro t ht
    rw [List.contains_eq_mem, decide_eq_false_iff_not]
    exact fun hin => ht t ((hmem t).mp hin) rfl
  have hatoms : Ty.atomsAmong T all = all.filter (Ty.isAtom T) := by
    apply List.filter_congr
    intro m hm
    simp [(hproper m ((hmem m).mp hm)).2.2.1]
  have hfewAtoms : (Ty.atomsAmong T all).length ≤ 1 := by
    rw [hatoms, (hall.filter _).length_eq]
    exact hatom
  have hfewObjects : (Ty.objectsAmong T all).length ≤ 1 := by
    rw [Ty.objectsAmong, (hall.filter _).length_eq]
    exact hobject
  have hmerge : Ty.mergeAmong meet T (Ty.objectsAmong T all) T = (Ty.objectsAmong T all, T) := by
    generalize Ty.objectsAmong T all = objects at hfewObjects
    rcases objects with _ | ⟨o, _ | ⟨k, os⟩⟩
    · rfl
    · rfl
    · simp at hfewObjects
  have hhead : (Ty.atomsAmong T all).head?.toList = Ty.atomsAmong T all := by
    generalize Ty.atomsAmong T all = as at hfewAtoms
    rcases as with _ | ⟨a, _ | ⟨b, as⟩⟩
    · rfl
    · rfl
    · simp at hfewAtoms
  -- every member is on one of the three lists
  have hsplit : (Ty.atomsAmong T all ++ Ty.objectsAmong T all ++ Ty.othersAmong T all).Perm all :=
    by
    let rest := all.filter fun m => !Ty.isAtom T m
    have hobjects : Ty.objectsAmong T all = rest.filter fun m => (Ty.members? T m).isSome := by
      rw [List.filter_filter]
      apply List.filter_congr
      intro m _
      cases hat : Ty.isAtom T m with
      | true => rw [members?_of_isAtom hat]; rfl
      | false => simp
    have hothers : Ty.othersAmong T all = rest.filter fun m => !(Ty.members? T m).isSome := by
      rw [List.filter_filter]
      apply List.filter_congr
      intro m _
      simp [Bool.and_comm]
    rw [List.append_assoc, hobjects, hothers, hatoms]
    exact ((List.filter_append_perm _ rest).append_left _).trans (List.filter_append_perm _ all)
  refine ⟨_, hsplit.trans hall, ?_⟩
  have hread : ∀ f : Table → Interning (List Ty), (get >>= f) T = f T T := fun _ => rfl
  rw [Ty.meetMembers, hread]
  simp only [hgen, hmissing .invalid fun m hm => (hproper m hm).2.2.2,
    hmissing .never fun m hm => (hproper m hm).1, hmissing .any fun m hm => (hproper m hm).2.1,
    reduceAtoms_of_length_le hfewAtoms, Bool.false_eq_true, if_false, hhead]
  rw [bind_apply, hmerge]
  have hlong : Ty.atomsAmong T all ++ Ty.objectsAmong T all ++ Ty.othersAmong T all ≠ [] :=
    fun hnil =>
    hne (List.nil_perm.mp (hnil ▸ hsplit.trans hall))
  generalize Ty.atomsAmong T all ++ Ty.objectsAmong T all ++ Ty.othersAmong T all = ns at hlong
  cases ns with
  | nil => exact absurd rfl hlong
  | cons => rfl

/-- The members of an intersection are what is found for their intersection. -/
theorem meetMembers_reduced (meet : Ty → Ty → Interning Ty) (h : T.Reduced ms)
    (hnodup : ms.Nodup) : ∃ ns, ns.Perm ms ∧ Ty.meetMembers meet ms T = (ns, T) := by
  have hflat : ms.flatMap (Ty.intersectionMembers T) = ms := by
    rw [List.flatMap_congr h.flat, List.flatMap_singleton']
  have hall : (Ty.allIntersected T ms).Perm ms := by
    refine (List.perm_ext_iff_of_nodup (nodup_eraseDups _) hnodup).mpr fun m => ?_
    rw [hflat, List.mem_eraseDups]
  have hne : ms ≠ [] := by
    rintro rfl
    exact absurd h.several (by simp)
  exact meetMembers_unmerged meet hall hne h.proper h.atoms h.objects

/-- The intersection of the members of an intersection is that intersection. -/
theorem intersectionOf_members (hT : T.WellFormed) (horderly : T.Orderly)
    (hs : T.shape t = .intersection ms) : Ty.intersectionOf ms T = (t, T) := by
  have hreduced : T.Reduced ms := by
    have hstandard := horderly.standard t
    rwa [hs] at hstandard
  have hnodup : ms.Nodup := by
    have htidy := hT.tidy t
    rwa [hs] at htidy
  obtain ⟨ns, hperm, hmeet⟩ := meetMembers_reduced
    (fun a b => Ty.intersectionAt (Ty.height ms) [a, b]) hreduced hnodup
  have hmany : ns.length ≠ 1 := by
    have := hperm.length_eq ▸ hreduced.several
    omega
  change (Ty.meetMembers _ ms >>= Ty.combine .intersection) T = _
  rw [bind_apply, hmeet, combine_many hmany]
  refine intern_self hT ?_ (nodup_sortMembers (hperm.nodup_iff.mpr hnodup))
    (Nat.le_of_ble_eq_true rfl) rfl
  rw [hs]
  exact sameMembers_eq_iff.mpr fun m => by rw [mem_sortMembers, hperm.mem_iff]

end Finding

/-! ## Rebuilding where nothing changes -/

section Rebuilding

variable {part : Ty → Interning Ty} {dropped : TypeVar → Bool}

theorem mapM_self {α : Type} {f : α → Interning α} {xs : List α} (h : ∀ x ∈ xs, f x T = (x, T)) :
    xs.mapM f T = (xs, T) := by
  induction xs with
  | nil => rfl
  | cons x xs ih =>
    have hrest := ih fun y hy => h y (List.mem_cons_of_mem x hy)
    rw [List.mapM_cons, bind_apply, h x List.mem_cons_self, bind_apply, hrest]
    rfl

theorem rebuildOption_self {o : Option Ty} (h : ∀ t ∈ o, part t T = (t, T)) :
    Ty.rebuildOption part o T = (o, T) := by
  cases o with
  | none => rfl
  | some t =>
    rw [Ty.rebuildOption, bind_apply, h t rfl]
    rfl

theorem rebuildParameter_self {p : Parameter} (h : part p.type T = (p.type, T)) :
    Ty.rebuildParameter part p T = (p, T) := by
  rw [Ty.rebuildParameter, bind_apply, h]
  rfl

theorem rebuildRest_self {o : Option Parameter} (h : ∀ p ∈ o, part p.type T = (p.type, T)) :
    Ty.rebuildRest part o T = (o, T) := by
  cases o with
  | none => rfl
  | some p =>
    rw [Ty.rebuildRest, bind_apply, rebuildParameter_self (h p rfl)]
    rfl

theorem rebuildIndex_self {o : Option Index} (h : ∀ i ∈ o, part i.value T = (i.value, T)) :
    Ty.rebuildIndex part o T = (o, T) := by
  cases o with
  | none => rfl
  | some i =>
    rw [Ty.rebuildIndex, bind_apply, h i rfl]
    rfl

theorem rebuildFields_self {fields : List Field} (h : ∀ f ∈ fields, part f.type T = (f.type, T)) :
    Ty.rebuildFields part fields T = (fields, T) := by
  refine mapM_self fun f hf => ?_
  rw [bind_apply, h f hf]
  rfl

/-- A signature that declares none of the dropped parameters stays as it is. -/
theorem rebuildCallable_self (hdeclared : ∀ v ∈ c.typeParams, dropped v = false)
    (hparts : ∀ p ∈ (Shape.function c).parts, part p T = (p, T)) :
    Ty.rebuildCallable part dropped c T = (c, T) := by
  obtain ⟨hparams, hrest, hreceiver, hresult⟩ := Shape.forall_parts_function.mp hparts
  have hkept : c.typeParams.filter (!dropped ·) = c.typeParams := by
    rw [List.filter_eq_self]
    intro v hv
    rw [hdeclared v hv]
    rfl
  rw [Ty.rebuildCallable, bind_apply, hresult, bind_apply, rebuildOption_self hreceiver, bind_apply,
    mapM_self fun p hp => rebuildParameter_self (hparams p hp), bind_apply, rebuildRest_self hrest,
    hkept]
  rfl

theorem rebuildTuple_self {u : Tuple} (h : ∀ t ∈ u.elements, part t T = (t, T)) :
    Ty.rebuildTuple part u T = (u, T) := by
  obtain ⟨hslots, hrest⟩ := Tuple.forall_elements.mp h
  have hmap : u.slots.mapM (fun s => do return { s with type := ← part s.type } :
      Slot → Interning Slot) T = (u.slots, T) := by
    refine mapM_self fun s hs => ?_
    rw [bind_apply, hslots s hs]
    rfl
  rw [Ty.rebuildTuple, bind_apply, hmap, bind_apply, rebuildOption_self hrest]
  rfl

end Rebuilding

end Interning

/-! ## Where a substitution reaches -/

namespace Table

/-- Inside the type, a substitution reaches a function that declares one of the parameters, or a
receiver that mentions one. -/
inductive Hides (T : Table) (vars : List TypeVar) : Ty → Prop
  | declares {t : Ty} {c : Callable} {v : TypeVar} (hs : T.shape t = .function c)
    (hv : v ∈ c.typeParams) (hvars : v ∈ vars) : Hides T vars t
  | receiver {t r : Ty} {c : Callable} (hs : T.shape t = .function c) (hr : c.receiver = some r)
    (hmentions : Ty.mentions T vars r = true) : Hides T vars t
  | inReceiver {t r : Ty} {c : Callable} (hs : T.shape t = .function c) (hr : c.receiver = some r)
    (h : Hides T vars r) : Hides T vars t
  | inPart {t p : Ty} (hp : p ∈ Ty.mentionParts (T.shape t)) (h : Hides T vars p) : Hides T vars t

theorem hides_iff {vars : List TypeVar} {t : Ty} :
    T.Hides vars t ↔ (∃ c, T.shape t = .function c ∧ ((∃ v ∈ c.typeParams, v ∈ vars) ∨
      ∃ r ∈ c.receiver, Ty.mentions T vars r = true ∨ T.Hides vars r)) ∨
      ∃ p ∈ Ty.mentionParts (T.shape t), T.Hides vars p := by
  constructor
  · intro h
    cases h with
    | declares hs hv hvars => exact .inl ⟨_, hs, .inl ⟨_, hv, hvars⟩⟩
    | receiver hs hr hmentions => exact .inl ⟨_, hs, .inr ⟨_, hr, .inl hmentions⟩⟩
    | inReceiver hs hr h => exact .inl ⟨_, hs, .inr ⟨_, hr, .inr h⟩⟩
    | inPart hp h => exact .inr ⟨_, hp, h⟩
  · rintro (⟨c, hs, ⟨v, hv, hvars⟩ | ⟨r, hr, hmentions | h⟩⟩ | ⟨p, hp, h⟩)
    · exact .declares hs hv hvars
    · exact .receiver hs hr hmentions
    · exact .inReceiver hs hr h
    · exact .inPart hp h

/-- The substitution leaves the type alone as far as one can see: the type mentions none of the
parameters, and hides none. -/
structure Spared (T : Table) (vars : List TypeVar) (t : Ty) : Prop where
  mentions : Ty.mentions T vars t = false
  hides : ¬ T.Hides vars t

section Reach

variable {vars : List TypeVar} {t p : Ty}

theorem mentionsAt_succ (h : Ty.mentionsAt T vars depth t = true) :
    Ty.mentionsAt T vars (depth + 1) t = true := by
  induction depth generalizing t with
  | zero => exact absurd h Bool.false_ne_true
  | succ depth ih =>
    unfold Ty.mentionsAt at h ⊢
    cases hs : T.shape t with
    | parameter v => simpa [hs] using h
    | _ =>
      simp only [hs, List.any_eq_true] at h ⊢
      obtain ⟨p, hp, hmentions⟩ := h
      exact ⟨p, hp, ih hmentions⟩

theorem mentionsAt_mono {depth' : Nat} (hle : depth ≤ depth')
    (h : Ty.mentionsAt T vars depth t = true) : Ty.mentionsAt T vars depth' t = true := by
  induction hle with
  | refl => exact h
  | step _ ih => exact mentionsAt_succ ih

/-- What a part mentions the whole mentions. -/
theorem mentions_of_part (hT : T.WellFormed) (hp : p ∈ Ty.mentionParts (T.shape t))
    (h : Ty.mentions T vars p = true) : Ty.mentions T vars t = true := by
  have hrank := hT.rank_part (Shape.mem_parts_of_mem_mentionParts hp)
  have hat : Ty.mentionsAt T vars t.rank p = true := mentionsAt_mono hrank h
  have hany : (Ty.mentionParts (T.shape t)).any (Ty.mentionsAt T vars t.rank) = true :=
    List.any_eq_true.mpr ⟨p, hp, hat⟩
  unfold Ty.mentions Ty.mentionsAt
  cases hs : T.shape t with
  | parameter v =>
    rw [hs] at hp
    exact absurd hp List.not_mem_nil
  | _ => rwa [hs] at hany

theorem Spared.part (h : T.Spared vars t) (hT : T.WellFormed)
    (hp : p ∈ Ty.mentionParts (T.shape t)) : T.Spared vars p where
  mentions := by
    rw [Bool.eq_false_iff]
    intro hmentions
    exact absurd (mentions_of_part hT hp hmentions) (by simp [h.mentions])
  hides hp' := h.hides (.inPart hp hp')

theorem Spared.parameter (h : T.Spared vars t) (hs : T.shape t = .parameter v) : v ∉ vars := by
  have hmentions := h.mentions
  unfold Ty.mentions Ty.mentionsAt at hmentions
  simpa [hs] using hmentions

theorem Spared.declared (h : T.Spared vars t) (hs : T.shape t = .function c) :
    ∀ v ∈ c.typeParams, v ∉ vars :=
  fun _ hv hvars => h.hides (.declares hs hv hvars)

/-- All parts of a function are spared with it. -/
theorem Spared.function (h : T.Spared vars t) (hT : T.WellFormed)
    (hs : T.shape t = .function c) : ∀ p ∈ (Shape.function c).parts, T.Spared vars p := by
  intro p hp
  simp only [Shape.parts, List.mem_append, Option.mem_toList, or_assoc] at hp
  have hpart : p ∈ Ty.mentionParts (.function c) → T.Spared vars p := by
    intro hp
    exact h.part hT (by rwa [hs])
  simp only [Ty.mentionParts, List.mem_append, Option.mem_toList, or_assoc] at hpart
  rcases hp with hp | hp | hp | hp
  · exact hpart (.inl hp)
  · exact hpart (.inr (.inl hp))
  · refine ⟨?_, fun hp' => h.hides (.inReceiver hs hp hp')⟩
    rw [Bool.eq_false_iff]
    intro hmentions
    exact h.hides (.receiver hs hp hmentions)
  · exact hpart (.inr (.inr hp))

end Reach

end Table

namespace Interning

open Table

section Substituting

variable {subs : Substitution} {t : Ty}

theorem foldl_putField_append (fs acc : List Field) (h : ((acc ++ fs).map Field.name).Nodup) :
    fs.foldl Ty.putField acc = acc ++ fs := by
  induction fs generalizing acc with
  | nil => exact (List.append_nil acc).symm
  | cons f fs ih =>
    have hnew : acc.any (·.name = f.name) = false := by
      rw [List.any_eq_false]
      intro g hg
      simp only [decide_eq_true_eq]
      intro hname
      rw [List.map_append, List.nodup_append] at h
      exact h.2.2 _ (List.mem_map.mpr ⟨g, hg, rfl⟩) _
        (List.mem_map.mpr ⟨f, List.mem_cons_self, rfl⟩) hname
    have hput : Ty.putField acc f = acc ++ [f] := by
      rw [Ty.putField, hnew]
      rfl
    rw [List.foldl_cons, hput, ih (acc ++ [f]) (by rwa [List.append_assoc]), List.append_assoc]
    rfl

/-- Fields with different names are kept as they are. -/
theorem foldl_putField_self {fs : List Field} (h : (fs.map Field.name).Nodup) :
    fs.foldl Ty.putField [] = fs :=
  foldl_putField_append fs [] h

theorem binds_eq_false (h : v ∉ subs.map Prod.fst) : Ty.binds subs v = false := by
  have hnone : subs.lookup v = none := by
    rw [List.lookup_eq_none_iff]
    intro p hp
    rw [bne_iff_ne]
    rintro rfl
    exact h (List.mem_map.mpr ⟨p, hp, rfl⟩)
  rw [Ty.binds, hnone]
  rfl

/-- A spared function is rebuilt as it is. -/
theorem functionOf_self {part : Ty → Interning Ty} (hT : T.WellFormed)
    (hpart : ∀ p, T.Spared (subs.map Prod.fst) p → part p T = (p, T))
    (hspared : T.Spared (subs.map Prod.fst) t) (hs : T.shape t = .function c) :
    (do Ty.functionOf (← Ty.rebuildCallable part (Ty.binds subs) c) : Interning Ty) T = (t, T) := by
  have hcallable : Ty.rebuildCallable part (Ty.binds subs) c T = (c, T) := by
    refine rebuildCallable_self (fun v hv => binds_eq_false (hspared.declared hs v hv)) ?_
    intro p hp
    exact hpart p (hspared.function hT hs p hp)
  rw [bind_apply, hcallable]
  exact intern_shape hT hs (Nat.le_of_ble_eq_true rfl) rfl

theorem rebuildCall_self {part : Ty → Interning Ty} (hT : T.WellFormed)
    (hpart : ∀ p, T.Spared (subs.map Prod.fst) p → part p T = (p, T))
    (hspared : T.Spared (subs.map Prod.fst) t) :
    Ty.rebuildCall part (Ty.binds subs) t T = (t, T) := by
  have hread : ∀ f : Table → Interning Ty, (get >>= f) T = f T T := fun _ => rfl
  rw [Ty.rebuildCall, hread]
  cases hc : T.callable? t with
  | none => rfl
  | some c => exact functionOf_self hT hpart hspared (shape_of_callable? hc)

/-- One level of a substitution finds a spared type again. -/
theorem substituteStep_self {part : Ty → Interning Ty} (hT : T.WellFormed) (horderly : T.Orderly)
    (hpart : ∀ p, T.Spared (subs.map Prod.fst) p → part p T = (p, T))
    (hspared : T.Spared (subs.map Prod.fst) t) : Ty.substituteStep subs part t T = (t, T) := by
  have hparts : ∀ p ∈ Ty.mentionParts (T.shape t), part p T = (p, T) :=
    fun p hp => hpart p (hspared.part hT hp)
  have hread : ∀ f : Table → Interning Ty, (get >>= f) T = f T T := fun _ => rfl
  rw [Ty.substituteStep, hread]
  cases hs : T.shape t with
  | parameter v =>
    have hnone : subs.lookup v = none := by
      have hfree := binds_eq_false (hspared.parameter hs)
      rwa [Ty.binds, Option.isSome_eq_false_iff, Option.isNone_iff_eq_none] at hfree
    simp only [hnone]
    rfl
  | union ms =>
    rw [hs] at hparts
    have hms : ms.mapM part T = (ms, T) := mapM_self hparts
    simp only [bind_apply, hms]
    exact unionOf_members hT hs
  | intersection ms =>
    rw [hs] at hparts
    have hms : ms.mapM part T = (ms, T) := mapM_self hparts
    simp only [bind_apply, hms]
    exact intersectionOf_members hT horderly hs
  | array element readonly =>
    rw [hs] at hparts
    simp only [bind_apply, hparts element List.mem_cons_self]
    exact intern_shape hT hs (Nat.le_of_ble_eq_true rfl) rfl
  | tuple u =>
    rw [hs] at hparts
    have hstandard : Ty.trailingOptional false u.slots = u.slots := by
      have h := horderly.standard t
      rwa [hs] at h
    simp only [bind_apply, rebuildTuple_self hparts, Ty.tupleOf, hstandard]
    exact intern_shape hT hs (Nat.le_of_ble_eq_true rfl) rfl
  | object m =>
    rw [hs] at hparts
    obtain ⟨hfields, hindex, -⟩ := Shape.forall_parts_object.mp hparts
    have hcalls : m.calls.mapM (Ty.rebuildCall part (Ty.binds subs)) T = (m.calls, T) := by
      refine mapM_self fun f hf => rebuildCall_self hT hpart (hspared.part hT ?_)
      rw [hs]
      exact List.mem_append_right _ hf
    have hnames : m.fields.foldl Ty.putField [] = m.fields := by
      have htidy := hT.tidy t
      rw [hs] at htidy
      exact foldl_putField_self htidy
    have hmembers : Ty.rebuildMembers part (Ty.binds subs) m T = (m, T) := by
      rw [Ty.rebuildMembers, bind_apply, rebuildFields_self hfields, bind_apply,
        rebuildIndex_self hindex, bind_apply, hcalls]
      rfl
    simp only [bind_apply, hmembers, Ty.objectOf, hnames]
    exact intern_shape hT hs (Nat.le_of_ble_eq_true rfl) rfl
  | function c => exact functionOf_self hT hpart hspared hs
  | reference name arguments =>
    rw [hs] at hparts
    cases hempty : arguments.isEmpty with
    | true => simp only [hempty]; rfl
    | false =>
      have hms : arguments.mapM part T = (arguments, T) := mapM_self hparts
      simp only [hempty, Bool.false_eq_true, if_false, bind_apply, hms]
      exact intern_shape hT hs (Nat.le_of_ble_eq_true rfl) rfl
  | _ => rfl

/-- A substitution finds a spared type again. -/
theorem substituteAt_self (hT : T.WellFormed) (horderly : T.Orderly) (depth : Nat)
    (hspared : T.Spared (subs.map Prod.fst) t) : Ty.substituteAt subs depth t T = (t, T) := by
  induction depth generalizing t with
  | zero => rfl
  | succ depth ih => exact substituteStep_self hT horderly (fun _ hp => ih hp) hspared

end Substituting

end Interning

open Table

/-- **A substitution leaves alone what mentions none of its parameters**, in every table and
whatever the type is made of, unless a function inside declares one of them or mentions one in its
receiver. -/
theorem Ty.substitute_unmentioned {T : Table} (hT : ReflTransGen Operated {} T) (t : Ty)
    (subs : Substitution) (hmentions : Ty.mentions T (subs.map Prod.fst) t = false)
    (hhides : ¬ T.Hides (subs.map Prod.fst) t) : t.substitute subs T = (t, T) := by
  have hwf := (faithful_empty.operations hT).1.wellFormed
  unfold Ty.substitute
  cases subs.isEmpty with
  | true => rfl
  | false => exact Interning.substituteAt_self hwf (orderly_of_operated hT) _ ⟨hmentions, hhides⟩

namespace Table

/-- A table with one type parameter, and the types made next in it. -/
def beside (cs : List Construction) : Table :=
  cs.foldl (fun T c => (c.run T).2) (Ty.newTypeVar { name := "X" } {}).2

theorem operated_construct (hT : ReflTransGen Operated {} T) (c : Construction)
    (hin : ∀ t ∈ c.inputs, T.Has t) (hfits : c.Fits T) : ReflTransGen Operated {} (c.run T).2 :=
  hT.tail (.call (.construct c hin hfits))

theorem operated_beside : ReflTransGen Operated {} (beside []) :=
  .single (.call (.declare { name := "X" } (by simp) (by simp)))

/-- A tuple of a number and an optional string. -/
def numberThenString : Construction := .tuple { slots := [⟨.number, false⟩, ⟨.string, true⟩] }

/-- The function that takes the tuple and gives a number. -/
def taking : Construction := .function { params := [⟨"p", .made 0, false⟩], result := .number }

/-- The function that has the parameter as its receiver. -/
def receiving : Construction := .function { receiver := some (.made 0) }

/-- The function that declares the parameter and says nothing else. -/
def generic : Construction := .function { typeParams := [⟨0⟩] }

end Table

/-- A function beside a parameter that it does not mention. -/
theorem Ty.substitute_unmentioned_taking :
    ReflTransGen Operated {} (beside [numberThenString, taking]) ∧
      Ty.mentions (beside [numberThenString, taking]) [⟨0⟩] (.made 1) = false ∧
      ¬ (beside [numberThenString, taking]).Hides [⟨0⟩] (.made 1) ∧
      (Ty.made 1).substitute [(⟨0⟩, .boolean)] (beside [numberThenString, taking]) =
        (.made 1, beside [numberThenString, taking]) := by
  have htuple : (beside [numberThenString, taking]).shape (.made 0) =
      .tuple { slots := [⟨.number, false⟩, ⟨.string, true⟩] } := by cbv
  have hfunction : (beside [numberThenString, taking]).shape (.made 1) =
      .function { params := [⟨"p", .made 0, false⟩], result := .number } := by cbv
  have hT : ReflTransGen Operated {} (beside [numberThenString, taking]) := by
    refine operated_construct (operated_construct operated_beside numberThenString ?_ trivial)
      taking ?_ trivial
    · simp [numberThenString, Construction.inputs, Tuple.elements, Ty.number, Ty.string]
    · have hsize : (numberThenString.run (beside [])).2.entries.size = 1 := by cbv
      simp [taking, Construction.inputs, Shape.parts, Ty.number, hsize]
  have hmentions : Ty.mentions (beside [numberThenString, taking]) [⟨0⟩] (.made 1) = false := by cbv
  have hprim : ∀ p, ¬ (beside [numberThenString, taking]).Hides [⟨0⟩] (.prim p) := by
    intro p
    have hshape : (beside [numberThenString, taking]).shape (.prim p) = .primitive p := rfl
    simp [hides_iff (t := .prim p), hshape, Ty.mentionParts]
  have hhides : ¬ (beside [numberThenString, taking]).Hides [⟨0⟩] (.made 1) := by
    simp [hides_iff (t := .made 1), hides_iff (t := .made 0), hfunction, htuple, Ty.mentionParts,
      Tuple.elements, hprim, Ty.number, Ty.string]
  exact ⟨hT, hmentions, hhides, substitute_unmentioned hT (.made 1)
    [(⟨0⟩, .boolean)] hmentions hhides⟩

/-- A receiver is replaced though it is not looked at, and a declared parameter is dropped. -/
theorem Ty.not_substitute_unmentioned :
    (ReflTransGen Operated {} (beside [.parameter ⟨0⟩, receiving]) ∧
      (beside [.parameter ⟨0⟩, receiving]).Has (.made 1) ∧
      Ty.mentions (beside [.parameter ⟨0⟩, receiving]) [⟨0⟩] (.made 1) = false ∧
      ((Ty.made 1).substitute [(⟨0⟩, .number)] (beside [.parameter ⟨0⟩, receiving])).1 ≠ .made 1) ∧
    ReflTransGen Operated {} (beside [generic]) ∧ (beside [generic]).Has (.made 0) ∧
      Ty.mentions (beside [generic]) [⟨0⟩] (.made 0) = false ∧
      ((Ty.made 0).substitute [(⟨0⟩, .number)] (beside [generic])).1 ≠ .made 0 := by
  refine ⟨⟨?_, ?_, by cbv, ?_⟩, ?_, ?_, by cbv, ?_⟩
  · refine operated_construct (operated_construct operated_beside (.parameter ⟨0⟩) ?_ ?_)
      receiving ?_ trivial
    · simp [Construction.inputs]
    · simp [Construction.Fits, Knows, beside, Ty.newTypeVar]
    · have hsize : ((Construction.parameter ⟨0⟩).run (beside [])).2.entries.size = 1 := by cbv
      simp [receiving, Construction.inputs, Shape.parts, Ty.void, hsize]
  · have hsize : (beside [.parameter ⟨0⟩, receiving]).entries.size = 2 := by cbv
    simp [hsize]
  · have hresult : ((Ty.made 1).substitute [(⟨0⟩, .number)]
        (beside [.parameter ⟨0⟩, receiving])).1 = .made 2 := by cbv
    simp [hresult]
  · refine operated_construct operated_beside generic ?_ trivial
    simp [generic, Construction.inputs, Shape.parts, Ty.void]
  · have hsize : (beside [generic]).entries.size = 1 := by cbv
    simp [hsize]
  · have hresult : ((Ty.made 0).substitute [(⟨0⟩, .number)] (beside [generic])).1 = .made 1 := by
      cbv
    simp [hresult]

end ShapeCheck
