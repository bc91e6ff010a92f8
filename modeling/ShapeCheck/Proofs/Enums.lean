import ShapeCheck.Proofs.Constructors

/-!
# Making an enum

An enum is entered first, then its members, and then the enum is told its members. It is the only
case in which an entry changes, and the entry is one that was just made.

* `Interning.enumOf_spec` says what a new enum is, and that nothing older changes.
-/

namespace ShapeCheck

open Table

variable {t enum : Ty} {T T' : Table} {name : String}

namespace Table

/-- The table with the shape of one entry changed. -/
def reshape (T : Table) (n : Nat) (s : Shape) : Table :=
  { T with entries := T.entries.modify n fun e => { e with shape := s } }

section Reshape

variable {n : Nat} {e : Entry} {old new : Enumeration}

theorem getElem?_reshape_same (s : Shape) (he : T.entries[n]? = some e) :
    (T.reshape n s).entries[n]? = some { e with shape := s } := by
  simp [reshape, Array.getElem?_modify, he]

theorem getElem?_reshape_other (s : Shape) {i : Nat} (hi : i ≠ n) :
    (T.reshape n s).entries[i]? = T.entries[i]? := by
  simp [reshape, Array.getElem?_modify, hi.symm]

theorem has_reshape (s : Shape) : (T.reshape n s).Has t ↔ T.Has t := by
  simp [Has, reshape]

theorem shape_reshape_other (s : Shape) (ht : t ≠ .made n) :
    (T.reshape n s).shape t = T.shape t := by
  cases t with
  | prim p => rfl
  | truth b => rfl
  | made i =>
    have hi : i ≠ n := fun h => ht (by rw [h])
    simp only [shape, getElem?_reshape_other s hi]

/-- An enum has no members as a union, whatever members it has as an enum. -/
theorem members_reshape (he : T.entries[n]? = some e) (hold : e.shape = .enumeration old) (t : Ty) :
    (T.reshape n (.enumeration new)).members t = T.members t := by
  by_cases ht : t = .made n
  · subst ht
    simp only [members, shape_made (getElem?_reshape_same _ he), shape_made he, hold]
  · rw [members, members, shape_reshape_other _ ht]

theorem literal?_reshape (he : T.entries[n]? = some e)
    (hold : e.shape = .enumeration old) (t : Ty) :
    (T.reshape n (.enumeration new)).literal? t = T.literal? t := by
  by_cases ht : t = .made n
  · subst ht
    simp only [literal?, shape_made (getElem?_reshape_same _ he), shape_made he, hold]
  · rw [literal?, literal?, shape_reshape_other _ ht]

theorem text_reshape (he : T.entries[n]? = some e) (s : Shape) (t : Ty) :
    (T.reshape n s).text t = T.text t := by
  cases t with
  | prim | truth => rfl
  | made i =>
    by_cases hi : i = n
    · subst hi
      simp only [text, getElem?_reshape_same _ he, he]
    · simp only [text, getElem?_reshape_other _ hi]

/-- Giving an enum other members of the table keeps the table well-formed. -/
theorem WellFormed.reshape (hT : T.WellFormed) (he : T.entries[n]? = some e)
    (hold : e.shape = .enumeration old) (hname : new.name = old.name)
    (hnew : ∀ m ∈ new.members, T.Has m) : (T.reshape n (.enumeration new)).WellFormed := by
  have hkey : Shape.key (.enumeration new) = Shape.key (.enumeration old) := by
    rw [Shape.key, Shape.key, Shape.spelling, Shape.spelling, hname]
  have hentry : ∀ (i : Nat) (f : Entry), (T.reshape n (.enumeration new)).entries[i]? = some f →
      ∃ g, T.entries[i]? = some g ∧ f.key = g.key ∧ (f = g ∨ i = n ∧ f.shape = .enumeration new ∧
        g.shape = .enumeration old) := by
    intro i f hf
    by_cases hi : i = n
    · subst hi
      rw [getElem?_reshape_same _ he] at hf
      injection hf with hf
      subst hf
      exact ⟨e, he, rfl, .inr ⟨rfl, rfl, hold⟩⟩
    · rw [getElem?_reshape_other _ hi] at hf
      exact ⟨f, hf, rfl, .inl rfl⟩
  refine ⟨?_, ?_, ?_, ?_, ?_⟩
  · intro i f hf
    obtain ⟨g, hg, hkeys, rfl | ⟨rfl, hfs, hgs⟩⟩ := hentry i f hf
    · have hvalid := hT.entry i f hg
      refine ⟨hvalid.parts, ?_, hvalid.vars, ?_, ?_, hvalid.key, hvalid.isEntry⟩
      · intro en hen m hm
        exact (has_reshape _).mpr (hvalid.members en hen m hm)
      · intro ms hms
        exact (hvalid.union ms hms).congr (fun m _ => members_reshape he hold m)
          (fun m _ => literal?_reshape he hold m) fun m _ => text_reshape he _ m
      · intro enum name v hv
        rw [literal?_reshape he hold]
        exact hvalid.values enum name v hv
    · refine ⟨by simp [hfs, Shape.parts], ?_, by simp [hfs], by simp [hfs], by simp [hfs], ?_, ?_⟩
      · intro en hen m hm
        rw [hfs] at hen
        injection hen with hen
        exact (has_reshape _).mpr (hnew m (hen ▸ hm))
      · rw [hkeys, (hT.entry i g hg).key, hfs, hgs, hkey]
      · rw [hfs]
        trivial
  · intro i j f g hf hg hplain hkeys
    obtain ⟨f', hf', hkf, hcase⟩ := hentry i f hf
    obtain ⟨g', hg', hkg, -⟩ := hentry j g hg
    refine hT.unique i j f' g' hf' hg' ?_ (by rw [← hkf, ← hkg, hkeys])
    rcases hcase with rfl | ⟨-, -, hs⟩
    · exact hplain
    · rw [hs]
      rfl
  · intro i info hi
    obtain ⟨hb, hd⟩ := hT.typeVars i info hi
    exact ⟨fun b h => (has_reshape _).mpr (hb b h), fun d h => (has_reshape _).mpr (hd d h)⟩
  · intro a ha
    obtain ⟨htarget, hparams, hout⟩ := hT.aliases a ha
    exact ⟨(has_reshape _).mpr htarget, hparams, fun t h => (has_reshape _).mpr (hout t h)⟩
  · intro t r hr
    exact (has_reshape _).mpr (hT.instances t r hr)

/-- Giving an enum members leaves all that is said in an orderly way. -/
theorem Orderly.reshape (h : T.Orderly) (he : T.entries[n]? = some e)
    (hold : e.shape = .enumeration old) : (T.reshape n (.enumeration new)).Orderly := by
  have hsame : ∀ t, T.SaysAlike (T.reshape n (.enumeration new)) t := by
    intro t
    by_cases ht : t = .made n
    · subst ht
      exact .inr ⟨old, new, (shape_made he).trans hold, shape_made (getElem?_reshape_same _ he)⟩
    · exact .inl (shape_reshape_other _ ht)
  intro i f hf
  by_cases hi : i = n
  · subst hi
    rw [getElem?_reshape_same _ he] at hf
    obtain rfl := Option.some.inj hf
    trivial
  · rw [getElem?_reshape_other _ hi] at hf
    exact (h i f hf).congr fun p _ => hsame p

end Reshape

/-- No enum of the table has the name. -/
def FreshEnum (T : Table) (name : String) : Prop :=
  ∀ (n : Nat) (e : Entry) (en : Enumeration), T.entries[n]? = some e → e.shape = .enumeration en →
    en.name ≠ name

end Table

namespace Interning

/-- A member of an enum as it was asked for. -/
def IsMemberOf (T : Table) (enum m : Ty) (wanted : String × Ty) : Prop :=
  T.Has m ∧ T.shape m = .enumMember enum wanted.1 wanted.2

theorem IsMemberOf.of_le {m : Ty} {wanted : String × Ty}
    (h : IsMemberOf T enum m wanted) (hle : T ≤ T') : IsMemberOf T' enum m wanted :=
  ⟨has_of_le hle h.1, (shape_of_le hle h.1).trans h.2⟩

theorem values_of_le (hle : T ≤ T') (h : T.Has t ∧ (T.literal? t).isSome) :
    T'.Has t ∧ (T'.literal? t).isSome :=
  ⟨has_of_le hle h.1, by rw [literal?_of_le hle h.1]; exact h.2⟩

/-- Entering one member of an enum. -/
theorem add_enumMember (hT : T.WellFormed) {value : Ty} (name : String)
    (henum : ∃ e, T.shape enum = .enumeration e) (hvalue : T.Has value)
    (hlit : (T.literal? value).isSome) :
    ∃ T1, Ty.add (.enumMember enum name value) T = (.made T.entries.size, T1) ∧ T1.WellFormed ∧
      T.Adds T1 ∧ IsMemberOf T1 enum (.made T.entries.size) (name, value) := by
  let e : Entry := ⟨.enumMember enum name value, Shape.key (.enumMember enum name value),
    T.shapeText (.enumMember enum name value)⟩
  have hparts : ∀ p ∈ e.shape.parts, T.Has p := by
    intro p hp
    simp only [e, Shape.parts, List.mem_cons, List.not_mem_nil, or_false] at hp
    rcases hp with rfl | rfl
    · obtain ⟨en, hen⟩ := henum
      exact has_of_shape (by simp [hen])
    · exact hvalue
  refine ⟨T.push e, rfl, ?_, adds_push hT hparts fun _ => henum, has_push_new,
    shape_push_new⟩
  apply hT.push
  · refine ⟨hparts, by simp [e], by simp [e], by simp [e], ?_, rfl, trivial⟩
    · intro enum' name' v hv
      obtain ⟨-, -, rfl⟩ := Shape.enumMember.inj hv
      rw [literal?_of_le le_push hvalue]
      exact hlit
  · intro i f hf hkey
    have hvalid := hT.entry i f hf
    refine ⟨?_, rfl⟩
    have halike := (Shape.key_eq_iff hvalid.isEntry.tidy (t := .enumMember enum name value)
      trivial).mp (hvalid.key ▸ hkey)
    exact Shape.isEnumMember_eq_of_alike halike

/-- Entering the members of an enum, in order. -/
theorem addMembers_spec (enum : Ty) (members : List (String × Ty)) (hT : T.WellFormed)
    (henum : ∃ e, T.shape enum = .enumeration e)
    (hvalues : ∀ p ∈ members, T.Has p.2 ∧ (T.literal? p.2).isSome) :
    ∃ ms T1, (members.mapM fun p => Ty.add (.enumMember enum p.1 p.2) : Interning (List Ty)) T =
      (ms, T1) ∧ T1.WellFormed ∧ T.Adds T1 ∧ List.Forall₂ (IsMemberOf T1 enum) ms members := by
  induction members generalizing T with
  | nil => exact ⟨[], T, rfl, hT, .refl T, .nil⟩
  | cons p members ih =>
    obtain ⟨T1, hadd, hT1, h1, hm⟩ := add_enumMember hT p.1 henum (hvalues p (by simp)).1
      (hvalues p (by simp)).2
    have henum1 : ∃ e, T1.shape enum = .enumeration e := by
      obtain ⟨e, he⟩ := henum
      exact ⟨e, (shape_of_le h1.le (has_of_shape (by simp [he]))).trans he⟩
    obtain ⟨ms, T2, hrun, hT2, h2, hms⟩ := ih hT1 henum1 fun q hq =>
      values_of_le h1.le (hvalues q (List.mem_cons_of_mem _ hq))
    refine ⟨.made T.entries.size :: ms, T2, ?_, hT2, h1.trans h2, .cons (hm.of_le h2.le) hms⟩
    rw [List.mapM_cons]
    change (fun r : List Ty × Table => ((Ty.add (.enumMember enum p.1 p.2) T).1 :: r.1, r.2))
      ((members.mapM fun p => Ty.add (.enumMember enum p.1 p.2) : Interning (List Ty))
        (Ty.add (.enumMember enum p.1 p.2) T).2) = _
    rw [hadd, hrun]

/-- An enum with a new name is entered under that name. -/
theorem intern_freshEnum (hT : T.WellFormed) (isConst : Bool) (hfresh : T.FreshEnum name) :
    ∃ e T1, Ty.intern (.enumeration { name, isConst }) T = (.made T.entries.size, T1) ∧
      T1.WellFormed ∧ T.Adds T1 ∧ T1.entries[T.entries.size]? = some e ∧
      e.shape = .enumeration { name, isConst } := by
  let s : Shape := .enumeration { name, isConst }
  have hnone : T.find? s.key = none := by
    cases hfind : T.find? s.key with
    | none => rfl
    | some t =>
      obtain ⟨n, e, rfl, he, hkey⟩ := find?_eq_some hfind
      have hvalid := hT.entry n e he
      have halike := (Shape.key_eq_iff hvalid.isEntry.tidy (t := s) trivial).mp (hvalid.key ▸ hkey)
      cases hs : e.shape with
      | enumeration en =>
        rw [hs] at halike
        exact absurd halike (hfresh n e en he hs)
      | _ =>
        rw [hs] at halike
        exact halike.elim
  refine ⟨⟨s, s.key, T.shapeText s⟩, T.push ⟨s, s.key, T.shapeText s⟩, ?_, ?_,
    adds_push hT (by simp [s, Shape.parts]) fun _ => trivial, getElem?_push_new, rfl⟩
  · rw [intern_apply, hnone]
  · apply hT.push
    · exact ⟨by simp [s, Shape.parts], by simp [s], by simp [s], by simp [s], by simp [s], rfl,
        trivial⟩
    · intro i f hf hkey
      exact absurd hkey (find?_eq_none hnone hf)

/-- The steps of making an enum whose name is new. -/
theorem enumOf_run {T1 : Table} {isConst : Bool} (members : List (String × Ty))
    {n : Nat} (hintern : Ty.intern (.enumeration { name, isConst }) T = (.made n, T1))
    (hshape : T1.shape (.made n) = .enumeration { name, isConst }) :
    Ty.enumOf name isConst members T =
      if members.isEmpty then (.made n, T1)
      else
        let added := (members.mapM fun p => Ty.add (.enumMember (.made n) p.1 p.2) :
          Interning (List Ty)) T1
        (.made n, added.2.reshape n (.enumeration { name, isConst, members := added.1 })) := by
  have hread : ((get : Interning Table) T1).1.shape (.made n) =
    .enumeration { name, isConst } := hshape
  rw [Ty.enumOf, bind_apply, hintern, bind_apply, hread]
  cases hm : members.isEmpty
  · rfl
  · rfl

/-- A new enum has the members it was asked for, in order, and nothing older changes. -/
theorem enumOf_spec (hT : T.WellFormed) (isConst : Bool)
    {members : List (String × Ty)} (hfresh : T.FreshEnum name)
    (hvalues : ∀ p ∈ members, T.Has p.2 ∧ (T.literal? p.2).isSome) :
    ∃ t T1, Ty.enumOf name isConst members T = (t, T1) ∧ T1.WellFormed ∧ T.Adds T1 ∧ T1.Has t ∧
      ∃ ms, T1.shape t = .enumeration { name, isConst, members := ms } ∧
        List.Forall₂ (IsMemberOf T1 t) ms members := by
  obtain ⟨e, T1, hintern, hT1, h1, he, hes⟩ := intern_freshEnum hT isConst hfresh
  have hhas : T1.Has (.made T.entries.size) := Table.has_iff_entry.mpr ⟨e, he⟩
  have hshape : T1.shape (.made T.entries.size) = .enumeration { name, isConst } :=
    (Table.shape_made he).trans hes
  by_cases hempty : members.isEmpty = true
  · have hnil : members = [] := by simpa using hempty
    subst hnil
    refine ⟨.made T.entries.size, T1, ?_, hT1, h1, hhas, [], hshape, .nil⟩
    rw [enumOf_run [] hintern hshape]
    rfl
  · obtain ⟨ms, T2, hadd, hT2, h2, hms⟩ := addMembers_spec (.made T.entries.size) members hT1
      ⟨_, hshape⟩ fun p hp => values_of_le h1.le (hvalues p hp)
    have he2 := h2.le.entries _ _ he
    let new : Enumeration := { name, isConst, members := ms }
    have hmembers : ∀ m ∈ new.members, T2.Has m := by
      intro m hm
      obtain ⟨i, hi, rfl⟩ := List.mem_iff_getElem.mp hm
      exact (List.forall₂_iff_get.mp hms).2 i hi ((List.forall₂_iff_get.mp hms).1 ▸ hi) |>.1
    have hwf : (T2.reshape T.entries.size (.enumeration new)).WellFormed :=
      hT2.reshape he2 hes rfl hmembers
    have hold : ∀ i, i < T.entries.size → i ≠ T.entries.size := fun i hi => Nat.ne_of_lt hi
    refine ⟨.made T.entries.size, T2.reshape T.entries.size (.enumeration new), ?_, hwf, ?_, ?_, ms,
      Table.shape_made (Table.getElem?_reshape_same _ he2), ?_⟩
    · rw [enumOf_run members hintern hshape, if_neg hempty, hadd]
    · -- the entry that changes is none of the first table's
      have hle := (h1.trans h2).le
      refine ⟨⟨?_, hle.typeVars, hle.aliases, hle.frozen, hle.kept, ?_⟩,
        (h1.trans h2).typeVars, (h1.trans h2).verdicts,
        fun h => ((h1.trans h2).orderly h).reshape he2 hes⟩
      · intro i f hf
        rw [Table.getElem?_reshape_other _ (hold i (Array.getElem?_eq_some_iff.mp hf).1)]
        exact hle.entries i f hf
      · intro t r hr
        rcases hle.opened t r hr with hr | hopen
        · exact .inl hr
        · have hne : t ≠ .made T.entries.size := by
            rintro rfl
            rw [Table.Opens, Table.shape_made he2, hes] at hopen
            exact hopen
          refine .inr ?_
          unfold Table.Opens at hopen ⊢
          rw [Table.shape_reshape_other _ hne]
          exact hopen
    · exact (Table.has_reshape _).mpr (has_of_le h2.le hhas)
    · refine hms.imp ?_
      rintro m p ⟨hm, hs⟩
      refine ⟨(Table.has_reshape _).mpr hm, ?_⟩
      rw [Table.shape_reshape_other _ ?_, hs]
      rintro rfl
      rw [Table.shape_made he2, hes] at hs
      exact absurd hs (by simp)

end Interning

end ShapeCheck
