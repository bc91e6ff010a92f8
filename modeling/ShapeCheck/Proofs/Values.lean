import ShapeCheck.Proofs.Transitivity

/-!
# Values of simple types

Numbers, strings and what is missing are the values of the simple types: the primitives for these,
string and number literals, and unions of them. A simple type that fits another one has no values
that the other does not have, and the union of simple types has the values of all of them.

* `Datum` is a value, `Table.Inhabits` says that it belongs to a type.
* `Table.Simple` are the simple types. Those that variables are declared with, `Table.Declarable`,
  have no number literals.
-/

namespace ShapeCheck

/-- A value of a simple type. -/
inductive Datum where
  | number (x : Binary64)
  | string (s : String)
  | null
  | undefined
  deriving DecidableEq, Repr

/-- The value belongs to a type of the given shape, which is no union. Numbers that print alike are
one literal. -/
def Datum.IsIn : Datum → Shape → Prop
  | .number _, .primitive .number => True
  | .number x, .literal (.number y) => x.text = y.text
  | .string _, .primitive .string => True
  | .string s, .literal (.string t) => s = t
  | .null, .primitive .null => True
  | .undefined, .primitive .undefined => True
  | _, _ => False

/-- The shapes of simple types that are no unions. -/
def Shape.isSimple : Shape → Bool
  | .primitive .number | .primitive .string | .primitive .null | .primitive .undefined => true
  | .literal (.number _) | .literal (.string _) => true
  | _ => false

/-- The shapes of number literals. -/
def Shape.isNumberLiteral : Shape → Bool
  | .literal (.number _) => true
  | _ => false

namespace Table

/-- The value belongs to the type. -/
def Inhabits (T : Table) (v : Datum) (t : Ty) : Prop := ∃ m ∈ T.members t, v.IsIn (T.shape m)

/-- The type is `never` or a union of simple ones. -/
structure Simple (T : Table) (t : Ty) : Prop where
  has : T.Has t
  members : t = .never ∨ T.members t ≠ [] ∧ ∀ m ∈ T.members t, (T.shape m).isSimple = true

/-- The type is simple and has no number literal for a member. -/
structure Declarable (T : Table) (t : Ty) : Prop extends T.Simple t where
  numbers : ∀ m ∈ T.members t, (T.shape m).isNumberLiteral = false

section Values

variable {T T1 : Table} {v : Datum} {s t p m : Ty}

/-- A value of a literal is one of its primitive. -/
theorem isIn_base {l : Literal} (hl : T.literal? p = some l) (hv : v.IsIn (T.shape p)) :
    v.IsIn (.primitive l.base) := by
  unfold literal? at hl
  cases hs : T.shape p with
  | literal k =>
    rw [hs] at hl hv
    obtain rfl := Option.some.inj hl
    cases k <;> cases v <;> simp_all [Datum.IsIn, Literal.base]
  | _ => simp [hs] at hl

theorem not_isIn_never : ¬v.IsIn (T.shape .never) := by
  cases v <;> exact id

theorem not_inhabits_never : ¬T.Inhabits v .never := by
  rintro ⟨m, hm, hv⟩
  obtain rfl : m = .never := by simpa [members, shape] using hm
  exact not_isIn_never hv

theorem ne_never_of_isSimple (h : (T.shape t).isSimple = true) : t ≠ .never := by
  rintro rfl
  simp [shape, Shape.isSimple] at h

/-- A simple type that is no union is its own member. -/
theorem members_of_isSimple (h : (T.shape t).isSimple = true) : T.members t = [t] := by
  unfold members
  cases hs : T.shape t <;> simp_all [Shape.isSimple]

theorem simple_of_isSimple (ht : T.Has t) (h : (T.shape t).isSimple = true) : T.Simple t := by
  refine ⟨ht, .inr ⟨by simp [members_of_isSimple h], fun m hm => ?_⟩⟩
  rw [members_of_isSimple h] at hm
  rwa [List.mem_singleton.mp hm]

theorem Simple.of_member (h : T.Simple t) (hm : m ∈ T.members t) :
    m = .never ∨ (T.shape m).isSimple = true := by
  rcases h.members with rfl | ⟨-, hsimple⟩
  · exact .inl (List.mem_singleton.mp hm)
  · exact .inr (hsimple m hm)

theorem firstOrder_of_isSimple (hT : T.WellFormed) (h : (T.shape t).isSimple = true) :
    T.FirstOrder t := by
  cases hs : T.shape t with
  | primitive q =>
    rw [hs] at h
    have hq : q ≠ .any ∧ q ≠ .invalid := by
      constructor
      · rintro rfl
        simp [Shape.isSimple] at h
      · rintro rfl
        simp [Shape.isSimple] at h
    rw [eq_prim_of_shape hT hs hq.2]
    exact .primitive hq.1 hq.2
  | literal l => exact .literal hs
  | _ => simp [hs, Shape.isSimple] at h

theorem Simple.firstOrder (h : T.Simple t) (hT : T.WellFormed) : T.FirstOrder t := by
  rcases h.members with rfl | ⟨hsome, hsimple⟩
  · exact .primitive (by simp) (by simp)
  · cases hs : T.shape t with
    | union ms =>
      have hmembers : T.members t = ms := by simp [Table.members, hs]
      rw [hmembers] at hsome hsimple
      refine .union hs hsome (fun m hm => firstOrder_of_isSimple hT (hsimple m hm)) fun m hm => ?_
      refine ⟨ne_never_of_isSimple (hsimple m hm), ?_⟩
      rintro rfl
      have hunknown := hsimple .unknown hm
      simp [shape, Shape.isSimple] at hunknown
    | _ => exact firstOrder_of_isSimple hT (hsimple t (by simp [Table.members, hs]))

end Values

section Inclusion

variable {T T1 : Table} {v : Datum} {s t p m : Ty}

/-- A value goes along where one simple member fits another. -/
theorem Fits.isIn {s t : Shape} (h : T.Fits s t) (hs : s.isSimple = true) (ht : t.isSimple = true)
    (hv : v.IsIn s) : v.IsIn t := by
  cases h with
  | refl => exact hv
  | @literal k l hbase htext =>
    cases k <;> cases l <;> simp [Shape.isSimple, Literal.base] at hs ht hbase
    case number.number =>
      cases v with
      | number x => exact Eq.trans hv htext
      | _ => exact hv.elim
    case string.string =>
      have hquoted := Key.quoted_injective htext
      cases v with
      | string x => exact Eq.trans hv hquoted
      | _ => exact hv.elim
  | @base l _ hbase =>
    subst hbase
    cases l <;> cases v <;> trivial
  | top | bottom | split | truths | member | empty | fields | length | elements | places | absent =>
    simp_all [Shape.isSimple]

/-- A simple member fits a type by fitting one of its members. -/
theorem exists_member_of_fits (hp : (T.shape p).isSimple = true)
    (h : T.Fits (T.shape p) (T.shape t)) : ∃ m ∈ T.members t, T.Fits (T.shape p) (T.shape m) := by
  by_cases hunion : (T.shape t).IsUnion
  · obtain ⟨ms, hms⟩ := hunion
    have hmembers : T.members t = ms := by simp [Table.members, hms]
    rw [hms] at h
    rw [hmembers]
    generalize hsp : T.shape p = sp at h hp ⊢
    cases h with
    | member _ _ hm hfits => exact ⟨_, hm, hfits⟩
    | refl | bottom | split | truths => simp [Shape.isSimple] at hp
  · refine ⟨t, ?_, h⟩
    unfold Table.members
    split
    next ms hms =>
      exact absurd ⟨ms, hms⟩ hunion
    · simp

/-- **The values of a simple type** belong to every simple type that it fits. -/
theorem Simple.inhabits (hT : T.WellFormed) (hs : T.Simple s) (ht : T.Simple t)
    (h : T.Fits (T.shape s) (T.shape t)) (hv : T.Inhabits v s) : T.Inhabits v t := by
  obtain ⟨p, hp, hin⟩ := hv
  have hfits := ((hs.firstOrder hT).fits_iff_members hT).mp h p hp
  have hsimple := (hs.of_member hp).resolve_left fun hnever => not_isIn_never (hnever ▸ hin)
  obtain ⟨m, hm, hfits⟩ := exists_member_of_fits hsimple hfits
  rcases ht.of_member hm with rfl | hm'
  · rw [hfits.never_right] at hsimple
    exact absurd hsimple (by simp [Shape.isSimple])
  · exact ⟨m, hm, hfits.isIn hsimple hm' hin⟩

end Inclusion

section Agreement

variable {T T1 : Table} {v : Datum} {t : Ty}

theorem Agrees.members_eq (h : T.Agrees T1) (ht : T.FirstOrder t) : T1.members t = T.members t := by
  unfold Table.members
  rw [h.shape_eq ht]

theorem Simple.of_agrees (ht : T.Simple t) (hT : T.WellFormed) (h : T.Agrees T1) : T1.Simple t := by
  have hfirst := ht.firstOrder hT
  refine ⟨h.has ht.has, ?_⟩
  rw [h.members_eq hfirst]
  refine ht.members.imp_right (And.imp_right fun hsimple m hm => ?_)
  rw [h.shape_eq (hfirst.member hm)]
  exact hsimple m hm

theorem Declarable.of_agrees (ht : T.Declarable t) (hT : T.WellFormed) (h : T.Agrees T1) :
    T1.Declarable t := by
  have hfirst := ht.toSimple.firstOrder hT
  refine ⟨ht.toSimple.of_agrees hT h, fun m hm => ?_⟩
  rw [h.members_eq hfirst] at hm
  rw [h.shape_eq (hfirst.member hm)]
  exact ht.numbers m hm

theorem Simple.inhabits_iff (ht : T.Simple t) (hT : T.WellFormed) (h : T.Agrees T1) :
    T1.Inhabits v t ↔ T.Inhabits v t := by
  have hfirst := ht.firstOrder hT
  unfold Inhabits
  rw [h.members_eq hfirst]
  refine exists_congr fun m => and_congr_right fun hm => ?_
  rw [h.shape_eq (hfirst.member hm)]

end Agreement

end Table

namespace Interning

variable {T : Table} {ts : List Ty}

/-- The members of some types that are not absorbed. -/
def remaining (T : Table) (ts : List Ty) : List Ty :=
  (Ty.allMembers T ts).filter fun m => !Ty.isAbsorbed T (Ty.allMembers T ts) m

/-- A union of simple types has the members that are not absorbed, or is `never`. -/
theorem unionMembers_simple (hts : ∀ t ∈ ts, T.Simple t) :
    Ty.unionMembers T ts = if remaining T ts = [] then [.never] else remaining T ts := by
  have hsimple : ∀ m ∈ Ty.allMembers T ts, m = .never ∨ (T.shape m).isSimple = true := by
    intro m hm
    obtain ⟨t, ht, hm⟩ := Table.mem_allMembers.mp hm
    exact (hts t ht).of_member hm
  have hprim : ∀ q, (Shape.primitive q).isSimple = false → q ≠ .never →
      (Ty.allMembers T ts).contains (.prim q) = false := by
    intro q hq hnever
    rw [List.contains_eq_mem, decide_eq_false_iff_not]
    intro hm
    rcases hsimple _ hm with h | h
    · exact hnever (Ty.prim.inj h)
    · simp [Table.shape, hq] at h
  have htruth : (Ty.allMembers T ts).contains (.truth true) = false := by
    rw [List.contains_eq_mem, decide_eq_false_iff_not]
    intro hm
    rcases hsimple _ hm with h | h
    · exact absurd h (by simp [Ty.never])
    · simp [Table.shape, Shape.isSimple] at h
  have hsplit : Ty.splitsBoolean (Ty.allMembers T ts) = false := by
    simp only [Ty.splitsBoolean, htruth, Bool.false_and]
  have hinvalid := hprim .invalid rfl (by decide)
  have hany := hprim .any rfl (by decide)
  have hunknown := hprim .unknown rfl (by decide)
  simp only [Ty.unionMembers, Ty.essentialMembers]
  rw [if_neg (by simpa using hinvalid), if_neg (by simpa using hany),
    if_neg (by simpa using hunknown),
    hsplit, if_neg Bool.false_ne_true, List.append_nil]
  rw [← remaining]
  cases remaining T ts with
  | nil => rfl
  | cons m ms => rfl

theorem mem_unionMembers_simple (hts : ∀ t ∈ ts, T.Simple t) {m : Ty}
    (hm : m ∈ Ty.unionMembers T ts) :
    Ty.unionMembers T ts = [.never] ∨ (T.shape m).isSimple = true ∧ ∃ t ∈ ts, m ∈ T.members t := by
  rw [unionMembers_simple hts] at hm ⊢
  split
  · exact .inl rfl
  next hsome =>
    rw [if_neg hsome] at hm
    obtain ⟨hall, habsorbed⟩ := List.mem_filter.mp hm
    obtain ⟨t, ht, hmem⟩ := Table.mem_allMembers.mp hall
    refine .inr ⟨((hts t ht).of_member hmem).resolve_left ?_, t, ht, hmem⟩
    rintro rfl
    simp [Ty.isAbsorbed] at habsorbed

/-- What is absorbed is covered by what remains. -/
theorem inhabits_unionMembers (hts : ∀ t ∈ ts, T.Simple t) {v : Datum} {t : Ty} (ht : t ∈ ts)
    (hv : T.Inhabits v t) : ∃ m ∈ Ty.unionMembers T ts, v.IsIn (T.shape m) := by
  obtain ⟨m, hm, hin⟩ := hv
  have hall : m ∈ Ty.allMembers T ts := Table.mem_allMembers.mpr ⟨t, ht, hm⟩
  have hremaining : ∃ k ∈ remaining T ts, v.IsIn (T.shape k) := by
    by_cases hliteral : ∃ l, T.literal? m = some l ∧ .prim l.base ∈ Ty.allMembers T ts
    · -- The literal is absorbed, and its primitive is not.
      obtain ⟨l, hl, hbase⟩ := hliteral
      refine ⟨.prim l.base, List.mem_filter.mpr ⟨hbase, ?_⟩, Table.isIn_base hl hin⟩
      cases l <;> simp [Ty.isAbsorbed, Table.literal?, Table.shape, Literal.base, Ty.never]
    · have hnever : m ≠ .never := by
        rintro rfl
        cases v <;> exact hin
      have htruth : ∀ b, m ≠ .truth b := by
        rintro b rfl
        cases v <;> exact hin
      refine ⟨m, List.mem_filter.mpr ⟨hall, ?_⟩, hin⟩
      cases hl : T.literal? m with
      | none => simp [Ty.isAbsorbed, hl, hnever, htruth]
      | some l =>
        have hbase : .prim l.base ∉ Ty.allMembers T ts := fun h => hliteral ⟨l, hl, h⟩
        simp [Ty.isAbsorbed, hl, hnever, htruth, hbase]
  obtain ⟨k, hk, hin⟩ := hremaining
  refine ⟨k, ?_, hin⟩
  rw [unionMembers_simple hts, if_neg (List.ne_nil_of_mem hk)]
  exact hk

/-- **The union of simple types** is simple, and has their values. -/
theorem settles_union (hT : T.WellFormed) (hts : ∀ t ∈ ts, T.Simple t) :
    Settles T (Ty.unionOf ts) fun T1 t => T1.Simple t ∧
      (∀ u ∈ ts, ∀ v, T.Inhabits v u → T1.Inhabits v t) ∧
        ∀ m ∈ T1.members t, m = .never ∨ ∃ u ∈ ts, m ∈ T.members u := by
  have hhas : ∀ t ∈ ts, T.Has t := fun t ht => (hts t ht).has
  obtain ⟨t, T1, hat, ht, hstands⟩ := settles_unionOf hT hhas
  have hshape : ∀ m ∈ Ty.unionMembers T ts, T1.shape m = T.shape m := fun m hm =>
    Table.shape_of_le hat.adds.le (has_unionMembers hT hhas m hm).1
  have hnever : Ty.unionMembers T ts = [.never] → t = .never := by
    intro hone
    exact congrArg Prod.fst (hat.result.symm.trans (unionOf_single hone))
  have hsome : Ty.unionMembers T ts ≠ [] := by
    rw [unionMembers_simple hts]
    split
    · simp
    · assumption
  refine ⟨t, T1, hat, ⟨ht, ?_⟩, ?_, ?_⟩
  · by_cases hone : Ty.unionMembers T ts = [.never]
    · exact .inl (hnever hone)
    · obtain ⟨k, hk⟩ := List.exists_mem_of_ne_nil _ hsome
      refine .inr ⟨List.ne_nil_of_mem ((hstands k).mpr hk), fun m hm => ?_⟩
      have hmem := (hstands m).mp hm
      rw [hshape m hmem]
      exact ((mem_unionMembers_simple hts hmem).resolve_left hone).1
  · intro u hu v hv
    obtain ⟨m, hm, hin⟩ := inhabits_unionMembers hts hu hv
    exact ⟨m, (hstands m).mpr hm, (hshape m hm).symm ▸ hin⟩
  · intro m hm
    have hmem := (hstands m).mp hm
    rcases mem_unionMembers_simple hts hmem with hone | ⟨-, hu⟩
    · rw [hone] at hmem
      exact .inl (List.mem_singleton.mp hmem)
    · exact .inr hu

end Interning

end ShapeCheck
