import ShapeCheck.Ty.Table
import ShapeCheck.Proofs.Keys
import ShapeCheck.Proofs.Pointwise

/-!
# Structural equality

When two shapes say the same, given when their parts are the same: members of unions and
intersections count as sets, fields as maps, call signatures in order, the names of parameters not
at all, and a literal is its primitive with its printed form.

* `Shape.Alike R` compares two shapes, with `R` on the parts.
* `Shape.key_eq_iff` says that two shapes have the same key exactly when they are alike with equal
  parts. It is all that the tables of types need to know about keys.
-/

namespace ShapeCheck

variable {ts us : List Ty} {t s : Shape} {u : Ty} {a b : String}

/-- Every type on either side has its like on the other. -/
def SameMembers (R : Ty → Ty → Prop) (ts us : List Ty) : Prop :=
  (∀ t ∈ ts, ∃ u ∈ us, R t u) ∧ ∀ u ∈ us, ∃ t ∈ ts, R t u

/-- Two functions that say the same. -/
structure Callable.Alike (R : Ty → Ty → Prop) (c d : Callable) : Prop where
  typeParams : c.typeParams = d.typeParams
  params : List.Forall₂ (fun p q => R p.type q.type ∧ p.optional = q.optional) c.params d.params
  rest : Option.Rel R (c.rest.map Parameter.type) (d.rest.map Parameter.type)
  receiver : Option.Rel R c.receiver d.receiver
  result : R c.result d.result

/-- Two fields that say the same. -/
def Field.Alike (R : Ty → Ty → Prop) (f g : Field) : Prop :=
  R f.type g.type ∧ f.optional = g.optional ∧ f.readonly = g.readonly

/-- Two objects that say the same; their fields are maps from names. -/
structure Members.Alike (R : Ty → Ty → Prop) (m n : Members) : Prop where
  fields : ∀ name, Option.Rel (Field.Alike R) (m.field? name) (n.field? name)
  index : Option.Rel (fun i j => i.key = j.key ∧ R i.value j.value) m.index n.index
  calls : List.Forall₂ R m.calls n.calls

/-- Two tuples that say the same. -/
structure Tuple.Alike (R : Ty → Ty → Prop) (t u : Tuple) : Prop where
  slots : List.Forall₂ (fun a b => R a.type b.type ∧ a.optional = b.optional) t.slots u.slots
  rest : Option.Rel R t.rest u.rest
  readonly : t.readonly = u.readonly

theorem sameMembers_eq_iff : SameMembers Eq ts us ↔ ∀ t, t ∈ ts ↔ t ∈ us := by
  constructor
  · rintro ⟨hto, hfrom⟩ t
    constructor
    · intro ht
      obtain ⟨u, hu, rfl⟩ := hto t ht
      exact hu
    · intro hu
      obtain ⟨v, hv, rfl⟩ := hfrom t hu
      exact hv
  · intro h
    exact ⟨fun t ht => ⟨t, (h t).mp ht, rfl⟩, fun u hu => ⟨u, (h u).mpr hu, rfl⟩⟩

namespace Shape

/-- Two shapes that say the same, their parts compared by `R`. -/
def Alike (R : Ty → Ty → Prop) : Shape → Shape → Prop
  | primitive p, primitive q => p = q
  | literal l, literal k => l.base = k.base ∧ l.text = k.text
  | union ms, union ns => SameMembers R ms ns
  | intersection ms, intersection ns => SameMembers R ms ns
  | object m, object n => m.Alike R n
  | array t a, array u b => R t u ∧ a = b
  | tuple t, tuple u => t.Alike R u
  | function c, function d => c.Alike R d
  | parameter v, parameter w => v = w
  | reference a ts, reference b us => a = b ∧ List.Forall₂ R ts us
  | enumeration e, enumeration f => e.name = f.name
  | enumMember t a _, enumMember u b _ => R t u ∧ a = b
  | classValue a i c, classValue b j d => a = b ∧ R i j ∧ R c d
  | _, _ => False

/-- Shapes as a table keeps them: no member of a union or an intersection is repeated, and no name
of a field. -/
def Tidy : Shape → Prop
  | union ms => ms.Nodup
  | intersection ms => ms.Nodup
  | object m => (m.fields.map Field.name).Nodup
  | _ => True

/-- The kinds of shapes, numbered. -/
def kind : Shape → Nat
  | primitive _ => 0
  | literal _ => 1
  | union _ => 2
  | intersection _ => 3
  | object _ => 4
  | array _ _ => 5
  | tuple _ => 6
  | function _ => 7
  | parameter _ => 8
  | reference _ _ => 9
  | enumeration _ => 10
  | enumMember _ _ _ => 11
  | classValue _ _ _ => 12

/-- The kind that a key belongs to. -/
def kindOfKey : List Char → Nat
  | 'L' :: _ => 1
  | 'U' :: _ => 2
  | 'I' :: _ => 3
  | 'O' :: _ => 4
  | 'A' :: _ => 5
  | 'R' :: 'A' :: _ => 5
  | 'T' :: _ => 6
  | 'R' :: 'T' :: _ => 6
  | 'F' :: _ => 7
  | 'P' :: _ => 8
  | 'R' :: ':' :: _ => 9
  | 'E' :: ':' :: _ => 10
  | 'E' :: 'M' :: _ => 11
  | 'C' :: _ => 12
  | _ => 0

/-- Each kind of shape starts its keys in its own way. -/
theorem kindOfKey_spelling (s : Shape) : kindOfKey s.spelling = s.kind := by
  cases s with
  | primitive p => cases p <;> rfl
  | array t readonly => cases readonly <;> rfl
  | tuple t =>
    rcases t with ⟨slots, rest, readonly⟩
    cases readonly <;> rfl
  | _ => rfl

theorem callable_key_eq_iff {c d : Callable} : Key.callable c = Key.callable d ↔ c.Alike Eq d := by
  have hpair : ∀ p q : Parameter, (p.type = q.type ∧ p.optional = q.optional) =
      ((p.type, p.optional) = (q.type, q.optional)) := by
    intro p q
    simp
  constructor
  · intro h
    obtain ⟨htypes, hparams, hrest, hreceiver, hresult⟩ := Key.callable_injective h
    refine ⟨htypes, ?_, option_rel_eq_iff.mpr hrest, option_rel_eq_iff.mpr hreceiver, hresult⟩
    simp only [hpair]
    exact forall₂_iff_map_eq.mpr hparams
  · rintro ⟨htypes, hparams, hrest, hreceiver, hresult⟩
    simp only [hpair] at hparams
    have hmap := forall₂_iff_map_eq.mp hparams
    have hflat : ∀ ps : List Parameter, ps.flatMap Key.parameter =
        (ps.map fun p => (p.type, p.optional)).flatMap
          fun p => Key.number p.1 ++ Key.mark p.2 '?' ++ [','] := by
      intro ps
      simp only [List.flatMap_map]
      rfl
    simp only [Key.callable, htypes, hflat, hmap, option_rel_eq_iff.mp hrest,
      option_rel_eq_iff.mp hreceiver, hresult]

theorem members_key_eq_iff {m n : Members} (hm : (m.fields.map Field.name).Nodup)
    (hn : (n.fields.map Field.name).Nodup) : Key.members m = Key.members n ↔ m.Alike Eq n := by
  have hfield : ∀ name, Option.Rel (Field.Alike Eq) (m.field? name) (n.field? name) ↔
      m.field? name = n.field? name := by
    intro name
    constructor
    · intro h
      cases hf : m.field? name with
      | none =>
        rw [hf] at h
        cases hg : n.field? name with
        | none => rfl
        | some g =>
          rw [hg] at h
          nomatch h
      | some f =>
        rw [hf] at h
        cases hg : n.field? name with
        | none =>
          rw [hg] at h
          nomatch h
        | some g =>
          rw [hg] at h
          obtain ⟨htype, hopt, hro⟩ : Field.Alike Eq f g := by
            cases h with
            | some h => exact h
          have hfn : f.name = name := by simpa using List.find?_some hf
          have hgn : g.name = name := by simpa using List.find?_some hg
          cases f
          cases g
          simp_all
    · intro h
      rw [h]
      cases n.field? name with
      | none => exact .none
      | some g => exact .some ⟨rfl, rfl, rfl⟩
  have hindex : Option.Rel (fun i j : Index => i.key = j.key ∧ i.value = j.value) m.index n.index ↔
      m.index = n.index := by
    rw [← option_rel_eq_iff]
    have : (fun i j : Index => i.key = j.key ∧ i.value = j.value) = Eq := by
      funext i j
      cases i
      cases j
      simp
    rw [this]
  constructor
  · intro h
    obtain ⟨hfields, hix, hcalls⟩ := Key.members_injective h
    have hperm := (Members.perm_iff_field? hm hn).mp ((Key.sortFields_eq_iff hm).mp hfields)
    refine ⟨fun name => (hfield name).mpr (hperm name), hindex.mpr hix, ?_⟩
    rw [hcalls, List.forall₂_eq_eq_eq]
  · rintro ⟨hfields, hix, hcalls⟩
    have hperm := (Members.perm_iff_field? hm hn).mpr fun name => (hfield name).mp (hfields name)
    rw [List.forall₂_eq_eq_eq] at hcalls
    simp only [Key.members, (Key.sortFields_eq_iff hm).mpr hperm, hindex.mp hix, hcalls]

theorem tuple_key_eq_iff {t u : Tuple} : Key.tuple t = Key.tuple u ↔ t.Alike Eq u := by
  have hslot : (fun a b : Slot => a.type = b.type ∧ a.optional = b.optional) = Eq := by
    funext a b
    cases a
    cases b
    simp
  constructor
  · intro h
    rw [Key.tuple_injective h]
    exact ⟨by rw [hslot, List.forall₂_eq_eq_eq], option_rel_eq_iff.mpr rfl, rfl⟩
  · rintro ⟨hslots, hrest, hro⟩
    rw [hslot, List.forall₂_eq_eq_eq] at hslots
    cases t
    cases u
    simp_all [option_rel_eq_iff]

theorem literal_key_eq_iff {l k : Literal} :
    (literal l).spelling = (literal k).spelling ↔ l.base = k.base ∧ l.text = k.text := by
  have hcolon : ∀ p : Primitive, ':' ∉ p.text.toList := by
    intro p
    cases p <;> decide
  have htext : ∀ p q : Primitive, p.text.toList = q.text.toList → p = q := by
    intro p q
    cases p <;> cases q <;> simp [Primitive.text]
  constructor
  · intro h
    simp only [spelling, List.cons_append, List.cons.injEq, true_and] at h
    obtain ⟨hbase, htail⟩ := Key.split_first (hcolon _) (hcolon _) h
    exact ⟨htext _ _ hbase, String.toList_injective htail⟩
  · rintro ⟨hbase, htail⟩
    simp only [spelling, hbase, htail]

theorem array_key_eq_iff {t : Ty} {a b : Bool} :
    (array t a).spelling = (array u b).spelling ↔ t = u ∧ a = b := by
  constructor
  · intro h
    simp only [spelling] at h
    obtain ⟨hab, htail⟩ := Key.mark_append_inj (Key.stops_cons (by decide) _)
      (Key.stops_cons (by decide) _) h
    simp only [List.cons.injEq, true_and] at htail
    exact ⟨Key.number_injective htail, hab⟩
  · rintro ⟨rfl, rfl⟩
    rfl

theorem parameter_key_eq_iff {v w : TypeVar} :
    (parameter v).spelling = (parameter w).spelling ↔ v = w := by
  constructor
  · intro h
    simp only [spelling, List.cons.injEq, true_and] at h
    have hnum := Key.digits_injective h
    cases v
    cases w
    simpa using hnum
  · rintro rfl
    rfl

/-- A name may hold any character, but the last `<` opens the arguments. -/
theorem reference_key_eq_iff :
    (reference a ts).spelling = (reference b us).spelling ↔ a = b ∧ List.Forall₂ Eq ts us := by
  have hids : ∀ vs : List Ty, '<' ∉ Key.ids vs ++ ['>'] := by
    intro vs h
    rcases List.mem_append.mp h with h | h
    · rcases Key.digit_or_comma_of_mem_ids h with h | h
      · exact absurd h (by decide)
      · exact absurd h (by decide)
    · exact absurd h (by decide)
  rw [List.forall₂_eq_eq_eq]
  constructor
  · intro h
    simp only [spelling, List.cons_append, List.append_assoc, List.cons.injEq, true_and] at h
    obtain ⟨hname, htail⟩ := Key.split_last (hids ts) (hids us) h
    exact ⟨String.toList_injective hname, Key.ids_injective (List.append_cancel_right htail)⟩
  · rintro ⟨rfl, rfl⟩
    rfl

theorem enumMember_key_eq_iff {t v w : Ty} :
    (enumMember t a v).spelling = (enumMember u b w).spelling ↔ t = u ∧ a = b := by
  constructor
  · intro h
    simp only [spelling, List.cons_append, List.cons.injEq, true_and] at h
    obtain ⟨htu, htail⟩ := Key.number_append_inj (Key.stops_cons (by decide) _)
      (Key.stops_cons (by decide) _) h
    exact ⟨htu, String.toList_injective (by injection htail)⟩
  · rintro ⟨rfl, rfl⟩
    rfl

theorem classValue_key_eq_iff {i j c d : Ty} :
    (classValue a i c).spelling = (classValue b j d).spelling ↔ a = b ∧ i = j ∧ c = d := by
  have hnum : ∀ t : Ty, ':' ∉ Key.number t := by
    intro t ht
    exact absurd (Key.isDigit_of_mem_digits ht) (by decide)
  constructor
  · intro h
    simp only [spelling, List.cons_append, List.cons.injEq, true_and] at h
    obtain ⟨hfront, hctor⟩ := Key.split_last (hnum c) (hnum d) h
    obtain ⟨hname, hinst⟩ := Key.split_last (hnum i) (hnum j) hfront
    exact ⟨String.toList_injective hname, Key.number_injective hinst, Key.number_injective hctor⟩
  · rintro ⟨rfl, rfl, rfl⟩
    rfl

/-- Shapes of different kinds differ in the first characters of their keys. -/
theorem kind_eq_of_spelling_eq (h : s.spelling = t.spelling) : s.kind = t.kind := by
  rw [← kindOfKey_spelling, h, kindOfKey_spelling]

theorem kind_eq_of_alike {R : Ty → Ty → Prop} (h : Alike R s t) : s.kind = t.kind := by
  cases s <;> cases t <;> first | rfl | exact h.elim

/-- **Keys are sound and complete.** Two tidy shapes have the same key exactly when they say the
same about equal parts. -/
theorem key_eq_iff (hs : s.Tidy) (ht : t.Tidy) : s.key = t.key ↔ Alike Eq s t := by
  have hkey : s.key = t.key ↔ s.spelling = t.spelling := by
    constructor
    · intro h
      exact String.ofList_injective h
    · intro h
      rw [key, key, h]
  rw [hkey]
  by_cases hkind : s.kind = t.kind
  · cases s <;> cases t <;> try exact absurd hkind (Nat.ne_of_beq_eq_false rfl)
    case primitive.primitive p q => cases p <;> cases q <;> simp [spelling, Alike, Primitive.text]
    case literal.literal => exact literal_key_eq_iff
    case union.union =>
      simp only [spelling, List.cons.injEq, true_and, Alike]
      rw [sameMembers_eq_iff, Key.idSet_eq_iff hs ht]
    case intersection.intersection =>
      simp only [spelling, List.cons.injEq, true_and, Alike]
      rw [sameMembers_eq_iff, Key.idSet_eq_iff hs ht]
    case object.object => exact members_key_eq_iff hs ht
    case array.array => exact array_key_eq_iff
    case tuple.tuple => exact tuple_key_eq_iff
    case function.function => exact callable_key_eq_iff
    case parameter.parameter => exact parameter_key_eq_iff
    case reference.reference => exact reference_key_eq_iff
    case enumeration.enumeration e f =>
      simp only [spelling, List.cons.injEq, true_and, Alike]
      exact ⟨fun h => String.toList_injective h, fun h => by rw [h]⟩
    case enumMember.enumMember => exact enumMember_key_eq_iff
    case classValue.classValue => exact classValue_key_eq_iff
  · exact ⟨fun h => absurd (kind_eq_of_spelling_eq h) hkind,
      fun h => absurd (kind_eq_of_alike h) hkind⟩

end Shape

end ShapeCheck
