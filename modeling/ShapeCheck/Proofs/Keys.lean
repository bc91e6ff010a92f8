import ShapeCheck.Ty.Key
import Mathlib

/-!
# Keys can be read back

A table finds a type by a text, so two types are kept apart only as far as their texts can be read
back. A key strings together numbers, quoted names and marks without any lengths; what makes it
unambiguous is that every part ends before a character that could not belong to it.

* `Key.append_inj_of_stops` is this principle, `Key.flatMap_append_inj` its form for lists.
* `Text.unquoteChar_quoteChar` undoes the quoting of a character, so a quoted name tells where it
  ends, whatever characters it holds.
* `Key.callable_injective`, `Key.tuple_injective` and `Key.members_injective` read the composite
  keys back.
* `Key.idSet_eq_iff` says that sorted numbers stand for a set, `Key.sortFields_eq_iff` and
  `Members.perm_iff_field?` that sorted fields stand for a map.
-/

namespace ShapeCheck

variable {p : Char → Bool} {a x b y : List Char} {s c : Char} {n : Nat} {m : Members} {f : Field}
  {t u : Ty} {ts us : List Ty}

namespace Key

/-- The text ends, or goes on with a character that does not pass the test. -/
def Stops (p : Char → Bool) (x : List Char) : Prop := ∀ c ∈ x.head?, p c = false

theorem takeWhile_append_stops (ha : ∀ c ∈ a, p c = true) (hx : Stops p x) :
    (a ++ x).takeWhile p = a := by
  rw [List.takeWhile_append_of_pos ha]
  cases x with
  | nil => simp
  | cons c x =>
    have hc : p c = false := hx c rfl
    simp [hc]

/-- A part made of one kind of characters ends where another kind begins. -/
theorem append_inj_of_stops (ha : ∀ c ∈ a, p c = true) (hb : ∀ c ∈ b, p c = true)
    (hx : Stops p x) (hy : Stops p y) (h : a ++ x = b ++ y) : a = b ∧ x = y := by
  have hab : a = b := by
    rw [← takeWhile_append_stops ha hx, h, takeWhile_append_stops hb hy]
  subst hab
  exact ⟨rfl, List.append_cancel_left h⟩

/-- A separator that does not occur in the first parts. -/
theorem split_first (ha : s ∉ a) (hb : s ∉ b) (h : a ++ s :: x = b ++ s :: y) : a = b ∧ x = y := by
  have hstop : ∀ z, Stops (fun c => decide (c ≠ s)) (s :: z) := by
    intro z c hc
    simp only [List.head?_cons, Option.mem_def, Option.some.injEq] at hc
    simp [hc]
  have hne : ∀ {z : List Char}, s ∉ z → ∀ c ∈ z, decide (c ≠ s) = true := by
    intro z hz c hc
    exact decide_eq_true fun he => hz (he ▸ hc)
  obtain ⟨hab, htail⟩ := append_inj_of_stops (hne ha) (hne hb) (hstop x) (hstop y) h
  exact ⟨hab, by injection htail⟩

/-- A separator that does not occur in the last parts. -/
theorem split_last (hx : s ∉ x) (hy : s ∉ y) (h : a ++ s :: x = b ++ s :: y) : a = b ∧ x = y := by
  have hrev : x.reverse ++ s :: a.reverse = y.reverse ++ s :: b.reverse := by
    simpa using congrArg List.reverse h
  obtain ⟨hxy, hab⟩ := split_first (by simpa using hx) (by simpa using hy) hrev
  exact ⟨List.reverse_injective hab, List.reverse_injective hxy⟩

theorem isDigit_of_mem_digits (h : c ∈ Nat.toDigits 10 n) : c.isDigit = true :=
  Nat.isDigit_of_mem_toDigits (by decide) (by decide) h

theorem digits_injective {m : Nat} (h : Nat.toDigits 10 n = Nat.toDigits 10 m) : n = m := by
  rw [← Nat.ofDigitChars_ten_toDigits (n := n), h, Nat.ofDigitChars_ten_toDigits]

theorem digits_append_inj {m : Nat} (hx : Stops Char.isDigit x) (hy : Stops Char.isDigit y)
    (h : Nat.toDigits 10 n ++ x = Nat.toDigits 10 m ++ y) : n = m ∧ x = y := by
  obtain ⟨hnm, hxy⟩ := append_inj_of_stops (fun _ => isDigit_of_mem_digits)
    (fun _ => isDigit_of_mem_digits) hx hy h
  exact ⟨digits_injective hnm, hxy⟩

end Key

/-- The number of a type tells it apart from all others. -/
theorem Ty.serial_injective : Function.Injective Ty.serial := by
  intro t u h
  have hp : ∀ p : Primitive, p.ordinal < 13 := by intro p; cases p <;> decide
  have hinj : ∀ p q : Primitive, p.ordinal = q.ordinal → p = q := by
    intro p q; cases p <;> cases q <;> decide
  cases t with
  | prim p =>
    cases u with
    | prim q => rw [hinj p q h]
    | truth b => have := hp p; cases b <;> simp [serial] at h <;> omega
    | made n => have := hp p; simp [serial] at h; omega
  | truth b =>
    cases u with
    | prim q => have := hp q; cases b <;> simp [serial] at h <;> omega
    | truth c => cases b <;> cases c <;> simp [serial] at h ⊢
    | made n => cases b <;> simp [serial] at h <;> omega
  | made n =>
    cases u with
    | prim q => have := hp q; simp [serial] at h; omega
    | truth b => cases b <;> simp [serial] at h <;> omega
    | made m => simp [serial] at h; rw [h]

namespace Text

/-- The value of a hexadecimal digit. -/
def hexValue (c : Char) : Nat := if c.isDigit then c.toNat - 48 else c.toNat - 87

/-- Reads so many hexadecimal digits. -/
def readHex (width : Nat) (cs : List Char) : Nat :=
  (cs.take width).foldl (fun n c => 16 * n + hexValue c) 0

/-- Reads one character back from between double quotes. -/
def unquoteChar : List Char → Option (Char × List Char)
  | [] => none
  | c :: cs =>
    if c ≠ '\\' then some (c, cs)
    else match cs with
      | [] => none
      | k :: cs =>
        if k = '"' || k = '\\' then some (k, cs)
        else if k = 'a' then some ('\x07', cs)
        else if k = 'b' then some ('\x08', cs)
        else if k = 'f' then some ('\x0c', cs)
        else if k = 'n' then some ('\n', cs)
        else if k = 'r' then some ('\r', cs)
        else if k = 't' then some ('\t', cs)
        else if k = 'v' then some ('\x0b', cs)
        else if k = 'x' then some (Char.ofNat (readHex 2 cs), cs.drop 2)
        else if k = 'u' then some (Char.ofNat (readHex 4 cs), cs.drop 4)
        else some (Char.ofNat (readHex 8 cs), cs.drop 8)

theorem hexValue_hexDigit (h : n < 16) : hexValue (hexDigit n) = n := by
  have hall : ∀ n < 16, hexValue (hexDigit n) = n := by decide
  exact hall n h

@[simp] theorem length_hexDigits (width n : Nat) : (hexDigits width n).length = width := by
  induction width generalizing n with
  | zero => rfl
  | succ width ih => simp [hexDigits, ih]

theorem foldl_hexDigits (width n : Nat) :
    (hexDigits width n).foldl (fun n c => 16 * n + hexValue c) 0 = n % 16 ^ width := by
  induction width generalizing n with
  | zero => simp [hexDigits, Nat.mod_one]
  | succ width ih =>
    rw [hexDigits, List.foldl_append, ih, List.foldl_cons, List.foldl_nil,
      hexValue_hexDigit (Nat.mod_lt _ (by decide)), Nat.pow_succ', Nat.mod_mul, Nat.add_comm]

theorem readHex_append {width : Nat} (h : n < 16 ^ width) (x : List Char) :
    readHex width (hexDigits width n ++ x) = n := by
  rw [readHex, List.take_left' (length_hexDigits width n), foldl_hexDigits, Nat.mod_eq_of_lt h]

/-- Quoting a character can be undone without looking past it. -/
theorem unquoteChar_quoteChar (c : Char) (x : List Char) :
    unquoteChar (quoteChar c ++ x) = some (c, x) := by
  have hback : ∀ width, c.toNat < 16 ^ width →
      Char.ofNat (readHex width (hexDigits width c.toNat ++ x)) = c := by
    intro width h
    rw [readHex_append h, Char.ofNat_toNat]
  have hdrop : ∀ width, (hexDigits width c.toNat ++ x).drop width = x := by
    intro width
    exact List.drop_left' (length_hexDigits width _)
  have hmax : c.toNat < 0x110000 := by
    have := c.valid
    unfold UInt32.isValidChar Nat.isValidChar at this
    show c.val.toNat < _
    omega
  by_cases h : (c = '"' || c = '\\') = true
  · rw [quoteChar, if_pos h]
    rcases (by simpa using h : c = '"' ∨ c = '\\') with rfl | rfl <;> rfl
  by_cases hp : isPrintable c = true
  · have hslash : c ≠ '\\' := by
      intro he
      simp [he] at h
    rw [quoteChar, if_neg h, if_pos hp]
    exact if_pos hslash
  rw [quoteChar, if_neg h, if_neg hp]
  by_cases h1 : c = '\x07'
  · subst h1
    rfl
  rw [if_neg h1]
  by_cases h2 : c = '\x08'
  · subst h2
    rfl
  rw [if_neg h2]
  by_cases h3 : c = '\x0c'
  · subst h3
    rfl
  rw [if_neg h3]
  by_cases h4 : c = '\n'
  · subst h4
    rfl
  rw [if_neg h4]
  by_cases h5 : c = '\r'
  · subst h5
    rfl
  rw [if_neg h5]
  by_cases h6 : c = '\t'
  · subst h6
    rfl
  rw [if_neg h6]
  by_cases h7 : c = '\x0b'
  · subst h7
    rfl
  rw [if_neg h7]
  by_cases h8 : (c.toNat < 0x20 || c.toNat = 0x7f) = true
  · have hsmall : c.toNat < 16 ^ 2 := by
      simp only [Bool.or_eq_true, decide_eq_true_eq] at h8
      omega
    rw [if_pos h8]
    change some (Char.ofNat (readHex 2 (hexDigits 2 c.toNat ++ x)),
      (hexDigits 2 c.toNat ++ x).drop 2) = _
    rw [hback 2 hsmall, hdrop]
  rw [if_neg h8]
  by_cases h9 : c.toNat < 0x10000
  · rw [if_pos h9]
    change some (Char.ofNat (readHex 4 (hexDigits 4 c.toNat ++ x)),
      (hexDigits 4 c.toNat ++ x).drop 4) = _
    rw [hback 4 h9, hdrop]
  · rw [if_neg h9]
    change some (Char.ofNat (readHex 8 (hexDigits 8 c.toNat ++ x)),
      (hexDigits 8 c.toNat ++ x).drop 8) = _
    rw [hback 8 (by omega), hdrop]

theorem quoteChar_append_inj {d : Char} (h : quoteChar c ++ x = quoteChar d ++ y) :
    c = d ∧ x = y := by
  have hread := congrArg unquoteChar h
  rw [unquoteChar_quoteChar, unquoteChar_quoteChar] at hread
  simpa using hread

/-- No quoted character begins with the double quote that ends the text. -/
theorem quoteChar_head (c : Char) : ∃ k r, quoteChar c = k :: r ∧ k ≠ '"' := by
  have hread := unquoteChar_quoteChar c []
  cases hq : quoteChar c with
  | nil => simp [hq, unquoteChar] at hread
  | cons k r =>
    refine ⟨k, r, rfl, ?_⟩
    rintro rfl
    -- read back, such a character would be the double quote itself, which is escaped
    have hc : c = '"' := by
      rw [hq] at hread
      exact congrArg Prod.fst (Option.some.inj hread).symm
    subst hc
    have hesc : quoteChar '"' = ['\\', '"'] := rfl
    rw [hesc] at hq
    exact absurd (List.cons.inj hq).1 (by decide)

end Text

namespace Key

/-- A list of parts can be read back when each part can, and what follows the list starts like no
part. `p` are the characters that must not follow a part directly. -/
theorem flatMap_append_inj {α β : Type} {f : α → List Char} {g : α → β} {q : Char → Bool}
    (hstart : ∀ a, ∃ c r, f a = c :: r ∧ q c = true) (hp : ∀ c, q c = true → p c = false)
    (hf : ∀ a b x y, Stops p x → Stops p y → f a ++ x = f b ++ y → g a = g b ∧ x = y)
    {as bs : List α} (hx : Stops q x) (hy : Stops q y) (hpx : Stops p x) (hpy : Stops p y)
    (h : as.flatMap f ++ x = bs.flatMap f ++ y) : as.map g = bs.map g ∧ x = y := by
  -- a part cannot be mistaken for what follows the list
  have hmiss : ∀ {a : α} {z r : List Char}, Stops q z → z ≠ f a ++ r := by
    intro a z r hz he
    obtain ⟨c, s, hfa, hc⟩ := hstart a
    have := hz c (by simp [he, hfa])
    simp [hc] at this
  have hnext : ∀ (cs : List α) {z : List Char}, Stops p z → Stops p (cs.flatMap f ++ z) := by
    intro cs z hz
    cases cs with
    | nil => simpa using hz
    | cons a cs =>
      obtain ⟨c, s, hfa, hc⟩ := hstart a
      intro k hk
      simp only [List.flatMap_cons, hfa, List.cons_append, List.head?_cons, Option.mem_def,
        Option.some.injEq] at hk
      exact hk ▸ hp c hc
  induction as generalizing bs with
  | nil =>
    cases bs with
    | nil => exact ⟨rfl, by simpa using h⟩
    | cons b bs =>
      simp only [List.flatMap_nil, List.nil_append, List.flatMap_cons, List.append_assoc] at h
      exact absurd h (hmiss hx)
  | cons a as ih =>
    cases bs with
    | nil =>
      simp only [List.flatMap_nil, List.nil_append, List.flatMap_cons, List.append_assoc] at h
      exact absurd h.symm (hmiss hy)
    | cons b bs =>
      simp only [List.flatMap_cons, List.append_assoc] at h
      obtain ⟨hab, hrest⟩ := hf a b _ _ (hnext as hpx) (hnext bs hpy) h
      obtain ⟨hmap, hxy⟩ := ih hrest
      exact ⟨by simp [hab, hmap], hxy⟩

theorem stops_cons (h : p c = false) (x : List Char) : Stops p (c :: x) := by
  intro k hk
  simp only [List.head?_cons, Option.mem_def, Option.some.injEq] at hk
  exact hk ▸ h

theorem stops_nil : Stops p [] := by
  intro k hk
  simp at hk

/-- A quoted text tells where it ends. -/
theorem quoted_append_inj {s t : String}
    (h : (Text.quoted s).toList ++ x = (Text.quoted t).toList ++ y) : s = t ∧ x = y := by
  simp only [Text.quoted, String.toList_ofList, List.cons_append, List.append_assoc,
    List.cons.injEq, true_and, List.nil_append] at h
  obtain ⟨hst, hxy⟩ := flatMap_append_inj (g := fun c => c) (q := fun c => decide (c ≠ '"'))
    (p := fun _ => false)
    (fun c => by
      obtain ⟨k, r, hk, hne⟩ := Text.quoteChar_head c
      exact ⟨k, r, hk, by simpa using hne⟩)
    (fun _ _ => rfl) (fun _ _ _ _ _ _ he => Text.quoteChar_append_inj he)
    (stops_cons (by decide) x) (stops_cons (by decide) y) (stops_cons rfl x) (stops_cons rfl y) h
  simp only [List.map_id'] at hst
  exact ⟨String.toList_injective hst, by injection hxy⟩

theorem quoted_injective {s t : String} (h : Text.quoted s = Text.quoted t) : s = t :=
  (quoted_append_inj (x := []) (y := []) (by rw [h])).1

theorem number_append_inj
    (hx : Stops Char.isDigit x) (hy : Stops Char.isDigit y) (h : number t ++ x = number u ++ y) :
    t = u ∧ x = y := by
  obtain ⟨hserial, hxy⟩ := digits_append_inj hx hy h
  exact ⟨Ty.serial_injective hserial, hxy⟩

theorem number_injective (h : number t = number u) : t = u :=
  Ty.serial_injective (digits_injective h)

theorem mark_append_inj {a b : Bool}
    (hx : Stops (· == c) x) (hy : Stops (· == c) y) (h : mark a c ++ x = mark b c ++ y) :
    a = b ∧ x = y := by
  have hmiss : ∀ {z r : List Char}, Stops (· == c) z → z ≠ c :: r := by
    intro z r hz he
    simpa using hz c (by simp [he])
  cases a <;> cases b
  · exact ⟨rfl, by simpa [mark] using h⟩
  · exact absurd (by simpa [mark] using h) (hmiss hx)
  · exact absurd (by simpa [mark] using h.symm) (hmiss hy)
  · exact ⟨rfl, by simpa [mark] using h⟩

/-- A type, a mark and a separator, as tuples and parameter lists have them. -/
theorem marked_append_inj {a b : Bool}
    (hc : c.isDigit = false) (hs : s.isDigit = false) (hcs : s ≠ c)
    (h : number t ++ (mark a c ++ s :: x) = number u ++ (mark b c ++ s :: y)) :
    t = u ∧ a = b ∧ x = y := by
  have hstop : ∀ (b : Bool) (z : List Char), Stops Char.isDigit (mark b c ++ s :: z) := by
    intro b z
    cases b
    · exact stops_cons hs z
    · exact stops_cons hc _
  obtain ⟨htu, h⟩ := number_append_inj (hstop a x) (hstop b y) h
  obtain ⟨hab, h⟩ := mark_append_inj (stops_cons (by simpa using hcs) x)
    (stops_cons (by simpa using hcs) y) h
  exact ⟨htu, hab, by injection h⟩

theorem number_head (t : Ty) : ∃ c r, number t = c :: r ∧ c.isDigit = true := by
  cases h : number t with
  | nil => exact absurd h Nat.toDigits_ne_nil
  | cons c r =>
    have hc : c ∈ number t := by
      rw [h]
      exact List.mem_cons_self
    exact ⟨c, r, rfl, isDigit_of_mem_digits hc⟩

theorem slot_append_inj {s t : Slot} (h : slot s ++ x = slot t ++ y) : s = t ∧ x = y := by
  simp only [slot, List.append_assoc, List.cons_append, List.nil_append] at h
  obtain ⟨htype, hopt, hxy⟩ := marked_append_inj (by decide) (by decide) (by decide) h
  cases s
  cases t
  exact ⟨by simp_all, hxy⟩

theorem parameter_append_inj {p q : Parameter} (h : parameter p ++ x = parameter q ++ y) :
    (p.type, p.optional) = (q.type, q.optional) ∧ x = y := by
  simp only [parameter, List.append_assoc, List.cons_append, List.nil_append] at h
  obtain ⟨htype, hopt, hxy⟩ := marked_append_inj (by decide) (by decide) (by decide) h
  exact ⟨by rw [htype, hopt], hxy⟩

theorem typeParam_append_inj {v w : TypeVar} (h : typeParam v ++ x = typeParam w ++ y) :
    v = w ∧ x = y := by
  simp only [typeParam, List.append_assoc, List.cons_append, List.nil_append] at h
  obtain ⟨hnum, htail⟩ := digits_append_inj (stops_cons (by decide) x) (stops_cons (by decide) y) h
  cases v
  cases w
  exact ⟨by simpa using hnum, by injection htail⟩

theorem rest_append_inj {t u : Option Ty}
    (hx : Stops (fun c => c.isDigit || c == '.') x) (hy : Stops (fun c => c.isDigit || c == '.') y)
    (h : rest t ++ x = rest u ++ y) : t = u ∧ x = y := by
  have hdigit : ∀ {z : List Char}, Stops (fun c => c.isDigit || c == '.') z →
      Stops Char.isDigit z := by
    intro z hz c hc
    have := hz c hc
    simp only [Bool.or_eq_false_iff] at this
    exact this.1
  have hmiss : ∀ {z r : List Char}, Stops (fun c => c.isDigit || c == '.') z → z ≠ '.' :: r := by
    intro z r hz he
    simpa using hz '.' (by simp [he])
  cases t with
  | none =>
    cases u with
    | none => exact ⟨rfl, h⟩
    | some u => exact absurd h (hmiss hx)
  | some t =>
    cases u with
    | none => exact absurd h.symm (hmiss hy)
    | some u =>
      simp only [rest, List.cons_append, List.cons.injEq, true_and] at h
      obtain ⟨htu, hxy⟩ := number_append_inj (hdigit hx) (hdigit hy) h
      exact ⟨by rw [htu], hxy⟩

theorem receiver_append_inj {t u : Option Ty}
    (h : receiver t ++ '=' :: x = receiver u ++ '=' :: y) : t = u ∧ x = y := by
  cases t with
  | none =>
    cases u with
    | none => exact ⟨rfl, by simpa [receiver] using h⟩
    | some u => simp [receiver] at h
  | some t =>
    cases u with
    | none => simp [receiver] at h
    | some u =>
      simp only [receiver, List.cons_append, List.cons.injEq, true_and] at h
      obtain ⟨htu, hxy⟩ := number_append_inj (stops_cons (by decide) x) (stops_cons (by decide) y) h
      exact ⟨by rw [htu], by injection hxy⟩

theorem stops_rest (hp : p '.' = false) (t : Option Ty)
    (hx : Stops p x) : Stops p (rest t ++ x) := by
  cases t with
  | none => exact hx
  | some t => exact stops_cons hp _

/-- The key of a function says everything but the names of its parameters. -/
theorem callable_injective {c d : Callable} (h : callable c = callable d) :
    c.typeParams = d.typeParams ∧
      c.params.map (fun p => (p.type, p.optional)) = d.params.map (fun p => (p.type, p.optional)) ∧
      c.rest.map Parameter.type = d.rest.map Parameter.type ∧ c.receiver = d.receiver ∧
      c.result = d.result := by
  simp only [callable, List.cons_append, List.append_assoc, List.cons.injEq, true_and] at h
  obtain ⟨htypes, h⟩ := flatMap_append_inj (g := fun v => v) (q := Char.isDigit)
    (p := fun _ => false)
    (fun v => by
      obtain ⟨k, r, hk⟩ := List.exists_cons_of_ne_nil (Nat.toDigits_ne_nil (n := v.number + 1))
      exact ⟨k, r ++ [','], by simp [typeParam, hk],
        isDigit_of_mem_digits (n := v.number + 1) (hk ▸ List.mem_cons_self)⟩)
    (fun _ _ => rfl) (fun _ _ _ _ _ _ he => typeParam_append_inj he)
    (stops_cons (by decide) _) (stops_cons (by decide) _) (stops_cons rfl _) (stops_cons rfl _) h
  simp only [List.cons.injEq, true_and] at h
  obtain ⟨hparams, h⟩ := flatMap_append_inj (q := Char.isDigit) (p := fun _ => false)
    (fun p => by
      obtain ⟨k, r, hk, hd⟩ := number_head p.type
      exact ⟨k, _, by simp only [parameter, hk, List.cons_append]; rfl, hd⟩)
    (fun _ _ => rfl) (fun _ _ _ _ _ _ he => parameter_append_inj he)
    (stops_rest (by decide) _ (stops_cons (by decide) _))
    (stops_rest (by decide) _ (stops_cons (by decide) _))
    (stops_rest rfl _ (stops_cons rfl _)) (stops_rest rfl _ (stops_cons rfl _)) h
  obtain ⟨hrest, h⟩ := rest_append_inj (stops_cons (by decide) _) (stops_cons (by decide) _) h
  simp only [List.cons.injEq, true_and] at h
  obtain ⟨hreceiver, h⟩ := receiver_append_inj h
  simp only [List.cons.injEq, true_and] at h
  exact ⟨by simpa using htypes, hparams, hrest, hreceiver, number_injective h⟩

/-- The key of a tuple says everything about it. -/
theorem tuple_injective {t u : Tuple} (h : tuple t = tuple u) : t = u := by
  simp only [tuple, List.cons_append, List.append_assoc] at h
  obtain ⟨hro, h⟩ := mark_append_inj (stops_cons (by decide) _) (stops_cons (by decide) _) h
  simp only [List.cons.injEq, true_and] at h
  obtain ⟨hslots, h⟩ := flatMap_append_inj (g := fun s => s) (q := Char.isDigit)
    (p := fun _ => false)
    (fun s => by
      obtain ⟨k, r, hk, hd⟩ := number_head s.type
      exact ⟨k, _, by simp only [slot, hk, List.cons_append]; rfl, hd⟩)
    (fun _ _ => rfl) (fun _ _ _ _ _ _ he => slot_append_inj he)
    (stops_rest (by decide) _ (stops_cons (by decide) _))
    (stops_rest (by decide) _ (stops_cons (by decide) _))
    (stops_rest rfl _ (stops_cons rfl _)) (stops_rest rfl _ (stops_cons rfl _)) h
  obtain ⟨hrest, -⟩ := rest_append_inj (stops_cons (by decide) _) (stops_cons (by decide) _) h
  cases t
  cases u
  simp_all

theorem field_append_inj {g : Field} (h : field f ++ x = field g ++ y) : f = g ∧ x = y := by
  have hmark : ∀ (b : Bool) (z : List Char), Stops (· == '?') (mark b '!' ++ ':' :: z) := by
    intro b z
    cases b <;> exact stops_cons (by decide) _
  simp only [field, List.append_assoc, List.cons_append, List.nil_append] at h
  obtain ⟨hname, h⟩ := quoted_append_inj h
  obtain ⟨hopt, h⟩ := mark_append_inj (hmark _ _) (hmark _ _) h
  obtain ⟨hro, h⟩ := mark_append_inj (stops_cons (by decide) _) (stops_cons (by decide) _) h
  simp only [List.cons.injEq, true_and] at h
  obtain ⟨htype, htail⟩ := number_append_inj (stops_cons (by decide) x) (stops_cons (by decide) y) h
  have hxy : x = y := by injection htail
  cases f
  cases g
  exact ⟨by simp_all, hxy⟩

theorem index_append_inj {i j : Option Index}
    (hx : Stops (· == '[') x) (hy : Stops (· == '[') y) (h : index i ++ x = index j ++ y) :
    i = j ∧ x = y := by
  have hmiss : ∀ {z r : List Char}, Stops (· == '[') z → z ≠ '[' :: r := by
    intro z r hz he
    simpa using hz '[' (by simp [he])
  have hcolon : ∀ k : IndexKey, ':' ∉ k.text.toList := by
    intro k
    cases k <;> decide
  cases i with
  | none =>
    cases j with
    | none => exact ⟨rfl, h⟩
    | some j => exact absurd h (hmiss hx)
  | some i =>
    cases j with
    | none => exact absurd h.symm (hmiss hy)
    | some j =>
      simp only [index, List.cons_append, List.append_assoc, List.cons.injEq, true_and,
        List.nil_append] at h
      obtain ⟨hkey, h⟩ := split_first (hcolon i.key) (hcolon j.key) h
      obtain ⟨hvalue, htail⟩ :=
        number_append_inj (stops_cons (by decide) x) (stops_cons (by decide) y) h
      have hxy : x = y := by injection htail
      have hkeys : i.key = j.key := by
        have hdiff : ∀ k l : IndexKey, k.text.toList = l.text.toList → k = l := by
          intro k l
          cases k <;> cases l <;> decide
        exact hdiff _ _ hkey
      cases i
      cases j
      exact ⟨by simp_all, hxy⟩

theorem call_append_inj
    (hx : Stops Char.isDigit x) (hy : Stops Char.isDigit y) (h : call t ++ x = call u ++ y) :
    t = u ∧ x = y := by
  simp only [call, List.cons_append, List.cons.injEq, true_and] at h
  exact number_append_inj hx hy h

theorem field_head (f : Field) : ∃ r, field f = '"' :: r :=
  ⟨_, by simp only [field, Text.quoted, String.toList_ofList, List.cons_append]; rfl⟩

/-- The key of an object says everything but the order of its fields. -/
theorem members_injective {n : Members} (h : members m = members n) :
    sortFields m.fields = sortFields n.fields ∧ m.index = n.index ∧ m.calls = n.calls := by
  have hcalls : ∀ (p : Char → Bool) (ts : List Ty), p '(' = false → p '\x7d' = false →
      Stops p (ts.flatMap call ++ ['\x7d']) := by
    intro p ts hopen hclose
    cases ts with
    | nil => exact stops_cons hclose _
    | cons t ts => exact stops_cons hopen _
  have hindex : ∀ (p : Char → Bool) (i : Option Index) (ts : List Ty), p '[' = false →
      p '(' = false → p '\x7d' = false → Stops p (index i ++ (ts.flatMap call ++ ['\x7d'])) := by
    intro p i ts hbracket hopen hclose
    cases i with
    | none => exact hcalls p ts hopen hclose
    | some i => exact stops_cons hbracket _
  simp only [members, List.cons_append, List.append_assoc, List.cons.injEq, true_and] at h
  obtain ⟨hfields, h⟩ := flatMap_append_inj (g := fun f => f) (q := (· == '"'))
    (p := fun _ => false)
    (fun f => by
      obtain ⟨r, hr⟩ := field_head f
      exact ⟨_, r, hr, by decide⟩)
    (fun _ _ => rfl) (fun _ _ _ _ _ _ he => field_append_inj he)
    (hindex _ _ _ (by decide) (by decide) (by decide))
    (hindex _ _ _ (by decide) (by decide) (by decide))
    (hindex _ _ _ rfl rfl rfl) (hindex _ _ _ rfl rfl rfl) h
  obtain ⟨hix, h⟩ := index_append_inj (hcalls _ _ (by decide) (by decide))
    (hcalls _ _ (by decide) (by decide)) h
  obtain ⟨hcs, -⟩ := flatMap_append_inj (g := fun t => t) (q := (· == '(')) (p := Char.isDigit)
    (fun t => ⟨_, _, rfl, by decide⟩)
    (fun c hc => by simp only [beq_iff_eq] at hc; subst hc; decide)
    (fun _ _ _ _ hx hy he => call_append_inj hx hy he)
    (stops_cons (by decide) _) (stops_cons (by decide) _)
    (stops_cons (by decide) _) (stops_cons (by decide) _) h
  exact ⟨by simpa using hfields, hix, by simpa using hcs⟩

theorem commas_singleton (a : List Char) : commas [a] = a := by
  simp [commas, List.intercalate]

theorem commas_cons_cons (a b : List Char) (bs : List (List Char)) :
    commas (a :: b :: bs) = a ++ ',' :: commas (b :: bs) := by
  simp [commas, List.intercalate, List.intersperse]

theorem commas_injective {as bs : List (List Char)}
    (ha : ∀ a ∈ as, a ≠ [] ∧ ∀ c ∈ a, c.isDigit = true)
    (hb : ∀ b ∈ bs, b ≠ [] ∧ ∀ c ∈ b, c.isDigit = true) (h : commas as = commas bs) : as = bs := by
  -- what follows the first text is empty or a comma and the other texts
  have hcons : ∀ a (as : List (List Char)), ∃ x, commas (a :: as) = a ++ x ∧
      Stops Char.isDigit x ∧ (x = [] ∧ as = [] ∨ x = ',' :: commas as ∧ as ≠ []) := by
    intro a as
    cases as with
    | nil => exact ⟨[], by simp [commas_singleton], stops_nil, .inl ⟨rfl, rfl⟩⟩
    | cons b bs =>
      exact ⟨',' :: commas (b :: bs), commas_cons_cons a b bs, stops_cons (by decide) _,
        .inr ⟨rfl, by simp⟩⟩
  induction as generalizing bs with
  | nil =>
    cases bs with
    | nil => rfl
    | cons b bs =>
      obtain ⟨x, hx, -⟩ := hcons b bs
      have hempty : b ++ x = [] := by rw [← hx, ← h]; rfl
      exact absurd (List.append_eq_nil_iff.mp hempty).1 (hb b (by simp)).1
  | cons a as ih =>
    obtain ⟨x, hx, hstopx, hcasex⟩ := hcons a as
    cases bs with
    | nil =>
      have hempty : a ++ x = [] := by rw [← hx, h]; rfl
      exact absurd (List.append_eq_nil_iff.mp hempty).1 (ha a (by simp)).1
    | cons b bs =>
      obtain ⟨y, hy, hstopy, hcasey⟩ := hcons b bs
      rw [hx, hy] at h
      obtain ⟨hab, hxy⟩ := append_inj_of_stops (ha a (by simp)).2 (hb b (by simp)).2 hstopx hstopy h
      subst hab hxy
      rcases hcasex with ⟨hnil, rfl⟩ | ⟨hcomma, hne⟩
      · rcases hcasey with ⟨-, rfl⟩ | ⟨hcomma, -⟩
        · rfl
        · rw [hnil] at hcomma
          exact absurd hcomma (by simp)
      · rcases hcasey with ⟨hnil, -⟩ | ⟨hcomma', -⟩
        · rw [hnil] at hcomma
          exact absurd hcomma (by simp)
        · have htail : commas as = commas bs := by
            rw [hcomma] at hcomma'
            injection hcomma'
          have has : ∀ a ∈ as, a ≠ [] ∧ ∀ c ∈ a, c.isDigit = true := by
            intro a' ha'
            exact ha a' (List.mem_cons_of_mem _ ha')
          have hbs : ∀ b ∈ bs, b ≠ [] ∧ ∀ c ∈ b, c.isDigit = true := by
            intro b' hb'
            exact hb b' (List.mem_cons_of_mem _ hb')
          rw [ih has hbs htail]

theorem digits_of_mem_map_number : ∀ a ∈ ts.map number, a ≠ [] ∧ ∀ c ∈ a, c.isDigit = true := by
  intro a ha
  obtain ⟨t, -, rfl⟩ := List.mem_map.mp ha
  exact ⟨Nat.toDigits_ne_nil, fun c hc => isDigit_of_mem_digits hc⟩

theorem digit_or_comma_of_mem_ids (h : c ∈ ids ts) : c.isDigit = true ∨ c = ',' := by
  induction ts with
  | nil => exact absurd h (by simp [ids, commas, List.intercalate])
  | cons t ts ih =>
    cases ts with
    | nil =>
      rw [ids, List.map_singleton, commas_singleton] at h
      exact .inl (isDigit_of_mem_digits h)
    | cons u us =>
      rw [ids, List.map_cons, List.map_cons, commas_cons_cons, List.mem_append,
        List.mem_cons] at h
      rcases h with h | h | h
      · exact .inl (isDigit_of_mem_digits h)
      · exact .inr h
      · exact ih (by rwa [ids, List.map_cons])

theorem ids_injective (h : ids ts = ids us) : ts = us := by
  have hmap := commas_injective digits_of_mem_map_number digits_of_mem_map_number h
  exact List.map_injective_iff.mpr (fun _ _ => number_injective) hmap

theorem notAfter_iff : notAfter a b = true ↔ ¬b < a := by
  simp [notAfter]

theorem notAfter_trans {c : List Char} (hab : notAfter a b = true) (hbc : notAfter b c = true) :
    notAfter a c = true := by
  rw [notAfter_iff, List.not_lt] at hab hbc ⊢
  exact List.le_trans hab hbc

theorem notAfter_total (a b : List Char) : (notAfter a b || notAfter b a) = true := by
  rw [Bool.or_eq_true, notAfter_iff, notAfter_iff, List.not_lt, List.not_lt]
  exact List.le_total a b

theorem notAfter_antisymm (hab : notAfter a b = true) (hba : notAfter b a = true) : a = b := by
  rw [notAfter_iff, List.not_lt] at hab hba
  exact List.le_antisymm hab hba

/-- The numbers of some types, sorted, say which types they are. -/
theorem idSet_eq_iff (ht : ts.Nodup) (hu : us.Nodup) :
    idSet ts = idSet us ↔ ∀ t, t ∈ ts ↔ t ∈ us := by
  rw [← List.perm_ext_iff_of_nodup ht hu]
  constructor
  · intro h
    have hdigits : ∀ {vs : List Ty}, ∀ a ∈ (vs.map number).mergeSort notAfter,
        a ≠ [] ∧ ∀ c ∈ a, c.isDigit = true := by
      intro vs a ha
      exact digits_of_mem_map_number a ((List.mergeSort_perm _ _).mem_iff.mp ha)
    have hsorted := commas_injective hdigits hdigits h
    have hperm : (ts.map number).Perm (us.map number) := by
      refine (List.mergeSort_perm (ts.map number) notAfter).symm.trans ?_
      rw [hsorted]
      exact List.mergeSort_perm _ _
    exact (List.map_perm_map_iff fun _ _ => number_injective).mp hperm
  · intro h
    have hpairwise : ∀ vs : List Ty, ((vs.map number).mergeSort notAfter).Pairwise
        (fun a b => notAfter a b = true) := by
      intro vs
      apply List.pairwise_mergeSort
      · intro a b c hab hbc
        exact notAfter_trans hab hbc
      · exact notAfter_total
    have hsorted : (ts.map number).mergeSort notAfter = (us.map number).mergeSort notAfter := by
      apply List.Perm.eq_of_pairwise _ (hpairwise ts) (hpairwise us)
      · exact (List.mergeSort_perm _ _).trans
          ((h.map number).trans (List.mergeSort_perm _ _).symm)
      · intro a b _ _ hab hba
        exact notAfter_antisymm hab hba
    rw [idSet, idSet, hsorted]

/-- Fields with different names are in their place once sorted. -/
theorem sortFields_eq_iff {fs gs : List Field} (hf : (fs.map Field.name).Nodup) :
    sortFields fs = sortFields gs ↔ fs.Perm gs := by
  constructor
  · intro h
    refine (List.mergeSort_perm fs fun a b => decide (a.name ≤ b.name)).symm.trans ?_
    change (sortFields fs).Perm gs
    rw [h]
    exact List.mergeSort_perm _ _
  · intro h
    have hpairwise : ∀ hs : List Field, (sortFields hs).Pairwise
        (fun a b => decide (a.name ≤ b.name) = true) := by
      intro hs
      apply List.pairwise_mergeSort
      · intro a b c hab hbc
        simp only [decide_eq_true_eq] at hab hbc ⊢
        exact String.le_trans hab hbc
      · intro a b
        simpa using String.le_total a.name b.name
    apply List.Perm.eq_of_pairwise _ (hpairwise fs) (hpairwise gs)
    · exact (List.mergeSort_perm _ _).trans (h.trans (List.mergeSort_perm _ _).symm)
    · intro a b ha hb hab hba
      simp only [decide_eq_true_eq] at hab hba
      have hafs : a ∈ fs := (List.mergeSort_perm _ _).mem_iff.mp ha
      have hbfs : b ∈ fs := h.mem_iff.mpr ((List.mergeSort_perm _ _).mem_iff.mp hb)
      exact List.inj_on_of_nodup_map hf hafs hbfs (String.le_antisymm hab hba)

end Key

/-- A field of an object is found under its name. -/
theorem Members.mem_fields_iff (hm : (m.fields.map Field.name).Nodup) :
    f ∈ m.fields ↔ m.field? f.name = some f := by
  constructor
  · intro hf
    cases hfind : m.field? f.name with
    | none =>
      have := List.find?_eq_none.mp hfind f hf
      simp at this
    | some g =>
      have hg := List.mem_of_find?_eq_some hfind
      have hname : g.name = f.name := by simpa using List.find?_some hfind
      rw [List.inj_on_of_nodup_map hm hg hf hname]
  · exact List.mem_of_find?_eq_some

/-- Objects with the same fields under the same names have the same list of fields, up to order. -/
theorem Members.perm_iff_field? {n : Members} (hm : (m.fields.map Field.name).Nodup)
    (hn : (n.fields.map Field.name).Nodup) :
    m.fields.Perm n.fields ↔ ∀ name, m.field? name = n.field? name := by
  rw [List.perm_ext_iff_of_nodup hm.of_map hn.of_map]
  constructor
  · intro h name
    apply Option.ext
    intro f
    constructor
    · intro hf
      have hname : f.name = name := by simpa using List.find?_some hf
      have := (mem_fields_iff hn).mp ((h f).mp (List.mem_of_find?_eq_some hf))
      rwa [hname] at this
    · intro hf
      have hname : f.name = name := by simpa using List.find?_some hf
      have := (mem_fields_iff hm).mp ((h f).mpr (List.mem_of_find?_eq_some hf))
      rwa [hname] at this
  · intro h f
    rw [mem_fields_iff hm, mem_fields_iff hn, h]

end ShapeCheck
