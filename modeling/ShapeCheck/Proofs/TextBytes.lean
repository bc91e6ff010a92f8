import ShapeCheck.Tree.Print
import ShapeCheck.Token.Scan

/-!
# The bytes of a text

Scanning works on the UTF-8 bytes of a text.

* `utf8Bytes_append` and `utf8Bytes_joinWith`: the bytes of a composed text are composed.
* `utf8Bytes_ascii`: a text of ASCII characters has one byte for each of them.
-/

namespace ShapeCheck

theorem byteArray_toList_loop (bytes : ByteArray) (i : Nat) (done : List UInt8)
    (h : i ≤ bytes.size) :
    ByteArray.toList.loop bytes i done = done.reverse ++ bytes.data.toList.drop i := by
  have hsize : bytes.data.toList.length = bytes.size := Array.length_toList
  induction hn : bytes.size - i generalizing i done with
  | zero =>
    rw [ByteArray.toList.loop, if_neg (by omega), List.drop_eq_nil_of_le (by omega),
      List.append_nil]
  | succ n ih =>
    have hi : i < bytes.data.toList.length := by omega
    have hget : bytes.get! i = bytes.data.toList[i] :=
      getElem!_pos bytes.data i (by simpa using hi)
    rw [ByteArray.toList.loop, if_pos (by omega), ih _ _ (by omega) (by omega),
      List.drop_eq_getElem_cons hi, hget, List.reverse_cons, List.append_assoc,
      List.singleton_append]

theorem utf8Bytes_eq (s : String) : utf8Bytes s = s.toByteArray.data.toList := by
  unfold utf8Bytes ByteArray.toList
  rw [byteArray_toList_loop _ _ _ (Nat.zero_le _)]
  rfl

@[simp] theorem utf8Bytes_append (s t : String) :
    utf8Bytes (s ++ t) = utf8Bytes s ++ utf8Bytes t := by
  simp [utf8Bytes_eq]

theorem utf8Bytes_ofList (cs : List Char) :
    utf8Bytes (String.ofList cs) = cs.flatMap String.utf8EncodeChar := by
  simp [utf8Bytes_eq, List.utf8Encode]

/-- The bytes of a text give the text back. -/
theorem ofUtf8Bytes_utf8Bytes (s : String) : ofUtf8Bytes (utf8Bytes s) = s := by
  have hbytes : (⟨(utf8Bytes s).toArray⟩ : ByteArray) = s.toByteArray := by simp [utf8Bytes_eq]
  rw [ofUtf8Bytes, hbytes, String.fromUTF8?, dif_pos s.isValidUTF8]
  rfl

/-! ## ASCII -/

/-- The byte of an ASCII character. -/
def asciiByte (c : Char) : UInt8 := c.val.toUInt8

theorem utf8EncodeChar_ascii {c : Char} (h : c.toNat < 128) :
    String.utf8EncodeChar c = [asciiByte c] := by
  refine String.utf8EncodeChar_eq_singleton (Char.utf8Size_eq_one_iff.mpr ?_)
  exact UInt32.le_iff_toNat_le.mpr (Nat.le_of_lt_succ h)

theorem utf8Bytes_ascii {cs : List Char} (h : ∀ c ∈ cs, c.toNat < 128) :
    utf8Bytes (String.ofList cs) = cs.map asciiByte := by
  rw [utf8Bytes_ofList]
  induction cs with
  | nil => rfl
  | cons c cs ih =>
    rw [List.flatMap_cons, utf8EncodeChar_ascii (h c List.mem_cons_self),
      ih fun d hd => h d (List.mem_cons_of_mem c hd)]
    rfl

/-- What holds of the first 128 characters holds of every ASCII character. -/
theorem ascii_cases {P : Char → Prop} (h : ∀ n : Fin 128, P (Char.ofNat n)) {c : Char}
    (hc : c.toNat < 128) : P c := by
  have := h ⟨c.toNat, hc⟩
  rwa [Char.ofNat_toNat] at this

/-- Other characters have no ASCII bytes. -/
theorem le_of_mem_utf8EncodeChar {c : Char} (h : ¬c.toNat < 128) {b : UInt8}
    (hb : b ∈ String.utf8EncodeChar c) : 128 ≤ b.toNat := by
  have hval : ¬c.val.toNat ≤ 127 := fun hle => h (Nat.lt_succ_of_le hle)
  have hhigh : ∀ n : Nat, n < 128 → b = UInt8.ofNat (n + 128) → 128 ≤ b.toNat := by
    rintro n hn rfl
    rw [UInt8.toNat_ofNat_of_lt' (show n + 128 < 256 by omega)]
    omega
  simp only [String.utf8EncodeChar, if_neg hval] at hb
  split at hb
  · simp only [List.mem_cons, List.not_mem_nil, or_false] at hb
    rcases hb with hb | hb
    · exact hhigh (c.val.toNat / 64 % 32 + 64) (by omega) hb
    · exact hhigh _ (by omega) hb
  split at hb
  · simp only [List.mem_cons, List.not_mem_nil, or_false] at hb
    rcases hb with hb | hb | hb
    · exact hhigh (c.val.toNat / 4096 % 16 + 96) (by omega) hb
    · exact hhigh _ (by omega) hb
    · exact hhigh _ (by omega) hb
  · simp only [List.mem_cons, List.not_mem_nil, or_false] at hb
    rcases hb with hb | hb | hb | hb
    · exact hhigh (c.val.toNat / 262144 % 8 + 112) (by omega) hb
    · exact hhigh _ (by omega) hb
    · exact hhigh _ (by omega) hb
    · exact hhigh _ (by omega) hb

/-- Only the newline is written with the byte of a newline. -/
theorem newline_mem_of_mem_utf8Bytes {s : String} (h : 0x0a ∈ utf8Bytes s) : '\n' ∈ s.toList := by
  rw [← s.ofList_toList, utf8Bytes_ofList] at h
  obtain ⟨c, hc, hb⟩ := List.mem_flatMap.mp h
  suffices hnewline : c = '\n' from hnewline ▸ hc
  by_cases hascii : c.toNat < 128
  · rw [utf8EncodeChar_ascii hascii, List.mem_singleton] at hb
    exact ascii_cases (P := fun c => 0x0a = asciiByte c → c = '\n') (by decide) hascii hb
  · exact absurd (le_of_mem_utf8EncodeChar hascii hb) (by decide)

/-! ## Joined texts -/

theorem utf8Bytes_joinWith (separator : String) (parts : List String) :
    utf8Bytes (joinWith separator parts) =
      (utf8Bytes separator).intercalate (parts.map utf8Bytes) := by
  unfold joinWith
  induction parts with
  | nil => simp [utf8Bytes_eq]
  | cons s parts ih =>
    cases parts with
    | nil => simp
    | cons t parts =>
      rw [String.intercalate_cons_cons, List.map_cons, List.map_cons, List.intercalate_cons_cons,
        utf8Bytes_append, utf8Bytes_append, ih, List.map_cons]

end ShapeCheck
