import ShapeCheck.Document
import ShapeCheck.Proofs.TextBytes
import ShapeCheck.Proofs.Tiling

/-!
# Words of a block in the source

A literal block keeps its lines and drops their common indentation. A byte of its text therefore
stands in the source as many lines below the line of the block, and so far to the right of the
indentation, as it stands in the text.

* `Document.IsBlock` says that a scalar is such a block, and `Document.sourcePosition` where a token
  of its text stands in the source.
* `Document.IsBlock.byteAt?_eq`: the source has the byte there that the text has.
* `Document.IsBlock.positions` compares this with the position that a reader of the text gives the
  token: the line is right, the column only on the first line of the block.
-/

namespace ShapeCheck

variable {before after : List UInt8} {rows : List (List UInt8)} {b : UInt8}

namespace Source

/-- The byte of a source at a position. -/
def byteAt? (source : Source) (p : Position) : Option UInt8 :=
  (utf8Bytes (source.line p.line))[(p.column - 1).toNat]?

theorem notMem_of_mem_splitOn {a : Char} {cs part : List Char}
    (h : part ∈ cs.splitOn a) : a ∉ part := by
  induction cs generalizing part with
  | nil => simp_all
  | cons c cs ih =>
    rw [List.splitOn_cons_eq_if_modifyHead] at h
    split at h
    · rcases List.mem_cons.mp h with rfl | h
      · simp
      · exact ih h
    next hne =>
      rcases hparts : cs.splitOn a with _ | ⟨first, parts⟩
      · exact absurd hparts (List.splitOn_ne_nil a cs)
      rw [hparts] at h ih
      rcases List.mem_cons.mp h with rfl | h
      · have hc : a ≠ c := fun heq => hne (heq ▸ beq_self_eq_true a)
        simp [hc, ih List.mem_cons_self]
      · exact ih (List.mem_cons_of_mem first h)

/-- A line has no newline inside. -/
theorem newline_notMem_line (source : Source) (n : Int) : '\n' ∉ (source.line n).toList := by
  unfold line
  split
  · simp
  cases hpart : source.lines[(n - 1).toNat]? with
  | none => simp
  | some row =>
    obtain ⟨part, hin, rfl⟩ := List.mem_map.mp (List.mem_of_getElem? hpart)
    simpa using notMem_of_mem_splitOn hin

end Source

namespace Scan

/-! ## Bytes in rows -/

theorem lineAfter_newline {row : List UInt8} (hrow : 0x0a ∉ row) (before : List UInt8) :
    lineAfter (row ++ 0x0a :: before) = lineAfter before + 1 := by
  rw [lineAfter, lineAfter, List.count_append, List.count_eq_zero_of_not_mem hrow,
    List.count_cons_self]
  omega

theorem columnAfter_newline (row before : List UInt8) :
    columnAfter (row ++ 0x0a :: before) = columnAfter before := by
  have hsplit : (row ++ 0x0a :: before).reverse = before.reverse ++ 0x0a :: row.reverse := by simp
  have hstop : (0x0a :: row.reverse).takeWhile (· ≠ 0x0a) = [] :=
    List.takeWhile_cons_of_neg (by decide)
  rw [columnAfter, columnAfter, hsplit, List.takeWhile_append, hstop, List.append_nil]
  split
  next hall =>
    rw [hall]
  · rfl

theorem lineAfter_of_notMem (h : 0x0a ∉ before) : lineAfter before = 1 := by
  rw [lineAfter, List.count_eq_zero_of_not_mem h]

theorem columnAfter_of_notMem (h : 0x0a ∉ before) : columnAfter before = before.length + 1 := by
  have hall : before.reverse.takeWhile (· ≠ 0x0a) = before.reverse := by
    refine List.takeWhile_eq_self_iff.mpr fun b hb => decide_eq_true ?_
    rintro rfl
    exact h (List.mem_reverse.mp hb)
  rw [columnAfter, hall, List.length_reverse, Nat.add_comm]

/-- A byte of rows that end with newlines is found in its row and column. -/
theorem byte_of_rows (hrows : ∀ row ∈ rows, 0x0a ∉ row) (hb : b ≠ 0x0a)
    (h : rows.flatMap (· ++ [0x0a]) = before ++ b :: after) :
    ∃ row, rows[lineAfter before - 1]? = some row ∧ row[columnAfter before - 1]? = some b := by
  induction rows generalizing before with
  | nil => simp at h
  | cons row rows ih =>
    have hrow := hrows row List.mem_cons_self
    rw [List.flatMap_cons, List.append_assoc, List.singleton_append] at h
    rcases List.append_eq_append_iff.mp h with ⟨x, rfl, hrest⟩ | ⟨x, hx, hrest⟩
    · -- the byte stands in a later row
      cases x with
      | nil => exact absurd (List.cons.inj hrest).1.symm hb
      | cons c x =>
        obtain rfl : 0x0a = c := (List.cons.inj hrest).1
        obtain ⟨r, hr, hbyte⟩ := ih (fun r hr => hrows r (List.mem_cons_of_mem row hr))
          (List.cons.inj hrest).2
        refine ⟨r, ?_, by rwa [columnAfter_newline]⟩
        have hpos : lineAfter x - 1 + 1 = lineAfter x := by unfold lineAfter; omega
        rw [lineAfter_newline hrow, Nat.add_sub_cancel, ← hpos, List.getElem?_cons_succ, hr]
    · cases x with
      | nil => exact absurd (List.cons.inj hrest).1 hb
      | cons c x =>
        obtain ⟨rfl, -⟩ := List.cons.inj hrest
        have hbefore : 0x0a ∉ before := fun hmem => hrow (hx ▸ List.mem_append_left _ hmem)
        refine ⟨row, by rw [lineAfter_of_notMem hbefore]; rfl, ?_⟩
        rw [columnAfter_of_notMem hbefore, Nat.add_sub_cancel, hx,
          List.getElem?_append_right (Nat.le_refl _), Nat.sub_self]
        rfl

/-- The first byte of a word of a tiling, and where the word is placed. -/
theorem Tiling.exists_first {bytes : List UInt8} {ps : List Piece} {last p : Piece}
    (h : Tiling before bytes ps last) (hp : p ∈ ps) :
    ∃ front b after, bytes = front ++ b :: after ∧ p.slice.head? = some b ∧
      p.token.line = lineAfter (before ++ front) ∧ p.token.column =
      columnAfter (before ++ front) := by
  obtain ⟨left, right, rfl⟩ := List.append_of_mem hp
  obtain ⟨b, bs, hslice⟩ := List.exists_cons_of_ne_nil (h.nonempty p hp).1
  refine ⟨left.flatMap Piece.bytes ++ p.gap, b, bs ++ right.flatMap Piece.bytes ++ last.gap, ?_,
    by rw [hslice]; rfl, ?_⟩
  · rw [← h.covers]
    simp [Piece.bytes, hslice]
  · rw [← List.append_assoc]
    exact h.placed left p (right ++ [last]) (by simp)

/-- Rows with newlines between them, and one more newline. -/
theorem intercalate_append_newline (hne : rows ≠ []) :
    [0x0a].intercalate rows ++ [0x0a] = rows.flatMap (· ++ [0x0a]) := by
  induction rows with
  | nil => exact absurd rfl hne
  | cons row rows ih =>
    cases rows with
    | nil => simp
    | cons next rows =>
      rw [List.intercalate_cons_cons, List.append_assoc, List.append_assoc,
        ih (List.cons_ne_nil _ _),
        ← List.append_assoc]
      rfl

end Scan

namespace Document

open Yaml (Scalar)

/-- The scalar is a literal block without a written tag: its text is rows of the source from the
line below it on, without the common indentation. The first row shows where the indentation ends.
Empty rows are blank lines, and the last one follows the newline at the end of the text. -/
structure IsBlock (source : Source) (s : Scalar) (indent : Nat) (rows : List String) : Prop where
  style : s.style = .literal
  untagged : s.tagged = false
  value : s.value = joinWith "\n" rows
  first : ∃ c cs, rows[0]? = some (String.ofList (c :: cs)) ∧ c ≠ ' '
  stands : ∀ (i : Nat) row, rows[i]? = some row → row ≠ "" →
    ∃ ending ∈ ["", "\r"],
      source.line (s.position.line + 1 + i) =
      String.ofList (List.replicate indent ' ') ++ row ++ ending

/-- Where a token of the text of a block stands in the source. -/
def sourcePosition (s : Scalar) (indent : Nat) (t : Token) : Position :=
  ⟨s.position.line + t.line, indent + t.column⟩

namespace IsBlock

variable {source : Source} {s : Scalar} {indent : Nat} {rows : List String}

/-- A row has no newline inside. -/
theorem single (h : IsBlock source s indent rows) : ∀ row ∈ rows, 0x0a ∉ utf8Bytes row := by
  intro row hrow hnewline
  obtain ⟨i, hi⟩ := List.getElem?_of_mem hrow
  have hsome : row ≠ "" := by
    rintro rfl
    simp [utf8Bytes_eq] at hnewline
  obtain ⟨ending, -, hline⟩ := h.stands i row hi hsome
  have hin := newline_mem_of_mem_utf8Bytes hnewline
  exact source.newline_notMem_line (s.position.line + 1 + i) (by simp [hline, hin])

/-- Every byte of the text stands in the source below the block and behind the indentation. -/
theorem byteAt?_eq (h : IsBlock source s indent rows)
    (hb : b ≠ 0x0a) (htext : utf8Bytes s.value = before ++ b :: after) :
    source.byteAt? ⟨s.position.line + Scan.lineAfter before, indent + Scan.columnAfter before⟩ =
      some b := by
  have hne : rows.map utf8Bytes ≠ [] := by
    obtain ⟨c, cs, hfirst, -⟩ := h.first
    rintro hnil
    simp [List.map_eq_nil_iff.mp hnil] at hfirst
  have hrows : (rows.map utf8Bytes).flatMap (· ++ [0x0a]) = before ++ b :: (after ++ [0x0a]) := by
    have hnewline : utf8Bytes "\n" = [0x0a] := by decide +kernel
    rw [← Scan.intercalate_append_newline hne, ← hnewline, ← utf8Bytes_joinWith, ← h.value, htext,
      List.append_assoc]
    rfl
  obtain ⟨r, hr, hbyte⟩ := Scan.byte_of_rows (List.forall_mem_map.mpr h.single) hb hrows
  rw [List.getElem?_map] at hr
  obtain ⟨row, hrow, rfl⟩ := Option.map_eq_some_iff.mp hr
  have hsome : row ≠ "" := by
    rintro rfl
    simp [utf8Bytes_eq] at hbyte
  obtain ⟨ending, -, hline⟩ := h.stands _ row hrow hsome
  have hnumber : s.position.line + (Scan.lineAfter before : Int) =
      s.position.line + 1 + ((Scan.lineAfter before - 1 : Nat) : Int) := by
    unfold Scan.lineAfter
    omega
  have hindex : ((indent + Scan.columnAfter before : Int) - 1).toNat =
      indent + (Scan.columnAfter before - 1) := by
    unfold Scan.columnAfter
    omega
  have hindent : (utf8Bytes (String.ofList (List.replicate indent ' '))).length = indent := by
    rw [utf8Bytes_ascii (by simp +contextual), List.length_map, List.length_replicate]
  have hinside : Scan.columnAfter before - 1 < (utf8Bytes row).length :=
    (List.getElem?_eq_some_iff.mp hbyte).1
  simp only [Source.byteAt?, hnumber, hline, hindex, utf8Bytes_append]
  rw [List.append_assoc, List.getElem?_append_right (by omega), hindent, Nat.add_sub_cancel_left,
    List.getElem?_append_left hinside, hbyte]

/-- A snippet in a block starts on its first row, behind the indentation. -/
theorem snippetBase_eq (h : IsBlock source s indent rows) :
    snippetBase source (.scalar s) = ⟨s.position.line + 1, indent + 1⟩ := by
  obtain ⟨c, cs, hfirst, hc⟩ := h.first
  obtain ⟨ending, -, hline⟩ := h.stands 0 _ hfirst (by simp)
  rw [Int.natCast_zero, Int.add_zero] at hline
  have hindent : ((source.line (s.position.line + 1)).toList.takeWhile (· = ' ')).length =
    indent := by
    have hstop : (c :: cs ++ ending.toList).takeWhile (· = ' ') = [] :=
      List.takeWhile_cons_of_neg (by simpa using hc)
    rw [hline, String.toList_append, String.toList_append, String.toList_ofList,
      String.toList_ofList,
      List.append_assoc, List.takeWhile_append_of_pos (by simp), hstop, List.append_nil,
      List.length_replicate]
  simp only [snippetBase, h.untagged, h.style, hindent, Bool.false_eq_true, if_false]

/-- **The words of a block in the source.** The tokens of the text of a literal block tile the text,
and the first byte of each of them stands in the source where `sourcePosition` says. A reader of the
text gives it this position if it stands on the first line of the text; on the other lines it gives
it the line, but the column in the text, where the indentation is missing. -/
theorem positions (h : IsBlock source s indent rows) :
    ∃ ps last, Scan.ofText s.value = (ps ++ [last]).map Scan.Piece.token ∧
      Scan.Tiling [] ((utf8Bytes s.value).takeWhile (· ≠ 0)) ps last ∧
      ∀ p ∈ ps, source.byteAt? (sourcePosition s indent p.token) = p.slice.head? ∧
        (Snippet.Reader.ofText s.value (snippetBase source (.scalar s))).positionOf p.token =
          if p.token.line = 1 then sourcePosition s indent p.token
          else { sourcePosition s indent p.token with column := p.token.column } := by
  let input := (utf8Bytes s.value).takeWhile (· ≠ 0)
  have hstart : (⟨input, 1, 1⟩ : Scan.Cursor).Behind [] := ⟨rfl, rfl⟩
  obtain ⟨ps, last, hps, htiling⟩ := Scan.tiling_pieces hstart (Nat.le_refl _)
  refine ⟨ps, last, ?_, htiling, fun p hp => ⟨?_, ?_⟩⟩
  · rw [← hps, Scan.map_token_pieces]
    rfl
  · obtain ⟨front, b, after, hinput, hfirst, hline, hcolumn⟩ := htiling.exists_first hp
    obtain ⟨bs, hslice⟩ := List.head?_eq_some_iff.mp hfirst
    obtain ⟨d, -, hd⟩ := Scan.exists_of_mem_pieces (hps ▸ List.mem_append_left _ hp)
    have hb : b ≠ 0x0a := by
      rintro rfl
      exact absurd (Scan.not_isBlank_of_slice (hd ▸ hslice)) (by decide)
    have htext : utf8Bytes s.value = front ++ b ::
      (after ++ (utf8Bytes s.value).dropWhile (· ≠ 0)) := by
      rw [← List.cons_append, ← List.append_assoc, ← hinput]
      exact List.takeWhile_append_dropWhile.symm
    rw [hfirst, sourcePosition, hline, hcolumn]
    exact h.byteAt?_eq hb htext
  · rw [h.snippetBase_eq]
    simp only [Snippet.Reader.positionOf, Snippet.Reader.ofText, sourcePosition]
    split
    case isTrue hfirst =>
      rw [hfirst]
      congr 1
      omega
    case isFalse hlater =>
      congr 1
      omega

end IsBlock

/-! ## A block of two lines -/

/-- A variable whose value is a block of two lines. -/
def twoLines : Source :=
  { name := "in.yaml", content := "declarations:\n  - let: x\n    value: |\n      1 +\n      missing\n" }

/-- The block in it. -/
def twoLinesBlock : Scalar :=
  { position := ⟨3, 12⟩, tag := .string, tagged := false, style := .literal
    value := "1 +\nmissing\n" }

theorem isBlock_twoLines : IsBlock twoLines twoLinesBlock 6 ["1 +", "missing", ""] where
  style := rfl
  untagged := rfl
  value := by decide +kernel
  first := ⟨'1', [' ', '+'], by decide +kernel, by decide⟩
  stands i row hrow hsome := by
    refine ⟨"", by simp, ?_⟩
    rcases i with _ | _ | _ | i
    · obtain rfl := Option.some.inj hrow
      decide +kernel
    · obtain rfl := Option.some.inj hrow
      decide +kernel
    · exact absurd (Option.some.inj hrow).symm hsome
    · simp at hrow

/-- The word on the second line is found there, and a reader gives it the column that it has in the
text. -/
theorem positions_twoLines : ∃ ps last,
    Scan.ofText twoLinesBlock.value = (ps ++ [last]).map Scan.Piece.token ∧
    Scan.Tiling [] ((utf8Bytes twoLinesBlock.value).takeWhile (· ≠ 0)) ps last ∧
    ∀ p ∈ ps, twoLines.byteAt? (sourcePosition twoLinesBlock 6 p.token) = p.slice.head? ∧
      (Snippet.Reader.ofText twoLinesBlock.value
        (snippetBase twoLines (.scalar twoLinesBlock))).positionOf p.token =
          if p.token.line = 1 then sourcePosition twoLinesBlock 6 p.token
          else { sourcePosition twoLinesBlock 6 p.token with column := p.token.column } :=
  isBlock_twoLines.positions

/-- **A reader loses the indentation**: on the second line of a block a token is given a column that
is too small. -/
theorem not_positions_later : ¬∀ (source : Source) (s : Scalar) (indent : Nat) (rows : List String),
    IsBlock source s indent rows → ∀ t ∈ Scan.ofText s.value, t.kind ≠ .endOfInput →
      (Snippet.Reader.ofText s.value (snippetBase source (.scalar s))).positionOf t =
        sourcePosition s indent t := by
  intro h
  have hthird : ((Scan.ofText twoLinesBlock.value)[2]?).map (fun t => (t.kind, t.line, t.column)) =
      some (.identifier, 2, 1) := by decide +kernel
  obtain ⟨t, ht, heq⟩ := Option.map_eq_some_iff.mp hthird
  simp only [Prod.mk.injEq] at heq
  obtain ⟨hkind, hline, hcolumn⟩ := heq
  have hwrong := h _ _ _ _ isBlock_twoLines t (List.mem_of_getElem? ht) (by simp [hkind])
  rw [isBlock_twoLines.snippetBase_eq] at hwrong
  simp [Snippet.Reader.positionOf, Snippet.Reader.ofText, sourcePosition, hline, hcolumn] at hwrong

end Document

end ShapeCheck
