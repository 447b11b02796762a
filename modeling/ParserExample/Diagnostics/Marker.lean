import ParserExample.Diagnostics.Lines

/-!
# The markers below the lines

The last line of a range is marked up to the range's end. Every line in front of
it is marked up to its own end, but the loop takes the offset of that end in the
code for its column. The two agree on the first line of the code only, so that a
range is marked exactly when it is on one line or on the first two
(`parserPrintError_marks`).
-/

namespace ParserExample

open Library

def PrintedLine.Covered (startIndex endIndex : Nat) (line : PrintedLine) (column : Nat) : Prop :=
  column < line.text.length ∧ startIndex ≤ line.index + column ∧ line.index + column < endIndex

def PrintedLine.Marked (line : PrintedLine) (column : Nat) : Prop :=
  line.marker[column]? = some (byte '^')

/-- The bytes of the range are marked. Where the line has none of them, the
position of the range is. -/
structure PrintedLine.MarksExactly (startIndex endIndex : Nat) (line : PrintedLine) : Prop where
  covered : (∃ column, line.Covered startIndex endIndex column) →
    ∀ column, line.Marked column ↔ line.Covered startIndex endIndex column
  empty : (¬ ∃ column, line.Covered startIndex endIndex column) →
    ∀ column, line.Marked column ↔ column = max startIndex line.index - line.index

/-- A row of markers begins below the text of its line: the number of the line is as wide
as the space below it. -/
def PrintedLine.Aligned (width : Nat) (line : PrintedLine) : Prop :=
  (List.leftpad width (byte ' ') (ascii (toString line.lineno))).length = width

/-- The range is on one line, or begins on the first line of the code and ends on
the second. -/
def ShortRange (code : Bytes) (startIndex endIndex : Nat) : Prop :=
  (code.take startIndex).count newline = (code.take endIndex).count newline ∨
    (code.take startIndex).count newline = 0 ∧ (code.take endIndex).count newline = 1

theorem getElem?_markerRow {startColumn endColumn column : Nat} :
    (markerRow startColumn endColumn)[column]? = some (byte '^') ↔
      startColumn ≤ column ∧
        column < if startColumn = endColumn then startColumn + 1 else endColumn := by
  rw [markerRow, List.getElem?_append, List.length_replicate]
  by_cases hlt : column < startColumn
  · rw [if_pos hlt, List.getElem?_replicate, if_pos hlt]
    constructor
    · intro h
      exact absurd (Option.some.inj h) (by decide)
    · rintro ⟨hle, -⟩
      omega
  · rw [if_neg hlt]
    split_ifs with heq
    · rw [List.getElem?_singleton]
      split_ifs with h0
      · simp only [true_iff]
        omega
      · rw [false_iff]
        omega
    · rw [List.getElem?_replicate]
      split_ifs with hin
      · simp only [true_iff]
        omega
      · rw [false_iff]
        omega

section
variable {code : Bytes} {startLoc endLoc : Location} {line : PrintedLine} {i j si sj : Nat}

theorem PrintedLine.Of.startColumn_eq (h : line.Of code startLoc endLoc)
    (hi : OnLine newline code startLoc.lineno si i) (hc : startLoc.column = i - si + 1)
    (hge : startLoc.lineno ≤ line.lineno) :
    (if line.lineno = startLoc.lineno then startLoc.column - 1 else 0) =
      max i line.index - line.index := by
  split_ifs with heq
  · obtain rfl := (heq ▸ h.starts).start_eq hi.toLineStart
    rw [hc, Nat.add_sub_cancel, max_eq_left hi.le]
  · have hlt : i < line.index := by
      by_contra hle
      have hmono := count_take_mono newline code (Nat.le_of_not_lt hle)
      have := hi.lineno_eq_count
      have := h.starts.lineno_eq
      omega
    rw [max_eq_right hlt.le, Nat.sub_self]

theorem PrintedLine.Of.length_text (h : line.Of code startLoc endLoc) :
    line.text.length = line.lineEnd - line.index := by
  rw [h.text, List.length_drop, List.length_take_of_le h.ends.le_length]

theorem PrintedLine.Of.marksExactly_last (h : line.Of code startLoc endLoc) (hle : i ≤ j)
    (hi : OnLine newline code startLoc.lineno si i) (hci : startLoc.column = i - si + 1)
    (hj : OnLine newline code endLoc.lineno sj j) (hcj : endLoc.column = j - sj + 1)
    (hge : startLoc.lineno ≤ line.lineno) (hlast : line.lineno = endLoc.lineno) :
    line.MarksExactly i j := by
  obtain rfl := (hlast ▸ h.starts).start_eq hj.toLineStart
  have hstop := hj.le_stop h.ends
  have hstart := hj.le
  have hmarked : ∀ column, line.Marked column ↔ max i line.index - line.index ≤ column ∧
      column < if max i line.index - line.index = j - line.index
        then max i line.index - line.index + 1 else j - line.index := by
    intro column
    rw [PrintedLine.Marked, h.marker, h.startColumn_eq hi hci hge, if_pos hlast, hcj,
      Nat.add_sub_cancel, getElem?_markerRow]
  constructor
  · rintro ⟨c, -, hc⟩ column
    rw [hmarked, PrintedLine.Covered, h.length_text]
    split_ifs <;> omega
  · rintro hnone column
    have heq : max i line.index - line.index = j - line.index := by
      by_contra hne
      refine hnone ⟨max i line.index - line.index, ?_⟩
      rw [PrintedLine.Covered, h.length_text]
      omega
    rw [hmarked, if_pos heq]
    omega

/-- A range that goes on behind the line is marked exactly on the first line only. -/
theorem PrintedLine.Of.marksExactly_iff_index (h : line.Of code startLoc endLoc)
    (hn : code[i]? ≠ some newline) (hj : j ≤ code.length)
    (hi : OnLine newline code startLoc.lineno si i) (hci : startLoc.column = i - si + 1)
    (hge : startLoc.lineno ≤ line.lineno) (hnot : line.lineno ≠ endLoc.lineno)
    (hlt : line.lineno < (code.take j).count newline + 1) :
    line.MarksExactly i j ↔ line.index = 0 := by
  obtain ⟨hstop, hsep⟩ := h.ends.of_lt h.starts hj hlt
  have hle := h.ends.le
  have hmarked : ∀ column, line.Marked column ↔ max i line.index - line.index ≤ column ∧
      column < if max i line.index - line.index = line.lineEnd
        then max i line.index - line.index + 1 else line.lineEnd := by
    intro column
    rw [PrintedLine.Marked, h.marker, h.startColumn_eq hi hci hge, if_neg hnot,
      getElem?_markerRow]
  -- the range begins on the line, or on one in front of it
  have hbegin : i < line.lineEnd := by
    have hle : i ≤ line.lineEnd := by
      by_contra hgt
      have hmono := count_take_mono newline code (Nat.lt_of_not_le hgt)
      have := h.starts.lineno_eq
      have := hi.lineno_eq_count
      rw [Nat.succ_eq_add_one, count_take_succ hsep, h.ends.clear.count_take hle] at hmono
      omega
    refine lt_of_le_of_ne hle ?_
    rintro rfl
    exact hn hsep
  constructor
  · intro hexact
    by_contra hne
    by_cases hwide : max i line.index < line.lineEnd
    · -- the column behind the line's last byte is marked
      have hcovered : line.Covered i j (max i line.index - line.index) := by
        rw [PrintedLine.Covered, h.length_text]
        omega
      have hmark : line.Marked (line.lineEnd - line.index) := by
        rw [hmarked]
        split_ifs <;> omega
      have hpast := ((hexact.covered ⟨_, hcovered⟩ _).mp hmark).1
      rw [h.length_text] at hpast
      omega
    · -- the line is empty, and at least two bytes stand in front of it
      have hempty : ¬ ∃ column, line.Covered i j column := by
        rintro ⟨column, hlen, -⟩
        rw [h.length_text] at hlen
        omega
      have htwo : 2 ≤ line.index := by
        obtain ⟨k, hk⟩ := Nat.exists_eq_succ_of_ne_zero hne
        have : i ≠ k := by
          rintro rfl
          exact hn (h.starts.boundary i hk)
        omega
      have hmark : line.Marked 1 := by
        rw [hmarked]
        split_ifs <;> omega
      have := (hexact.empty hempty 1).mp hmark
      omega
  · intro hzero
    have hcovered : line.Covered i j i := by
      rw [PrintedLine.Covered, h.length_text]
      omega
    constructor
    · rintro - column
      rw [hmarked, PrintedLine.Covered, h.length_text]
      split_ifs <;> omega
    · intro hnone
      exact absurd ⟨i, hcovered⟩ hnone

/-- Exactly the lines that come last, or first in the code, are marked exactly. -/
theorem PrintedLine.Of.marksExactly_iff
    (h : line.Of code (getLocation code i) (getLocation code j)) (hin : InCode code i j)
    (hge : (getLocation code i).lineno ≤ line.lineno)
    (hle : line.lineno ≤ (getLocation code j).lineno) :
    line.MarksExactly i j ↔ line.lineno = (getLocation code j).lineno ∨ line.index = 0 := by
  obtain ⟨_, hi, hci⟩ := getLocation_onLine (hin.le.trans hin.end_le)
  obtain ⟨_, hj, hcj⟩ := getLocation_onLine hin.end_le
  by_cases hlast : line.lineno = (getLocation code j).lineno
  · exact iff_of_true (h.marksExactly_last hin.le hi hci hj hcj hge hlast) (.inl hlast)
  · rw [h.marksExactly_iff_index hin.line hin.end_le hi hci hge hlast
      (hj.lineno_eq_count ▸ lt_of_le_of_ne hle hlast)]
    exact (or_iff_right hlast).symm

theorem marksExactly_iff {lines : List PrintedLine} (hin : InCode code i j)
    (hlines : printedLines code i j = .ok lines) :
    (∀ line ∈ lines, line.MarksExactly i j) ↔ ShortRange code i j := by
  obtain ⟨_, heq, hnumbers, hof⟩ := printedLines_ok hin
  obtain rfl := Except.ok.inj (hlines.symm.trans heq)
  obtain ⟨_, hi, -⟩ := getLocation_onLine (hin.le.trans hin.end_le)
  obtain ⟨_, hj, -⟩ := getLocation_onLine hin.end_le
  have hi := hi.lineno_eq_count
  have hj := hj.lineno_eq_count
  have hmono := count_take_mono newline code hin.le
  have hnumber : ∀ n, (∃ line ∈ lines, line.lineno = n) ↔
      (getLocation code i).lineno ≤ n ∧ n ≤ (getLocation code j).lineno := by
    intro n
    rw [← List.mem_map, hnumbers, List.mem_range'_1]
    omega
  have hexact : ∀ line ∈ lines, line.MarksExactly i j ↔
      line.lineno = (getLocation code j).lineno ∨ line.lineno = 1 := by
    intro line hmem
    obtain ⟨hge, hle⟩ := (hnumber line.lineno).mp ⟨line, hmem, rfl⟩
    rw [(hof line hmem).marksExactly_iff hin hge hle, (hof line hmem).starts.eq_zero_iff]
  constructor
  · intro hall
    by_contra hnot
    rw [ShortRange] at hnot
    -- a line that is neither the first in the code nor the last in the range
    obtain ⟨n, hge, hlt, hne⟩ : ∃ n, (getLocation code i).lineno ≤ n ∧
        n < (getLocation code j).lineno ∧ n ≠ 1 := by
      by_cases h1 : (getLocation code i).lineno = 1
      · exact ⟨2, by omega, by omega, by omega⟩
      · exact ⟨(getLocation code i).lineno, le_rfl, by omega, h1⟩
    obtain ⟨line, hmem, rfl⟩ := (hnumber n).mpr ⟨hge, hlt.le⟩
    rcases (hexact line hmem).mp (hall line hmem) with h | h
    · exact hlt.ne h
    · exact hne h
  · rintro hcount line hmem
    obtain ⟨hge, hle⟩ := (hnumber line.lineno).mp ⟨line, hmem, rfl⟩
    rw [hexact line hmem]
    rcases hcount with h | ⟨h0, h1⟩ <;> omega

end

-- ---------------------------------------------------------------------------
-- The gutter
-- ---------------------------------------------------------------------------

theorem PrintedLine.aligned {line : PrintedLine} {lineno : Nat} (h : line.lineno ≤ lineno) :
    line.Aligned (ascii (toString lineno)).length := by
  have hmono := getNumberLength_mono h
  rw [← length_formatNat, ← length_formatNat, formatNat_toString, formatNat_toString] at hmono
  rw [PrintedLine.Aligned, List.length_leftpad, max_eq_left hmono]

-- ---------------------------------------------------------------------------
-- The message
-- ---------------------------------------------------------------------------

section
variable {heap : Heap} {code : Bytes} {names : List Bytes} {p : Parser}

/-- The range of an error is marked exactly when it is on one line, or on the
first two lines of the code. -/
theorem parserPrintError_marks (h : parseSlice heap code names = .ok p) (hs : p.error ≠ .none)
    (ha : p.error ≠ .illegalArgName ∧ p.error ≠ .duplicatedArgName) :
    ∃ i j lines, p.errorInfo = .code i j ∧ printedLines code i j = .ok lines ∧
      parserPrintError p = .ok (codeMessage p i j lines) ∧
      (∀ line ∈ lines, line.Aligned (ascii (toString (getLocation code j).lineno)).length) ∧
      ((∀ line ∈ lines, line.MarksExactly i j) ↔ ShortRange code i j) := by
  obtain ⟨rfl, i, j, hinfo, hin⟩ := parseSlice_errorRange h hs ha
  obtain ⟨lines, hlines, hnumbers, -⟩ := printedLines_ok hin
  refine ⟨i, j, lines, hinfo, hlines, parserPrintError_code hs ha hinfo hlines, ?_,
    marksExactly_iff hin hlines⟩
  rintro line hmem
  have hnumber := List.mem_map_of_mem (f := PrintedLine.lineno) hmem
  rw [hnumbers, List.mem_range'_1] at hnumber
  exact PrintedLine.aligned (by omega)

theorem parserPrintError_marks_unclosed :
    ∃ p lines, parseSlice Heap.unlimited (ascii "(2\n") [] = .ok p ∧
      printedLines (ascii "(2\n") 0 3 = .ok lines ∧
      parserPrintError p = .ok (codeMessage p 0 3 lines) ∧
      ∀ line ∈ lines, line.Aligned 1 ∧ line.MarksExactly 0 3 := by
  obtain ⟨p, hp, herr⟩ := exists_of_map_eq_ok
    (b := (ParserError.expectedCloseParen, ErrorInfo.code 0 3))
    (show (parseSlice Heap.unlimited (ascii "(2\n") []).map
      (fun p => (p.error, p.errorInfo)) = _ by decide +kernel)
  obtain ⟨he, hinfo⟩ := Prod.mk.inj herr
  obtain ⟨i, j, lines, hinfo', hlines, hprint, haligned, hexact⟩ :=
    parserPrintError_marks hp (by simp [he]) (by simp [he])
  obtain ⟨rfl, rfl⟩ : i = 0 ∧ j = 3 := by simpa [hinfo] using hinfo'.symm
  have hshort : ShortRange (ascii "(2\n") 0 3 := .inr (by decide)
  have hwidth : (ascii (toString (getLocation (ascii "(2\n") 3).lineno)).length = 1 := by
    decide +kernel
  rw [hwidth] at haligned
  exact ⟨p, lines, hp, hlines, hprint, fun line hmem =>
    ⟨haligned line hmem, hexact.mpr hshort line hmem⟩⟩

/-- Line 2 of this code has two bytes and five markers. -/
theorem not_marksExactly :
    ¬ ∀ (heap : Heap) (code : Bytes) (names : List Bytes) (p : Parser) (i j : Nat)
      (lines : List PrintedLine), parseSlice heap code names = .ok p → p.error ≠ .none →
      p.error ≠ .illegalArgName ∧ p.error ≠ .duplicatedArgName → p.errorInfo = .code i j →
      printedLines code i j = .ok lines → ∀ line ∈ lines, line.MarksExactly i j := by
  intro hall
  obtain ⟨p, hp, herr⟩ := exists_of_map_eq_ok unclosed_error
  obtain ⟨he, hinfo⟩ := Prod.mk.inj herr
  have hlines : printedLines (ascii "1+\n(2\n") 3 6 =
      .ok [⟨2, 3, 5, ascii "(2", ascii "^^^^^"⟩, ⟨3, 6, 6, [], ascii "^"⟩] := by decide
  have hexact := hall _ _ _ p 3 6 _ hp (by simp [he]) (by simp [he]) hinfo hlines _
    List.mem_cons_self
  have hcovered : PrintedLine.Covered 3 6 ⟨2, 3, 5, ascii "(2", ascii "^^^^^"⟩ 0 := by
    unfold PrintedLine.Covered
    decide
  have hpast : PrintedLine.Covered 3 6 ⟨2, 3, 5, ascii "(2", ascii "^^^^^"⟩ 4 :=
    (hexact.covered ⟨0, hcovered⟩ 4).mp (by unfold PrintedLine.Marked; decide)
  exact absurd hpast.1 (by decide)

end

end ParserExample
