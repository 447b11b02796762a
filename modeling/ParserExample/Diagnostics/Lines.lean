import ParserExample.Diagnostics
import ParserExample.Library.Lines
import ParserExample.Parser.Errors

/-!
# The lines that a message shows

`getLocation`, `getLineStart` and `getLineEnd` find the line of a position in
the sense of `OnLine`, as long as the position is not that of a newline. Each
turn of the printing loop moves on to the next line, so that the lines from the
first of a range to its last are shown (`parserPrintError_lines`).
-/

namespace ParserExample

open Library

section
variable {code : Bytes} {c : UInt8} {index i j k : Nat}

-- ---------------------------------------------------------------------------
-- Searching
-- ---------------------------------------------------------------------------

theorem findIdx?_beq {s : Bytes} (h : s.findIdx? (· == c) = some k) :
    k < s.length ∧ s[k]? = some c ∧ ∀ l < k, s[l]? ≠ some c := by
  obtain ⟨hlt, hk, hbefore⟩ := List.findIdx?_eq_some_iff_getElem.mp h
  refine ⟨hlt, by rw [List.getElem?_eq_getElem hlt, eq_of_beq hk], ?_⟩
  intro l hl heq
  obtain ⟨hl', heq⟩ := List.getElem?_eq_some_iff.mp heq
  exact hbefore l hl (beq_iff_eq.mpr heq)

theorem findIdx?_beq_none {s : Bytes} (h : s.findIdx? (· == c) = none) : c ∉ s := by
  rw [List.findIdx?_eq_none_iff] at h
  intro hmem
  simpa using h c hmem

theorem memchr_none (h : memchr ((code.take j).drop i) c = none) : Clear c code i j :=
  clear_iff.mpr (findIdx?_beq_none h)

theorem memchr_some (h : memchr ((code.take j).drop i) c = some k) :
    i + k < j ∧ code[i + k]? = some c ∧ Clear c code i (i + k) := by
  obtain ⟨hlt, hk, hbefore⟩ := findIdx?_beq h
  rw [List.length_drop, List.length_take] at hlt
  have hget : ∀ l, i + l < j → ((code.take j).drop i)[l]? = code[i + l]? := by
    intro l hl
    rw [List.getElem?_drop, List.getElem?_take_of_lt hl]
  refine ⟨by omega, by rw [← hget k (by omega), hk], ?_⟩
  intro l hil hl
  obtain ⟨m, rfl⟩ := Nat.exists_eq_add_of_le hil
  rw [← hget m (by omega)]
  exact hbefore m (by omega)

theorem memrchr_none (h : memrchr (code.take j) c = none) : Clear c code 0 j := by
  rw [memrchr, Option.map_eq_none_iff] at h
  rw [clear_iff, List.drop_zero, ← List.mem_reverse]
  exact findIdx?_beq_none h

theorem memrchr_some (h : memrchr (code.take j) c = some k) :
    k < j ∧ code[k]? = some c ∧ Clear c code (k + 1) j := by
  obtain ⟨offset, hoffset, rfl⟩ := Option.map_eq_some_iff.mp h
  obtain ⟨hlt, hk, hbefore⟩ := findIdx?_beq hoffset
  rw [List.length_reverse, List.length_take] at hlt
  rw [List.length_take] at *
  -- byte `l` of the slice is the one that the search reaches after those behind it
  have hget : ∀ l, l < min j code.length →
      (code.take j).reverse[min j code.length - 1 - l]? = code[l]? := by
    intro l hl
    rw [@List.getElem?_reverse' _ _ _ l (by rw [List.length_take]; omega),
      List.getElem?_take_of_lt (by omega)]
  refine ⟨by omega, ?_, ?_⟩
  · rw [← hget _ (by omega), ← hk]
    congr 1
    omega
  · intro l hkl hlj
    by_cases hl : l < code.length
    · rw [← hget l (by omega)]
      exact hbefore _ (by omega)
    · rw [List.getElem?_eq_none (by omega)]
      rintro ⟨⟩

-- ---------------------------------------------------------------------------
-- The line of a position
-- ---------------------------------------------------------------------------

theorem locationFrom_onLine {endPtr left ptr lineno : Nat}
    (hs : LineStart newline code lineno ptr) (hp : ptr ≤ endPtr) (he : endPtr ≤ code.length)
    (hleft : endPtr - ptr ≤ left) :
    ∃ start, OnLine newline code (locationFrom code endPtr left ptr lineno).lineno start endPtr ∧
      (locationFrom code endPtr left ptr lineno).column = endPtr - start + 1 := by
  induction left generalizing ptr lineno with
  | zero =>
    obtain rfl : ptr = endPtr := by omega
    exact ⟨ptr, ⟨hs, hp, he, fun k hk hlt => absurd hk (Nat.not_le.mpr hlt)⟩, rfl⟩
  | succ left ih =>
    rw [locationFrom]
    cases hm : memchr ((code.take endPtr).drop ptr) newline with
    | none => exact ⟨ptr, ⟨hs, hp, he, memchr_none hm⟩, rfl⟩
    | some offset =>
      obtain ⟨hlt, hsep, hclear⟩ := memchr_some hm
      exact ih (hs.next ⟨Nat.le_add_right _ _, by omega, hclear, .inr hsep⟩ hsep) hlt (by omega)

theorem getLocation_onLine (h : index ≤ code.length) :
    ∃ start, OnLine newline code (getLocation code index).lineno start index ∧
      (getLocation code index).column = index - start + 1 := by
  rw [getLocation, if_neg (Nat.not_lt.mpr h)]
  exact locationFrom_onLine lineStart_zero (Nat.zero_le _) h le_rfl

theorem lineStart_of_newline (h : code[k]? = some newline) :
    LineStart newline code ((code.take (k + 1)).count newline + 1) (k + 1) where
  le_length := (List.getElem?_eq_some_iff.mp h).1
  lineno_eq := rfl
  boundary := by
    rintro i ⟨⟩
    exact h

theorem getLineStart_onLine (h : index ≤ code.length) (hn : code[index]? ≠ some newline) :
    ∃ lineno, OnLine newline code lineno (getLineStart code index) index := by
  have hslice : ∃ j, index ≤ j ∧ j ≤ index + 1 ∧
      getLineStart code index = (memrchr (code.take j) newline).elim 0 (· + 1) := by
    by_cases hlt : index < code.length
    · refine ⟨index + 1, Nat.le_succ _, le_rfl, ?_⟩
      rw [getLineStart, if_pos hlt]
      cases memrchr (code.take (index + 1)) newline <;> rfl
    · refine ⟨index, le_rfl, Nat.le_succ _, ?_⟩
      rw [getLineStart, if_neg hlt, List.take_of_length_le (Nat.le_of_not_lt hlt)]
      cases memrchr code newline <;> rfl
  obtain ⟨j, hij, hji, hstart⟩ := hslice
  rw [hstart]
  cases hm : memrchr (code.take j) newline with
  | none => exact ⟨1, lineStart_zero, Nat.zero_le _, h, (memrchr_none hm).mono hij⟩
  | some offset =>
    obtain ⟨hlt, hsep, hclear⟩ := memrchr_some hm
    have hne : offset ≠ index := by
      rintro rfl
      exact hn hsep
    have hle : offset + 1 ≤ index := by omega
    exact ⟨_, lineStart_of_newline hsep, hle, h, hclear.mono hij⟩

theorem getLineEnd_lineEnd (h : index ≤ code.length) :
    LineEnd newline code index (getLineEnd code index) := by
  rw [getLineEnd]
  split_ifs with hge
  · exact ⟨h, le_rfl, fun k hk hlt => absurd hk (by omega), .inl rfl⟩
  · cases hm : memchr (code.drop index) newline with
    | none =>
      rw [← List.take_length (l := code)] at hm
      exact ⟨h, le_rfl, memchr_none hm, .inl rfl⟩
    | some offset =>
      rw [← List.take_length (l := code)] at hm
      obtain ⟨hlt, hsep, hclear⟩ := memchr_some hm
      exact ⟨Nat.le_add_right _ _, hlt.le, hclear, .inr hsep⟩

theorem getLocation_getLineStart (h : index ≤ code.length) (hn : code[index]? ≠ some newline) :
    OnLine newline code (getLocation code index).lineno (getLineStart code index) index ∧
      (getLocation code index).column = index - getLineStart code index + 1 := by
  obtain ⟨start, hline, hcolumn⟩ := getLocation_onLine h
  obtain ⟨lineno, hstart⟩ := getLineStart_onLine h hn
  obtain ⟨-, rfl⟩ := hline.unique hstart
  exact ⟨hline, hcolumn⟩

-- ---------------------------------------------------------------------------
-- The line of any index
-- ---------------------------------------------------------------------------

/-- What the four functions say about the line of an index: they agree, and it is
the line that the index is on. An index behind the code counts as its end. -/
structure LineHelpersAgree (code : Bytes) (index : Nat) : Prop where
  range : getLineRange code index = ⟨getLineStart code index, getLineEnd code index⟩
  start_le : getLineStart code index ≤ min index code.length
  le_end : min index code.length ≤ getLineEnd code index
  end_le : getLineEnd code index ≤ code.length
  clear : Clear newline code (getLineStart code index) (getLineEnd code index)
  starts : getLineStart code index = 0 ∨
    ∃ i, getLineStart code index = i + 1 ∧ code[i]? = some newline
  ends : getLineEnd code index = code.length ∨ code[getLineEnd code index]? = some newline
  lineno : (getLocation code index).lineno =
    1 + (code.take (getLineStart code index)).count newline
  column : (getLocation code index).column =
    min index code.length - getLineStart code index + 1

theorem getLineRange_eq (code : Bytes) (index : Nat) :
    getLineRange code index = ⟨getLineStart code index, getLineEnd code index⟩ := by
  unfold getLineRange getLineStart getLineEnd
  by_cases h : index < code.length
  · simp only [if_pos h, if_neg (Nat.not_le.mpr h)]
    cases memchr (code.drop index) newline <;> rfl
  · simp only [if_neg h, if_pos (Nat.le_of_not_lt h)]

theorem getLocation_min (code : Bytes) (index : Nat) :
    getLocation code index = getLocation code (min index code.length) := by
  rcases Nat.lt_or_ge index code.length with h | h
  · rw [min_eq_left h.le]
  · rw [min_eq_right h, getLocation, getLocation, if_neg (lt_irrefl _)]
    split_ifs with hgt
    · rfl
    · rw [le_antisymm (Nat.le_of_not_lt hgt) h]

theorem getLineStart_min (code : Bytes) (index : Nat) :
    getLineStart code index = getLineStart code (min index code.length) := by
  rcases Nat.lt_or_ge index code.length with h | h
  · rw [min_eq_left h.le]
  · rw [min_eq_right h, getLineStart, getLineStart, if_neg (Nat.not_lt.mpr h),
      if_neg (lt_irrefl _)]

theorem getLineEnd_min (code : Bytes) (index : Nat) :
    getLineEnd code index = getLineEnd code (min index code.length) := by
  rcases Nat.lt_or_ge index code.length with h | h
  · rw [min_eq_left h.le]
  · rw [min_eq_right h, getLineEnd, getLineEnd, if_pos h, if_pos le_rfl]

/-- The search for the start of the line of a newline finds that newline. -/
theorem getLineStart_newline (h : code[index]? = some newline) :
    getLineStart code index = index + 1 := by
  obtain ⟨hlt, -⟩ := List.getElem?_eq_some_iff.mp h
  rw [getLineStart, if_pos hlt]
  cases hm : memrchr (code.take (index + 1)) newline with
  | none => exact absurd h (memrchr_none hm index (Nat.zero_le _) (Nat.lt_succ_self _))
  | some offset =>
    obtain ⟨hle, -, hclear⟩ := memrchr_some hm
    refine congrArg (· + 1) (le_antisymm (Nat.le_of_lt_succ hle) ?_)
    by_contra hlt
    exact hclear index (Nat.lt_of_not_le hlt) (Nat.lt_succ_self _) h

theorem LineHelpersAgree.not_newline (h : LineHelpersAgree code index) :
    code[index]? ≠ some newline := by
  intro hn
  have hle := h.start_le
  rw [getLineStart_newline hn] at hle
  exact absurd (hle.trans (min_le_left _ _)) (Nat.not_succ_le_self _)

/-- The functions agree at every index but that of a newline, which has its line
start behind it. -/
theorem lineHelpersAgree_iff (code : Bytes) (index : Nat) :
    LineHelpersAgree code index ↔ code[index]? ≠ some newline := by
  constructor
  · exact LineHelpersAgree.not_newline
  · intro hn
    have hle : min index code.length ≤ code.length := min_le_right _ _
    have hn' : code[min index code.length]? ≠ some newline := by
      rcases Nat.lt_or_ge index code.length with h | h
      · rwa [min_eq_left h.le]
      · rw [min_eq_right h, List.getElem?_length]
        rintro ⟨⟩
    obtain ⟨hline, hcolumn⟩ := getLocation_getLineStart hle hn'
    have hend := getLineEnd_lineEnd hle
    rw [← getLocation_min, ← getLineStart_min] at hline hcolumn
    rw [← getLineEnd_min] at hend
    refine ⟨getLineRange_eq code index, hline.le, hend.le, hend.le_length, ?_, ?_, hend.boundary,
      hline.lineno_eq.trans (Nat.add_comm _ _), hcolumn⟩
    · intro k hk hlt
      rcases Nat.lt_or_ge k (min index code.length) with hbefore | hbehind
      · exact hline.clear k hk hbefore
      · exact hend.clear k hbehind hlt
    · cases hstart : getLineStart code index with
      | zero => exact .inl rfl
      | succ i => exact .inr ⟨i, rfl, hline.boundary i hstart⟩

/-- The newline behind `1` in `1\n2`. -/
theorem not_lineHelpersAgree : ¬ ∀ code index, LineHelpersAgree code index := by
  intro h
  exact (h (ascii "1\n2") 1).not_newline rfl

-- ---------------------------------------------------------------------------
-- The printed lines
-- ---------------------------------------------------------------------------

structure PrintedLine.Of (code : Bytes) (startLoc endLoc : Location) (line : PrintedLine) :
    Prop where
  starts : LineStart newline code line.lineno line.index
  ends : LineEnd newline code line.index line.lineEnd
  text : line.text = (code.take line.lineEnd).drop line.index
  marker : line.marker =
    markerRow (if line.lineno = startLoc.lineno then startLoc.column - 1 else 0)
      (if line.lineno = endLoc.lineno then endLoc.column - 1 else line.lineEnd)

variable {startLoc endLoc : Location} {left lineno : Nat}

theorem codeSlice_ok (he : LineEnd newline code i j) :
    codeSlice code i j = .ok ((code.take j).drop i) := if_pos ⟨he.le, he.le_length⟩

/-- The loop prints the lines up to that of `j`. -/
theorem printLines_ok (hj : j ≤ code.length)
    (hend : endLoc.lineno = (code.take j).count newline + 1)
    (hs : 0 < left → LineStart newline code lineno index)
    (hleft : lineno + left = endLoc.lineno + 1) :
    ∃ lines, printLines code startLoc endLoc left lineno index = .ok lines ∧
      lines.map PrintedLine.lineno = List.range' lineno left ∧
      ∀ line ∈ lines, line.Of code startLoc endLoc := by
  induction left generalizing lineno index with
  | zero => exact ⟨[], rfl, rfl, fun line h => absurd h List.not_mem_nil⟩
  | succ left ih =>
    have hs := hs (Nat.succ_pos left)
    have he := getLineEnd_lineEnd hs.le_length
    have hnext : 0 < left → LineStart newline code (lineno + 1) (getLineEnd code index + 1) := by
      intro hpos
      obtain ⟨-, hsep⟩ := he.of_lt hs hj (by omega)
      exact hs.next he hsep
    obtain ⟨lines, hlines, hnumbers, hof⟩ := ih hnext (by omega)
    refine ⟨_, by rw [printLines, codeSlice_ok he, hlines]; rfl, ?_, ?_⟩
    · rw [List.map_cons, hnumbers, List.range'_succ]
    · rintro line hmem
      rcases List.mem_cons.mp hmem with rfl | hmem
      · exact ⟨hs, he, rfl, rfl⟩
      · exact hof line hmem

theorem printedLines_ok (h : InCode code i j) :
    ∃ lines, printedLines code i j = .ok lines ∧
      lines.map PrintedLine.lineno = List.range' (getLocation code i).lineno
        ((getLocation code j).lineno + 1 - (getLocation code i).lineno) ∧
      ∀ line ∈ lines, line.Of code (getLocation code i) (getLocation code j) := by
  obtain ⟨hi, -⟩ := getLocation_getLineStart (h.le.trans h.end_le) h.line
  obtain ⟨start, hj, -⟩ := getLocation_onLine h.end_le
  refine printLines_ok h.end_le hj.lineno_eq_count (fun _ => hi.toLineStart) ?_
  have := hi.lineno_eq_count
  have := hj.lineno_eq_count
  have := count_take_mono newline code h.le
  omega

def sourceLine (code : Bytes) (lineno : Nat) : Option Bytes :=
  (code.splitOn newline)[lineno - 1]?

/-- The lines of the range are shown, each of them once and in order. -/
structure ShowsLines (code : Bytes) (startIndex endIndex : Nat) (lines : List PrintedLine) :
    Prop where
  le : (getLocation code startIndex).lineno ≤ (getLocation code endIndex).lineno
  numbers : lines.map PrintedLine.lineno = List.range' (getLocation code startIndex).lineno
    ((getLocation code endIndex).lineno + 1 - (getLocation code startIndex).lineno)
  text : ∀ line ∈ lines, sourceLine code line.lineno = some line.text
  bounds : ∀ line ∈ lines, line.index ≤ line.lineEnd ∧ line.lineEnd ≤ code.length

theorem showsLines {lines : List PrintedLine} (h : InCode code i j)
    (hlines : printedLines code i j = .ok lines) : ShowsLines code i j lines := by
  obtain ⟨_, heq, hnumbers, hof⟩ := printedLines_ok h
  obtain rfl := Except.ok.inj (heq.symm.trans hlines)
  refine ⟨?_, hnumbers, ?_, ?_⟩
  · obtain ⟨_, hi, -⟩ := getLocation_onLine (h.le.trans h.end_le)
    obtain ⟨_, hj, -⟩ := getLocation_onLine h.end_le
    rw [hi.lineno_eq_count, hj.lineno_eq_count]
    exact Nat.succ_le_succ (count_take_mono newline code h.le)
  · rintro line hmem
    rw [sourceLine, (hof line hmem).starts.getElem?_splitOn (hof line hmem).ends,
      (hof line hmem).text]
  · rintro line hmem
    exact ⟨(hof line hmem).ends.le, (hof line hmem).ends.le_length⟩

end

-- ---------------------------------------------------------------------------
-- The message
-- ---------------------------------------------------------------------------

theorem countDigits_eq {left number length : Nat} (h : number ≤ left) :
    countDigits left number length = length + (Nat.digits 10 number).length := by
  induction left generalizing number length with
  | zero =>
    obtain rfl := Nat.le_zero.mp h
    rfl
  | succ left ih =>
    rw [countDigits]
    split_ifs with hpos
    · rw [ih (by omega), Nat.digits_def' (by decide) hpos, List.length_cons]
      omega
    · obtain rfl := Nat.eq_zero_of_not_pos hpos
      rfl

theorem length_formatNat (n : Nat) : (formatNat n).length = getNumberLength n := by
  rw [formatNat, getNumberLength]
  split_ifs
  · rfl
  · rw [countDigits_eq le_rfl, List.length_map, List.length_reverse, Nat.zero_add]

theorem getNumberLength_mono {m n : Nat} (h : m ≤ n) : getNumberLength m ≤ getNumberLength n := by
  rw [← length_formatNat, ← length_formatNat]
  by_cases h0 : m = 0
  · subst h0
    exact List.length_pos_iff.mpr (formatNat_ne_nil n)
  · rw [formatNat, formatNat, if_neg h0, if_neg (by omega), List.length_map, List.length_map,
      List.length_reverse, List.length_reverse]
    exact Nat.le_length_digits_le 10 m n h

/-- The bytes of a message about a range of the code: what is wrong where it begins, and
its lines, each with its number in front of it and its markers below it. -/
def codeMessage (p : Parser) (startIndex endIndex : Nat) (lines : List PrintedLine) : Bytes :=
  let startLoc := getLocation p.code startIndex
  let width := (ascii (toString (getLocation p.code endIndex).lineno)).length
  ascii "Error in line " ++ ascii (toString startLoc.lineno) ++ ascii " in column " ++
    ascii (toString startLoc.column) ++ ascii ": " ++ ascii (getParserErrorMessage p.error) ++
    (match p.error with
      | .illegalToken => ascii " " ++ ascii (getTokenName p.token.type)
      | .expectedCloseParen => ascii ", but got " ++ ascii (getTokenName p.token.type)
      | _ => []) ++
    ascii "\n\n" ++
    (lines.map fun line =>
      ascii " " ++ List.leftpad width (byte ' ') (ascii (toString line.lineno)) ++ ascii " | " ++
        line.text ++ ascii "\n" ++
        ascii " " ++ List.replicate width (byte ' ') ++ ascii " | " ++
        line.marker ++ ascii "\n").flatten

theorem write_eq (width : Nat) (line : PrintedLine) :
    line.write width =
      ascii " " ++ List.leftpad width (byte ' ') (ascii (toString line.lineno)) ++ ascii " | " ++
        line.text ++ ascii "\n" ++
        ascii " " ++ List.replicate width (byte ' ') ++ ascii " | " ++
        line.marker ++ ascii "\n" := by
  have hspace : ascii " " = [byte ' '] := rfl
  have hnewline : ascii "\n" = [newline] := rfl
  rw [PrintedLine.write, lineGutter, markerGutter, formatNat_toString, hspace, hnewline, List.leftpad]
  simp only [List.append_assoc, List.cons_append, List.nil_append]

theorem errorHeader_append (p : Parser) (i j : Nat) (lines : List PrintedLine) :
    errorHeader p i ++
        (lines.map (·.write (getNumberLength (getLocation p.code j).lineno))).flatten =
      codeMessage p i j lines := by
  have hnewlines : ascii "\n\n" = [newline, newline] := rfl
  cases he : p.error <;>
    simp only [errorHeader, codeMessage, ← formatNat_toString, length_formatNat, write_eq,
      hnewlines, he]

section
variable {heap : Heap} {code : Bytes} {names : List Bytes} {p : Parser}

theorem parserPrintError_code {i j : Nat} {lines : List PrintedLine} (hs : p.error ≠ .none)
    (ha : p.error ≠ .illegalArgName ∧ p.error ≠ .duplicatedArgName)
    (hinfo : p.errorInfo = .code i j) (hlines : printedLines p.code i j = .ok lines) :
    parserPrintError p = .ok (codeMessage p i j lines) := by
  unfold parserPrintError
  split
  · exact absurd ‹_› hs
  · exact absurd ‹_› ha.1
  · exact absurd ‹_› ha.2
  · rw [hinfo, ErrorInfo.readCode]
    simp only [bind, Except.bind, hlines, errorHeader_append]
    rfl

/-- A range of the code is reported, and exactly its lines are shown. -/
theorem parserPrintError_lines (h : parseSlice heap code names = .ok p) (hs : p.error ≠ .none)
    (ha : p.error ≠ .illegalArgName ∧ p.error ≠ .duplicatedArgName) :
    ∃ i j lines, p.errorInfo = .code i j ∧ InCode code i j ∧
      printedLines code i j = .ok lines ∧ ShowsLines code i j lines ∧
      parserPrintError p = .ok (codeMessage p i j lines) := by
  obtain ⟨rfl, i, j, hinfo, hin⟩ := parseSlice_errorRange h hs ha
  obtain ⟨lines, hlines, -⟩ := printedLines_ok hin
  exact ⟨i, j, lines, hinfo, hin, hlines, showsLines hin hlines,
    parserPrintError_code hs ha hinfo hlines⟩

theorem parserPrintError_lines_unclosed :
    ∃ p, parseSlice Heap.unlimited (ascii "1+\n(2\n") [] = .ok p ∧
      ∃ i j lines, p.errorInfo = .code i j ∧ InCode (ascii "1+\n(2\n") i j ∧
        printedLines (ascii "1+\n(2\n") i j = .ok lines ∧
        ShowsLines (ascii "1+\n(2\n") i j lines ∧
        parserPrintError p = .ok (codeMessage p i j lines) := by
  obtain ⟨p, hp, herr⟩ := exists_of_map_eq_ok unclosed_error
  obtain ⟨he, -⟩ := Prod.mk.inj herr
  exact ⟨p, hp, parserPrintError_lines hp (by simp [he]) (by simp [he])⟩

/-- The message can be written for every parser that is returned. -/
theorem parserPrintError_ok (h : parseSlice heap code names = .ok p) :
    ∃ text, parserPrintError p = .ok text := by
  cases parseSlice_returned h with
  | argument _ herror hinfo hi =>
    unfold parserPrintError
    rcases herror with herror | herror <;>
      simp only [herror, hinfo, ErrorInfo.readArgIndex, readName, List.getElem?_eq_getElem hi] <;>
      exact ⟨_, rfl⟩
  | failed hf =>
    obtain ⟨i, j, hinfo, hin⟩ := hf.info
    obtain ⟨lines, hlines, -⟩ := printedLines_ok hin
    exact ⟨_, parserPrintError_code hf.error hf.notArgs hinfo (hf.code_eq ▸ hlines)⟩
  | done hd =>
    rw [parserPrintError, hd.error]
    exact ⟨_, rfl⟩

end

end ParserExample
