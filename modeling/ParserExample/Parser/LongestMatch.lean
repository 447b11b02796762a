import ParserExample.Library.Ranges
import ParserExample.Parser.Contract

/-!
# Longest match

What repeated calls of `parse_token` make of a code: every byte belongs to a
token, to white space or to a comment, and no token can be made longer. A number
or an identifier is a maximal range of the code, since none goes across the place
where the lexer begins to look for a token (`WordBoundary`).
-/

namespace ParserExample

open Library

-- ---------------------------------------------------------------------------
-- White space and comments
-- ---------------------------------------------------------------------------

/-- White space and comments in front of the rest of the code. A comment ends
before a newline or at the end of the code. -/
inductive Ignored (rest : Bytes) : Bytes → Prop
  | nil : Ignored rest []
  | space {sym gap} (h : isspace sym = true) (hg : Ignored rest gap) : Ignored rest (sym :: gap)
  | comment {body gap} (h : newline ∉ body)
      (hend : gap ++ rest = [] ∨ (gap ++ rest).head? = some newline) (hg : Ignored rest gap) :
      Ignored rest (byte '#' :: (body ++ gap))

theorem ignored_ignorable (code : Bytes) :
    Ignored (code.drop (ignorable false code)) (code.take (ignorable false code)) := by
  induction hn : code.length using Nat.strong_induction_on generalizing code with
  | _ n ih =>
    cases code with
    | nil => exact .nil
    | cons sym rest =>
      rw [List.length_cons] at hn
      rw [ignorable]
      split_ifs with hc hs
      · subst hc
        rw [List.take_succ_cons, List.drop_succ_cons, ignorable_true]
        generalize hk : (rest.takeWhile (· ≠ newline)).length = k
        have hbody : rest.takeWhile (· ≠ newline) = rest.take k := by
          rw [← hk]
          exact List.prefix_iff_eq_take.mp (List.takeWhile_prefix _)
        have hrest := ih _ (by rw [List.length_drop]; omega) (rest.drop k) rfl
        rw [List.take_add, ← List.drop_drop]
        refine .comment ?_ ?_ hrest
        · rw [← hbody]
          exact fun hmem => by simpa using List.mem_takeWhile_imp hmem
        · rw [List.take_append_drop, ← hk]
          cases hhead : (rest.drop (rest.takeWhile (· ≠ newline)).length).head? with
          | none => exact .inl (List.head?_eq_none_iff.mp hhead)
          | some sym => exact .inr (congrArg some (by simpa using head?_drop_takeWhile hhead))
      · rw [List.take_succ_cons, List.drop_succ_cons]
        exact .space hs (ih _ (by omega) rest rfl)
      · exact .nil

/-- White space ends a gap in front of a token. -/
theorem Ignored.getLast {rest gap : Bytes} {sym : UInt8} (h : Ignored rest gap)
    (hr : rest.head? = some sym) (hn : sym ≠ newline) (hg : gap ≠ []) :
    ∃ last, gap.getLast? = some last ∧ isspace last = true := by
  induction h with
  | nil => exact absurd rfl hg
  | @space sym' gap hs hgap ih =>
    cases gap with
    | nil => exact ⟨sym', rfl, hs⟩
    | cons a gap =>
      obtain ⟨last, hlast, hspace⟩ := ih (List.cons_ne_nil _ _)
      exact ⟨last, hlast, hspace⟩
  | @comment body gap _ hend _ ih =>
    cases gap with
    | nil =>
      rcases hend with hend | hend
      · rw [List.nil_append] at hend
        rw [hend] at hr
        cases hr
      · rw [List.nil_append, hr] at hend
        exact absurd (Option.some.inj hend) hn
    | cons a gap =>
      obtain ⟨last, hlast, hspace⟩ := ih (List.cons_ne_nil _ _)
      refine ⟨last, ?_, hspace⟩
      rw [← List.cons_append, List.getLast?_append, hlast]
      rfl

-- ---------------------------------------------------------------------------
-- Where words begin and end
-- ---------------------------------------------------------------------------

def IsNumber (text : Bytes) : Prop := text ≠ [] ∧ ∀ sym ∈ text, isDigit sym = true

/-- No number and no identifier goes across the position. -/
structure WordBoundary (code : Bytes) (i : Nat) : Prop where
  number : Boundary IsNumber code i
  ident : Boundary (isIdentifier · = true) code i

section
variable {code : Bytes} {sym : UInt8} {i j k : Nat}

theorem isIdentHead_iff : isIdentHead sym = true ↔
    (97 ≤ sym.toNat ∧ sym.toNat ≤ 122) ∨ (65 ≤ sym.toNat ∧ sym.toNat ≤ 90) ∨ sym.toNat = 95 := by
  simp [isIdentHead, byte, UInt8.le_iff_toNat_le, ← UInt8.toNat_inj, or_assoc]

theorem isspace_iff : isspace sym = true ↔
    (9 ≤ sym.toNat ∧ sym.toNat ≤ 13) ∨ sym.toNat = 32 := by
  simp [isspace, byte, UInt8.le_iff_toNat_le, ← UInt8.toNat_inj]

theorem not_isIdentHead_of_isDigit (h : isDigit sym = true) : isIdentHead sym = false := by
  have hd := isDigit_iff.mp h
  rw [← Bool.not_eq_true, isIdentHead_iff]
  omega

theorem not_isIdentTail_of_isspace (h : isspace sym = true) : isIdentTail sym = false := by
  have hs := isspace_iff.mp h
  rw [← Bool.not_eq_true, isIdentTail, Bool.or_eq_true, isDigit_iff, isIdentHead_iff]
  omega

theorem isIdentTail_of_isDigit (h : isDigit sym = true) : isIdentTail sym = true := by
  rw [isIdentTail, h, Bool.or_true]

theorem isIdentTail_of_isIdentHead (h : isIdentHead sym = true) : isIdentTail sym = true := by
  rw [isIdentTail, h, Bool.true_or]

theorem isIdentifier_cons {text : Bytes} :
    isIdentifier (sym :: text) = true ↔
      isIdentHead sym = true ∧ ∀ sym ∈ text, isIdentTail sym = true := by
  rw [isIdentifier, Bool.and_eq_true, List.headD_cons, List.tail_cons, List.all_eq_true]

theorem isIdentTail_of_isIdentifier {text : Bytes} (h : isIdentifier text = true) :
    ∀ sym ∈ text, isIdentTail sym = true := by
  cases text with
  | nil => rintro _ ⟨⟩
  | cons sym text =>
    obtain ⟨hhead, htail⟩ := isIdentifier_cons.mp h
    exact List.forall_mem_cons.mpr ⟨isIdentTail_of_isIdentHead hhead, htail⟩

theorem isIdentTail_of_isNumber {text : Bytes} (h : IsNumber text) :
    ∀ sym ∈ text, isIdentTail sym = true :=
  fun sym hmem => isIdentTail_of_isDigit (h.2 sym hmem)

theorem wordBoundary_zero (code : Bytes) : WordBoundary code 0 :=
  ⟨boundary_zero _ _, boundary_zero _ _⟩

theorem wordBoundary_of_before (hsym : code[k]? = some sym) (ht : isIdentTail sym = false) :
    WordBoundary code (k + 1) := by
  have hnot : ¬ isIdentTail sym = true := Bool.eq_false_iff.mp ht
  exact ⟨boundary_of_before (fun _ => isIdentTail_of_isNumber) hsym hnot,
    boundary_of_before (fun _ => isIdentTail_of_isIdentifier) hsym hnot⟩

theorem wordBoundary_of_at (h : ∀ sym, code[i]? = some sym → isIdentTail sym = false) :
    WordBoundary code i := by
  have hnot : ∀ sym, code[i]? = some sym → ¬ isIdentTail sym = true :=
    fun sym hsym => Bool.eq_false_iff.mp (h sym hsym)
  exact ⟨boundary_of_at (fun _ => isIdentTail_of_isNumber) hnot,
    boundary_of_at (fun _ => isIdentTail_of_isIdentifier) hnot⟩

/-- An identifier that goes on behind a number would start before or inside of it. -/
theorem WordBoundary.number_end (h : WordBoundary code i) (hij : i < j)
    (hn : IsNumber (slice code i j)) (hj : ∀ sym, code[j]? = some sym → isDigit sym = false) :
    WordBoundary code j := by
  refine ⟨boundary_of_at (fun _ hz => hz.2) fun sym hsym => Bool.eq_false_iff.mp (hj sym hsym), ?_⟩
  rintro i' j' hi' hj' hlen hident
  by_cases hlt : i' < i
  · exact h.ident i' j' hlt (hij.trans hj') hlen hident
  · have hsym := List.getElem?_eq_getElem (hi'.trans (Nat.lt_of_lt_of_le hj' hlen))
    have hdigit := hn.2 _ (mem_slice (Nat.le_of_not_lt hlt) hi' hsym)
    have hfirst : (slice code i' j')[i' - i']? = code[i']? :=
      getElem?_slice (le_refl i') (hi'.trans hj')
    rw [Nat.sub_self, hsym] at hfirst
    cases htext : slice code i' j' with
    | nil => simp [htext] at hfirst
    | cons sym text =>
      rw [htext] at hfirst hident
      obtain rfl := Option.some.inj hfirst
      have hhead := (isIdentifier_cons.mp hident).1
      rw [not_isIdentHead_of_isDigit hdigit] at hhead
      cases hhead

theorem WordBoundary.gap (h : WordBoundary code i) (hij : i ≤ j)
    (hg : Ignored (code.drop j) (slice code i j)) (hsym : code[j]? = some sym)
    (hn : sym ≠ newline) : WordBoundary code j := by
  rcases Nat.eq_or_lt_of_le hij with rfl | hlt
  · exact h
  · obtain ⟨k, rfl⟩ := Nat.exists_eq_add_of_lt hlt
    have hlen : i + k + 1 ≤ code.length := (List.getElem?_eq_some_iff.mp hsym).1.le
    have hlength := length_slice (i := i) hlen
    have hne : slice code i (i + k + 1) ≠ [] := by
      rw [← List.length_pos_iff, hlength]
      omega
    obtain ⟨last, hlast, hspace⟩ := hg.getLast (by rw [List.head?_drop, hsym]) hn hne
    rw [List.getLast?_eq_getElem?, hlength,
      show i + k + 1 - i - 1 = i + k - i by omega,
      getElem?_slice (Nat.le_add_right i k) (Nat.lt_succ_self _)] at hlast
    exact wordBoundary_of_before hlast (not_isIdentTail_of_isspace hspace)

end

-- ---------------------------------------------------------------------------
-- Tokens
-- ---------------------------------------------------------------------------

/-- The range of the token spells an operator or a parenthesis, all digits of a
number, which is the value, or a whole identifier, which is the name that is
stored. -/
inductive Spelled (code : Bytes) (s : Parser) : Prop
  | sign {sym} (htype : charType sym = some s.token.type)
      (h : slice code s.token.startIndex s.token.endIndex = [sym])
  | number (htype : s.token.type = .int)
      (h : MaximalRange IsNumber code s.token.startIndex s.token.endIndex)
      (hvalue : s.token.value.toInt = decimal (slice code s.token.startIndex s.token.endIndex))
  | ident (htype : s.token.type = .ident)
      (h : MaximalRange (isIdentifier · = true) code s.token.startIndex s.token.endIndex)
      (hname : s.tokenName = slice code s.token.startIndex s.token.endIndex)

/-- The token that the parser holds is the first behind `lo`. -/
structure FirstToken (code : Bytes) (lo : Nat) (s : Parser) : Prop where
  le : lo ≤ s.token.startIndex
  lt : s.token.startIndex < s.token.endIndex
  le_length : s.token.endIndex ≤ code.length
  gap : Ignored (code.drop s.token.startIndex) (slice code lo s.token.startIndex)
  spelled : Spelled code s

def StartsWord (sym : UInt8) : Prop :=
  (charType sym).isSome = true ∨ isDigit sym = true ∨ isIdentHead sym = true

structure FirstByte (code : Bytes) (lo i : Nat) (sym : UInt8) : Prop where
  le : lo ≤ i
  gap : Ignored (code.drop i) (slice code lo i)
  get : code[i]? = some sym
  stops : sym ≠ byte '#' ∧ isspace sym = false

/-- Why no word is read at a byte: it begins none, or it begins a number that a `long`
has no room for, or an identifier that the buffer is refused memory for. -/
inductive Unreadable (code : Bytes) (i : Nat) (sym : UInt8) : ParserError → Prop
  | illegalCharacter (h : ¬ StartsWord sym) : Unreadable code i sym .illegalCharacter
  | valueOutOfRange (hdigit : isDigit sym = true)
      (h : maxLiteral < decimal ((code.drop i).takeWhile isDigit)) :
      Unreadable code i sym .valueOutOfRange
  | outOfMemory (hhead : isIdentHead sym = true) : Unreadable code i sym .outOfMemory

/-- How a call of `parse_token` behind `lo` ends that reads no word: at the end of
the code, with an error, or with an identifier that the buffer is too short for
even when it is enlarged. -/
inductive LexerStops (code : Bytes) (lo : Nat) : EStateM.Result Halt Parser Unit → Prop
  | eof {s} (htype : s.token.type = .eof) (hstart : s.token.startIndex = code.length)
      (hend : s.token.endIndex = code.length) (h : Ignored [] (code.drop lo)) :
      LexerStops code lo (.ok () s)
  | error {s i j sym} (h : FirstByte code lo i sym) (hstate : s.state = .error)
      (hinfo : s.errorInfo = .code i j) (herror : Unreadable code i sym s.error)
      (hillegal : s.error = .illegalCharacter ↔ ¬ StartsWord sym) :
      LexerStops code lo (.error .returnFalse s)
  | overrun {s i sym} (h : FirstByte code lo i sym) (hhead : isIdentHead sym = true)
      (hshort : s.buffer.capacity < ((code.drop i).takeWhile isIdentTail).length)
      (hlong : newCapacity s.buffer.capacity < ((code.drop i).takeWhile isIdentTail).length) :
      LexerStops code lo (.error (.fault .overrun) s)

section
variable {s : Parser} {sym : UInt8}

structure ReadsWord (s s' : Parser) : Prop where
  token : FirstToken s.code s.index s'
  notEof : s'.token.type ≠ .eof
  code : s'.code = s.code
  inv : s'.buffer.Inv
  index : s'.index = s'.token.endIndex
  boundary : WordBoundary s'.code s'.index

theorem skip_cases (hb : WordBoundary s.code s.index) :
    (s.code[(parserSkipIgnoreable s).index]? = none ∧ Ignored [] (s.code.drop s.index)) ∨
    ∃ sym, FirstByte s.code s.index (parserSkipIgnoreable s).index sym ∧
      WordBoundary s.code (parserSkipIgnoreable s).index := by
  have hindex : (parserSkipIgnoreable s).index = s.index + ignorable false (s.code.drop s.index) :=
    skipIgnoreable_eq (Nat.le_refl _)
  have hgap := ignored_ignorable (s.code.drop s.index)
  have hstops := @ignorable_stops false (s.code.drop s.index)
  rw [List.drop_drop] at hgap hstops
  rw [← slice_add, ← hindex] at hgap
  rw [← hindex] at hstops
  have hle : s.index ≤ (parserSkipIgnoreable s).index := hindex ▸ Nat.le_add_right _ _
  generalize (parserSkipIgnoreable s).index = i at *
  cases hsym : s.code[i]? with
  | none =>
    refine .inl ⟨rfl, ?_⟩
    have hlen := List.getElem?_eq_none_iff.mp hsym
    rwa [List.drop_eq_nil_of_le hlen, slice, List.take_of_length_le hlen] at hgap
  | some sym =>
    have hstop := hstops (by rw [List.head?_drop, hsym])
    have hnewline : sym ≠ newline := by
      rintro rfl
      exact absurd hstop.2 (by decide)
    exact .inr ⟨sym, ⟨hle, hgap, hsym, hstop⟩, hb.gap hle hgap hsym hnewline⟩

/-- A name overruns the buffer only if it does not fit the enlarged buffer. Behind the
name there is room for its terminator, or the buffer is enlarged. -/
theorem parseIdent_overrun (hinv : s.buffer.Inv) : Meets parseIdent s (fun _ _ => True)
    (fun e s' => e = .fault .overrun →
      s'.buffer.capacity < ((s.code.drop s.index).takeWhile isIdentTail).length ∧
      newCapacity s'.buffer.capacity < ((s.code.drop s.index).takeWhile isIdentTail).length) := by
  have happend {s : Parser} (hinv : s.buffer.Inv) (chunk : Bytes) :
      Meets (parserBufferAppend (bufferAppend · · chunk)) s
        (fun _ s' => s'.buffer.Inv ∧ s'.buffer.used = s.buffer.used + chunk.length)
        (fun e s' => e = .fault .overrun → s'.buffer.capacity < s.buffer.used + chunk.length ∧
          newCapacity s'.buffer.capacity < s.buffer.used + chunk.length ∧ s' = s) := by
    unfold Meets
    rcases parserBufferAppend_cases hinv chunk with
      ⟨s', hr, -⟩ | ⟨hr, hlt, hlt'⟩ | ⟨buffer, heap, hr, hinv', -, hused, -⟩
    · rw [hr]
      rintro ⟨⟩
    · rw [hr]
      exact fun _ => ⟨hlt, hlt', rfl⟩
    · rw [hr]
      exact ⟨hinv', hused⟩
  unfold parseIdent
  refine meets_modify_bind (meets_get_bind ?_)
  dsimp only
  generalize hname : (s.code.drop s.index).takeWhile isIdentTail = name
  have hindex : advanceWhile isIdentTail s.code s.index - s.index = name.length := by
    rw [advanceWhile, hname, Nat.add_sub_cancel_left]
  have hlen : ((s.code.drop s.index).take name.length).length = name.length := by
    rw [List.length_take, ← hname]
    exact min_eq_left (List.takeWhile_prefix _).length_le
  rw [hindex]
  have hfirst := happend (s := { s with
    index := advanceWhile isIdentTail s.code s.index
    token := { s.token with
      startIndex := s.index, endIndex := advanceWhile isIdentTail s.code s.index }
    buffer := bufferClear s.buffer }) hinv.clear ((s.code.drop s.index).take name.length)
  simp only [bufferClear, Nat.zero_add, hlen] at hfirst
  refine Meets.bind (hfirst.mono (fun _ _ _ h => h) fun e s' h he => ⟨(h he).1, (h he).2.1⟩) ?_
  rintro _ s₁ - ⟨hinv₁, hused₁⟩
  refine Meets.bind ((happend hinv₁ [0]).mono (fun _ _ _ h => h) fun e s' h he => ?_) ?_
  · obtain ⟨hlt, hlt', rfl⟩ := h he
    have hle := hinv₁.used_le
    rw [List.length_singleton] at hlt hlt'
    unfold newCapacity bufsiz at hlt'
    split at hlt' <;> omega
  · exact fun _ s₂ _ _ => meets_modify trivial

theorem not_isIdentTail_of_charType {type : TokenType} (h : charType sym = some type) :
    isIdentTail sym = false := by
  unfold charType at h
  split_ifs at h <;> subst sym <;> decide

section
variable (hinv : s.buffer.Inv)
  (hfirst : FirstByte s.code s.index (parserSkipIgnoreable s).index sym)
  (hb : WordBoundary s.code (parserSkipIgnoreable s).index)
include hinv hfirst

theorem parseToken_sign {type : TokenType} (htype : charType sym = some type) :
    ∃ s', parseToken s = .ok () s' ∧ ReadsWord s s' := by
  have hsym := hfirst.get
  have hsym' : (parserSkipIgnoreable s).code[(parserSkipIgnoreable s).index]? = some sym := hsym
  unfold parseToken
  simp only [proc_modify_bind, proc_get_bind, hsym', htype]
  exact ⟨_, rfl, ⟨hfirst.le, Nat.lt_succ_self _, (List.getElem?_eq_some_iff.mp hsym).1, hfirst.gap,
    .sign htype (slice_singleton hsym)⟩, charType_ne_eof htype, rfl, hinv, rfl,
    wordBoundary_of_before hsym (not_isIdentTail_of_charType htype)⟩

include hb

theorem parseToken_number (hd : isDigit sym = true) :
    (∃ s', parseToken s = .ok () s' ∧ ReadsWord s s') ∨
      LexerStops s.code s.index (parseToken s) := by
  obtain ⟨hlt, hle, hslice, hbehind⟩ := takeWhile_range hfirst.get hd rfl
  rw [parseToken_digit hfirst.get hd]
  by_cases hfits : decimal ((s.code.drop (parserSkipIgnoreable s).index).takeWhile isDigit) ≤
      maxLiteral
  · have hnumber : IsNumber ((s.code.drop (parserSkipIgnoreable s).index).takeWhile isDigit) := by
      refine ⟨fun hnil => ?_, fun sym hmem => List.mem_takeWhile_imp hmem⟩
      rw [hnil] at hlt
      exact absurd hlt (lt_irrefl _)
    rw [← hslice] at hnumber
    have hmax := hb.number.maximalRange (fun _ hz => hz.2) hlt hnumber
      fun x hx => Bool.eq_false_iff.mp (hbehind x hx)
    rw [@parseInt_fits (parserSkipIgnoreable s) _ rfl hfits]
    have hvalue := (toInt_ofNat hfits).trans
      (congrArg (fun text => (decimal text : Int)) hslice.symm)
    refine .inl ⟨_, rfl, ⟨hfirst.le, hlt, hle, hfirst.gap, .number rfl hmax ?_⟩, ?_, rfl, hinv,
      rfl, hb.number_end hlt hnumber hbehind⟩
    · exact hvalue
    · rintro ⟨⟩
  · obtain ⟨n, -, -, -, s', hs', hstate, herror, hinfo⟩ :=
      @parseInt_exceeds (parserSkipIgnoreable s) _ rfl (Nat.not_le.mp hfits)
    rw [hs']
    refine .inr (.error hfirst hstate hinfo ?_ (iff_of_false ?_ (not_not.mpr (.inr (.inl hd)))))
    · rw [herror]
      exact .valueOutOfRange hd (Nat.not_le.mp hfits)
    · rw [herror]
      rintro ⟨⟩

omit hinv in
theorem readsWord_ident {name : Bytes} {s' : Parser} (hh : isIdentHead sym = true)
    (hname : (s.code.drop (parserSkipIgnoreable s).index).takeWhile isIdentTail = name)
    (hread : Scanned (parserSkipIgnoreable s) ⟨.ident name, (parserSkipIgnoreable s).index⟩ s') :
    ReadsWord s s' := by
  have hsym := hfirst.get
  obtain ⟨hlt, hle, hslice, hbehind⟩ := takeWhile_range hsym (isIdentTail_of_isIdentHead hh) rfl
  rw [hname] at hlt hle hslice hbehind
  have hident : isIdentifier name = true := by
    obtain ⟨hlt', hget⟩ := List.getElem?_eq_some_iff.mp hsym
    rw [List.drop_eq_getElem_cons hlt', hget, takeWhile_identTail hh] at hname
    rw [← hname]
    exact isIdentifier_cons.mpr ⟨hh, fun _ hmem => List.mem_takeWhile_imp hmem⟩
  rw [← hslice] at hident
  obtain ⟨htype', hstart, hend, -, hstored⟩ := hread.shown
  have htype' : s'.token.type = .ident := (Option.some.inj htype').symm
  have hmax := hb.ident.maximalRange (fun _ => isIdentTail_of_isIdentifier) hlt hident
    fun x hx => Bool.eq_false_iff.mp (hbehind x hx)
  have hbound := wordBoundary_of_at hbehind
  change s'.token.startIndex = (parserSkipIgnoreable s).index at hstart
  change s'.token.endIndex = (parserSkipIgnoreable s).index + name.length at hend
  rw [← hend] at hlt hle hslice hmax hbound
  rw [← hstart] at hlt hslice hmax
  have hindex : s'.index = s'.token.endIndex := hread.index.trans hend.symm
  refine ⟨⟨hstart ▸ hfirst.le, hlt, hle, hstart ▸ hfirst.gap, .ident htype' hmax ?_⟩, ?_,
    hread.code, hread.inv, hindex, ?_⟩
  · rw [hslice]
    exact hstored name rfl
  · rw [htype']
    rintro ⟨⟩
  · rw [hindex, hread.code]
    exact hbound

theorem parseToken_ident (htype : charType sym = none) (hh : isIdentHead sym = true) :
    (∃ s', parseToken s = .ok () s' ∧ ReadsWord s s') ∨
      LexerStops s.code s.index (parseToken s) := by
  have hsym : (parserSkipIgnoreable s).code[(parserSkipIgnoreable s).index]? = some sym :=
    hfirst.get
  have hd : isDigit sym = false := by
    by_contra hd
    rw [not_isIdentHead_of_isDigit (Bool.not_eq_false _ ▸ hd)] at hh
    cases hh
  have htoken : parseToken s = parseIdent (parserSkipIgnoreable s) := by
    unfold parseToken
    simp only [proc_modify_bind, proc_get_bind, hsym, htype, hd, hh, Bool.false_eq_true, if_false,
      if_true]
  have hstarts : StartsWord sym := .inr (.inr hh)
  generalize hname : (s.code.drop (parserSkipIgnoreable s).index).takeWhile isIdentTail = name at *
  have hne : name ≠ [] := by
    rintro rfl
    obtain ⟨hlt, -⟩ := takeWhile_range hfirst.get (isIdentTail_of_isIdentHead hh) rfl
    rw [hname] at hlt
    exact absurd hlt (lt_irrefl _)
  have hends := @parseIdent_ends (parserSkipIgnoreable s)
    (some ⟨.ident name, (parserSkipIgnoreable s).index⟩) name hinv hne hname fun _ => rfl
  have hrefused := @parseIdent_refused (parserSkipIgnoreable s)
  have hoverrun := @parseIdent_overrun (parserSkipIgnoreable s) hinv
  rw [htoken]
  unfold Meets at hrefused hoverrun
  generalize parseIdent (parserSkipIgnoreable s) = r at hends hrefused hoverrun ⊢
  generalize hscan : scan _ _ = q at hends
  cases hends with
  | @ok _ l s' hread =>
    obtain rfl : ⟨.ident name, (parserSkipIgnoreable s).index⟩ = l := by
      unfold scan at hscan
      split at hscan
      · exact Except.ok.inj hscan
      · cases hscan
    exact .inl ⟨s', rfl, readsWord_ident hfirst hb hh hname hread⟩
  | outOfMemory =>
    obtain ⟨hstate, herror, j, hinfo⟩ := hrefused rfl
    refine .inr (.error hfirst hstate hinfo ?_ (iff_of_false ?_ (not_not.mpr hstarts)))
    · rw [herror]
      exact .outOfMemory hh
    · rw [herror]
      rintro ⟨⟩
  | stopped hl hw =>
    obtain rfl := Option.some.inj hl
    exact absurd rfl (hw name)
  | overrun =>
    obtain ⟨hshort, hlong⟩ := hoverrun rfl
    exact .inr (.overrun hfirst hh hshort hlong)
  | failed | fuel =>
    unfold scan at hscan
    split at hscan <;> cases hscan

end

/-- A call of `parse_token` reads the first word behind the index, or stops. -/
theorem parseToken_cases (hinv : s.buffer.Inv) (hb : WordBoundary s.code s.index) :
    (∃ s', parseToken s = .ok () s' ∧ ReadsWord s s') ∨
      LexerStops s.code s.index (parseToken s) := by
  rcases skip_cases hb with ⟨hnone, hgap⟩ | ⟨sym, hfirst, hb'⟩
  · have hnone' : (parserSkipIgnoreable s).code[(parserSkipIgnoreable s).index]? = none := hnone
    unfold parseToken
    simp only [proc_modify_bind, proc_get_bind, hnone']
    exact .inr (.eof rfl rfl rfl hgap)
  · cases htype : charType sym with
    | some type => exact .inl (parseToken_sign hinv hfirst htype)
    | none =>
      by_cases hd : isDigit sym = true
      · exact parseToken_number hinv hfirst hb' hd
      by_cases hh : isIdentHead sym = true
      · exact parseToken_ident hinv hfirst hb' htype hh
      have hsym' : (parserSkipIgnoreable s).code[(parserSkipIgnoreable s).index]? = some sym :=
        hfirst.get
      unfold parseToken
      simp only [proc_modify_bind, proc_get_bind, hsym', htype, hd, hh, Bool.false_eq_true,
        if_false]
      have hnone : ¬ StartsWord sym := by simp [StartsWord, htype, hd, hh]
      exact .inr (.error hfirst rfl rfl (.illegalCharacter hnone) (iff_of_true rfl hnone))

end

-- ---------------------------------------------------------------------------
-- All tokens
-- ---------------------------------------------------------------------------

/-- Calls of `parse_token` until the end of the code or an error: the parser behind
each word, and how the last call ends. The first argument bounds their number. -/
def readTokens : Nat → Parser → List Parser × EStateM.Result Halt Parser Unit
  | 0, s => ([], .error (.fault .fuel) s)
  | fuel + 1, s =>
    match parseToken s with
    | .ok () s' =>
      if s'.token.type = .eof then ([], .ok () s')
      else
        let (tokens, result) := readTokens fuel s'
        (s' :: tokens, result)
    | result => ([], result)

/-- Each token is the first behind the one before it, and the first of them is the
first behind `lo`. The last one ends at `hi`. -/
inductive TokensBetween (code : Bytes) : Nat → List Parser → Nat → Prop
  | nil {lo} : TokensBetween code lo [] lo
  | cons {lo s tokens hi} (h : FirstToken code lo s)
      (ht : TokensBetween code s.token.endIndex tokens hi) : TokensBetween code lo (s :: tokens) hi

theorem TokensBetween.lo_le {code : Bytes} {lo hi : Nat} {tokens : List Parser}
    (h : TokensBetween code lo tokens hi) :
    ∀ s ∈ tokens, lo ≤ s.token.startIndex ∧ s.token.startIndex < s.token.endIndex := by
  induction h with
  | nil => simp
  | cons h _ ih =>
    refine List.forall_mem_cons.mpr ⟨⟨h.le, h.lt⟩, fun s hs => ?_⟩
    exact ⟨h.le.trans (h.lt.le.trans (ih s hs).1), (ih s hs).2⟩

theorem TokensBetween.pairwise {code : Bytes} {lo hi : Nat} {tokens : List Parser}
    (h : TokensBetween code lo tokens hi) :
    tokens.Pairwise fun s s' => s.token.endIndex ≤ s'.token.startIndex := by
  induction h with
  | nil => exact .nil
  | cons _ ht ih => exact .cons (fun s' hs' => (ht.lo_le s' hs').1) ih

theorem readTokens_between {code : Bytes} {s : Parser} {fuel : Nat} (hcode : s.code = code)
    (hinv : s.buffer.Inv) (hb : WordBoundary s.code s.index) (hf : code.length < s.index + fuel)
    (hi : s.index ≤ code.length) :
    ∃ hi, TokensBetween code s.index (readTokens fuel s).1 hi ∧
      LexerStops code hi (readTokens fuel s).2 := by
  induction fuel generalizing s with
  | zero => omega
  | succ fuel ih =>
    subst hcode
    rw [readTokens]
    rcases parseToken_cases hinv hb with ⟨s', hs', hread⟩ | hstop
    · simp only [hs', if_neg hread.notEof]
      have hlt := hread.token.lt
      have hle := hread.token.le
      have hindex := hread.index
      obtain ⟨hi', hbetween, hstop⟩ := ih hread.code hread.inv hread.boundary (by omega)
        (by rw [hindex]; exact hread.token.le_length)
      rw [hindex] at hbetween
      exact ⟨hi', .cons hread.token hbetween, hstop⟩
    · refine ⟨s.index, ?_⟩
      generalize parseToken s = r at hstop
      cases hstop with
      | eof htype hstart hend h =>
        simp only [htype, if_true]
        exact ⟨.nil, .eof htype hstart hend h⟩
      | error h hstate hinfo herror hillegal =>
        exact ⟨.nil, .error h hstate hinfo herror hillegal⟩
      | overrun h hhead hshort hlong => exact ⟨.nil, .overrun h hhead hshort hlong⟩

/-- The lexer cuts a code into its longest words. -/
theorem readTokens_longestMatch (heap : Heap) (code : Bytes) (names : List Bytes) :
    let run := readTokens (code.length + 1) (Parser.init heap code names)
    ∃ hi, TokensBetween code 0 run.1 hi ∧ LexerStops code hi run.2 ∧
      run.1.Pairwise fun s s' => s.token.endIndex ≤ s'.token.startIndex := by
  have h := @readTokens_between code (Parser.init heap code names) (code.length + 1) rfl
    Buffer.inv_init (wordBoundary_zero code) (by show _ < 0 + _; omega) (Nat.zero_le _)
  obtain ⟨hi, hbetween, hstop⟩ := h
  exact ⟨hi, hbetween, hstop, hbetween.pairwise⟩

end ParserExample
