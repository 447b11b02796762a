import ParserExample.Parser

/-!
# What the code is made of

The specification of the lexer: the code is cut into words by longest match,
with white space and comments skipped, up to its end or to a character that
starts no word. `readable` is the part that the lexer can hand on: it stops at
an illegal character, at a number above `LONG_MAX` and at a name that the
buffer, enlarged once, has no room for.
-/

namespace ParserExample

/-- `illegal` is a character that starts no word. -/
inductive Word
  | plus | minus | mul | div | parenOpen | parenClose
  | int (digits : Bytes)
  | ident (name : Bytes)
  | eof
  | illegal (sym : UInt8)
  deriving DecidableEq, Repr

structure Lexeme where
  word : Word
  startIndex : Nat
  deriving DecidableEq, Repr

namespace Word

def length : Word → Nat
  | .int digits => digits.length
  | .ident name => name.length
  | .eof => 0
  | _ => 1

/-- Nothing is read behind the end of the code or an illegal character. -/
def isLast : Word → Bool
  | .eof | .illegal _ => true
  | _ => false

end Word

namespace Lexeme

def endIndex (l : Lexeme) : Nat := l.startIndex + l.word.length

def range (l : Lexeme) : Nat × Nat := (l.startIndex, l.endIndex)

end Lexeme

-- ---------------------------------------------------------------------------
-- Longest match
-- ---------------------------------------------------------------------------

/-- The number of bytes of white space and comments at the front. The flag says
whether the code starts inside a comment, which ends at a newline. -/
def ignorable : Bool → Bytes → Nat
  | _, [] => 0
  | true, sym :: rest => ignorable (sym ≠ newline) rest + 1
  | false, sym :: rest =>
    if sym = byte '#' then ignorable true rest + 1
    else if isspace sym then ignorable false rest + 1
    else 0

def longestMatch : Bytes → Word
  | [] => .eof
  | sym :: rest =>
    if sym = byte '+' then .plus
    else if sym = byte '-' then .minus
    else if sym = byte '*' then .mul
    else if sym = byte '/' then .div
    else if sym = byte '(' then .parenOpen
    else if sym = byte ')' then .parenClose
    else if isDigit sym then .int (sym :: rest.takeWhile isDigit)
    else if isIdentHead sym then .ident (sym :: rest.takeWhile isIdentTail)
    else .illegal sym

theorem length_longestMatch {code : Bytes} (h : (longestMatch code).isLast = false) :
    0 < (longestMatch code).length ∧ code ≠ [] := by
  cases code with
  | nil => simp [longestMatch, Word.isLast] at h
  | cons sym rest =>
    refine ⟨?_, by simp⟩
    simp only [longestMatch] at h ⊢
    split_ifs at h ⊢ <;> simp_all [Word.length, Word.isLast]

def firstLexeme (offset : Nat) (code : Bytes) : Lexeme :=
  let gap := ignorable false code
  ⟨longestMatch (code.drop gap), offset + gap⟩

def afterFirst (code : Bytes) : Bytes :=
  let gap := ignorable false code
  code.drop (gap + (longestMatch (code.drop gap)).length)

theorem length_afterFirst {offset : Nat} {code : Bytes}
    (h : ¬ (firstLexeme offset code).word.isLast = true) :
    (afterFirst code).length < code.length := by
  obtain ⟨hpos, hne⟩ := length_longestMatch (by simpa [firstLexeme] using h)
  rw [ne_eq, List.drop_eq_nil_iff] at hne
  simp only [afterFirst, List.length_drop]
  omega

theorem ignorable_le (comment : Bool) (code : Bytes) : ignorable comment code ≤ code.length := by
  induction code generalizing comment with
  | nil => rfl
  | cons sym rest ih =>
    cases comment with
    | true => simpa [ignorable] using ih _
    | false =>
      simp only [ignorable]
      split_ifs
      · simpa using ih _
      · simpa using ih _
      · exact Nat.zero_le _

theorem ignorable_stops (comment : Bool) {code : Bytes} {sym : UInt8}
    (h : (code.drop (ignorable comment code)).head? = some sym) :
    sym ≠ byte '#' ∧ isspace sym = false := by
  induction code generalizing comment with
  | nil => cases comment <;> simp [ignorable] at h
  | cons sym' rest ih =>
    cases comment with
    | true => exact ih _ (by simpa [ignorable] using h)
    | false =>
      simp only [ignorable] at h
      split_ifs at h with hc hs
      · exact ih true (by simpa using h)
      · exact ih false (by simpa using h)
      · obtain rfl : sym' = sym := by simpa using h
        exact ⟨hc, Bool.eq_false_iff.mpr hs⟩

theorem length_longestMatch_le (code : Bytes) : (longestMatch code).length ≤ code.length := by
  cases code with
  | nil => rfl
  | cons sym rest =>
    simp only [longestMatch]
    split_ifs <;> simp [Word.length, (List.takeWhile_prefix _).length_le]

theorem endIndex_firstLexeme_le {code : Bytes} {index : Nat} (h : index ≤ code.length) :
    (firstLexeme index (code.drop index)).endIndex ≤ code.length := by
  have hgap := ignorable_le false (code.drop index)
  have hlen := length_longestMatch_le ((code.drop index).drop (ignorable false (code.drop index)))
  simp only [List.length_drop] at hgap hlen
  simp only [firstLexeme, Lexeme.endIndex]
  omega

def lexemesFrom (offset : Nat) (code : Bytes) : List Lexeme :=
  let l := firstLexeme offset code
  if l.word.isLast then [l] else l :: lexemesFrom l.endIndex (afterFirst code)
termination_by code.length
decreasing_by exact length_afterFirst ‹_›

/-- Every word but the last takes a byte of the code. -/
theorem length_lexemesFrom_le (offset : Nat) (code : Bytes) :
    (lexemesFrom offset code).length ≤ code.length + 1 := by
  fun_induction lexemesFrom offset code with
  | case1 => simp
  | case2 offset code l hl ih =>
    have := length_afterFirst hl
    rw [List.length_cons]
    omega

/-- Nothing comes behind a last word. -/
theorem lexemesFrom_last {offset : Nat} {code : Bytes} {front back : List Lexeme} {l : Lexeme}
    (h : lexemesFrom offset code = front ++ l :: back) (hl : l.word.isLast = true) : back = [] := by
  fun_induction lexemesFrom offset code generalizing front with
  | case1 =>
    cases front with
    | nil => simp_all
    | cons a front => simp at h
  | case2 =>
    rename_i offset code first hfirst ih
    cases front with
    | nil =>
      obtain ⟨rfl, -⟩ := List.cons_eq_cons.mp h
      exact absurd hl hfirst
    | cons a front => exact ih (List.cons_eq_cons.mp h).2

def lexemes (code : Bytes) : List Lexeme := lexemesFrom 0 code

def words (code : Bytes) : List Word := (lexemes code).map Lexeme.word

-- ---------------------------------------------------------------------------
-- Numbers
-- ---------------------------------------------------------------------------

def digitValue (sym : UInt8) : Nat := (sym - byte '0').toNat

def decimal (digits : Bytes) : Nat := Nat.ofDigits 10 (digits.reverse.map digitValue)

theorem decimal_concat (digits : Bytes) (sym : UInt8) :
    decimal (digits ++ [sym]) = decimal digits * 10 + digitValue sym := by
  simp [decimal, Nat.ofDigits_cons, mul_comm, add_comm]

/-- `LONG_MAX` as a number. -/
def maxLiteral : Nat := 2 ^ 63 - 1

-- ---------------------------------------------------------------------------
-- What the lexer can hand on
-- ---------------------------------------------------------------------------

/-- Whether the lexer gets past a word, with a buffer of `capacity` bytes. -/
def Word.isReadable (capacity : Nat) : Word → Bool
  | .int digits => decimal digits ≤ maxLiteral
  | .ident name => name.length ≤ capacity || name.length ≤ newCapacity capacity
  | .illegal _ => false
  | _ => true

/-- The capacity an append of `size` bytes to the empty buffer leaves. -/
def capacityFor (capacity size : Nat) : Nat :=
  if size ≤ capacity then capacity else newCapacity capacity

/-- The capacity behind a word: a name is stored with its terminator. -/
def Word.capacityAfter (capacity : Nat) : Word → Nat
  | .ident name => capacityFor (capacityFor capacity name.length) (name.length + 1)
  | _ => capacity

/-- The lexemes before the first one that the lexer does not get past, and that
one. -/
def readable : Nat → List Lexeme → List Lexeme × Option Lexeme
  | _, [] => ([], none)
  | capacity, l :: rest =>
    if l.word.isReadable capacity then
      let (tokens, stop) := readable (l.word.capacityAfter capacity) rest
      (l :: tokens, stop)
    else ([], some l)

theorem isReadable_of_mem {capacity : Nat} {ls : List Lexeme} {l : Lexeme}
    (h : l ∈ (readable capacity ls).1) : ∃ capacity', l.word.isReadable capacity' = true := by
  induction ls generalizing capacity with
  | nil => simp [readable] at h
  | cons a ls ih =>
    rw [readable] at h
    split at h
    · rename_i ha
      rcases List.mem_cons.mp h with rfl | h
      · exact ⟨capacity, ha⟩
      · exact ih h
    · simp at h

theorem isReadable_of_stop {capacity : Nat} {ls : List Lexeme} {l : Lexeme}
    (h : (readable capacity ls).2 = some l) : ∃ capacity', l.word.isReadable capacity' = false := by
  induction ls generalizing capacity with
  | nil => simp [readable] at h
  | cons a ls ih =>
    rw [readable] at h
    split at h
    · exact ih h
    · rename_i ha
      obtain rfl : a = l := by simpa using h
      exact ⟨capacity, by simpa using ha⟩

/-- The lexemes of the code that the lexer hands on. -/
def legible (code : Bytes) : List Lexeme := (readable 0 (lexemes code)).1

/-- The lexeme of the code that the lexer does not get past. -/
def obstacle (code : Bytes) : Option Lexeme := (readable 0 (lexemes code)).2

theorem readable_prefix (capacity : Nat) (ls : List Lexeme) :
    ∃ rest, ls = (readable capacity ls).1 ++ rest ∧ (readable capacity ls).2 = rest.head? := by
  induction ls generalizing capacity with
  | nil => exact ⟨[], rfl, rfl⟩
  | cons a ls ih =>
    rw [readable]
    split
    · obtain ⟨rest, hls, hstop⟩ := ih (a.word.capacityAfter capacity)
      exact ⟨rest, congrArg (a :: ·) hls, hstop⟩
    · exact ⟨a :: ls, rfl, rfl⟩

theorem lexemes_eq (code : Bytes) :
    ∃ rest, lexemes code = legible code ++ rest ∧ obstacle code = rest.head? :=
  readable_prefix 0 (lexemes code)

theorem legible_eof {code : Bytes} {front back : List Lexeme} {l : Lexeme}
    (h : legible code = front ++ l :: back) (hl : l.word = .eof) :
    back = [] ∧ lexemes code = front ++ [l] ∧ obstacle code = none := by
  obtain ⟨rest, hrest, hstop⟩ := lexemes_eq code
  rw [h, List.append_assoc, List.cons_append] at hrest
  have hback := lexemesFrom_last hrest (by rw [hl]; rfl)
  obtain ⟨rfl, rfl⟩ := List.append_eq_nil_iff.mp hback
  exact ⟨rfl, hrest, hstop⟩

end ParserExample
