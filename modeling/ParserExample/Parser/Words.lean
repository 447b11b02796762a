import ParserExample.Grammar
import ParserExample.Parser.Lexing

/-!
# The words of a text

What the words of a text are, given its first word.
-/

namespace ParserExample

open Library

theorem map_word_lexemesFrom (offset : Nat) (code : Bytes) :
    (lexemesFrom offset code).map Lexeme.word = words code := by
  have h (i j : Nat) :
      (lexemesFrom i code).map Lexeme.word = (lexemesFrom j code).map Lexeme.word := by
    fun_induction lexemesFrom i code generalizing j with
    | case1 i code l hl =>
      rw [lexemesFrom.eq_def j, if_pos (show (firstLexeme j code).word.isLast = true from hl)]
      rfl
    | case2 i code l hl ih =>
      rw [lexemesFrom.eq_def j, if_neg (show ¬ (firstLexeme j code).word.isLast = true from hl),
        List.map_cons, List.map_cons, ih (firstLexeme j code).endIndex]
      rfl
  exact h offset 0

theorem words_eq (code : Bytes) : words code =
    let w := longestMatch (code.drop (ignorable false code))
    if w.isLast then [w] else w :: words (afterFirst code) := by
  rw [words, lexemes, lexemesFrom, apply_ite (List.map Lexeme.word)]
  simp only [List.map_cons, List.map_nil, map_word_lexemesFrom]
  rfl

theorem words_nil : words [] = [.eof] := by
  rw [words_eq]
  rfl

theorem words_append {front rest : Bytes} {w : Word} (hgap : ignorable false (front ++ rest) = 0)
    (hw : longestMatch (front ++ rest) = w) (hlast : w.isLast = false)
    (hlen : w.length = front.length) : words (front ++ rest) = w :: words rest := by
  rw [words_eq]
  simp only [hgap, List.drop_zero, hw, hlast, afterFirst, hlen, Nat.zero_add, List.drop_left]
  rfl

theorem words_space (rest : Bytes) : words (byte ' ' :: rest) = words rest := by
  have hgap : ignorable false (byte ' ' :: rest) = ignorable false rest + 1 := by
    simp [ignorable, show byte ' ' ≠ byte '#' by decide, show isspace (byte ' ') = true by decide]
  rw [words_eq, words_eq rest]
  simp only [afterFirst, hgap, List.drop_succ_cons, Nat.add_right_comm _ 1]

theorem words_sym {sym : UInt8} {w : Word} (rest : Bytes)
    (hspace : isspace sym = false ∧ sym ≠ byte '#')
    (hw : ∀ rest, longestMatch (sym :: rest) = w) (hlast : w.isLast = false) (hlen : w.length = 1) :
    words (sym :: rest) = w :: words rest :=
  @words_append [sym] rest w (by simp [ignorable, hspace]) (hw rest) hlast hlen

theorem words_minus (rest : Bytes) : words (byte '-' :: rest) = .minus :: words rest :=
  words_sym rest (by decide) (fun _ => rfl) rfl rfl

theorem words_parenOpen (rest : Bytes) : words (byte '(' :: rest) = .parenOpen :: words rest :=
  words_sym rest (by decide) (fun _ => rfl) rfl rfl

theorem words_parenClose (rest : Bytes) : words (byte ')' :: rest) = .parenClose :: words rest :=
  words_sym rest (by decide) (fun _ => rfl) rfl rfl

def Separated (rest : Bytes) : Prop := ∀ sym ∈ rest.head?, isIdentTail sym = false

theorem takeWhile_append_of_separated {p : UInt8 → Bool} {front rest : Bytes}
    (hp : ∀ sym, p sym = true → isIdentTail sym = true) (hfront : ∀ sym ∈ front, p sym = true)
    (hrest : Separated rest) : (front ++ rest).takeWhile p = front := by
  rw [List.takeWhile_append_of_pos hfront]
  cases rest with
  | nil => simp
  | cons sym rest =>
    have hsym : ¬ p sym = true := fun h => by simpa [hrest sym rfl] using hp sym h
    rw [List.takeWhile_cons_of_neg hsym, List.append_nil]

/-- What a character class has to do with the others. -/
theorem charClasses : ∀ sym : UInt8, isIdentTail sym = true →
    charType sym = none ∧ sym ≠ byte '#' ∧ isspace sym = false ∧
      (isIdentHead sym = true → isDigit sym = false) := by
  decide +kernel

theorem words_digits {digits rest : Bytes} (hne : digits ≠ [])
    (hd : ∀ sym ∈ digits, isDigit sym = true) (hrest : Separated rest) :
    words (digits ++ rest) = .int digits :: words rest := by
  have htail (sym : UInt8) (h : isDigit sym = true) : isIdentTail sym = true := by
    simp [isIdentTail, h]
  obtain ⟨sym, more, rfl⟩ := List.exists_cons_of_ne_nil hne
  have hsym := hd sym List.mem_cons_self
  obtain ⟨htype, hhash, hspace, -⟩ := charClasses sym (htail sym hsym)
  refine words_append (by simp [ignorable, hhash, hspace]) ?_ rfl rfl
  rw [List.cons_append, longestMatch_of_charType_none htype, if_pos hsym, ← List.cons_append,
    takeWhile_append_of_separated htail hd hrest]

theorem words_name {name rest : Bytes} (hname : IsIdentifier name) (hrest : Separated rest) :
    words (name ++ rest) = .ident name :: words rest := by
  obtain ⟨sym, more, rfl, hhead, hmore⟩ := hname
  have htail : isIdentTail sym = true := by simp [isIdentTail, hhead]
  obtain ⟨htype, hhash, hspace, hdigit⟩ := charClasses sym htail
  refine words_append (by simp [ignorable, hhash, hspace]) ?_ rfl rfl
  rw [List.cons_append, longestMatch_of_charType_none htype, if_neg (by simp [hdigit hhead]),
    if_pos hhead, ← List.cons_append,
    takeWhile_append_of_separated (fun _ h => h) (List.forall_mem_cons.mpr ⟨htail, hmore⟩) hrest]

end ParserExample
