import ParserExample.Parser.Descent

/-!
# Where errors are reported

A syntax error is reported at the first token that no sentence has there
(`parseSlice_firstOffending`): the tokens in front of it are a prefix of a
sentence, and with it they are not.
-/

namespace ParserExample

open Library

/-- The error of the parser is about the lexeme `t` behind `front`, and it is the
first one that no sentence goes on with. -/
structure FirstOffending (code : Bytes) (p : Parser) (front : List Lexeme) (t : Lexeme) :
    Prop where
  split : ∃ rest, lexemes code = front ++ t :: rest
  token : Shows p t
  before : SentencePrefix (front.map Lexeme.word)
  upto : ¬ SentencePrefix ((front ++ [t]).map Lexeme.word)
  unfinished : t.word = .eof → ¬ Sentence (front.map Lexeme.word)
  illegal : p.error = .illegalToken →
    p.errorInfo = .code p.token.startIndex p.token.endIndex
  unclosed : p.error = .expectedCloseParen → ∃ i, (openParens front).head? = some i ∧
    p.errorInfo = .code i p.token.endIndex

section
variable {heap : Heap} {code : Bytes} {names : List Bytes} {p : Parser}

theorem Unexpected.firstOffending {front : List Lexeme} {l : Lexeme} {st : Stage}
    (h : Unexpected code p front l st) : FirstOffending code p front l := by
  obtain ⟨rest, hlegible⟩ := h.split
  obtain ⟨back, hlexemes, -⟩ := lexemes_eq code
  rw [hlegible, List.append_assoc, List.cons_append] at hlexemes
  refine ⟨⟨_, hlexemes⟩, h.shown, run_isSome_iff.mp (by rw [h.run]; rfl), ?_, ?_, ?_, ?_⟩
  · rw [← run_isSome_iff, Stage.run_concat, h.run, Option.bind_some, h.stuck]
    rintro ⟨⟩
  · intro hw hsentence
    rw [← run_sentence_iff, h.run] at hsentence
    exact h.unfinished hw (Option.some.inj hsentence)
  · rw [h.shown.startIndex, h.shown.endIndex]
    exact h.illegal
  · rintro hclose
    obtain ⟨i, opens, hopens, hinfo⟩ := h.unclosed hclose
    refine ⟨i, ?_, h.shown.endIndex ▸ hinfo⟩
    rw [← Stage.opens_run h.run, hopens, List.head?_cons]

/-- A syntax error is reported at the first offending token. -/
theorem parseSlice_firstOffending (h : parseSlice heap code names = .ok p)
    (he : p.error = .illegalToken ∨ p.error = .expectedCloseParen) :
    ∃ front t, FirstOffending code p front t := by
  cases parseSlice_returned h with
  | argument _ herr =>
    rcases herr with h | h <;> rw [h] at he <;> rcases he with he | he <;> cases he
  | failed hf =>
    obtain ⟨front, l, st, hu⟩ := hf.unexpected he
    exact ⟨front, l, hu.firstOffending⟩
  | done hd => rw [hd.error] at he; rcases he with he | he <;> cases he

theorem unclosed_error : (parseSlice Heap.unlimited (ascii "1+\n(2\n") []).map
    (fun p => (p.error, p.errorInfo)) = .ok (.expectedCloseParen, .code 3 6) := by
  decide

theorem parseSlice_firstOffending_unclosed :
    ∃ p, parseSlice Heap.unlimited (ascii "1+\n(2\n") [] = .ok p ∧
      ∃ front t, FirstOffending (ascii "1+\n(2\n") p front t := by
  obtain ⟨p, hp, he⟩ := exists_of_map_eq_ok unclosed_error
  exact ⟨p, hp, parseSlice_firstOffending hp (.inr (Prod.mk.inj he).1)⟩

/-- An error that is not about the arguments is about a range of the code. -/
theorem parseSlice_errorRange (h : parseSlice heap code names = .ok p) (hs : p.error ≠ .none)
    (ha : p.error ≠ .illegalArgName ∧ p.error ≠ .duplicatedArgName) :
    p.code = code ∧ ∃ startIndex endIndex, p.errorInfo = .code startIndex endIndex ∧
      InCode code startIndex endIndex := by
  cases parseSlice_returned h with
  | argument _ herr => rcases herr with h | h <;> simp [h] at ha
  | failed hf => exact ⟨hf.code_eq, hf.info⟩
  | done hd => exact absurd hd.error hs

end

end ParserExample
