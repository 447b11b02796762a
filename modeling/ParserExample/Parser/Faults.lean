import ParserExample.Parser.Refusals
import ParserExample.Reader.Faults

/-!
# Where a program stops being one

The parser finds every error as early as one can: what is in front of the token
that it fails at is the beginning of a valid program, and with that token it is
not. This holds of errors about names, numbers and divisors as it does of syntax
errors.
-/

namespace ParserExample

open Library

theorem Derivation.mem_names_of_valid {names : List Bytes} {nt : NonTerminal} {e : Derivation nt}
    (h : e.Valid names) {name : Bytes} (hname : .ident name ∈ e.yield) : name ∈ names := by
  induction e with
  | addSub op left right ihl ihr =>
    rcases List.mem_append.mp hname with hl | hr
    · exact ihl h.1 hl
    · exact ihr h.2 ((List.mem_cons.mp hr).resolve_left (by cases op <;> simp))
  | mulDiv op left right ihl ihr =>
    rcases List.mem_append.mp hname with hl | hr
    · exact ihl h.1 hl
    · exact ihr h.2.1 ((List.mem_cons.mp hr).resolve_left (by cases op <;> simp))
  | signed signs e ih =>
    rcases List.mem_append.mp hname with hs | he
    · obtain ⟨op, -, hop⟩ := List.mem_map.mp hs
      cases op <;> cases hop
    · exact ih h.1 he
  | ident other =>
    obtain rfl : name = other := by simpa using hname
    exact h
  | int digits => simp at hname
  | paren e ih => exact ih h (by simpa using hname)
  | ofMulDiv e ih | ofSigned e ih => exact ih h hname

section
variable {heap : Heap} {code : Bytes} {names : List Bytes} {p : Parser} {front : List Lexeme}
  {l : Lexeme} {fuel : Nat} {error : ParserError} {i j : Nat}

theorem Viable.mem_names (h : Viable names (front.map Lexeme.word)) (hl : l ∈ front) {name : Bytes}
    (hname : l.word = .ident name) : name ∈ names := by
  obtain ⟨e, back, hyield, hv⟩ := h
  have hmem : Word.ident name ∈ e.yield ++ [.eof] := by
    rw [hyield, ← hname]
    exact List.mem_append_left _ (List.mem_map_of_mem hl)
  rcases List.mem_append.mp hmem with hmem | hmem
  · exact Derivation.mem_names_of_valid hv hmem
  · simp at hmem

theorem Refuses.not_viable (h : Refuses l error i j) :
    ¬ Viable names ((front ++ [l]).map Lexeme.word) := by
  rintro ⟨e, back, hyield, hv⟩
  have hmem : l.word ∈ e.yield ++ [.eof] := by
    rw [hyield]
    simp
  cases h with
  | illegalCharacter hw =>
    rw [hw, List.mem_append, List.mem_singleton] at hmem
    rcases hmem with hmem | hmem
    · rcases isReadable_of_valid hv hmem with ⟨name, hname⟩ | hr
      · cases hname
      · cases hr 0
    · cases hmem
  | @valueOutOfRange digits n hw hn hle hlt =>
    rw [hw, List.mem_append, List.mem_singleton] at hmem
    rcases hmem with hmem | hmem
    · rcases isReadable_of_valid hv hmem with ⟨name, hname⟩ | hr
      · cases hname
      · have hmax : decimal digits ≤ maxLiteral := of_decide_eq_true (hr 0)
        have hmono := decimal_le_append (digits.take (n + 1)) (digits.drop (n + 1))
        rw [List.take_append_drop] at hmono
        exact absurd (hmono.trans hmax) (Nat.not_le.mpr hlt)
    · cases hmem

theorem not_viable_of_failed
    (h : readProgram names fuel front = .error (.failed error i j)) :
    ¬ Viable names (front.map Lexeme.word) := by
  rintro ⟨e, back, hyield, hv⟩
  obtain ⟨more, rfl⟩ : ∃ more : List Lexeme, more.map Lexeme.word = back :=
    ⟨back.map (⟨·, 0⟩), by rw [List.map_map]; exact List.map_id back⟩
  rw [← List.map_append] at hyield
  have hb : Bounded (fuel + (front ++ more).length + 1) (front ++ more) := by
    refine ⟨by omega, fun a ha digits hd => ?_⟩
    have hmem := List.mem_map_of_mem (f := Lexeme.word) ha
    rw [← hyield, hd] at hmem
    rcases isReadable_of_valid hv (w := .int digits) (by simpa using hmem) with ⟨_, ⟨⟩⟩ | hr
    exact of_decide_eq_true (hr 0)
  obtain ⟨ls, lse, htokens, hls, hlse⟩ := List.map_eq_append_iff.mp hyield.symm
  obtain ⟨l, rfl, hl⟩ := List.map_eq_singleton_iff.mp hlse
  rcases readProgram_append names
      (show fuel ≤ fuel + (front ++ more).length + 1 by omega) front more with hs | hf | happ
  · rw [h] at hs
    cases hs
  · rw [h] at hf
    cases hf
  · rw [htokens] at hb happ
    obtain ⟨t, ht, -⟩ := (readProgram_complete hls hl hb).1 hv
    rw [h, ht] at happ
    cases happ

/-- What an error says about the code: behind the beginning of a valid program comes
the first lexeme with which it is none, and the error is about that. -/
structure FirstFault (names : List Bytes) (code : Bytes) (p : Parser) (front : List Lexeme)
    (l : Lexeme) : Prop where
  split : ∃ back, lexemes code = front ++ l :: back
  before : Viable names (front.map Lexeme.word)
  upto : ¬ Viable names ((front ++ [l]).map Lexeme.word)
  blames : ∃ i j, p.errorInfo = .code i j ∧
    (Refuses l p.error i j ∨ Blames names front l p.error i j)

theorem parseProgram_firstFault
    (h : parseProgram (Parser.init heap code names) = .error .returnFalse p)
    (hm : p.error ≠ .outOfMemory) : ∃ front l, FirstFault names code p front l := by
  obtain ⟨rest, hlexemes, hstop⟩ := lexemes_eq code
  have hb := bounded_legible code
  have hends := parseProgram_ends heap code names
  have hasks := parseProgram_asks heap code names
  rw [h] at hends hasks
  generalize hread : readProgram names (code.length + 2) (legible code) = r at hends hasks
  cases hends with
  | outOfMemory hs he => exact absurd he hm
  | failed hs he hi =>
    subst he
    obtain ⟨front, l, back, hlegible, hfront, hfail, hblames⟩ := readProgram_blames hb hread
    rw [hlegible] at hb hlexemes
    rw [List.append_assoc, List.cons_append] at hlexemes
    exact ⟨front, l, ⟨_, hlexemes⟩, (readProgram_sound hb.initial).2.1 hfront,
      not_viable_of_failed hfail, _, _, hi, .inr hblames⟩
  | @stopped _ l hl hw hs he =>
    have hasked := (hasks p rfl rfl).resolve_left hm
    rw [hl] at hasked
    obtain ⟨i, j, hinfo, hrefuses⟩ := hasked.refuses hw
    obtain ⟨back, rfl⟩ : ∃ back, rest = l :: back :=
      List.head?_eq_some_iff.mp (hstop.symm.trans hl)
    exact ⟨_, l, ⟨back, hlexemes⟩, (readProgram_sound hb).2.1 hread, hrefuses.not_viable, i, j,
      hinfo, .inl hrefuses⟩

/-- An undefined variable is the first name in the code that no argument has. -/
theorem FirstFault.undefinedVariable (h : FirstFault names code p front l)
    (he : p.error = .undefinedVariable) : p.errorInfo = .code l.startIndex l.endIndex ∧
      (∃ name, l.word = .ident name ∧ name ∉ names) ∧
      ∀ a ∈ front, ∀ name, a.word = .ident name → name ∈ names := by
  obtain ⟨i, j, hinfo, hrefuses | hblames⟩ := h.blames
  · rw [he] at hrefuses
    cases hrefuses
  · rw [he] at hblames
    cases hblames with
    | undefinedVariable hl hname =>
      exact ⟨hinfo, ⟨_, hl, hname⟩, fun a ha name => h.before.mem_names ha⟩

/-- Every error in the code is found at the first token with which the code is not
the beginning of a valid program, and is about it. -/
theorem parseSlice_firstFault (hn : NamesValid names) (h : parseSlice heap code names = .ok p)
    (hs : p.state = .error) (hm : p.error ≠ .outOfMemory) :
    ∃ front l, FirstFault names code p front l := by
  have hends := parseProgram_ends heap code names
  generalize readProgram names (code.length + 2) (legible code) = r at hends
  rw [parseSlice_of_names_valid hn] at h
  cases hp : parseProgram (Parser.init heap code names) with
  | ok u q =>
    rw [hp] at h hends
    obtain rfl := Except.ok.inj h
    cases hends with
    | ok hf =>
      rw [hf.1] at hs
      cases hs
  | error e q =>
    rw [hp] at h
    cases e with
    | returnFalse =>
      obtain rfl := Except.ok.inj h
      exact parseProgram_firstFault hp hm
    | fault f => cases h

theorem divisor_error : (parseSlice Heap.unlimited (ascii "1+8/-(0)*2") []).map
    (fun p => (p.state, p.error, p.errorInfo)) = .ok (.error, .divByZero, .code 4 7) := by
  decide +kernel

theorem parseSlice_firstFault_divisor :
    ∃ p, parseSlice Heap.unlimited (ascii "1+8/-(0)*2") [] = .ok p ∧
      ∃ front l, FirstFault [] (ascii "1+8/-(0)*2") p front l := by
  obtain ⟨p, hp, hstate⟩ := exists_of_map_eq_ok divisor_error
  obtain ⟨hs, herror⟩ := Prod.mk.inj hstate
  refine ⟨p, hp, parseSlice_firstFault ⟨by simp, List.nodup_nil⟩ hp hs ?_⟩
  rw [(Prod.mk.inj herror).1]
  exact nofun

end

end ParserExample
