import ParserExample.Parser.Simulation
import ParserExample.Reader.Completeness
import ParserExample.Reader.Prefix

/-!
# The language of the parser

What `parseSlice` accepts, what it builds and how it stores it. The parser
accepts its language, with one exception: it does not survive a name that is
longer than its buffer, enlarged once.
-/

namespace ParserExample

open Library

-- ---------------------------------------------------------------------------
-- The names of the arguments
-- ---------------------------------------------------------------------------

theorem isIdentifier_iff {name : Bytes} : isIdentifier name = true ↔ IsIdentifier name := by
  unfold isIdentifier IsIdentifier
  cases name with
  | nil =>
    have h : isIdentHead 0 = false := by decide
    simp [h]
  | cons head tail => simp [List.all_eq_true]

theorem argsError_eq_none_iff {names : List Bytes} : argsError names = none ↔ NamesValid names := by
  have hname (i : Nat) (name : Bytes) :
      argNameError names i name = none ↔ IsIdentifier name ∧ name ∉ names.take i := by
    unfold argNameError
    rw [← isIdentifier_iff]
    split_ifs <;> simp_all
  simp only [argsError, List.findSome?_eq_none_iff, Option.map_eq_none_iff, Prod.forall, hname,
    List.mem_zipIdx_iff_getElem?]
  constructor
  · intro h
    refine ⟨fun name hn => ?_, List.nodup_iff_getElem?_ne_getElem?.mpr fun i j hij hj heq => ?_⟩
    · obtain ⟨i, hi⟩ := List.getElem?_of_mem hn
      exact (h name i hi).1
    · rw [List.getElem?_eq_getElem hj, List.getElem?_eq_getElem (hij.trans hj),
        Option.some.injEq] at heq
      refine (h names[j] j (List.getElem?_eq_getElem hj)).2 ?_
      exact List.mem_take_iff_getElem.mpr ⟨i, by omega, heq⟩
  · rintro ⟨hid, hnodup⟩ name i hi
    refine ⟨hid name (List.mem_of_getElem? hi), fun hmem => ?_⟩
    obtain ⟨j, hj, hname⟩ := List.mem_take_iff_getElem.mp hmem
    have hlt := (List.getElem?_eq_some_iff.mp hi).1
    refine List.nodup_iff_getElem?_ne_getElem?.mp hnodup j i (by omega) hlt ?_
    rw [hi, List.getElem?_eq_getElem (by omega), hname]

-- ---------------------------------------------------------------------------
-- Outcomes of `parseSlice`
-- ---------------------------------------------------------------------------

section
variable {heap : Heap} {code : Bytes} {names : List Bytes} {p : Parser}

theorem parseSlice_of_names_invalid (h : ¬ NamesValid names) :
    ∃ p, parseSlice heap code names = .ok p ∧ p.state = .error := by
  cases hargs : argsError names with
  | none => exact absurd (argsError_eq_none_iff.mp hargs) h
  | some e =>
    simp only [parseSlice, hargs]
    exact ⟨_, rfl, rfl⟩

theorem parseSlice_of_names_valid (h : NamesValid names) : parseSlice heap code names =
    match parseProgram (Parser.init heap code names) with
    | .ok () p => .ok p
    | .error .returnFalse p => .ok p
    | .error (.fault f) _ => .error f := by
  rw [← argsError_eq_none_iff] at h
  cases hp : parseProgram (Parser.init heap code names) with
  | ok u p => simp only [parseSlice, h, hp]
  | error e p => cases e <;> simp only [parseSlice, h, hp]

theorem bounded_legible (code : Bytes) : Bounded (code.length + 2) (legible code) := by
  obtain ⟨rest, hrest, -⟩ := lexemes_eq code
  have hlen := length_lexemesFrom_le 0 code
  rw [← lexemes, hrest, List.length_append] at hlen
  refine ⟨by omega, fun l hl digits hd => ?_⟩
  obtain ⟨capacity, hr⟩ := isReadable_of_mem hl
  simpa [hd, Word.isReadable] using hr

/-- With valid names, the parser does what the parser on words does. -/
theorem parseSlice_cases (heap : Heap) (code : Bytes) (h : NamesValid names) :
    let r := readProgram names (code.length + 2) (legible code)
    (∃ p t, parseSlice heap code names = .ok p ∧ Finished names t p ∧ r = .ok t) ∨
    (∃ p, parseSlice heap code names = .ok p ∧ p.state = .error ∧ (p.error = .outOfMemory ∨
      (∃ e i j, r = .error (.failed e i j)) ∨ ∃ l, obstacle code = some l ∧
        (∀ name, l.word ≠ .ident name) ∧ r = .error .stopped)) ∨
    (parseSlice heap code names = .error .overrun ∧ r = .error .stopped ∧
      ∃ l name, obstacle code = some l ∧ l.word = .ident name) := by
  have hends := parseProgram_ends heap code names
  have hfuel := (@readProgram_sound names _ _ (bounded_legible code)).2.2
  rw [parseSlice_of_names_valid h]
  generalize readProgram names (code.length + 2) (legible code) = r at hends hfuel ⊢
  generalize parseProgram (Parser.init heap code names) = res at hends ⊢
  cases hends with
  | ok hf => exact .inl ⟨_, _, rfl, hf, rfl⟩
  | outOfMemory hs he => exact .inr (.inl ⟨_, rfl, hs, .inl he⟩)
  | failed hs he hi => exact .inr (.inl ⟨_, rfl, hs, .inr (.inl ⟨_, _, _, rfl⟩)⟩)
  | stopped hl hw hs he => exact .inr (.inl ⟨_, rfl, hs, .inr (.inr ⟨_, hl, hw, rfl⟩)⟩)
  | overrun hl hw => exact .inr (.inr ⟨rfl, rfl, _, _, hl, hw⟩)
  | fuel => exact absurd rfl hfuel

-- ---------------------------------------------------------------------------
-- Programs
-- ---------------------------------------------------------------------------

theorem isReadable_of_valid {nt : NonTerminal} {e : Derivation nt} (h : e.Valid names) {w : Word}
    (hw : w ∈ e.yield) : (∃ name, w = .ident name) ∨ ∀ capacity, w.isReadable capacity = true := by
  induction e with
  | addSub op left right ihl ihr =>
    rcases (by simpa using hw : w ∈ left.yield ∨ w = op.word ∨ w ∈ right.yield) with hw | rfl | hw
    · exact ihl h.1 hw
    · cases op <;> exact .inr fun _ => rfl
    · exact ihr h.2 hw
  | mulDiv op left right ihl ihr =>
    rcases (by simpa using hw : w ∈ left.yield ∨ w = op.word ∨ w ∈ right.yield) with hw | rfl | hw
    · exact ihl h.1 hw
    · cases op <;> exact .inr fun _ => rfl
    · exact ihr h.2.1 hw
  | signed signs e ih =>
    rcases (by simpa using hw : (∃ op ∈ signs, op.word = w) ∨ w ∈ e.yield) with ⟨op, -, rfl⟩ | hw
    · cases op <;> exact .inr fun _ => rfl
    · exact ih h.1 hw
  | ident name => exact .inl ⟨name, by simpa using hw⟩
  | int digits =>
    obtain rfl : w = .int digits := by simpa using hw
    exact .inr fun _ => by simpa [Word.isReadable] using h
  | ofMulDiv e ih => exact ih h hw
  | ofSigned e ih => exact ih h hw
  | paren e ih =>
    rcases (by simpa using hw : w = .parenOpen ∨ w ∈ e.yield ∨ w = .parenClose) with rfl | hw | rfl
    · exact .inr fun _ => rfl
    · exact ih h hw
    · exact .inr fun _ => rfl

/-- Words with a valid derivation are read as that derivation, unless the part
of the code that is legible ends before them. -/
theorem readProgram_of_yield {e : Derivation .addSub} {back : List Word}
    (h : (legible code).map Lexeme.word ++ back = e.yield ++ [.eof]) (hv : e.Valid names) :
    readProgram names (code.length + 2) (legible code) = .error .stopped ∨
    ∃ t, readProgram names (code.length + 2) (legible code) = .ok t ∧ t.erase = e.expr names := by
  obtain ⟨more, hmore⟩ : ∃ more : List Lexeme, more.map Lexeme.word = back :=
    ⟨back.map (⟨·, 0⟩), by rw [List.map_map]; exact List.map_id back⟩
  rw [← hmore, ← List.map_append] at h
  obtain ⟨ls, lse, htokens, hls, hlse⟩ := List.map_eq_append_iff.mp h
  obtain ⟨l, rfl, hl⟩ := List.map_eq_singleton_iff.mp hlse
  have hb : Bounded (code.length + 2 + (legible code ++ more).length + 1)
      (legible code ++ more) := by
    refine ⟨by omega, fun a ha digits hd => ?_⟩
    have hmem := List.mem_map_of_mem (f := Lexeme.word) ha
    rw [h, hd] at hmem
    rcases isReadable_of_valid hv (w := .int digits) (by simpa using hmem) with ⟨_, ⟨⟩⟩ | hr
    simpa [Word.isReadable] using hr 0
  rcases readProgram_append names
      (show code.length + 2 ≤ code.length + 2 + (legible code ++ more).length + 1 by omega)
      (legible code) more with hs | hf | heq
  · exact .inl hs
  · exact absurd hf (readProgram_sound (bounded_legible code)).2.2
  · rw [htokens] at hb heq
    obtain ⟨t, ht, hexpr⟩ := (readProgram_complete hls hl hb).1 hv
    exact .inr ⟨t, by rw [← heq, ht], hexpr⟩

theorem parseSlice_done (h : parseSlice heap code names = .ok p) (hd : p.state = .done) :
    NamesValid names ∧ ∃ t, Finished names t p ∧
      readProgram names (code.length + 2) (legible code) = .ok t := by
  by_cases hn : NamesValid names
  · rcases parseSlice_cases heap code hn with
      ⟨p', t, hp, hf, hr⟩ | ⟨p', hp, hs, -⟩ | ⟨hp, -⟩
    · obtain rfl : p = p' := by simpa [h] using hp
      exact ⟨hn, t, hf, hr⟩
    · obtain rfl : p = p' := by simpa [h] using hp
      simp [hd] at hs
    · simp [h] at hp
  · obtain ⟨p', hp, hs⟩ := @parseSlice_of_names_invalid heap code names hn
    obtain rfl : p = p' := by simpa [h] using hp
    simp [hd] at hs

theorem exists_derivation {t : RangedExpr}
    (h : readProgram names (code.length + 2) (legible code) = .ok t) :
    obstacle code = none ∧ ∃ e : Derivation .addSub, words code = e.yield ++ [.eof] ∧
      e.Valid names ∧ t.erase = e.expr names := by
  obtain ⟨used, l, rest, e, htokens, hl, hu, hv, ht⟩ :=
    (readProgram_sound (bounded_legible code)).1 t h
  obtain ⟨rfl, hlex, hstop⟩ := legible_eof htokens hl
  exact ⟨hstop, e, by simp [words, hlex, hu, hl], hv, ht⟩

theorem expr_of_derivation {t : RangedExpr} {e : Derivation .addSub}
    (h : readProgram names (code.length + 2) (legible code) = .ok t)
    (he : words code = e.yield ++ [.eof]) : e.Valid names ∧ t.erase = e.expr names := by
  obtain ⟨used, l, rest, -, htokens, hl, -⟩ := (readProgram_sound (bounded_legible code)).1 t h
  obtain ⟨rfl, hlex, -⟩ := legible_eof htokens hl
  have hu : used.map Lexeme.word = e.yield := by simpa [words, hlex, hl] using he
  have hb := bounded_legible code
  rw [htokens] at h hb
  obtain ⟨hvalid, hinvalid⟩ := @readProgram_complete names _ _ _ _ _ hu hl hb
  by_cases hv : e.Valid names
  · obtain ⟨t', ht', hexpr⟩ := hvalid hv
    obtain rfl : t = t' := by simpa [h] using ht'
    exact ⟨hv, hexpr⟩
  · obtain ⟨error, i, j, herr⟩ := hinvalid hv
    simp [h] at herr

theorem readProgram_of_accepts (h : Accepts names code) :
    readProgram names (code.length + 2) (legible code) = .error .stopped ∨
    ∃ t, readProgram names (code.length + 2) (legible code) = .ok t := by
  obtain ⟨-, e, hwords, hv⟩ := h
  obtain ⟨rest, hrest, -⟩ := lexemes_eq code
  rw [words, hrest, List.map_append] at hwords
  exact (readProgram_of_yield hwords hv).imp_right fun ⟨t, ht, _⟩ => ⟨t, ht⟩

theorem obstacle_of_accepts (h : Accepts names code) {l : Lexeme} (hl : obstacle code = some l) :
    ∃ name, l.word = .ident name := by
  obtain ⟨-, e, hwords, hv⟩ := h
  obtain ⟨rest, hrest, hstop⟩ := lexemes_eq code
  obtain ⟨capacity, hunreadable⟩ := isReadable_of_stop hl
  have hmem : l.word ∈ e.yield ++ [.eof] := by
    rw [← hwords, words, hrest]
    exact List.mem_map_of_mem (List.mem_append_right _ (List.mem_of_mem_head? (hstop ▸ hl)))
  rcases List.mem_append.mp hmem with hmem | hmem
  · rcases isReadable_of_valid hv hmem with hname | hr
    · exact hname
    · simp [hr] at hunreadable
  · rw [List.mem_singleton.mp hmem] at hunreadable
    simp [Word.isReadable] at hunreadable

/-- The names of the program fit the parser's buffer: the first lexeme that the
lexer does not get past is not a name behind words that a program can start
with. -/
def IdentifiersFit (names : List Bytes) (code : Bytes) : Prop :=
  ∀ l name, obstacle code = some l → l.word = .ident name → NamesValid names →
    ¬ Viable names ((legible code).map Lexeme.word)

/-- What the parser owes a program: it returns, and accepts the language. -/
def ParsesExactly (heap : Heap) (code : Bytes) (names : List Bytes) : Prop :=
  ∃ p, parseSlice heap code names = .ok p ∧ (Accepts names code → p.state = .done) ∧
    (¬ Accepts names code → p.state = .error)

/-- No memory is refused. -/
def AllocationsSucceed (heap : Heap) (code : Bytes) (names : List Bytes) : Prop :=
  ∀ p, parseSlice heap code names = .ok p → p.error ≠ .outOfMemory

theorem parseSlice_overrun (h : ¬ IdentifiersFit names code) :
    parseSlice heap code names = .error .overrun ∨
    ∃ p, parseSlice heap code names = .ok p ∧ p.error = .outOfMemory := by
  unfold IdentifiersFit at h
  push Not at h
  obtain ⟨l, name, hl, hw, hn, e, back, hyield, hv⟩ := h
  have hstopped : readProgram names (code.length + 2) (legible code) = .error .stopped := by
    rcases readProgram_of_yield hyield.symm hv with hr | ⟨t, hr, -⟩
    · exact hr
    · simp [(exists_derivation hr).1] at hl
  rcases parseSlice_cases heap code hn with
    ⟨p, t, -, -, hr⟩ | ⟨p, hp, -, he | ⟨e, i, j, hr⟩ | ⟨l', hl', hw', -⟩⟩ | ⟨hp, -⟩
  · simp [hstopped] at hr
  · exact .inr ⟨p, hp, he⟩
  · simp [hstopped] at hr
  · obtain rfl : l = l' := by simpa [hl] using hl'
    exact absurd hw (hw' name)
  · exact .inl hp

theorem parsesExactly_of_fit (hmem : AllocationsSucceed heap code names)
    (h : IdentifiersFit names code) : ParsesExactly heap code names := by
  by_cases hn : NamesValid names
  · rcases parseSlice_cases heap code hn with
      ⟨p, t, hp, hf, hr⟩ | ⟨p, hp, hs, he | ⟨e, i, j, hr⟩ | ⟨l, hl, hw, -⟩⟩ |
        ⟨-, hr, l, name, hl, hw⟩
    · obtain ⟨-, e, hwords, hv, -⟩ := exists_derivation hr
      exact ⟨p, hp, fun _ => hf.1, fun hna => absurd ⟨hn, e, hwords, hv⟩ hna⟩
    · exact absurd he (hmem p hp)
    · refine ⟨p, hp, fun ha => ?_, fun _ => hs⟩
      rcases readProgram_of_accepts ha with hr' | ⟨t, hr'⟩ <;> simp [hr] at hr'
    · refine ⟨p, hp, fun ha => ?_, fun _ => hs⟩
      obtain ⟨name, hname⟩ := obstacle_of_accepts ha hl
      exact absurd hname (hw name)
    · exact absurd ((readProgram_sound (bounded_legible code)).2.1 hr) (h l name hl hw hn)
  · obtain ⟨p, hp, hs⟩ := @parseSlice_of_names_invalid heap code names hn
    exact ⟨p, hp, fun ha => absurd ha.1 hn, fun _ => hs⟩

/-- Where no memory is refused, the parser accepts exactly its language if and
only if the names of the program fit its buffer. -/
theorem parsesExactly_iff (heap : Heap) (code : Bytes) (names : List Bytes)
    (hmem : AllocationsSucceed heap code names) :
    ParsesExactly heap code names ↔ IdentifiersFit names code := by
  refine ⟨fun ⟨p, hp, ha, hna⟩ => ?_, parsesExactly_of_fit hmem⟩
  by_contra hfit
  rcases @parseSlice_overrun heap _ _ hfit with hr | ⟨p', hp', he⟩
  · simp [hp] at hr
  · exact hmem p' hp' he

theorem allocationsSucceed_of_error
    (h : (parseSlice heap code names).map Parser.error = .ok .none) :
    AllocationsSucceed heap code names := by
  intro p hp
  simp_all [Except.map]

theorem parsesExactly_iff_sum :
    ParsesExactly Heap.unlimited (ascii "a + -(2)") [ascii "a"] := by
  have hlegible : obstacle (ascii "a + -(2)") = none := by decide +kernel
  refine (parsesExactly_iff _ _ _ (allocationsSucceed_of_error (by decide +kernel))).mpr ?_
  intro l name hl
  rw [hlegible] at hl
  cases hl

theorem proc_bind_fault {α β : Type} {x : Proc Parser α} {f : α → Proc Parser β} {s : Parser}
    {e : Fault} (h : ∃ s', x s = .error (.fault e) s') :
    ∃ s', (x >>= f) s = .error (.fault e) s' := by
  obtain ⟨s', h⟩ := h
  exact ⟨s', proc_bind_of_error h⟩

theorem parserBufferAppend_overrun {s : Parser} {chunk : Bytes} (hheap : s.heap = Heap.unlimited)
    (hbuffer : s.buffer = Buffer.init) (h : bufsiz < chunk.length) :
    parserBufferAppend (bufferAppend · · chunk) s = .error (.fault .overrun) s := by
  have happ : bufferAppend Heap.unlimited Buffer.init chunk = .error .overrun := by
    have hpos : 0 < chunk.length := by omega
    have hlong : ¬ chunk.length ≤ bufsiz := by omega
    simp [bufferAppend, Buffer.init, hpos, newCapacity, memcpy, hlong,
      show ¬ sizeMax / 2 ≤ 0 by decide]
  simp only [parserBufferAppend, proc_get_bind, hheap, hbuffer, happ]
  rfl

theorem parseSlice_longName {n : Nat} (h : bufsiz ≤ n) :
    parseSlice Heap.unlimited (byte 'a' :: List.replicate n (byte 'a'))
      [byte 'a' :: List.replicate n (byte 'a')] = .error .overrun := by
  generalize hname : byte 'a' :: List.replicate n (byte 'a') = name
  have htake : name.takeWhile isIdentTail = name := by
    subst hname
    refine List.takeWhile_eq_self_iff.mpr fun sym hs => ?_
    rcases List.mem_cons.mp hs with rfl | hs
    · decide
    · rw [List.eq_of_mem_replicate hs]
      decide
  have hvalid : NamesValid [name] := by
    refine ⟨fun a ha => ?_, List.nodup_singleton _⟩
    rw [List.mem_singleton.mp ha, ← hname]
    refine ⟨_, _, rfl, by decide, fun sym hs => ?_⟩
    rw [List.eq_of_mem_replicate hs]
    decide
  have hlen : bufsiz < name.length := by simp [← hname]; omega
  generalize hs : Parser.init Heap.unlimited name [name] = s
  have hskip : parserSkipIgnoreable s = s := by
    have hgap : ignorable false name = 0 := by
      simp [← hname, ignorable, show byte 'a' ≠ byte '#' by decide,
        show isspace (byte 'a') = false by decide]
    have : skipIgnoreable name name.length 0 = 0 := by
      rw [skipIgnoreable_eq (Nat.sub_le _ _), List.drop_zero, hgap]
    simp [parserSkipIgnoreable, ← hs, Parser.init, this]
  have htoken : ∃ s', parserPeekToken s = .error (.fault .overrun) s' := by
    have hsym : s.code[s.index]? = some (byte 'a') := by
      simp [← hs, ← hname, Parser.init]
    have hstate : s.state = .tokenPending := hs ▸ rfl
    simp only [parserPeekToken, parseToken, proc_get_bind, hstate, proc_modify_bind, hskip, hsym,
      show charType (byte 'a') = none by decide, show isDigit (byte 'a') = false by decide,
      show isIdentHead (byte 'a') = true by decide, parseIdent, Bool.false_eq_true, if_false,
      if_true]
    refine proc_bind_fault ⟨_, parserBufferAppend_overrun ?_ ?_ ?_⟩
    · rw [← hs]
      rfl
    · rw [← hs]
      rfl
    · simpa [← hs, Parser.init, advanceWhile, htake] using hlen
  rw [parseSlice_of_names_valid hvalid, hs]
  obtain ⟨s', hs'⟩ : ∃ s', parseProgram s = .error (.fault .overrun) s' := by
    simp only [parseProgram, parseExpr, proc_get_bind, bind_assoc]
    refine proc_bind_fault ?_
    rw [parseAddSub]
    exact proc_bind_fault (proc_bind_fault (proc_bind_fault htoken))
  rw [hs']

/-- A name of 10000 bytes that is the name of an argument. -/
theorem not_parsesExactly : ¬ ∀ heap code names,
    AllocationsSucceed heap code names → ParsesExactly heap code names := by
  intro h
  have hr := parseSlice_longName (n := 9999) (by decide)
  obtain ⟨p, hp, -⟩ := h Heap.unlimited _ _ fun p hp => by rw [hr] at hp; cases hp
  rw [hr] at hp
  cases hp

end

end ParserExample
