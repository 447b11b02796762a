import ParserExample.Parser.Digits
import ParserExample.Reader

/-!
# The lexer hands on the words of the code

`Sees` relates the parser's state to the lexemes still to come: the lexer has
not looked at them yet, or it holds the first one in its token. `Ends` relates
how a procedure ends to what the parser on words returns; a procedure may also
run out of memory at any time. `parserPeekToken_ends` says that peeking shows
the next lexeme.
-/

namespace ParserExample

open Library

-- ---------------------------------------------------------------------------
-- Scanning
-- ---------------------------------------------------------------------------

theorem ignorable_true (code : Bytes) :
    ignorable true code = (code.takeWhile (· ≠ newline)).length +
      ignorable false (code.drop (code.takeWhile (· ≠ newline)).length) := by
  induction code with
  | nil => rfl
  | cons sym rest ih =>
    by_cases h : sym = newline
    · subst h
      have hc : newline ≠ byte '#' := by decide
      have hs : isspace newline = true := by decide
      simp [ignorable, hc, hs]
    · simp only [ne_eq, h, not_false_eq_true, decide_true, List.takeWhile_cons_of_pos,
        List.length_cons, List.drop_succ_cons, ignorable] at ih ⊢
      omega

theorem skipIgnoreable_eq {code : Bytes} {left index : Nat} (h : code.length - index ≤ left) :
    skipIgnoreable code left index = index + ignorable false (code.drop index) := by
  induction left generalizing index with
  | zero =>
    have hend : code.length ≤ index := by omega
    simp [skipIgnoreable, List.drop_eq_nil_of_le hend, ignorable]
  | succ left ih =>
    rw [skipIgnoreable]
    by_cases hlt : index < code.length
    · rw [List.getElem?_eq_getElem hlt, List.drop_eq_getElem_cons hlt]
      by_cases hc : code[index] = byte '#'
      · simp only [ignorable, hc, if_true]
        rw [ih (by simp only [advanceWhile]; omega), ignorable_true, advanceWhile, List.drop_drop]
        omega
      · cases hs : isspace code[index] with
        | true =>
          simp [ignorable, hc, hs, ih (show code.length - (index + 1) ≤ left by omega)]
          omega
        | false => simp [ignorable, hc, hs]
    · rw [List.getElem?_eq_none (by omega), List.drop_eq_nil_of_le (by omega)]
      rfl

-- ---------------------------------------------------------------------------
-- Outcomes
-- ---------------------------------------------------------------------------

/-- How a procedure ends, next to what the parser on words returns. `stop` is
the lexeme that the lexer does not get past. -/
inductive Ends {α β : Type} (stop : Option Lexeme) (post : α → β → Parser → Prop) :
    EStateM.Result Halt Parser α → Except Failure β → Prop
  | ok {a b s} : post a b s → Ends stop post (.ok a s) (.ok b)
  | outOfMemory {s r} : s.state = .error → s.error = .outOfMemory →
      Ends stop post (.error .returnFalse s) r
  | failed {s e i j} : s.state = .error → s.error = e → s.errorInfo = .code i j →
      Ends stop post (.error .returnFalse s) (.error (.failed e i j))
  | stopped {s l} : stop = some l → (∀ name, l.word ≠ .ident name) → s.state = .error →
      s.error ≠ .outOfMemory → Ends stop post (.error .returnFalse s) (.error .stopped)
  | overrun {s l name} : stop = some l → l.word = .ident name →
      Ends stop post (.error (.fault .overrun) s) (.error .stopped)
  | fuel {s} : Ends stop post (.error (.fault .fuel) s) (.error .fuel)

section
variable {α α' β β' : Type} {stop : Option Lexeme} {post : α → β → Parser → Prop}
  {post' : α' → β' → Parser → Prop} {x : Proc Parser α} {f : α → Proc Parser α'} {s : Parser}
  {r : Except Failure β} {g : β → Except Failure β'}

theorem Ends.bind (h : Ends stop post (x s) r)
    (hf : ∀ a b s', post a b s' → Ends stop post' (f a s') (g b)) :
    Ends stop post' ((x >>= f) s) (r >>= g) := by
  generalize hx : x s = res at h
  cases h with
  | ok hp => rw [proc_bind_of_ok hx]; exact hf _ _ _ hp
  | outOfMemory hs he => rw [proc_bind_of_error hx]; exact .outOfMemory hs he
  | failed hs he hi => rw [proc_bind_of_error hx]; exact .failed hs he hi
  | stopped hl hw hs he => rw [proc_bind_of_error hx]; exact .stopped hl hw hs he
  | overrun hl hw => rw [proc_bind_of_error hx]; exact .overrun hl hw
  | fuel => rw [proc_bind_of_error hx]; exact .fuel

/-- A step that the parser on words does not make. -/
theorem Ends.seq {b : β} {r' : Except Failure β'} (h : Ends stop post (x s) (.ok b))
    (hf : ∀ a s', post a b s' → Ends stop post' (f a s') r') :
    Ends stop post' ((x >>= f) s) r' := by
  generalize hx : x s = res at h
  cases h with
  | ok hp => rw [proc_bind_of_ok hx]; exact hf _ _ hp
  | outOfMemory hs he => rw [proc_bind_of_error hx]; exact .outOfMemory hs he

theorem Ends.mono {post' : α → β → Parser → Prop} {res : EStateM.Result Halt Parser α}
    (h : Ends stop post res r) (hp : ∀ a b s', r = .ok b → post a b s' → post' a b s') :
    Ends stop post' res r := by
  cases h with
  | ok h => exact .ok (hp _ _ _ rfl h)
  | outOfMemory hs he => exact .outOfMemory hs he
  | failed hs he hi => exact .failed hs he hi
  | stopped hl hw hs he => exact .stopped hl hw hs he
  | overrun hl hw => exact .overrun hl hw
  | fuel => exact .fuel

theorem Ends.fail {e : ParserError} {i j : Nat} :
    Ends stop post ((ParserExample.fail e i j : Proc Parser α) s) (.error (.failed e i j)) :=
  .failed rfl rfl rfl

end

-- ---------------------------------------------------------------------------
-- One token
-- ---------------------------------------------------------------------------

def Word.tokenType : Word → Option TokenType
  | .plus => some .plus
  | .minus => some .minus
  | .mul => some .mul
  | .div => some .div
  | .parenOpen => some .parenOpen
  | .parenClose => some .parenClose
  | .int _ => some .int
  | .ident _ => some .ident
  | .eof => some .eof
  | .illegal _ => none

structure Shows (s : Parser) (l : Lexeme) : Prop where
  type : l.word.tokenType = some s.token.type
  startIndex : s.token.startIndex = l.startIndex
  endIndex : s.token.endIndex = l.endIndex
  value : ∀ digits, l.word = .int digits → s.token.value = Int64.ofNat (decimal digits)
  name : ∀ name, l.word = .ident name → s.tokenName = name

structure Scanned (s : Parser) (l : Lexeme) (s' : Parser) : Prop where
  shown : Shows s' l
  state : s'.state = .tokenReady
  args : s'.args = s.args
  code : s'.code = s.code
  ast : s'.ast = s.ast
  inv : s'.buffer.Inv
  index : s'.index = l.endIndex
  capacity : s'.buffer.capacity = l.word.capacityAfter s.buffer.capacity

section
variable {s : Parser} {stop : Option Lexeme}

/-- The lexeme, if the lexer gets past it. -/
def scan (capacity : Nat) (l : Lexeme) : Except Failure Lexeme :=
  if l.word.isReadable capacity then .ok l else .error .stopped

theorem parseInt_ends {digits : Bytes} (hinv : s.buffer.Inv)
    (hd : (s.code.drop s.index).takeWhile isDigit = digits)
    (hstop : (Word.int digits).isReadable s.buffer.capacity = false →
      stop = some ⟨.int digits, s.index⟩) :
    Ends stop (fun _ l s' => Scanned s l s') (parseInt s)
      (scan s.buffer.capacity ⟨.int digits, s.index⟩) := by
  by_cases hle : decimal digits ≤ maxLiteral
  · rw [parseInt_fits hd hle, scan, if_pos (by simpa [Word.isReadable] using hle)]
    refine .ok ⟨⟨rfl, rfl, rfl, ?_, ?_⟩, rfl, rfl, rfl, rfl, hinv, rfl, rfl⟩
    · rintro _ ⟨⟩
      rfl
    · rintro _ ⟨⟩
  · obtain ⟨n, -, -, -, s', hs', hstate, herror, -⟩ := parseInt_exceeds hd (Nat.not_le.mp hle)
    have hnot : (Word.int digits).isReadable s.buffer.capacity = false := by
      simpa [Word.isReadable] using hle
    rw [hs', scan, hnot]
    refine .stopped (hstop hnot) (by simp) hstate ?_
    rw [herror]
    rintro ⟨⟩

theorem parserBufferAppend_cases (hinv : s.buffer.Inv) (chunk : Bytes) :
    let size := s.buffer.used + chunk.length
    (∃ s', parserBufferAppend (bufferAppend · · chunk) s = .error .returnFalse s' ∧
      s'.state = .error ∧ s'.error = .outOfMemory) ∨
    (parserBufferAppend (bufferAppend · · chunk) s = .error (.fault .overrun) s ∧
      s.buffer.capacity < size ∧ newCapacity s.buffer.capacity < size) ∨
    ∃ buffer heap, parserBufferAppend (bufferAppend · · chunk) s = .ok () { s with buffer, heap } ∧
      buffer.Inv ∧ buffer.contents = s.buffer.contents ++ chunk ∧ buffer.used = size ∧
      buffer.capacity = capacityFor s.buffer.capacity size ∧
      (size ≤ s.buffer.capacity ∨ size ≤ newCapacity s.buffer.capacity) := by
  unfold parserBufferAppend
  simp only [proc_get_bind]
  rcases bufferAppend_cases s.heap s.buffer chunk with
    ⟨heap, hr, -⟩ | ⟨hr, hg, hlt⟩ | ⟨capacity, heap, hr, -, hle, hcap⟩
  · refine .inl ?_
    rw [hr]
    exact ⟨_, rfl, rfl, rfl⟩
  · refine .inr (.inl ?_)
    rw [hr]
    exact ⟨rfl, hg.2.1, hlt⟩
  · refine .inr (.inr ⟨_, heap, by rw [hr]; rfl, hinv.append hr, contents_bufferAppend hinv hr, rfl,
      ?_, ?_⟩)
    · rcases hcap with ⟨rfl, -⟩ | ⟨hg, rfl, -⟩
      · simp [capacityFor, hle]
      · simp [capacityFor, Nat.not_le.mpr hg.2.1]
    · rcases hcap with ⟨rfl, -⟩ | ⟨hg, rfl, -⟩
      · exact .inl hle
      · exact .inr hle

theorem isIdentTail_ne_zero {sym : UInt8} (h : isIdentTail sym = true) : sym ≠ 0 := by
  rintro rfl
  exact absurd h (by decide)

theorem tokenName_eq {name : Bytes} (hc : s.buffer.contents = name ++ [0])
    (hn : ∀ sym ∈ name, isIdentTail sym = true) : s.tokenName = name := by
  have hdata : s.buffer.data = name ++ 0 :: s.buffer.data.drop s.buffer.used := by
    rw [← List.singleton_append, ← List.append_assoc, ← hc, Buffer.contents, List.take_append_drop]
  rw [Parser.tokenName, hdata, List.takeWhile_append_of_pos]
  · simp
  · intro sym hs
    simpa using isIdentTail_ne_zero (hn sym hs)

theorem parseIdent_ends {name : Bytes} (hinv : s.buffer.Inv) (hne : name ≠ [])
    (hn : (s.code.drop s.index).takeWhile isIdentTail = name)
    (hstop : (Word.ident name).isReadable s.buffer.capacity = false →
      stop = some ⟨.ident name, s.index⟩) :
    Ends stop (fun _ l s' => Scanned s l s') (parseIdent s)
      (scan s.buffer.capacity ⟨.ident name, s.index⟩) := by
  have htake : (s.code.drop s.index).take name.length = name := by
    subst hn
    exact (List.prefix_iff_eq_take.mp (List.takeWhile_prefix _)).symm
  have htail : ∀ sym ∈ name, isIdentTail sym = true := by
    subst hn
    exact fun sym hs => List.mem_takeWhile_imp hs
  have hpos : 0 < name.length := List.length_pos_iff.mpr hne
  unfold parseIdent
  simp only [proc_modify_bind, proc_get_bind, advanceWhile, hn, Nat.add_sub_cancel_left, htake]
  generalize hs₁ : ({ s with index := _, buffer := _, token := _ } : Parser) = s₁
  have hb₁ : s₁.buffer = bufferClear s.buffer := hs₁ ▸ rfl
  rcases parserBufferAppend_cases (hb₁ ▸ hinv.clear) name with
    ⟨s', hr, hs', he⟩ | ⟨hr, hlt, hlt'⟩ | ⟨buffer, heap, hr, hinv', hc, hu, hcap, hfits⟩
  · rw [proc_bind_of_error hr]
    exact .outOfMemory hs' he
  · simp only [hb₁, bufferClear, Nat.zero_add] at hlt hlt'
    have hnot : (Word.ident name).isReadable s.buffer.capacity = false := by
      simp [Word.isReadable, hlt, hlt']
    rw [proc_bind_of_error hr, scan, hnot]
    exact .overrun (hstop hnot) rfl
  · simp only [hb₁, bufferClear, Nat.zero_add] at hu hcap hfits
    have hread : (Word.ident name).isReadable s.buffer.capacity = true := by
      simpa [Word.isReadable] using hfits
    rw [proc_bind_of_ok hr, scan, if_pos hread]
    have hle := hinv'.used_le
    rcases parserBufferAppend_cases (s := { s₁ with buffer, heap }) hinv' [0] with
      ⟨s', hr', hs', he⟩ | ⟨-, hlt, hlt'⟩ | ⟨buffer', heap', hr', hinv'', hc', -, hcap', -⟩
    · rw [proc_bind_of_error (x := parserBufferAppend (bufferAppendByte · · 0)) hr']
      exact .outOfMemory hs' he
    · -- a block that the name fills is not empty, so that enlarging it is enough
      simp only [hu, List.length_singleton, newCapacity] at hlt hlt'
      split at hlt' <;> omega
    · rw [proc_bind_of_ok (x := parserBufferAppend (bufferAppendByte · · 0)) hr', proc_modify]
      have hcontents : buffer'.contents = name ++ [0] := by
        rw [hc', hc, hb₁]
        rfl
      have hcapacity : buffer'.capacity = (Word.ident name).capacityAfter s.buffer.capacity := by
        simpa [Word.capacityAfter, hu, hcap] using hcap'
      subst hs₁
      refine .ok ⟨⟨rfl, rfl, rfl, ?_, ?_⟩, rfl, rfl, rfl, rfl, hinv'', rfl, hcapacity⟩
      · rintro _ ⟨⟩
      · rintro _ ⟨⟩
        exact tokenName_eq hcontents htail

theorem takeWhile_identTail {sym : UInt8} {rest : Bytes} (h : isIdentHead sym = true) :
    (sym :: rest).takeWhile isIdentTail = sym :: rest.takeWhile isIdentTail :=
  List.takeWhile_cons_of_pos (by simp [isIdentTail, h])

theorem longestMatch_of_charType {sym : UInt8} (rest : Bytes) {type : TokenType}
    (h : charType sym = some type) :
    ∃ w, longestMatch (sym :: rest) = w ∧ w.tokenType = some type ∧ w.length = 1 ∧
      (∀ capacity, w.isReadable capacity = true ∧ w.capacityAfter capacity = capacity) ∧
      (∀ digits, w ≠ .int digits) ∧ ∀ name, w ≠ .ident name := by
  simp only [charType] at h
  split_ifs at h <;> obtain rfl := Option.some.inj h <;>
    exact ⟨_, rfl, by simp_all [longestMatch, Word.tokenType, Word.length, Word.isReadable,
      Word.capacityAfter]⟩

theorem longestMatch_of_charType_none {sym : UInt8} {rest : Bytes} (h : charType sym = none) :
    longestMatch (sym :: rest) =
      if isDigit sym then .int ((sym :: rest).takeWhile isDigit)
      else if isIdentHead sym then .ident ((sym :: rest).takeWhile isIdentTail)
      else .illegal sym := by
  simp only [charType] at h
  split_ifs at h
  cases hd : isDigit sym <;> cases hi : isIdentHead sym <;>
    simp_all [longestMatch, takeWhile_identTail]

theorem parseToken_ends (hinv : s.buffer.Inv) (hi : s.index ≤ s.code.length) {l : Lexeme}
    (hl : firstLexeme s.index (s.code.drop s.index) = l)
    (hstop : l.word.isReadable s.buffer.capacity = false → stop = some l) :
    Ends stop (fun _ l s' => Scanned s l s') (parseToken s) (scan s.buffer.capacity l) := by
  have hindex : (parserSkipIgnoreable s).index = s.index + ignorable false (s.code.drop s.index) :=
    skipIgnoreable_eq (Nat.le_refl _)
  rw [firstLexeme, List.drop_drop, ← hindex] at hl
  generalize hs₁ : parserSkipIgnoreable s = s₁ at hl
  have hcode : s.code = s₁.code := hs₁ ▸ rfl
  have hbuffer : s.buffer = s₁.buffer := hs₁ ▸ rfl
  have hscan : ∀ {l s'}, Scanned s₁ l s' → Scanned s l s' := by
    subst hs₁
    exact fun h => ⟨h.shown, h.state, h.args, h.code, h.ast, h.inv, h.index, h.capacity⟩
  rw [hbuffer] at hinv hstop ⊢
  rw [hcode] at hl
  have hi₁ : s₁.index ≤ s₁.code.length := by
    have := ignorable_le false (s.code.drop s.index)
    rw [List.length_drop] at this
    rw [← hcode, ← hs₁, hindex]
    omega
  clear hindex hcode hbuffer
  refine Ends.mono ?_ fun _ _ _ _ => hscan
  unfold parseToken
  simp only [proc_modify_bind, proc_get_bind, hs₁]
  cases hd : s₁.code.drop s₁.index with
  | nil =>
    have hlen : s₁.code.length = s₁.index := by
      have := List.drop_eq_nil_iff.mp hd
      omega
    rw [hd] at hl
    subst hl
    rw [List.getElem?_eq_none hlen.le]
    exact .ok ⟨⟨rfl, hlen, hlen, (fun _ h => by cases h), (fun _ h => by cases h)⟩, rfl, rfl, rfl,
      rfl, hinv, rfl, rfl⟩
  | cons sym rest =>
    have hsym : s₁.code[s₁.index]? = some sym := by
      rw [← List.head?_drop, hd, List.head?_cons]
    simp only [hsym]
    cases htype : charType sym with
    | some type =>
      obtain ⟨w, hw, htype', hlen, hread, hint, hident⟩ := longestMatch_of_charType rest htype
      rw [hd, hw] at hl
      subst hl
      rw [scan, if_pos (hread _).1]
      refine .ok ⟨⟨htype', rfl, ?_, fun d h => absurd h (hint d), fun n h => absurd h (hident n)⟩,
        rfl, rfl, rfl, rfl, hinv, ?_, (hread _).2.symm⟩
      · simp [Lexeme.endIndex, hlen]
      · simp [Lexeme.endIndex, hlen]
    | none =>
      rw [hd, longestMatch_of_charType_none htype, ← hd] at hl
      simp only
      split_ifs at hl ⊢ with hdigit hident
      · subst hl
        exact parseInt_ends hinv rfl hstop
      · subst hl
        exact parseIdent_ends hinv (by simp [hd, takeWhile_identTail hident]) rfl hstop
      · subst hl
        exact .stopped (hstop rfl) (by simp) rfl (by simp)

end

-- ---------------------------------------------------------------------------
-- The lexemes to come
-- ---------------------------------------------------------------------------

def Ahead (stop : Option Lexeme) (s : Parser) (tokens : List Lexeme) : Prop :=
  readable s.buffer.capacity (lexemesFrom s.index (s.code.drop s.index)) = (tokens, stop)

theorem ahead_cases {stop : Option Lexeme} {s : Parser} {tokens : List Lexeme}
    (h : Ahead stop s tokens) :
    let l := firstLexeme s.index (s.code.drop s.index)
    (l.word.isReadable s.buffer.capacity = true ∧ ∃ rest, tokens = l :: rest ∧
      (l.word.isLast = false → readable (l.word.capacityAfter s.buffer.capacity)
        (lexemesFrom l.endIndex (s.code.drop l.endIndex)) = (rest, stop))) ∨
    (l.word.isReadable s.buffer.capacity = false ∧ tokens = [] ∧ stop = some l) := by
  have hafter : afterFirst (s.code.drop s.index) =
      s.code.drop (firstLexeme s.index (s.code.drop s.index)).endIndex := by
    simp [afterFirst, firstLexeme, Lexeme.endIndex, Nat.add_assoc]
  rw [Ahead, lexemesFrom, hafter] at h
  generalize firstLexeme s.index (s.code.drop s.index) = l at h ⊢
  cases hr : l.word.isReadable s.buffer.capacity with
  | true =>
    refine .inl ⟨hr, ?_⟩
    cases hlast : l.word.isLast with
    | true =>
      simp only [hlast, if_true, readable, hr, Prod.mk.injEq] at h
      exact ⟨[], h.1.symm, fun h => by cases h⟩
    | false =>
      simp only [hlast, Bool.false_eq_true, if_false, readable, hr, if_true, Prod.mk.injEq] at h
      exact ⟨_, h.1.symm, fun _ => Prod.ext rfl h.2⟩
  | false =>
    refine .inr ⟨hr, ?_⟩
    cases hlast : l.word.isLast <;> simp [hlast, readable, hr] at h <;> simp [← h.1, ← h.2]

structure Static (names : List Bytes) (code : Bytes) (s : Parser) : Prop where
  args : s.args = names
  code : s.code = code
  inv : s.buffer.Inv
  index_le : s.index ≤ s.code.length

/-- The lexer has not looked at the lexemes to come. -/
structure Pending (names : List Bytes) (code : Bytes) (stop : Option Lexeme) (s : Parser)
    (tokens : List Lexeme) : Prop extends Static names code s where
  state : s.state = .tokenPending
  ahead : Ahead stop s tokens

/-- The parser's token is the first lexeme to come. -/
structure Ready (names : List Bytes) (code : Bytes) (stop : Option Lexeme) (s : Parser)
    (l : Lexeme) (rest : List Lexeme) : Prop extends Static names code s where
  state : s.state = .tokenReady
  shown : Shows s l
  ahead : l.word.isLast = false → Ahead stop s rest

inductive Sees (names : List Bytes) (code : Bytes) (stop : Option Lexeme) (s : Parser) :
    List Lexeme → Prop
  | pending {tokens} : Pending names code stop s tokens → Sees names code stop s tokens
  | ready {l rest} : Ready names code stop s l rest → Sees names code stop s (l :: rest)

section
variable {names : List Bytes} {code : Bytes} {stop : Option Lexeme} {s : Parser}
  {tokens rest : List Lexeme} {l : Lexeme}

theorem Scanned.ready {s' : Parser} (h : Scanned s l s') (hs : Static names code s)
    (hl : l.endIndex ≤ code.length)
    (hrest : l.word.isLast = false → readable (l.word.capacityAfter s.buffer.capacity)
      (lexemesFrom l.endIndex (s.code.drop l.endIndex)) = (rest, stop)) :
    Ready names code stop s' l rest := by
  refine ⟨⟨h.args.trans hs.args, h.code.trans hs.code, h.inv, ?_⟩, h.state, h.shown, fun hw => ?_⟩
  · rw [h.index, h.code, hs.code]
    exact hl
  · rw [Ahead, h.capacity, h.index, h.code]
    exact hrest hw

theorem parserPeekToken_ends (h : Sees names code stop s tokens) :
    Ends stop (fun _ l s' => ∃ rest, tokens = l :: rest ∧ Ready names code stop s' l rest ∧
      s'.ast = s.ast) (parserPeekToken s) (next tokens) := by
  cases h with
  | ready h =>
    simp only [parserPeekToken, proc_get_bind, h.state]
    exact .ok ⟨_, rfl, h, rfl⟩
  | pending h =>
    simp only [parserPeekToken, proc_get_bind, h.state]
    have hend := endIndex_firstLexeme_le h.index_le
    rcases ahead_cases h.ahead with ⟨hr, rest, rfl, hrest⟩ | ⟨hr, rfl, hstop⟩
    · have hscan := @parseToken_ends s stop h.inv h.index_le _ rfl (by simp [hr])
      rw [scan, if_pos hr] at hscan
      refine hscan.mono fun _ l s' hl hs' => ?_
      obtain rfl := Except.ok.inj hl
      exact ⟨rest, rfl, hs'.ready h.toStatic (h.code ▸ hend) hrest, hs'.ast⟩
    · have hscan := parseToken_ends h.inv h.index_le rfl fun _ => hstop
      simp only [scan, hr, Bool.false_eq_true, if_false] at hscan
      exact hscan.mono (by simp)

theorem parserPeekToken_eq (h : Ready names code stop s l rest) : parserPeekToken s = .ok () s := by
  simp only [parserPeekToken, proc_get_bind, h.state]
  rfl

theorem parserConsumeToken_eq (h : s.state = .tokenReady) :
    parserConsumeToken s = .ok () { s with state := .tokenPending } := by
  simp only [parserConsumeToken, proc_get_bind, h]
  rfl

theorem Ready.consume (h : Ready names code stop s l rest) (hl : l.word.isLast = false) :
    ∃ s', parserConsumeToken s = .ok () s' ∧ Pending names code stop s' rest ∧ s'.ast = s.ast ∧
      s'.tokenName = s.tokenName := by
  exact ⟨{ s with state := .tokenPending }, parserConsumeToken_eq h.state,
    ⟨⟨h.args, h.code, h.inv, h.index_le⟩, rfl, h.ahead hl⟩, rfl, rfl⟩

theorem Ready.withAst (h : Ready names code stop s l rest) (ast : Ast) (heap : Heap) :
    Ready names code stop { s with ast, heap } l rest := by
  refine ⟨⟨h.args, h.code, h.inv, h.index_le⟩, h.state, ?_, h.ahead⟩
  exact ⟨h.shown.type, h.shown.startIndex, h.shown.endIndex, h.shown.value, h.shown.name⟩

theorem Sees.withAst (h : Sees names code stop s tokens) (ast : Ast) (heap : Heap) :
    Sees names code stop { s with ast, heap } tokens := by
  cases h with
  | pending h => exact .pending ⟨⟨h.args, h.code, h.inv, h.index_le⟩, h.state, h.ahead⟩
  | ready h => exact .ready (h.withAst ast heap)

end

end ParserExample
