import ParserExample.Grammar.Stage
import ParserExample.Parser.Simulation

/-!
# What the functions of the parser promise each other

A function of the parser is called with the lexer in front of a token, pending
or ready, and no error recorded (`Live`). It ends in the same way, further on in
the code and at the stage of the grammar that it is named after, or with an
error that points into the code (`Stopped`). The induction is on the bound of
the recursion, which stays above the number of bytes that are left.
-/

namespace ParserExample

open Library

-- ---------------------------------------------------------------------------
-- Positions
-- ---------------------------------------------------------------------------

structure InCode (code : Bytes) (startIndex endIndex : Nat) : Prop where
  le : startIndex ≤ endIndex
  end_le : endIndex ≤ code.length
  line : code[startIndex]? ≠ some newline

def Parser.here (s : Parser) : Nat :=
  if s.state = .tokenReady then s.token.startIndex else s.index

structure TokenOk (s : Parser) : Prop where
  index : s.index = s.token.endIndex
  nonempty : s.token.type ≠ .eof → s.token.startIndex < s.token.endIndex
  eof : s.token.type = .eof → s.token.startIndex = s.code.length ∧ s.token.endIndex = s.code.length
  line : s.code[s.token.startIndex]? ≠ some newline

theorem TokenOk.start_le {s : Parser} (h : TokenOk s) : s.token.startIndex ≤ s.token.endIndex := by
  by_cases he : s.token.type = .eof
  · obtain ⟨hs, he⟩ := h.eof he
    omega
  · exact (h.nonempty he).le

theorem TokenOk.inCode {s : Parser} (h : TokenOk s) (hi : s.index ≤ s.code.length) :
    InCode s.code s.token.startIndex s.token.endIndex :=
  ⟨h.start_le, h.index ▸ hi, h.line⟩

-- ---------------------------------------------------------------------------
-- Errors
-- ---------------------------------------------------------------------------

structure Unexpected (code : Bytes) (s : Parser) (front : List Lexeme) (l : Lexeme)
    (st : Stage) : Prop where
  split : ∃ rest, legible code = front ++ l :: rest
  shown : Shows s l
  run : Stage.start.run front = some st
  stuck : st.step l = none
  unfinished : l.word = .eof → st ≠ ⟨false, []⟩
  illegal : s.error = .illegalToken → s.errorInfo = .code l.startIndex l.endIndex
  unclosed : s.error = .expectedCloseParen →
    ∃ i opens, st.opens = i :: opens ∧ s.errorInfo = .code i l.endIndex

structure Failed (code : Bytes) (s : Parser) : Prop where
  state : s.state = .error
  error : s.error ≠ .none
  notArgs : s.error ≠ .illegalArgName ∧ s.error ≠ .duplicatedArgName
  code_eq : s.code = code
  index : s.index ≤ code.length
  info : ∃ i j, s.errorInfo = .code i j ∧ InCode code i j
  unexpected : s.error = .illegalToken ∨ s.error = .expectedCloseParen →
    ∃ front l st, Unexpected code s front l st

/-- How a function of the parser ends that does not return `true`: the lexer has
not gone back behind `lo`. The only fault is that of the token buffer. -/
inductive Stopped (code : Bytes) (lo : Nat) : Halt → Parser → Prop
  | failed {s} (h : Failed code s) (hi : lo ≤ s.index) : Stopped code lo .returnFalse s
  | overrun {s} (hc : s.index ≤ code.length) (hi : lo ≤ s.index) :
      Stopped code lo (.fault .overrun) s

theorem Stopped.mono {code : Bytes} {lo lo' : Nat} {e : Halt} {s : Parser}
    (h : Stopped code lo e s) (hle : lo' ≤ lo) : Stopped code lo' e s := by
  cases h with
  | failed h hi => exact .failed h (hle.trans hi)
  | overrun hc hi => exact .overrun hc (hle.trans hi)

section
variable {s : Parser} {lo : Nat}

theorem meets_fail {α : Type} {post : α → Parser → Prop} {error : ParserError} {i j : Nat}
    (he : error ≠ .none ∧ (error ≠ .illegalToken ∧ error ≠ .expectedCloseParen) ∧
      error ≠ .illegalArgName ∧ error ≠ .duplicatedArgName)
    (hr : InCode s.code i j) (hi : s.index ≤ s.code.length) (hlo : lo ≤ s.index) :
    Meets (fail error i j : Proc Parser α) s post (Stopped s.code lo) := by
  refine meets_modify_bind (meets_throw (.failed
    ⟨rfl, he.1, he.2.2, rfl, hi, ⟨i, j, rfl, hr⟩, ?_⟩ hlo))
  rintro (h | h)
  · exact absurd h he.2.1.1
  · exact absurd h he.2.1.2

-- ---------------------------------------------------------------------------
-- The lexer
-- ---------------------------------------------------------------------------

theorem ignorable_head (comment : Bool) (code : Bytes) :
    (code.drop (ignorable comment code)).head? ≠ some newline := by
  intro h
  have hspace := (ignorable_stops comment h).2
  cases hspace

theorem readDigits_index {rest : Bytes} {index : Nat} {value : Long} :
    match readDigits rest index value with
    | .ok (_, i) => i = index + (rest.takeWhile isDigit).length
    | .error i => index ≤ i ∧ i < index + rest.length := by
  induction rest generalizing index value with
  | nil => simp [readDigits]
  | cons sym rest ih =>
    rw [readDigits]
    cases hd : isDigit sym with
    | false => simp [hd]
    | true =>
      simp only [Bool.not_true, Bool.false_eq_true, if_false]
      split_ifs
      · simp
      · have := @ih (index + 1) (value * 10 + Int64.ofNat (sym - byte '0').toNat)
        generalize readDigits rest (index + 1) _ = r at this ⊢
        cases r with
        | ok r =>
          simp only [List.takeWhile_cons_of_pos hd, List.length_cons] at this ⊢
          omega
        | error i =>
          simp only [List.length_cons] at this ⊢
          omega

structure TokenRead (s s' : Parser) : Prop where
  ok : TokenOk s'
  state : s'.state = .tokenReady
  error : s'.error = s.error
  start_le : s.index ≤ s'.token.startIndex

theorem parserBufferAppend_meets (hinv : s.buffer.Inv) (chunk : Bytes)
    (ht : InCode s.code s.token.startIndex s.token.endIndex) (hi : s.index ≤ s.code.length)
    (hlo : lo ≤ s.index) :
    Meets (parserBufferAppend (bufferAppend · · chunk)) s
      (fun _ s' => ∃ buffer heap, s' = { s with buffer, heap } ∧ buffer.Inv)
      (Stopped s.code lo) := by
  refine meets_get_bind ?_
  rcases bufferAppend_cases s.heap s.buffer chunk with
    ⟨heap, hr, -⟩ | ⟨hr, -⟩ | ⟨capacity, heap, hr, -⟩
  · simp only [hr]
    refine meets_modify_bind ?_
    exact @meets_fail { s with heap } lo Unit _ _ _ _ (by decide) ht hi hlo
  · simp only [hr]
    exact meets_throw (.overrun hi hlo)
  · simp only [hr]
    exact ⟨_, heap, rfl, hinv.append hr⟩

theorem parseInt_meets {sym : UInt8} (hsym : s.code[s.index]? = some sym)
    (hd : isDigit sym = true) (hlo : lo ≤ s.index) :
    Meets parseInt s (fun _ s' => TokenRead s s' ∧ s'.index ≤ s'.code.length)
      (Stopped s.code lo) := by
  obtain ⟨hlt, hget⟩ := List.getElem?_eq_some_iff.mp hsym
  have hline : s.code[s.index]? ≠ some newline := by
    rw [hsym]
    rintro ⟨⟩
    exact absurd hd (by decide)
  have hdrop : s.code.drop s.index = sym :: s.code.drop (s.index + 1) := by
    rw [List.drop_eq_getElem_cons hlt, hget]
  have hread := @readDigits_index (s.code.drop s.index) s.index 0
  have hlen := (List.takeWhile_prefix (p := isDigit) (l := s.code.drop s.index)).length_le
  have hpos : 0 < ((s.code.drop s.index).takeWhile isDigit).length := by
    rw [hdrop, List.takeWhile_cons_of_pos hd]
    exact Nat.succ_pos _
  rw [List.length_drop] at hread hlen
  refine meets_modify_bind (meets_get_bind ?_)
  dsimp only
  cases hr : readDigits (s.code.drop s.index) s.index 0 with
  | error i =>
    simp only [hr] at hread
    refine meets_modify_bind ?_
    exact @meets_fail { s with token := _, index := i } lo _ _ _ _ _ (by decide)
      ⟨hread.1, by show i ≤ s.code.length; omega, hline⟩ (by show i ≤ s.code.length; omega)
      (hlo.trans hread.1)
  | ok r =>
    obtain ⟨value, i⟩ := r
    simp only [hr] at hread
    refine meets_modify ⟨⟨⟨rfl, fun _ => ?_, (fun h => by cases h), hline⟩, rfl, rfl, le_rfl⟩, ?_⟩
    · show s.index < i
      omega
    · show i ≤ s.code.length
      omega

theorem parseIdent_meets {sym : UInt8} (hinv : s.buffer.Inv)
    (hsym : s.code[s.index]? = some sym) (hd : isIdentTail sym = true) (hlo : lo ≤ s.index) :
    Meets parseIdent s (fun _ s' => TokenRead s s' ∧ s'.index ≤ s'.code.length)
      (Stopped s.code lo) := by
  obtain ⟨hlt, hget⟩ := List.getElem?_eq_some_iff.mp hsym
  have hline : s.code[s.index]? ≠ some newline := by
    rw [hsym]
    rintro ⟨⟩
    exact absurd hd (by decide)
  have hdrop : s.code.drop s.index = sym :: s.code.drop (s.index + 1) := by
    rw [List.drop_eq_getElem_cons hlt, hget]
  have hlen := (List.takeWhile_prefix (p := isIdentTail) (l := s.code.drop s.index)).length_le
  have hpos : 0 < ((s.code.drop s.index).takeWhile isIdentTail).length := by
    rw [hdrop, List.takeWhile_cons_of_pos hd]
    exact Nat.succ_pos _
  rw [List.length_drop] at hlen
  refine meets_modify_bind (meets_get_bind ?_)
  dsimp only [advanceWhile]
  generalize ((s.code.drop s.index).takeWhile isIdentTail).length = n at hlen hpos ⊢
  generalize hs₁ : ({ s with index := _, buffer := _, token := _ } : Parser) = s₁
  generalize (s.code.drop s.index).take (s.index + n - s.index) = name
  have hcode : s.code = s₁.code := hs₁ ▸ rfl
  have hi : s₁.index ≤ s₁.code.length := by
    rw [← hs₁]
    show s.index + n ≤ s.code.length
    omega
  have hlo₁ : lo ≤ s₁.index := by
    rw [← hs₁]
    show lo ≤ s.index + n
    omega
  have ht : InCode s₁.code s₁.token.startIndex s₁.token.endIndex := by
    rw [← hs₁]
    exact ⟨Nat.le_add_right _ _, by show s.index + n ≤ s.code.length; omega, hline⟩
  have hinv₁ : s₁.buffer.Inv := by
    rw [← hs₁]
    exact hinv.clear
  rw [hcode]
  refine (parserBufferAppend_meets hinv₁ name ht hi hlo₁).bind ?_
  rintro _ _ - ⟨buffer, heap, rfl, hinv₂⟩
  refine (@parserBufferAppend_meets { s₁ with buffer, heap } lo hinv₂ [0] ht hi hlo₁).bind ?_
  rintro _ _ - ⟨buffer', heap', rfl, -⟩
  refine meets_modify ?_
  subst hs₁
  refine ⟨⟨⟨rfl, fun _ => ?_, (fun h => by cases h), hline⟩, rfl, rfl, le_rfl⟩, hi⟩
  show s.index < s.index + n
  omega

theorem parserSkipIgnoreable_ok (hi : s.index ≤ s.code.length) :
    let s' := parserSkipIgnoreable s
    s.index ≤ s'.index ∧ s'.index ≤ s'.code.length ∧ s'.code[s'.index]? ≠ some newline := by
  have hindex : (parserSkipIgnoreable s).index = s.index + ignorable false (s.code.drop s.index) :=
    skipIgnoreable_eq (Nat.le_refl _)
  have hle := ignorable_le false (s.code.drop s.index)
  have hhead := ignorable_head false (s.code.drop s.index)
  rw [List.length_drop] at hle
  rw [List.drop_drop, List.head?_drop] at hhead
  simp only [hindex]
  exact ⟨by omega, by show _ ≤ s.code.length; omega, hhead⟩

theorem parseToken_meets (hinv : s.buffer.Inv) (hi : s.index ≤ s.code.length) :
    Meets parseToken s (fun _ s' => TokenRead s s' ∧ s'.index ≤ s'.code.length)
      (Stopped s.code s.index) := by
  obtain ⟨hle, hlen, hline⟩ := parserSkipIgnoreable_ok hi
  refine meets_modify_bind (meets_get_bind ?_)
  generalize hs₁ : parserSkipIgnoreable s = s₁ at hle hlen hline
  have hcode : s.code = s₁.code := hs₁ ▸ rfl
  have hinv₁ : s₁.buffer.Inv := hs₁ ▸ hinv
  -- what holds of a call from the state behind the gap
  have hread {s'} (h : TokenRead s₁ s' ∧ s'.index ≤ s'.code.length) :
      TokenRead s s' ∧ s'.index ≤ s'.code.length := by
    refine ⟨⟨h.1.ok, h.1.state, h.1.error.trans (hs₁ ▸ rfl), hle.trans h.1.start_le⟩, h.2⟩
  rw [hcode]
  cases hsym : s₁.code[s₁.index]? with
  | none =>
    have hend : s₁.index = s₁.code.length := by
      have := List.getElem?_eq_none_iff.mp hsym
      omega
    refine meets_modify (hread
      ⟨⟨⟨hend, fun h => absurd rfl h, fun _ => ⟨rfl, rfl⟩, ?_⟩, rfl, rfl, hlen⟩, hlen⟩)
    exact hend ▸ hline
  | some sym =>
    have hlt := (List.getElem?_eq_some_iff.mp hsym).1
    simp only
    cases htype : charType sym with
    | some type =>
      refine meets_modify (hread ⟨⟨⟨rfl, fun _ => ?_, fun h => ?_, hline⟩, rfl, rfl, le_rfl⟩, hlt⟩)
      · exact Nat.lt_succ_self _
      · exact absurd h (charType_ne_eof htype)
    | none =>
      simp only
      split_ifs with hd hh
      · exact (parseInt_meets hsym hd hle).mono (fun _ _ _ => hread) fun _ _ => id
      · refine (parseIdent_meets hinv₁ hsym ?_ hle).mono (fun _ _ _ => hread) fun _ _ => id
        simp [isIdentTail, hh]
      · exact meets_fail (by decide) ⟨Nat.le_succ _, hlt, hline⟩ hlen hle

end

-- ---------------------------------------------------------------------------
-- The parser between two tokens
-- ---------------------------------------------------------------------------

/-- `Stage.step` on the token of a lexeme. -/
def Stage.shift (st : Stage) (type : TokenType) (startIndex : Nat) : Option Stage :=
  match st.operand, type with
  | true, .plus | true, .minus => some st
  | true, .int | true, .ident => some ⟨false, st.opens⟩
  | true, .parenOpen => some ⟨true, startIndex :: st.opens⟩
  | false, .plus | false, .minus | false, .mul | false, .div => some ⟨true, st.opens⟩
  | false, .parenClose =>
    match st.opens with
    | [] => none
    | _ :: opens => some ⟨false, opens⟩
  | _, _ => none

theorem Shows.step {s : Parser} {l : Lexeme} (h : Shows s l) (st : Stage) :
    st.step l = st.shift s.token.type s.token.startIndex := by
  obtain ⟨operand, opens⟩ := st
  have htype := h.type
  rw [h.startIndex]
  cases operand <;> cases opens <;> cases hw : l.word <;> rw [hw] at htype <;>
    simp only [Word.tokenType, Option.some.injEq, reduceCtorEq] at htype <;>
    simp only [Stage.step, Stage.shift, hw, ← htype]

theorem Shows.eof_iff {s : Parser} {l : Lexeme} (h : Shows s l) :
    l.word = .eof ↔ s.token.type = .eof := by
  have htype := h.type
  cases hw : l.word <;> rw [hw] at htype <;>
    simp only [Word.tokenType, Option.some.injEq, reduceCtorEq] at htype <;> simp [← htype]

/-- The parser goes on, at a stage of the grammar. -/
structure Live (names : List Bytes) (code : Bytes) (s : Parser) (st : Stage) : Prop where
  error : s.error = .none
  token : s.state = .tokenReady → TokenOk s
  stage : ∃ front tokens, legible code = front ++ tokens ∧
    Sees names code (obstacle code) s tokens ∧ Stage.start.run front = some st

structure Parser.Before (s s' : Parser) : Prop where
  index : s.index ≤ s'.index
  here : s.here ≤ s'.here

theorem Parser.Before.refl (s : Parser) : s.Before s := ⟨le_rfl, le_rfl⟩

theorem Parser.Before.trans {s s' s'' : Parser} (h : s.Before s') (h' : s'.Before s'') :
    s.Before s'' := ⟨h.index.trans h'.index, h.here.trans h'.here⟩

@[simp] theorem Parser.here_withAst (s : Parser) (ast : Ast) (heap : Heap) :
    ({ s with ast, heap } : Parser).here = s.here := rfl

theorem Parser.Before.withAst {s s' : Parser} (h : s.Before s') (ast : Ast) (heap : Heap) :
    s.Before { s' with ast, heap } := ⟨h.index, h.here⟩

theorem Sees.static {names : List Bytes} {code : Bytes} {stop : Option Lexeme} {s : Parser}
    {tokens : List Lexeme} (h : Sees names code stop s tokens) : Static names code s := by
  cases h with
  | pending h => exact h.toStatic
  | ready h => exact h.toStatic

theorem Sees.state {names : List Bytes} {code : Bytes} {stop : Option Lexeme} {s : Parser}
    {tokens : List Lexeme} (h : Sees names code stop s tokens) :
    s.state = .tokenPending ∨ s.state = .tokenReady := by
  cases h with
  | pending h => exact .inl h.state
  | ready h => exact .inr h.state

section
variable {names : List Bytes} {code : Bytes} {s s' : Parser} {st st' : Stage} {lo : Nat}

theorem Live.static (h : Live names code s st) : Static names code s := by
  obtain ⟨_, _, _, hs, _⟩ := h.stage
  exact hs.static

theorem Live.state (h : Live names code s st) :
    s.state = .tokenPending ∨ s.state = .tokenReady := by
  obtain ⟨_, _, _, hs, _⟩ := h.stage
  exact hs.state

theorem Live.index_le (h : Live names code s st) : s.index ≤ code.length :=
  h.static.code ▸ h.static.index_le

theorem Live.tokenIn (h : Live names code s st) (hr : s.state = .tokenReady) :
    InCode code s.token.startIndex s.token.endIndex :=
  h.static.code ▸ (h.token hr).inCode h.static.index_le

theorem Parser.here_ready (h : s.state = .tokenReady) : s.here = s.token.startIndex := if_pos h

theorem Parser.here_pending (h : s.state = .tokenPending) : s.here = s.index :=
  if_neg (by rw [h]; decide)

theorem Live.here_le_index (h : Live names code s st) : s.here ≤ s.index := by
  rcases h.state with hs | hs
  · rw [Parser.here_pending hs]
  · rw [Parser.here_ready hs, (h.token hs).index]
    exact (h.token hs).start_le

theorem Live.here_le (h : Live names code s st) : s.here ≤ code.length :=
  h.here_le_index.trans h.index_le

theorem Live.withAst (h : Live names code s st) (ast : Ast) (heap : Heap) :
    Live names code { s with ast, heap } st := by
  obtain ⟨front, tokens, hl, hs, hrun⟩ := h.stage
  refine ⟨h.error, fun hr => ?_, front, tokens, hl, hs.withAst ast heap, hrun⟩
  have ht := h.token hr
  exact ⟨ht.index, ht.nonempty, ht.eof, ht.line⟩

theorem live_init (heap : Heap) (code : Bytes) (names : List Bytes) :
    Live names code (Parser.init heap code names) Stage.start := by
  refine ⟨rfl, (fun h => by cases h), [], legible code, rfl, ?_, rfl⟩
  exact .pending ⟨⟨rfl, rfl, Buffer.inv_init, Nat.zero_le _⟩, rfl, rfl⟩

-- ---------------------------------------------------------------------------
-- Failure
-- ---------------------------------------------------------------------------

theorem Live.meets_fail {α : Type} {post : α → Parser → Prop} {error : ParserError} {i j : Nat}
    (h : Live names code s st)
    (he : error ≠ .none ∧ (error ≠ .illegalToken ∧ error ≠ .expectedCloseParen) ∧
      error ≠ .illegalArgName ∧ error ≠ .duplicatedArgName)
    (hr : InCode code i j) (hlo : lo ≤ s.index) :
    Meets (fail error i j : Proc Parser α) s post (Stopped code lo) := by
  obtain rfl := h.static.code
  exact ParserExample.meets_fail he hr h.index_le hlo

/-- The token cannot stand where it does: the error starts at the token, or at
the parenthesis that is not closed. -/
theorem Live.meets_unexpected {α : Type} {post : α → Parser → Prop} {error : ParserError}
    {i : Nat} (h : Live names code s st) (hr : s.state = .tokenReady)
    (hstuck : st.shift s.token.type s.token.startIndex = none)
    (hend : s.token.type = .eof → st ≠ ⟨false, []⟩)
    (he : error = .illegalToken ∧ i = s.token.startIndex ∨
      error = .expectedCloseParen ∧ ∃ opens, st.opens = i :: opens)
    (hi : InCode code i s.token.endIndex) (hlo : lo ≤ s.index) :
    Meets (fail error i s.token.endIndex : Proc Parser α) s post (Stopped code lo) := by
  obtain ⟨front, tokens, hl, hs, hrun⟩ := h.stage
  cases hs with
  | pending hp =>
    rw [hp.state] at hr
    cases hr
  | @ready l rest hready =>
    have hshown := hready.shown
    refine meets_modify_bind (meets_throw (.failed ⟨rfl, ?_, ?_, h.static.code, h.index_le,
      ⟨_, _, rfl, hi⟩, fun _ => ⟨front, l, st, ⟨rest, hl⟩, ?_, hrun, ?_, ?_, ?_, ?_⟩⟩ hlo))
    · rcases he with ⟨rfl, -⟩ | ⟨rfl, -⟩ <;> rintro ⟨⟩
    · rcases he with ⟨rfl, -⟩ | ⟨rfl, -⟩ <;> constructor <;> rintro ⟨⟩
    · exact ⟨hshown.type, hshown.startIndex, hshown.endIndex, hshown.value, hshown.name⟩
    · rw [hshown.step, hstuck]
    · exact fun hw => hend (hshown.eof_iff.mp hw)
    · rintro hill
      rcases he with ⟨-, rfl⟩ | ⟨rfl, -⟩
      · exact congrArg₂ ErrorInfo.code hshown.startIndex hshown.endIndex
      · cases hill
    · rintro hclose
      rcases he with ⟨rfl, -⟩ | ⟨-, opens, hopens⟩
      · cases hclose
      · exact ⟨i, opens, hopens, congrArg (ErrorInfo.code i) hshown.endIndex⟩

-- ---------------------------------------------------------------------------
-- Tokens and nodes
-- ---------------------------------------------------------------------------

structure Peeked (names : List Bytes) (code : Bytes) (st : Stage) (s s' : Parser) : Prop where
  live : Live names code s' st
  state : s'.state = .tokenReady
  before : s.Before s'
  same : s.state = .tokenReady → s' = s

theorem parserPeekToken_meets (h : Live names code s st) :
    Meets parserPeekToken s (fun _ => Peeked names code st s) (Stopped code s.index) := by
  obtain ⟨front, tokens, hl, hs, hrun⟩ := h.stage
  rcases h.state with hp | hr
  · have hends := parserPeekToken_ends hs
    have hmeets : Meets parserPeekToken s (fun _ s' => TokenRead s s' ∧ s'.index ≤ s'.code.length)
        (Stopped code s.index) := by
      obtain rfl := h.static.code
      unfold parserPeekToken
      refine meets_get_bind ?_
      simp only [hp]
      exact parseToken_meets h.static.inv h.static.index_le
    refine hmeets.mono (fun _ s' hok hread => ?_) fun _ _ => id
    rw [hok] at hends
    generalize next tokens = r at hends
    cases hends with
    | ok hpost =>
      obtain ⟨rest, rfl, hready, -⟩ := hpost
      have hstart := hread.1.start_le
      have hindex := hread.1.ok.index
      have hend := hread.1.ok.start_le
      refine ⟨⟨hread.1.error.trans h.error, fun _ => hread.1.ok, front, _, hl, .ready hready, hrun⟩,
        hready.state, ⟨by omega, ?_⟩, fun hr => ?_⟩
      · rw [Parser.here_pending hp, Parser.here_ready hready.state]
        exact hstart
      · rw [hp] at hr
        cases hr
  · unfold parserPeekToken
    refine meets_get_bind ?_
    simp only [hr]
    exact meets_pure ⟨h, hr, .refl s, fun _ => rfl⟩

structure Consumed (names : List Bytes) (code : Bytes) (st' : Stage) (s s' : Parser) : Prop where
  live : Live names code s' st'
  eq : s' = { s with state := .tokenPending }
  here : s.here < s'.here

theorem parserConsumeToken_meets (h : Live names code s st) (hr : s.state = .tokenReady)
    (heof : s.token.type ≠ .eof)
    (hstep : st.shift s.token.type s.token.startIndex = some st') :
    Meets parserConsumeToken s (fun _ => Consumed names code st' s) (Stopped code lo) := by
  obtain ⟨front, tokens, hl, hs, hrun⟩ := h.stage
  unfold parserConsumeToken
  refine meets_get_bind ?_
  simp only [hr]
  refine meets_modify ⟨⟨h.error, (fun hr => by cases hr), ?_⟩, rfl, ?_⟩
  · cases hs with
    | pending hp =>
      rw [hp.state] at hr
      cases hr
    | @ready l rest hready =>
      have hlast : l.word.isLast = false := by
        have hword := mt hready.shown.eof_iff.mp heof
        have htype := hready.shown.type
        cases hw : l.word <;> simp_all [Word.isLast, Word.tokenType]
      refine ⟨front ++ [l], rest, by rw [hl, List.append_assoc]; rfl, .pending ?_, ?_⟩
      · exact ⟨⟨hready.args, hready.code, hready.inv, hready.index_le⟩, rfl, hready.ahead hlast⟩
      · rw [Stage.run_concat, hrun, Option.bind_some, hready.shown.step, hstep]
  · rw [Parser.here_ready hr]
    show s.token.startIndex < s.index
    rw [(h.token hr).index]
    exact (h.token hr).nonempty heof

theorem parserAppendNode_meets {node : AstNode} (h : Live names code s st)
    (hn : InCode code node.startIndex node.endIndex) (hlo : lo ≤ s.index) :
    Meets (parserAppendNode node) s
      (fun _ s' => ∃ ast heap, s' = { s with ast, heap } ∧ ast.nodes = s.ast.nodes ++ [node])
      (Stopped code lo) := by
  unfold parserAppendNode
  refine meets_get_bind ?_
  rcases astAppendNode_cases s.heap s.ast node with
    ⟨heap, ha⟩ | ⟨capacity, heap, ha, -⟩
  · simp only [ha]
    refine meets_modify_bind ?_
    exact (h.withAst s.ast heap).meets_fail (by decide) hn hlo
  · simp only [ha]
    exact meets_modify_bind (meets_pure ⟨_, _, rfl, rfl⟩)

end

end ParserExample
