import ParserExample.Parser.Calls
import ParserExample.Parser.Errors

/-!
# The state machine of the parser

Every call of a run finds the parser as its function needs it (`Call.Pre`): the
calls of a body do if the call of the body does (`Calls.pre`). What a call does
then follows from the contract of its function.
-/

namespace ParserExample

open Library

-- ---------------------------------------------------------------------------
-- What a call needs
-- ---------------------------------------------------------------------------

def Level.follow : Level → Parser → Prop
  | .addSub => Follows mulDivType
  | .mulDiv => fun _ => True

section
variable (names : List Bytes) (code : Bytes)

def AtOperand (fuel : Nat) (s : Parser) : Prop :=
  ∃ opens, Live names code s ⟨true, opens⟩ ∧ code.length < s.here + fuel

def Call.Pre : Call → Parser → Prop
  | .program, s => ∃ heap, s = Parser.init heap code names
  | .expr fuel, s | .addSub fuel, s | .signs fuel _, s => AtOperand names code fuel s
  | .mulDiv fuel, s | .signed fuel, s => AtOperand names code (fuel + 1) s
  | .atom fuel, s => AtOperand names code (fuel + 1) s ∧ Follows addSubType s
  | .paren fuel, s =>
    AtOperand names code (fuel + 1) s ∧ s.state = .tokenReady ∧ s.token.type = .parenOpen
  | .loop level fuel count node, s =>
    (∃ opens, Live names code s ⟨false, opens⟩) ∧ level.follow s ∧
      InCode code node.startIndex node.endIndex ∧ code.length < s.here + (fuel + 1) ∧
      code.length < s.here + count
  | .peekToken, s => ∃ st, Live names code s st
  | .consumeToken, s => (∃ st, Live names code s st) ∧ s.state = .tokenReady
  | .token, s => (∃ st, Live names code s st) ∧ s.state = .tokenPending
  | .appendNode node, s =>
    (∃ st, Live names code s st) ∧ InCode code node.startIndex node.endIndex

end

structure Goes (code : Bytes) (s s' : Parser) : Prop where
  code_eq : s'.code = code
  error : s'.error = .none
  state : s'.state ≠ .error
  index : s.index ≤ s'.index
  index_le : s'.index ≤ code.length

def Call.endsReady : Call → Bool
  | .addSub _ | .mulDiv _ | .loop _ _ _ _ => true
  | _ => false

section
variable {names : List Bytes} {code : Bytes} {s s' : Parser} {st : Stage} {c c' : Call}
  {fuel : Nat} {opens : List Nat} {node : AstNode}

theorem Call.Pre.live (h : c.Pre names code s) : ∃ st, Live names code s st := by
  cases c with
  | program =>
    obtain ⟨heap, rfl⟩ := h
    exact ⟨_, live_init heap code names⟩
  | expr | addSub | signs | mulDiv | signed =>
    obtain ⟨opens, hl, -⟩ := h
    exact ⟨_, hl⟩
  | atom | paren =>
    obtain ⟨⟨opens, hl, -⟩, -⟩ := h
    exact ⟨_, hl⟩
  | loop =>
    obtain ⟨⟨opens, hl⟩, -⟩ := h
    exact ⟨_, hl⟩
  | peekToken => exact h
  | consumeToken | token | appendNode => exact h.1

theorem Live.goes (h : Live names code s' st) (hi : s.index ≤ s'.index) : Goes code s s' := by
  refine ⟨h.static.code, h.error, fun he => ?_, hi, h.index_le⟩
  rcases h.state with hs | hs <;> rw [hs] at he <;> cases he

theorem meets_runs {α : Type} {x : Proc Parser α} {post : α → Parser → Prop}
    {post' : Unit → Parser → Prop} {stop : Halt → Parser → Prop} (h : Meets x s post stop)
    (hp : ∀ a s', post a s' → post' () s') : Meets (runs x) s post' stop :=
  h.bind fun a s' _ hpost => meets_pure (hp a s' hpost)

theorem Level.operators (level : Level) : Operators level.op := by
  cases level
  · exact operators_addSub
  · exact operators_mulDiv

theorem Level.lasting (level : Level) : Lasting level.follow := by
  cases level
  · exact lasting_follows _
  · exact lasting_true

theorem Level.parsesOperand (level : Level) :
    ParsesOperand names code (fuel + 1) (level.parseOperand fuel) level.follow := by
  cases level
  · exact parseMulDiv_meets (parseAddSub_meets names code fuel)
  · exact parseSigned_meets (parseAddSub_meets names code fuel)

theorem loop_exec (level : Level) (fuel count : Nat) (node : AstNode) :
    (Call.loop level fuel count node).exec =
      runs (parseLoop level.op (level.parseOperand fuel) count node) := by
  cases level
  · exact congrArg runs (parseAddSubLoop_eq _ _ _ _)
  · exact congrArg runs (parseMulDivLoop_eq _ _ _ _)

-- ---------------------------------------------------------------------------
-- What a call does
-- ---------------------------------------------------------------------------

theorem AtOperand.meets {x : Proc Parser AstNode} {follow : Parser → Prop} {ready : Bool}
    (h : AtOperand names code fuel s) (hx : ParsesOperand names code fuel x follow)
    (hready : ∀ s', follow s' → ready = true → s'.state = .tokenReady) :
    Meets (runs x) s (fun _ s' => Goes code s s' ∧ (ready = true → s'.state = .tokenReady))
      (Stopped code s.index) := by
  obtain ⟨opens, hl, hf⟩ := h
  refine meets_runs (hx s opens hl hf) ?_
  rintro node s' ⟨hread, hfollow⟩
  exact ⟨hread.live.goes hread.index, hready s' hfollow⟩

theorem parseProgram_goes (heap : Heap) (code : Bytes) (names : List Bytes) :
    Meets parseProgram (Parser.init heap code names)
      (fun _ s' => Goes code (Parser.init heap code names) s') (Stopped code 0) := by
  refine (parseProgram_meets heap code names).mono (fun _ s' _ hd => ?_) fun _ _ => id
  exact ⟨hd.code_eq, hd.error, by rw [hd.state]; decide, Nat.zero_le _, hd.index.le⟩

theorem parserPeekToken_goes (hl : Live names code s st) :
    Meets parserPeekToken s (fun _ s' => Goes code s s') (Stopped code s.index) :=
  (parserPeekToken_meets hl).mono (fun _ _ _ hp => hp.live.goes hp.before.index) fun _ _ => id

theorem parserConsumeToken_goes (hl : Live names code s st) (hr : s.state = .tokenReady) :
    Meets parserConsumeToken s (fun _ s' => Goes code s s') (Stopped code s.index) := by
  unfold parserConsumeToken
  refine meets_get_bind ?_
  simp only [hr]
  refine meets_modify ⟨hl.static.code, hl.error, ?_, le_rfl, hl.index_le⟩
  rintro ⟨⟩

/-- Where a token is pending, to look at it is to read it. -/
theorem parseToken_goes (hl : Live names code s st) (hp : s.state = .tokenPending) :
    Meets parseToken s (fun _ s' => Goes code s s') (Stopped code s.index) := by
  have htoken : parserPeekToken s = parseToken s := by
    unfold parserPeekToken
    simp only [proc_get_bind, hp]
  have hpeek := parserPeekToken_goes hl
  unfold Meets at hpeek ⊢
  rwa [htoken] at hpeek

theorem parserAppendNode_goes (hl : Live names code s st)
    (hn : InCode code node.startIndex node.endIndex) :
    Meets (parserAppendNode node) s (fun _ s' => Goes code s s') (Stopped code s.index) := by
  refine (parserAppendNode_meets hl hn le_rfl).mono ?_ fun _ _ => id
  rintro _ _ - ⟨ast, heap, rfl, -⟩
  exact (hl.withAst ast heap).goes le_rfl

theorem Call.exec_meets (h : c.Pre names code s) :
    Meets c.exec s (fun _ s' => Goes code s s' ∧ (c.endsReady = true → s'.state = .tokenReady))
      (Stopped code s.index) := by
  -- a function that need not end in front of a token
  have hgoes {x : Proc Parser Unit} {ready : Bool} (hready : ready = false)
      (hx : Meets x s (fun _ s' => Goes code s s') (Stopped code s.index)) :
      Meets x s (fun _ s' => Goes code s s' ∧ (ready = true → s'.state = .tokenReady))
        (Stopped code s.index) :=
    hx.mono (fun _ _ _ hg => ⟨hg, fun h => by simp [hready] at h⟩) fun _ _ => id
  cases c with
  | program =>
    obtain ⟨heap, rfl⟩ := h
    exact hgoes rfl (parseProgram_goes heap code names)
  | expr fuel =>
    obtain ⟨opens, hl, hf⟩ := h
    refine hgoes rfl ((parseExpr_meets hl hf).mono ?_ fun _ _ => id)
    rintro _ s' - ⟨hl', hb, -⟩
    exact hl'.goes hb.index
  | addSub fuel =>
    exact h.meets (parseAddSub_meets names code fuel) fun _ hfollow _ => hfollow.1.1
  | mulDiv fuel =>
    exact h.meets (parseMulDiv_meets (parseAddSub_meets names code fuel))
      fun _ hfollow _ => hfollow.1
  | signed fuel =>
    exact h.meets (parseSigned_meets (parseAddSub_meets names code fuel)) fun _ _ hb => by cases hb
  | loop level fuel count node =>
    obtain ⟨⟨opens, hl⟩, hfollow, hn, hf, hc⟩ := h
    rw [loop_exec]
    refine meets_runs (parseLoop_meets level.operators level.lasting level.parsesOperand hl hfollow
      hn (Nat.zero_le _) (Nat.zero_le _) hf hc) ?_
    rintro node' s' ⟨hl', hb, -, -, hends, -⟩
    exact ⟨hl'.goes hb.index, fun _ => hends.1⟩
  | signs count inverse =>
    obtain ⟨opens, hl, hf⟩ := h
    refine hgoes rfl (meets_runs (parseSigns_meets hl hf) ?_)
    rintro inverse' s' ⟨hl', -, hb⟩
    exact hl'.goes hb.index
  | atom fuel =>
    obtain ⟨⟨opens, hl, hf⟩, hfollow⟩ := h
    exact hgoes rfl (meets_runs (parseAtom_meets (parseAddSub_meets names code fuel) hl hfollow
      (Nat.lt_succ_iff.mp hf)) fun _ _ hread => hread.live.goes hread.index)
  | paren fuel =>
    obtain ⟨⟨opens, hl, hf⟩, hr, hopen⟩ := h
    exact hgoes rfl (meets_runs (parseParen_meets (parseAddSub_meets names code fuel) hl hr hopen
      (Nat.lt_succ_iff.mp hf)) fun _ _ hread => hread.live.goes hread.index)
  | peekToken =>
    obtain ⟨st, hl⟩ := h
    exact hgoes rfl (parserPeekToken_goes hl)
  | consumeToken =>
    obtain ⟨⟨st, hl⟩, hr⟩ := h
    exact hgoes rfl (parserConsumeToken_goes hl hr)
  | token =>
    obtain ⟨⟨st, hl⟩, hp⟩ := h
    exact hgoes rfl (parseToken_goes hl hp)
  | appendNode node =>
    obtain ⟨⟨st, hl⟩, hn⟩ := h
    exact hgoes rfl (parserAppendNode_goes hl hn)

-- ---------------------------------------------------------------------------
-- From a call to the calls of its body
-- ---------------------------------------------------------------------------

theorem Live.atOperand (h : Live names code s' ⟨true, opens⟩) (hb : s.Before s')
    (hf : code.length < s.here + fuel) : AtOperand names code fuel s' :=
  ⟨opens, h, hf.trans_le (Nat.add_le_add_right hb.here fuel)⟩

theorem AtOperand.operand (h : AtOperand names code (fuel + 1) s) (level : Level) :
    (level.operand fuel).Pre names code s := by
  cases level <;> exact h

theorem Live.peeked {s₁ : Parser} (h : Live names code s st) (hp : parserPeekToken s = .ok () s₁) :
    Peeked names code st s s₁ :=
  (parserPeekToken_meets h).of_ok hp

section
variable {s₁ s₂ : Parser}

theorem Live.consumed (h : Live names code s st) (hp : parserPeekToken s = .ok () s₁)
    (hc : parserConsumeToken s₁ = .ok () s₂) (heof : s₁.token.type ≠ .eof) {st' : Stage}
    (hshift : st.shift s₁.token.type s₁.token.startIndex = some st') :
    s₁.state = .tokenReady ∧ s₁.token.type ≠ .eof ∧ s.Before s₁ ∧
      Consumed names code st' s₁ s₂ := by
  have hp := h.peeked hp
  exact ⟨hp.state, heof, hp.before,
    (@parserConsumeToken_meets _ _ _ _ _ 0 hp.live hp.state heof hshift).of_ok hc⟩

theorem Live.sign (h : Live names code s ⟨true, opens⟩) (hp : parserPeekToken s = .ok () s₁)
    (hsign : s₁.token.type = .minus ∨ s₁.token.type = .plus)
    (hc : parserConsumeToken s₁ = .ok () s₂) :
    s₁.state = .tokenReady ∧ s₁.token.type ≠ .eof ∧ s.Before s₁ ∧
      Consumed names code ⟨true, opens⟩ s₁ s₂ := by
  refine h.consumed hp hc ?_ ?_ <;> rcases hsign with hsign | hsign <;> rw [hsign]
  · decide
  · decide
  · rfl
  · rfl

theorem Live.paren (h : Live names code s ⟨true, opens⟩) (hp : parserPeekToken s = .ok () s₁)
    (hopen : s₁.token.type = .parenOpen) (hc : parserConsumeToken s₁ = .ok () s₂) :
    s₁.state = .tokenReady ∧ s₁.token.type ≠ .eof ∧ s.Before s₁ ∧
      Consumed names code ⟨true, s₁.token.startIndex :: opens⟩ s₁ s₂ := by
  refine h.consumed hp hc ?_ ?_ <;> rw [hopen]
  · decide
  · rfl

end

section
variable {level : Level} {s₁ s₂ s₃ s₄ : Parser} {type : BinaryType} {right : AstNode}
  (h : AtOperator level s s₁ type) (hl : Live names code s ⟨false, opens⟩)
  (hn : InCode code node.startIndex node.endIndex)
include h hl hn

theorem AtOperator.appended (ha : parserAppendNode node s₁ = .ok () s₂) :
    Live names code s₂ ⟨false, opens⟩ ∧ s₂.state = .tokenReady ∧ s₂.token.type ≠ .eof ∧
      s.Before s₂ ∧ s₂.token = s₁.token ∧
      Stage.shift ⟨false, opens⟩ s₂.token.type s₂.token.startIndex = some ⟨true, opens⟩ := by
  have hp := hl.peeked h.1
  obtain ⟨heof, hshift⟩ := level.operators _ (Option.isSome_of_eq_some h.2)
  obtain ⟨ast, heap, rfl, -⟩ := (parserAppendNode_meets hp.live hn hp.before.index).of_ok ha
  exact ⟨hp.live.withAst ast heap, hp.state, heof, ⟨hp.before.index, hp.before.here⟩, rfl,
    hshift _ _⟩

theorem AtOperator.consumed (ha : parserAppendNode node s₁ = .ok () s₂)
    (hc : parserConsumeToken s₂ = .ok () s₃) :
    Consumed names code ⟨true, opens⟩ s₂ s₃ ∧ s.Before s₃ := by
  obtain ⟨hl₂, hr, heof, hb, -, hshift⟩ := h.appended hl hn ha
  have hconsumed : Consumed names code ⟨true, opens⟩ s₂ s₃ :=
    (@parserConsumeToken_meets _ _ _ _ _ 0 hl₂ hr heof hshift).of_ok hc
  exact ⟨hconsumed, hb.trans (.of_consumed hconsumed)⟩

theorem OperandAt.read (ho : OperandAt level fuel node s₁ s₂ s₃ right s₄)
    (hf : code.length < s.here + (fuel + 1)) :
    Consumed names code ⟨true, opens⟩ s₂ s₃ ∧ OperandRead names code opens s₃ right s₄ ∧
      level.follow s₄ ∧ s.Before s₃ := by
  obtain ⟨ha, hc, hr⟩ := ho
  obtain ⟨hconsumed, hb⟩ := h.consumed hl hn ha hc
  have hoperand := level.parsesOperand s₃ opens hconsumed.live
    (hf.trans_le (Nat.add_le_add_right hb.here _))
  obtain ⟨hread, hfollow⟩ := hoperand.of_ok hr
  exact ⟨hconsumed, hread, hfollow, hb⟩

end

section
variable {level : Level} {count : Nat} {inverse : Bool}

theorem parseExpr_init {heap : Heap} {u : Unit}
    (h : parseExpr (code.length + 2) (Parser.init heap code names) = .ok u s') :
    Live names code s' ⟨false, []⟩ ∧ (Parser.init heap code names).Before s' := by
  have hfuel : code.length < (Parser.init heap code names).here + (code.length + 2) := by
    show code.length < 0 + (code.length + 2)
    omega
  obtain ⟨hl, hb, -⟩ := (parseExpr_meets (live_init heap code names) hfuel).of_ok h
  exact ⟨hl, hb⟩

theorem program_pre (h : Calls (.program, s) (c', s'))
    (hpre : Call.Pre names code (.program) s) : c'.Pre names code s' ∧ s.Before s' := by
  cases h with
  | program_expr =>
    obtain ⟨heap, rfl⟩ := hpre
    refine ⟨⟨[], live_init heap code names, ?_⟩, .refl _⟩
    show code.length < 0 + (code.length + 2)
    omega
  | program_peek h =>
    obtain ⟨heap, rfl⟩ := hpre
    obtain ⟨hl, hb⟩ := parseExpr_init h
    exact ⟨⟨_, hl⟩, hb⟩
  | program_consume h h₁ =>
    obtain ⟨heap, rfl⟩ := hpre
    obtain ⟨hl, hb⟩ := parseExpr_init h
    have hp := hl.peeked h₁
    exact ⟨⟨⟨_, hp.live⟩, hp.state⟩, hb.trans hp.before⟩

theorem expr_pre (h : Calls (.expr fuel, s) (c', s'))
    (hpre : Call.Pre names code (.expr fuel) s) : c'.Pre names code s' ∧ s.Before s' := by
  cases h with
  | expr_addSub => exact ⟨hpre, .refl _⟩
  | expr_append h =>
    obtain ⟨opens, hl, hf⟩ := hpre
    obtain ⟨hread, -⟩ := (parseAddSub_meets names code _ s opens hl hf).of_ok h
    exact ⟨⟨⟨_, hread.live⟩, hread.range⟩, hread.before⟩

theorem addSub_pre (h : Calls (.addSub fuel, s) (c', s'))
    (hpre : Call.Pre names code (.addSub fuel) s) : c'.Pre names code s' ∧ s.Before s' := by
  cases h with
  | addSub_mulDiv => exact ⟨hpre, .refl _⟩
  | addSub_loop h =>
    obtain ⟨opens, hl, hf⟩ := hpre
    obtain ⟨hread, hfollow⟩ := (Level.addSub.parsesOperand s opens hl hf).of_ok h
    have := hread.here
    exact ⟨⟨⟨_, hread.live⟩, hfollow, hread.range, by omega, by omega⟩, hread.before⟩

theorem mulDiv_pre (h : Calls (.mulDiv fuel, s) (c', s'))
    (hpre : Call.Pre names code (.mulDiv fuel) s) : c'.Pre names code s' ∧ s.Before s' := by
  cases h with
  | mulDiv_signed => exact ⟨hpre, .refl _⟩
  | mulDiv_loop h =>
    obtain ⟨opens, hl, hf⟩ := hpre
    obtain ⟨hread, hfollow⟩ := (Level.mulDiv.parsesOperand s opens hl hf).of_ok h
    have := hread.here
    exact ⟨⟨⟨_, hread.live⟩, hfollow, hread.range, by omega, by omega⟩, hread.before⟩

theorem loop_pre (h : Calls (.loop level fuel count node, s) (c', s'))
    (hpre : Call.Pre names code (.loop level fuel count node) s) : c'.Pre names code s' ∧ s.Before s' := by
  cases h with
  | loop_peek => exact ⟨hpre.live, .refl _⟩
  | loop_left h =>
    obtain ⟨⟨opens, hl⟩, -, hn, -⟩ := hpre
    have hp := hl.peeked h.1
    exact ⟨⟨⟨_, hp.live⟩, hn⟩, hp.before⟩
  | loop_consume h h₁ =>
    obtain ⟨⟨opens, hl⟩, -, hn, -⟩ := hpre
    obtain ⟨hl₂, hr, -, hb, -⟩ := h.appended hl hn h₁
    exact ⟨⟨⟨_, hl₂⟩, hr⟩, hb⟩
  | loop_operand h h₁ h₂ =>
    obtain ⟨⟨opens, hl⟩, -, hn, hf, -⟩ := hpre
    obtain ⟨hconsumed, hb⟩ := h.consumed hl hn h₁ h₂
    exact ⟨(hconsumed.live.atOperand hb hf).operand _, hb⟩
  | loop_right h h₁ =>
    obtain ⟨⟨opens, hl⟩, -, hn, hf, -⟩ := hpre
    obtain ⟨-, hread, -, hb⟩ := h₁.read h hl hn hf
    exact ⟨⟨⟨_, hread.live⟩, hread.range⟩, hb.trans hread.before⟩
  | loop_next h h₁ hdiv h₄ =>
    obtain ⟨⟨opens, hl⟩, -, hn, hf, hc⟩ := hpre
    obtain ⟨-, hread, hfollow, hb⟩ := h₁.read h hl hn hf
    have hp := hl.peeked h.1
    have hb₄ := hb.trans hread.before
    have hlt := hb.here.trans_lt hread.here
    obtain ⟨ast, heap, rfl, -⟩ :=
      (parserAppendNode_meets hread.live hread.range (Nat.zero_le _)).of_ok h₄
    refine ⟨⟨⟨_, hread.live.withAst ast heap⟩, (Level.lasting _).withAst ast heap hfollow,
      hp.live.tokenIn hp.state, hf.trans_le (Nat.add_le_add_right hb₄.here _), ?_⟩,
      hb₄.withAst ast heap⟩
    rw [Parser.here_withAst]
    omega

theorem signed_pre (h : Calls (.signed fuel, s) (c', s'))
    (hpre : Call.Pre names code (.signed fuel) s) : c'.Pre names code s' ∧ s.Before s' := by
  cases h with
  | signed_peek => exact ⟨hpre.live, .refl _⟩
  | signed_signs h =>
    obtain ⟨opens, hl, hf⟩ := hpre
    have hp := hl.peeked h
    exact ⟨hp.live.atOperand hp.before hf, hp.before⟩
  | signed_atom h h₁ =>
    obtain ⟨opens, hl, hf⟩ := hpre
    have hp := hl.peeked h
    have hfuel := hf.trans_le (Nat.add_le_add_right hp.before.here _)
    obtain ⟨hl₂, hfollow, hb⟩ := (parseSigns_meets hp.live hfuel).of_ok h₁
    have hb₂ := hp.before.trans hb
    exact ⟨⟨hl₂.atOperand hb₂ hf, hfollow⟩, hb₂⟩
  | signed_append h h₁ h₂ =>
    obtain ⟨opens, hl, hf⟩ := hpre
    have hp := hl.peeked h
    have hfuel := hf.trans_le (Nat.add_le_add_right hp.before.here _)
    obtain ⟨hl₂, hfollow, hb⟩ := (parseSigns_meets hp.live hfuel).of_ok h₁
    have hb₂ := hp.before.trans hb
    have hhere := hb₂.here
    have hread := (parseAtom_meets (parseAddSub_meets names code _) hl₂ hfollow (by omega)).of_ok h₂
    exact ⟨⟨⟨_, hread.live⟩, hread.range⟩, hb₂.trans hread.before⟩

theorem signs_pre (h : Calls (.signs count inverse, s) (c', s'))
    (hpre : Call.Pre names code (.signs count inverse) s) : c'.Pre names code s' ∧ s.Before s' := by
  cases h with
  | signs_peek => exact ⟨hpre.live, .refl _⟩
  | signs_consume h =>
    obtain ⟨opens, hl, hf⟩ := hpre
    have hp := hl.peeked h
    exact ⟨⟨⟨_, hp.live⟩, hp.state⟩, hp.before⟩
  | signs_next h hsign h₁ =>
    obtain ⟨opens, hl, hf⟩ := hpre
    obtain ⟨-, -, hb, hc⟩ := hl.sign h hsign h₁
    have hlt := hb.here.trans_lt hc.here
    exact ⟨⟨opens, hc.live, by omega⟩, hb.trans (.of_consumed hc)⟩

theorem atom_pre (h : Calls (.atom fuel, s) (c', s'))
    (hpre : Call.Pre names code (.atom fuel) s) : c'.Pre names code s' ∧ s.Before s' := by
  cases h with
  | atom_peek => exact ⟨hpre.live, .refl _⟩
  | atom_consume h =>
    obtain ⟨⟨opens, hl, hf⟩, -⟩ := hpre
    have hp := hl.peeked h
    exact ⟨⟨⟨_, hp.live⟩, hp.state⟩, hp.before⟩
  | atom_paren h hopen =>
    obtain ⟨⟨opens, hl, hf⟩, -⟩ := hpre
    have hp := hl.peeked h
    exact ⟨⟨hp.live.atOperand hp.before hf, hp.state, hopen⟩, hp.before⟩

theorem paren_pre (h : Calls (.paren fuel, s) (c', s'))
    (hpre : Call.Pre names code (.paren fuel) s) : c'.Pre names code s' ∧ s.Before s' := by
  cases h with
  | paren_peek => exact ⟨hpre.live, .refl _⟩
  | paren_consume h =>
    obtain ⟨⟨opens, hl, hf⟩, -⟩ := hpre
    have hp := hl.peeked h
    exact ⟨⟨⟨_, hp.live⟩, hp.state⟩, hp.before⟩
  | paren_addSub h hopen h₁ =>
    obtain ⟨⟨opens, hl, hf⟩, -⟩ := hpre
    obtain ⟨-, -, hb, hc⟩ := hl.paren h hopen h₁
    have hlt := hb.here.trans_lt hc.here
    exact ⟨⟨_, hc.live, by omega⟩, hb.trans (.of_consumed hc)⟩
  | paren_close h hopen h₁ h₂ hclose =>
    obtain ⟨⟨opens, hl, hf⟩, -⟩ := hpre
    obtain ⟨-, -, hb, hc⟩ := hl.paren h hopen h₁
    have hlt := hb.here.trans_lt hc.here
    obtain ⟨hread, hfollow, -⟩ :=
      (parseAddSub_meets names code _ _ _ hc.live (by omega)).of_ok h₂
    exact ⟨⟨⟨_, hread.live⟩, hfollow.1⟩, (hb.trans (.of_consumed hc)).trans hread.before⟩

end

theorem Calls.pre (h : Calls (c, s) (c', s')) (hpre : c.Pre names code s) :
    c'.Pre names code s' ∧ s.Before s' := by
  cases c with
  | program => exact program_pre h hpre
  | expr => exact expr_pre h hpre
  | addSub => exact addSub_pre h hpre
  | mulDiv => exact mulDiv_pre h hpre
  | loop => exact loop_pre h hpre
  | signed => exact signed_pre h hpre
  | signs => exact signs_pre h hpre
  | atom => exact atom_pre h hpre
  | paren => exact paren_pre h hpre
  | peekToken =>
    cases h with
    | peek_token h => exact ⟨⟨hpre, h⟩, .refl _⟩
  | consumeToken | token | appendNode => cases h

-- ---------------------------------------------------------------------------
-- Every call of a run
-- ---------------------------------------------------------------------------

theorem pre_of_reaches {x y : Call × Parser} (h : Relation.ReflTransGen Calls x y)
    (hx : x.1.Pre names code x.2) : y.1.Pre names code y.2 ∧ x.2.Before y.2 := by
  induction h with
  | refl => exact ⟨hx, .refl _⟩
  | @tail y z _ hcalls ih =>
    obtain ⟨hy, hb⟩ := ih
    have hz := hcalls.pre hy
    exact ⟨hz.1, hb.trans hz.2⟩

theorem Called.pre {heap : Heap} (h : Called heap code names (c, s)) : c.Pre names code s :=
  (pre_of_reaches h.2 ⟨heap, rfl⟩).1

/-- What holds of a call: of the state that it starts in, of what it reads and
calls, and of the state that it ends in. -/
structure PointOk (code : Bytes) (c : Call) (s : Parser) : Prop where
  index_le : s.index ≤ code.length
  error_iff : s.state = .error ↔ s.error ≠ .none
  reads : c = .token → (∀ i ∈ parseTokenReads s, i < code.length) ∧
    ReadsOnly (parseTokenReads s) parseToken s
  consumes : c = .consumeToken → s.state = .tokenReady
  calls : ∀ c' s', Calls (c, s) (c', s') → s.index ≤ s'.index
  returnsTrue : ∀ s', c.exec s = .ok () s' → s.index ≤ s'.index ∧ s'.index ≤ code.length ∧
    s'.state ≠ .error ∧ s'.error = .none ∧ (c.endsReady = true → s'.state = .tokenReady)
  returnsFalse : ∀ s', c.exec s = .error .returnFalse s' → s.index ≤ s'.index ∧
    s'.index ≤ code.length ∧ s'.state = .error ∧ s'.error ≠ .none
  faults : ∀ f s', c.exec s = .error (.fault f) s' → s.index ≤ s'.index ∧
    s'.index ≤ code.length ∧ f = .overrun

theorem Call.Pre.ok (h : c.Pre names code s) : PointOk code c s := by
  obtain ⟨st, hl⟩ := h.live
  have hmeets := Call.exec_meets h
  constructor
  case index_le => exact hl.index_le
  case error_iff =>
    rcases hl.state with hs | hs <;> simp [hs, hl.error]
  case reads =>
    refine fun _ => ⟨fun i hi => ?_, parseToken_congr⟩
    rw [← hl.static.code]
    exact parseTokenReads_lt hi
  case consumes =>
    rintro rfl
    exact h.2
  case calls => exact fun c' s' hcalls => (hcalls.pre h).2.index
  case returnsTrue =>
    rintro s' hok
    obtain ⟨hgoes, hready⟩ := hmeets.of_ok hok
    exact ⟨hgoes.index, hgoes.index_le, hgoes.state, hgoes.error, hready⟩
  case returnsFalse =>
    rintro s' herr
    cases hmeets.of_error herr with
    | failed hf hi => exact ⟨hi, hf.index, hf.state, hf.error⟩
  case faults =>
    rintro f s' herr
    cases hmeets.of_error herr with
    | overrun hc hi => exact ⟨hi, hc, rfl⟩

/-- What `parse_slice` returns. -/
structure ReturnOk (code : Bytes) (p : Parser) : Prop where
  state : p.state = .done ∨ p.state = .error
  error_iff : p.state = .error ↔ p.error ≠ .none
  index_le : p.index ≤ code.length
  done : p.state = .done → p.index = code.length ∧ p.ast.nodes ≠ []

theorem Returned.ok {p : Parser} (h : Returned code p) : ReturnOk code p := by
  have herror := h.error_iff
  cases h with
  | argument hs _ _ _ _ hi =>
    refine ⟨.inr hs, herror, by omega, fun hd => ?_⟩
    rw [hs] at hd
    cases hd
  | failed hf =>
    refine ⟨.inr hf.state, herror, hf.index, fun hd => ?_⟩
    rw [hf.state] at hd
    cases hd
  | done hd => exact ⟨.inl hd.state, herror, hd.index.le, fun _ => ⟨hd.index, hd.nodes⟩⟩

/-- The parser is a state machine that keeps its invariant: every call of a run
does, and so does what is returned. -/
theorem parseSlice_stateMachine (heap : Heap) (code : Bytes) (names : List Bytes) :
    (∀ c s, Called heap code names (c, s) → PointOk code c s) ∧
    (∀ p, parseSlice heap code names = .ok p → ReturnOk code p) ∧
    ∀ f, parseSlice heap code names = .error f → f = .overrun :=
  ⟨fun _ _ h => h.pre.ok, fun _ h => (parseSlice_returned h).ok, fun _ h => parseSlice_fault h⟩

end

end ParserExample
