import ParserExample.Parser.Contract

/-!
# The recursive descent

Every function that parses an operand takes at least one token and ends in
front of an operator, of a closing parenthesis or of the end. The bound on the
recursion and on its loops stays above the number of bytes that are left, so it
is not reached.
-/

namespace ParserExample

open Library

def Follows (op : TokenType → Option BinaryType) (s : Parser) : Prop :=
  s.state = .tokenReady ∧ op s.token.type = none

structure OperandRead (names : List Bytes) (code : Bytes) (opens : List Nat) (s : Parser)
    (node : AstNode) (s' : Parser) : Prop where
  live : Live names code s' ⟨false, opens⟩
  index : s.index ≤ s'.index
  here : s.here < s'.here
  node_end : s.here ≤ node.endIndex
  range : InCode code node.startIndex node.endIndex

def ParsesOperand (names : List Bytes) (code : Bytes) (fuel : Nat) (x : Proc Parser AstNode)
    (follow : Parser → Prop) : Prop :=
  ∀ s opens, Live names code s ⟨true, opens⟩ → code.length < s.here + fuel →
    Meets x s (fun node s' => OperandRead names code opens s node s' ∧ follow s')
      (Stopped code s.index)

section
variable {names : List Bytes} {code : Bytes} {fuel : Nat} {s s' s'' : Parser} {st : Stage}
  {opens : List Nat} {node : AstNode}

theorem Parser.Before.of_consumed (h : Consumed names code st s s') : s.Before s' :=
  ⟨by rw [h.eq], h.here.le⟩

theorem OperandRead.withAst (h : OperandRead names code opens s node s') (ast : Ast)
    (heap : Heap) : OperandRead names code opens s node { s' with ast, heap } :=
  ⟨h.live.withAst ast heap, h.index, h.here, h.node_end, h.range⟩

theorem OperandRead.before (h : OperandRead names code opens s node s') : s.Before s' :=
  ⟨h.index, h.here.le⟩

theorem OperandRead.from (h : OperandRead names code opens s' node s'') (hs : s.Before s') :
    OperandRead names code opens s node s'' :=
  ⟨h.live, hs.index.trans h.index, hs.here.trans_lt h.here, hs.here.trans h.node_end, h.range⟩

-- ---------------------------------------------------------------------------
-- Signs and atoms
-- ---------------------------------------------------------------------------

theorem parseSigns_meets {inverse : Bool} (h : Live names code s ⟨true, opens⟩)
    (hf : code.length < s.here + fuel) :
    Meets (parseSigns fuel inverse) s
      (fun _ s' => Live names code s' ⟨true, opens⟩ ∧ Follows addSubType s' ∧ s.Before s')
      (Stopped code s.index) := by
  induction fuel generalizing s inverse with
  | zero =>
    have := h.here_le
    omega
  | succ fuel ih =>
    rw [parseSigns]
    refine (parserPeekToken_meets h).bind fun _ s₁ _ hp => meets_get_bind ?_
    have hb := hp.before.index
    -- a sign is consumed, and what comes next is read the same way
    have hnext {inverse' : Bool} (heof : s₁.token.type ≠ .eof)
        (hstep : Stage.shift ⟨true, opens⟩ s₁.token.type s₁.token.startIndex =
          some ⟨true, opens⟩) :
        Meets (parserConsumeToken >>= fun _ => parseSigns fuel inverse') s₁
          (fun _ s' => Live names code s' ⟨true, opens⟩ ∧ Follows addSubType s' ∧ s.Before s')
          (Stopped code s.index) := by
      refine (parserConsumeToken_meets hp.live hp.state heof hstep).bind fun _ s₂ _ hc => ?_
      have hbefore := hp.before.trans (.of_consumed hc)
      have hhere := hp.before.here
      have hlt := hc.here
      refine (ih hc.live (by omega)).mono ?_ fun _ _ he => he.mono hbefore.index
      rintro _ s' - ⟨hl, hr, hb'⟩
      exact ⟨hl, hr, hbefore.trans hb'⟩
    cases htype : s₁.token.type <;> simp only
    case plus | minus => exact hnext (by rw [htype]; decide) (by rw [htype]; rfl)
    all_goals exact meets_pure ⟨hp.live, ⟨hp.state, by rw [htype]; rfl⟩, hp.before⟩

section
variable {addSub : Proc Parser AstNode}
  (ih : ParsesOperand names code fuel addSub fun s =>
    Follows addSubType s ∧ Follows mulDivType s)
include ih

theorem parseParen_meets (h : Live names code s ⟨true, opens⟩) (hr : s.state = .tokenReady)
    (hopen : s.token.type = .parenOpen) (hf : code.length ≤ s.here + fuel) :
    Meets (parseParen addSub) s (fun node s' => OperandRead names code opens s node s')
      (Stopped code s.index) := by
  unfold parseParen
  refine (parserPeekToken_meets h).bind fun _ s₁ _ hp => meets_get_bind ?_
  obtain rfl := hp.same hr
  simp only [hopen, ne_eq, not_true_eq_false, if_false]
  have hin := h.tokenIn hr
  have hhere := Parser.here_ready hr
  have hstep : Stage.shift ⟨true, opens⟩ s₁.token.type s₁.token.startIndex =
      some ⟨true, s₁.token.startIndex :: opens⟩ := by rw [hopen]; rfl
  have hconsume : Meets parserConsumeToken s₁ _ (Stopped code s₁.index) :=
    parserConsumeToken_meets h hr (by rw [hopen]; decide) hstep
  generalize s₁.token.startIndex = i at hin hhere hconsume ⊢
  refine hconsume.bind fun _ s₂ _ hc => ?_
  have hlt := hc.here
  have hindex : s₁.index ≤ s₂.index := (Parser.Before.of_consumed hc).index
  refine ((ih s₂ _ hc.live (by omega)).mono (fun _ _ _ => id)
    fun _ _ he => he.mono hindex).bind ?_
  rintro node s₃ - ⟨hread, ⟨hr₃, hadd⟩, -, hmul⟩
  have hindex₃ := hindex.trans hread.index
  have hhere₃ := Parser.here_ready hr₃
  have hlt₃ := hread.here
  refine meets_get_bind ?_
  split_ifs with hclose
  · have hstep₃ : Stage.shift ⟨false, i :: opens⟩ s₃.token.type s₃.token.startIndex =
        some ⟨false, opens⟩ := by rw [hclose]; rfl
    refine (parserConsumeToken_meets hread.live hr₃ (by rw [hclose]; decide) hstep₃).bind
      fun _ s₄ _ hc₄ => ?_
    have hb₄ := (Parser.Before.of_consumed hc₄).index
    have hlt₄ := hc₄.here
    have hend := hread.node_end
    exact meets_pure ⟨hc₄.live, by omega, by omega, by omega, hread.range⟩
  · -- no operator and no parenthesis: the one opened last stays open
    have hin₃ := hread.live.tokenIn hr₃
    refine hread.live.meets_unexpected hr₃ ?_ (fun _ h => by cases h) (.inr ⟨rfl, opens, rfl⟩)
      ⟨?_, hin₃.end_le, hin.line⟩ hindex₃
    · cases htype : s₃.token.type <;> simp_all [addSubType, mulDivType, Stage.shift]
    · have := hin₃.le
      omega

theorem parseAtom_meets (h : Live names code s ⟨true, opens⟩) (hfollow : Follows addSubType s)
    (hf : code.length ≤ s.here + fuel) :
    Meets (parseAtom addSub) s (fun node s' => OperandRead names code opens s node s')
      (Stopped code s.index) := by
  obtain ⟨hr, hsign⟩ := hfollow
  unfold parseAtom
  refine (parserPeekToken_meets h).bind fun _ s₁ _ hp => meets_get_bind ?_
  obtain rfl := hp.same hr
  have hin := h.tokenIn hr
  have hhere := Parser.here_ready hr
  -- an identifier or a number is consumed
  have hleaf (htype : s₁.token.type = .ident ∨ s₁.token.type = .int) :
      Meets parserConsumeToken s₁ (fun _ s₂ => Consumed names code ⟨false, opens⟩ s₁ s₂)
        (Stopped code s₁.index) := by
    refine parserConsumeToken_meets h hr ?_ ?_
    · rcases htype with htype | htype <;> rw [htype] <;> decide
    · rcases htype with htype | htype <;> rw [htype] <;> rfl
  have hread {s₂ : Parser} {data : NodeData} (hc : Consumed names code ⟨false, opens⟩ s₁ s₂) :
      OperandRead names code opens s₁ ⟨s₁.token.startIndex, s₁.token.endIndex, data⟩ s₂ :=
    ⟨hc.live, (Parser.Before.of_consumed hc).index, hc.here, hhere ▸ hin.le, hin⟩
  dsimp only
  cases htype : s₁.token.type <;> simp only
  case ident =>
    refine (hleaf (.inl htype)).bind fun _ s₂ _ hc => meets_get_bind ?_
    split_ifs
    · exact hc.live.meets_fail (by decide) hin (Parser.Before.of_consumed hc).index
    · exact meets_pure (hread hc)
  case int =>
    refine (hleaf (.inr htype)).bind fun _ s₂ _ hc => ?_
    exact meets_pure (hread hc)
  case parenOpen => exact parseParen_meets ih h hr htype hf
  case plus | minus =>
    rw [htype] at hsign
    cases hsign
  all_goals
    refine h.meets_unexpected hr (by rw [htype]; rfl) (fun _ h => by cases h)
      (.inl ⟨rfl, rfl⟩) hin le_rfl

theorem parseSigned_meets :
    ParsesOperand names code (fuel + 1) (parseSigned addSub (fuel + 1)) fun _ => True := by
  intro s opens h hf
  unfold parseSigned
  refine (parserPeekToken_meets h).bind fun _ s₁ _ hp => meets_get_bind ?_
  have hb := hp.before
  have hin := hp.live.tokenIn hp.state
  have hhere := Parser.here_ready hp.state
  have hle := hb.here
  generalize s₁.token.startIndex = i at hin hhere ⊢
  refine ((parseSigns_meets hp.live (by omega)).mono (fun _ _ _ => id)
    fun _ _ he => he.mono hb.index).bind ?_
  rintro inverse s₂ - ⟨hl₂, hfollow, hb₂⟩
  have hatom := (parseAtom_meets ih hl₂ hfollow (by have := hb₂.here; omega)).mono
    (fun _ _ _ hread => hread.from hb₂) fun _ _ he => he.mono (hb.index.trans hb₂.index)
  -- the node ends where the atom ends and starts at the first sign
  have hsigned {child : AstNode} {s₃ : Parser} {data : NodeData}
      (hread : OperandRead names code opens s₁ child s₃) :
      OperandRead names code opens s ⟨i, child.endIndex, data⟩ s₃ := by
    have hend : i ≤ child.endIndex := hhere ▸ hread.node_end
    have hnode : OperandRead names code opens s₁ ⟨i, child.endIndex, data⟩ s₃ :=
      ⟨hread.live, hread.index, hread.here, hread.node_end, hend, hread.range.end_le, hin.line⟩
    exact hnode.from hb
  split_ifs
  · refine hatom.bind fun child s₃ _ hread => ?_
    have hlo : s.index ≤ s₃.index := hb.index.trans hread.index
    have hinv : Meets
        (do
          parserAppendNode child
          return ⟨i, child.endIndex, .un () (← parserRootNodeIndex)⟩ : Proc Parser AstNode) s₃
        (fun node s' => OperandRead names code opens s node s' ∧ True) (Stopped code s.index) := by
      refine (parserAppendNode_meets hread.live hread.range hlo).bind ?_
      rintro _ _ - ⟨ast, heap, rfl, -⟩
      exact ⟨(hsigned hread).withAst ast heap, trivial⟩
    split
    · split_ifs
      · exact hread.live.meets_fail (by decide) (@hsigned _ _ child.data hread).range hlo
      · exact meets_pure ⟨hsigned hread, trivial⟩
    · exact hinv
  · refine hatom.bind fun child s₃ _ hread => ?_
    exact meets_pure ⟨hsigned hread, trivial⟩

end

-- ---------------------------------------------------------------------------
-- Operators
-- ---------------------------------------------------------------------------

/-- The operators of a loop take an operand on their right. -/
def Operators (op : TokenType → Option BinaryType) : Prop :=
  ∀ type, (op type).isSome → type ≠ .eof ∧
    ∀ opens i, Stage.shift ⟨false, opens⟩ type i = some ⟨true, opens⟩

theorem operators_addSub : Operators addSubType := by
  rintro type h
  cases type <;> simp [addSubType] at h <;> exact ⟨by decide, fun _ _ => rfl⟩

theorem operators_mulDiv : Operators mulDivType := by
  rintro type h
  cases type <;> simp [mulDivType] at h <;> exact ⟨by decide, fun _ _ => rfl⟩

/-- A property of the lexer that holds on while it only looks ahead. -/
structure Lasting (follow : Parser → Prop) : Prop where
  peek : ∀ {s s'}, follow s → parserPeekToken s = .ok () s' → follow s'
  withAst : ∀ {s} ast heap, follow s → follow { s with ast, heap }

theorem lasting_true : Lasting fun _ => True := ⟨fun _ _ => trivial, fun _ _ _ => trivial⟩

theorem lasting_follows (op : TokenType → Option BinaryType) : Lasting (Follows op) := by
  refine ⟨fun {s s'} h hp => ?_, fun _ _ h => h⟩
  unfold parserPeekToken at hp
  simp only [proc_get_bind, h.1] at hp
  cases hp
  exact h

theorem meets_rootNodeIndex_bind {α : Type} {f : Nat → Proc Parser α}
    {post : α → Parser → Prop} {stop : Halt → Parser → Prop}
    (h : Meets (f s.ast.rootNodeIndex) s post stop) :
    Meets (parserRootNodeIndex >>= f) s post stop := h

/-- One turn of the loop appends the left operand, consumes the operator and
reads the right operand. -/
theorem parseLoop_meets {op : TokenType → Option BinaryType} {operand : Proc Parser AstNode}
    {follow : Parser → Prop} {count lo : Nat} (hop : Operators op)
    (hlast : Lasting follow)
    (hoperand : ParsesOperand names code fuel operand follow)
    (h : Live names code s ⟨false, opens⟩) (hfollow : follow s)
    (hn : InCode code node.startIndex node.endIndex) (hend : lo ≤ node.endIndex) (hlo : lo ≤ s.here)
    (hf : code.length < s.here + fuel) (hc : code.length < s.here + count) :
    Meets (parseLoop op operand count node) s
      (fun node' s' => Live names code s' ⟨false, opens⟩ ∧ s.Before s' ∧
        InCode code node'.startIndex node'.endIndex ∧ lo ≤ node'.endIndex ∧
        Follows op s' ∧ follow s')
      (Stopped code s.index) := by
  induction count generalizing s node with
  | zero =>
    have := h.here_le
    omega
  | succ count ih =>
    rw [parseLoop]
    refine (parserPeekToken_meets h).bind fun _ s₁ hok hp => meets_get_bind ?_
    have hb := hp.before
    dsimp only
    cases htype : op s₁.token.type with
    | none =>
      simp only
      exact meets_pure ⟨hp.live, hb, hn, hend, ⟨hp.state, htype⟩, hlast.peek hfollow hok⟩
    | some type =>
      simp only
      obtain ⟨heof, hshift⟩ := hop _ (Option.isSome_of_eq_some htype)
      have htoken := hp.live.tokenIn hp.state
      have hhere := Parser.here_ready hp.state
      have hle := hb.here
      refine (parserAppendNode_meets hp.live hn hb.index).bind ?_
      rintro _ _ - ⟨ast, heap, rfl, -⟩
      have hl₂ := hp.live.withAst ast heap
      refine (parserConsumeToken_meets hl₂ hp.state heof (hshift _ _)).bind fun _ s₃ _ hc₃ => ?_
      have hb₃ : s.Before s₃ := hb.trans ⟨(Parser.Before.of_consumed hc₃).index, hc₃.here.le⟩
      have hlt₃ : s₁.here < s₃.here := hc₃.here
      refine meets_rootNodeIndex_bind ?_
      refine ((hoperand s₃ opens hc₃.live (by omega)).mono (fun _ _ _ => id)
        fun _ _ he => he.mono hb₃.index).bind ?_
      rintro right s₄ - ⟨hread, hfollow₄⟩
      have hb₄ := hb₃.trans hread.before
      have hlt₄ := hread.here
      split_ifs
      · exact hread.live.meets_fail (by decide) hread.range hb₄.index
      · refine (parserAppendNode_meets hread.live hread.range hb₄.index).bind ?_
        rintro _ _ - ⟨ast', heap', rfl, -⟩
        refine meets_rootNodeIndex_bind ?_
        have hhere₄ := hb₄.here
        have hhere₅ : ({ s₄ with ast := ast', heap := heap' } : Parser).here = s₄.here := rfl
        refine (ih (hread.live.withAst ast' heap') (hlast.withAst ast' heap' hfollow₄) htoken
          ?_ ?_ ?_ ?_).mono ?_ fun _ _ he => he.mono hb₄.index
        · show lo ≤ s₁.token.endIndex
          have := htoken.le
          omega
        · omega
        · omega
        · omega
        · rintro node' s' - ⟨hl, hb', hn', hend', hfollow', hlast'⟩
          exact ⟨hl, hb₄.trans ⟨hb'.index, hb'.here⟩, hn', hend', hfollow', hlast'⟩

theorem parsesOperand_loop {op : TokenType → Option BinaryType} {operand : Proc Parser AstNode}
    {follow : Parser → Prop} (hop : Operators op) (hlast : Lasting follow)
    (hoperand : ParsesOperand names code fuel operand follow) :
    ParsesOperand names code fuel
      (operand >>= fun node => parseLoop op operand fuel node)
      fun s => Follows op s ∧ follow s := by
  intro s opens h hf
  refine (hoperand s opens h hf).bind ?_
  rintro node s₁ - ⟨hread, hfollow⟩
  have hlt := hread.here
  refine (parseLoop_meets hop hlast hoperand hread.live hfollow hread.range hread.node_end hlt.le
    (by omega) (by omega)).mono ?_ fun _ _ he => he.mono hread.index
  rintro node' s₂ - ⟨hl, hb, hn, hend, hfollow'⟩
  exact ⟨⟨hl, hread.index.trans hb.index, hlt.trans_le hb.here, hend, hn⟩, hfollow'⟩

theorem parseMulDiv_meets {addSub : Proc Parser AstNode}
    (ih : ParsesOperand names code fuel addSub fun s =>
      Follows addSubType s ∧ Follows mulDivType s) :
    ParsesOperand names code (fuel + 1) (parseMulDiv addSub (fuel + 1)) (Follows mulDivType) := by
  have hloop := parsesOperand_loop operators_mulDiv lasting_true (parseSigned_meets ih)
  intro s opens h hf
  unfold parseMulDiv
  simp only [parseMulDivLoop_eq]
  exact (hloop s opens h hf).mono (fun _ _ _ hp => ⟨hp.1, hp.2.1⟩) fun _ _ => id

theorem parseAddSub_meets (names : List Bytes) (code : Bytes) (fuel : Nat) :
    ParsesOperand names code fuel (parseAddSub fuel) fun s =>
      Follows addSubType s ∧ Follows mulDivType s := by
  induction fuel with
  | zero =>
    intro s opens h hf
    have := h.here_le
    omega
  | succ fuel ih =>
    have hloop := parsesOperand_loop operators_addSub (lasting_follows _) (parseMulDiv_meets ih)
    intro s opens h hf
    rw [parseAddSub]
    simp only [parseAddSubLoop_eq]
    exact hloop s opens h hf

-- ---------------------------------------------------------------------------
-- Programs
-- ---------------------------------------------------------------------------

structure Accepted (code : Bytes) (s : Parser) : Prop where
  state : s.state = .done
  error : s.error = .none
  code_eq : s.code = code
  index : s.index = code.length
  nodes : s.ast.nodes ≠ []

theorem parseExpr_meets (h : Live names code s ⟨true, opens⟩) (hf : code.length < s.here + fuel) :
    Meets (parseExpr fuel) s
      (fun _ s' => Live names code s' ⟨false, opens⟩ ∧ s.Before s' ∧ s'.ast.nodes ≠ [] ∧
        Follows addSubType s' ∧ Follows mulDivType s')
      (Stopped code s.index) := by
  unfold parseExpr
  refine (parseAddSub_meets names code fuel s opens h hf).bind ?_
  rintro node s₁ - ⟨hread, hfollow⟩
  refine (parserAppendNode_meets hread.live hread.range hread.index).mono ?_ fun _ _ => id
  rintro _ _ - ⟨ast, heap, rfl, hnodes⟩
  exact ⟨hread.live.withAst ast heap, ⟨hread.index, hread.here.le⟩, by simp [hnodes], hfollow⟩

theorem parseProgram_meets (heap : Heap) (code : Bytes) (names : List Bytes) :
    Meets parseProgram (Parser.init heap code names) (fun _ s => Accepted code s)
      (Stopped code 0) := by
  unfold parseProgram
  refine meets_get_bind ?_
  refine (parseExpr_meets (live_init heap code names) ?_).bind ?_
  · show code.length < 0 + (code.length + 2)
    omega
  rintro _ s₁ - ⟨hl, hb, hnodes, ⟨hr, hadd⟩, -, hmul⟩
  refine ((parserPeekToken_meets hl).mono (fun _ _ _ => id) fun _ _ he =>
    he.mono (Nat.zero_le _)).bind fun _ s₂ _ hp => meets_get_bind ?_
  obtain rfl := hp.same hr
  dsimp only
  split_ifs with heof
  · refine hl.meets_unexpected hr ?_ (fun h => absurd h heof) (.inl ⟨rfl, rfl⟩) (hl.tokenIn hr)
      (Nat.zero_le _)
    cases htype : s₂.token.type <;> simp_all [addSubType, mulDivType, Stage.shift]
  · obtain ⟨-, hend⟩ := (hl.token hr).eof (not_not.mp heof)
    have hindex := (hl.token hr).index
    unfold parserConsumeToken
    simp only [bind_assoc]
    refine meets_get_bind ?_
    simp only [hr]
    refine meets_modify_bind (meets_modify ⟨rfl, hl.error, hl.static.code, ?_, hnodes⟩)
    rw [← hl.static.code]
    exact hindex.trans hend

theorem argsError_some {error : ParserError} {argIndex : Nat}
    (h : argsError names = some (error, argIndex)) :
    (error = .illegalArgName ∨ error = .duplicatedArgName) ∧ argIndex < names.length := by
  obtain ⟨⟨name, i⟩, hmem, hname⟩ := List.exists_of_findSome?_eq_some h
  obtain ⟨e, he, heq⟩ := Option.map_eq_some_iff.mp hname
  obtain ⟨rfl, rfl⟩ := Prod.mk.inj heq
  have hlt := (List.mem_zipIdx hmem).2.1
  rw [Nat.zero_add] at hlt
  refine ⟨?_, hlt⟩
  unfold argNameError at he
  split_ifs at he <;> simp at he <;> simp [← he]

inductive Returned (code : Bytes) (p : Parser) : Prop
  | argument {argIndex} (hstate : p.state = .error)
      (herror : p.error = .illegalArgName ∨ p.error = .duplicatedArgName)
      (hinfo : p.errorInfo = .argIndex argIndex) (hi : argIndex < p.args.length)
      (hcode : p.code = code) (hindex : p.index = 0)
  | failed (h : Failed code p)
  | done (h : Accepted code p)

theorem Returned.error_iff {p : Parser} (h : Returned code p) :
    p.state = .error ↔ p.error ≠ .none := by
  cases h with
  | argument hs he => rcases he with he | he <;> simp [hs, he]
  | failed hf => simp [hf.state, hf.error]
  | done hd => simp [hd.state, hd.error]

theorem parseSlice_returned {heap : Heap} {p : Parser} (h : parseSlice heap code names = .ok p) :
    Returned code p := by
  unfold parseSlice at h
  cases hn : argsError names with
  | some e =>
    obtain ⟨error, argIndex⟩ := e
    obtain ⟨herror, hi⟩ := argsError_some hn
    simp only [hn] at h
    obtain rfl := Except.ok.inj h
    exact .argument rfl herror rfl hi rfl rfl
  | none =>
    have hmeets := parseProgram_meets heap code names
    simp only [hn] at h
    unfold Meets at hmeets
    generalize parseProgram (Parser.init heap code names) = r at h hmeets
    cases r with
    | ok u s =>
      obtain rfl := Except.ok.inj h
      exact .done hmeets
    | error e s =>
      cases hmeets with
      | failed hf _ =>
        obtain rfl := Except.ok.inj h
        exact .failed hf
      | overrun => cases h

theorem parseSlice_fault {heap : Heap} {f : Fault} (h : parseSlice heap code names = .error f) :
    f = .overrun := by
  unfold parseSlice at h
  cases hn : argsError names with
  | some e =>
    simp only [hn] at h
    cases h
  | none =>
    have hmeets := parseProgram_meets heap code names
    simp only [hn] at h
    unfold Meets at hmeets
    generalize parseProgram (Parser.init heap code names) = r at h hmeets
    cases r with
    | ok u s => cases h
    | error e s =>
      cases hmeets with
      | failed => cases h
      | overrun => exact (Except.error.inj h).symm

end

end ParserExample
