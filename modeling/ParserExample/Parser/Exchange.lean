import ParserExample.Library.Exchange
import ParserExample.Parser.Simulation

/-!
# The parser on another state

The functions of the grammar pass on what the lexer, the array of the nodes and the
parameters give them. An exchange that these allow is allowed by the whole parser
(`parseWith_allows`): of the heap, of the parameters, or of the code that has not
been read.
-/

namespace ParserExample

open Library

/-- `parseProgram` with fuel for its recursion. -/
def parseWith (fuel : Nat) : Proc Parser Unit := do
  parseExpr fuel
  parserPeekToken
  let token := (← get).token
  if token.type ≠ .eof then
    fail .illegalToken token.startIndex token.endIndex
  else
    parserConsumeToken
    modify fun p => { p with state := .done }

def findVariable (token : Token) : Proc Parser AstNode := do
  let p ← get
  let argIndex := parserGetArgIndex p.args p.tokenName
  if argIndex = p.args.length then
    fail .undefinedVariable token.startIndex token.endIndex
  else
    return ⟨token.startIndex, token.endIndex, .leaf (.var argIndex)⟩

section
variable {α : Type} {E : Exchange Halt Parser} {addSub addSub' : Proc Parser AstNode} {m n : Nat}

-- ---------------------------------------------------------------------------
-- Appends
-- ---------------------------------------------------------------------------

theorem fail_allows (error : ParserError) (i j : Nat)
    (hswap : ∀ s, ({ E.swap s with state := .error, error, errorInfo := .code i j } : Parser) =
      E.swap { s with state := .error, error, errorInfo := .code i j })
    (hafter : ∀ s : Parser, E.after s
      { s with state := .error, error, errorInfo := .code i j }) :
    E.Allows (fail error i j : Proc Parser α) (fail error i j) :=
  Exchange.allows_modify_bind hswap hafter (Exchange.allows_throw _)

/-- The exchange leaves alone what an append needs and what it leaves behind. -/
structure KeepsMemory (E : Exchange Halt Parser) : Prop where
  buffer : ∀ s, (E.swap s).buffer = s.buffer
  token : ∀ s, (E.swap s).token = s.token
  ast : ∀ s, (E.swap s).ast = s.ast
  heap : ∀ s, (E.swap s).heap = s.heap
  setBuffer : ∀ s buffer heap, ({ E.swap s with buffer, heap } : Parser) =
    E.swap { s with buffer, heap }
  setAst : ∀ s ast heap, ({ E.swap s with ast, heap } : Parser) = E.swap { s with ast, heap }
  afterBuffer : ∀ (s : Parser) buffer heap, E.after s { s with buffer, heap }
  afterAst : ∀ (s : Parser) ast heap, E.after s { s with ast, heap }
  fail : ∀ error i j, E.Allows (fail error i j : Proc Parser Unit) (fail error i j)

theorem parserBufferAppend_allows (h : KeepsMemory E)
    (append : Heap → Buffer → Except Fault (Bool × Buffer × Heap)) :
    E.Allows (parserBufferAppend append) (parserBufferAppend append) := by
  refine Exchange.allows_get_bind (fun s => ?_) fun p => ?_
  · simp only [h.buffer, h.heap, h.token]
  cases append p.heap p.buffer with
  | error f => exact Exchange.allows_throw _
  | ok r =>
    obtain ⟨ok, buffer, heap⟩ := r
    refine Exchange.allows_modify_bind (fun s => h.setBuffer s _ _) (fun s => h.afterBuffer s _ _) ?_
    cases ok
    · exact h.fail _ _ _
    · exact Exchange.allows_pure _

theorem parserAppendNode_allows (h : KeepsMemory E) (node : AstNode) :
    E.Allows (parserAppendNode node) (parserAppendNode node) := by
  refine Exchange.allows_get_bind (fun s => ?_) fun p => ?_
  · simp only [h.ast, h.heap]
  obtain ⟨ok, ast, heap⟩ := astAppendNode p.heap p.ast node
  refine Exchange.allows_modify_bind (fun s => h.setAst s _ _) (fun s => h.afterAst s _ _) ?_
  cases ok
  · exact h.fail _ _ _
  · exact Exchange.allows_pure _

-- ---------------------------------------------------------------------------
-- The grammar
-- ---------------------------------------------------------------------------

/-- What the functions of the grammar rest on. -/
structure AllowedBelow (E : Exchange Halt Parser) : Prop where
  state : ∀ s, (E.swap s).state = s.state
  token : ∀ s, (E.swap s).token = s.token
  ast : ∀ s, (E.swap s).ast = s.ast
  setState : ∀ s state, ({ E.swap s with state } : Parser) = E.swap { s with state }
  afterState : ∀ (s : Parser) state, E.after s { s with state }
  fail : ∀ {α : Type} error i j, E.Allows (fail error i j : Proc Parser α) (fail error i j)
  parseToken : E.Allows parseToken parseToken
  appendNode : ∀ node, E.Allows (parserAppendNode node) (parserAppendNode node)
  findVariable : ∀ token, E.Allows (findVariable token) (findVariable token)

section
variable (hE : AllowedBelow E)
include hE

theorem AllowedBelow.modifyState (state : ParserState) :
    E.Allows (modify fun p => { p with state }) (modify fun p => { p with state }) :=
  Exchange.allows_modify (fun s => hE.setState s state) fun s => hE.afterState s state

theorem AllowedBelow.peekToken : E.Allows parserPeekToken parserPeekToken := by
  refine Exchange.allows_get_bind (fun s => ?_) fun p => ?_
  · simp only [hE.state]
  cases p.state
  · exact hE.parseToken
  · exact Exchange.allows_pure _
  all_goals exact Exchange.allows_throw _

theorem AllowedBelow.consumeToken : E.Allows parserConsumeToken parserConsumeToken := by
  refine Exchange.allows_get_bind (fun s => ?_) fun p => ?_
  · simp only [hE.state]
  cases p.state
  · exact Exchange.allows_throw _
  · exact hE.modifyState _
  all_goals exact Exchange.allows_throw _

theorem AllowedBelow.rootNodeIndex : E.Allows parserRootNodeIndex parserRootNodeIndex := by
  refine Exchange.allows_get_bind (fun s => ?_) fun p => Exchange.allows_pure _
  simp only [hE.ast]

end

/-- A run with that fuel is allowed one with this fuel: with more of it only where the
run is lost that runs out of its own. -/
def Fuels (E : Exchange Halt Parser) (m n : Nat) : Prop :=
  m = n ∨ m ≤ n ∧ ∀ s, E.lost (.fault .fuel) s

theorem Fuels.pred (h : Fuels E (m + 1) n) : ∃ k, n = k + 1 ∧ Fuels E m k := by
  rcases h with rfl | ⟨hle, hlost⟩
  · exact ⟨m, rfl, .inl rfl⟩
  · exact ⟨n - 1, by omega, .inr ⟨by omega, hlost⟩⟩

theorem Fuels.allows_zero {x : Nat → Proc Parser α} (h : Fuels E 0 n)
    (hx : x 0 = throw (.fault .fuel)) : E.Allows (x 0) (x n) := by
  rcases h with rfl | ⟨-, hlost⟩
  · rw [hx]
    exact Exchange.allows_throw _
  · rw [hx]
    exact Exchange.allows_throw_lost hlost _

section
variable (hE : AllowedBelow E)
include hE

theorem parseSigns_allows (hmn : Fuels E m n) (inverse : Bool) :
    E.Allows (parseSigns m inverse) (parseSigns n inverse) := by
  induction m generalizing n inverse with
  | zero => exact hmn.allows_zero (x := (parseSigns · inverse)) rfl
  | succ m ih =>
    obtain ⟨n, rfl, hmn'⟩ := hmn.pred
    refine hE.peekToken.bind fun _ => Exchange.allows_get_bind (fun s => ?_) fun p => ?_
    · simp only [hE.token]
    cases p.token.type
    case plus | minus => exact hE.consumeToken.bind fun _ => ih hmn' _
    all_goals exact Exchange.allows_pure _

section
variable (h : E.Allows addSub addSub')
include h

theorem parseParen_allows : E.Allows (parseParen addSub) (parseParen addSub') := by
  refine hE.peekToken.bind fun _ => Exchange.allows_get_bind (fun s => ?_) fun p => ?_
  · simp only [hE.token]
  dsimp only
  split_ifs
  · exact hE.fail _ _ _
  refine hE.consumeToken.bind fun _ => h.bind fun node => ?_
  refine Exchange.allows_get_bind (fun s => ?_) fun q => ?_
  · simp only [hE.token]
  split_ifs
  · exact hE.fail _ _ _
  · exact hE.consumeToken.bind fun _ => Exchange.allows_pure _

theorem parseAtom_allows : E.Allows (parseAtom addSub) (parseAtom addSub') := by
  refine hE.peekToken.bind fun _ => Exchange.allows_get_bind (fun s => ?_) fun p => ?_
  · simp only [hE.token]
  dsimp only
  cases p.token.type
  case ident => exact hE.consumeToken.bind fun _ => hE.findVariable p.token
  case int => exact hE.consumeToken.bind fun _ => Exchange.allows_pure _
  case parenOpen => exact parseParen_allows hE h
  all_goals exact hE.fail _ _ _

theorem parseSigned_allows (hmn : Fuels E m n) :
    E.Allows (parseSigned addSub m) (parseSigned addSub' n) := by
  refine hE.peekToken.bind fun _ => Exchange.allows_get_bind (fun s => ?_) fun p => ?_
  · simp only [hE.token]
  refine (parseSigns_allows hE hmn _).bind fun inverse => ?_
  split_ifs
  · refine (parseAtom_allows hE h).bind fun child => ?_
    split
    · split_ifs
      · exact hE.fail _ _ _
      · exact Exchange.allows_pure _
    · exact (hE.appendNode _).bind fun _ => hE.rootNodeIndex.bind fun _ => Exchange.allows_pure _
  · exact (parseAtom_allows hE h).bind fun _ => Exchange.allows_pure _

end

theorem parseLoop_allows {op : TokenType → Option BinaryType} {operand operand' : Proc Parser AstNode}
    (h : E.Allows operand operand') (hmn : Fuels E m n) (node : AstNode) :
    E.Allows (parseLoop op operand m node) (parseLoop op operand' n node) := by
  induction m generalizing n node with
  | zero =>
    rcases hmn with rfl | ⟨-, hlost⟩
    · exact Exchange.allows_throw _
    · exact Exchange.allows_throw_lost hlost _
  | succ m ih =>
    obtain ⟨n, rfl, hmn'⟩ := hmn.pred
    refine hE.peekToken.bind fun _ => Exchange.allows_get_bind (fun s => ?_) fun p => ?_
    · simp only [hE.token]
    dsimp only
    cases op p.token.type with
    | none => exact Exchange.allows_pure _
    | some type =>
      refine (hE.appendNode _).bind fun _ => hE.consumeToken.bind fun _ =>
        hE.rootNodeIndex.bind fun _ => h.bind fun right => ?_
      split_ifs
      · exact hE.fail _ _ _
      · exact (hE.appendNode _).bind fun _ => hE.rootNodeIndex.bind fun _ => ih hmn' _

theorem parseMulDiv_allows (h : E.Allows addSub addSub') (hmn : Fuels E m n) :
    E.Allows (parseMulDiv addSub m) (parseMulDiv addSub' n) := by
  unfold parseMulDiv
  simp only [parseMulDivLoop_eq]
  have hsigned := parseSigned_allows hE h hmn
  exact hsigned.bind (parseLoop_allows hE hsigned hmn)

theorem parseAddSub_allows (hmn : Fuels E m n) : E.Allows (parseAddSub m) (parseAddSub n) := by
  induction m generalizing n with
  | zero => exact hmn.allows_zero (x := parseAddSub) rfl
  | succ m ih =>
    obtain ⟨k, rfl, hk⟩ := hmn.pred
    rw [parseAddSub, parseAddSub]
    simp only [parseAddSubLoop_eq]
    have hoperand := parseMulDiv_allows hE (ih hk) hmn
    exact hoperand.bind (parseLoop_allows hE hoperand hmn)

theorem parseWith_allows (hmn : Fuels E m n) : E.Allows (parseWith m) (parseWith n) := by
  have hexpr : E.Allows (parseExpr m) (parseExpr n) :=
    (parseAddSub_allows hE hmn).bind hE.appendNode
  refine hexpr.bind fun _ => hE.peekToken.bind fun _ => ?_
  refine Exchange.allows_get_bind (fun s => ?_) fun p => ?_
  · simp only [hE.token]
  dsimp only
  split_ifs
  · exact hE.fail _ _ _
  · exact hE.consumeToken.bind fun _ => hE.modifyState _

/-- The fuel of the parser is the same for the same code. -/
theorem parseProgram_allows (hcode : ∀ s, (E.swap s).code = s.code) :
    E.Allows parseProgram parseProgram := by
  refine Exchange.allows_get_bind (fun s => ?_) fun p => parseWith_allows hE (.inl rfl)
  simp only [hcode]

end

end

-- ---------------------------------------------------------------------------
-- Other parameters and another heap
-- ---------------------------------------------------------------------------

/-- Other parameters and another heap in place of the parser's. -/
def replacing (args : List Bytes → List Bytes) (heap : Heap → Heap)
    (lost : Halt → Parser → Prop) : Exchange Halt Parser :=
  Exchange.replacing (fun s => { s with args := args s.args, heap := heap s.heap }) lost

section
variable {args : List Bytes → List Bytes} {heap : Heap → Heap} {lost : Halt → Parser → Prop}

theorem replacing_fail {α : Type} (error : ParserError) (i j : Nat) :
    (replacing args heap lost).Allows (fail error i j : Proc Parser α) (fail error i j) :=
  fail_allows error i j (fun _ => rfl) fun _ => trivial

variable (hbuffer : ∀ chunk, (replacing args heap lost).Allows
  (parserBufferAppend (bufferAppend · · chunk)) (parserBufferAppend (bufferAppend · · chunk)))
include hbuffer

/-- The lexer does not look at them, but when it stores a name. -/
theorem replacing_parseToken : (replacing args heap lost).Allows parseToken parseToken := by
  refine Exchange.allows_modify_bind (fun _ => rfl) (fun _ => trivial) ?_
  refine Exchange.allows_get_bind (fun _ => rfl) fun p => ?_
  cases p.code[p.index]? with
  | none => exact Exchange.allows_modify (fun _ => rfl) fun _ => trivial
  | some sym =>
    dsimp only
    cases charType sym with
    | some type => exact Exchange.allows_modify (fun _ => rfl) fun _ => trivial
    | none =>
      dsimp only
      split_ifs
      · refine Exchange.allows_modify_bind (fun _ => rfl) (fun _ => trivial) ?_
        refine Exchange.allows_get_bind (fun _ => rfl) fun q => ?_
        cases readDigits (q.code.drop q.index) q.index 0 with
        | error index =>
          exact Exchange.allows_modify_bind (fun _ => rfl) (fun _ => trivial) (replacing_fail _ _ _)
        | ok r => exact Exchange.allows_modify (fun _ => rfl) fun _ => trivial
      · refine Exchange.allows_modify_bind (fun _ => rfl) (fun _ => trivial) ?_
        refine Exchange.allows_get_bind (fun _ => rfl) fun q => ?_
        refine (hbuffer _).bind fun _ => (hbuffer [0]).bind fun _ => ?_
        exact Exchange.allows_modify (fun _ => rfl) fun _ => trivial
      · exact replacing_fail _ _ _

/-- So the parser looks at them only for the size of an array or for a name. -/
theorem replacing_parseProgram
    (hnode : ∀ node, (replacing args heap lost).Allows (parserAppendNode node)
      (parserAppendNode node))
    (hname : ∀ token, (replacing args heap lost).Allows (findVariable token)
      (findVariable token)) :
    (replacing args heap lost).Allows parseProgram parseProgram :=
  parseProgram_allows ⟨fun _ => rfl, fun _ => rfl, fun _ => rfl, fun _ _ => rfl, fun _ _ => trivial,
    replacing_fail, replacing_parseToken hbuffer, hnode, hname⟩ fun _ => rfl

end

end ParserExample
