import ParserExample.Parser.Layout
import ParserExample.Parser.Lexing

/-!
# The parser simulates the parser on words

Each function of the parser ends as its counterpart on words does, unless it
runs out of memory: with the lexer at the same lexeme, and with the nodes of
the expression read in the array, the last one still in the caller's hand.
-/

namespace ParserExample

open Library

def Looks (names : List Bytes) (code : Bytes) (stop : Option Lexeme) (s : Parser)
    (tokens : List Lexeme) : Prop :=
  ∃ l rest, tokens = l :: rest ∧ Ready names code stop s l rest

def Parsed (sees : Parser → List Lexeme → Prop) (front : List AstNode) (node : AstNode)
    (read : RangedExpr × List Lexeme) (s : Parser) : Prop :=
  sees s read.2 ∧ Built front read.1 s.ast.nodes node

section
variable (names : List Bytes) (code : Bytes) (stop : Option Lexeme)

def Simulates (sees : Parser → List Lexeme → Prop) (x : Proc Parser AstNode)
    (r : List Lexeme → Read) : Prop :=
  ∀ s tokens, Sees names code stop s tokens →
    Ends stop (Parsed sees s.ast.nodes) (x s) (r tokens)

end

@[simp] theorem parserRootNodeIndex_bind {α : Type} {f : Nat → Proc Parser α} {s : Parser} :
    (parserRootNodeIndex >>= f) s = f s.ast.rootNodeIndex s := rfl

theorem rootNodeIndex_of_append {ast : Ast} {nodes : List AstNode} {node : AstNode}
    (h : ast.nodes = nodes ++ [node]) : ast.rootNodeIndex = nodes.length + 1 - 1 := by
  simp [Ast.rootNodeIndex, Ast.nodesUsed, h]

section
variable {names : List Bytes} {code : Bytes} {stop : Option Lexeme} {s : Parser}
  {tokens rest : List Lexeme} {l : Lexeme}

theorem Looks.sees (h : Looks names code stop s tokens) : Sees names code stop s tokens := by
  obtain ⟨l, rest, rfl, h⟩ := h
  exact .ready h

theorem Simulates.sees {x : Proc Parser AstNode} {r : List Lexeme → Read}
    (h : Simulates names code stop (Looks names code stop) x r) :
    Simulates names code stop (Sees names code stop) x r :=
  fun s tokens hs => (h s tokens hs).mono fun _ _ _ _ hp => ⟨hp.1.sees, hp.2⟩

-- ---------------------------------------------------------------------------
-- Nodes and tokens
-- ---------------------------------------------------------------------------

theorem parserAppendNode_ends (node : AstNode) (s : Parser) :
    Ends stop (fun _ () s' => ∃ ast heap, s' = { s with ast, heap } ∧
      ast.nodes = s.ast.nodes ++ [node]) (parserAppendNode node s) (.ok ()) := by
  unfold parserAppendNode
  simp only [proc_get_bind]
  rcases astAppendNode_cases s.heap s.ast node with
    ⟨heap, ha⟩ | ⟨capacity, heap, ha, -⟩
  · rw [ha]
    exact .outOfMemory rfl rfl
  · rw [ha]
    exact .ok ⟨_, _, rfl, rfl⟩

-- ---------------------------------------------------------------------------
-- Signs and atoms
-- ---------------------------------------------------------------------------

theorem parseSigns_ends {fuel : Nat} {inverse : Bool} (h : Sees names code stop s tokens) :
    Ends stop (fun b r s' => b = r.1 ∧ Sees names code stop s' r.2 ∧ s'.ast = s.ast)
      (parseSigns fuel inverse s) (readSigns fuel inverse tokens) := by
  induction fuel generalizing s tokens inverse with
  | zero => exact .fuel
  | succ fuel ih =>
    rw [parseSigns, readSigns]
    refine (parserPeekToken_ends h).bind fun _ l s₁ ⟨rest, htokens, hr, hast⟩ => ?_
    subst htokens
    have htype := hr.shown.type
    simp only [proc_get_bind]
    have hnext (hl : l.word.isLast = false) {inverse' : Bool} :
        Ends stop (fun b r s' => b = r.1 ∧ Sees names code stop s' r.2 ∧ s'.ast = s.ast)
          ((parserConsumeToken >>= fun _ => parseSigns fuel inverse') s₁)
          (readSigns fuel inverse' rest) := by
      obtain ⟨s₂, hc, hp, hast₂, -⟩ := hr.consume hl
      rw [proc_bind_of_ok hc]
      exact (ih (.pending hp)).mono fun _ _ _ _ ⟨hb, hs, ha⟩ =>
        ⟨hb, hs, ha.trans (hast₂.trans hast)⟩
    cases hw : l.word <;> rw [hw] at htype <;> simp [Word.tokenType] at htype <;>
      rw [← htype]
    case plus => exact hnext (by rw [hw]; rfl)
    case minus => exact hnext (by rw [hw]; rfl)
    all_goals exact .ok ⟨rfl, .ready hr, hast⟩

section
variable {addSub : Proc Parser AstNode} {raddSub : List Lexeme → Read}
  (ih : Simulates names code stop (Looks names code stop) addSub raddSub)
include ih

theorem parseParen_ends (h : Ready names code stop s l rest) (hl : l.word = .parenOpen) :
    Ends stop (Parsed (Sees names code stop) s.ast.nodes) (parseParen addSub s)
      (readParen raddSub l.startIndex rest) := by
  have htype : s.token.type = .parenOpen := by
    simpa [hl, Word.tokenType, eq_comm] using h.shown.type
  unfold parseParen readParen
  rw [proc_bind_of_ok (parserPeekToken_eq h)]
  simp only [proc_get_bind, htype, ne_eq, not_true_eq_false, if_false, h.shown.startIndex]
  obtain ⟨s₂, hc, hp, hast, -⟩ := h.consume (by rw [hl]; rfl)
  rw [proc_bind_of_ok hc, ← hast]
  refine (ih _ _ (.pending hp)).bind ?_
  rintro node ⟨t, _⟩ s₁ ⟨⟨close, rest', rfl, hr⟩, hb⟩
  have hclose : close.word = .parenClose ↔ s₁.token.type = .parenClose := by
    have htype' := hr.shown.type
    cases hw : close.word <;> rw [hw] at htype' <;> simp [Word.tokenType] at htype' <;>
      simp [← htype']
  simp only [next, ok_bind, proc_get_bind, List.tail_cons, hclose]
  split
  · rw [hr.shown.endIndex]
    exact .fail
  · rename_i hc
    have hc : close.word = .parenClose := hclose.mpr (by simpa using hc)
    obtain ⟨s₃, hc', hp', hast', -⟩ := hr.consume (by rw [hc]; rfl)
    rw [proc_bind_of_ok hc']
    exact .ok ⟨.pending hp', hast' ▸ hb⟩

theorem parseAtom_simulates :
    Simulates names code stop (Sees names code stop) (parseAtom addSub)
      (readAtom names raddSub) := by
  intro s tokens h
  unfold parseAtom readAtom
  refine (parserPeekToken_ends h).bind fun _ l s₁ ⟨rest, htokens, hr, hast⟩ => ?_
  subst htokens
  have htype := hr.shown.type
  simp only [proc_get_bind, List.tail_cons, ← hast]
  have hrange : l.range = (s₁.token.startIndex, s₁.token.endIndex) := by
    rw [hr.shown.startIndex, hr.shown.endIndex]
    rfl
  cases hw : l.word <;> rw [hw] at htype <;> simp [Word.tokenType] at htype <;> rw [← htype]
  case ident name =>
    obtain ⟨s₂, hc, hp, hast₂, hname⟩ := hr.consume (by rw [hw]; rfl)
    dsimp only
    rw [proc_bind_of_ok hc, proc_get_bind, hname, hr.shown.name name hw, hp.args]
    split
    · rw [hr.shown.startIndex, hr.shown.endIndex]
      exact .fail
    · rw [hrange, ← hast₂]
      exact .ok ⟨.pending hp, built_leaf⟩
  case int digits =>
    obtain ⟨s₂, hc, hp, hast₂, -⟩ := hr.consume (by rw [hw]; rfl)
    dsimp only
    rw [proc_bind_of_ok hc, hr.shown.value digits hw, hrange, ← hast₂]
    exact .ok ⟨.pending hp, built_leaf⟩
  case parenOpen => exact parseParen_ends ih hr hw
  all_goals
    rw [hr.shown.startIndex, hr.shown.endIndex]
    exact .fail

theorem parseSigned_simulates {fuel : Nat} :
    Simulates names code stop (Sees names code stop) (parseSigned addSub fuel)
      (readSigned names raddSub fuel) := by
  intro s tokens h
  unfold parseSigned readSigned
  refine (parserPeekToken_ends h).bind fun _ l s₁ ⟨rest, htokens, hr, hast⟩ => ?_
  subst htokens
  simp only [proc_get_bind, hr.shown.startIndex]
  refine (parseSigns_ends (.ready hr)).bind ?_
  rintro inverse ⟨_, rest₂⟩ s₂ ⟨rfl, hs₂, hast₂⟩
  rw [← hast, ← hast₂]
  cases inverse with
  | false =>
    simp only [Bool.false_eq_true, if_false]
    refine (parseAtom_simulates ih s₂ rest₂ hs₂).bind ?_
    rintro node ⟨t, rest₃⟩ s₃ ⟨hs₃, hb⟩
    exact .ok ⟨hs₃, hb.setStart l.startIndex⟩
  | true =>
    simp only [if_true]
    refine (parseAtom_simulates ih s₂ rest₂ hs₂).bind ?_
    rintro child ⟨t, rest₃⟩ s₃ ⟨hs₃, hb⟩
    have hchild := hb.node
    have hend := rootNode_endIndex s₂.ast.nodes.length t
    rw [← hchild] at hend
    have hinv : Ends stop (Parsed (Sees names code stop) s₂.ast.nodes)
        ((do
          parserAppendNode child
          return ⟨l.startIndex, child.endIndex, .un () (← parserRootNodeIndex)⟩ : Proc _ _) s₃)
        (.ok (.un (l.startIndex, t.slot.2) () t, rest₃)) := by
      refine (parserAppendNode_ends child s₃).seq fun _ s₄ ⟨ast, heap, hs₄, hnodes⟩ => ?_
      subst hs₄
      rw [parserRootNodeIndex_bind, rootNodeIndex_of_append hnodes, hend]
      exact .ok ⟨hs₃.withAst ast heap, hnodes ▸ hb.un⟩
    cases t with
    | leaf r a =>
      cases a with
      | int value =>
        subst hchild
        simp only [rootNode, applySigns, if_true]
        split
        · exact .fail
        · exact .ok ⟨hs₃, by rw [hb.nodes]; rfl, rfl⟩
      | var argIndex =>
        rw [hchild] at hinv ⊢
        exact hinv
    | _ =>
      rw [hchild] at hinv ⊢
      exact hinv

end

-- ---------------------------------------------------------------------------
-- Operators
-- ---------------------------------------------------------------------------

/-- The loops of `parseAddSub` and `parseMulDiv`; `op` picks their operators. -/
def parseLoop (op : TokenType → Option BinaryType) (operand : Proc Parser AstNode) :
    Nat → AstNode → Proc Parser AstNode
  | 0, _ => throw (.fault .fuel)
  | count + 1, node => do
    parserPeekToken
    let token := (← get).token
    match op token.type with
    | none => return node
    | some type =>
      parserAppendNode node
      parserConsumeToken
      let leftIndex ← parserRootNodeIndex
      let right ← operand
      if type = .div ∧ right.data = .leaf (.int 0) then
        fail .divByZero right.startIndex right.endIndex
      else
        parserAppendNode right
        let rightIndex ← parserRootNodeIndex
        parseLoop op operand count
          ⟨token.startIndex, token.endIndex, .bin type leftIndex rightIndex⟩

theorem parseMulDivLoop_eq (addSub : Proc Parser AstNode) (fuel count : Nat) (node : AstNode) :
    parseMulDivLoop addSub fuel count node =
      parseLoop mulDivType (parseSigned addSub fuel) count node := by
  induction count generalizing node with
  | zero => rfl
  | succ count ih =>
    rw [parseLoop, ← funext ih]
    rfl

/-- No division is among the operators of `parseAddSub`. -/
theorem parseAddSubLoop_eq (addSub : Proc Parser AstNode) (fuel count : Nat) (node : AstNode) :
    parseAddSubLoop addSub fuel count node =
      parseLoop addSubType (parseMulDiv addSub fuel) count node := by
  induction count generalizing node with
  | zero => rfl
  | succ count ih =>
    rw [parseAddSubLoop, parseLoop]
    refine bind_congr fun _ => bind_congr fun p => ?_
    have hdiv : addSubType p.token.type ≠ some .div := by
      cases p.token.type <;> simp [addSubType]
    dsimp only
    cases hop : addSubType p.token.type with
    | none => rfl
    | some type =>
      have hne : type ≠ .div := fun h => hdiv (h ▸ hop)
      simp only [ih, hne, false_and, if_false]

/-- The operators that a loop picks by token are those it picks by word. -/
def SameOps (op : TokenType → Option BinaryType) (wop : Word → Option BinaryType) : Prop :=
  ∀ w type, w.tokenType = some type → wop w = op type ∧ ((op type).isSome → w.isLast = false)

theorem sameOps_addSub : SameOps addSubType Word.addSubType := by
  intro w type h
  cases w <;> simp [Word.tokenType] at h <;> subst h <;>
    simp [addSubType, Word.addSubType, Word.isLast]

theorem sameOps_mulDiv : SameOps mulDivType Word.mulDivType := by
  intro w type h
  cases w <;> simp [Word.tokenType] at h <;> subst h <;>
    simp [mulDivType, Word.mulDivType, Word.isLast]

theorem parseLoop_ends {op : TokenType → Option BinaryType} {wop : Word → Option BinaryType}
    {operand : Proc Parser AstNode} {roperand : List Lexeme → Read} {count : Nat}
    {front : List AstNode} {node : AstNode} {left : RangedExpr} (hop : SameOps op wop)
    (ih : Simulates names code stop (Sees names code stop) operand roperand)
    (h : Sees names code stop s tokens) (hb : Built front left s.ast.nodes node) :
    Ends stop (Parsed (Looks names code stop) front) (parseLoop op operand count node s)
      (readLoop wop roperand count left tokens) := by
  induction count generalizing s tokens node left with
  | zero => exact .fuel
  | succ count ihc =>
    rw [parseLoop, readLoop]
    refine (parserPeekToken_ends h).bind fun _ l s₁ ⟨rest, htokens, hr, hast⟩ => ?_
    subst htokens
    rw [← hast] at hb
    obtain ⟨hwop, hlast⟩ := hop _ _ hr.shown.type
    simp only [proc_get_bind, hwop]
    cases htype : op s₁.token.type with
    | none => exact .ok ⟨⟨l, rest, rfl, hr⟩, hb⟩
    | some type =>
      dsimp only
      refine (parserAppendNode_ends node s₁).seq fun _ s₂ ⟨ast, heap, hs₂, hnodes⟩ => ?_
      obtain ⟨s₃, hc, hp, hast₃, -⟩ := (hs₂ ▸ hr.withAst ast heap).consume (hlast (by simp [htype]))
      have hnodes₃ : s₃.ast.nodes = s₁.ast.nodes ++ [node] := by
        rw [hast₃, hs₂]
        exact hnodes
      rw [proc_bind_of_ok hc, parserRootNodeIndex_bind]
      refine (ih s₃ rest (.pending hp)).bind ?_
      rintro right ⟨t, rest'⟩ s₄ ⟨hs₄, hb'⟩
      have hzero : right.data = .leaf (.int 0) ↔ t.erase = Expr.int 0 := by
        rw [hb'.node, rootNode_data_int]
      simp only [hzero]
      split
      · rw [hb'.node, rootNode_startIndex, rootNode_endIndex]
        exact .fail
      · refine (parserAppendNode_ends right s₄).seq fun _ s₅ ⟨ast', heap', hs₅, hnodes'⟩ => ?_
        subst hs₅
        rw [parserRootNodeIndex_bind]
        refine ihc (hs₄.withAst ast' heap') ?_
        rw [rootNodeIndex_of_append hnodes', rootNodeIndex_of_append hnodes₃,
          hr.shown.startIndex, hr.shown.endIndex]
        rw [hnodes₃] at hb'
        exact hnodes' ▸ hb.bin hb'

theorem parseMulDiv_simulates {addSub : Proc Parser AstNode} {raddSub : List Lexeme → Read}
    {fuel : Nat} (ih : Simulates names code stop (Looks names code stop) addSub raddSub) :
    Simulates names code stop (Looks names code stop) (parseMulDiv addSub fuel)
      (readMulDiv names raddSub fuel) := by
  intro s tokens h
  unfold parseMulDiv readMulDiv
  refine (parseSigned_simulates ih s tokens h).bind ?_
  rintro node ⟨t, rest⟩ s₁ ⟨hs₁, hb⟩
  rw [parseMulDivLoop_eq]
  exact parseLoop_ends sameOps_mulDiv (parseSigned_simulates ih) hs₁ hb

theorem parseAddSub_simulates (names : List Bytes) (code : Bytes) (stop : Option Lexeme)
    (fuel : Nat) :
    Simulates names code stop (Looks names code stop) (parseAddSub fuel)
      (readAddSub names fuel) := by
  induction fuel with
  | zero => exact fun s tokens h => .fuel
  | succ fuel ih =>
    intro s tokens h
    rw [parseAddSub, readAddSub]
    refine (parseMulDiv_simulates ih s tokens h).bind ?_
    rintro node ⟨t, rest⟩ s₁ ⟨hs₁, hb⟩
    rw [parseAddSubLoop_eq]
    exact parseLoop_ends sameOps_addSub (parseMulDiv_simulates ih).sees hs₁.sees hb

-- ---------------------------------------------------------------------------
-- Programs
-- ---------------------------------------------------------------------------

def Finished (names : List Bytes) (t : RangedExpr) (s : Parser) : Prop :=
  s.state = .done ∧ s.args = names ∧ s.ast.nodes = layout 0 t

theorem parseProgram_ends (heap : Heap) (code : Bytes) (names : List Bytes) :
    Ends (obstacle code) (fun _ t s => Finished names t s)
      (parseProgram (Parser.init heap code names))
      (readProgram names (code.length + 2) (legible code)) := by
  have hinit : Pending names code (obstacle code) (Parser.init heap code names) (legible code) :=
    ⟨⟨rfl, rfl, Buffer.inv_init, Nat.zero_le _⟩, rfl, rfl⟩
  unfold parseProgram parseExpr readProgram
  simp only [proc_get_bind, bind_assoc]
  refine (parseAddSub_simulates names code _ _ _ _ (.pending hinit)).bind ?_
  rintro node ⟨t, rest⟩ s₁ ⟨⟨l, rest', hrest, hr⟩, hb⟩
  refine (parserAppendNode_ends node s₁).seq fun _ s₂ ⟨ast, heap', hs₂, hnodes⟩ => ?_
  have hr₂ : Ready names code (obstacle code) s₂ l rest' := hs₂ ▸ hr.withAst ast heap'
  obtain rfl : rest = l :: rest' := hrest
  have heof : l.word = .eof ↔ s₂.token.type = .eof := by
    have htype := hr₂.shown.type
    cases hw : l.word <;> rw [hw] at htype <;> simp [Word.tokenType] at htype <;> simp [← htype]
  rw [proc_bind_of_ok (parserPeekToken_eq hr₂)]
  simp only [proc_get_bind, next, ok_bind, ne_eq, heof]
  split
  · rw [hr₂.shown.startIndex, hr₂.shown.endIndex]
    exact .fail
  · rw [proc_bind_of_ok (parserConsumeToken_eq hr₂.state)]
    refine .ok ⟨rfl, hr₂.args, ?_⟩
    have hnil : (Parser.init heap code names).ast.nodes = [] := rfl
    have happ := hb.append
    rw [← hnodes] at happ
    simpa [hs₂, hnil] using happ

end

end ParserExample
