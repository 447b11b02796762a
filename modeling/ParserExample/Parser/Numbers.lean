import ParserExample.Parser.Invariant
import ParserExample.Parser.Kept

/-!
# The numbers of the nodes

What the functions of the parser put into a `NODE_INT` is between the opposite of
`LONG_MAX - 1` and `LONG_MAX`, so that `parse_signed` can negate it. With the
exactness of the digit loop, the arithmetic of literals is exact
(`literals_exact`).
-/

namespace ParserExample

open Library

-- ---------------------------------------------------------------------------
-- Nodes
-- ---------------------------------------------------------------------------

def AstNode.InRange (node : AstNode) : Prop :=
  ∀ value, node.data = .leaf (.int value) →
    -(longMax.toInt - 1) ≤ value.toInt ∧ value.toInt ≤ longMax.toInt

structure NumbersOk (s : Parser) : Prop where
  token : 0 ≤ s.token.value.toInt
  nodes : ∀ node ∈ s.ast.nodes, node.InRange

abbrev KeepsNumbers {α : Type} (good : α → Prop) (x : Proc Parser α) : Prop :=
  Keeps NumbersOk good x

/-- Only `LONG_MAX` is as large as the number that `LONG_MIN` is the opposite of. -/
theorem AstNode.InRange.neg {node : AstNode} {value : Long} (h : node.InRange)
    (hd : node.data = .leaf (.int value)) (hne : value ≠ longMax) :
    (-value).toInt = -value.toInt ∧ -(longMax.toInt - 1) ≤ -value.toInt ∧
      -value.toInt ≤ longMax.toInt := by
  obtain ⟨hge, hle⟩ := h value hd
  have hlt : value.toInt ≠ longMax.toInt := fun heq => hne (Int64.toInt_inj.mp heq)
  have hmax : longMax.toInt = 2 ^ 63 - 1 := by decide
  refine ⟨?_, by omega, by omega⟩
  rw [Int64.toInt_neg]
  exact Int.bmod_eq_of_le (by omega) (by omega)

theorem inRange_of_ne {node : AstNode} (h : ∀ value, node.data ≠ .leaf (.int value)) :
    node.InRange := fun value hd => absurd hd (h value)

theorem numbersKept : Kept NumbersOk AstNode.InRange where
  congr h hast hvalue := ⟨hvalue ▸ h.token, hast ▸ h.nodes⟩
  number h hast hvalue := ⟨hvalue, hast ▸ h.nodes⟩
  append {s s' node} h hn hast hvalue := by
    refine ⟨hvalue ▸ h.token, ?_⟩
    rw [hast]
    rcases astAppendNode_cases s.heap s.ast node with
      ⟨heap, ha⟩ | ⟨capacity, heap, ha, -⟩
    · rw [ha]
      exact h.nodes
    · rw [ha]
      exact List.forall_mem_append.mpr ⟨h.nodes, List.forall_mem_singleton.mpr hn⟩
  int i j h := by
    -- a number is that of a token, which has no sign
    rintro value ⟨⟩
    exact ⟨le_trans (by decide) h.token, Int64.toInt_le _⟩
  neg i j h hd hmax := by
    rintro value ⟨⟩
    obtain ⟨hneg, hge, hle⟩ := h.neg hd hmax
    exact hneg ▸ ⟨hge, hle⟩
  start _ h := h
  other := inRange_of_ne

-- ---------------------------------------------------------------------------
-- Every call of a run
-- ---------------------------------------------------------------------------

def Call.argument : Call → Option AstNode
  | .loop _ _ _ node | .appendNode node => some node
  | _ => none

def Call.parseNode : Call → Option (Proc Parser AstNode)
  | .addSub fuel => some (parseAddSub fuel)
  | .mulDiv fuel => some (parseMulDiv (parseAddSub fuel) (fuel + 1))
  | .loop .addSub fuel count node =>
    some (parseAddSubLoop (parseAddSub fuel) (fuel + 1) count node)
  | .loop .mulDiv fuel count node =>
    some (parseMulDivLoop (parseAddSub fuel) (fuel + 1) count node)
  | .signed fuel => some (parseSigned (parseAddSub fuel) (fuel + 1))
  | .atom fuel => some (parseAtom (parseAddSub fuel))
  | .paren fuel => some (parseParen (parseAddSub fuel))
  | _ => none

structure Call.NumbersOk (c : Call) (s : Parser) : Prop where
  state : ParserExample.NumbersOk s
  argument : ∀ node, c.argument = some node → node.InRange

section
variable {c c' : Call} {s s' : Parser} {fuel : Nat}

theorem Level.parseOperand_keepsNumbers (level : Level) (fuel : Nat) :
    KeepsNumbers AstNode.InRange (level.parseOperand fuel) := by
  cases level
  · exact parseMulDiv_keeps numbersKept (parseAddSub_keeps numbersKept fuel) _
  · exact parseSigned_keeps numbersKept (parseAddSub_keeps numbersKept fuel) _

theorem Call.parseNode_keepsNumbers {x : Proc Parser AstNode} (hx : c.parseNode = some x)
    (h : ∀ node, c.argument = some node → node.InRange) : KeepsNumbers AstNode.InRange x := by
  have ih := parseAddSub_keeps numbersKept
  cases c with
  | addSub fuel =>
    obtain rfl := Option.some.inj hx
    exact ih fuel
  | mulDiv fuel =>
    obtain rfl := Option.some.inj hx
    exact parseMulDiv_keeps numbersKept (ih fuel) _
  | loop level fuel count node =>
    cases level with
    | addSub =>
      obtain rfl := Option.some.inj hx
      rw [parseAddSubLoop_eq]
      have hoperand := parseMulDiv_keeps numbersKept (ih fuel) (fuel + 1)
      exact parseLoop_keeps numbersKept hoperand count (h node rfl)
    | mulDiv =>
      obtain rfl := Option.some.inj hx
      rw [parseMulDivLoop_eq]
      have hoperand := parseSigned_keeps numbersKept (ih fuel) (fuel + 1)
      exact parseLoop_keeps numbersKept hoperand count (h node rfl)
  | signed fuel =>
    obtain rfl := Option.some.inj hx
    exact parseSigned_keeps numbersKept (ih fuel) _
  | atom fuel =>
    obtain rfl := Option.some.inj hx
    exact parseAtom_keeps numbersKept (ih fuel)
  | paren fuel =>
    obtain rfl := Option.some.inj hx
    exact parseParen_keeps numbersKept (ih fuel)
  | _ => cases hx

theorem Calls.numbersOk (h : Calls (c, s) (c', s')) (hc : c.NumbersOk s) : c'.NumbersOk s' := by
  have hs := hc.state
  have hpeek {s s₁ : Parser} (hs : NumbersOk s) (hp : parserPeekToken s = .ok () s₁) :
      NumbersOk s₁ := ((parserPeekToken_keeps numbersKept).of_ok hs hp).2
  have hconsume {s s₁ : Parser} (hs : NumbersOk s) (hp : parserConsumeToken s = .ok () s₁) :
      NumbersOk s₁ := ((parserConsumeToken_keeps numbersKept).of_ok hs hp).2
  have happend {node : AstNode} {s s₁ : Parser} (hs : NumbersOk s) (hn : node.InRange)
      (hp : parserAppendNode node s = .ok () s₁) : NumbersOk s₁ :=
    ((parserAppendNode_keeps numbersKept hn).of_ok hs hp).2
  -- a call that is handed no node
  have hnone {c : Call} {s : Parser} (hs : NumbersOk s) (ha : c.argument = none) :
      c.NumbersOk s := by
    refine ⟨hs, fun node hnode => ?_⟩
    rw [ha] at hnode
    cases hnode
  have hsome {c : Call} {s : Parser} {node : AstNode} (hs : NumbersOk s) (hn : node.InRange)
      (ha : c.argument = some node) : c.NumbersOk s := by
    refine ⟨hs, fun node' hnode => ?_⟩
    obtain rfl := Option.some.inj (ha.symm.trans hnode)
    exact hn
  cases h with
  | program_expr | expr_addSub | addSub_mulDiv | mulDiv_signed | loop_peek | signed_peek
  | signs_peek | atom_peek | paren_peek | peek_token => exact hnone hs rfl
  | program_peek h => exact hnone ((parseExpr_keeps numbersKept _).of_ok hs h).2 rfl
  | program_consume h h₁ =>
    exact hnone (hpeek ((parseExpr_keeps numbersKept _).of_ok hs h).2 h₁) rfl
  | expr_append h =>
    obtain ⟨hn, hs₁⟩ := (parseAddSub_keeps numbersKept _).of_ok hs h
    exact hsome hs₁ hn rfl
  | addSub_loop h =>
    obtain ⟨hn, hs₁⟩ := (Level.addSub.parseOperand_keepsNumbers _).of_ok hs h
    exact hsome hs₁ hn rfl
  | mulDiv_loop h =>
    obtain ⟨hn, hs₁⟩ := (Level.mulDiv.parseOperand_keepsNumbers _).of_ok hs h
    exact hsome hs₁ hn rfl
  | loop_left h => exact hsome (hpeek hs h.1) (hc.argument _ rfl) rfl
  | loop_consume h h₁ =>
    exact hnone (happend (hpeek hs h.1) (hc.argument _ rfl) h₁) rfl
  | @loop_operand level _ _ _ _ _ _ _ _ h h₁ h₂ =>
    refine hnone (hconsume (happend (hpeek hs h.1) (hc.argument _ rfl) h₁) h₂) ?_
    cases level <;> rfl
  | loop_right h h₁ =>
    obtain ⟨ha, hcons, ho⟩ := h₁
    have hs₃ := hconsume (happend (hpeek hs h.1) (hc.argument _ rfl) ha) hcons
    obtain ⟨hn, hs₄⟩ := (Level.parseOperand_keepsNumbers _ _).of_ok hs₃ ho
    exact hsome hs₄ hn rfl
  | loop_next h h₁ _ h₄ =>
    obtain ⟨ha, hcons, ho⟩ := h₁
    have hs₃ := hconsume (happend (hpeek hs h.1) (hc.argument _ rfl) ha) hcons
    obtain ⟨hn, hs₄⟩ := (Level.parseOperand_keepsNumbers _ _).of_ok hs₃ ho
    refine hsome (happend hs₄ hn h₄) (inRange_of_ne ?_) rfl
    rintro value ⟨⟩
  | signed_signs h => exact hnone (hpeek hs h) rfl
  | signed_atom h h₁ =>
    exact hnone ((parseSigns_keeps numbersKept _ _).of_ok (hpeek hs h) h₁).2 rfl
  | signed_append h h₁ h₂ =>
    have hs₂ := ((parseSigns_keeps numbersKept _ _).of_ok (hpeek hs h) h₁).2
    obtain ⟨hn, hs₃⟩ := (parseAtom_keeps numbersKept (parseAddSub_keeps numbersKept _)).of_ok hs₂ h₂
    exact hsome hs₃ hn rfl
  | signs_consume h | atom_consume h | atom_paren h | paren_consume h =>
    exact hnone (hpeek hs h) rfl
  | signs_next h _ h₁ | paren_addSub h _ h₁ => exact hnone (hconsume (hpeek hs h) h₁) rfl
  | paren_close h _ h₁ h₂ =>
    exact hnone ((parseAddSub_keeps numbersKept _).of_ok (hconsume (hpeek hs h) h₁) h₂).2 rfl

theorem numbersOk_init (heap : Heap) (code : Bytes) (names : List Bytes) :
    NumbersOk (Parser.init heap code names) :=
  ⟨le_rfl, fun node hnode => by cases hnode⟩

theorem Called.numbersOk {heap : Heap} {code : Bytes} {names : List Bytes}
    (h : Called heap code names (c, s)) : c.NumbersOk s := by
  obtain ⟨-, hreaches⟩ := h
  generalize hy : (c, s) = y at hreaches
  induction hreaches generalizing c s with
  | refl =>
    cases hy
    refine ⟨numbersOk_init heap code names, ?_⟩
    rintro node ⟨⟩
  | @tail x _ _ hcalls ih =>
    subst hy
    exact hcalls.numbersOk (ih rfl)

/-- What holds of the numbers at a call: those of the nodes appended before it and
of the node that it hands on are in range, and where it negates one nothing
overflows. -/
structure NumbersInRange (c : Call) (s : Parser) : Prop where
  appended : ∀ node ∈ s.ast.nodes, node.InRange
  yields : ∀ x node s', c.parseNode = some x → x s = .ok node s' →
    node.InRange ∧ ∀ node ∈ s'.ast.nodes, node.InRange
  negates : ∀ fuel s₁ s₂ s₃ child value, c = .signed fuel → parserPeekToken s = .ok () s₁ →
    parseSigns (fuel + 1) false s₁ = .ok true s₂ →
    parseAtom (parseAddSub fuel) s₂ = .ok child s₃ → child.data = .leaf (.int value) →
    value ≠ longMax → (-value).toInt = -value.toInt

theorem Call.NumbersOk.inRange (h : c.NumbersOk s) : NumbersInRange c s := by
  refine ⟨h.state.nodes, ?_, ?_⟩
  · rintro x node s' hx hs'
    obtain ⟨hn, hs⟩ := (Call.parseNode_keepsNumbers hx h.argument).of_ok h.state hs'
    exact ⟨hn, hs.nodes⟩
  · rintro fuel s₁ s₂ s₃ child value rfl h₁ h₂ h₃ hd hmax
    have hs₁ := ((parserPeekToken_keeps numbersKept).of_ok h.state h₁).2
    have hs₂ := ((parseSigns_keeps numbersKept _ _).of_ok hs₁ h₂).2
    have hchild := ((parseAtom_keeps numbersKept (parseAddSub_keeps numbersKept _)).of_ok hs₂ h₃).1
    exact (hchild.neg hd hmax).1

theorem parseSlice_numbers {heap : Heap} {code : Bytes} {names : List Bytes} {p : Parser}
    (h : parseSlice heap code names = .ok p) : ∀ node ∈ p.ast.nodes, node.InRange :=
  (parseSlice_keeps numbersKept (numbersOk_init heap code names) h).nodes

/-- The arithmetic of literals is exact: the digit loop reads every number that a
`long` has room for and reports the others, and in every call of a run the
numbers of the nodes are in range, so that signs can be folded into them. -/
theorem literals_exact (heap : Heap) (code : Bytes) (names : List Bytes) :
    (∀ s, DigitsExact s (parserSkipIgnoreable s).index
      ((s.code.drop (parserSkipIgnoreable s).index).takeWhile isDigit)) ∧
    (∀ c s, Called heap code names (c, s) → NumbersInRange c s) ∧
    ∀ p, parseSlice heap code names = .ok p → ∀ node ∈ p.ast.nodes, node.InRange := by
  exact ⟨digitsExact, fun c s h => h.numbersOk.inRange, fun p h => parseSlice_numbers h⟩

end

end ParserExample
