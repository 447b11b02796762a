import ParserExample.Ast.Storage
import ParserExample.Parser.Simulation

/-!
# What the parser keeps

The functions of the parser change its tree by appends only. A property of the
tree, and of the number that the token carries, is kept by each of them if it is
kept by the append of a node as `parse_atom` and `parse_signed` make them.
-/

namespace ParserExample

open Library

/-- A property of parsers that a read token and an appended node keep, and which
nodes are good for it: those the parser makes. -/
structure Kept (inv : Parser → Prop) (good : AstNode → Prop) : Prop where
  congr : ∀ {s s' : Parser}, inv s → s'.ast = s.ast → s'.token.value = s.token.value → inv s'
  number : ∀ {s s' : Parser}, inv s → s'.ast = s.ast → 0 ≤ s'.token.value.toInt → inv s'
  append : ∀ {s s' : Parser} {node}, inv s → good node →
    s'.ast = (astAppendNode s.heap s.ast node).2.1 → s'.token.value = s.token.value → inv s'
  int : ∀ {s : Parser} (i j : Nat), inv s → good ⟨i, j, .leaf (.int s.token.value)⟩
  neg : ∀ {node : AstNode} {value : Long} (i j : Nat), good node → node.data = .leaf (.int value) →
    value ≠ longMax → good ⟨i, j, .leaf (.int (-value))⟩
  start : ∀ {node : AstNode} (i : Nat), good node → good { node with startIndex := i }
  other : ∀ {node : AstNode}, (∀ value, node.data ≠ .leaf (.int value)) → good node

section
variable {inv : Parser → Prop} {good : AstNode → Prop} (hk : Kept inv good)
  {α : Type} {ok : α → Prop} {addSub : Proc Parser AstNode}
include hk

-- ---------------------------------------------------------------------------
-- Tokens and nodes
-- ---------------------------------------------------------------------------

theorem fail_keeps (error : ParserError) (i j : Nat) :
    Keeps inv ok (fail error i j : Proc Parser α) :=
  keeps_modify_bind (fun _ h => hk.congr h rfl rfl) (keeps_throw _)

theorem parserBufferAppend_keeps
    (append : Heap → Buffer → Except Fault (Bool × Buffer × Heap)) :
    Keeps inv (fun _ => True) (parserBufferAppend append) := by
  refine keeps_get_bind fun p _ => ?_
  cases append p.heap p.buffer with
  | error f => exact keeps_throw _
  | ok r =>
    obtain ⟨ok, buffer, heap⟩ := r
    refine keeps_modify_bind (fun _ h => hk.congr h rfl rfl) ?_
    split_ifs
    · exact fail_keeps hk _ _ _
    · exact keeps_pure trivial

theorem parseInt_keeps : Keeps inv (fun _ => True) parseInt := by
  refine keeps_modify_bind (fun _ h => hk.congr h rfl rfl) (keeps_get_bind fun p _ => ?_)
  dsimp only
  cases hr : readDigits (p.code.drop p.index) p.index 0 with
  | error index =>
    exact keeps_modify_bind (fun _ h => hk.congr h rfl rfl) (fail_keeps hk _ _ _)
  | ok r => exact keeps_modify (fun _ h => hk.number h rfl (readDigits_nonneg hr)) trivial

theorem parseIdent_keeps : Keeps inv (fun _ => True) parseIdent := by
  refine keeps_modify_bind (fun _ h => hk.congr h rfl rfl) (keeps_get_bind fun p _ => ?_)
  refine (parserBufferAppend_keeps hk _).bind fun _ _ => ?_
  refine (parserBufferAppend_keeps hk _).bind fun _ _ => ?_
  exact keeps_modify (fun _ h => hk.congr h rfl rfl) trivial

theorem parseToken_keeps : Keeps inv (fun _ => True) parseToken := by
  refine keeps_modify_bind (fun _ h => hk.congr h rfl rfl) (keeps_get_bind fun p _ => ?_)
  dsimp only
  cases p.code[p.index]? with
  | none => exact keeps_modify (fun _ h => hk.congr h rfl rfl) trivial
  | some sym =>
    simp only
    cases charType sym with
    | some type => exact keeps_modify (fun _ h => hk.congr h rfl rfl) trivial
    | none =>
      simp only
      split_ifs
      · exact parseInt_keeps hk
      · exact parseIdent_keeps hk
      · exact fail_keeps hk _ _ _

theorem parserPeekToken_keeps : Keeps inv (fun _ => True) parserPeekToken := by
  refine keeps_get_bind fun p _ => ?_
  cases p.state
  · exact parseToken_keeps hk
  · exact keeps_pure trivial
  all_goals exact keeps_throw _

theorem parserConsumeToken_keeps : Keeps inv (fun _ => True) parserConsumeToken := by
  refine keeps_get_bind fun p _ => ?_
  cases p.state
  · exact keeps_throw _
  · exact keeps_modify (fun _ h => hk.congr h rfl rfl) trivial
  all_goals exact keeps_throw _

theorem parserAppendNode_keeps {node : AstNode} (hn : good node) :
    Keeps inv (fun _ => True) (parserAppendNode node) := by
  intro s hs
  refine meets_get_bind ?_
  have hkept (s' : Parser) (ha : s'.ast = (astAppendNode s.heap s.ast node).2.1)
      (hv : s'.token.value = s.token.value) : inv s' := hk.append hs hn ha hv
  generalize astAppendNode s.heap s.ast node = r at hkept ⊢
  obtain ⟨ok, ast, heap⟩ := r
  refine meets_modify_bind ?_
  cases ok
  · exact fail_keeps hk _ _ _ _ (hkept _ rfl rfl)
  · exact meets_pure ⟨trivial, hkept _ rfl rfl⟩

omit hk in
theorem parserRootNodeIndex_keeps : Keeps inv (fun _ => True) parserRootNodeIndex :=
  keeps_get_bind fun _ _ => keeps_pure trivial

-- ---------------------------------------------------------------------------
-- The grammar
-- ---------------------------------------------------------------------------

theorem parseSigns_keeps (fuel : Nat) (inverse : Bool) :
    Keeps inv (fun _ => True) (parseSigns fuel inverse) := by
  induction fuel generalizing inverse with
  | zero => exact keeps_throw _
  | succ fuel ih =>
    rw [parseSigns]
    refine (parserPeekToken_keeps hk).bind fun _ _ => keeps_get_bind fun p _ => ?_
    cases p.token.type
    case plus | minus => exact (parserConsumeToken_keeps hk).bind fun _ _ => ih _
    all_goals exact keeps_pure trivial

section
variable (h : Keeps inv good addSub)
include h

theorem parseParen_keeps : Keeps inv good (parseParen addSub) := by
  unfold parseParen
  refine (parserPeekToken_keeps hk).bind fun _ _ => keeps_get_bind fun p _ => ?_
  dsimp only
  split_ifs
  · exact fail_keeps hk _ _ _
  refine (parserConsumeToken_keeps hk).bind fun _ _ => h.bind fun node hn => ?_
  refine keeps_get_bind fun q _ => ?_
  split_ifs
  · exact fail_keeps hk _ _ _
  · exact (parserConsumeToken_keeps hk).bind fun _ _ => keeps_pure hn

theorem parseAtom_keeps : Keeps inv good (parseAtom addSub) := by
  unfold parseAtom
  refine (parserPeekToken_keeps hk).bind fun _ _ => keeps_get_bind fun p hp => ?_
  dsimp only
  cases p.token.type
  case ident =>
    refine (parserConsumeToken_keeps hk).bind fun _ _ => keeps_get_bind fun q _ => ?_
    split_ifs
    · exact fail_keeps hk _ _ _
    · refine keeps_pure (hk.other ?_)
      rintro value ⟨⟩
  case int =>
    exact (parserConsumeToken_keeps hk).bind fun _ _ => keeps_pure (hk.int _ _ hp)
  case parenOpen => exact parseParen_keeps hk h
  all_goals exact fail_keeps hk _ _ _

theorem parseSigned_keeps (fuel : Nat) : Keeps inv good (parseSigned addSub fuel) := by
  unfold parseSigned
  refine (parserPeekToken_keeps hk).bind fun _ _ => keeps_get_bind fun p _ => ?_
  refine (parseSigns_keeps hk _ _).bind fun inverse _ => ?_
  split_ifs
  · refine (parseAtom_keeps hk h).bind fun child hc => ?_
    split
    · split_ifs with hmax
      · exact fail_keeps hk _ _ _
      · exact keeps_pure (hk.neg _ _ hc ‹_› hmax)
    · refine (parserAppendNode_keeps hk hc).bind fun _ _ => ?_
      refine parserRootNodeIndex_keeps.bind fun _ _ => keeps_pure (hk.other ?_)
      rintro value ⟨⟩
  · exact (parseAtom_keeps hk h).bind fun _ hn => keeps_pure (hk.start _ hn)

end

theorem parseLoop_keeps {op : TokenType → Option BinaryType} {operand : Proc Parser AstNode}
    (h : Keeps inv good operand) (count : Nat) {node : AstNode} (hn : good node) :
    Keeps inv good (parseLoop op operand count node) := by
  induction count generalizing node with
  | zero => exact keeps_throw _
  | succ count ih =>
    rw [parseLoop]
    refine (parserPeekToken_keeps hk).bind fun _ _ => keeps_get_bind fun p _ => ?_
    dsimp only
    cases op p.token.type with
    | none => exact keeps_pure hn
    | some type =>
      refine (parserAppendNode_keeps hk hn).bind fun _ _ => ?_
      refine (parserConsumeToken_keeps hk).bind fun _ _ => ?_
      refine parserRootNodeIndex_keeps.bind fun _ _ => h.bind fun right hright => ?_
      split_ifs
      · exact fail_keeps hk _ _ _
      · refine (parserAppendNode_keeps hk hright).bind fun _ _ => ?_
        refine parserRootNodeIndex_keeps.bind fun _ _ => ih (hk.other ?_)
        rintro value ⟨⟩

theorem parseMulDiv_keeps (h : Keeps inv good addSub) (fuel : Nat) :
    Keeps inv good (parseMulDiv addSub fuel) := by
  unfold parseMulDiv
  simp only [parseMulDivLoop_eq]
  exact (parseSigned_keeps hk h fuel).bind fun _ hn =>
    parseLoop_keeps hk (parseSigned_keeps hk h fuel) fuel hn

theorem parseAddSub_keeps (fuel : Nat) : Keeps inv good (parseAddSub fuel) := by
  induction fuel with
  | zero => exact keeps_throw _
  | succ fuel ih =>
    rw [parseAddSub]
    simp only [parseAddSubLoop_eq]
    exact (parseMulDiv_keeps hk ih _).bind fun _ hn =>
      parseLoop_keeps hk (parseMulDiv_keeps hk ih _) _ hn

theorem parseExpr_keeps (fuel : Nat) : Keeps inv (fun _ => True) (parseExpr fuel) :=
  (parseAddSub_keeps hk fuel).bind fun _ hn => parserAppendNode_keeps hk hn

theorem parseProgram_keeps : Keeps inv (fun _ => True) parseProgram := by
  unfold parseProgram
  refine keeps_get_bind fun p _ => (parseExpr_keeps hk _).bind fun _ _ => ?_
  refine (parserPeekToken_keeps hk).bind fun _ _ => keeps_get_bind fun q _ => ?_
  dsimp only
  split_ifs
  · exact fail_keeps hk _ _ _
  · refine (parserConsumeToken_keeps hk).bind fun _ _ => ?_
    exact keeps_modify (fun _ h => hk.congr h rfl rfl) trivial

theorem parseSlice_keeps {heap : Heap} {code : Bytes} {names : List Bytes} {p : Parser}
    (hinit : inv (Parser.init heap code names)) (h : parseSlice heap code names = .ok p) :
    inv p := by
  have hrun := parseProgram_keeps hk _ hinit
  unfold parseSlice at h
  cases hn : argsError names with
  | some e =>
    simp only [hn] at h
    obtain rfl := Except.ok.inj h
    exact hk.congr hinit rfl rfl
  | none =>
    simp only [hn] at h
    unfold Meets at hrun
    generalize parseProgram (Parser.init heap code names) = r at h hrun
    cases r with
    | ok u s =>
      obtain rfl := Except.ok.inj h
      exact hrun.2
    | error e s =>
      cases e with
      | returnFalse =>
        obtain rfl := Except.ok.inj h
        exact hrun
      | fault f => cases h

end

-- ---------------------------------------------------------------------------
-- The storage of the tree
-- ---------------------------------------------------------------------------

/-- The nodes of the tree are those of an array that `ast_append_node` has filled. -/
def Stored (s : Parser) : Prop := ∃ array, Represents array s.ast

theorem storedKept : Kept Stored fun _ => True where
  congr h hast _ := by rwa [Stored, hast]
  number h hast _ := by rwa [Stored, hast]
  append {s s' node} h _ hast _ := by
    obtain ⟨array, h⟩ := h
    rw [Stored, hast]
    rcases h.append s.heap node with ⟨heap, -, -, ha⟩ | ⟨array', capacity, heap, -, -, ha, h'⟩
    · exact ⟨array, by rwa [ha]⟩
    · exact ⟨array', by rwa [ha]⟩
  int _ _ _ := trivial
  neg _ _ _ _ _ := trivial
  start _ _ := trivial
  other _ := trivial

theorem parseSlice_size_le {heap : Heap} {code : Bytes} {names : List Bytes} {p : Parser}
    (h : parseSlice heap code names = .ok p) : p.ast.nodesUsed * astNodeSize ≤ sizeMax := by
  obtain ⟨array, h⟩ := parseSlice_keeps storedKept ⟨NodeArray.init, represents_init⟩ h
  rw [← h.nodesUsed_eq]
  exact (Nat.mul_le_mul_right _ h.nodesUsed_le).trans h.size_le

end ParserExample
