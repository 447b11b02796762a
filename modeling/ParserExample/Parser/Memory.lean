import ParserExample.Parser.Exchange

/-!
# The parser and its memory

What the parser does does not depend on the memory it gets until it is refused
some: then it returns `ERROR_OUT_OF_MEMORY` and does nothing after it.
-/

namespace ParserExample

open Library

def Parser.unlimited (s : Parser) : Parser := { s with heap := Heap.unlimited }

def OutOfMemory (e : Halt) (s : Parser) : Prop :=
  e = .returnFalse ∧ s.state = .error ∧ s.error = .outOfMemory

def unlimitedHeap : Exchange Halt Parser := replacing id (fun _ => Heap.unlimited) OutOfMemory

/-- A function of the parser runs as it does on the unlimited heap, or runs out
of memory. -/
abbrev Sheltered {α : Type} (x : Proc Parser α) : Prop := unlimitedHeap.Allows x x

theorem parserBufferAppend_sheltered (chunk : Bytes) :
    Sheltered (parserBufferAppend (bufferAppend · · chunk)) := by
  intro s
  unfold Exchange.AllowsAt parserBufferAppend
  simp only [proc_get_bind]
  rcases bufferAppend_unlimited s.heap s.buffer chunk with ⟨heap', hr⟩ | hr
  · simp only [hr]
    exact ⟨trivial, fun hl => absurd ⟨rfl, rfl, rfl⟩ hl⟩
  · have hu : bufferAppend (unlimitedHeap.swap s).heap (unlimitedHeap.swap s).buffer chunk = _ :=
      hr.symm
    cases hb : bufferAppend s.heap s.buffer chunk with
    | error f =>
      simp only [hu, hb]
      exact ⟨trivial, fun _ _ => rfl⟩
    | ok r =>
      obtain ⟨ok, buffer, heap'⟩ := r
      simp only [hu, hb]
      cases ok
      · exact ⟨trivial, fun hl => absurd ⟨rfl, rfl, rfl⟩ hl⟩
      · exact ⟨trivial, fun _ => rfl⟩

theorem parserAppendNode_sheltered (node : AstNode) : Sheltered (parserAppendNode node) := by
  intro s
  unfold Exchange.AllowsAt parserAppendNode
  simp only [proc_get_bind]
  rcases astAppendNode_cases s.heap s.ast node with ⟨heap', hr⟩ | ⟨capacity, heap', hr, hu⟩
  · simp only [hr]
    exact ⟨trivial, fun hl => absurd ⟨rfl, rfl, rfl⟩ hl⟩
  · have hu : astAppendNode (unlimitedHeap.swap s).heap (unlimitedHeap.swap s).ast node = _ := hu
    simp only [hr, hu]
    exact ⟨trivial, fun _ => rfl⟩

theorem findVariable_sheltered (token : Token) : Sheltered (findVariable token) := by
  refine Exchange.allows_get_bind (fun _ => rfl) fun p => ?_
  dsimp only
  split_ifs
  · exact replacing_fail _ _ _
  · exact Exchange.allows_pure _

theorem parseProgram_sheltered : Sheltered parseProgram :=
  replacing_parseProgram parserBufferAppend_sheltered parserAppendNode_sheltered
    findVariable_sheltered

/-- What a caller of `parse_slice` looks at. -/
def Parser.outcome (p : Parser) : ParserState × ParserError × ErrorInfo × List AstNode :=
  (p.state, p.error, p.errorInfo, p.ast.nodes)

theorem parseSlice_unlimited (heap : Heap) (code : Bytes) (names : List Bytes) :
    (∃ p, parseSlice heap code names = .ok p ∧ p.state = .error ∧ p.error = .outOfMemory) ∨
    parseSlice Heap.unlimited code names =
      (parseSlice heap code names).map Parser.unlimited := by
  unfold parseSlice
  cases argsError names with
  | some e => exact .inr rfl
  | none =>
    have hrun := parseProgram_sheltered (Parser.init heap code names)
    have hinit : unlimitedHeap.swap (Parser.init heap code names) =
        Parser.init Heap.unlimited code names := rfl
    simp only
    cases hp : parseProgram (Parser.init heap code names) with
    | ok u p =>
      have hsame := (hrun.of_ok hp).2 trivial
      rw [hinit] at hsame
      rw [hsame]
      exact .inr rfl
    | error e p =>
      by_cases hl : OutOfMemory e p
      · obtain ⟨rfl, hs, he⟩ := hl
        exact .inl ⟨p, rfl, hs, he⟩
      · have hsame := (hrun.of_error hp).2 hl trivial
        rw [hinit] at hsame
        rw [hsame]
        cases e <;> exact .inr rfl

/-- Memory that is refused is reported, and otherwise makes no difference. -/
theorem parseSlice_sheltered (heap : Heap) (code : Bytes) (names : List Bytes) :
    (∃ p, parseSlice heap code names = .ok p ∧ p.state = .error ∧ p.error = .outOfMemory) ∨
    (parseSlice heap code names).map Parser.outcome =
      (parseSlice Heap.unlimited code names).map Parser.outcome := by
  refine (parseSlice_unlimited heap code names).imp_right fun hsame => ?_
  rw [hsame]
  cases parseSlice heap code names <;> rfl

end ParserExample
