import ParserExample.Ast
import ParserExample.Library.Block

/-!
# The storage of the nodes

`struct Ast` with the block of memory behind its `nodes`. Sizes are computed as
`size_t`, which wraps around, and a block that is too short for a write is
overrun. Neither happens: `NodeArray.append` does to the storage what
`astAppendNode` says of the nodes that are stored (`Represents.append`).
-/

namespace ParserExample

open Library

structure NodeArray where
  nodes : Block AstNode
  nodesUsed : Nat
  nodesCapacity : Nat

namespace NodeArray

/-- `AST_INIT`. -/
def init : NodeArray := ⟨[], 0, 0⟩

/-- `array.nodes[nodes_used] = *node; ++ nodes_used;` -/
def store (array : NodeArray) (node : AstNode) : Except Fault NodeArray :=
  match array.nodes.write array.nodesUsed node with
  | none => .error .overrun
  | some nodes => .ok { array with nodes, nodesUsed := toSize (array.nodesUsed + 1) }

def newCapacity (array : NodeArray) : Nat :=
  if array.nodesCapacity = 0 then 64 else toSize (array.nodesCapacity * 2)

def CallsRealloc (array : NodeArray) : Prop :=
  array.nodesUsed = array.nodesCapacity ∧ array.nodesCapacity ≤ sizeMax / 2 / astNodeSize

/-- `ast_append_node`. -/
def append (heap : Heap) (array : NodeArray) (node : AstNode) :
    Except Fault (Bool × NodeArray × Heap) := do
  if array.nodesUsed = array.nodesCapacity then
    if array.nodesCapacity > sizeMax / 2 / astNodeSize then
      return (false, array, heap)
    let (ok, heap) := heap.realloc
    if !ok then
      return (false, array, heap)
    let size := toSize (array.newCapacity * astNodeSize)
    let nodes := array.nodes.resize (size / astNodeSize)
    let array ← store { array with nodes, nodesCapacity := array.newCapacity } node
    return (true, array, heap)
  let array ← array.store node
  return (true, array, heap)

/-- A sequence of appends: the nodes whose append succeeded, in order, and the
array and heap at the end. -/
def appendAll : Heap → NodeArray → List AstNode → Except Fault (List AstNode × NodeArray × Heap)
  | heap, array, [] => .ok ([], array, heap)
  | heap, array, node :: nodes => do
    let (ok, array, heap) ← array.append heap node
    let (appended, array, heap) ← appendAll heap array nodes
    return (if ok then node :: appended else appended, array, heap)

end NodeArray

-- ---------------------------------------------------------------------------
-- One append
-- ---------------------------------------------------------------------------

structure Represents (array : NodeArray) (ast : Ast) : Prop where
  nodesUsed_eq : array.nodesUsed = ast.nodesUsed
  capacity_eq : array.nodesCapacity = ast.nodesCapacity
  startsWith : array.nodes.StartsWith ast.nodes
  length : array.nodes.length = array.nodesCapacity
  size_le : array.nodesCapacity * astNodeSize ≤ sizeMax

section
variable {array : NodeArray} {ast : Ast} {heap : Heap} {node : AstNode}

theorem represents_init : Represents NodeArray.init Ast.init :=
  ⟨rfl, rfl, Block.startsWith_nil _, rfl, Nat.zero_le _⟩

theorem Represents.nodesUsed_le (h : Represents array ast) :
    array.nodesUsed ≤ array.nodesCapacity := by
  rw [h.nodesUsed_eq, ← h.length]
  exact h.startsWith.length_le

theorem NodeArray.CallsRealloc.newCapacity (h : array.CallsRealloc) :
    array.newCapacity = (if array.nodesCapacity = 0 then 64 else array.nodesCapacity * 2) ∧
      array.nodesCapacity < array.newCapacity ∧ array.newCapacity * astNodeSize ≤ sizeMax := by
  have hle := h.2
  unfold NodeArray.newCapacity
  rw [toSize_eq (by unfold sizeMax astNodeSize at *; omega)]
  refine ⟨rfl, ?_⟩
  unfold sizeMax astNodeSize at *
  split_ifs <;> omega

theorem Represents.store (h : Represents array ast) (hlt : array.nodesUsed < array.nodesCapacity) :
    ∃ array', array.store node = .ok array' ∧
      Represents array' { ast with nodes := ast.nodes ++ [node] } := by
  have hroom : ast.nodes.length < array.nodes.length := by
    rwa [h.length, ← Ast.nodesUsed, ← h.nodesUsed_eq]
  obtain ⟨nodes, hwrite, hstarts⟩ := h.startsWith.write hroom
  have hlen := (Block.length_write hwrite).trans h.length
  rw [NodeArray.store, h.nodesUsed_eq, Ast.nodesUsed, hwrite]
  refine ⟨_, rfl, ?_, h.capacity_eq, hstarts, hlen, h.size_le⟩
  rw [Ast.nodesUsed, List.length_append, List.length_singleton]
  refine toSize_eq ?_
  have hsize := h.size_le
  rw [← hlen] at hsize
  unfold astNodeSize at hsize
  have := hstarts.length_le
  rw [List.length_append, List.length_singleton] at this
  omega

theorem Represents.enlarge (h : Represents array ast) (hf : array.CallsRealloc) :
    Represents
      { array with
        nodes := array.nodes.resize (toSize (array.newCapacity * astNodeSize) / astNodeSize)
        nodesCapacity := array.newCapacity }
      { ast with
        nodesCapacity := if ast.nodesCapacity = 0 then 64 else ast.nodesCapacity * 2 } := by
  obtain ⟨heq, hlt, hle⟩ := hf.newCapacity
  have hsize : toSize (array.newCapacity * astNodeSize) / astNodeSize = array.newCapacity := by
    rw [toSize_eq hle, Nat.mul_div_cancel _ (by decide)]
  have hused := h.nodesUsed_le.trans hlt.le
  rw [h.nodesUsed_eq] at hused
  rw [hsize]
  exact ⟨h.nodesUsed_eq, h.capacity_eq ▸ heq, h.startsWith.resize hused, Block.length_resize _ _,
    hle⟩

/-- There is room for a node, or `realloc` makes some. -/
def NodeArray.HasRoom (heap : Heap) (array : NodeArray) : Prop :=
  array.nodesUsed < array.nodesCapacity ∨ array.CallsRealloc ∧ heap.realloc.1 = true

/-- The storage does what is said of the stored nodes: where there is no room, an
append is refused and changes nothing, and else it adds the node at the end. -/
theorem Represents.append (h : Represents array ast) (heap : Heap) (node : AstNode) :
    (∃ heap', ¬ array.HasRoom heap ∧ array.append heap node = .ok (false, array, heap') ∧
      astAppendNode heap ast node = (false, ast, heap')) ∨
    ∃ array' capacity heap', array.HasRoom heap ∧
      array.append heap node = .ok (true, array', heap') ∧
      astAppendNode heap ast node = (true, ⟨ast.nodes ++ [node], capacity⟩, heap') ∧
      Represents array' ⟨ast.nodes ++ [node], capacity⟩ := by
  unfold NodeArray.append astAppendNode
  rw [← h.nodesUsed_eq, ← h.capacity_eq]
  by_cases hused : array.nodesUsed = array.nodesCapacity
  · have hfull : ¬ array.nodesUsed < array.nodesCapacity := hused.not_lt
    rw [if_pos hused, if_pos hused]
    by_cases hcap : array.nodesCapacity > sizeMax / 2 / astNodeSize
    · rw [if_pos hcap, if_pos hcap]
      refine .inl ⟨heap, ?_, rfl, rfl⟩
      rintro (hlt | ⟨hf, -⟩)
      · exact hfull hlt
      · exact Nat.not_lt.mpr hf.2 hcap
    · rw [if_neg hcap, if_neg hcap]
      have hf : array.CallsRealloc := ⟨hused, Nat.le_of_not_lt hcap⟩
      unfold NodeArray.HasRoom
      rcases heap.realloc with ⟨_ | _, heap'⟩
      · exact .inl ⟨heap', by simp [hfull], rfl, rfl⟩
      · obtain ⟨array', hstore, hrep⟩ :=
          @Represents.store _ _ node (h.enlarge hf) (hused ▸ hf.newCapacity.2.1)
        rw [← h.capacity_eq] at hrep
        exact .inr ⟨array', _, heap', .inr ⟨hf, rfl⟩, by simp [hstore], rfl, hrep⟩
  · rw [if_neg hused, if_neg hused]
    have hlt := lt_of_le_of_ne h.nodesUsed_le hused
    obtain ⟨array', hstore, hrep⟩ := @Represents.store _ _ node h hlt
    rw [h.capacity_eq]
    exact .inr ⟨array', _, heap, .inl hlt, by simp [hstore], rfl, hrep⟩

end

-- ---------------------------------------------------------------------------
-- Sequences of appends
-- ---------------------------------------------------------------------------

theorem Represents.appendAll {array : NodeArray} {ast : Ast} (h : Represents array ast)
    (heap : Heap) (nodes : List AstNode) :
    ∃ appended array' capacity heap',
      array.appendAll heap nodes = .ok (appended, array', heap') ∧
      Represents array' ⟨ast.nodes ++ appended, capacity⟩ := by
  induction nodes generalizing heap array ast with
  | nil =>
    refine ⟨[], array, ast.nodesCapacity, heap, rfl, ?_⟩
    rwa [List.append_nil]
  | cons node nodes ih =>
    rcases h.append heap node with ⟨heap₁, -, happ, -⟩ | ⟨array₁, _, heap₁, -, happ, -, h₁⟩
    · obtain ⟨appended, array', capacity, heap', hall, h'⟩ := ih h heap₁
      refine ⟨appended, array', capacity, heap', ?_, h'⟩
      simp [NodeArray.appendAll, happ, hall]
    · obtain ⟨appended, array', capacity, heap', hall, h'⟩ := ih h₁ heap₁
      refine ⟨node :: appended, array', capacity, heap', ?_, ?_⟩
      · simp [NodeArray.appendAll, happ, hall]
      · rwa [List.append_assoc] at h'

/-- After any sequence of appends, whatever `realloc` does, the first slots are the
nodes whose append succeeded. The next append asks for no size that wraps around and
writes inside the block. It succeeds if there is room, or if the array is not too
large and `realloc` succeeds, and else changes nothing. -/
theorem appendAll_faithful (heap : Heap) (nodes : List AstNode) :
    ∃ appended array heap', NodeArray.init.appendAll heap nodes = .ok (appended, array, heap') ∧
      array.nodesUsed ≤ array.nodesCapacity ∧
      array.nodesUsed = appended.length ∧ array.nodes.take array.nodesUsed = appended.map some ∧
      (array.CallsRealloc → array.newCapacity =
          (if array.nodesCapacity = 0 then 64 else array.nodesCapacity * 2) ∧
        array.newCapacity * astNodeSize ≤ sizeMax) ∧
      ∀ node, ∃ ok array' heap'', array.append heap' node = .ok (ok, array', heap'') ∧
        (ok = true ↔ array.nodesUsed < array.nodesCapacity ∨
          array.nodesUsed = array.nodesCapacity ∧
            array.nodesCapacity ≤ sizeMax / 2 / astNodeSize ∧ heap'.realloc.1 = true) ∧
        (ok = false → array' = array) := by
  obtain ⟨appended, array, capacity, heap', hall, h⟩ := represents_init.appendAll heap nodes
  refine ⟨appended, array, heap', hall, h.nodesUsed_le, h.nodesUsed_eq, ?_, ?_, fun node => ?_⟩
  · rw [h.nodesUsed_eq]
    exact h.startsWith
  · rintro hf
    exact ⟨hf.newCapacity.1, hf.newCapacity.2.2⟩
  · rw [← and_assoc]
    rcases h.append heap' node with ⟨heap'', hroom, happ, -⟩ | ⟨array', _, heap'', hroom, happ, -⟩
    · exact ⟨false, array, heap'', happ, iff_of_false Bool.false_ne_true hroom, fun _ => rfl⟩
    · exact ⟨true, array', heap'', happ, iff_of_true rfl hroom, fun hok => by cases hok⟩

end ParserExample
