import ParserExample.Library.Postfix
import ParserExample.Library.Store
import ParserExample.Runtime

/-!
# The syntax tree and its interpreter

The nodes of a tree live in one growable array and refer to each other by
index. `Expr` is the expression such an array stands for; `nodeEval` walks the
array, and `nodeEval_eq` says that it computes the value of the expression.
-/

namespace ParserExample

open Library

-- ---------------------------------------------------------------------------
-- Nodes
-- ---------------------------------------------------------------------------

/-- `NODE_ADD`, `NODE_SUB`, `NODE_MUL` and `NODE_DIV`. -/
inductive BinaryType
  | add | sub | mul | div
  deriving DecidableEq, Repr

/-- `NODE_INT` and `NODE_VAR`, with the union member each carries. -/
inductive Leaf
  | int (value : Long)
  | var (argIndex : Nat)
  deriving DecidableEq, Repr

/-- A node's type and union. `NODE_INV` is the only unary operator. -/
abbrev NodeData := Shape Nat BinaryType Unit Leaf

structure AstNode where
  startIndex : Nat
  endIndex : Nat
  data : NodeData
  deriving DecidableEq, Repr

/-- `nodes` are the first `nodes_used` slots of an array of `nodesCapacity`. -/
structure Ast where
  nodes : List AstNode
  nodesCapacity : Nat
  deriving DecidableEq, Repr

abbrev Expr := Term BinaryType Unit Leaf

@[match_pattern] abbrev Expr.int (value : Long) : Expr := .leaf (.int value)
@[match_pattern] abbrev Expr.var (argIndex : Nat) : Expr := .leaf (.var argIndex)
@[match_pattern] abbrev Expr.inv (e : Expr) : Expr := .un () e

/-- An expression with the slot of each of its nodes. -/
abbrev SlotTree := Tree Nat BinaryType Unit Leaf

namespace Ast

/-- `AST_INIT`. -/
def init : Ast := ⟨[], 0⟩

def nodesUsed (ast : Ast) : Nat := ast.nodes.length

/-- `AST_ROOT_NODE_INDEX`; on the empty tree the subtraction wraps around. -/
def rootNodeIndex (ast : Ast) : Nat :=
  if ast.nodesUsed = 0 then sizeMax else ast.nodesUsed - 1

def view (ast : Ast) : View Nat BinaryType Unit Leaf := fun i => ast.nodes[i]?.map AstNode.data

end Ast

/-- `sizeof(struct AstNode)`. -/
def astNodeSize : Nat := 40

/-- Whether the append succeeded, and the tree and heap after it. -/
def astAppendNode (heap : Heap) (ast : Ast) (node : AstNode) : Bool × Ast × Heap :=
  if ast.nodesUsed = ast.nodesCapacity then
    if ast.nodesCapacity > sizeMax / 2 / astNodeSize then
      (false, ast, heap)
    else
      let newCapacity := if ast.nodesCapacity = 0 then 64 else ast.nodesCapacity * 2
      match heap.realloc with
      | (false, heap) => (false, ast, heap)
      | (true, heap) => (true, ⟨ast.nodes ++ [node], newCapacity⟩, heap)
  else
    (true, { ast with nodes := ast.nodes ++ [node] }, heap)

theorem astAppendNode_cases (heap : Heap) (ast : Ast) (node : AstNode) :
    (∃ heap', astAppendNode heap ast node = (false, ast, heap')) ∨
    ∃ capacity heap',
      astAppendNode heap ast node = (true, ⟨ast.nodes ++ [node], capacity⟩, heap') ∧
      astAppendNode Heap.unlimited ast node =
        (true, ⟨ast.nodes ++ [node], capacity⟩, Heap.unlimited) := by
  unfold astAppendNode
  split
  · split
    · exact .inl ⟨_, rfl⟩
    · rcases heap.realloc with ⟨_ | _, heap'⟩
      · exact .inl ⟨_, rfl⟩
      · exact .inr ⟨_, _, rfl, rfl⟩
  · exact .inr ⟨_, _, rfl, rfl⟩

-- ---------------------------------------------------------------------------
-- Evaluation
-- ---------------------------------------------------------------------------

def BinaryType.apply : BinaryType → Long → Long → Except Fault Long
  | .add, l, r => .ok (l + r)
  | .sub, l, r => .ok (l - r)
  | .mul, l, r => .ok (l * r)
  | .div, l, r => longDiv l r

@[simp] theorem BinaryType.apply_add (l r : Long) : BinaryType.add.apply l r = .ok (l + r) := rfl
@[simp] theorem BinaryType.apply_sub (l r : Long) : BinaryType.sub.apply l r = .ok (l - r) := rfl
@[simp] theorem BinaryType.apply_mul (l r : Long) : BinaryType.mul.apply l r = .ok (l * r) := rfl
@[simp] theorem BinaryType.apply_div (l r : Long) : BinaryType.div.apply l r = longDiv l r := rfl

/-- `args[arg_index]`. -/
def readArg (args : List Long) (argIndex : Nat) : Except Fault Long :=
  match args[argIndex]? with
  | some value => .ok value
  | none => .error .bounds

def meaning (args : List Long) : Meaning Fault Long BinaryType Unit Leaf where
  leaf
    | .int value => .ok value
    | .var argIndex => readArg args argIndex
  un := fun _ value => .ok (-value)
  bin := BinaryType.apply

section
variable {args : List Long} {value left right : Long} {argIndex : Nat} {type : BinaryType}

@[simp] theorem meaning_int : (meaning args).leaf (.int value) = .ok value := rfl
@[simp] theorem meaning_var : (meaning args).leaf (.var argIndex) = readArg args argIndex := rfl
@[simp] theorem meaning_un {f : Unit} : (meaning args).un f value = .ok (-value) := rfl
@[simp] theorem meaning_bin : (meaning args).bin type left right = type.apply left right := rfl

theorem BinaryType.apply_cases (type : BinaryType) (left right : Long) :
    (∃ value, type.apply left right = .ok value) ∨ type.apply left right = .error .division := by
  cases type with
  | div =>
    simp only [apply, longDiv]
    split
    · exact .inr rfl
    · exact .inl ⟨_, rfl⟩
  | _ => exact .inl ⟨_, rfl⟩

end

/-- The first argument bounds the depth of the recursion. -/
def nodeEval (ast : Ast) (args : List Long) : Nat → Nat → Except Fault Long
  | 0, _ => .error .fuel
  | fuel + 1, nodeIndex =>
    match ast.nodes[nodeIndex]? with
    | none => .error .assertion
    | some node =>
      match node.data with
      | .bin type leftIndex rightIndex => do
        let left ← nodeEval ast args fuel leftIndex
        let right ← nodeEval ast args fuel rightIndex
        type.apply left right
      | .un () childIndex => do
        let value ← nodeEval ast args fuel childIndex
        return -value
      | .leaf (.int value) => return value
      | .leaf (.var argIndex) => readArg args argIndex

/-- A tree without cycles is no deeper than it has nodes. -/
def astEval (ast : Ast) (args : List Long) : Except Fault Long :=
  if ast.nodesUsed = 0 then .ok 0
  else nodeEval ast args ast.nodesUsed ast.rootNodeIndex

theorem Ast.exists_node {ast : Ast} {t : SlotTree} (h : Holds ast.view t) :
    ∃ node, ast.nodes[t.slot]? = some node ∧ node.data = t.shape := by
  simpa [Ast.view] using h.root

theorem nodeEval_eq {ast : Ast} {args : List Long} {t : SlotTree} {fuel : Nat}
    (h : Holds ast.view t) (hf : t.erase.depth ≤ fuel) :
    nodeEval ast args fuel t.slot = t.erase.eval (meaning args) := by
  induction t generalizing fuel with
  | leaf s a =>
    obtain ⟨node, hn, hd⟩ := Ast.exists_node h
    obtain ⟨fuel, rfl⟩ := Term.exists_succ hf
    cases a <;> simp_all [nodeEval, Term.eval, meaning]
  | un s f c ih =>
    obtain ⟨node, hn, hd⟩ := Ast.exists_node h
    obtain ⟨fuel, rfl⟩ := Term.exists_succ hf
    have hc := ih h.2 (by simpa using hf)
    simp only [Tree.slot_un] at hn
    simp only [nodeEval, Tree.slot_un, hn, hd, Tree.shape_un, Tree.erase, Term.eval, hc]
    rfl
  | bin s g l r ihl ihr =>
    obtain ⟨node, hn, hd⟩ := Ast.exists_node h
    obtain ⟨fuel, rfl⟩ := Term.exists_succ hf
    simp only [Tree.erase, Term.depth, Nat.add_le_add_iff_right, max_le_iff] at hf
    have hl := ihl h.2.1 hf.1
    have hr := ihr h.2.2 hf.2
    simp only [Tree.slot_bin] at hn
    simp only [nodeEval, Tree.slot_bin, hn, hd, Tree.shape_bin, Tree.erase, Term.eval, hl, hr]
    rfl

theorem eval_cases {args : List Long} {t : Expr} (hv : ∀ a, .var a ∈ t.leaves → a < args.length) :
    (∃ value, t.eval (meaning args) = .ok value) ∨ t.eval (meaning args) = .error .division := by
  induction t with
  | leaf a =>
    cases a with
    | int value => exact .inl ⟨value, rfl⟩
    | var argIndex =>
      have hlt := hv argIndex (by simp)
      exact .inl ⟨args[argIndex], by simp [Term.eval, readArg, hlt]⟩
  | un f t ih =>
    rcases ih hv with ⟨value, ht⟩ | ht
    · exact .inl ⟨-value, by simp [Term.eval, ht]⟩
    · exact .inr (by simp [Term.eval, ht])
  | bin g l r ihl ihr =>
    rcases ihl fun a ha => hv a (by simp [ha]) with ⟨left, hl⟩ | hl
    · rcases ihr fun a ha => hv a (by simp [ha]) with ⟨right, hr⟩ | hr
      · simpa [Term.eval, hl, hr] using g.apply_cases left right
      · exact .inr (by simp [Term.eval, hl, hr])
    · exact .inr (by simp [Term.eval, hl])

-- ---------------------------------------------------------------------------
-- Well-formed trees
-- ---------------------------------------------------------------------------

/-- The links of the nodes reachable from the root are in range and lead to no
cycle. The root is a slot, as `node_eval` and `node_compile` assert, and the
argument indices are of type `size_t`. -/
structure Ast.WellFormed (ast : Ast) : Prop where
  nonempty : 0 < ast.nodesUsed
  in_range : ∀ i j, ast.view.Reaches ast.rootNodeIndex i → ast.view.Child i j → j < ast.nodesUsed
  acyclic : ∀ i, ast.view.Reaches ast.rootNodeIndex i → ¬ Relation.TransGen ast.view.Child i i
  argIndex : ∀ i a, ast.view.Reaches ast.rootNodeIndex i → ast.view i = some (.leaf (.var a)) →
    a ≤ sizeMax

def Ast.VarsBelow (ast : Ast) (argc : Nat) : Prop :=
  ∀ i a, ast.view.Reaches ast.rootNodeIndex i → ast.view i = some (.leaf (.var a)) → a < argc

namespace Ast

variable {ast : Ast}

theorem view_isSome {i : Nat} : (ast.view i).isSome ↔ i < ast.nodesUsed := by
  simp [view, nodesUsed]

theorem rootNodeIndex_lt (h : 0 < ast.nodesUsed) : ast.rootNodeIndex < ast.nodesUsed := by
  unfold rootNodeIndex
  split <;> omega

theorem WellFormed.reaches_lt (h : ast.WellFormed) {i : Nat}
    (hr : ast.view.Reaches ast.rootNodeIndex i) : i < ast.nodesUsed := by
  cases hr with
  | refl => exact rootNodeIndex_lt h.nonempty
  | tail hr hc => exact h.in_range _ _ hr hc

theorem WellFormed.exists_holds (h : ast.WellFormed) :
    ∃ t, Holds ast.view t ∧ t.slot = ast.rootNodeIndex ∧ t.erase.depth ≤ ast.nodesUsed := by
  have hu : ast.view.Unfolds ast.rootNodeIndex :=
    ⟨fun j hj => view_isSome.mpr (h.reaches_lt hj), h.acyclic⟩
  obtain ⟨t, ht, hs, hd⟩ := hu.exists_holds (Finset.range ast.nodesUsed)
    fun j hj => Finset.mem_range.mpr (h.reaches_lt hj)
  exact ⟨t, ht, hs, by simpa using hd⟩

theorem wellFormed_of_holds {t : SlotTree} (h : Holds ast.view t) (hs : t.slot = ast.rootNodeIndex)
    (ha : ∀ a, .var a ∈ t.erase.leaves → a ≤ sizeMax) :
    ast.WellFormed := by
  have hu := h.unfolds
  rw [hs] at hu
  constructor
  · have hlt := view_isSome.mp (hu.node _ .refl)
    omega
  · intro i j hi hc
    exact view_isSome.mp (hu.node j (hi.tail hc))
  · exact hu.acyclic
  · intro i a hi hv
    exact ha a (h.mem_leaves_iff.mpr ⟨i, hs ▸ hi, hv⟩)

theorem varsBelow_iff {t : SlotTree} {argc : Nat} (h : Holds ast.view t)
    (hs : t.slot = ast.rootNodeIndex) :
    ast.VarsBelow argc ↔ ∀ a, .var a ∈ t.erase.leaves → a < argc := by
  simp only [VarsBelow, h.mem_leaves_iff, hs]
  exact ⟨fun hv a ⟨i, hi, ha⟩ => hv i a hi ha, fun hv i a hi ha => hv a ⟨i, hi, ha⟩⟩

theorem astEval_eq {t : SlotTree} {args : List Long} (h : Holds ast.view t)
    (hs : t.slot = ast.rootNodeIndex) (hd : t.erase.depth ≤ ast.nodesUsed) :
    astEval ast args = t.erase.eval (meaning args) := by
  have hpos : 0 < ast.nodesUsed := by
    exact t.erase.depth_pos.trans_le hd
  rw [astEval, if_neg (by omega), ← hs, nodeEval_eq h hd]

end Ast

end ParserExample
