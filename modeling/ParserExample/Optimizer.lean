import ParserExample.Ast

/-!
# The optimizer

`node_optimize` rewrites one node in a loop, in place: it overwrites the node
and recycles the slot of one of its children. `iteration` is one pass through
the body of that loop. A pass reads the node and its children before it writes;
in a tree they sit in different slots, so that a write cannot change what is
read after it.
-/

namespace ParserExample

open Library

-- ---------------------------------------------------------------------------
-- Nodes as the optimizer reads and writes them
-- ---------------------------------------------------------------------------

namespace AstNode

variable (node : AstNode)

def isInt : Bool :=
  match node.data with
  | .leaf (.int _) => true
  | _ => false

def isVar : Bool :=
  match node.data with
  | .leaf (.var _) => true
  | _ => false

def type? : Option BinaryType :=
  match node.data with
  | .bin type _ _ => some type
  | _ => none

def isAdd : Bool := node.type? == some .add

def isSum : Bool := node.type? == some .add || node.type? == some .sub

def isMul : Bool := node.type? == some .mul

/-- `value` of the union; only read of a `NODE_INT`. -/
def value : Long :=
  match node.data with
  | .leaf (.int value) => value
  | _ => 0

/-- `arg_index` of the union; only read of a `NODE_VAR`. -/
def argIndex : Nat :=
  match node.data with
  | .leaf (.var argIndex) => argIndex
  | _ => 0

/-- `binary.left_index` of the union; only read of a binary node. -/
def leftIndex : Nat :=
  match node.data with
  | .bin _ leftIndex _ => leftIndex
  | _ => 0

/-- `binary.right_index` of the union; only read of a binary node. -/
def rightIndex : Nat :=
  match node.data with
  | .bin _ _ rightIndex => rightIndex
  | _ => 0

def withData (data : NodeData) : AstNode := { node with data }

end AstNode

namespace Ast

def read (ast : Ast) (nodeIndex : Nat) : Except Fault AstNode :=
  match ast.nodes[nodeIndex]? with
  | some node => .ok node
  | none => .error .bounds

def assign (ast : Ast) (nodeIndex : Nat) (node : AstNode) : Ast :=
  { ast with nodes := ast.nodes.set nodeIndex node }

def isInt (ast : Ast) (nodeIndex : Nat) : Except Fault Bool :=
  AstNode.isInt <$> ast.read nodeIndex

def value (ast : Ast) (nodeIndex : Nat) : Except Fault Long :=
  AstNode.value <$> ast.read nodeIndex

end Ast

/-- C's `&&`, whose right operand may read out of bounds. -/
def both (left : Bool) (right : Except Fault Bool) : Except Fault Bool :=
  if left then right else .ok false

def either (left right : Except Fault Bool) : Except Fault Bool := do
  if ← left then return true else right

def Ast.hasIntOperand (ast : Ast) (node : AstNode) : Except Fault Bool :=
  either (ast.isInt node.leftIndex) (ast.isInt node.rightIndex)

def addOrSub (plus : Bool) (x y : Long) : Long := if plus then x + y else x - y

def sumType (plus : Bool) : BinaryType := if plus then .add else .sub

-- ---------------------------------------------------------------------------
-- Rewrites of binary nodes
-- ---------------------------------------------------------------------------

/-- How a pass through the body of the loop ends. -/
inductive Iteration
  /-- No rewrite applies, and the loop returns. -/
  | stop
  /-- A rewrite after which the loop returns. -/
  | done (ast : Ast)
  /-- A rewrite after which the loop continues. -/
  | again (ast : Ast)
  /-- A rewrite after which the loop optimizes the node's left operand, at this
  index, and continues. -/
  | nested (ast : Ast) (leftIndex : Nat)
  deriving DecidableEq, Repr

/-- A binary node as a pass finds it: its slot, its fields and its operands. -/
structure Site where
  ast : Ast
  nodeIndex : Nat
  node : AstNode
  type : BinaryType
  leftIndex : Nat
  rightIndex : Nat
  left : AstNode
  right : AstNode

namespace Site

variable (site : Site)

def plus : Bool := site.type == .add

def times : Bool := site.type == .mul

def int (value : Long) : AstNode := site.node.withData (.leaf (.int value))

def bin (type : BinaryType) (leftIndex rightIndex : Nat) : AstNode :=
  site.node.withData (.bin type leftIndex rightIndex)

def done (node : AstNode) : Iteration := .done (site.ast.assign site.nodeIndex node)

def assignLeft (node left : AstNode) : Ast :=
  (site.ast.assign site.nodeIndex node).assign site.leftIndex left

def assignRight (node right : AstNode) : Ast :=
  (site.ast.assign site.nodeIndex node).assign site.rightIndex right

-- ---------------------------------------------------------------------------
-- Addition and subtraction
-- ---------------------------------------------------------------------------

/-- The left operand and an operand of the right one are constants. -/
def sumLeft : Except Fault Iteration := do
  if ← site.ast.isInt site.right.leftIndex then
    -- 1 ± (2 ± X) -> (1 ± 2) ± X
    let value ← site.ast.value site.right.leftIndex
    return .again (site.assignLeft
      (site.bin (sumType (site.right.type? == some site.type)) site.leftIndex site.right.rightIndex)
      (site.int (addOrSub site.plus site.left.value value)))
  else
    -- 1 ± (X ± 2) -> (1 ± 2) ± X
    let value ← site.ast.value site.right.rightIndex
    return .again (site.assignLeft
      (site.bin site.type site.leftIndex site.right.leftIndex)
      (site.int (addOrSub (site.right.type? == some site.type) site.left.value value)))

/-- The right operand and an operand of the left one are constants. -/
def sumRight : Except Fault Iteration := do
  if ← site.ast.isInt site.left.rightIndex then
    -- (X + 1) + 2 -> X + (1 + 2)
    -- (X + 1) - 2 -> X + (1 - 2)
    -- (X - 1) + 2 -> X + (2 - 1)
    -- (X - 1) - 2 -> X + (-1 - 2)
    let value ← site.ast.value site.left.rightIndex
    let value := if site.left.type? == some .sub then -value else value
    return .again (site.assignRight
      (site.bin .add site.left.leftIndex site.rightIndex)
      (site.int (addOrSub site.plus value site.right.value)))
  else
    -- (1 ± X) ± 2 -> (1 ± 2) ± X
    let value ← site.ast.value site.left.leftIndex
    return .again (site.assignRight
      (site.bin (sumType site.left.isAdd) site.rightIndex site.left.rightIndex)
      (site.int (addOrSub site.plus value site.right.value)))

/-- The right operand is a sum. -/
def sumRotate : Iteration :=
  -- X + (C ± D) -> (X + C) ± D
  -- X - (C ± D) -> (X - C) ∓ D
  .nested (site.assignRight
    (site.bin (sumType (if site.plus then site.right.isAdd else !site.right.isAdd))
      site.rightIndex site.right.rightIndex)
    (site.bin site.type site.leftIndex site.right.leftIndex)) site.rightIndex

/-- An operand of the left operand is a constant. -/
def sumOut : Except Fault Iteration := do
  if ← site.ast.isInt site.left.leftIndex then
    -- (1 + X) ± Y -> (X ± Y) + 1
    return .nested (site.assignLeft
      (site.bin .add site.leftIndex site.left.leftIndex)
      (site.bin site.type site.left.rightIndex site.rightIndex)) site.leftIndex
  else
    -- (X ± 1) ± Y -> (X ± Y) ± 1
    return .nested (site.assignLeft
      (site.bin (sumType site.left.isAdd) site.leftIndex site.left.rightIndex)
      (site.bin site.type site.left.leftIndex site.rightIndex)) site.leftIndex

def iterationSum : Except Fault Iteration := do
  let left := site.left
  let right := site.right
  if left.isInt && right.isInt then
    return site.done (site.int (addOrSub site.plus left.value right.value))
  else if left.isInt && left.value == 0 then
    if site.plus then
      return site.done right
    else
      return .again (site.ast.assign site.nodeIndex (site.node.withData (.un () site.rightIndex)))
  else if right.isInt && right.value == 0 then
    return site.done left
  else if ← both (left.isInt && right.isSum) (site.ast.hasIntOperand right) then
    site.sumLeft
  else if ← both (right.isInt && left.isSum) (site.ast.hasIntOperand left) then
    site.sumRight
  else if right.isSum then
    return site.sumRotate
  else if ← both (!right.isInt && left.isSum)
      (either (both left.isAdd (site.ast.isInt left.leftIndex))
        (site.ast.isInt left.rightIndex)) then
    site.sumOut
  else if !site.plus && left.isVar && right.isVar && left.argIndex == right.argIndex then
    -- X - X -> 0
    return site.done (site.int 0)
  else
    return .stop

-- ---------------------------------------------------------------------------
-- Multiplication and division
-- ---------------------------------------------------------------------------

def mulLeft : Except Fault Iteration := do
  if ← site.ast.isInt site.right.leftIndex then
    -- 2 * (3 * X) -> (2 * 3) * X
    let value ← site.ast.value site.right.leftIndex
    return .again (site.assignLeft
      (site.bin .mul site.leftIndex site.right.rightIndex)
      (site.int (site.left.value * value)))
  else
    -- 2 * (X * 3) -> (2 * 3) * X
    let value ← site.ast.value site.right.rightIndex
    return .again (site.assignLeft
      (site.bin .mul site.leftIndex site.right.leftIndex)
      (site.int (site.left.value * value)))

def mulRight : Except Fault Iteration := do
  if ← site.ast.isInt site.left.rightIndex then
    -- (X * 2) * 3 -> X * (2 * 3)
    let value ← site.ast.value site.left.rightIndex
    return .again (site.assignRight
      (site.bin .mul site.left.leftIndex site.rightIndex)
      (site.int (value * site.right.value)))
  else
    -- (2 * X) * 3 -> X * (2 * 3)
    let value ← site.ast.value site.left.leftIndex
    return .again (site.assignRight
      (site.bin .mul site.left.rightIndex site.rightIndex)
      (site.int (value * site.right.value)))

def mulRotate : Iteration :=
  -- X * (C * D) -> (X * C) * D
  .nested (site.assignRight
    (site.bin .mul site.rightIndex site.right.rightIndex)
    (site.bin site.type site.leftIndex site.right.leftIndex)) site.rightIndex

def mulOut : Except Fault Iteration := do
  if ← site.ast.isInt site.left.leftIndex then
    -- (2 * X) * Y -> (X * Y) * 2
    return .nested (site.assignLeft
      (site.bin .mul site.leftIndex site.left.leftIndex)
      (site.bin .mul site.left.rightIndex site.rightIndex)) site.leftIndex
  else
    -- (X * 2) * Y -> (X * Y) * 2
    return .nested (site.assignLeft
      (site.bin .mul site.leftIndex site.left.rightIndex)
      (site.bin .mul site.left.leftIndex site.rightIndex)) site.leftIndex

def iterationProduct : Except Fault Iteration := do
  let left := site.left
  let right := site.right
  if site.times && left.isInt && right.isInt then
    return site.done (site.int (left.value * right.value))
  else if !site.times && left.isInt && right.isInt && right.value != 0 then
    let value ← longDiv left.value right.value
    return site.done (site.int value)
  else if left.isInt && left.value == 0 then
    return site.done (site.int 0)
  else if site.times && right.isInt && right.value == 0 then
    return site.done (site.int 0)
  else if site.times && right.isInt && right.value == 1 then
    return site.done left
  else if site.times && left.isInt && left.value == 1 then
    return site.done right
  else if !site.times && left.isVar && right.isVar && left.argIndex == right.argIndex then
    -- X / X -> 1
    return site.done (site.int 1)
  else if ← both (site.times && left.isInt && right.isMul) (site.ast.hasIntOperand right) then
    site.mulLeft
  else if ← both (site.times && right.isInt && left.isMul) (site.ast.hasIntOperand left) then
    site.mulRight
  else if site.times && right.isMul then
    return site.mulRotate
  else if ← both (site.times && !right.isInt && left.isMul) (site.ast.hasIntOperand left) then
    site.mulOut
  else
    return .stop

end Site

-- ---------------------------------------------------------------------------
-- One pass through the loop
-- ---------------------------------------------------------------------------

def iterationInv (ast : Ast) (nodeIndex : Nat) (node : AstNode) (childIndex : Nat) :
    Except Fault Iteration := do
  let child ← ast.read childIndex
  match child.data with
  | .leaf (.int value) =>
    return .done (ast.assign nodeIndex (node.withData (.leaf (.int (-value)))))
  | .un () _ => return .done (ast.assign nodeIndex child)
  | _ => return .stop

def iteration (ast : Ast) (nodeIndex : Nat) : Except Fault Iteration := do
  let node ← ast.read nodeIndex
  match node.data with
  | .bin type leftIndex rightIndex => do
    let left ← ast.read leftIndex
    let right ← ast.read rightIndex
    let site := { ast, nodeIndex, node, type, leftIndex, rightIndex, left, right : Site }
    match type with
    | .add | .sub => site.iterationSum
    | .mul | .div => site.iterationProduct
  | .un () childIndex => iterationInv ast nodeIndex node childIndex
  | .leaf _ => return .stop

-- ---------------------------------------------------------------------------
-- The loop and the recursion
-- ---------------------------------------------------------------------------

/-- The first argument bounds the number of passes. -/
def nodeOptimize : Nat → Ast → Nat → Except Fault Ast
  | 0, _, _ => .error .fuel
  | fuel + 1, ast, nodeIndex => do
    match ← iteration ast nodeIndex with
    | .stop => return ast
    | .done ast => return ast
    | .again ast => nodeOptimize fuel ast nodeIndex
    | .nested ast leftIndex => do
      let ast ← nodeOptimize fuel ast leftIndex
      nodeOptimize fuel ast nodeIndex

/-- Enough passes for every tree in an array of `nodesUsed` slots. -/
def passes (nodesUsed : Nat) : Nat := nodesUsed * nodesUsed + nodesUsed + 1

/-- The first argument bounds the depth of the recursion. -/
def nodeOptimizeRecursive : Nat → Ast → Nat → Except Fault Ast
  | 0, _, _ => .error .fuel
  | fuel + 1, ast, nodeIndex => do
    let node ← ast.read nodeIndex
    match node.data with
    | .bin _ _ _ => do
      let ast ← nodeOptimizeRecursive fuel ast node.leftIndex
      -- the node is read again after the left operand has been optimized
      let node ← ast.read nodeIndex
      let ast ← nodeOptimizeRecursive fuel ast node.rightIndex
      nodeOptimize (passes ast.nodesUsed) ast nodeIndex
    | .un () childIndex => do
      let ast ← nodeOptimizeRecursive fuel ast childIndex
      nodeOptimize (passes ast.nodesUsed) ast nodeIndex
    | .leaf _ => nodeOptimize (passes ast.nodesUsed) ast nodeIndex

def optimize (ast : Ast) : Except Fault Ast :=
  nodeOptimizeRecursive (ast.nodesUsed + 1) ast ast.rootNodeIndex

end ParserExample
