import ParserExample.Library.Numbering
import ParserExample.Reader

/-!
# Nodes in post-order

`layout base t` are the nodes of `t` as the parser appends them to an array of
`base` nodes. While a tree is built its root is still outside the array:
`Built front t nodes node` says that `nodes` are `front` and the nodes below
the root of `t`, and that `node` is the root.
-/

namespace ParserExample

open Library

def rootNode (base : Nat) : RangedExpr → AstNode
  | .leaf s a => ⟨s.1, s.2, .leaf a⟩
  | .un s f t => ⟨s.1, s.2, .un f (base + t.size - 1)⟩
  | .bin s g l r => ⟨s.1, s.2, .bin g (base + l.size - 1) (base + l.size + r.size - 1)⟩

def layout : Nat → RangedExpr → List AstNode
  | base, .leaf s a => [rootNode base (.leaf s a)]
  | base, .un s f t => layout base t ++ [rootNode base (.un s f t)]
  | base, .bin s g l r =>
    layout base l ++ layout (base + l.size) r ++ [rootNode base (.bin s g l r)]

def lowerLayout (base : Nat) : RangedExpr → List AstNode
  | .leaf _ _ => []
  | .un _ _ t => layout base t
  | .bin _ _ l r => layout base l ++ layout (base + l.size) r

theorem layout_eq (base : Nat) (t : RangedExpr) :
    layout base t = lowerLayout base t ++ [rootNode base t] := by
  cases t <;> rfl

@[simp] theorem length_layout (base : Nat) (t : RangedExpr) : (layout base t).length = t.size := by
  induction t generalizing base with
  | leaf s a => rfl
  | un s f t ih => simp [layout, ih]
  | bin s g l r ihl ihr => simp [layout, ihl, ihr, Nat.add_assoc]

@[simp] theorem lowerLayout_setSlot (base : Nat) (s : Nat × Nat) (t : RangedExpr) :
    lowerLayout base (t.setSlot s) = lowerLayout base t := by
  cases t <;> rfl

@[simp] theorem rootNode_startIndex (base : Nat) (t : RangedExpr) :
    (rootNode base t).startIndex = t.slot.1 := by
  cases t <;> rfl

@[simp] theorem rootNode_endIndex (base : Nat) (t : RangedExpr) :
    (rootNode base t).endIndex = t.slot.2 := by
  cases t <;> rfl

theorem rootNode_data_int {base : Nat} {t : RangedExpr} {value : Long} :
    (rootNode base t).data = .leaf (.int value) ↔ t.erase = Expr.int value := by
  cases t <;> simp [rootNode, Tree.erase]

structure Built (front : List AstNode) (t : RangedExpr) (nodes : List AstNode) (node : AstNode) :
    Prop where
  nodes : nodes = front ++ lowerLayout front.length t
  node : node = rootNode front.length t

section
variable {front nodes nodes' : List AstNode} {node node' : AstNode} {t l r : RangedExpr}
  {s : Nat × Nat}

theorem built_leaf {a : Leaf} : Built nodes (.leaf s a) nodes ⟨s.1, s.2, .leaf a⟩ :=
  ⟨by simp [lowerLayout], rfl⟩

theorem Built.append (h : Built front t nodes node) :
    nodes ++ [node] = front ++ layout front.length t := by
  rw [h.nodes, h.node, layout_eq, List.append_assoc]

theorem Built.setStart (h : Built front t nodes node) (startIndex : Nat) :
    Built front (t.setSlot (startIndex, t.slot.2)) nodes { node with startIndex } := by
  refine ⟨by simpa using h.nodes, ?_⟩
  rw [h.node]
  cases t <;> rfl

theorem Built.un {f : Unit} (h : Built front t nodes node) :
    Built front (.un s f t) (nodes ++ [node]) ⟨s.1, s.2, .un f (nodes.length + 1 - 1)⟩ := by
  have hlen := congrArg List.length h.append
  simp only [List.length_append, List.length_singleton, length_layout] at hlen
  exact ⟨h.append, by rw [hlen]; rfl⟩

theorem Built.bin {g : BinaryType} (hl : Built front l nodes node)
    (hr : Built (nodes ++ [node]) r nodes' node') :
    Built front (.bin s g l r) (nodes' ++ [node'])
      ⟨s.1, s.2, .bin g (nodes.length + 1 - 1) (nodes'.length + 1 - 1)⟩ := by
  have hlen := congrArg List.length hl.append
  have hlen' := congrArg List.length hr.append
  have happ := hr.append
  rw [hl.append] at happ
  simp only [List.length_append, List.length_singleton, length_layout] at hlen hlen'
  refine ⟨?_, ?_⟩
  · rw [happ, List.append_assoc, List.length_append, length_layout]
    rfl
  · rw [hlen', hlen]
    rfl

end

theorem view_of_nodes {ast : Ast} {front back : List AstNode} {node : AstNode}
    (h : ast.nodes = front ++ node :: back) : ast.view front.length = some node.data := by
  simp [Ast.view, h]

/-- The nodes laid out are the tree with its nodes numbered in post-order. -/
theorem holds_layout {ast : Ast} {t : RangedExpr} {front back : List AstNode}
    (h : ast.nodes = front ++ (layout front.length t ++ back)) :
    Holds ast.view (t.erase.number front.length) := by
  induction t generalizing front back with
  | leaf s a => exact view_of_nodes h
  | un s f t ih =>
    rw [layout, List.append_assoc] at h
    refine ⟨?_, ih h⟩
    have hroot := @view_of_nodes ast (front ++ layout front.length t) back
      (rootNode front.length (.un s f t)) (by rw [h]; simp)
    have hslot := Term.slot_number front.length t.erase
    simp only [List.length_append, length_layout, rootNode, Tree.size_erase] at hroot hslot ⊢
    rw [hroot]
    congr
    omega
  | bin s g l r ihl ihr =>
    rw [layout, List.append_assoc, List.append_assoc] at h
    have hlen : (front ++ layout front.length l).length = front.length + l.size := by simp
    refine ⟨?_, ihl h, ?_⟩
    · have hroot := @view_of_nodes ast
        (front ++ layout front.length l ++ layout (front.length + l.size) r) back
        (rootNode front.length (.bin s g l r)) (by rw [h]; simp)
      have hl := Term.slot_number front.length l.erase
      have hr := Term.slot_number (front.length + l.size) r.erase
      simp only [List.length_append, length_layout, rootNode, Tree.size_erase] at hroot hl hr ⊢
      rw [hroot]
      congr <;> omega
    · have := @ihr (front ++ layout front.length l) ([rootNode front.length (.bin s g l r)] ++ back)
        (by rw [hlen, h]; simp)
      rw [hlen] at this
      simpa using this

end ParserExample
