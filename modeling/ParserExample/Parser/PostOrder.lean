import ParserExample.Parser.Language

/-!
# The tree of a program

The array of a parsed program lists one tree in post-order, and the tree means
what the grammar says.
-/

namespace ParserExample

open Library

-- ---------------------------------------------------------------------------
-- Arrays in post-order
-- ---------------------------------------------------------------------------

structure Ast.ListsPostOrder (ast : Ast) (t : SlotTree) : Prop where
  holds : Holds ast.view t
  slots : t.slots = List.range ast.nodesUsed
  root : t.slot = ast.nodesUsed - 1
  un : ∀ i child, ast.view i = some (.un () child) → child + 1 = i
  bin : ∀ i type left right, ast.view i = some (.bin type left right) →
    right + 1 = i ∧ ∃ u ∈ t.subtrees, u.slot = right ∧ left + u.size + 1 = i
  once : ∀ j, j < ast.nodesUsed → j ≠ ast.nodesUsed - 1 → ∃ i shape, ast.view i = some shape ∧
    shape.children.count j = 1 ∧ ∀ i', ast.view.Child i' j → i' = i
  below : ∀ i j, ast.view.Child i j → j < i

theorem Ast.listsPostOrder_number {ast : Ast} {e : Expr} (h : Holds ast.view (e.number 0))
    (hlen : ast.nodesUsed = e.size) : ast.ListsPostOrder (e.number 0) := by
  have hslots : (e.number 0).slots = List.range ast.nodesUsed := by
    rw [Term.slots_number, hlen, List.range_eq_range']
  have hroot : (e.number 0).slot = ast.nodesUsed - 1 := by
    have := Term.slot_number 0 e
    omega
  have hnode {i : Nat} {shape : NodeData} (hv : ast.view i = some shape) :
      ∃ u ∈ (e.number 0).subtrees, u.slot = i ∧ u.shape = shape := by
    refine h.exists_subtree ?_ hv
    rw [hslots, List.mem_range, ← Ast.view_isSome, hv]
    rfl
  constructor
  · exact h
  · exact hslots
  · exact hroot
  · intro i child hv
    obtain ⟨u, hu, rfl, hshape⟩ := hnode hv
    have hadj := Term.adjacent_number hu
    cases u <;> simp_all [Tree.Adjacent]
  · intro i type left right hv
    obtain ⟨u, hu, rfl, hshape⟩ := hnode hv
    have hadj := Term.adjacent_number hu
    cases u with
    | bin s g l r =>
      obtain ⟨rfl, rfl, rfl⟩ : g = type ∧ l.slot = left ∧ r.slot = right := by simpa using hshape
      exact ⟨hadj.1, r, Tree.subtrees_trans (by simp) hu, rfl, hadj.2⟩
    | _ => simp at hshape
  · intro j hj hne
    have hreach {k : Nat} (hk : k < ast.nodesUsed) : ast.view.Reaches (e.number 0).slot k :=
      h.reaches_iff.mpr (hslots ▸ List.mem_range.mpr hk)
    have htree := h.treeAt_iff_nodup.mpr (hslots ▸ List.nodup_range)
    obtain ⟨i, shape, -, hv, hcount, hone⟩ := htree.once j (hreach hj) (hroot ▸ hne)
    refine ⟨i, shape, hv, hcount, fun i' hc => hone i' (hreach ?_) hc⟩
    obtain ⟨shape', hv', -⟩ := hc
    exact Ast.view_isSome.mp (hv' ▸ rfl)
  · intro i j ⟨shape, hv, hj⟩
    obtain ⟨u, hu, rfl, rfl⟩ := hnode hv
    exact (Term.adjacent_number hu).child_lt hj

-- ---------------------------------------------------------------------------
-- What the parser never builds
-- ---------------------------------------------------------------------------

/-- Every variable is one of `argc` arguments, no literal is negated or so low
that it could not be, and no divisor is the literal 0. -/
def Folded (argc : Nat) : Expr → Prop
  | .leaf (.int value) => -(maxLiteral : Int) < value.toInt
  | .leaf (.var argIndex) => argIndex < argc
  | .un _ t => Folded argc t ∧ ∀ value, t ≠ Expr.int value
  | .bin type l r => Folded argc l ∧ Folded argc r ∧ (type = .div → r ≠ Expr.int 0)

theorem folded_negate {argc : Nat} {t : Expr} (h : Folded argc t)
    (hint : ∀ value, t = Expr.int value → value.toInt < maxLiteral) : Folded argc (negate t) := by
  unfold negate
  split
  · rename_i value
    have hlow : -(maxLiteral : Int) < value.toInt := h
    have hhigh := hint value rfl
    show -(maxLiteral : Int) < (-value).toInt
    unfold maxLiteral at *
    rw [Int64.toInt_neg, Int.bmod_eq_of_le (by omega) (by omega)]
    omega
  · rename_i hint'
    exact ⟨h, hint'⟩

theorem toInt_ofInt_of_representable {n : Int} (h : Representable n) :
    (Int64.ofInt n).toInt = n := by
  unfold Representable maxLiteral at h
  exact Int64.toInt_ofInt_of_le (by omega) (by omega)

theorem folded_expr {names : List Bytes} {nt : NonTerminal} {e : Derivation nt}
    (h : e.Valid names) : Folded names.length (e.expr names) := by
  induction e with
  | addSub op left right ihl ihr =>
    exact ⟨ihl h.1, ihr h.2, by cases op <;> nofun⟩
  | mulDiv op left right ihl ihr =>
    refine ⟨ihl h.1, ihr h.2.1, fun hop hr => ?_⟩
    have hdiv : op = .div := by cases op <;> simp_all
    refine h.2.2 hdiv ?_
    rw [literal_eq_iff h.2.1 ⟨by unfold maxLiteral; omega, by unfold maxLiteral; omega⟩, hr]
    rfl
  | signed signs e ih =>
    rw [Derivation.expr]
    split
    · rename_i hneg
      refine folded_negate (ih h.1) fun value hvalue => ?_
      obtain ⟨hsome, hnone⟩ := literal_expr h.1
      cases hl : e.literal with
      | none => exact absurd hvalue (hnone hl value)
      | some n =>
        obtain ⟨hrep, -, hexpr⟩ := hsome n hl
        obtain rfl : Int64.ofInt n = value := by simpa [hexpr] using hvalue
        have hmax : n ≠ maxLiteral := fun hn => h.2 hneg (hn ▸ hl)
        rw [toInt_ofInt_of_representable hrep]
        have := hrep.2
        omega
    · exact ih h.1
  | ident name => exact List.idxOf_lt_length_iff.mpr h
  | int digits =>
    have hle : decimal digits ≤ maxLiteral := h
    show -(maxLiteral : Int) < (Int64.ofNat (decimal digits)).toInt
    rw [Int64.toInt_ofNat_of_lt (by unfold maxLiteral at hle; omega)]
    unfold maxLiteral
    omega
  | ofMulDiv e ih => exact ih h
  | ofSigned e ih => exact ih h
  | paren e ih => exact ih h

theorem Folded.subtree {argc : Nat} {t u : SlotTree} (h : Folded argc t.erase)
    (hu : u ∈ t.subtrees) : Folded argc u.erase := by
  induction t with
  | leaf s a =>
    obtain rfl : u = .leaf s a := by simpa using hu
    exact h
  | un s f t ih =>
    simp only [Tree.subtrees, List.mem_append, List.mem_singleton] at hu
    rcases hu with hu | rfl
    · exact ih h.1 hu
    · exact h
  | bin s g l r ihl ihr =>
    simp only [Tree.subtrees, List.mem_append, List.mem_singleton] at hu
    rcases hu with (hu | hu) | rfl
    · exact ihl h.1 hu
    · exact ihr h.2.1 hu
    · exact h

/-- `Folded` of the nodes of an array. -/
structure Ast.NodesFolded (ast : Ast) (argc : Nat) : Prop where
  var : ∀ i argIndex, ast.view i = some (.leaf (.var argIndex)) → argIndex < argc
  inv : ∀ i child value, ast.view i = some (.un () child) →
    ast.view child ≠ some (.leaf (.int value))
  div : ∀ i left right, ast.view i = some (.bin .div left right) →
    ast.view right ≠ some (.leaf (.int 0))

theorem Ast.nodesFolded {ast : Ast} {argc : Nat} {t : SlotTree} (ht : ast.ListsPostOrder t)
    (h : Folded argc t.erase) : ast.NodesFolded argc := by
  have hnode {i : Nat} {shape : NodeData} (hv : ast.view i = some shape) :
      ∃ u ∈ t.subtrees, u.slot = i ∧ u.shape = shape ∧ Folded argc u.erase := by
    have hi : i ∈ t.slots := by
      rw [ht.slots, List.mem_range, ← Ast.view_isSome, hv]
      rfl
    obtain ⟨u, hu, hs, hshape⟩ := ht.holds.exists_subtree hi hv
    exact ⟨u, hu, hs, hshape, h.subtree hu⟩
  have hint {c : SlotTree} {value : Long} (hc : Holds ast.view c) (hne : c.erase ≠ Expr.int value) :
      ast.view c.slot ≠ some (.leaf (.int value)) :=
    fun hv => hne (hc.erase_leaf hv)
  constructor
  · intro i argIndex hv
    obtain ⟨u, hu, rfl, hshape, hf⟩ := hnode hv
    cases u with
    | leaf s a =>
      obtain rfl : a = .var argIndex := by simpa using hshape
      exact hf
    | _ => simp at hshape
  · intro i child value hv
    obtain ⟨u, hu, rfl, hshape, hf⟩ := hnode hv
    cases u with
    | un s f c =>
      obtain rfl : c.slot = child := by simpa using hshape
      exact hint (ht.holds.subtree (Tree.subtrees_trans (by simp) hu)) (hf.2 value)
    | _ => simp at hshape
  · intro i left right hv
    obtain ⟨u, hu, rfl, hshape, hf⟩ := hnode hv
    cases u with
    | bin s g l r =>
      obtain ⟨rfl, rfl, rfl⟩ : g = .div ∧ l.slot = left ∧ r.slot = right := by simpa using hshape
      exact hint (ht.holds.subtree (Tree.subtrees_trans (by simp) hu)) (hf.2.2 rfl)
    | _ => simp at hshape

-- ---------------------------------------------------------------------------
-- Parsed programs
-- ---------------------------------------------------------------------------

section
variable {heap : Heap} {code : Bytes} {names : List Bytes} {p : Parser}

theorem Finished.listsPostOrder {t : RangedExpr} (h : Finished names t p) :
    p.ast.ListsPostOrder (t.erase.number 0) := by
  have hlayout : p.ast.nodes = [] ++ (layout ([] : List AstNode).length t ++ []) := by
    simpa using h.2.2
  refine Ast.listsPostOrder_number (holds_layout hlayout) ?_
  rw [Ast.nodesUsed, h.2.2, length_layout, Tree.size_erase]

theorem parseSlice_tree (h : parseSlice heap code names = .ok p) (hd : p.state = .done) :
    ∃ e : Expr, p.ast.ListsPostOrder (e.number 0) ∧ p.ast.nodesUsed = e.size ∧
      Folded names.length e ∧
      ∀ d : Derivation .addSub, words code = d.yield ++ [.eof] → e = d.expr names := by
  obtain ⟨-, t, hf, hr⟩ := parseSlice_done h hd
  obtain ⟨-, d, -, hv, ht⟩ := exists_derivation hr
  refine ⟨t.erase, hf.listsPostOrder, ?_, ht ▸ folded_expr hv, fun d' hd' =>
    (expr_of_derivation hr hd').2⟩
  rw [Ast.nodesUsed, hf.2.2, length_layout, Tree.size_erase]

theorem Ast.slot_number {ast : Ast} {e : Expr} (h : ast.ListsPostOrder (e.number 0))
    (hlen : ast.nodesUsed = e.size) : (e.number 0).slot = ast.rootNodeIndex := by
  have hpos := e.size_pos
  rw [h.root, Ast.rootNodeIndex, if_neg (by omega)]

theorem astEval_number {ast : Ast} {e : Expr} {args : List Long}
    (h : ast.ListsPostOrder (e.number 0)) (hlen : ast.nodesUsed = e.size) :
    astEval ast args = e.eval (meaning args) := by
  rw [Ast.astEval_eq h.holds (Ast.slot_number h hlen), Term.erase_number]
  rw [Term.erase_number, hlen]
  exact e.depth_le_size

/-- The array of a parsed program is the post-order listing of one tree, with
every variable an argument and with literals folded. -/
theorem parseSlice_listsPostOrder (h : parseSlice heap code names = .ok p) (hd : p.state = .done) :
    ∃ t, p.ast.ListsPostOrder t ∧ p.ast.NodesFolded names.length := by
  obtain ⟨e, ht, -, hf, -⟩ := parseSlice_tree h hd
  exact ⟨_, ht, Ast.nodesFolded ht (by rwa [Term.erase_number])⟩

theorem quotient_done : (parseSlice Heap.unlimited (ascii "a / -(2 - -b)")
    [ascii "a", ascii "b"]).map Parser.state = .ok .done := by
  decide +kernel

theorem parseSlice_listsPostOrder_quotient :
    ∃ p, parseSlice Heap.unlimited (ascii "a / -(2 - -b)") [ascii "a", ascii "b"] = .ok p ∧
      ∃ t, p.ast.ListsPostOrder t ∧ p.ast.NodesFolded 2 := by
  obtain ⟨p, hp, hd⟩ := exists_of_map_eq_ok quotient_done
  exact ⟨p, hp, parseSlice_listsPostOrder hp hd⟩

/-- A parsed program is in the language, and the tree has the value of every
derivation of it. -/
theorem astEval_parseSlice (h : parseSlice heap code names = .ok p) (hd : p.state = .done) :
    Accepts names code ∧ ∀ e : Derivation .addSub, words code = e.yield ++ [.eof] →
      ∀ args, astEval p.ast args = e.value names args := by
  obtain ⟨hn, t, -, hr⟩ := parseSlice_done h hd
  obtain ⟨-, d, hwords, hv, -⟩ := exists_derivation hr
  obtain ⟨e, ht, hlen, -, hexpr⟩ := parseSlice_tree h hd
  refine ⟨⟨hn, d, hwords, hv⟩, fun d' hd' args => ?_⟩
  rw [astEval_number ht hlen, hexpr d' hd', eval_expr]

theorem astEval_parseSlice_quotient :
    ∃ p, parseSlice Heap.unlimited (ascii "a / -(2 - -b)") [ascii "a", ascii "b"] = .ok p ∧
      Accepts [ascii "a", ascii "b"] (ascii "a / -(2 - -b)") ∧
      ∀ e : Derivation .addSub, words (ascii "a / -(2 - -b)") = e.yield ++ [.eof] →
        ∀ args, astEval p.ast args = e.value [ascii "a", ascii "b"] args := by
  obtain ⟨p, hp, hd⟩ := exists_of_map_eq_ok quotient_done
  exact ⟨p, hp, astEval_parseSlice hp hd⟩

end

end ParserExample
