import ParserExample.Optimizer.Passes
import ParserExample.Pipeline

/-!
# What a program takes

How much a program of `n` bytes can ask for: `n` nodes, bytecode of `12 n + 20`
bytes, a stack of half of `n + 1` values, and passes of the optimizer in the
square of `n`. Optimizing asks for no more.
-/

namespace ParserExample

open Library

section
variable {names : List Bytes} {nt : NonTerminal} {code : Bytes}

theorem size_negate_le (e : Expr) : (negate e).size ≤ e.size + 1 := by
  rcases e with (value | a) | _ | _
  · exact Nat.le_succ _
  · exact le_rfl
  · exact le_rfl
  · exact le_rfl

theorem length_leaves_negate (e : Expr) : (negate e).leaves.length = e.leaves.length := by
  rcases e with (value | a) | _ | _ <;> rfl

/-- Every node is built for a word. -/
theorem Derivation.size_expr_le (d : Derivation nt) :
    (d.expr names).size ≤ d.yield.length := by
  induction d with
  | addSub op left right ihl ihr =>
    simp only [Derivation.expr, Term.size, Derivation.yield, List.length_append, List.length_cons]
    omega
  | mulDiv op left right ihl ihr =>
    simp only [Derivation.expr, Term.size, Derivation.yield, List.length_append, List.length_cons]
    omega
  | signed signs e ih =>
    simp only [Derivation.expr, Derivation.yield, List.length_append, List.length_map]
    split
    · next hneg =>
      have hpos : 0 < signs.length := by
        refine List.length_pos_iff.mpr ?_
        rintro rfl
        exact absurd hneg (by decide)
      have hsize := size_negate_le (e.expr names)
      omega
    · omega
  | ident name => exact le_rfl
  | int digits => exact le_rfl
  | ofMulDiv e ih => exact ih
  | ofSigned e ih => exact ih
  | paren e ih =>
    simp only [Derivation.expr, Derivation.yield, List.length_append, List.length_cons]
    omega

/-- Between any two operands stands an operator. -/
theorem Derivation.length_leaves_expr_le (d : Derivation nt) :
    2 * (d.expr names).leaves.length ≤ d.yield.length + 1 := by
  induction d with
  | addSub op left right ihl ihr =>
    simp only [Derivation.expr, Term.leaves, Derivation.yield, List.length_append, List.length_cons]
    omega
  | mulDiv op left right ihl ihr =>
    simp only [Derivation.expr, Term.leaves, Derivation.yield, List.length_append, List.length_cons]
    omega
  | signed signs e ih =>
    simp only [Derivation.expr, Derivation.yield, List.length_append]
    split
    · rw [length_leaves_negate]
      omega
    · omega
  | ident name => exact le_rfl
  | int digits => exact le_rfl
  | ofMulDiv e ih => exact ih
  | ofSigned e ih => exact ih
  | paren e ih =>
    simp only [Derivation.expr, Derivation.yield, List.length_append, List.length_cons]
    omega

theorem length_yield_le {d : Derivation nt} (h : words code = d.yield ++ [.eof]) :
    d.yield.length ≤ code.length := by
  have hlen := length_lexemesFrom_le 0 code
  have hwords := congrArg List.length h
  simp only [words, lexemes, List.length_map, List.length_append, List.length_singleton] at hwords
  omega

/-- An operator takes one word of the code, and an operand two. -/
theorem codeSize_eq (e : Expr) : codeSize e = wordSize * (e.size + e.leaves.length) := by
  induction e with
  | leaf a => rw [codeSize_leaf, mul_comm]; rfl
  | un f t ih =>
    simp only [codeSize_un, ih, Term.size, Term.leaves]
    ring
  | bin g l r ihl ihr =>
    simp only [codeSize_bin, ihl, ihr, Term.size, Term.leaves, List.length_append]
    ring

end

/-- What is compiled of the tree takes no more than a program of `n` bytes can ask
for. -/
def CompilesWithin (n : Nat) (ast : Ast) : Prop :=
  ∀ heap bytecode, bytecodeCompile heap ast = .ok bytecode → bytecode.stackSize ≠ 0 →
    bytecode.bytes.used ≤ 12 * n + 20 ∧ 2 * bytecode.stackSize ≤ n + 1

section
variable {heap : Heap} {code : Bytes} {names : List Bytes} {p : Parser} {ast : Ast} {t : SlotTree}
  {d : Derivation .addSub}

theorem length_program_le_of_smaller {e : Expr} (hsmall : Smaller e (d.expr names))
    (hwords : words code = d.yield ++ [.eof]) : (program e).length ≤ 12 * code.length + 20 := by
  have hlen := length_yield_le hwords
  have hsize := @Derivation.size_expr_le names _ d
  have hleaves := @Derivation.length_leaves_expr_le names _ d
  have hprogram := hsmall.program
  rw [length_program (d.expr names), codeSize_eq, wordSize] at hprogram
  omega

theorem compilesWithin_of_smaller (h : Holds ast.view t) (hn : t.slots.Nodup)
    (hs : t.slot = ast.rootNodeIndex) (hsmall : Smaller t.erase (d.expr names))
    (hwords : words code = d.yield ++ [.eof]) : CompilesWithin code.length ast := by
  intro heap bytecode hc hz
  have hdepth := t.erase.depth_le_size.trans (size_le_nodesUsed h hn)
  obtain ⟨bytecode', hc', hok, -⟩ := bytecodeCompile_cases heap h hs hdepth
  obtain rfl := Except.ok.inj (hc.symm.trans hc')
  obtain ⟨hstack, -, -, hused⟩ := hok hz
  constructor
  · exact hused.trans_le (length_program_le_of_smaller hsmall hwords)
  · have hlen := length_yield_le hwords
    have hleaves := @Derivation.length_leaves_expr_le names _ d
    have hheight := hsmall.height 0
    have hclimb := (d.expr names).height_le_leaves 0
    omega

/-- An accepted program of `n` bytes takes memory that is linear in `n`, before and
after it is optimized, and time in the optimizer that is quadratic. -/
theorem parseSlice_resources (h : parseSlice heap code names = .ok p) (hd : p.state = .done) :
    p.ast.nodesUsed ≤ code.length ∧ (optimizeTrace p.ast).length ≤ 3 * code.length ^ 2 ∧
      CompilesWithin code.length p.ast ∧
      ∀ ast', optimize p.ast = .ok ast' → CompilesWithin code.length ast' := by
  obtain ⟨-, u, -, hread⟩ := parseSlice_done h hd
  obtain ⟨-, d, hwords, -, -⟩ := exists_derivation hread
  obtain ⟨e, hlists, hused, -, hexpr⟩ := parseSlice_tree h hd
  obtain rfl := hexpr d hwords
  have hn : ((d.expr names).number 0).slots.Nodup := hlists.slots ▸ List.nodup_range
  have hs := Ast.slot_number hlists hused
  have hsize : (d.expr names).size ≤ code.length := d.size_expr_le.trans (length_yield_le hwords)
  refine ⟨hused.trans_le hsize, ?_, ?_, fun ast' ho => ?_⟩
  · have hpasses := length_optimizeTrace_le hlists.holds hn hs
    rw [Term.erase_number] at hpasses
    exact hpasses.trans (Nat.mul_le_mul_left 3 (Nat.pow_le_pow_left hsize 2))
  · have hsmall : Smaller ((d.expr names).number 0).erase (d.expr names) := by
      rw [Term.erase_number]
      exact Smaller.refl _
    exact compilesWithin_of_smaller hlists.holds hn hs hsmall hwords
  · obtain ⟨t', hu, hsmall⟩ := optimize_smaller hlists.holds hn hs ho
    rw [Term.erase_number] at hsmall
    exact compilesWithin_of_smaller hu.holds (hu.nodup hn) (hu.root hs) hsmall hwords

theorem parseSlice_resources_sum :
    ∃ p, parseSlice Heap.unlimited (ascii "1 + (2 + a)") [ascii "a"] = .ok p ∧
      p.ast.nodesUsed ≤ 11 ∧ (optimizeTrace p.ast).length ≤ 363 ∧ CompilesWithin 11 p.ast := by
  obtain ⟨p, hp, hsum⟩ := exists_of_map_eq_ok sum_optimized
  obtain ⟨hd, -⟩ := Prod.mk.inj hsum
  obtain ⟨hused, hpasses, hcompile, -⟩ := parseSlice_resources hp hd
  exact ⟨p, hp, hused, hpasses, hcompile⟩

end

end ParserExample
