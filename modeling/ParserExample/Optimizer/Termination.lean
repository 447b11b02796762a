import ParserExample.Optimizer.Passes

/-!
# The optimizer terminates

Every rule lowers `measure`, and the run on a rewritten left operand only makes
the node smaller. So the recursion and the loops of the model end before their
fuel does, and more of it changes nothing.
-/

namespace ParserExample

open Library

-- ---------------------------------------------------------------------------
-- Fuel
-- ---------------------------------------------------------------------------

/-- A call of the loop that ends, ends in the same way with more fuel. -/
theorem nodeOptimize_fuel {m n : Nat} {ast : Ast} {nodeIndex : Nat} (hmn : m ≤ n)
    (h : nodeOptimize m ast nodeIndex ≠ .error .fuel) :
    nodeOptimize n ast nodeIndex = nodeOptimize m ast nodeIndex := by
  induction m generalizing n ast nodeIndex with
  | zero => exact absurd rfl h
  | succ m ih =>
    obtain ⟨n, rfl⟩ : ∃ k, n = k + 1 := ⟨n - 1, by omega⟩
    simp only [nodeOptimize] at h ⊢
    cases hi : iteration ast nodeIndex with
    | error f => rfl
    | ok it =>
      rw [hi] at h
      cases it with
      | stop | done => rfl
      | again ast' => exact ih (by omega) h
      | nested ast' leftIndex =>
        simp only [ok_bind] at h ⊢
        have hl : nodeOptimize m ast' leftIndex ≠ .error .fuel := by
          intro hl
          simp [hl] at h
        rw [ih (by omega) hl]
        cases hr : nodeOptimize m ast' leftIndex with
        | error f => rfl
        | ok ast'' =>
          rw [hr] at h
          exact ih (by omega) h

theorem nodeOptimizeRecursive_fuel {m n : Nat} {ast : Ast} {nodeIndex : Nat} (hmn : m ≤ n)
    (h : nodeOptimizeRecursive m ast nodeIndex ≠ .error .fuel) :
    nodeOptimizeRecursive n ast nodeIndex = nodeOptimizeRecursive m ast nodeIndex := by
  induction m generalizing n ast nodeIndex with
  | zero => exact absurd rfl h
  | succ m ih =>
    obtain ⟨n, rfl⟩ : ∃ k, n = k + 1 := ⟨n - 1, by omega⟩
    have hcall {ast : Ast} {child : Nat} {f : Ast → Except Fault Ast}
        (h : nodeOptimizeRecursive m ast child >>= f ≠ .error .fuel) :
        nodeOptimizeRecursive n ast child = nodeOptimizeRecursive m ast child := by
      refine ih (by omega) fun hc => h ?_
      rw [hc]
      rfl
    simp only [nodeOptimizeRecursive] at h ⊢
    cases hread : ast.read nodeIndex with
    | error f => rfl
    | ok node =>
      simp only [hread, ok_bind] at h ⊢
      rcases hd : node.data with a | ⟨f, child⟩ | ⟨g, left, right⟩
      · rfl
      · simp only [hd] at h ⊢
        rw [hcall h]
      · simp only [hd] at h ⊢
        rw [hcall h]
        cases hl : nodeOptimizeRecursive m ast node.leftIndex with
        | error f => rfl
        | ok ast' =>
          simp only [hl, ok_bind] at h ⊢
          cases hread' : ast'.read nodeIndex with
          | error f => rfl
          | ok node' =>
            simp only [hread', ok_bind] at h ⊢
            rw [hcall h]

-- ---------------------------------------------------------------------------
-- Termination
-- ---------------------------------------------------------------------------

theorem Visits.nodeOptimize_ends {pass : Ast × Nat} {e : Expr} (h : Visits pass e) :
    nodeOptimize (passes pass.1.nodesUsed) pass.1 pass.2 ≠ .error .fuel := by
  obtain ⟨t, hh, hn, hs, -⟩ := h
  obtain ⟨visited, result, hr, hres, -⟩ := nodeOptimize_run hh hn (measure_lt_passes hh hn)
  rw [← hs]
  generalize nodeOptimize (passes pass.1.nodesUsed) pass.1 t.slot = x at hres
  cases hres with
  | ok => exact fun h => by cases h
  | error f =>
    rintro ⟨⟩
    cases hr.error

/-- The optimizer terminates on every tree: it returns or traps, with the same
outcome for every bound on its recursion and on the passes of its loops from
those of the model on, after a bounded number of passes. -/
theorem optimize_terminates {ast : Ast} (ht : ast.view.TreeAt ast.rootNodeIndex) :
    (optimize ast = .error .division ∨ ∃ ast', optimize ast = .ok ast') ∧
    (∀ fuel, ast.nodesUsed < fuel →
      nodeOptimizeRecursive fuel ast ast.rootNodeIndex = optimize ast) ∧
    (∀ pass ∈ optimizeTrace ast, ∀ fuel, passes pass.1.nodesUsed ≤ fuel →
      nodeOptimize fuel pass.1 pass.2 ≠ .error .fuel ∧
      nodeOptimize fuel pass.1 pass.2 = nodeOptimize (passes pass.1.nodesUsed) pass.1 pass.2) ∧
    (optimizeTrace ast).length ≤ 3 * ast.nodesUsed ^ 2 := by
  obtain ⟨t, h, hs, hn⟩ := Ast.exists_tree ht
  have hsize := size_le_nodesUsed h hn
  obtain ⟨visited, result, hr, hres, htrace⟩ := optimize_run h hn hs
  have hends : optimize ast = .error .division ∨ ∃ ast', optimize ast = .ok ast' := by
    generalize optimize ast = x at hres
    cases hres with
    | ok => exact .inr ⟨_, rfl⟩
    | error f => exact .inl (by rw [hr.error])
  refine ⟨hends, fun fuel hf => ?_, fun pass hp fuel hf => ?_, ?_⟩
  · refine nodeOptimizeRecursive_fuel hf ?_
    show optimize ast ≠ _
    rcases hends with he | ⟨ast', he⟩ <;> rw [he] <;> simp
  · obtain ⟨e, -, hv⟩ := exists_visited htrace hp
    have heq := nodeOptimize_fuel hf hv.nodeOptimize_ends
    exact ⟨heq ▸ hv.nodeOptimize_ends, heq⟩
  · exact (length_optimizeTrace_le h hn hs).trans
      (Nat.mul_le_mul_left 3 (Nat.pow_le_pow_left hsize 2))

theorem optimize_terminates_sumAst :
    ∃ ast', optimize sumAst = .ok ast' ∧
      ∀ fuel, 5 < fuel → nodeOptimizeRecursive fuel sumAst 4 = .ok ast' := by
  have hok := optimize_sumAst_isOk
  obtain ⟨hends, hfuel, -⟩ := optimize_terminates sumAst_treeAt
  rcases hends with herr | ⟨ast', h⟩
  · rw [herr] at hok
    cases hok
  · exact ⟨ast', h, fun fuel hf => (hfuel fuel hf).trans h⟩

end ParserExample
