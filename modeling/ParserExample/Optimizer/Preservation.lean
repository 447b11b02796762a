import ParserExample.Optimizer.NormalForm

/-!
# What the optimizer keeps

Every pass keeps the value of its node, with one exception: at a negation of a
negation the pass drops one of the two. `LosesSign` are the passes at which
that matters. A run without one keeps the value of the whole tree.
-/

namespace ParserExample

open Library

def Ast.isDoubleInv (ast : Ast) (nodeIndex : Nat) : Bool :=
  match ast.view nodeIndex with
  | some (.un () childIndex) =>
    match ast.view childIndex with
    | some (.un () _) => true
    | _ => false
  | _ => false

/-- The pass is at a double negation whose value is not its own opposite. -/
def LosesSign (args : List Long) (pass : Ast × Nat) : Prop :=
  pass.1.isDoubleInv pass.2 = true ∧
    ∃ value, nodeEval pass.1 args pass.1.nodesUsed pass.2 = .ok value ∧ -value ≠ value

def Iteration.ast (ast : Ast) : Iteration → Ast
  | .stop => ast
  | .done ast' => ast'
  | .again ast' => ast'
  | .nested ast' _ => ast'

/-- The value of the node, if it has one, is its value after the pass. -/
def KeepsValue (args : List Long) (pass : Ast × Nat) : Prop :=
  ∀ value, nodeEval pass.1 args pass.1.nodesUsed pass.2 = .ok value →
    ∃ it, iteration pass.1 pass.2 = .ok it ∧
      nodeEval (it.ast pass.1) args pass.1.nodesUsed pass.2 = .ok value

-- ---------------------------------------------------------------------------
-- The value of a visited node
-- ---------------------------------------------------------------------------

section
variable {args : List Long} {pass : Ast × Nat} {e : Expr}

theorem Visits.nodeEval (h : Visits pass e) :
    ParserExample.nodeEval pass.1 args pass.1.nodesUsed pass.2 = e.eval (meaning args) := by
  obtain ⟨t, hh, hn, hs, rfl⟩ := h
  have hdepth := t.erase.depth_le_size
  have hsize := size_le_nodesUsed hh hn
  rw [← hs, nodeEval_eq hh (by omega)]

theorem Visits.isDoubleInv_iff (h : Visits pass e) :
    pass.1.isDoubleInv pass.2 = true ↔ ∃ x, e = Expr.inv (Expr.inv x) := by
  obtain ⟨t, hh, -, hs, rfl⟩ := h
  rw [← hs, Ast.isDoubleInv, hh.root]
  rcases t with _ | ⟨s, f, c⟩ | _
  · simp
  · simp only [Tree.shape_un, hh.2.root]
    cases c <;> simp
  · simp

theorem Visits.losesSign_iff (h : Visits pass e) : LosesSign args pass ↔ SignLost args e := by
  rw [LosesSign, SignLost, h.isDoubleInv_iff, h.nodeEval]

theorem not_signLost {args : List Long} {e : Expr} (h : ∀ x, e ≠ Expr.inv (Expr.inv x)) :
    ¬ SignLost args e :=
  fun ⟨⟨x, hx⟩, _⟩ => h x hx

/-- A pass keeps the value of its node if and only if no sign is lost. -/
theorem Visits.keepsValue_iff (h : Visits pass e) (hc : ChildrenNormal e) :
    KeepsValue args pass ↔ ¬ LosesSign args pass := by
  rw [h.losesSign_iff]
  unfold KeepsValue
  rw [h.nodeEval]
  obtain ⟨t, hh, hn, hs, rfl⟩ := h
  have hsize := size_le_nodesUsed hh hn
  -- the value of the node after the pass is that of the new tree
  have hafter {ast' : Ast} {t' : SlotTree} (hu : Updates pass.1 t ast' t') :
      ParserExample.nodeEval ast' args pass.1.nodesUsed pass.2 = t'.erase.eval (meaning args) := by
    have hdepth := t'.erase.depth_le_size
    have hle := hu.size_le
    rw [← hs, ← hu.slot, nodeEval_eq hu.holds (by omega)]
  have hi := iteration_ok hh hn
  rw [← hs]
  rw [← hs] at hafter
  generalize iteration pass.1 t.slot = x at hi ⊢
  cases hi with
  | stop hr =>
    have hkeep : ¬ SignLost args t.erase := not_signLost fun x hx => by
      rw [hx] at hr
      exact hr (.inl ⟨_, .invInv⟩)
    exact iff_of_true (fun value hv => ⟨_, rfl, (hafter (.refl hh)).trans hv⟩) hkeep
  | trap ht =>
    have hkeep : ¬ SignLost args t.erase := not_signLost fun x hx => by simp [Traps, hx] at ht
    refine iff_of_true (fun value hv => ?_) hkeep
    rw [show t.erase = _ from ht] at hv
    cases hv
  | @done ast' t' hu hd =>
    by_cases hdrop : DropsSign t.erase t'.erase
    · -- the rule that drops one of two negations
      rw [SignLost]
      obtain ⟨x, hx, -⟩ := id hdrop
      constructor
      · rintro hk ⟨-, value, hv, hne⟩
        obtain ⟨_, ⟨⟩, hval⟩ := hk value hv
        exact hne ((hdrop.eval hv).mp ((hafter hu).symm.trans hval))
      · intro hs value hv
        refine ⟨_, rfl, (hafter hu).trans ((hdrop.eval hv).mpr ?_)⟩
        by_contra hne
        exact hs ⟨⟨x, hx⟩, value, hv, hne⟩
    · have hkeep : ¬ SignLost args t.erase := not_signLost fun x hx => by
        rw [hx] at hd hdrop
        generalize t'.erase = e' at hd hdrop
        cases hd
        exact hdrop ⟨_, rfl, rfl⟩
      exact iff_of_true (fun value hv => ⟨_, rfl, (hafter hu).trans (hd.eval hdrop hv)⟩) hkeep
  | again hu ha =>
    have hkeep : ¬ SignLost args t.erase := not_signLost fun x hx => by
      rw [hx] at ha
      cases ha
    exact iff_of_true (fun value hv => ⟨_, rfl, (hafter hu).trans (ha.eval.trans hv)⟩) hkeep
  | nested hu _ hnest =>
    have hkeep : ¬ SignLost args t.erase := not_signLost fun x hx => by
      rw [hx] at hnest
      cases hnest
    exact iff_of_true
      (fun value hv => ⟨_, rfl, (hafter hu).trans ((hnest.eval hc).trans hv)⟩) hkeep

end

-- ---------------------------------------------------------------------------
-- One pass
-- ---------------------------------------------------------------------------

/-- A pass at a binary node keeps the value of the node, if it has one, as long as
every pass below the node stops. What `node_optimize` does to the left operand
after the pass is not part of it. -/
theorem iteration_nodeEval {ast : Ast} {i left right : Nat} {type : BinaryType}
    (ht : ast.view.TreeAt ast.rootNodeIndex) (hi : ast.view.Reaches ast.rootNodeIndex i)
    (hv : ast.view i = some (.bin type left right))
    (hbelow : ∀ j, ast.view.Reaches left j ∨ ast.view.Reaches right j →
      iteration ast j = .ok .stop)
    (args : List Long) (value : Long) (hvalue : nodeEval ast args ast.nodesUsed i = .ok value) :
    ∃ it, iteration ast i = .ok it ∧
      nodeEval (it.ast ast) args ast.nodesUsed i = .ok value := by
  obtain ⟨t, h, hs, hn⟩ := Ast.exists_tree ht
  obtain ⟨u, hu, rfl, hshape⟩ := h.exists_subtree (h.reaches_iff.mp (hs ▸ hi)) hv
  have hsub := h.subtree hu
  have hnu := Tree.nodup_subtree hn hu
  have hvisit : Visits (ast, u.slot) u.erase := ⟨u, hsub, hnu, rfl, rfl⟩
  cases u with
  | leaf s a => cases hshape
  | un s f c => cases hshape
  | bin s g l r =>
    obtain ⟨rfl, rfl, rfl⟩ : g = type ∧ l.slot = left ∧ r.slot = right := by simpa using hshape
    have hl : Normal l.erase := normal_of_stop hsub.2.1 (Tree.nodup_left hnu)
      fun j hj => hbelow j (.inl hj)
    have hr : Normal r.erase := normal_of_stop hsub.2.2 (Tree.nodup_right hnu)
      fun j hj => hbelow j (.inr hj)
    have hkeep : ¬ LosesSign args (ast, s) :=
      fun hlost => not_signLost (fun x hx => by cases hx) (hvisit.losesSign_iff.mp hlost)
    exact (hvisit.keepsValue_iff ⟨hl, hr⟩).mpr hkeep value hvalue

/-- The parsed tree of `(1 + a) - b`. -/
def differenceAst : Ast :=
  ⟨[⟨1, 2, .leaf (.int 1)⟩, ⟨5, 6, .leaf (.var 0)⟩, ⟨0, 4, .bin .add 0 1⟩,
    ⟨10, 11, .leaf (.var 1)⟩, ⟨8, 9, .bin .sub 2 3⟩], 64⟩

theorem iteration_nodeEval_difference :
    ∃ it, iteration differenceAst 4 = .ok it ∧
      nodeEval (it.ast differenceAst) [7, 3] 5 4 = .ok 5 := by
  have hl : Holds differenceAst.view (.bin 2 .add (.leaf 0 (.int 1)) (.leaf 1 (.var 0))) := by
    decide
  have hr : Holds differenceAst.view (.leaf 3 (.var 1)) := by decide
  have h : Holds differenceAst.view (.bin 4 .sub (.bin 2 .add (.leaf 0 (.int 1)) (.leaf 1 (.var 0)))
    (.leaf 3 (.var 1))) := ⟨rfl, hl, hr⟩
  refine iteration_nodeEval (h.treeAt_iff_nodup.mpr (by decide)) .refl
    (show differenceAst.view 4 = some (.bin .sub 2 3) from rfl) ?_ [7, 3] 5 (by decide)
  rintro j (hj | hj)
  · have hmem := hl.reaches_iff.mp hj
    fin_cases hmem <;> decide
  · have hmem := hr.reaches_iff.mp hj
    fin_cases hmem
    decide

-- ---------------------------------------------------------------------------
-- Runs
-- ---------------------------------------------------------------------------

section
variable {ast : Ast} {t : SlotTree} {args : List Long}

/-- Every pass of a run keeps the value of its node if and only if no pass
loses a sign. -/
theorem keepsValue_trace_iff (h : Holds ast.view t) (hn : t.slots.Nodup)
    (hs : t.slot = ast.rootNodeIndex) :
    (∀ pass ∈ optimizeTrace ast, KeepsValue args pass) ↔
      ∀ pass ∈ optimizeTrace ast, ¬ LosesSign args pass := by
  obtain ⟨visited, result, hr, -, htrace⟩ := optimize_run h hn hs
  refine forall₂_congr fun pass hp => ?_
  obtain ⟨e, he, hv⟩ := exists_visited htrace hp
  exact hv.keepsValue_iff (hr.visited_childrenNormal e he)

theorem optimize_eval {value : Long} (h : Holds ast.view t) (hn : t.slots.Nodup)
    (hs : t.slot = ast.rootNodeIndex) (hl : ∀ pass ∈ optimizeTrace ast, ¬ LosesSign args pass)
    (hv : t.erase.eval (meaning args) = .ok value) :
    ∃ ast', optimize ast = .ok ast' ∧ astEval ast' args = .ok value := by
  obtain ⟨visited, result, hr, hres, htrace⟩ := optimize_run h hn hs
  have hsigns : ∀ e ∈ visited, ¬ SignLost args e := by
    intro e he
    obtain ⟨pass, hp, hvisit⟩ := exists_pass htrace he
    exact fun hlost => hl pass hp (hvisit.losesSign_iff.mpr hlost)
  obtain ⟨e', rfl, hv'⟩ := hr.eval hsigns hv
  generalize optimize ast = x at hres ⊢
  generalize hok : Except.ok e' = result at hres
  cases hres with
  | error f => cases hok
  | @ok ast' t' hu =>
    obtain rfl := Except.ok.inj hok
    have hroot := hu.root hs
    have hdepth := t'.erase.depth_le_size
    have hsize := size_le_nodesUsed hu.holds (hu.nodup hn)
    exact ⟨ast', rfl, (Ast.astEval_eq hu.holds hroot (by omega)).trans hv'⟩

end

end ParserExample
