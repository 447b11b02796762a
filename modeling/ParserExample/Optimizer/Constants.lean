import ParserExample.Optimizer.Chains
import ParserExample.Optimizer.Preservation

/-!
# Constant folding

The optimizer folds every subexpression without variables, unless it divides by
the constant 0, and a whole expression without variables that has a value becomes
that value. Then the case in which the optimizer changes a value does not arise:
below two negations there would be a constant that a pass has not folded.
-/

namespace ParserExample

open Library
open ParserExample.Expr (int var inv isInt)

-- ---------------------------------------------------------------------------
-- Properties that subexpressions inherit
-- ---------------------------------------------------------------------------

/-- A property that the operands of an expression inherit, and that what becomes
of an expression keeps. It holds of every expression at which a pass begins. -/
structure Inherited (R : Expr → Expr → Prop) (P : Expr → Prop) : Prop extends Respected R where
  keeps : ∀ {e' e}, R e' e → P e → P e'
  child : ∀ {f e}, P (.un f e) → P e
  left : ∀ {g l r}, P (.bin g l r) → P l
  right : ∀ {g l r}, P (.bin g l r) → P r

section
variable {R : Expr → Expr → Prop} {P : Expr → Prop} {e : Expr} {visited : List Expr}
  {result : Except Fault Expr}

theorem Run.visited_inherit (h : Run e visited result) (hP : Inherited R P) (he : P e) :
    ∀ x ∈ visited, P x := by
  induction h with
  | stop | trap | done => exact List.forall_mem_singleton.mpr he
  | again h _ ih => exact List.forall_mem_cons.mpr ⟨he, ih (hP.keeps (hP.again h) he)⟩
  | nested h hl _ ihl ih =>
    have hnode := hP.keeps (hP.nested h) he
    have hnode' := hP.keeps (hP.bin (hl.respects hP.toRespected) (hP.refl _)) hnode
    exact List.forall_mem_cons.mpr
      ⟨he, List.forall_mem_append.mpr ⟨ihl (hP.left hnode), ih hnode'⟩⟩
  | nestedError h _ ihl =>
    exact List.forall_mem_cons.mpr ⟨he, ihl (hP.left (hP.keeps (hP.nested h) he))⟩

theorem RunRecursive.visited_inherit (h : RunRecursive e visited result) (hP : Inherited R P)
    (he : P e) : ∀ x ∈ visited, P x := by
  induction h with
  | leaf h => exact h.visited_inherit hP he
  | un hc h ih =>
    have hnode := hP.keeps (hP.un (hc.respects hP.toRespected)) he
    exact List.forall_mem_append.mpr ⟨ih (hP.child he), h.visited_inherit hP hnode⟩
  | unError _ ih => exact ih (hP.child he)
  | bin hl hr h ihl ihr =>
    have hnode := hP.keeps (hP.bin (hl.respects hP.toRespected) (hr.respects hP.toRespected)) he
    exact List.forall_mem_append.mpr ⟨ihl (hP.left he),
      List.forall_mem_append.mpr ⟨ihr (hP.right he), h.visited_inherit hP hnode⟩⟩
  | leftError _ ihl => exact ihl (hP.left he)
  | rightError _ _ ihl ihr =>
    exact List.forall_mem_append.mpr ⟨ihl (hP.left he), ihr (hP.right he)⟩

end

-- ---------------------------------------------------------------------------
-- Expressions without variables
-- ---------------------------------------------------------------------------

def Closed (e : Expr) : Prop := ∀ a, .var a ∉ e.leaves

def DividesByZero : Expr → Prop
  | .leaf _ => False
  | .un _ e => DividesByZero e
  | .bin g l r => g = .div ∧ r = int 0 ∨ DividesByZero l ∨ DividesByZero r

section
variable {e e' l r : Expr} {g : BinaryType} {f : Unit} {a b value : Long} {args : List Long}

theorem Closed.left (h : Closed (.bin g l r)) : Closed l :=
  fun a ha => h a (List.mem_append_left _ ha)

theorem Closed.right (h : Closed (.bin g l r)) : Closed r :=
  fun a ha => h a (List.mem_append_right _ ha)

theorem closed_inherited : Inherited VarsIn Closed where
  toRespected := varsIn_respected
  keeps h hc a ha := hc a (h a ha)
  child hc := hc
  left hc := hc.left
  right hc := hc.right

theorem DividesByZero.eval_ne (h : DividesByZero e) : e.eval (meaning args) ≠ .ok value := by
  induction e generalizing value with
  | leaf a => exact h.elim
  | un f e ih =>
    intro hv
    obtain ⟨x, hx, -⟩ := bind_ok.mp hv
    exact ih h hx
  | bin g l r ihl ihr =>
    intro hv
    obtain ⟨x, y, hx, hy, hxy⟩ := eval_bin_ok hv
    rcases h with ⟨rfl, rfl⟩ | h | h
    · obtain rfl : 0 = y := Except.ok.inj hy
      exact (longDiv_ok.mp hxy).1 rfl
    · exact ihl h hx
    · exact ihr h hy

theorem reducible_constants (hg : ¬ (g = .div ∧ b = 0)) : Reducible (.bin g (int a) (int b)) := by
  rcases g.apply_cases a b with ⟨value, hv⟩ | hv
  · exact .inl ⟨_, .fold hv⟩
  · cases g with
    | div =>
      simp only [BinaryType.apply_div, longDiv, ite_eq_left_iff, reduceCtorEq, imp_false,
        not_not] at hv
      rcases hv with rfl | ⟨rfl, rfl⟩
      · exact absurd ⟨rfl, rfl⟩ hg
      · exact .inr (.inr (.inr rfl))
    | _ => cases hv

theorem Normal.constant (h : Normal e) (hc : Closed e) (hz : ¬ DividesByZero e) :
    ∃ value, e = int value := by
  induction e with
  | leaf a =>
    cases a with
    | int value => exact ⟨value, rfl⟩
    | var a => exact absurd List.mem_cons_self (hc a)
  | un f e ih =>
    obtain ⟨value, rfl⟩ := ih h.1 hc hz
    exact absurd (.inl ⟨_, .invInt⟩) h.2
  | bin g l r ihl ihr =>
    simp only [DividesByZero, not_or] at hz
    obtain ⟨a, rfl⟩ := ihl h.1 hc.left hz.2.1
    obtain ⟨b, rfl⟩ := ihr h.2.1 hc.right hz.2.2
    exact absurd (reducible_constants fun hg => hz.1 ⟨hg.1, by rw [hg.2]⟩) h.2.2

theorem Normal.eq_int (h : Normal e) (hc : Closed e) (hv : e.eval (meaning args) = .ok value) :
    e = int value := by
  obtain ⟨x, rfl⟩ := h.constant hc fun hz => hz.eval_ne hv
  obtain rfl := Except.ok.inj hv
  rfl

/-- The optimizer would have folded what two negations negate. -/
theorem Closed.not_signLost (hc : Closed e) (hn : ChildrenNormal e) : ¬ SignLost args e := by
  rintro ⟨⟨x, rfl⟩, value, hv, -⟩
  obtain ⟨y, hy, -⟩ := bind_ok.mp hv
  have hint := Normal.eq_int hn hc hy
  cases hint

end

-- ---------------------------------------------------------------------------
-- Optimized arrays
-- ---------------------------------------------------------------------------

section
variable {ast ast' : Ast} {args : List Long} {value : Long}

/-- The optimizer leaves no subtree without variables but constants and what
divides by the constant 0. -/
theorem optimize_constantSubtrees (ht : ast.view.TreeAt ast.rootNodeIndex)
    (ho : optimize ast = .ok ast') :
    ∃ t, Holds ast'.view t ∧ t.slot = ast'.rootNodeIndex ∧ ∀ u ∈ t.subtrees,
      Closed u.erase → (∃ value, u.erase = int value) ∨ DividesByZero u.erase := by
  obtain ⟨t, h, hs, hn⟩ := Ast.exists_tree ht
  obtain ⟨t', visited, hu, hr⟩ := optimize_ok_run h hn hs ho
  refine ⟨t', hu.holds, hu.root hs, fun u hsub hc => ?_⟩
  rw [or_iff_not_imp_right]
  exact (hr.normal.subtree hsub).constant hc

theorem optimize_constantSubtrees_sumAst : ∃ ast', optimize sumAst = .ok ast' ∧
    ∃ t, Holds ast'.view t ∧ t.slot = ast'.rootNodeIndex ∧ ∀ u ∈ t.subtrees,
      Closed u.erase → (∃ value, u.erase = int value) ∨ DividesByZero u.erase := by
  have hok : (optimize sumAst).isOk = true := by decide
  cases ho : optimize sumAst with
  | error f => simp [ho, Except.isOk, Except.toBool] at hok
  | ok ast' => exact ⟨ast', rfl, optimize_constantSubtrees sumAst_treeAt ho⟩

/-- Without a variable the optimizer is an interpreter: of a tree that has a value
it leaves that value, and it does not trap. -/
theorem optimize_value (ht : ast.view.TreeAt ast.rootNodeIndex)
    (hvars : ∀ i a, ast.view.Reaches ast.rootNodeIndex i → ast.view i ≠ some (.leaf (.var a)))
    (hv : astEval ast args = .ok value) :
    ∃ ast', optimize ast = .ok ast' ∧
      ast'.view ast'.rootNodeIndex = some (.leaf (.int value)) := by
  obtain ⟨t, h, hs, hn⟩ := Ast.exists_tree ht
  have hdepth := t.erase.depth_le_size.trans (size_le_nodesUsed h hn)
  rw [Ast.astEval_eq h hs hdepth] at hv
  have hclosed : Closed t.erase := by
    intro a ha
    obtain ⟨i, hi, hnode⟩ := h.mem_leaves_iff.mp ha
    exact hvars i a (hs ▸ hi) hnode
  obtain ⟨visited, result, hr, hres, -⟩ := optimize_run h hn hs
  have hsigns : ∀ x ∈ visited, ¬ SignLost args x := fun x hx =>
    (hr.visited_inherit closed_inherited hclosed x hx).not_signLost
      (hr.visited_childrenNormal x hx)
  obtain ⟨e', rfl, hv'⟩ := hr.eval hsigns hv
  generalize optimize ast = x at hres ⊢
  generalize hok : Except.ok e' = result at hres
  cases hres with
  | error f => cases hok
  | @ok ast' t' hu =>
    obtain rfl := Except.ok.inj hok
    have hconst := hr.normal.eq_int
      (closed_inherited.keeps (hr.respects varsIn_respected) hclosed) hv'
    refine ⟨ast', rfl, ?_⟩
    rw [← hu.root hs, hu.holds.root]
    cases t' <;> simp_all

/-- The parsed tree of `2 * (3 - 7)`. -/
def constantAst : Ast :=
  ⟨[⟨0, 1, .leaf (.int 2)⟩, ⟨5, 6, .leaf (.int 3)⟩, ⟨9, 10, .leaf (.int 7)⟩,
    ⟨7, 8, .bin .sub 1 2⟩, ⟨2, 3, .bin .mul 0 3⟩], 64⟩

theorem optimize_value_constantAst : ∃ ast', optimize constantAst = .ok ast' ∧
    ast'.view ast'.rootNodeIndex = some (.leaf (.int (-8))) := by
  have h : Holds constantAst.view (.bin 4 .mul (.leaf 0 (.int 2))
    (.bin 3 .sub (.leaf 1 (.int 3)) (.leaf 2 (.int 7)))) := by decide
  refine optimize_value (h.treeAt_iff_nodup.mpr (by decide)) (fun i a hi => ?_)
    (show astEval constantAst [] = .ok (-8) by decide)
  have hmem := h.reaches_iff.mp hi
  fin_cases hmem <;> simp [Ast.view, constantAst]

end

end ParserExample
