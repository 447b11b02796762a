import ParserExample.Optimizer.Chains

/-!
# The number of passes

A pass either brings the operands of a chain closer to the left, where each of
them stays, or collects constants. So a call of the loop makes a number of passes
that is linear in the size of the right operand, and the optimizer one that is
quadratic in the number of nodes.
-/

namespace ParserExample

open Library
open ParserExample.Expr (int var inv isInt)

section
variable {g g' : BinaryType} {e e' l r x y : Expr} {visited : List Expr}
  {result : Except Fault Expr}

-- ---------------------------------------------------------------------------
-- Sizes
-- ---------------------------------------------------------------------------

theorem Done.size_le (h : Done e e') : e'.size ≤ e.size := by
  cases h <;> simp only [Term.size] <;> omega

theorem Again.size_lt (h : Again e e') : e'.size < e.size := by
  cases h <;> simp only [Term.size] <;> omega

theorem Run.size_le (h : Run e visited (.ok e')) : e'.size ≤ e.size := by
  generalize hr : Except.ok e' = result at h
  induction h generalizing e' with
  | stop =>
    obtain rfl := Except.ok.inj hr
    exact le_rfl
  | trap | nestedError => cases hr
  | done h =>
    obtain rfl := Except.ok.inj hr
    exact h.size_le
  | again h _ ih => exact (ih hr).trans h.size_lt.le
  | nested h _ _ ihl ih =>
    have hl := ihl rfl
    have hn := h.lt.1
    have he := ih hr
    simp only [Term.size] at he
    omega

theorem RunRecursive.size_le (h : RunRecursive e visited (.ok e')) : e'.size ≤ e.size := by
  generalize hr : Except.ok e' = result at h
  induction h generalizing e' with
  | leaf h => exact (hr ▸ h).size_le
  | un _ h ih =>
    have hc := ih rfl
    have he := (hr ▸ h).size_le
    simp only [Term.size] at he ⊢
    omega
  | bin _ _ h ihl ihr =>
    have hl := ihl rfl
    have hr' := ihr rfl
    have he := (hr ▸ h).size_le
    simp only [Term.size] at he ⊢
    omega
  | unError | leftError | rightError => cases hr

-- ---------------------------------------------------------------------------
-- Constants to move
-- ---------------------------------------------------------------------------

/-- The constants that can be moved out of a left operand: one or none. -/
def movable (g : BinaryType) : Expr → Nat
  | .bin g' x y => if g.Chained g' ∧ (isInt x || isInt y) then 1 else 0
  | _ => 0

theorem movable_le (g : BinaryType) (e : Expr) : movable g e ≤ 1 := by
  unfold movable
  split
  · split <;> simp
  · simp

theorem movable_bin (hg : g.Chained g') (h : isInt x = true ∨ isInt y = true) :
    movable g (.bin g' x y) = 1 := if_pos ⟨hg, by simpa using h⟩

theorem movable_single (h : operands g e = [e]) : movable g e = 0 := by
  rcases e with _ | _ | ⟨g', x, y⟩
  · rfl
  · rfl
  · rw [movable, if_neg]
    rintro ⟨hg, -⟩
    have hlen := congrArg List.length h
    have hx := length_operands_pos g x
    have hy := length_operands_pos g y
    rw [operands_bin hg, List.length_append, List.length_singleton] at hlen
    omega

theorem Normal.movable_left (h : Normal (.bin g' x y)) (hg : g.Chained g')
    (hy : isInt y = true) : movable g x = 0 := by
  rcases operands_cases g x with hs | ⟨g'', x', y', hg'', rfl⟩
  · exact movable_single hs
  · obtain ⟨hy', hx'⟩ := h.inner (hg.symm.trans hg'')
    rw [hy, Bool.true_eq_false, and_false] at hx'
    rw [movable, if_neg]
    simpa [hy'] using fun _ => hx'

theorem Normal.movable_right (h : Normal (.bin g' x y)) (hg : g.Chained g') : movable g y = 0 :=
  movable_single (h.operands_right hg)

-- ---------------------------------------------------------------------------
-- The rules by the operands they need
-- ---------------------------------------------------------------------------

theorem chained_sum (hg : g.IsSum) (hg' : g'.IsSum) : g.Chained g' := .inl ⟨hg, hg'⟩

theorem chained_sumType (hg : g.IsSum) (plus : Bool) : g.Chained (sumType plus) :=
  chained_sum hg (BinaryType.isSum_sumType plus)

theorem chained_mul : BinaryType.Chained .mul .mul := .inr ⟨rfl, rfl⟩

theorem length_operands_bin (hg : g.Chained g') (l r : Expr) :
    (operands g (.bin g' l r)).length = (operands g l).length + (operands g r).length := by
  rw [operands_bin hg, List.length_append]

/-- A rule that collects two constants takes one away from the chain on the right,
or the movable one from the left operand. None is left to move. -/
theorem Again.next (h : Again (.bin g l r) e') (hl : Normal l) (hr : Normal r) :
    (∃ x, e' = inv x) ∨ ∃ g₁ l₁ r₁, e' = .bin g₁ l₁ r₁ ∧ movable g₁ l₁ = 0 ∧
      (isInt r = false ∧ (operands g r).length = (operands g₁ r₁).length + 1 ∨
        movable g l = 1 ∧ (operands g₁ r₁).length = 1) := by
  cases h with
  | zeroSub => exact .inl ⟨_, rfl⟩
  | @sumLeft _ g' a b x hg hg' =>
    refine .inr ⟨_, _, _, rfl, rfl, .inl ⟨rfl, ?_⟩⟩
    rw [length_operands_bin (chained_sum hg hg'), operands_congr (chained_sumType hg _) x]
    exact Nat.add_comm _ _
  | sumLeft' hg hg' =>
    exact .inr ⟨_, _, _, rfl, rfl, .inl ⟨rfl, length_operands_bin (chained_sum hg hg') _ _⟩⟩
  | sumRight hg hg' =>
    exact .inr ⟨_, _, _, rfl, hl.movable_left (chained_sum (.inl rfl) hg') rfl,
      .inr ⟨movable_bin (chained_sum hg hg') (.inr rfl), rfl⟩⟩
  | sumRight' hg hg' =>
    refine .inr ⟨_, _, _, rfl, rfl, .inr ⟨movable_bin (chained_sum hg hg') (.inl rfl), ?_⟩⟩
    rw [hl.operands_right (chained_sum hg' hg')]
    rfl
  | mulLeft =>
    refine .inr ⟨_, _, _, rfl, rfl, .inl ⟨rfl, ?_⟩⟩
    rw [length_operands_bin chained_mul]
    exact Nat.add_comm _ _
  | mulLeft' => exact .inr ⟨_, _, _, rfl, rfl, .inl ⟨rfl, length_operands_bin chained_mul _ _⟩⟩
  | mulRight =>
    exact .inr ⟨_, _, _, rfl, hl.movable_left chained_mul rfl,
      .inr ⟨movable_bin chained_mul (.inr rfl), rfl⟩⟩
  | mulRight' =>
    exact .inr ⟨_, _, _, rfl, hl.movable_right chained_mul,
      .inr ⟨movable_bin chained_mul (.inl rfl), rfl⟩⟩

/-- A rule that optimizes the left operand takes the last operand `r₁` off the
chain on the right, or the movable constant out of the left operand. -/
theorem Nested.next {g₁ : BinaryType} {l₁ r₁ : Expr} (h : Nested (.bin g l r) g₁ l₁ r₁)
    (hl : Normal l) (hr : Normal r) : isInt r = false ∧ ∃ x y, l₁ = .bin g x y ∧
      (x = l ∧ (operands g r).length = (operands g y).length + 1 ∧ (operands g₁ r₁).length = 1 ∨
        y = r ∧ movable g l = 1 ∧ movable g x = 0 ∧ isInt r₁ = true) := by
  cases h with
  | sumRotate hg hg' =>
    have hlast := hr.operands_right (chained_sum (g := g) hg hg')
    refine ⟨rfl, _, _, rfl, .inl ⟨rfl, ?_, ?_⟩⟩
    · rw [length_operands_bin (chained_sum hg hg'), hlast]
      rfl
    · rw [← operands_congr (chained_sumType hg _), hlast]
      rfl
  | sumOut hg hg' _ hy =>
    exact ⟨isInt_of_ne hy, _, _, rfl, .inr ⟨rfl, movable_bin (chained_sum hg hg') (.inl rfl),
      hl.movable_right (chained_sum hg hg'), rfl⟩⟩
  | sumOut' hg hg' hy =>
    exact ⟨isInt_of_ne hy, _, _, rfl, .inr ⟨rfl, movable_bin (chained_sum hg hg') (.inr rfl),
      hl.movable_left (chained_sum hg hg') rfl, rfl⟩⟩
  | mulRotate =>
    have hlast := hr.operands_right chained_mul
    refine ⟨rfl, _, _, rfl, .inl ⟨rfl, ?_, ?_⟩⟩
    · rw [length_operands_bin chained_mul, hlast]
      rfl
    · rw [hlast]
      rfl
  | mulOut hy =>
    exact ⟨isInt_of_ne hy, _, _, rfl, .inr ⟨rfl, movable_bin chained_mul (.inl rfl),
      hl.movable_right chained_mul, rfl⟩⟩
  | mulOut' hy =>
    exact ⟨isInt_of_ne hy, _, _, rfl, .inr ⟨rfl, movable_bin chained_mul (.inr rfl),
      hl.movable_left chained_mul rfl, rfl⟩⟩

-- ---------------------------------------------------------------------------
-- Passes of a run
-- ---------------------------------------------------------------------------

theorem Run.length_of_not_bin (h : Run e visited result) (he : ∀ g l r, e ≠ .bin g l r) :
    visited.length = 1 := by
  cases h with
  | stop | trap | done => rfl
  | again h => cases h <;> exact absurd rfl (he _ _ _)
  | nested h | nestedError h => cases h <;> exact absurd rfl (he _ _ _)

/-- Every operand of the chain on the right takes a bounded number of passes, and
so does the movable constant. -/
theorem Run.length_chain (h : Run (.bin g l r) visited result) (hl : Normal l) (hr : Normal r) :
    visited.length + 6 ≤ 9 * (operands g r).length + 5 * movable g l ∧
      (isInt r = true → visited.length ≤ 4) := by
  generalize he : Term.bin g l r = e at h
  have hpos := length_operands_pos g r
  induction h generalizing g l r with
  | stop | trap | done =>
    simp only [List.length_singleton]
    omega
  | @again _ e' vs result h hrun ih =>
    subst he
    simp only [List.length_cons]
    rcases h.next hl hr with ⟨x, rfl⟩ | ⟨g₁, l₁, r₁, rfl, hm, hnext⟩
    · have hone := hrun.length_of_not_bin (by simp)
      omega
    · obtain ⟨hl₁, hr₁⟩ := h.childrenNormal ⟨hl, hr⟩
      have hrest := (ih hl₁ hr₁ rfl (length_operands_pos g₁ r₁)).1
      rcases hnext with ⟨hint, hlen⟩ | ⟨hml, hlen⟩
      · simp only [hint, Bool.false_eq_true, false_implies, and_true]
        omega
      · omega
  | @nested _ g₁ l₁ l' r₁ us vs result h hleft hrun ihl ih =>
    subst he
    obtain ⟨hc, hr₁⟩ := h.childrenNormal ⟨hl, hr⟩
    obtain ⟨hint, x, y, rfl, hnext⟩ := h.next hl hr
    have hu := (ihl hc.1 hc.2 rfl (length_operands_pos g y)).1
    have hv := ih (hleft.normal hc) hr₁ rfl (length_operands_pos g₁ r₁)
    have hm := movable_le g₁ l'
    simp only [List.length_cons, List.length_append, hint, Bool.false_eq_true, false_implies,
      and_true]
    rcases hnext with ⟨rfl, hlen, hlast⟩ | ⟨rfl, hml, hmx, hconst⟩
    · omega
    · have hfour := hv.2 hconst
      omega
  | @nestedError _ g₁ l₁ r₁ us f h hleft ihl =>
    subst he
    obtain ⟨hc, hr₁⟩ := h.childrenNormal ⟨hl, hr⟩
    obtain ⟨hint, x, y, rfl, hnext⟩ := h.next hl hr
    have hu := (ihl hc.1 hc.2 rfl (length_operands_pos g y)).1
    simp only [List.length_cons, hint, Bool.false_eq_true, false_implies, and_true]
    rcases hnext with ⟨rfl, hlen, -⟩ | ⟨rfl, hml, hmx, -⟩ <;> omega

theorem Run.length_le_size (h : Run (.bin g l r) visited result) (hl : Normal l) (hr : Normal r) :
    visited.length ≤ 5 * r.size + 4 := by
  have hlen := (h.length_chain hl hr).1
  have hsize := length_operands_le g r
  have hm := movable_le g l
  omega

/-- The passes of the recursion: a node on the path to the root adds a number of
them that is linear in the size of its tree. -/
theorem RunRecursive.length_le_sq (h : RunRecursive e visited result) :
    visited.length ≤ 3 * (e.size * e.size) := by
  induction h with
  | leaf h =>
    rw [h.length_of_not_bin (by simp)]
    simp
  | un _ h ih =>
    rw [List.length_append, h.length_of_not_bin (by simp)]
    simp only [Term.size]
    nlinarith
  | unError _ ih =>
    simp only [Term.size]
    nlinarith
  | @bin g l l' r r' us vs ws result hl hr h ihl ihr =>
    have hlen := h.length_le_size hl.normal hr.normal
    have hsize := hr.size_le
    have hpos := l.size_pos
    simp only [List.length_append, Term.size]
    nlinarith
  | @leftError g l r us fault _ ihl =>
    simp only [Term.size]
    nlinarith
  | @rightError g l l' r us vs fault _ _ ihl ihr =>
    simp only [List.length_append, Term.size]
    nlinarith

end

-- ---------------------------------------------------------------------------
-- Passes of the optimizer
-- ---------------------------------------------------------------------------

theorem length_optimizeTrace_le {ast : Ast} {t : SlotTree} (h : Holds ast.view t)
    (hn : t.slots.Nodup) (hs : t.slot = ast.rootNodeIndex) :
    (optimizeTrace ast).length ≤ 3 * t.erase.size ^ 2 := by
  obtain ⟨visited, result, hr, -, htrace⟩ := optimize_run h hn hs
  rw [htrace.length_eq, sq]
  exact hr.length_le_sq

/-- The loops of `optimize` make a number of passes that is quadratic in the number
of nodes of the tree, whether it returns or traps. -/
theorem optimize_passes {ast : Ast} (ht : ast.view.TreeAt ast.rootNodeIndex) :
    (optimizeTrace ast).length ≤ 3 * {i | ast.view.Reaches ast.rootNodeIndex i}.ncard ^ 2 ∧
    {i | ast.view.Reaches ast.rootNodeIndex i}.ncard ≤ ast.nodesUsed := by
  obtain ⟨t, h, hs, hn⟩ := Ast.exists_tree ht
  have hcard : {i | ast.view.Reaches ast.rootNodeIndex i}.ncard = t.erase.size := by
    have hset : {i | ast.view.Reaches ast.rootNodeIndex i} = (t.slots.toFinset : Set Nat) := by
      ext i
      simp [← hs, h.reaches_iff]
    rw [hset, Set.ncard_coe_finset, List.toFinset_card_of_nodup hn, Tree.length_slots,
      Tree.size_erase]
  rw [hcard]
  exact ⟨length_optimizeTrace_le h hn hs, size_le_nodesUsed h hn⟩

theorem optimize_passes_sumAst : (optimizeTrace sumAst).length ≤ 75 := by
  obtain ⟨hlen, hcard⟩ := optimize_passes sumAst_treeAt
  exact hlen.trans (Nat.mul_le_mul_left 3 (Nat.pow_le_pow_left hcard 2))

end ParserExample
