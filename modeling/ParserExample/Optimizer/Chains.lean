import ParserExample.Optimizer.NormalForm

/-!
# Chains of sums and products

The rotations bring nested sums, and nested products, into chains that hang to
the left, and the other rules collect the constants of a chain. A normal
product has one constant at most. A normal sum has two at most: `1 - x` keeps
its constant when more operands follow.
-/

namespace ParserExample

open Library
open ParserExample.Expr (int var inv isInt)

instance : DecidablePred BinaryType.IsSum := fun g =>
  inferInstanceAs (Decidable (g = .add ∨ g = .sub))

/-- The operators that rotations bring together: those of sums, and the
multiplication. -/
def BinaryType.Chained (g g' : BinaryType) : Prop := (g.IsSum ∧ g'.IsSum) ∨ (g = .mul ∧ g' = .mul)

instance (g g' : BinaryType) : Decidable (g.Chained g') :=
  inferInstanceAs (Decidable ((g.IsSum ∧ g'.IsSum) ∨ (g = .mul ∧ g' = .mul)))

namespace BinaryType

variable {g g' g'' : BinaryType}

theorem Chained.symm (h : g.Chained g') : g'.Chained g := h.imp And.symm And.symm

theorem Chained.trans (h : g.Chained g') (h' : g'.Chained g'') : g.Chained g'' := by
  rcases h with ⟨hg, hg'⟩ | ⟨rfl, rfl⟩
  · rcases h' with ⟨-, hg''⟩ | ⟨rfl, -⟩
    · exact .inl ⟨hg, hg''⟩
    · rcases hg' with hg' | hg' <;> cases hg'
  · exact h'

theorem Chained.left_iff (h : g.Chained g') : g.Chained g'' ↔ g'.Chained g'' :=
  ⟨h.symm.trans, h.trans⟩

theorem isSum_sumType (plus : Bool) : (sumType plus).IsSum := by
  cases plus
  · exact .inr rfl
  · exact .inl rfl

end BinaryType

def operands (g : BinaryType) : Expr → List Expr
  | .bin g' l r => if g.Chained g' then operands g l ++ operands g r else [.bin g' l r]
  | e => [e]

section
variable {g g' : BinaryType} {e l r x y z : Expr} {a b : Long}

@[simp] theorem operands_leaf (a : Leaf) : operands g (.leaf a) = [.leaf a] := rfl

@[simp] theorem operands_un (f : Unit) : operands g (.un f e) = [.un f e] := rfl

theorem operands_bin (h : g.Chained g') (l r : Expr) :
    operands g (.bin g' l r) = operands g l ++ operands g r := if_pos h

theorem operands_congr (h : g.Chained g') (e : Expr) : operands g e = operands g' e := by
  induction e with
  | leaf a => rfl
  | un f e ih => rfl
  | bin g'' l r ihl ihr => rw [operands, operands, ihl, ihr, if_congr h.left_iff rfl rfl]

theorem length_operands_pos (g : BinaryType) (e : Expr) : 0 < (operands g e).length := by
  induction e with
  | leaf a => exact Nat.one_pos
  | un f e ih => exact Nat.one_pos
  | bin g' l r ihl ihr =>
    rw [operands]
    split
    · rw [List.length_append]
      omega
    · exact Nat.one_pos

/-- Between two operands there is an operator. -/
theorem length_operands_le (g : BinaryType) (e : Expr) :
    2 * (operands g e).length ≤ e.size + 1 := by
  induction e with
  | leaf a => exact le_rfl
  | un f e ih =>
    have := e.size_pos
    simp only [operands_un, List.length_singleton, Term.size]
    omega
  | bin g' l r ihl ihr =>
    rw [operands]
    split
    · simp only [List.length_append, Term.size]
      omega
    · simp only [List.length_singleton, Term.size]
      omega

-- ---------------------------------------------------------------------------
-- The rules of a chain
-- ---------------------------------------------------------------------------

theorem Nested.rotate (h : g.Chained g') (x y z : Expr) :
    ∃ g'', Nested (.bin g x (.bin g' y z)) g'' (.bin g x y) z := by
  rcases h with ⟨hg, hg'⟩ | ⟨rfl, rfl⟩
  · exact ⟨_, .sumRotate hg hg'⟩
  · exact ⟨_, .mulRotate⟩

theorem Again.collect (h : g.Chained g') (x : Expr) (a b : Long) :
    (∃ e', Again (.bin g (.bin g' x (int a)) (int b)) e') ∧
      ∃ e', Again (.bin g (.bin g' (int a) x) (int b)) e' := by
  rcases h with ⟨hg, hg'⟩ | ⟨rfl, rfl⟩
  · exact ⟨⟨_, .sumRight hg hg'⟩, _, .sumRight' hg hg'⟩
  · exact ⟨⟨_, .mulRight⟩, _, .mulRight'⟩

/-- A constant is moved out of the left operand, unless it is subtracted from. -/
theorem Nested.moveOut (h : g.Chained g') (a : Long) (x : Expr) (hy : ∀ b, y ≠ int b) :
    (∃ g'' l r, Nested (.bin g (.bin g' x (int a)) y) g'' l r) ∧
      (g' ≠ .sub → ∃ g'' l r, Nested (.bin g (.bin g' (int a) x) y) g'' l r) := by
  rcases h with ⟨hg, hg'⟩ | ⟨rfl, rfl⟩
  · exact ⟨⟨_, _, _, .sumOut' hg hg' hy⟩,
      fun hne => ⟨_, _, _, .sumOut hg hg' (.inl (hg'.resolve_right hne)) hy⟩⟩
  · exact ⟨⟨_, _, _, .mulOut' hy⟩, fun _ => ⟨_, _, _, .mulOut hy⟩⟩

-- ---------------------------------------------------------------------------
-- Normal chains
-- ---------------------------------------------------------------------------

theorem Normal.operands_right (h : Normal (.bin g' l r)) (hg : g.Chained g') :
    operands g r = [r] := by
  rcases r with _ | _ | ⟨g'', y, z⟩
  · rfl
  · rfl
  · rw [operands, if_neg]
    intro hg''
    obtain ⟨g₁, hrotate⟩ := Nested.rotate (hg.symm.trans hg'') l y z
    exact h.2.2 (.inr (.inr (.inl ⟨_, _, _, hrotate⟩)))

theorem Normal.operands_bin (h : Normal (.bin g' l r)) (hg : g.Chained g') :
    operands g (.bin g' l r) = operands g l ++ [r] := by
  rw [ParserExample.operands_bin hg, h.operands_right hg]

theorem isInt_iff : isInt e = true ↔ ∃ a, e = int a := by
  rcases e with (a | _) | _ | _ <;> simp [isInt]

theorem isInt_of_ne (h : ∀ b, e ≠ int b) : isInt e = false := by
  rw [Bool.eq_false_iff, ne_eq, isInt_iff]
  rintro ⟨b, hb⟩
  exact h b hb

/-- Of two chained operators, the inner one has no constant on its right, and one
on its left only if it subtracts from it in front of another operand. -/
theorem Normal.inner (h : Normal (.bin g (.bin g' x y) z)) (hg : g.Chained g') :
    isInt y = false ∧ (isInt x = true → g' = .sub ∧ isInt z = false) := by
  constructor
  · rw [Bool.eq_false_iff, ne_eq, isInt_iff]
    rintro ⟨a, rfl⟩
    by_cases hz : isInt z = true
    · obtain ⟨b, rfl⟩ := isInt_iff.mp hz
      exact h.2.2 (.inr (.inl (Again.collect hg x a b).1))
    · exact h.2.2 (.inr (.inr (.inl (Nested.moveOut hg a x (Expr.ne_int (by simpa using hz))).1)))
  · rw [isInt_iff]
    rintro ⟨a, rfl⟩
    by_cases hz : isInt z = true
    · obtain ⟨b, rfl⟩ := isInt_iff.mp hz
      exact absurd (.inr (.inl (Again.collect hg y a b).2)) h.2.2
    · rw [Bool.not_eq_true] at hz
      refine ⟨by_contra fun hne => h.2.2 (.inr (.inr (.inl ?_))), hz⟩
      exact (Nested.moveOut hg a y (Expr.ne_int hz)).2 hne

theorem Normal.not_both (h : Normal (.bin g' l r)) (hg : g.Chained g') (hl : isInt l = true) :
    isInt r = false := by
  rw [Bool.eq_false_iff, ne_eq, isInt_iff]
  obtain ⟨a, rfl⟩ := isInt_iff.mp hl
  rintro ⟨b, rfl⟩
  refine h.2.2 (Reducible.fold ?_)
  rintro rfl
  rcases hg with ⟨-, hg | hg⟩ | ⟨-, hg⟩ <;> cases hg

-- ---------------------------------------------------------------------------
-- The constants of a chain
-- ---------------------------------------------------------------------------

def constants (g : BinaryType) (e : Expr) : Nat := (operands g e).countP isInt

def minuend (g : BinaryType) : Expr → Bool
  | .bin g' l _ => decide (g.Chained g') && (g' == .sub && isInt l || minuend g l)
  | _ => false

theorem minuend_bin (h : g.Chained g') (l r : Expr) :
    minuend g (.bin g' l r) = (g' == .sub && isInt l || minuend g l) := by
  simp [minuend, h]

theorem minuend_mul (e : Expr) : minuend .mul e = false := by
  induction e with
  | bin g' l r ihl ihr =>
    rw [minuend, ihl, Bool.or_false]
    cases g' <;> rfl
  | _ => rfl

theorem countP_single (e : Expr) : [e].countP isInt = (isInt e).toNat := by
  cases h : isInt e <;> simp [h]

theorem constants_single (h : operands g e = [e]) : constants g e = (isInt e).toNat := by
  rw [constants, h, countP_single]

theorem Normal.constants_bin (h : Normal (.bin g' l r)) (hg : g.Chained g') :
    constants g (.bin g' l r) = constants g l + (isInt r).toNat := by
  rw [constants, h.operands_bin hg, List.countP_append, constants, countP_single]

theorem operands_cases (g : BinaryType) (e : Expr) :
    operands g e = [e] ∨ ∃ g' l r, g.Chained g' ∧ e = .bin g' l r := by
  rcases e with a | ⟨f, e⟩ | ⟨g', l, r⟩
  · exact .inl rfl
  · exact .inl rfl
  · by_cases hg : g.Chained g'
    · exact .inr ⟨g', l, r, hg, rfl⟩
    · exact .inl (if_neg hg)

/-- Without a constant at its end, a normal chain has the one it subtracts from. -/
theorem Normal.constants_open (h : Normal (.bin g' l r)) (hg : g.Chained g')
    (hl : isInt l = false) (hr : isInt r = false) :
    constants g (.bin g' l r) ≤ (minuend g (.bin g' l r)).toNat := by
  induction l generalizing g' r with
  | bin g'' l' r' ihl =>
    rw [h.constants_bin hg, hr, minuend_bin hg, hl, Bool.and_false, Bool.false_or]
    by_cases hg'' : g.Chained g''
    · obtain ⟨hr', hl'⟩ := h.inner (hg.symm.trans hg'')
      cases hint : isInt l' with
      | true =>
        obtain ⟨rfl, -⟩ := hl' hint
        rw [h.1.constants_bin hg'', hr', minuend_bin hg'', hint]
        obtain ⟨a, rfl⟩ := isInt_iff.mp hint
        simp [constants]
      | false => exact ihl h.1 hg'' hint hr'
    · have hs : operands g (.bin g'' l' r') = [.bin g'' l' r'] := if_neg hg''
      rw [constants_single hs, hl]
      exact Nat.zero_le _
  | leaf a | un f e =>
    rw [h.constants_bin hg, hr, constants_single rfl, hl]
    exact Nat.zero_le _

/-- The constants of a normal chain are collected in one, next to one that the
chain subtracts from. -/
theorem Normal.constants_le (h : Normal e) (g : BinaryType) :
    constants g e ≤ 1 + (minuend g e).toNat := by
  rcases operands_cases g e with hs | ⟨g', l, r, hg, rfl⟩
  · rw [constants_single hs]
    cases isInt e <;> simp
  · cases hl : isInt l with
    | true =>
      obtain ⟨a, rfl⟩ := isInt_iff.mp hl
      rw [h.constants_bin hg, h.not_both hg hl]
      simp [constants]
    | false =>
      cases hr : isInt r with
      | false => exact (h.constants_open hg hl hr).trans (Nat.le_add_left _ _)
      | true =>
        rw [h.constants_bin hg, hr, minuend_bin hg, hl, Bool.and_false, Bool.false_or]
        rcases operands_cases g l with hs | ⟨g'', l', r', hg'', rfl⟩
        · rw [constants_single hs, hl]
          simp
        · obtain ⟨hr', hl'⟩ := h.inner (hg.symm.trans hg'')
          have hint : isInt l' = false := by simpa [hr] using hl'
          have hopen := h.1.constants_open hg'' hint hr'
          simp only [Bool.toNat_true]
          omega

end

-- ---------------------------------------------------------------------------
-- Optimized arrays
-- ---------------------------------------------------------------------------

section
variable {ast ast' : Ast} {t : SlotTree}

theorem Normal.subtree {t u : SlotTree} (h : Normal t.erase) (hu : u ∈ t.subtrees) :
    Normal u.erase :=
  normal_iff_subtrees.mpr fun _ hv => h.not_reducible (Tree.subtrees_trans hv hu)

theorem optimize_ok_run (h : Holds ast.view t) (hn : t.slots.Nodup) (hs : t.slot = ast.rootNodeIndex)
    (ho : optimize ast = .ok ast') :
    ∃ t' visited, Updates ast t ast' t' ∧ RunRecursive t.erase visited (.ok t'.erase) := by
  obtain ⟨visited, result, hr, hres, -⟩ := optimize_run h hn hs
  rw [ho] at hres
  cases hres with
  | @ok _ t' hu => exact ⟨t', visited, hu, hr⟩

/-- The optimizer collects the constants of every chain. A product is left with
one at most, and a sum with two at most, of which the first is one that another
operand is subtracted from. -/
theorem optimize_constants (ht : ast.view.TreeAt ast.rootNodeIndex) (ho : optimize ast = .ok ast') :
    ∃ t, Holds ast'.view t ∧ t.slot = ast'.rootNodeIndex ∧ ∀ u ∈ t.subtrees,
      constants .mul u.erase ≤ 1 ∧ constants .add u.erase ≤ 2 ∧
      (minuend .add u.erase = false → constants .add u.erase ≤ 1) := by
  obtain ⟨t, h, hs, hn⟩ := Ast.exists_tree ht
  obtain ⟨t', visited, hu, hr⟩ := optimize_ok_run h hn hs ho
  refine ⟨t', hu.holds, hu.root hs, fun u hsub => ?_⟩
  have hnormal : Normal u.erase := hr.normal.subtree hsub
  have hmul := hnormal.constants_le .mul
  have hadd := hnormal.constants_le .add
  rw [minuend_mul] at hmul
  refine ⟨hmul, hadd.trans ?_, fun hm => ?_⟩
  · cases minuend .add u.erase <;> decide
  · rwa [hm] at hadd

theorem optimize_constants_sumAst :
    ∃ ast', optimize sumAst = .ok ast' ∧ ∃ t, Holds ast'.view t ∧ t.slot = ast'.rootNodeIndex ∧
      ∀ u ∈ t.subtrees, constants .mul u.erase ≤ 1 ∧ constants .add u.erase ≤ 2 ∧
        (minuend .add u.erase = false → constants .add u.erase ≤ 1) := by
  have hok : (optimize sumAst).isOk = true := by decide
  cases ho : optimize sumAst with
  | error f => simp [ho, Except.isOk, Except.toBool] at hok
  | ok ast' => exact ⟨ast', rfl, optimize_constants sumAst_treeAt ho⟩

end

end ParserExample
