import ParserExample.Bytecode.Compiler
import ParserExample.Optimizer.Refinement

/-!
# The size of an optimized program

No rule makes the code of an expression longer or the stack that the code needs
higher. The height of the stack depends on the shape of the expression: a right
operand is computed on top of the value of the left one. So the two are compared
at every height at which the code can start (`Smaller`), which makes the
comparison one that holds inside a larger expression too.
-/

namespace ParserExample

open Library
open ParserExample.Expr (int var inv)

-- ---------------------------------------------------------------------------
-- The size of the code
-- ---------------------------------------------------------------------------

def codeSize (e : Expr) : Nat := (encode e.code).length

section
variable {e l r x y z : Expr} {g g' g'' g₁ : BinaryType} {a b : Leaf}

@[simp] theorem codeSize_leaf (a : Leaf) : codeSize (.leaf a) = 2 * wordSize := by
  cases a <;> rfl

@[simp] theorem codeSize_un (f : Unit) (e : Expr) : codeSize (.un f e) = codeSize e + wordSize := by
  simp [codeSize, Term.code, Instruction.encode, Instruction.operand]

@[simp] theorem codeSize_bin (g : BinaryType) (l r : Expr) :
    codeSize (.bin g l r) = codeSize l + codeSize r + wordSize := by
  simp [codeSize, Term.code, Instruction.encode, Instruction.operand, Nat.add_assoc]

/-- The longest instruction has two words. -/
theorem codeSize_le (e : Expr) : codeSize e ≤ 2 * wordSize * e.size := by
  induction e with
  | leaf a => simp
  | un f e ih =>
    simp only [codeSize_un, Term.size]
    linarith
  | bin g l r ihl ihr =>
    simp only [codeSize_bin, Term.size]
    linarith

theorem two_words_le_codeSize (e : Expr) : 2 * wordSize ≤ codeSize e := by
  induction e with
  | leaf a => simp
  | un f e ih =>
    simp only [codeSize_un]
    linarith
  | bin g l r ihl ihr =>
    simp only [codeSize_bin]
    linarith

theorem length_program (e : Expr) : (program e).length = codeSize e + 2 * wordSize := by
  simp [program, codeSize]
  ring

-- ---------------------------------------------------------------------------
-- Smaller expressions
-- ---------------------------------------------------------------------------

/-- The code is no longer and, started at any height, climbs no higher. -/
structure Smaller (e' e : Expr) : Prop where
  codeSize : codeSize e' ≤ codeSize e
  height : ∀ h, e'.height h ≤ e.height h

namespace Smaller

theorem refl (e : Expr) : Smaller e e := ⟨le_rfl, fun _ => le_rfl⟩

theorem trans {e₁ e₂ e₃ : Expr} (h : Smaller e₁ e₂) (h' : Smaller e₂ e₃) : Smaller e₁ e₃ :=
  ⟨h.codeSize.trans h'.codeSize, fun n => (h.height n).trans (h'.height n)⟩

theorem un {f : Unit} {e' : Expr} (h : Smaller e' e) : Smaller (.un f e') (.un f e) :=
  ⟨by simpa using h.codeSize, h.height⟩

theorem bin {l' r' : Expr} (hl : Smaller l' l) (hr : Smaller r' r) :
    Smaller (.bin g' l' r') (.bin g l r) :=
  ⟨by simpa using Nat.add_le_add hl.codeSize hr.codeSize,
    fun h => max_le_max (hl.height h) (hr.height (h + 1))⟩

theorem leaf (a : Leaf) (e : Expr) : Smaller (.leaf a) e :=
  ⟨by simpa using two_words_le_codeSize e, fun h => e.lt_height h⟩

theorem child {f : Unit} : Smaller e (.un f e) := ⟨by simp, fun _ => le_rfl⟩

theorem left : Smaller l (.bin g l r) :=
  ⟨by simp [Nat.add_assoc], fun _ => le_max_left _ _⟩

/-- The right operand has the cell of the left one to itself. -/
theorem right : Smaller r (.bin g l r) := by
  refine ⟨by simp [Nat.add_right_comm], fun h => ?_⟩
  exact (r.height_mono h.le_succ).trans (le_max_right _ _)

/-- The difference between a constant and an operand becomes a negation. -/
theorem neg {f : Unit} : Smaller (.un f r) (.bin g l r) := by
  have hr : Smaller r (.bin g l r) := right
  refine ⟨?_, hr.height⟩
  simp only [codeSize_un, codeSize_bin]
  linarith

/-- The last operand is computed one cell further down. -/
theorem rotate : Smaller (.bin g (.bin g' x y) z) (.bin g'' x (.bin g₁ y z)) := by
  refine ⟨?_, fun h => ?_⟩
  · simp only [codeSize_bin]
    linarith
  · have hz := z.height_mono (h + 1).le_succ
    simp only [Term.height, max_le_iff]
    exact ⟨⟨le_max_left _ _, le_max_of_le_right (le_max_left _ _)⟩,
      le_max_of_le_right (le_max_of_le_right hz)⟩

/-- The constant needs the two cells that the last operand needs as well. -/
theorem outLeft : Smaller (.bin g (.bin g' x y) (.leaf a)) (.bin g'' (.bin g₁ (.leaf b) x) y) := by
  refine ⟨?_, fun h => ?_⟩
  · simp only [codeSize_bin, codeSize_leaf]
    linarith
  · have hx := x.height_mono h.le_succ
    have hy := y.lt_height (h + 1)
    simp only [Term.height, max_le_iff]
    exact ⟨⟨le_max_of_le_left (le_max_of_le_right hx), le_max_right _ _⟩, le_max_of_le_right hy⟩

theorem outRight : Smaller (.bin g (.bin g' x y) (.leaf a)) (.bin g'' (.bin g₁ x (.leaf b)) y) := by
  refine ⟨?_, fun h => ?_⟩
  · simp only [codeSize_bin, codeSize_leaf]
    linarith
  · simp only [Term.height, max_le_iff]
    exact ⟨⟨le_max_of_le_left (le_max_left _ _), le_max_right _ _⟩,
      le_max_of_le_left (le_max_right _ _)⟩

end Smaller

-- ---------------------------------------------------------------------------
-- Rules and runs
-- ---------------------------------------------------------------------------

theorem Done.smaller {e e' : Expr} (h : Done e e') : Smaller e' e := by
  cases h with
  | fold | subSelf | zeroProduct | mulZero | divSelf | invInt => exact .leaf _ _
  | zeroAdd | oneMul => exact .right
  | sumZero | mulOne => exact .left
  | invInv => exact .child

theorem Again.smaller {e e' : Expr} (h : Again e e') : Smaller e' e := by
  cases h with
  | zeroSub => exact .neg
  | sumLeft | mulLeft => exact .bin (.leaf _ _) .right
  | sumLeft' | mulLeft' => exact .bin (.leaf _ _) .left
  | sumRight | mulRight => exact .bin .left (.leaf _ _)
  | sumRight' => exact .trans (.bin (.leaf _ _) (.refl _)) .left
  | mulRight' => exact .bin .right (.leaf _ _)

theorem Nested.smaller {e : Expr} (h : Nested e g l r) : Smaller (.bin g l r) e := by
  cases h with
  | sumRotate | mulRotate => exact .rotate
  | sumOut | mulOut => exact .outLeft
  | sumOut' | mulOut' => exact .outRight

theorem smaller_respected : Respected Smaller where
  refl := Smaller.refl
  trans := Smaller.trans
  un := Smaller.un
  bin := Smaller.bin
  done := Done.smaller
  again := Again.smaller
  nested := Nested.smaller

end

/-- A node has 40 bytes in the tree, and at most 16 in the program. -/
theorem length_program_le {ast : Ast} {t : SlotTree} (h : Holds ast.view t) (hn : t.slots.Nodup)
    (hsize : ast.nodesUsed * astNodeSize ≤ sizeMax) : (program t.erase).length ≤ sizeMax / 2 := by
  have hcode := codeSize_le t.erase
  have hnodes := size_le_nodesUsed h hn
  rw [length_program]
  unfold sizeMax astNodeSize wordSize at *
  omega

theorem optimize_smaller {ast ast' : Ast} {t : SlotTree} (h : Holds ast.view t)
    (hn : t.slots.Nodup) (hs : t.slot = ast.rootNodeIndex) (ho : optimize ast = .ok ast') :
    ∃ t', Updates ast t ast' t' ∧ Smaller t'.erase t.erase := by
  obtain ⟨visited, result, hr, hres, -⟩ := optimize_run h hn hs
  rw [ho] at hres
  cases hres with
  | ok hu => exact ⟨_, hu, hr.respects smaller_respected⟩

theorem Smaller.program {e' e : Expr} (h : Smaller e' e) :
    (ParserExample.program e').length ≤ (ParserExample.program e).length := by
  rw [length_program, length_program]
  exact Nat.add_le_add_right h.codeSize _

end ParserExample
