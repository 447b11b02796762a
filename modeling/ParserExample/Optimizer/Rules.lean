import ParserExample.Optimizer

/-!
# The rewrite rules

What a pass of the optimizer does to the expression below a node, with the
array left out. A rule of `Done` ends the loop, one of `Again` continues it,
and one of `Nested` first optimizes the left operand it has put together.
-/

namespace ParserExample

open Library

namespace BinaryType

def IsSum (g : BinaryType) : Prop := g = .add ∨ g = .sub

def IsProduct (g : BinaryType) : Prop := g = .mul ∨ g = .div

end BinaryType

open ParserExample.Expr (int var inv)

inductive Done : Expr → Expr → Prop
  | fold {g a b value} (h : g.apply a b = .ok value) : Done (.bin g (int a) (int b)) (int value)
  | zeroAdd {r} : Done (.bin .add (int 0) r) r
  | sumZero {g l} (hg : g.IsSum) : Done (.bin g l (int 0)) l
  | subSelf {a} : Done (.bin .sub (var a) (var a)) (int 0)
  | zeroProduct {g r} (hg : g.IsProduct) : Done (.bin g (int 0) r) (int 0)
  | mulZero {l} : Done (.bin .mul l (int 0)) (int 0)
  | mulOne {l} : Done (.bin .mul l (int 1)) l
  | oneMul {r} : Done (.bin .mul (int 1) r) r
  | divSelf {a} : Done (.bin .div (var a) (var a)) (int 1)
  | invInt {value} : Done (inv (int value)) (int (-value))
  /-- One of the two negations is dropped. -/
  | invInv {e} : Done (inv (inv e)) (inv e)

inductive Again : Expr → Expr → Prop
  | zeroSub {r} : Again (.bin .sub (int 0) r) (inv r)
  | sumLeft {g g' a b x} (hg : g.IsSum) (hg' : g'.IsSum) :
      Again (.bin g (int a) (.bin g' (int b) x))
        (.bin (sumType (g' == g)) (int (addOrSub (g == .add) a b)) x)
  | sumLeft' {g g' a b x} (hg : g.IsSum) (hg' : g'.IsSum) :
      Again (.bin g (int a) (.bin g' x (int b))) (.bin g (int (addOrSub (g' == g) a b)) x)
  | sumRight {g g' a b x} (hg : g.IsSum) (hg' : g'.IsSum) :
      Again (.bin g (.bin g' x (int a)) (int b))
        (.bin .add x (int (addOrSub (g == .add) (if g' == .sub then -a else a) b)))
  | sumRight' {g g' a b x} (hg : g.IsSum) (hg' : g'.IsSum) :
      Again (.bin g (.bin g' (int a) x) (int b)) (.bin g' (int (addOrSub (g == .add) a b)) x)
  | mulLeft {a b x} : Again (.bin .mul (int a) (.bin .mul (int b) x)) (.bin .mul (int (a * b)) x)
  | mulLeft' {a b x} :
      Again (.bin .mul (int a) (.bin .mul x (int b))) (.bin .mul (int (a * b)) x)
  | mulRight {a b x} :
      Again (.bin .mul (.bin .mul x (int a)) (int b)) (.bin .mul x (int (a * b)))
  | mulRight' {a b x} :
      Again (.bin .mul (.bin .mul (int a) x) (int b)) (.bin .mul x (int (a * b)))

/-- `Nested e g l r`: the expression becomes `.bin g l r`, and `l` is optimized. -/
inductive Nested : Expr → BinaryType → Expr → Expr → Prop
  | sumRotate {g g' x y z} (hg : g.IsSum) (hg' : g'.IsSum) :
      Nested (.bin g x (.bin g' y z)) (sumType (if g == .add then g' == .add else !g' == .add))
        (.bin g x y) z
  /-- With two constants in a difference this would be wrong; such a left operand
  has been folded before. -/
  | sumOut {g g' a x y} (hg : g.IsSum) (hg' : g'.IsSum) (hx : g' = .add ∨ ∃ b, x = int b)
      (hy : ∀ b, y ≠ int b) : Nested (.bin g (.bin g' (int a) x) y) .add (.bin g x y) (int a)
  | sumOut' {g g' a x y} (hg : g.IsSum) (hg' : g'.IsSum) (hy : ∀ b, y ≠ int b) :
      Nested (.bin g (.bin g' x (int a)) y) g' (.bin g x y) (int a)
  | mulRotate {x y z} : Nested (.bin .mul x (.bin .mul y z)) .mul (.bin .mul x y) z
  | mulOut {a x y} (hy : ∀ b, y ≠ int b) :
      Nested (.bin .mul (.bin .mul (int a) x) y) .mul (.bin .mul x y) (int a)
  | mulOut' {a x y} (hy : ∀ b, y ≠ int b) :
      Nested (.bin .mul (.bin .mul x (int a)) y) .mul (.bin .mul x y) (int a)

/-- The division the optimizer must not carry out, and does. -/
def Traps (e : Expr) : Prop := e = .bin .div (int longMin) (int (-1))

def Reducible (e : Expr) : Prop :=
  (∃ e', Done e e') ∨ (∃ e', Again e e') ∨ (∃ g l r, Nested e g l r) ∨ Traps e

def Normal : Expr → Prop
  | .leaf _ => True
  | .un f t => Normal t ∧ ¬ Reducible (.un f t)
  | .bin g l r => Normal l ∧ Normal r ∧ ¬ Reducible (.bin g l r)

def ChildrenNormal : Expr → Prop
  | .leaf _ => True
  | .un _ t => Normal t
  | .bin _ l r => Normal l ∧ Normal r

-- ---------------------------------------------------------------------------
-- Normal forms
-- ---------------------------------------------------------------------------

section
variable {e e' l r : Expr} {g : BinaryType}

theorem not_reducible_leaf (a : Leaf) : ¬ Reducible (.leaf a) := by
  rintro (⟨_, h⟩ | ⟨_, h⟩ | ⟨_, _, _, h⟩ | h)
  · cases h
  · cases h
  · cases h
  · simp [Traps] at h

theorem not_reducible_inv (hint : ∀ value, e ≠ int value) (hinv : ∀ x, e ≠ inv x) :
    ¬ Reducible (inv e) := by
  rintro (⟨_, h⟩ | ⟨_, h⟩ | ⟨_, _, _, h⟩ | h)
  · cases h with
    | invInt => exact hint _ rfl
    | invInv => exact hinv _ rfl
  · cases h
  · cases h
  · simp [Traps] at h

theorem normal_iff : Normal e ↔ ChildrenNormal e ∧ ¬ Reducible e := by
  cases e with
  | leaf a => simp [Normal, ChildrenNormal, not_reducible_leaf]
  | un f t => rfl
  | bin g l r => simp [Normal, ChildrenNormal, and_assoc]

theorem Normal.children (h : Normal e) : ChildrenNormal e := (normal_iff.mp h).1

theorem Done.normal (h : Done e e') (hn : ChildrenNormal e) : Normal e' := by
  cases h with
  | zeroAdd => exact hn.2
  | sumZero => exact hn.1
  | mulOne => exact hn.1
  | oneMul => exact hn.2
  | invInv => exact hn
  | _ => trivial

theorem Again.childrenNormal (h : Again e e') (hn : ChildrenNormal e) : ChildrenNormal e' := by
  cases h with
  | zeroSub => exact hn.2
  | sumLeft => exact ⟨trivial, hn.2.children.2⟩
  | sumLeft' => exact ⟨trivial, hn.2.children.1⟩
  | sumRight => exact ⟨hn.1.children.1, trivial⟩
  | sumRight' => exact ⟨trivial, hn.1.children.2⟩
  | mulLeft => exact ⟨trivial, hn.2.children.2⟩
  | mulLeft' => exact ⟨trivial, hn.2.children.1⟩
  | mulRight => exact ⟨hn.1.children.1, trivial⟩
  | mulRight' => exact ⟨hn.1.children.2, trivial⟩

theorem Nested.childrenNormal (h : Nested e g l r) (hn : ChildrenNormal e) :
    ChildrenNormal l ∧ Normal r := by
  cases h with
  | sumRotate => exact ⟨⟨hn.1, hn.2.children.1⟩, hn.2.children.2⟩
  | sumOut => exact ⟨⟨hn.1.children.2, hn.2⟩, trivial⟩
  | sumOut' => exact ⟨⟨hn.1.children.1, hn.2⟩, trivial⟩
  | mulRotate => exact ⟨⟨hn.1, hn.2.children.1⟩, hn.2.children.2⟩
  | mulOut => exact ⟨⟨hn.1.children.2, hn.2⟩, trivial⟩
  | mulOut' => exact ⟨⟨hn.1.children.1, hn.2⟩, trivial⟩

/-- Two constants are folded, except in a division by 0. -/
theorem Reducible.fold {g : BinaryType} {a b : Long} (hg : g ≠ .div) :
    Reducible (.bin g (int a) (int b)) := by
  cases g with
  | div => exact absurd rfl hg
  | _ => exact .inl ⟨_, .fold rfl⟩

end

-- ---------------------------------------------------------------------------
-- Values
-- ---------------------------------------------------------------------------

variable {e e' l r : Expr} {g : BinaryType} {args : List Long} {value : Long}

theorem BinaryType.IsSum.apply (h : g.IsSum) (x y : Long) :
    g.apply x y = .ok (addOrSub (g == .add) x y) := by
  rcases h with rfl | rfl <;> rfl

theorem sumType_apply (plus : Bool) (x y : Long) :
    (sumType plus).apply x y = .ok (addOrSub plus x y) := by
  cases plus <;> rfl

/-- A rule that continues the loop keeps the value, and every failure. -/
theorem Again.eval (h : Again e e') : e'.eval (meaning args) = e.eval (meaning args) := by
  cases h with
  | zeroSub =>
    simp only [Term.eval, meaning_int, meaning_bin, ok_bind]
    refine bind_congr fun y => ?_
    simp [BinaryType.apply]
  | sumLeft hg hg' =>
    simp only [Term.eval, meaning_int, meaning_bin, ok_bind, bind_assoc, hg.apply, hg'.apply,
      sumType_apply]
    refine bind_congr fun y => ?_
    rcases hg with rfl | rfl <;> rcases hg' with rfl | rfl <;> simp [addOrSub] <;> grind
  | sumLeft' hg hg' =>
    simp only [Term.eval, meaning_int, meaning_bin, ok_bind, bind_assoc, hg.apply, hg'.apply]
    refine bind_congr fun y => ?_
    rcases hg with rfl | rfl <;> rcases hg' with rfl | rfl <;> simp [addOrSub] <;> grind
  | sumRight hg hg' =>
    simp only [Term.eval, meaning_int, meaning_bin, ok_bind, bind_assoc, hg.apply, hg'.apply]
    refine bind_congr fun y => ?_
    rcases hg with rfl | rfl <;> rcases hg' with rfl | rfl <;>
      simp [addOrSub, BinaryType.apply] <;> grind
  | sumRight' hg hg' =>
    simp only [Term.eval, meaning_int, meaning_bin, ok_bind, bind_assoc, hg.apply, hg'.apply]
    refine bind_congr fun y => ?_
    rcases hg with rfl | rfl <;> rcases hg' with rfl | rfl <;> simp [addOrSub] <;> grind
  | _ =>
    simp only [Term.eval, meaning_int, meaning_bin, ok_bind, bind_assoc, BinaryType.apply]
    exact bind_congr fun y => congrArg Except.ok (by grind)

theorem Nested.eval (h : Nested e g l r) (hn : ChildrenNormal e) :
    (Term.bin g l r).eval (meaning args) = e.eval (meaning args) := by
  cases h with
  | sumRotate hg hg' =>
    simp only [Term.eval, meaning_bin, ok_bind, bind_assoc, hg.apply, hg'.apply, sumType_apply]
    refine bind_congr fun x => bind_congr fun y => bind_congr fun z => congrArg Except.ok ?_
    rcases hg with rfl | rfl <;> rcases hg' with rfl | rfl <;> simp [addOrSub] <;> grind
  | sumOut hg hg' hx =>
    -- a difference of two constants is not normal
    have hadd : _ = BinaryType.add := hx.resolve_right <| by
      rintro ⟨b, rfl⟩
      refine (normal_iff.mp hn.1).2 (Reducible.fold ?_)
      rcases hg' with rfl | rfl <;> decide
    subst hadd
    simp only [Term.eval, meaning_bin, meaning_int, ok_bind, bind_assoc, hg.apply,
      BinaryType.apply_add]
    refine bind_congr fun x => bind_congr fun y => congrArg Except.ok ?_
    rcases hg with rfl | rfl <;> simp [addOrSub] <;> grind
  | sumOut' hg hg' =>
    simp only [Term.eval, meaning_bin, meaning_int, ok_bind, bind_assoc, hg.apply, hg'.apply]
    refine bind_congr fun x => bind_congr fun y => congrArg Except.ok ?_
    rcases hg with rfl | rfl <;> rcases hg' with rfl | rfl <;> simp [addOrSub] <;> grind
  | mulRotate =>
    simp only [Term.eval, meaning_bin, ok_bind, bind_assoc, BinaryType.apply]
    exact bind_congr fun x => bind_congr fun y => bind_congr fun z =>
      congrArg Except.ok (by grind)
  | _ =>
    simp only [Term.eval, meaning_bin, meaning_int, ok_bind, bind_assoc, BinaryType.apply]
    exact bind_congr fun x => bind_congr fun y => congrArg Except.ok (by grind)

def DropsSign (e e' : Expr) : Prop := ∃ x, e = inv (inv x) ∧ e' = inv x

/-- Every other rule that ends the loop keeps a value. It can lose a failure:
an operand that is dropped is not computed any more. -/
theorem Done.eval (h : Done e e') (hd : ¬ DropsSign e e') (hv : e.eval (meaning args) = .ok value) :
    e'.eval (meaning args) = .ok value := by
  cases h with
  | invInt => simpa [Term.eval] using hv
  | invInv => exact absurd ⟨_, rfl, rfl⟩ hd
  | fold h =>
    simp only [Term.eval, meaning_int, meaning_bin, ok_bind] at hv ⊢
    exact h.symm.trans hv
  | sumZero hg =>
    simp only [Term.eval, meaning_int, meaning_bin, ok_bind, hg.apply] at hv
    obtain ⟨x, hx, hv⟩ := bind_ok.mp hv
    rcases hg with rfl | rfl <;> simpa [addOrSub, hx] using hv
  | zeroProduct hg =>
    simp only [Term.eval, meaning_int, meaning_bin, ok_bind] at hv
    obtain ⟨y, hy, hv⟩ := bind_ok.mp hv
    rcases hg with rfl | rfl
    · simpa [Term.eval] using hv
    · obtain ⟨-, -, hdiv⟩ := longDiv_ok.mp hv
      simpa [Term.eval] using hdiv
  | divSelf =>
    simp only [Term.eval, meaning_bin, meaning_var] at hv
    obtain ⟨x, hx, hv⟩ := bind_ok.mp hv
    simp only [hx, ok_bind, BinaryType.apply_div] at hv
    obtain ⟨hne, -, hdiv⟩ := longDiv_ok.mp hv
    simpa [Term.eval, Int64.div_self, hne] using hdiv
  | _ =>
    simp only [Term.eval, meaning_int, meaning_bin, meaning_var, ok_bind] at hv
    obtain ⟨x, hx, hv⟩ := bind_ok.mp hv
    simpa [Term.eval, hx] using hv

/-- Dropping a negation keeps the value of the node if and only if that value
is its own opposite. -/
theorem DropsSign.eval (h : DropsSign e e') (hv : e.eval (meaning args) = .ok value) :
    e'.eval (meaning args) = .ok value ↔ -value = value := by
  obtain ⟨x, rfl, rfl⟩ := h
  simp only [Term.eval] at hv ⊢
  obtain ⟨y, hy, hv⟩ := bind_ok.mp hv
  obtain ⟨z, hz, hy⟩ := bind_ok.mp hy
  simp only [meaning_un, Except.ok.injEq] at hy hv
  subst hy hv
  simp [hz, eq_comm]

-- ---------------------------------------------------------------------------
-- Variables
-- ---------------------------------------------------------------------------

def VarsIn (e' e : Expr) : Prop := ∀ a, Leaf.var a ∈ e'.leaves → Leaf.var a ∈ e.leaves

theorem VarsIn.refl (e : Expr) : VarsIn e e := fun _ h => h

theorem VarsIn.trans {e₁ e₂ e₃ : Expr} (h : VarsIn e₁ e₂) (h' : VarsIn e₂ e₃) : VarsIn e₁ e₃ :=
  fun a ha => h' a (h a ha)

theorem VarsIn.un {f f' : Unit} (h : VarsIn e' e) : VarsIn (.un f e') (.un f' e) := h

theorem VarsIn.bin {l' r' : Expr} {g' : BinaryType} (hl : VarsIn l' l) (hr : VarsIn r' r) :
    VarsIn (.bin g' l' r') (.bin g l r) := by
  intro a ha
  simp only [Term.leaves, List.mem_append] at ha ⊢
  exact ha.imp (hl a) (hr a)

theorem Done.varsIn (h : Done e e') : VarsIn e' e := by
  cases h <;> intro a ha <;> simp_all

theorem Again.varsIn (h : Again e e') : VarsIn e' e := by
  cases h <;> intro a ha <;> simp_all

theorem Nested.varsIn (h : Nested e g l r) : VarsIn (.bin g l r) e := by
  cases h <;> intro a ha <;> simp at ha ⊢ <;> tauto

-- ---------------------------------------------------------------------------
-- Termination
-- ---------------------------------------------------------------------------

def weight : Expr → Nat
  | .leaf (.int _) => 0
  | e => e.size

@[simp] theorem weight_bin (g : BinaryType) (l r : Expr) :
    weight (.bin g l r) = l.size + r.size + 1 := rfl

def rightWeight : Expr → Nat
  | .bin _ _ r => weight r
  | _ => 0

@[simp] theorem rightWeight_bin (g : BinaryType) (l r : Expr) :
    rightWeight (.bin g l r) = weight r := rfl

def measure (e : Expr) : Nat := e.size * e.size + rightWeight e

theorem weight_le (e : Expr) : weight e ≤ e.size := by
  unfold weight
  split <;> simp

theorem rightWeight_lt (e : Expr) : rightWeight e < e.size := by
  cases e with
  | bin g l r =>
    have hw := weight_le r
    have hl := l.size_pos
    simp only [rightWeight, Term.size]
    omega
  | _ => simp [rightWeight]

theorem measure_lt_of_size (h : e'.size < e.size) : measure e' < measure e := by
  have hw := rightWeight_lt e'
  have hsq : (e'.size + 1) * (e'.size + 1) ≤ e.size * e.size := Nat.mul_le_mul h h
  simp only [measure]
  nlinarith

theorem Again.measure_lt (h : Again e e') : measure e' < measure e := by
  apply measure_lt_of_size
  cases h <;> simp only [Term.size] <;> omega

theorem weight_pos (h : ∀ b, r ≠ int b) : 0 < weight r := by
  cases r with
  | leaf a =>
    cases a with
    | int b => exact absurd rfl (h b)
    | var a => simp [weight]
  | _ => simp [weight]

/-- A rule that optimizes the left operand keeps the size; the weight moves out
of the right operand. -/
theorem Nested.lt (h : Nested e g l r) :
    l.size + r.size + 1 = e.size ∧ weight r < rightWeight e := by
  cases h with
  | sumRotate | mulRotate =>
    have hw := weight_le r
    simp only [Term.size, rightWeight_bin, weight_bin]
    omega
  | sumOut _ _ _ hy | sumOut' _ _ hy | mulOut hy | mulOut' hy =>
    refine ⟨by simp only [Term.size]; omega, ?_⟩
    exact weight_pos hy

theorem Nested.left_lt (h : Nested e g l r) : measure l < measure e := by
  have hsize := h.lt.1
  exact measure_lt_of_size (by omega)

theorem Nested.measure_lt (h : Nested e g l r) (hl : l'.size ≤ l.size) :
    measure (.bin g l' r) < measure e := by
  obtain ⟨hsize, hweight⟩ := h.lt
  have hle : (Term.bin g l' r).size ≤ e.size := by
    simp only [Term.size]
    omega
  have hsq := Nat.mul_le_mul hle hle
  simp only [measure, rightWeight_bin]
  omega

end ParserExample
