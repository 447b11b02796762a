import ParserExample.Optimizer.Constants

/-!
# Nested negations

The optimizer drops one of two adjacent negations. They are adjacent only if the
source nests them, written with a sign or as a difference, whose right operand the
optimizer negates once the left one has become 0. `negations` is the depth of that
nesting. No rule makes it larger, so that a program in which it is 1 at most keeps
its value.
-/

namespace ParserExample

open Library
open ParserExample.Expr (int var inv isInt)

instance : DecidablePred BinaryType.IsProduct := fun g =>
  inferInstanceAs (Decidable (g = .mul ∨ g = .div))

/-- The expression never becomes a constant: it is a sum with an operand, possibly
negated, that is the only occurrence of a variable in the program `p`. -/
def firm (p : Expr) : Expr → Bool
  | .leaf (.int _) => false
  | .leaf (.var a) => p.leaves.count (.var a) == 1
  | .un _ e => firm p e
  | .bin g l r => decide g.IsSum && (firm p l || firm p r)

/-- How many negations can come to be above each other. A constant is negated at
once, and what is subtracted from a firm operand is not negated. -/
def negations (p : Expr) : Expr → Nat
  | .leaf _ => 0
  | .un _ e => if isInt e then 0 else negations p e + 1
  | .bin g l r => max (negations p l)
      (if g = .sub ∧ firm p l = false ∧ isInt r = false then negations p r + 1 else negations p r)

def negated (p e : Expr) : Nat := if isInt e then 0 else negations p e + 1

section
variable {p e e' e'' l r x : Expr} {g g' : BinaryType} {f : Unit} {a b : Long}

@[simp] theorem firm_int (a : Long) : firm p (int a) = false := rfl

@[simp] theorem firm_un (f : Unit) (e : Expr) : firm p (.un f e) = firm p e := rfl

theorem firm_sum (hg : g.IsSum) (l r : Expr) :
    firm p (.bin g l r) = (firm p l || firm p r) := by
  simp [firm, hg]

theorem firm_product (hg : g.IsProduct) (l r : Expr) : firm p (.bin g l r) = false := by
  rcases hg with rfl | rfl <;> rfl

@[simp] theorem negations_leaf (a : Leaf) : negations p (.leaf a) = 0 := rfl

@[simp] theorem negations_un (f : Unit) (e : Expr) : negations p (.un f e) = negated p e := rfl

@[simp] theorem negated_int (a : Long) : negated p (int a) = 0 := rfl

@[simp] theorem negated_un (f : Unit) (e : Expr) : negated p (.un f e) = negated p e + 1 := rfl

@[simp] theorem negated_bin (g : BinaryType) (l r : Expr) :
    negated p (.bin g l r) = negations p (.bin g l r) + 1 := rfl

theorem negations_le_negated (p e : Expr) : negations p e ≤ negated p e := by
  rcases e with (_ | _) | _ | _ <;> simp [negated, isInt]

theorem negated_le_succ (p e : Expr) : negated p e ≤ negations p e + 1 := by
  unfold negated
  split <;> omega

@[simp] theorem negations_bin (g : BinaryType) (l r : Expr) : negations p (.bin g l r) =
    max (negations p l)
      (if g = .sub ∧ firm p l = false then negated p r else negations p r) := by
  rcases r with (_ | _) | _ | _ <;> simp [negations, negated, isInt]

-- ---------------------------------------------------------------------------
-- Rules
-- ---------------------------------------------------------------------------

def Within (p e : Expr) : Prop :=
  ∀ a, e.leaves.count (.var a) ≤ p.leaves.count (.var a)

/-- What becomes of a part of the program nests no more negations. It stays a
constant if it is one, and firm if it is firm. -/
structure Tamer (p e' e : Expr) : Prop where
  nested : negations p e' ≤ negations p e
  constant : isInt e = true → isInt e' = true
  stays : firm p e = true → firm p e' = true

structure Tames (p e' e : Expr) : Prop where
  within : Within e e'
  tamer : Within p e → Tamer p e' e

theorem Within.trans (h : Within p e) (h' : Within e e') : Within p e' :=
  fun a => (h' a).trans (h a)

theorem Within.bin {l' r' : Expr} (hl : Within l l') (hr : Within r r') :
    Within (.bin g l r) (.bin g' l' r') := by
  intro a
  simp only [Term.leaves, List.count_append]
  exact Nat.add_le_add (hl a) (hr a)

theorem Within.left (h : Within p (.bin g l r)) : Within p l := by
  intro a
  have ha := h a
  rw [Term.leaves, List.count_append] at ha
  omega

theorem Within.right (h : Within p (.bin g l r)) : Within p r := by
  intro a
  have ha := h a
  rw [Term.leaves, List.count_append] at ha
  omega

theorem Tamer.negated_le (h : Tamer p e' e) : negated p e' ≤ negated p e := by
  have hn := h.nested
  have he' := negated_le_succ p e'
  unfold negated at he' ⊢
  by_cases hint : isInt e = true
  · simp [h.constant hint]
  · rw [if_neg hint]
    omega

theorem Tamer.un (h : Tamer p e' e) : Tamer p (.un f e') (.un f e) where
  nested := h.negated_le
  constant hint := by cases hint
  stays := h.stays

theorem Tamer.right {l' r' : Expr} (hl : firm p l = true → firm p l' = true)
    (hr : Tamer p r' r) :
    (if g = .sub ∧ firm p l' = false then negated p r' else negations p r') ≤
      if g = .sub ∧ firm p l = false then negated p r else negations p r := by
  by_cases h : g = .sub ∧ firm p l = false
  · rw [if_pos h]
    split
    · exact hr.negated_le
    · exact hr.nested.trans (negations_le_negated p r)
  · rw [if_neg h, if_neg]
    · exact hr.nested
    · rintro ⟨hg, hfirm⟩
      refine h ⟨hg, ?_⟩
      by_contra hne
      rw [hl (by simpa using hne)] at hfirm
      cases hfirm

theorem Tamer.bin {l' r' : Expr} (hl : Tamer p l' l) (hr : Tamer p r' r) :
    Tamer p (.bin g l' r') (.bin g l r) where
  nested := by
    rw [negations_bin, negations_bin]
    exact max_le_max hl.nested (Tamer.right hl.stays hr)
  constant hint := by cases hint
  stays hfirm := by
    simp only [firm, Bool.and_eq_true, Bool.or_eq_true] at hfirm ⊢
    exact ⟨hfirm.1, hfirm.2.imp hl.stays hr.stays⟩

theorem Done.within (h : Done e e') : Within e e' := by
  cases h <;> intro a <;> simp
  
theorem Again.within (h : Again e e') : Within e e' := by
  cases h <;> intro a <;> simp

theorem Nested.within (h : Nested e g l r) : Within e (.bin g l r) := by
  cases h <;> intro a <;> simp

theorem Done.tamer (h : Done e e') (hp : Within p e) : Tamer p e' e := by
  refine ⟨?_, by cases h <;> simp [isInt], fun hfirm => ?_⟩
  · cases h with
    | zeroAdd | sumZero | mulOne | oneMul => simp
    | invInv => exact negations_le_negated _ _
    | _ => exact Nat.zero_le _
  · cases h with
    | fold => simp [firm] at hfirm
    | zeroAdd => simpa [firm_sum (.inl rfl)] using hfirm
    | sumZero hg => simpa [firm_sum hg] using hfirm
    | @subSelf a =>
      have ha := hp a
      simp [firm] at hfirm ha
      omega
    | zeroProduct hg => simp [firm_product hg] at hfirm
    | mulZero | mulOne | oneMul => simp [firm_product (.inl rfl)] at hfirm
    | divSelf => simp [firm_product (.inr rfl)] at hfirm
    | invInt | invInv => exact hfirm

theorem sumType_sub_iff (plus : Bool) : sumType plus = .sub ↔ plus = false := by
  cases plus <;> simp [sumType]

theorem Again.tamer (h : Again e e') : Tamer p e' e := by
  refine ⟨?_, by cases h <;> simp [isInt], fun hfirm => ?_⟩
  · cases h with
    | @sumLeft g g' a b x hg hg' | @sumLeft' g g' a b x hg hg' | @sumRight g g' a b x hg hg'
    | @sumRight' g g' a b x hg hg' =>
      have hn := negations_le_negated p x
      have hs := negated_le_succ p x
      rcases hg with rfl | rfl <;> rcases hg' with rfl | rfl <;> simp [sumType_sub_iff] <;> omega
    | _ => simp
  · cases h with
    | zeroSub => simpa [firm_sum (.inr rfl)] using hfirm
    | sumLeft hg hg' =>
      simpa [firm_sum hg, firm_sum hg', firm_sum (BinaryType.isSum_sumType _)] using hfirm
    | sumLeft' hg hg' | sumRight' hg hg' => simpa [firm_sum hg, firm_sum hg'] using hfirm
    | sumRight hg hg' => simpa [firm_sum hg, firm_sum hg', firm_sum (.inl rfl)] using hfirm
    | _ => simp [firm_product (.inl rfl)] at hfirm

theorem Nested.tamer (h : Nested e g l r) : Tamer p (.bin g l r) e := by
  refine ⟨?_, by cases h <;> simp [isInt], fun hfirm => ?_⟩
  · cases h with
    | @sumRotate g g' x y z hg hg' =>
      have hny := negations_le_negated p y
      have hsy := negated_le_succ p y
      have hnr := negations_le_negated p r
      have hsr := negated_le_succ p r
      rcases hg with rfl | rfl <;> rcases hg' with rfl | rfl <;>
        simp [sumType_sub_iff, firm_sum (.inl rfl), firm_sum (.inr rfl)] <;> grind
    | @sumOut g g' a x y hg hg' hx =>
      have hnx := negations_le_negated p x
      have hny := negations_le_negated p y
      rcases hg with rfl | rfl <;> rcases hg' with rfl | rfl <;>
        simp [firm_sum (.inl rfl), firm_sum (.inr rfl)] <;> grind
    | @sumOut' g g' a x y hg hg' =>
      rcases hg with rfl | rfl <;> rcases hg' with rfl | rfl <;>
        simp [firm_sum (.inl rfl), firm_sum (.inr rfl)]
    | _ => simp
  · cases h with
    | sumRotate hg hg' =>
      simpa [firm_sum hg, firm_sum hg', firm_sum (BinaryType.isSum_sumType _), or_assoc] using hfirm
    | sumOut hg hg' => simpa [firm_sum hg, firm_sum hg', firm_sum (.inl rfl)] using hfirm
    | sumOut' hg hg' => simpa [firm_sum hg, firm_sum hg'] using hfirm
    | _ => simp [firm_product (.inl rfl)] at hfirm

/-- No rule adds to the nesting of negations. -/
theorem tames_respected (p : Expr) : Respected (Tames p) where
  refl e := ⟨fun _ => le_rfl, fun _ => ⟨le_rfl, id, id⟩⟩
  trans h h' := by
    refine ⟨h'.within.trans h.within, fun hp => ?_⟩
    have ht' := h'.tamer hp
    have ht := h.tamer (hp.trans h'.within)
    exact ⟨ht.nested.trans ht'.nested, ht.constant ∘ ht'.constant, ht.stays ∘ ht'.stays⟩
  un h := ⟨h.within, fun hp => (h.tamer hp).un⟩
  bin hl hr := ⟨hl.within.bin hr.within, fun hp => (hl.tamer hp.left).bin (hr.tamer hp.right)⟩
  done h := ⟨h.within, h.tamer⟩
  again h := ⟨h.within, fun _ => h.tamer⟩
  nested h := ⟨h.within, fun _ => h.tamer⟩

/-- A part of the program in which at most `n` negations come together. -/
structure NestsIn (p : Expr) (n : Nat) (e : Expr) : Prop where
  within : Within p e
  le : negations p e ≤ n

theorem nestsIn_inherited (p : Expr) (n : Nat) : Inherited (Tames p) (NestsIn p n) where
  toRespected := tames_respected p
  keeps h he := ⟨he.within.trans h.within, (h.tamer he.within).nested.trans he.le⟩
  child he := ⟨he.within, (negations_le_negated _ _).trans he.le⟩
  left he := by
    have hle := he.le
    rw [negations_bin] at hle
    exact ⟨he.within.left, (le_max_left _ _).trans hle⟩
  right {g l r} he := by
    have hle := he.le
    rw [negations_bin] at hle
    refine ⟨he.within.right, (le_trans ?_ (le_max_right _ _)).trans hle⟩
    split
    · exact negations_le_negated p r
    · exact le_rfl

theorem NestsIn.not_signLost {args : List Long} (h : NestsIn p 1 e) (hc : ChildrenNormal e) :
    ¬ SignLost args e := by
  rintro ⟨⟨x, rfl⟩, -⟩
  have hle := h.le
  -- the negation of a constant has been folded
  have hint : isInt x = false := by
    refine isInt_of_ne fun b hb => ?_
    subst hb
    exact hc.2 (.inl ⟨_, .invInt⟩)
  rw [negations_un, negated_un, negated, hint, if_neg Bool.false_ne_true] at hle
  omega

end

-- ---------------------------------------------------------------------------
-- Programs that keep their value
-- ---------------------------------------------------------------------------

section
variable {ast : Ast} {t : SlotTree} {args : List Long} {value : Long}

/-- Where no two negations nest, no pass drops a negation that matters. -/
theorem not_losesSign (h : Holds ast.view t) (hs : t.slot = ast.rootNodeIndex)
    (hn : t.slots.Nodup) (hneg : negations t.erase t.erase ≤ 1) :
    ∀ pass ∈ optimizeTrace ast, ¬ LosesSign args pass := by
  intro pass hp hlost
  obtain ⟨visited, result, hr, -, htrace⟩ := optimize_run h hn hs
  obtain ⟨e, he, hvisit⟩ := exists_visited htrace hp
  have hnests := hr.visited_inherit (nestsIn_inherited _ 1) ⟨fun _ => le_rfl, hneg⟩ e he
  exact hnests.not_signLost (hr.visited_childrenNormal e he) (hvisit.losesSign_iff.mp hlost)

/-- A program that nests no two negations is optimized without a trap, and without
a change of its value. -/
theorem optimize_negations (h : Holds ast.view t) (hs : t.slot = ast.rootNodeIndex)
    (hn : t.slots.Nodup) (hneg : negations t.erase t.erase ≤ 1)
    (hv : astEval ast args = .ok value) :
    ∃ ast', optimize ast = .ok ast' ∧ astEval ast' args = .ok value := by
  have hdepth := t.erase.depth_le_size.trans (size_le_nodesUsed h hn)
  rw [Ast.astEval_eq h hs hdepth] at hv
  exact optimize_eval h hn hs (not_losesSign h hs hn hneg) hv

/-- The parsed tree of `a - (b - -c)`. -/
def nestedAst : Ast :=
  ⟨[⟨0, 1, .leaf (.var 0)⟩, ⟨5, 6, .leaf (.var 1)⟩, ⟨10, 11, .leaf (.var 2)⟩,
    ⟨9, 11, .un () 2⟩, ⟨7, 8, .bin .sub 1 3⟩, ⟨2, 3, .bin .sub 0 4⟩], 64⟩

theorem optimize_negations_nestedAst :
    ∃ ast', optimize nestedAst = .ok ast' ∧ astEval ast' [5, 3, 1] = .ok 1 := by
  have h : Holds nestedAst.view (.bin 5 .sub (.leaf 0 (.var 0)) (.bin 4 .sub (.leaf 1 (.var 1))
    (.un 3 () (.leaf 2 (.var 2))))) := by decide
  exact optimize_negations h rfl (by decide) (by decide) (by decide)

end

end ParserExample
