import ParserExample.Optimizer.Rules

/-!
# The rules in place

A pass of the optimizer rewrites the tree below a node in the slots the tree
has: `Updates` says that it uses no other slot, none twice, and leaves the rest
of the array as it is. `iteration_ok` is everything one pass can do.
-/

namespace ParserExample

open Library
open BinaryType (IsSum IsProduct)
open ParserExample.Expr (int var inv)

-- ---------------------------------------------------------------------------
-- Rewriting a tree in its own slots
-- ---------------------------------------------------------------------------

/-- `ast'` is `ast` with the tree `t` rewritten to `t'`. -/
structure Updates (ast : Ast) (t : SlotTree) (ast' : Ast) (t' : SlotTree) : Prop where
  holds : Holds ast'.view t'
  slot : t'.slot = t.slot
  slots : t'.slots.Subperm t.slots
  frame : ∀ j ∉ t.slots, ast'.nodes[j]? = ast.nodes[j]?
  nodesUsed : ast'.nodesUsed = ast.nodesUsed
  capacity : ast'.nodesCapacity = ast.nodesCapacity

section
variable {ast ast' ast'' : Ast} {t t' t'' u : SlotTree} {i j : Nat} {node : AstNode}

theorem subperm_of_count {l₁ l₂ : List Nat} (h : ∀ j, l₁.count j ≤ l₂.count j) :
    l₁.Subperm l₂ :=
  List.subperm_ext_iff.mpr fun j _ => h j

theorem nodup_of_subperm {l₁ l₂ : List Nat} (h : l₁.Subperm l₂) (hn : l₂.Nodup) : l₁.Nodup := by
  obtain ⟨l, hp, hs⟩ := h
  exact hp.nodup_iff.mp (hn.sublist hs)

theorem Ast.view_assign_ne (h : i ≠ j) : (ast.assign i node).view j = ast.view j := by
  simp [view, assign, h]

theorem Ast.view_assign_self (h : i < ast.nodesUsed) :
    (ast.assign i node).view i = some node.data := by
  have hlt : i < ast.nodes.length := h
  simp [view, assign, hlt]

@[simp] theorem Ast.nodesUsed_assign : (ast.assign i node).nodesUsed = ast.nodesUsed := by
  simp [nodesUsed, assign]

theorem Ast.view_eq_of_nodes (h : ast'.nodes[j]? = ast.nodes[j]?) : ast'.view j = ast.view j := by
  simp [view, h]

theorem slot_lt (h : Holds ast.view t) : t.slot < ast.nodesUsed :=
  Ast.view_isSome.mp (by simp [h.root])

theorem Updates.refl (h : Holds ast.view t) : Updates ast t ast t :=
  ⟨h, rfl, .refl _, fun _ _ => rfl, rfl, rfl⟩

theorem Updates.trans (h : Updates ast t ast' t') (h' : Updates ast' t' ast'' t'') :
    Updates ast t ast'' t'' where
  holds := h'.holds
  slot := h'.slot.trans h.slot
  slots := h'.slots.trans h.slots
  frame j hj := (h'.frame j fun hj' => hj (h.slots.subset hj')).trans (h.frame j hj)
  nodesUsed := h'.nodesUsed.trans h.nodesUsed
  capacity := h'.capacity.trans h.capacity

theorem Updates.nodup (h : Updates ast t ast' t') (hn : t.slots.Nodup) : t'.slots.Nodup :=
  nodup_of_subperm h.slots hn

/-- Overwriting the root of a tree, with the subtrees of the new one in place. -/
theorem updates_assign (h : Holds ast.view t) (t' : SlotTree) (hslot : t'.slot = t.slot)
    (hslots : t'.slots.Subperm t.slots) (hn : t.slots.Nodup) (hb : HoldsBelow ast.view t')
    (hd : node.data = t'.shape) : Updates ast t (ast.assign t.slot node) t' where
  holds := by
    refine holds_iff.mpr ⟨?_, hb.frame fun j hj => Ast.view_assign_ne ?_⟩
    · rw [hslot, Ast.view_assign_self (slot_lt h), hd]
    · rintro rfl
      have hn' := nodup_of_subperm hslots hn
      rw [t'.slots_eq, List.nodup_append] at hn'
      exact hn'.2.2 _ hj _ (by simp) hslot.symm
  slot := hslot
  slots := hslots
  frame j hj := by
    have hne : t.slot ≠ j := fun he => hj (he ▸ t.slot_mem_slots)
    simp [Ast.assign, hne]
  nodesUsed := Ast.nodesUsed_assign
  capacity := rfl

theorem Ast.view_assign_assign {s w : Nat} {n m : AstNode} (hs : j ≠ s) (hw : j ≠ w) :
    ((ast.assign s n).assign w m).view j = ast.view j :=
  (view_assign_ne hw.symm).trans (view_assign_ne hs.symm)

theorem updates_left {w x : SlotTree} {g : BinaryType} {n m : AstNode} (h : Holds ast.view t)
    (hn : t.slots.Nodup) (hs : (Tree.bin t.slot g w x).slots.Subperm t.slots)
    (hw : HoldsBelow ast.view w) (hx : Holds ast.view x) (hd : n.data = .bin g w.slot x.slot)
    (hm : m.data = w.shape) :
    Updates ast t ((ast.assign t.slot n).assign w.slot m) (.bin t.slot g w x) where
  holds := by
    have hn' := nodup_of_subperm hs hn
    have hlt : w.slot < ast.nodesUsed := by
      obtain ⟨u, hu, he⟩ := Tree.mem_slots.mp (hs.subset (show w.slot ∈ _ by simp))
      exact he ▸ slot_lt (h.subtree hu)
    simp only [Tree.slots, w.slots_eq, List.nodup_append, List.mem_append,
      List.mem_singleton] at hn'
    have hne : w.slot ≠ t.slot := hn'.2.2 _ (.inl (.inr rfl)) _ rfl
    refine ⟨?_, holds_iff.mpr ⟨?_, hw.frame fun j hj => ?_⟩, hx.frame fun j hj => ?_⟩
    · rw [Ast.view_assign_ne hne, Ast.view_assign_self (slot_lt h), hd]
    · rw [Ast.view_assign_self (by simpa using hlt), hm]
    · exact Ast.view_assign_assign (hn'.2.2 _ (.inl (.inl hj)) _ rfl) (hn'.1.1.2.2 _ hj _ rfl)
    · exact Ast.view_assign_assign (hn'.2.2 _ (.inr hj) _ rfl)
        (hn'.1.2.2 _ (.inr rfl) _ hj).symm
  slot := rfl
  slots := hs
  frame j hj := by
    have hne : t.slot ≠ j := fun he => hj (he ▸ t.slot_mem_slots)
    have hne' : w.slot ≠ j := fun he => hj (hs.subset (by simp [← he]))
    simp [Ast.assign, hne, hne']
  nodesUsed := by simp
  capacity := rfl

theorem updates_right {w x : SlotTree} {g : BinaryType} {n m : AstNode} (h : Holds ast.view t)
    (hn : t.slots.Nodup) (hs : (Tree.bin t.slot g x w).slots.Subperm t.slots)
    (hw : HoldsBelow ast.view w) (hx : Holds ast.view x) (hd : n.data = .bin g x.slot w.slot)
    (hm : m.data = w.shape) :
    Updates ast t ((ast.assign t.slot n).assign w.slot m) (.bin t.slot g x w) where
  holds := by
    have hn' := nodup_of_subperm hs hn
    have hlt : w.slot < ast.nodesUsed := by
      obtain ⟨u, hu, he⟩ := Tree.mem_slots.mp (hs.subset (show w.slot ∈ _ by simp))
      exact he ▸ slot_lt (h.subtree hu)
    simp only [Tree.slots, w.slots_eq, List.nodup_append, List.mem_append,
      List.mem_singleton] at hn'
    have hne : w.slot ≠ t.slot := hn'.2.2 _ (.inr (.inr rfl)) _ rfl
    refine ⟨?_, hx.frame fun j hj => ?_, holds_iff.mpr ⟨?_, hw.frame fun j hj => ?_⟩⟩
    · rw [Ast.view_assign_ne hne, Ast.view_assign_self (slot_lt h), hd]
    · exact Ast.view_assign_assign (hn'.2.2 _ (.inl hj) _ rfl) (hn'.1.2.2 _ hj _ (.inr rfl))
    · rw [Ast.view_assign_self (by simpa using hlt), hm]
    · exact Ast.view_assign_assign (hn'.2.2 _ (.inr (.inl hj)) _ rfl)
        (hn'.1.2.1.2.2 _ hj _ rfl)
  slot := rfl
  slots := hs
  frame j hj := by
    have hne : t.slot ≠ j := fun he => hj (he ▸ t.slot_mem_slots)
    have hne' : w.slot ≠ j := fun he => hj (hs.subset (by simp [← he]))
    simp [Ast.assign, hne, hne']
  nodesUsed := by simp
  capacity := rfl

end

-- ---------------------------------------------------------------------------
-- What a pass reads
-- ---------------------------------------------------------------------------

namespace Expr

def isInt : Expr → Bool
  | .leaf (.int _) => true
  | _ => false

def isVar : Expr → Bool
  | .leaf (.var _) => true
  | _ => false

def type? : Expr → Option BinaryType
  | .bin type _ _ => some type
  | _ => none

def value : Expr → Long
  | .leaf (.int value) => value
  | _ => 0

def argIndex : Expr → Nat
  | .leaf (.var argIndex) => argIndex
  | _ => 0

def isSum (e : Expr) : Bool := type? e == some .add || type? e == some .sub

def isMul (e : Expr) : Bool := type? e == some .mul

def hasIntOperand : Expr → Bool
  | .bin _ l r => isInt l || isInt r
  | _ => false

def hasMovable : Expr → Bool
  | .bin g l r => g == .add && isInt l || isInt r
  | _ => false

@[simp] theorem hasIntOperand_bin (g : BinaryType) (l r : Expr) :
    hasIntOperand (.bin g l r) = (isInt l || isInt r) := rfl

@[simp] theorem isInt_int (a : Long) : isInt (int a) = true := rfl

theorem isInt_eq_false {e : Expr} (h : ∀ b, e ≠ int b) : isInt e = false := by
  rcases e with (b | _) | _ | _
  · exact absurd rfl (h b)
  all_goals rfl

theorem isSum_bin {g : BinaryType} (h : g.IsSum) (l r : Expr) : isSum (.bin g l r) = true := by
  rcases h with rfl | rfl <;> rfl

theorem ne_int {e : Expr} (h : isInt e = false) : ∀ b, e ≠ int b := by
  rintro b rfl
  simp [isInt] at h

end Expr

section
variable {node : AstNode} {t : SlotTree}

theorem AstNode.isInt_eq (h : node.data = t.shape) : node.isInt = Expr.isInt t.erase := by
  rcases t with ⟨_, _ | _⟩ | _ | _ <;> simp [isInt, Expr.isInt, h]

theorem AstNode.isVar_eq (h : node.data = t.shape) : node.isVar = Expr.isVar t.erase := by
  rcases t with ⟨_, _ | _⟩ | _ | _ <;> simp [isVar, Expr.isVar, h]

theorem AstNode.type?_eq (h : node.data = t.shape) : node.type? = Expr.type? t.erase := by
  rcases t with ⟨_, _ | _⟩ | _ | _ <;> simp [type?, Expr.type?, h]

theorem AstNode.isSum_eq (h : node.data = t.shape) : node.isSum = Expr.isSum t.erase := by
  rw [isSum, type?_eq h, Expr.isSum]

theorem AstNode.isMul_eq (h : node.data = t.shape) : node.isMul = Expr.isMul t.erase := by
  rw [isMul, type?_eq h, Expr.isMul]

theorem AstNode.value_eq (h : node.data = t.shape) : node.value = Expr.value t.erase := by
  rcases t with ⟨_, _ | _⟩ | _ | _ <;> simp [value, Expr.value, h]

theorem AstNode.argIndex_eq (h : node.data = t.shape) :
    node.argIndex = Expr.argIndex t.erase := by
  rcases t with ⟨_, _ | _⟩ | _ | _ <;> simp [argIndex, Expr.argIndex, h]

variable {type : BinaryType} {left right : Nat}

theorem AstNode.type?_bin (h : node.data = .bin type left right) : node.type? = some type := by
  simp only [type?, h]

theorem AstNode.isAdd_bin (h : node.data = .bin type left right) :
    node.isAdd = (type == .add) := by
  rw [isAdd, type?_bin h, Option.some_beq_some]

theorem AstNode.leftIndex_bin (h : node.data = .bin type left right) : node.leftIndex = left := by
  simp only [leftIndex, h]

theorem AstNode.rightIndex_bin (h : node.data = .bin type left right) :
    node.rightIndex = right := by
  simp only [rightIndex, h]

theorem AstNode.value_int {value : Long} (h : node.data = .leaf (.int value)) :
    node.value = value := by
  simp only [AstNode.value, h]

end

section
variable {ast : Ast} {t u : SlotTree} {node : AstNode}

theorem Ast.exists_read (h : Holds ast.view t) :
    ∃ node, ast.read t.slot = .ok node ∧ node.data = t.shape := by
  obtain ⟨node, hn, hd⟩ := Ast.exists_node h
  exact ⟨node, by simp [read, hn], hd⟩

theorem Ast.isInt_slot (h : Holds ast.view t) : ast.isInt t.slot = .ok (Expr.isInt t.erase) := by
  obtain ⟨node, hr, hd⟩ := exists_read h
  simp [isInt, hr, AstNode.isInt_eq hd]

theorem Ast.value_slot (h : Holds ast.view t) : ast.value t.slot = .ok (Expr.value t.erase) := by
  obtain ⟨node, hr, hd⟩ := exists_read h
  simp [value, hr, AstNode.value_eq hd]

/-- The second operand of `both` is only read of a binary node. -/
theorem both_hasIntOperand {p : Bool} (h : Holds ast.view t) (hd : node.data = t.shape)
    (hp : p = true → Expr.isSum t.erase = true ∨ Expr.isMul t.erase = true) :
    both p (ast.hasIntOperand node) = .ok (p && Expr.hasIntOperand t.erase) := by
  cases p with
  | false => rfl
  | true =>
    cases t with
    | bin s g x y =>
      have hx := Ast.isInt_slot h.2.1
      have hy := Ast.isInt_slot h.2.2
      simp only [Tree.shape_bin] at hd
      simp only [both, if_true, Ast.hasIntOperand, AstNode.leftIndex, AstNode.rightIndex, hd,
        either, hx, hy, ok_bind, Tree.erase, Expr.hasIntOperand, Bool.true_and]
      cases Expr.isInt x.erase <;> simp
    | _ => simp [Expr.isSum, Expr.isMul, Expr.type?] at hp

theorem both_hasMovable {p : Bool} (h : Holds ast.view t) (hd : node.data = t.shape)
    (hp : p = true → Expr.isSum t.erase = true) :
    both p (either (both node.isAdd (ast.isInt node.leftIndex)) (ast.isInt node.rightIndex)) =
      .ok (p && Expr.hasMovable t.erase) := by
  cases p with
  | false => rfl
  | true =>
    cases t with
    | bin s g x y =>
      have hx := Ast.isInt_slot h.2.1
      have hy := Ast.isInt_slot h.2.2
      simp only [Tree.shape_bin] at hd
      simp only [both, if_true, AstNode.isAdd, AstNode.type?, AstNode.leftIndex,
        AstNode.rightIndex, hd, either, hx, hy, Tree.erase, Expr.hasMovable, Bool.true_and,
        Option.some_beq_some]
      cases g == .add <;> cases Expr.isInt x.erase <;> simp
    | _ => simp [Expr.isSum, Expr.type?] at hp

end

-- ---------------------------------------------------------------------------
-- One pass
-- ---------------------------------------------------------------------------

/-- Everything a pass can do at the root of the tree `t`. -/
inductive IterationOk (ast : Ast) (t : SlotTree) : Except Fault Iteration → Prop
  | stop (h : ¬ Reducible t.erase) : IterationOk ast t (.ok .stop)
  | trap (h : Traps t.erase) : IterationOk ast t (.error .division)
  | done {ast' t'} (hu : Updates ast t ast' t') (h : Done t.erase t'.erase) :
      IterationOk ast t (.ok (.done ast'))
  | again {ast' t'} (hu : Updates ast t ast' t') (h : Again t.erase t'.erase) :
      IterationOk ast t (.ok (.again ast'))
  | nested {ast' g i} {l r : SlotTree} (hu : Updates ast t ast' (.bin t.slot g l r))
      (hi : i = l.slot) (h : Nested t.erase g l.erase r.erase) :
      IterationOk ast t (.ok (.nested ast' i))

structure Site.At (site : Site) (l r : SlotTree) : Prop where
  holds : Holds site.ast.view (.bin site.nodeIndex site.type l r)
  nodup : (Tree.bin site.nodeIndex site.type l r).slots.Nodup
  leftIndex : site.leftIndex = l.slot
  rightIndex : site.rightIndex = r.slot
  left : site.left.data = l.shape
  right : site.right.data = r.shape

abbrev Site.tree (site : Site) (l r : SlotTree) : SlotTree := .bin site.nodeIndex site.type l r

section
variable {site : Site} {l r x y : SlotTree} {g' : BinaryType} {sl sr : Nat} {a b : Long}

theorem eq_leaf_of_isInt {t : SlotTree} (h : Expr.isInt t.erase = true) :
    ∃ s value, t = .leaf s (.int value) := by
  rcases t with ⟨s, value | _⟩ | _ | _
  · exact ⟨s, value, rfl⟩
  all_goals simp [Expr.isInt] at h

theorem eq_leaf_of_isVar {t : SlotTree} (h : Expr.isVar t.erase = true) :
    ∃ s a, t = .leaf s (.var a) := by
  rcases t with ⟨s, _ | a⟩ | _ | _
  · simp [Expr.isVar] at h
  · exact ⟨s, a, rfl⟩
  all_goals simp [Expr.isVar] at h

theorem eq_bin_of_isSum {t : SlotTree} (h : Expr.isSum t.erase = true) :
    ∃ s g x y, t = .bin s g x y ∧ g.IsSum := by
  rcases t with _ | _ | ⟨s, g, x, y⟩
  · simp [Expr.isSum, Expr.type?] at h
  · simp [Expr.isSum, Expr.type?] at h
  · exact ⟨s, g, x, y, rfl, by simpa [Expr.isSum, Expr.type?, BinaryType.IsSum] using h⟩

theorem eq_bin_of_isMul {t : SlotTree} (h : Expr.isMul t.erase = true) :
    ∃ s x y, t = .bin s .mul x y := by
  rcases t with _ | _ | ⟨s, g, x, y⟩
  · simp [Expr.isMul, Expr.type?] at h
  · simp [Expr.isMul, Expr.type?] at h
  · obtain rfl : g = .mul := by simpa [Expr.isMul, Expr.type?] using h
    exact ⟨s, x, y, rfl⟩

theorem Site.At.updates_left (h : site.At l r) {w x : SlotTree} {g : BinaryType}
    (hw : w.slot = l.slot) (hb : HoldsBelow site.ast.view w) (hx : Holds site.ast.view x)
    (hs : ∀ j, (Tree.bin site.nodeIndex g w x).slots.count j ≤ (site.tree l r).slots.count j) :
    Updates site.ast (site.tree l r)
      (site.assignLeft (site.bin g site.leftIndex x.slot) (site.node.withData w.shape))
      (.bin site.nodeIndex g w x) := by
  rw [assignLeft, h.leftIndex, ← hw]
  exact ParserExample.updates_left h.holds h.nodup (subperm_of_count hs) hb hx rfl rfl

theorem Site.At.updates_right (h : site.At l r) {w x : SlotTree} {g : BinaryType}
    (hw : w.slot = r.slot) (hb : HoldsBelow site.ast.view w) (hx : Holds site.ast.view x)
    (hs : ∀ j, (Tree.bin site.nodeIndex g x w).slots.count j ≤ (site.tree l r).slots.count j) :
    Updates site.ast (site.tree l r)
      (site.assignRight (site.bin g x.slot site.rightIndex) (site.node.withData w.shape))
      (.bin site.nodeIndex g x w) := by
  rw [assignRight, h.rightIndex, ← hw]
  exact ParserExample.updates_right h.holds h.nodup (subperm_of_count hs) hb hx rfl rfl

/-- The recycled slot of the right operand becomes the new left operand. -/
theorem Site.At.updates_swap (h : site.At l r) {w x : SlotTree} {g : BinaryType}
    (hw : w.slot = r.slot) (hb : HoldsBelow site.ast.view w) (hx : Holds site.ast.view x)
    (hs : ∀ j, (Tree.bin site.nodeIndex g w x).slots.count j ≤ (site.tree l r).slots.count j) :
    Updates site.ast (site.tree l r)
      (site.assignRight (site.bin g site.rightIndex x.slot) (site.node.withData w.shape))
      (.bin site.nodeIndex g w x) := by
  rw [assignRight, h.rightIndex, ← hw]
  exact ParserExample.updates_left h.holds h.nodup (subperm_of_count hs) hb hx rfl rfl

theorem Site.At.updates_int (h : site.At l r) (value : Long) :
    Updates site.ast (site.tree l r) (site.ast.assign site.nodeIndex (site.int value))
      (.leaf site.nodeIndex (.int value)) :=
  updates_assign h.holds _ rfl (List.singleton_subperm_iff.mpr (by simp)) h.nodup trivial rfl

theorem Site.At.updates_inv (h : site.At l r) :
    Updates site.ast (site.tree l r)
      (site.ast.assign site.nodeIndex (site.node.withData (.un () site.rightIndex)))
      (.un site.nodeIndex () r) := by
  refine updates_assign h.holds _ rfl (subperm_of_count fun j => ?_) h.nodup h.holds.2.2 ?_
  · simp only [Tree.slots, List.count_append]
    omega
  · rw [h.rightIndex]
    rfl

/-- `*node = *left` and `*node = *right`. -/
theorem Site.At.updates_copy (h : site.At l r) {c : SlotTree} {node : AstNode}
    (hc : c = l ∨ c = r) (hd : node.data = c.shape) :
    Updates site.ast (site.tree l r) (site.ast.assign site.nodeIndex node)
      (c.setSlot site.nodeIndex) := by
  refine updates_assign h.holds _ (by simp) (subperm_of_count fun j => ?_) h.nodup ?_ (by simp [hd])
  · have hcount : c.slots.count j ≤ l.slots.count j + r.slots.count j := by
      rcases hc with rfl | rfl <;> omega
    rw [c.slots_eq] at hcount
    simp only [Tree.slots_setSlot, Tree.slots, List.count_append] at hcount ⊢
    omega
  · rw [holdsBelow_setSlot]
    rcases hc with rfl | rfl
    · exact h.holds.2.1.below
    · exact h.holds.2.2.below

/-- The constant on the left is replaced, and an operand of the right operand moves up. -/
theorem Site.At.updates_constLeft (h : site.At (.leaf sl (.int a)) (.bin sr g' x y))
    {c : SlotTree} (g : BinaryType) (value : Long) (hc : c = x ∨ c = y) :
    Updates site.ast (site.tree (.leaf sl (.int a)) (.bin sr g' x y))
      (site.assignLeft (site.bin g site.leftIndex c.slot) (site.int value))
      (.bin site.nodeIndex g (.leaf sl (.int value)) c) := by
  have hhold : Holds site.ast.view c := by
    rcases hc with rfl | rfl
    · exact h.holds.2.2.2.1
    · exact h.holds.2.2.2.2
  refine h.updates_left (w := .leaf sl (.int value)) rfl trivial hhold fun j => ?_
  simp only [Tree.slots, List.count_append]
  rcases hc with rfl | rfl <;> omega

/-- The constant on the right is replaced, and an operand of the left operand moves up. -/
theorem Site.At.updates_constRight (h : site.At (.bin sl g' x y) (.leaf sr (.int b)))
    {c : SlotTree} (g : BinaryType) (value : Long) (hc : c = x ∨ c = y) :
    Updates site.ast (site.tree (.bin sl g' x y) (.leaf sr (.int b)))
      (site.assignRight (site.bin g c.slot site.rightIndex) (site.int value))
      (.bin site.nodeIndex g c (.leaf sr (.int value))) := by
  have hhold : Holds site.ast.view c := by
    rcases hc with rfl | rfl
    · exact h.holds.2.1.2.1
    · exact h.holds.2.1.2.2
  refine h.updates_right (w := .leaf sr (.int value)) rfl trivial hhold fun j => ?_
  simp only [Tree.slots, List.count_append]
  rcases hc with rfl | rfl <;> omega

/-- The constant on the right is replaced and becomes the left operand. -/
theorem Site.At.updates_constSwap (h : site.At (.bin sl g' x y) (.leaf sr (.int b)))
    (g : BinaryType) (value : Long) :
    Updates site.ast (site.tree (.bin sl g' x y) (.leaf sr (.int b)))
      (site.assignRight (site.bin g site.rightIndex y.slot) (site.int value))
      (.bin site.nodeIndex g (.leaf sr (.int value)) y) := by
  refine h.updates_swap (w := .leaf sr (.int value)) rfl trivial h.holds.2.1.2.2 fun j => ?_
  simp only [Tree.slots, List.count_append]
  omega

/-- The right operand is turned into the left one. -/
theorem Site.At.updates_rotate (h : site.At l (.bin sr g' x y)) (g₁ g₂ : BinaryType) :
    Updates site.ast (site.tree l (.bin sr g' x y))
      (site.assignRight (site.bin g₁ site.rightIndex y.slot) (site.bin g₂ site.leftIndex x.slot))
      (.bin site.nodeIndex g₁ (.bin sr g₂ l x) y) := by
  rw [h.leftIndex]
  refine h.updates_swap (w := .bin sr g₂ l x) rfl ⟨h.holds.2.1, h.holds.2.2.2.1⟩
    h.holds.2.2.2.2 fun j => ?_
  simp only [Tree.slots, List.count_append]
  omega

/-- An operand of the left operand changes places with the right operand. -/
theorem Site.At.updates_out (h : site.At (.bin sl g' x y) r) {c d : SlotTree} (g₁ g₂ : BinaryType)
    (hcd : c = x ∧ d = y ∨ c = y ∧ d = x) :
    Updates site.ast (site.tree (.bin sl g' x y) r)
      (site.assignLeft (site.bin g₁ site.leftIndex d.slot) (site.bin g₂ c.slot site.rightIndex))
      (.bin site.nodeIndex g₁ (.bin sl g₂ c r) d) := by
  have hx := h.holds.2.1.2.1
  have hy := h.holds.2.1.2.2
  rw [h.rightIndex]
  rcases hcd with ⟨rfl, rfl⟩ | ⟨rfl, rfl⟩
  · refine h.updates_left (w := .bin sl g₂ c r) rfl ⟨hx, h.holds.2.2⟩ hy fun j => ?_
    simp only [Tree.slots, List.count_append]
    omega
  · refine h.updates_left (w := .bin sl g₂ c r) rfl ⟨hy, h.holds.2.2⟩ hx fun j => ?_
    simp only [Tree.slots, List.count_append]
    omega

theorem sumType_add (h : g'.IsSum) : sumType (g' == .add) = g' := by
  rcases h with rfl | rfl <;> rfl

section
variable (h : site.At (.leaf sl (.int a)) (.bin sr g' x y))
  (hi : (Expr.isInt x.erase || Expr.isInt y.erase) = true)
include h hi

/-- `1 ± (2 ± X)` and `1 ± (X ± 2)`. -/
theorem Site.sumLeft_ok (hg : site.type.IsSum) (hg' : g'.IsSum) :
    IterationOk site.ast (site.tree (.leaf sl (.int a)) (.bin sr g' x y)) site.sumLeft := by
  have hx := h.holds.2.2.2.1
  have hy := h.holds.2.2.2.2
  simp only [sumLeft, AstNode.value_int h.left, AstNode.type?_bin h.right,
    AstNode.leftIndex_bin h.right, AstNode.rightIndex_bin h.right, Ast.isInt_slot hx,
    Ast.value_slot hx, Ast.value_slot hy, ok_bind]
  split_ifs with hxi
  · obtain ⟨sx, b, rfl⟩ := eq_leaf_of_isInt hxi
    exact .again (h.updates_constLeft _ _ (.inr rfl)) (.sumLeft hg hg')
  · obtain ⟨sy, b, rfl⟩ := eq_leaf_of_isInt (by simpa [hxi] using hi)
    exact .again (h.updates_constLeft _ _ (.inl rfl)) (.sumLeft' hg hg')

/-- `2 * (3 * X)` and `2 * (X * 3)`. -/
theorem Site.mulLeft_ok (hg : site.type = .mul) (hg' : g' = .mul) :
    IterationOk site.ast (site.tree (.leaf sl (.int a)) (.bin sr g' x y)) site.mulLeft := by
  have hx := h.holds.2.2.2.1
  have hy := h.holds.2.2.2.2
  simp only [mulLeft, AstNode.value_int h.left, AstNode.leftIndex_bin h.right,
    AstNode.rightIndex_bin h.right, Ast.isInt_slot hx, Ast.value_slot hx, Ast.value_slot hy,
    ok_bind]
  subst hg'
  split_ifs with hxi
  · obtain ⟨sx, b, rfl⟩ := eq_leaf_of_isInt hxi
    exact .again (h.updates_constLeft _ _ (.inr rfl)) (by simpa [tree, hg] using .mulLeft)
  · obtain ⟨sy, b, rfl⟩ := eq_leaf_of_isInt (by simpa [hxi] using hi)
    exact .again (h.updates_constLeft _ _ (.inl rfl)) (by simpa [tree, hg] using .mulLeft')

end

section
variable (h : site.At (.bin sl g' x y) (.leaf sr (.int b)))
  (hi : (Expr.isInt x.erase || Expr.isInt y.erase) = true)
include h hi

/-- `(X ± 1) ± 2` and `(1 ± X) ± 2`. -/
theorem Site.sumRight_ok (hg : site.type.IsSum) (hg' : g'.IsSum) :
    IterationOk site.ast (site.tree (.bin sl g' x y) (.leaf sr (.int b))) site.sumRight := by
  have hx := h.holds.2.1.2.1
  have hy := h.holds.2.1.2.2
  simp only [sumRight, AstNode.value_int h.right, AstNode.type?_bin h.left,
    AstNode.isAdd_bin h.left, AstNode.leftIndex_bin h.left, AstNode.rightIndex_bin h.left,
    sumType_add hg', Ast.isInt_slot hy, Ast.value_slot hx, Ast.value_slot hy, ok_bind,
    Option.some_beq_some]
  by_cases hyi : Expr.isInt y.erase = true
  · obtain ⟨sy, a, rfl⟩ := eq_leaf_of_isInt hyi
    rw [if_pos hyi]
    exact .again (h.updates_constRight _ _ (.inl rfl)) (.sumRight hg hg')
  · obtain ⟨sx, a, rfl⟩ := eq_leaf_of_isInt (t := x) (by simpa [hyi] using hi)
    rw [if_neg hyi]
    exact .again (h.updates_constSwap _ _) (.sumRight' hg hg')

/-- `(X * 2) * 3` and `(2 * X) * 3`. -/
theorem Site.mulRight_ok (hg : site.type = .mul) (hg' : g' = .mul) :
    IterationOk site.ast (site.tree (.bin sl g' x y) (.leaf sr (.int b))) site.mulRight := by
  have hx := h.holds.2.1.2.1
  have hy := h.holds.2.1.2.2
  simp only [mulRight, AstNode.value_int h.right, AstNode.leftIndex_bin h.left,
    AstNode.rightIndex_bin h.left, Ast.isInt_slot hy, Ast.value_slot hx, Ast.value_slot hy,
    ok_bind]
  subst hg'
  by_cases hyi : Expr.isInt y.erase = true
  · obtain ⟨sy, a, rfl⟩ := eq_leaf_of_isInt hyi
    rw [if_pos hyi]
    exact .again (h.updates_constRight _ _ (.inl rfl)) (by simpa [tree, hg] using .mulRight)
  · obtain ⟨sx, a, rfl⟩ := eq_leaf_of_isInt (t := x) (by simpa [hyi] using hi)
    rw [if_neg hyi]
    exact .again (h.updates_constRight _ _ (.inr rfl)) (by simpa [tree, hg] using .mulRight')

end

section
variable (h : site.At l (.bin sr g' x y))
include h

/-- `X ± (C ± D)`. -/
theorem Site.sumRotate_ok (hg : site.type.IsSum) (hg' : g'.IsSum) :
    IterationOk site.ast (site.tree l (.bin sr g' x y)) (.ok site.sumRotate) := by
  simp only [sumRotate, AstNode.isAdd_bin h.right, AstNode.leftIndex_bin h.right,
    AstNode.rightIndex_bin h.right]
  exact .nested (h.updates_rotate _ _) h.rightIndex (.sumRotate hg hg')

/-- `X * (C * D)`. -/
theorem Site.mulRotate_ok (hg : site.type = .mul) (hg' : g' = .mul) :
    IterationOk site.ast (site.tree l (.bin sr g' x y)) (.ok site.mulRotate) := by
  simp only [mulRotate, AstNode.leftIndex_bin h.right, AstNode.rightIndex_bin h.right]
  subst hg'
  exact .nested (h.updates_rotate _ _) h.rightIndex (by simpa [tree, hg] using .mulRotate)

end

section
variable (h : site.At (.bin sl g' x y) r)
include h

/-- `(1 + X) ± Y` and `(X ± 1) ± Y`. -/
theorem Site.sumOut_ok (hg : site.type.IsSum) (hg' : g'.IsSum)
    (hi : g' = .add ∧ Expr.isInt x.erase ∨ Expr.isInt y.erase) (hr : Expr.isInt r.erase = false) :
    IterationOk site.ast (site.tree (.bin sl g' x y) r) site.sumOut := by
  have hne := Expr.ne_int hr
  simp only [sumOut, AstNode.isAdd_bin h.left, AstNode.leftIndex_bin h.left,
    AstNode.rightIndex_bin h.left, sumType_add hg', Ast.isInt_slot h.holds.2.1.2.1, ok_bind]
  by_cases hxi : Expr.isInt x.erase = true
  · obtain ⟨sx, a, rfl⟩ := eq_leaf_of_isInt hxi
    rw [if_pos hxi]
    have hconst : g' = .add ∨ ∃ b, y.erase = Expr.int b := by
      refine hi.imp And.left fun hyi => ?_
      obtain ⟨sy, b, rfl⟩ := eq_leaf_of_isInt hyi
      exact ⟨b, rfl⟩
    exact .nested (h.updates_out _ _ (.inr ⟨rfl, rfl⟩)) h.leftIndex (.sumOut hg hg' hconst hne)
  · obtain ⟨sy, a, rfl⟩ := eq_leaf_of_isInt (t := y) (by simpa [hxi] using hi)
    rw [if_neg hxi]
    exact .nested (h.updates_out _ _ (.inl ⟨rfl, rfl⟩)) h.leftIndex (.sumOut' hg hg' hne)

/-- `(2 * X) * Y` and `(X * 2) * Y`. -/
theorem Site.mulOut_ok (hg : site.type = .mul) (hg' : g' = .mul)
    (hi : (Expr.isInt x.erase || Expr.isInt y.erase) = true) (hr : Expr.isInt r.erase = false) :
    IterationOk site.ast (site.tree (.bin sl g' x y) r) site.mulOut := by
  have hne := Expr.ne_int hr
  simp only [mulOut, AstNode.leftIndex_bin h.left, AstNode.rightIndex_bin h.left,
    Ast.isInt_slot h.holds.2.1.2.1, ok_bind]
  subst hg'
  by_cases hxi : Expr.isInt x.erase = true
  · obtain ⟨sx, a, rfl⟩ := eq_leaf_of_isInt hxi
    rw [if_pos hxi]
    exact .nested (h.updates_out _ _ (.inr ⟨rfl, rfl⟩)) h.leftIndex
      (by simpa [tree, hg] using .mulOut hne)
  · obtain ⟨sy, a, rfl⟩ := eq_leaf_of_isInt (t := y) (by simpa [hxi] using hi)
    rw [if_neg hxi]
    exact .nested (h.updates_out _ _ (.inl ⟨rfl, rfl⟩)) h.leftIndex
      (by simpa [tree, hg] using .mulOut' hne)

end

/-- When every guard for sums fails, no rule applies. -/
theorem not_reducible_sum {g : BinaryType} {l r : Expr} (hg : g.IsSum)
    (hfold : ¬ (Expr.isInt l && Expr.isInt r) = true)
    (hzero : ¬ (Expr.isInt l && Expr.value l == 0) = true)
    (hzero' : ¬ (Expr.isInt r && Expr.value r == 0) = true)
    (hleft : ¬ (Expr.isInt l && Expr.isSum r && Expr.hasIntOperand r) = true)
    (hright : ¬ (Expr.isInt r && Expr.isSum l && Expr.hasIntOperand l) = true)
    (hrotate : ¬ Expr.isSum r = true)
    (hout : ¬ (!Expr.isInt r && Expr.isSum l && Expr.hasMovable l) = true)
    (hself : ¬ (!g == .add && Expr.isVar l && Expr.isVar r &&
      Expr.argIndex l == Expr.argIndex r) = true) : ¬ Reducible (.bin g l r) := by
  rintro (⟨_, h⟩ | ⟨_, h⟩ | ⟨_, _, _, h⟩ | h)
  · cases h <;> simp_all [Expr.isInt, Expr.value, Expr.isVar, Expr.argIndex, IsSum, IsProduct]
  · cases h <;> simp_all [Expr.isInt, Expr.value, Expr.isSum, Expr.type?, Expr.hasIntOperand, IsSum]
  · cases h with
    | sumRotate _ hg' => exact hrotate (Expr.isSum_bin hg' _ _)
    | sumOut _ hg' hx hy =>
      refine hout ?_
      rcases hx with rfl | ⟨b, rfl⟩ <;>
        simp [Expr.isInt_eq_false hy, Expr.isSum_bin hg', Expr.hasMovable]
    | sumOut' _ hg' hy =>
      exact hout (by simp [Expr.isInt_eq_false hy, Expr.isSum_bin hg', Expr.hasMovable])
    | _ => simp [IsSum] at hg
  · simp_all [Traps, Expr.isInt]

theorem Site.sum_ok (h : site.At l r) (hg : site.type.IsSum) :
    IterationOk site.ast (site.tree l r) site.iterationSum := by
  have hleft := both_hasIntOperand (p := Expr.isInt l.erase && Expr.isSum r.erase) h.holds.2.2
    h.right (by simp +contextual)
  have hright := both_hasIntOperand (p := Expr.isInt r.erase && Expr.isSum l.erase) h.holds.2.1
    h.left (by simp +contextual)
  have hout := both_hasMovable (p := !Expr.isInt r.erase && Expr.isSum l.erase) h.holds.2.1
    h.left (by simp +contextual)
  simp only [iterationSum, pure_eq_ok, AstNode.isInt_eq h.left, AstNode.isInt_eq h.right,
    AstNode.isVar_eq h.left, AstNode.isVar_eq h.right, AstNode.isSum_eq h.left,
    AstNode.isSum_eq h.right, AstNode.value_eq h.left, AstNode.value_eq h.right,
    AstNode.argIndex_eq h.left, AstNode.argIndex_eq h.right, hleft, hright, hout, ok_bind]
  split_ifs with h1 h2 hp h3 h4 h5 h6 h7 h8
  · obtain ⟨hl, hr⟩ := Bool.and_eq_true_iff.mp h1
    obtain ⟨sl, a, rfl⟩ := eq_leaf_of_isInt hl
    obtain ⟨sr, b, rfl⟩ := eq_leaf_of_isInt hr
    exact .done (h.updates_int _) (.fold (hg.apply _ _))
  · obtain ⟨hl, ha⟩ := Bool.and_eq_true_iff.mp h2
    obtain ⟨sl, a, rfl⟩ := eq_leaf_of_isInt hl
    obtain rfl : a = 0 := by simpa [Expr.value] using ha
    have htype : site.type = .add := by simpa [plus] using hp
    exact .done (h.updates_copy (.inr rfl) h.right) (by simpa [tree, htype] using .zeroAdd)
  · obtain ⟨hl, ha⟩ := Bool.and_eq_true_iff.mp h2
    obtain ⟨sl, a, rfl⟩ := eq_leaf_of_isInt hl
    obtain rfl : a = 0 := by simpa [Expr.value] using ha
    have htype : site.type = .sub := hg.resolve_left (by simpa [plus] using hp)
    exact .again h.updates_inv (by simpa [tree, htype] using .zeroSub)
  · obtain ⟨hr, hb⟩ := Bool.and_eq_true_iff.mp h3
    obtain ⟨sr, b, rfl⟩ := eq_leaf_of_isInt hr
    obtain rfl : b = 0 := by simpa [Expr.value] using hb
    exact .done (h.updates_copy (.inl rfl) h.left) (by simpa [tree] using .sumZero hg)
  · simp only [Bool.and_eq_true] at h4
    obtain ⟨⟨hl, hr⟩, hi⟩ := h4
    obtain ⟨sl, a, rfl⟩ := eq_leaf_of_isInt hl
    obtain ⟨sr, g', x, y, rfl, hg'⟩ := eq_bin_of_isSum hr
    exact sumLeft_ok h hi hg hg'
  · simp only [Bool.and_eq_true] at h5
    obtain ⟨⟨hr, hl⟩, hi⟩ := h5
    obtain ⟨sr, b, rfl⟩ := eq_leaf_of_isInt hr
    obtain ⟨sl, g', x, y, rfl, hg'⟩ := eq_bin_of_isSum hl
    exact sumRight_ok h hi hg hg'
  · obtain ⟨sr, g', x, y, rfl, hg'⟩ := eq_bin_of_isSum h6
    exact sumRotate_ok h hg hg'
  · simp only [Bool.and_eq_true, Bool.not_eq_true'] at h7
    obtain ⟨⟨hr, hl⟩, hi⟩ := h7
    obtain ⟨sl, g', x, y, rfl, hg'⟩ := eq_bin_of_isSum hl
    exact sumOut_ok h hg hg' (by simpa [Expr.hasMovable] using hi) hr
  · simp only [Bool.and_eq_true, beq_iff_eq] at h8
    obtain ⟨⟨⟨hsub, hl⟩, hr⟩, he⟩ := h8
    obtain ⟨sl, a, rfl⟩ := eq_leaf_of_isVar hl
    obtain ⟨sr, b, rfl⟩ := eq_leaf_of_isVar hr
    obtain rfl : a = b := he
    have htype : site.type = .sub := hg.resolve_left (by simpa [plus] using hsub)
    exact .done (h.updates_int _) (by simpa [tree, htype] using .subSelf)
  · refine .stop ?_
    exact not_reducible_sum hg h1 h2 h3 h4 h5 h6 h7 h8

theorem not_reducible_mul {l r : Expr} (hfold : ¬ (Expr.isInt l && Expr.isInt r) = true)
    (hzero : ¬ (Expr.isInt l && Expr.value l == 0) = true)
    (hzero' : ¬ (Expr.isInt r && Expr.value r == 0) = true)
    (hone : ¬ (Expr.isInt r && Expr.value r == 1) = true)
    (hone' : ¬ (Expr.isInt l && Expr.value l == 1) = true)
    (hleft : ¬ (Expr.isInt l && Expr.isMul r && Expr.hasIntOperand r) = true)
    (hright : ¬ (Expr.isInt r && Expr.isMul l && Expr.hasIntOperand l) = true)
    (hrotate : ¬ Expr.isMul r = true)
    (hout : ¬ (!Expr.isInt r && Expr.isMul l && Expr.hasIntOperand l) = true) :
    ¬ Reducible (.bin .mul l r) := by
  rintro (⟨_, h⟩ | ⟨_, h⟩ | ⟨_, _, _, h⟩ | h)
  · cases h <;> simp_all [Expr.isInt, Expr.value, IsSum]
  · cases h <;> simp_all [Expr.isMul, Expr.type?, IsSum]
  · cases h with
    | mulRotate => exact hrotate rfl
    | mulOut hy | mulOut' hy =>
      exact hout (by simp [Expr.isInt_eq_false hy, Expr.isMul, Expr.type?, Expr.hasIntOperand])
    | _ => simp_all [IsSum]
  · simp [Traps] at h

theorem not_reducible_div {l r : Expr}
    (hdiv : ¬ (Expr.isInt l && Expr.isInt r && Expr.value r != 0) = true)
    (hzero : ¬ (Expr.isInt l && Expr.value l == 0) = true)
    (hself : ¬ (Expr.isVar l && Expr.isVar r && Expr.argIndex l == Expr.argIndex r) = true) :
    ¬ Reducible (.bin .div l r) := by
  rintro (⟨_, h⟩ | ⟨_, h⟩ | ⟨_, _, _, h⟩ | h)
  · cases h with
    | fold h =>
      obtain ⟨hb, -⟩ := longDiv_ok.mp h
      exact hdiv (by simpa [Expr.value] using hb)
    | zeroProduct => exact hzero rfl
    | divSelf => exact hself (by simp [Expr.isVar])
    | sumZero hg => simp [IsSum] at hg
  · cases h <;> simp_all [IsSum]
  · cases h <;> simp_all [IsSum]
  · simp only [Traps, Term.bin.injEq, true_and] at h
    obtain ⟨rfl, rfl⟩ := h
    exact hdiv (by simp [Expr.value])

theorem Site.mul_ok (h : site.At l r) (hg : site.type = .mul) :
    IterationOk site.ast (site.tree l r) site.iterationProduct := by
  have ht : site.times = true := by simp [times, hg]
  have hleft := both_hasIntOperand (p := Expr.isInt l.erase && Expr.isMul r.erase)
    h.holds.2.2 h.right (by simp +contextual)
  have hright := both_hasIntOperand (p := Expr.isInt r.erase && Expr.isMul l.erase)
    h.holds.2.1 h.left (by simp +contextual)
  have hout := both_hasIntOperand (p := !Expr.isInt r.erase && Expr.isMul l.erase)
    h.holds.2.1 h.left (by simp +contextual)
  simp only [iterationProduct, pure_eq_ok, ht, Bool.true_and, Bool.not_true, Bool.false_and,
    Bool.false_eq_true, if_false, AstNode.isInt_eq h.left, AstNode.isInt_eq h.right,
    AstNode.isMul_eq h.left, AstNode.isMul_eq h.right, AstNode.value_eq h.left,
    AstNode.value_eq h.right, hleft, hright, hout, ok_bind]
  split_ifs with h1 h2 h3 h4 h5 h6 h7 h8 h9
  · obtain ⟨hl, hr⟩ := Bool.and_eq_true_iff.mp h1
    obtain ⟨sl, a, rfl⟩ := eq_leaf_of_isInt hl
    obtain ⟨sr, b, rfl⟩ := eq_leaf_of_isInt hr
    exact .done (h.updates_int _) (.fold (by rw [hg]; rfl))
  · obtain ⟨hl, ha⟩ := Bool.and_eq_true_iff.mp h2
    obtain ⟨sl, a, rfl⟩ := eq_leaf_of_isInt hl
    obtain rfl : a = 0 := by simpa [Expr.value] using ha
    exact .done (h.updates_int _) (.zeroProduct (.inl hg))
  · obtain ⟨hr, hb⟩ := Bool.and_eq_true_iff.mp h3
    obtain ⟨sr, b, rfl⟩ := eq_leaf_of_isInt hr
    obtain rfl : b = 0 := by simpa [Expr.value] using hb
    exact .done (h.updates_int _) (by simpa [tree, hg] using .mulZero)
  · obtain ⟨hr, hb⟩ := Bool.and_eq_true_iff.mp h4
    obtain ⟨sr, b, rfl⟩ := eq_leaf_of_isInt hr
    obtain rfl : b = 1 := by simpa [Expr.value] using hb
    exact .done (h.updates_copy (.inl rfl) h.left) (by simpa [tree, hg] using .mulOne)
  · obtain ⟨hl, ha⟩ := Bool.and_eq_true_iff.mp h5
    obtain ⟨sl, a, rfl⟩ := eq_leaf_of_isInt hl
    obtain rfl : a = 1 := by simpa [Expr.value] using ha
    exact .done (h.updates_copy (.inr rfl) h.right) (by simpa [tree, hg] using .oneMul)
  · simp only [Bool.and_eq_true] at h6
    obtain ⟨⟨hl, hr⟩, hi⟩ := h6
    obtain ⟨sl, a, rfl⟩ := eq_leaf_of_isInt hl
    obtain ⟨sr, x, y, rfl⟩ := eq_bin_of_isMul hr
    exact mulLeft_ok h hi hg rfl
  · simp only [Bool.and_eq_true] at h7
    obtain ⟨⟨hr, hl⟩, hi⟩ := h7
    obtain ⟨sr, b, rfl⟩ := eq_leaf_of_isInt hr
    obtain ⟨sl, x, y, rfl⟩ := eq_bin_of_isMul hl
    exact mulRight_ok h hi hg rfl
  · obtain ⟨sr, x, y, rfl⟩ := eq_bin_of_isMul h8
    exact mulRotate_ok h hg rfl
  · simp only [Bool.and_eq_true, Bool.not_eq_true'] at h9
    obtain ⟨⟨hr, hl⟩, hi⟩ := h9
    obtain ⟨sl, x, y, rfl⟩ := eq_bin_of_isMul hl
    exact mulOut_ok h hg rfl hi hr
  · refine .stop ?_
    simp only [Tree.erase, hg]
    exact not_reducible_mul h1 h2 h3 h4 h5 h6 h7 h8 h9

theorem Site.div_ok (h : site.At l r) (hg : site.type = .div) :
    IterationOk site.ast (site.tree l r) site.iterationProduct := by
  have ht : site.times = false := by simp [times, hg]
  simp only [iterationProduct, pure_eq_ok, ht, Bool.true_and, Bool.not_false, Bool.false_and,
    Bool.false_eq_true, if_false, AstNode.isInt_eq h.left, AstNode.isInt_eq h.right,
    AstNode.isVar_eq h.left, AstNode.isVar_eq h.right, AstNode.value_eq h.left,
    AstNode.value_eq h.right, AstNode.argIndex_eq h.left, AstNode.argIndex_eq h.right, both,
    ok_bind]
  split_ifs with h1 h2 h3
  · simp only [Bool.and_eq_true, bne_iff_ne] at h1
    obtain ⟨⟨hl, hr⟩, hb⟩ := h1
    obtain ⟨sl, a, rfl⟩ := eq_leaf_of_isInt hl
    obtain ⟨sr, b, rfl⟩ := eq_leaf_of_isInt hr
    replace hb : b ≠ 0 := hb
    show IterationOk _ _ (longDiv a b >>= fun value => .ok (site.done (site.int value)))
    cases hd : longDiv a b with
    | ok value => exact .done (h.updates_int _) (.fold (by rw [hg]; exact hd))
    | error f =>
      have htrap : f = .division ∧ a = longMin ∧ b = -1 := by
        unfold longDiv at hd
        split at hd <;> simp_all
      obtain ⟨rfl, rfl, rfl⟩ := htrap
      exact .trap (by simp [Traps, hg])
  · obtain ⟨hl, ha⟩ := Bool.and_eq_true_iff.mp h2
    obtain ⟨sl, a, rfl⟩ := eq_leaf_of_isInt hl
    obtain rfl : a = 0 := by simpa [Expr.value] using ha
    exact .done (h.updates_int _) (.zeroProduct (.inr hg))
  · simp only [Bool.and_eq_true, beq_iff_eq] at h3
    obtain ⟨⟨hl, hr⟩, he⟩ := h3
    obtain ⟨sl, a, rfl⟩ := eq_leaf_of_isVar hl
    obtain ⟨sr, b, rfl⟩ := eq_leaf_of_isVar hr
    obtain rfl : a = b := he
    exact .done (h.updates_int _) (by simpa [tree, hg] using .divSelf)
  · refine .stop ?_
    simp only [Tree.erase, hg]
    exact not_reducible_div h1 h2 h3

end

theorem iterationInv_ok {ast : Ast} {s : Nat} {c : SlotTree} {node : AstNode}
    (h : Holds ast.view (.un s () c)) (hn : (Tree.un s () c : SlotTree).slots.Nodup) :
    IterationOk ast (.un s () c) (iterationInv ast s node c.slot) := by
  obtain ⟨child, hr, hd⟩ := Ast.exists_read h.2
  simp only [iterationInv, hr, ok_bind, hd]
  rcases c with ⟨sc, value | a⟩ | ⟨sc, f, d⟩ | ⟨sc, g, x, y⟩
  · exact .done (updates_assign h (.leaf s (.int (-value))) rfl
      (List.singleton_subperm_iff.mpr (by simp)) hn trivial rfl) .invInt
  · exact .stop (not_reducible_inv (by simp) (by simp))
  · refine .done (updates_assign h (.un s () d) rfl (subperm_of_count fun j => ?_) hn h.2.2 hd)
      .invInv
    simp only [Tree.slots, List.count_append]
    omega
  · exact .stop (not_reducible_inv (by simp) (by simp))

/-- One pass of the loop at the root of a tree. -/
theorem iteration_ok {ast : Ast} {t : SlotTree} (h : Holds ast.view t) (hn : t.slots.Nodup) :
    IterationOk ast t (iteration ast t.slot) := by
  obtain ⟨node, hr, hd⟩ := Ast.exists_read h
  simp only [iteration, hr, ok_bind, hd]
  cases t with
  | leaf s a => exact .stop (not_reducible_leaf a)
  | un s f c => exact iterationInv_ok h hn
  | bin s g l r =>
    obtain ⟨left, hl, hdl⟩ := Ast.exists_read h.2.1
    obtain ⟨right, hr, hdr⟩ := Ast.exists_read h.2.2
    simp only [Tree.shape_bin, Tree.slot_bin, hl, hr, ok_bind]
    have hsite : Site.At ⟨ast, s, node, g, l.slot, r.slot, left, right⟩ l r :=
      ⟨h, hn, rfl, rfl, hdl, hdr⟩
    cases g with
    | add => exact Site.sum_ok hsite (.inl rfl)
    | sub => exact Site.sum_ok hsite (.inr rfl)
    | mul => exact Site.mul_ok hsite rfl
    | div => exact Site.div_ok hsite rfl

end ParserExample
