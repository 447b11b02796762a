import Mathlib

/-!
# Terms and slotted terms

`Term` is the free syntax over leaves, unary and binary operators. `Tree` is
the same syntax with a slot at every node, the form a term takes once it lives
in a store; `Tree.erase` forgets the slots. `Shape` is one node of a tree, with
the slots of its children in place of the children.
-/

namespace Library

universe u v w x

inductive Term (β : Type u) (υ : Type v) (α : Type w)
  | leaf (a : α)
  | un (f : υ) (t : Term β υ α)
  | bin (g : β) (l r : Term β υ α)
  deriving DecidableEq, Repr

inductive Shape (ι : Type x) (β : Type u) (υ : Type v) (α : Type w)
  | leaf (a : α)
  | un (f : υ) (child : ι)
  | bin (g : β) (left right : ι)
  deriving DecidableEq, Repr

inductive Tree (ι : Type x) (β : Type u) (υ : Type v) (α : Type w)
  | leaf (s : ι) (a : α)
  | un (s : ι) (f : υ) (t : Tree ι β υ α)
  | bin (s : ι) (g : β) (l r : Tree ι β υ α)
  deriving DecidableEq, Repr

variable {ι : Type x} {β : Type u} {υ : Type v} {α : Type w}

-- ---------------------------------------------------------------------------
-- Measures of terms
-- ---------------------------------------------------------------------------

namespace Term

@[simp] def size : Term β υ α → Nat
  | .leaf _ => 1
  | .un _ t => t.size + 1
  | .bin _ l r => l.size + r.size + 1

@[simp] def depth : Term β υ α → Nat
  | .leaf _ => 1
  | .un _ t => t.depth + 1
  | .bin _ l r => max l.depth r.depth + 1

theorem depth_le_size (t : Term β υ α) : t.depth ≤ t.size := by
  induction t with
  | leaf a => rfl
  | un f t ih => simpa using ih
  | bin g l r ihl ihr =>
    simp only [depth, size]
    omega

theorem depth_pos (t : Term β υ α) : 0 < t.depth := by
  cases t <;> simp

theorem exists_succ {t : Term β υ α} {fuel : Nat} (h : t.depth ≤ fuel) : ∃ n, fuel = n + 1 :=
  Nat.exists_eq_add_one.mpr (t.depth_pos.trans_le h)

@[simp] def leaves : Term β υ α → List α
  | .leaf a => [a]
  | .un _ t => t.leaves
  | .bin _ l r => l.leaves ++ r.leaves

theorem leaves_length_pos (t : Term β υ α) : 0 < t.leaves.length := by
  cases t with
  | leaf a => exact Nat.one_pos
  | un f t => exact t.leaves_length_pos
  | bin g l r =>
    rw [leaves, List.length_append]
    exact Nat.add_pos_left l.leaves_length_pos _

theorem size_pos (t : Term β υ α) : 0 < t.size := by
  cases t <;> simp

end Term

-- ---------------------------------------------------------------------------
-- Slotted terms
-- ---------------------------------------------------------------------------

def Shape.children : Shape ι β υ α → List ι
  | .leaf _ => []
  | .un _ c => [c]
  | .bin _ l r => [l, r]

@[simp] theorem Shape.children_leaf (a : α) : (.leaf a : Shape ι β υ α).children = [] := rfl
@[simp] theorem Shape.children_un (f : υ) (c : ι) : (.un f c : Shape ι β υ α).children = [c] := rfl
@[simp] theorem Shape.children_bin (g : β) (l r : ι) :
    (.bin g l r : Shape ι β υ α).children = [l, r] := rfl

namespace Tree

def slot : Tree ι β υ α → ι
  | .leaf s _ => s
  | .un s _ _ => s
  | .bin s _ _ _ => s

def shape : Tree ι β υ α → Shape ι β υ α
  | .leaf _ a => .leaf a
  | .un _ f t => .un f t.slot
  | .bin _ g l r => .bin g l.slot r.slot

def setSlot (s : ι) : Tree ι β υ α → Tree ι β υ α
  | .leaf _ a => .leaf s a
  | .un _ f t => .un s f t
  | .bin _ g l r => .bin s g l r

@[simp] def erase : Tree ι β υ α → Term β υ α
  | .leaf _ a => .leaf a
  | .un _ f t => .un f t.erase
  | .bin _ g l r => .bin g l.erase r.erase

@[simp] def subtrees : Tree ι β υ α → List (Tree ι β υ α)
  | .leaf s a => [.leaf s a]
  | .un s f t => t.subtrees ++ [.un s f t]
  | .bin s g l r => l.subtrees ++ r.subtrees ++ [.bin s g l r]

@[simp] def slots : Tree ι β υ α → List ι
  | .leaf s _ => [s]
  | .un s _ t => t.slots ++ [s]
  | .bin s _ l r => l.slots ++ r.slots ++ [s]

@[simp] def lowerSlots : Tree ι β υ α → List ι
  | .leaf _ _ => []
  | .un _ _ t => t.slots
  | .bin _ _ l r => l.slots ++ r.slots

@[simp] def size : Tree ι β υ α → Nat
  | .leaf _ _ => 1
  | .un _ _ t => t.size + 1
  | .bin _ _ l r => l.size + r.size + 1

section
variable (s s' : ι) (f : υ) (g : β) (a : α) (t l r : Tree ι β υ α)

@[simp] theorem slot_leaf : (.leaf s a : Tree ι β υ α).slot = s := rfl
@[simp] theorem slot_un : (Tree.un s f t).slot = s := rfl
@[simp] theorem slot_bin : (Tree.bin s g l r).slot = s := rfl
@[simp] theorem shape_leaf : (.leaf s a : Tree ι β υ α).shape = .leaf a := rfl
@[simp] theorem shape_un : (Tree.un s f t).shape = .un f t.slot := rfl
@[simp] theorem shape_bin : (Tree.bin s g l r).shape = .bin g l.slot r.slot := rfl

end

@[simp] theorem size_erase (t : Tree ι β υ α) : t.erase.size = t.size := by
  induction t with
  | leaf => rfl
  | un _ _ _ ih => simp [ih]
  | bin _ _ _ _ ihl ihr => simp [ihl, ihr]

@[simp] theorem length_slots (t : Tree ι β υ α) : t.slots.length = t.size := by
  induction t with
  | leaf => rfl
  | un _ _ _ ih => simp [ih]
  | bin _ _ _ _ ihl ihr => simp [ihl, ihr, Nat.add_assoc]

@[simp] theorem map_slot_subtrees (t : Tree ι β υ α) : t.subtrees.map slot = t.slots := by
  induction t with
  | leaf => rfl
  | un _ _ _ ih => simp [ih]
  | bin _ _ _ _ ihl ihr => simp [ihl, ihr]

@[simp] theorem mem_subtrees_self (t : Tree ι β υ α) : t ∈ t.subtrees := by
  cases t <;> simp

@[simp] theorem slot_mem_slots (t : Tree ι β υ α) : t.slot ∈ t.slots := by
  cases t <;> simp

theorem mem_slots {t : Tree ι β υ α} {j : ι} : j ∈ t.slots ↔ ∃ u ∈ t.subtrees, u.slot = j := by
  rw [← map_slot_subtrees, List.mem_map]

theorem subtrees_trans {t u v : Tree ι β υ α} (hv : v ∈ u.subtrees) (hu : u ∈ t.subtrees) :
    v ∈ t.subtrees := by
  induction t with
  | leaf s a =>
    obtain rfl : u = .leaf s a := by simpa using hu
    exact hv
  | un s f t ih =>
    simp only [subtrees, List.mem_append, List.mem_singleton] at hu
    rcases hu with hu | rfl
    · simp [ih hu]
    · exact hv
  | bin s g l r ihl ihr =>
    simp only [subtrees, List.mem_append, List.mem_singleton] at hu
    rcases hu with (hu | hu) | rfl
    · simp [ihl hu]
    · simp [ihr hu]
    · exact hv

theorem slots_sublist {t u : Tree ι β υ α} (hu : u ∈ t.subtrees) : u.slots.Sublist t.slots := by
  induction t with
  | leaf s a =>
    obtain rfl : u = .leaf s a := by simpa using hu
    exact .refl _
  | un s f t ih =>
    simp only [subtrees, List.mem_append, List.mem_singleton] at hu
    rcases hu with hu | rfl
    · exact (ih hu).trans (List.sublist_append_left _ _)
    · exact .refl _
  | bin s g l r ihl ihr =>
    simp only [subtrees, List.mem_append, List.mem_singleton] at hu
    rcases hu with (hu | hu) | rfl
    · exact (ihl hu).trans ((List.sublist_append_left _ _).trans (List.sublist_append_left _ _))
    · exact (ihr hu).trans ((List.sublist_append_right _ _).trans (List.sublist_append_left _ _))
    · exact .refl _

theorem nodup_subtree {t u : Tree ι β υ α} (hn : t.slots.Nodup) (hu : u ∈ t.subtrees) :
    u.slots.Nodup :=
  hn.sublist (slots_sublist hu)

theorem nodup_child {s : ι} {f : υ} {t : Tree ι β υ α} (hn : (Tree.un s f t).slots.Nodup) :
    t.slots.Nodup :=
  nodup_subtree hn (by simp)

theorem nodup_left {s : ι} {g : β} {l r : Tree ι β υ α} (hn : (Tree.bin s g l r).slots.Nodup) :
    l.slots.Nodup :=
  nodup_subtree hn (by simp)

theorem nodup_right {s : ι} {g : β} {l r : Tree ι β υ α} (hn : (Tree.bin s g l r).slots.Nodup) :
    r.slots.Nodup :=
  nodup_subtree hn (by simp)

theorem slots_subset {t u : Tree ι β υ α} (hu : u ∈ t.subtrees) : u.slots ⊆ t.slots :=
  (slots_sublist hu).subset

theorem mem_leaves_erase {t : Tree ι β υ α} {a : α} :
    a ∈ t.erase.leaves ↔ ∃ s, .leaf s a ∈ t.subtrees := by
  induction t with
  | leaf s b => simp [eq_comm]
  | un s f t ih => simp [ih]
  | bin s g l r ihl ihr => simp [ihl, ihr, exists_or]

theorem slots_eq (t : Tree ι β υ α) : t.slots = t.lowerSlots ++ [t.slot] := by
  cases t <;> rfl

theorem slots_setSlot (s : ι) (t : Tree ι β υ α) : (t.setSlot s).slots = t.lowerSlots ++ [s] := by
  cases t <;> rfl

@[simp] theorem slot_setSlot (s : ι) (t : Tree ι β υ α) : (t.setSlot s).slot = s := by
  cases t <;> rfl

@[simp] theorem shape_setSlot (s : ι) (t : Tree ι β υ α) : (t.setSlot s).shape = t.shape := by
  cases t <;> rfl

@[simp] theorem erase_setSlot (s : ι) (t : Tree ι β υ α) : (t.setSlot s).erase = t.erase := by
  cases t <;> rfl

end Tree

end Library
