import ParserExample.Library.Store

/-!
# Post-order numbering

`Term.number base t` gives the nodes of a term consecutive slots in post-order,
from `base` on. A child is then next to its parent, or next to its sibling.
-/

namespace Library

universe u v w

variable {β : Type u} {υ : Type v} {α : Type w}

def Term.number (base : Nat) : Term β υ α → Tree Nat β υ α
  | .leaf a => .leaf base a
  | .un f t => .un (base + t.size) f (t.number base)
  | .bin g l r => .bin (base + l.size + r.size) g (l.number base) (r.number (base + l.size))

/-- The children of a node are right in front of it. -/
def Tree.Adjacent : Tree Nat β υ α → Prop
  | .leaf _ _ => True
  | .un s _ t => t.slot + 1 = s
  | .bin s _ l r => r.slot + 1 = s ∧ l.slot + r.size + 1 = s

variable {base : Nat} {t : Term β υ α}

@[simp] theorem Term.erase_number (base : Nat) (t : Term β υ α) : (t.number base).erase = t := by
  induction t generalizing base with
  | leaf a => rfl
  | un f t ih => simp [number, ih]
  | bin g l r ihl ihr => simp [number, ihl, ihr]

@[simp] theorem Term.size_number (base : Nat) (t : Term β υ α) : (t.number base).size = t.size := by
  rw [← Tree.size_erase, erase_number]

theorem Term.slot_number (base : Nat) (t : Term β υ α) :
    (t.number base).slot + 1 = base + t.size := by
  cases t with
  | leaf a => rfl
  | un f t => rfl
  | bin g l r => simp [number, Nat.add_assoc]

theorem Term.slots_number (base : Nat) (t : Term β υ α) :
    (t.number base).slots = List.range' base t.size := by
  induction t generalizing base with
  | leaf a => rfl
  | un f t ih => rw [number, Tree.slots, ih, size, List.range'_concat, Nat.one_mul]
  | bin g l r ihl ihr =>
    rw [number, Tree.slots, ihl, ihr, size, List.range'_concat, Nat.one_mul, ← Nat.add_assoc,
      List.range'_append_1]

theorem Term.adjacent_number {u : Tree Nat β υ α} (hu : u ∈ (t.number base).subtrees) :
    u.Adjacent := by
  induction t generalizing base with
  | leaf a =>
    obtain rfl : u = .leaf base a := by simpa [number] using hu
    trivial
  | un f t ih =>
    simp only [number, Tree.subtrees, List.mem_append, List.mem_singleton] at hu
    rcases hu with hu | rfl
    · exact ih hu
    · exact slot_number base t
  | bin g l r ihl ihr =>
    simp only [number, Tree.subtrees, List.mem_append, List.mem_singleton] at hu
    rcases hu with (hu | hu) | rfl
    · exact ihl hu
    · exact ihr hu
    · have hl := slot_number base l
      have hr := slot_number (base + l.size) r
      refine ⟨hr, ?_⟩
      rw [size_number]
      omega

theorem Tree.Adjacent.child_lt {u : Tree Nat β υ α} {j : Nat} (h : u.Adjacent)
    (hj : j ∈ u.shape.children) : j < u.slot := by
  cases u with
  | leaf s a => simp at hj
  | un s f t =>
    obtain rfl : j = t.slot := by simpa using hj
    have h : t.slot + 1 = s := h
    rw [slot_un]
    omega
  | bin s g l r =>
    have h : r.slot + 1 = s ∧ l.slot + r.size + 1 = s := h
    rw [slot_bin]
    rcases (by simpa using hj : j = l.slot ∨ j = r.slot) with rfl | rfl <;> omega

end Library
