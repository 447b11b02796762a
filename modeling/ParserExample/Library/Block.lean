import Mathlib

/-!
# Blocks of memory

A block is a row of slots, each of them empty until something is written to it.
A block that is resized keeps what fits, and its new slots are empty.
`Block.StartsWith` says that the first slots hold the values of a list.
-/

namespace Library

universe u

abbrev Block (α : Type u) := List (Option α)

namespace Block

variable {α : Type u}

def resize (block : Block α) (size : Nat) : Block α :=
  block.take size ++ List.replicate (size - block.length) none

/-- There is no slot to write to behind the end of the block. -/
def write (block : Block α) (i : Nat) (x : α) : Option (Block α) :=
  if i < block.length then some (block.set i (some x)) else none

def StartsWith (block : Block α) (xs : List α) : Prop := block.take xs.length = xs.map some

variable {block block' : Block α} {xs : List α} {x : α} {i size : Nat}

@[simp] theorem length_resize (block : Block α) (size : Nat) :
    (block.resize size).length = size := by
  rw [resize, List.length_append, List.length_take, List.length_replicate]
  omega

theorem length_write (h : block.write i x = some block') : block'.length = block.length := by
  unfold write at h
  split at h
  · obtain rfl := Option.some.inj h
    exact List.length_set
  · cases h

theorem startsWith_nil (block : Block α) : block.StartsWith [] := rfl

theorem StartsWith.length_le (h : block.StartsWith xs) : xs.length ≤ block.length := by
  have hlen := congrArg List.length h
  rw [List.length_take, List.length_map] at hlen
  exact min_eq_left_iff.mp hlen

theorem StartsWith.resize (h : block.StartsWith xs) (hs : xs.length ≤ size) :
    (block.resize size).StartsWith xs := by
  have hle : xs.length ≤ (block.take size).length := by
    rw [List.length_take]
    exact le_min hs h.length_le
  rw [StartsWith, Block.resize, List.take_append_of_le_length hle, List.take_take,
    min_eq_left hs]
  exact h

theorem StartsWith.write (h : block.StartsWith xs) (hlt : xs.length < block.length) :
    ∃ block', block.write xs.length x = some block' ∧ block'.StartsWith (xs ++ [x]) := by
  refine ⟨_, if_pos hlt, ?_⟩
  rw [StartsWith, List.length_append, List.length_singleton, List.take_add_one,
    List.take_set_of_le le_rfl, h, List.getElem?_set_self hlt, List.map_append]
  rfl

end Block

end Library
