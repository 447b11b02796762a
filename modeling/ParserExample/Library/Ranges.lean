import Mathlib

/-!
# Maximal ranges

The ranges of a list that a predicate accepts, where it accepts only elements of
one kind. A range is maximal if no larger one around it is accepted. No accepted
range goes across a `Boundary`, so that one that starts there is maximal if the
element behind it is of another kind.
-/

namespace Library

universe u

variable {α : Type u}

def slice (xs : List α) (i j : Nat) : List α := (xs.take j).drop i

/-- The predicate accepts the range and none around it. -/
structure MaximalRange (p : List α → Prop) (xs : List α) (i j : Nat) : Prop where
  accepted : p (slice xs i j)
  maximal : ∀ i' j', i' ≤ i → j ≤ j' → j' ≤ xs.length → p (slice xs i' j') → i' = i ∧ j' = j

def Boundary (p : List α → Prop) (xs : List α) (i : Nat) : Prop :=
  ∀ i' j, i' < i → i < j → j ≤ xs.length → ¬ p (slice xs i' j)

section
variable {p : List α → Prop} {q : α → Prop} {xs : List α} {x : α} {i j k : Nat}

theorem getElem?_slice (hik : i ≤ k) (hkj : k < j) : (slice xs i j)[k - i]? = xs[k]? := by
  rw [slice, List.getElem?_drop, Nat.add_sub_of_le hik, List.getElem?_take_of_lt hkj]

theorem mem_slice (hik : i ≤ k) (hkj : k < j) (hx : xs[k]? = some x) : x ∈ slice xs i j :=
  List.mem_of_getElem? ((getElem?_slice hik hkj).trans hx)

theorem length_slice (h : j ≤ xs.length) : (slice xs i j).length = j - i := by
  rw [slice, List.length_drop, List.length_take_of_le h]

theorem slice_add (xs : List α) (i n : Nat) : slice xs i (i + n) = (xs.drop i).take n := by
  rw [slice, List.take_drop]

theorem slice_singleton (hx : xs[i]? = some x) : slice xs i (i + 1) = [x] := by
  obtain ⟨hlt, hget⟩ := List.getElem?_eq_some_iff.mp hx
  rw [slice_add, List.drop_eq_getElem_cons hlt, hget]
  rfl

theorem head?_drop_takeWhile {r : α → Bool}
    (h : (xs.drop (xs.takeWhile r).length).head? = some x) : r x = false := by
  induction xs with
  | nil => cases h
  | cons y ys ih =>
    cases hy : r y with
    | false =>
      obtain rfl : y = x := by simpa [hy] using h
      exact hy
    | true => exact ih (by simpa [hy] using h)

theorem takeWhile_range {r : α → Bool} (hx : xs[i]? = some x) (hr : r x = true)
    (hj : i + ((xs.drop i).takeWhile r).length = j) :
    i < j ∧ j ≤ xs.length ∧ slice xs i j = (xs.drop i).takeWhile r ∧
      ∀ y, xs[j]? = some y → r y = false := by
  subst hj
  obtain ⟨hlt, hget⟩ := List.getElem?_eq_some_iff.mp hx
  have hpos : 0 < ((xs.drop i).takeWhile r).length := by
    rw [List.drop_eq_getElem_cons hlt, hget, List.takeWhile_cons_of_pos hr]
    exact Nat.succ_pos _
  have hle := (List.takeWhile_prefix (p := r) (l := xs.drop i)).length_le
  rw [List.length_drop] at hle
  refine ⟨by omega, by omega, ?_, fun y hy => ?_⟩
  · rw [slice_add]
    exact (List.prefix_iff_eq_take.mp (List.takeWhile_prefix _)).symm
  · refine @head?_drop_takeWhile _ (xs.drop i) y r ?_
    rw [List.drop_drop, List.head?_drop, hy]

theorem boundary_zero (p : List α → Prop) (xs : List α) : Boundary p xs 0 :=
  fun i' _ h => absurd h (Nat.not_lt_zero i')

variable (hp : ∀ zs, p zs → ∀ z ∈ zs, q z)
include hp

/-- An element that no accepted range holds ends in front of the boundary. -/
theorem boundary_of_before (hx : xs[k]? = some x) (hq : ¬ q x) : Boundary p xs (k + 1) := by
  rintro i' j hi' hj - hacc
  exact hq (hp _ hacc x (mem_slice (Nat.le_of_lt_succ hi') (Nat.lt_of_succ_lt hj) hx))

/-- An element that no accepted range holds starts at the boundary. -/
theorem boundary_of_at (hq : ∀ x, xs[i]? = some x → ¬ q x) : Boundary p xs i := by
  rintro i' j hi' hj hlen hacc
  have hx := List.getElem?_eq_getElem (Nat.lt_of_lt_of_le hj hlen)
  exact hq _ hx (hp _ hacc _ (mem_slice hi'.le hj hx))

theorem Boundary.maximalRange (h : Boundary p xs i) (hij : i < j) (hacc : p (slice xs i j))
    (hq : ∀ x, xs[j]? = some x → ¬ q x) : MaximalRange p xs i j := by
  refine ⟨hacc, fun i' j' hi' hj' hlen hacc' => ?_⟩
  obtain rfl : i' = i := by
    refine le_antisymm hi' (Nat.le_of_not_lt fun hlt => ?_)
    exact h i' j' hlt (Nat.lt_of_lt_of_le hij hj') hlen hacc'
  refine ⟨rfl, le_antisymm (Nat.le_of_not_lt fun hlt => ?_) hj'⟩
  -- the larger range holds the element behind the smaller one
  have hx := List.getElem?_eq_getElem (Nat.lt_of_lt_of_le hlt hlen)
  exact hq _ hx (hp _ hacc' _ (mem_slice hij.le hlt hx))

end

end Library
