import Mathlib

/-!
# Arrays that double

An array has no slot at first, then `first` of them, and twice as many each time
it is enlarged again. `doublings first size` is how often it is enlarged until
it has `size` slots: `lt_doublings` says that it still has to be enlarged as long
as it is shorter.
-/

namespace Library

/-- The slots of an array that has been enlarged `count` times. -/
def doubled (first : Nat) : Nat → Nat
  | 0 => 0
  | count + 1 => first * 2 ^ count

/-- One more than the binary digits of the number of whole blocks of `first` slots
in front of the last slot. -/
def doublings (first size : Nat) : Nat :=
  if size = 0 then 0 else Nat.size ((size - 1) / first) + 1

variable {first size count : Nat}

theorem doubled_succ (h : 0 < first) (count : Nat) :
    doubled first (count + 1) =
      if doubled first count = 0 then first else doubled first count * 2 := by
  cases count with
  | zero => simp [doubled]
  | succ count =>
    have hpos : first * 2 ^ count ≠ 0 := (Nat.mul_pos h (Nat.two_pow_pos count)).ne'
    rw [doubled, doubled, if_neg hpos, pow_succ, mul_assoc]

theorem doubled_mono (h : 0 < first) {count' : Nat} (hle : count ≤ count') :
    doubled first count ≤ doubled first count' := by
  refine monotone_nat_of_le_succ (fun count => ?_) hle
  rw [doubled_succ h]
  split_ifs <;> omega

/-- An array is enlarged as long as it is too short. -/
theorem lt_doublings (h : 0 < first) : count < doublings first size ↔ doubled first count < size := by
  unfold doublings
  split_ifs with hsize
  · simp [hsize]
  · cases count with
    | zero => simp [doubled, Nat.pos_of_ne_zero hsize]
    | succ count =>
      rw [Nat.add_lt_add_iff_right, Nat.lt_size, Nat.le_div_iff_mul_le h, doubled, mul_comm]
      omega

theorem doublings_mono (h : 0 < first) {size' : Nat} (hle : size ≤ size') :
    doublings first size ≤ doublings first size' := by
  by_contra hlt
  have hshort := (lt_doublings h).mp (Nat.lt_of_not_le hlt)
  exact absurd ((lt_doublings h).mpr (hshort.trans_le hle)) (Nat.lt_irrefl _)

theorem doublings_le_log (h : 2 ≤ first) (size : Nat) :
    doublings first size ≤ Nat.log 2 size + 1 := by
  by_contra hlt
  have hshort := (lt_doublings (two_pos.trans_le h)).mp (Nat.lt_of_not_le hlt)
  have hlog : size < 2 * 2 ^ Nat.log 2 size := by
    rw [mul_comm, ← pow_succ]
    exact Nat.lt_pow_succ_log_self Nat.one_lt_two size
  exact absurd (hlog.trans_le (Nat.mul_le_mul_right _ h)) hshort.not_gt

/-- An array of that capacity has been enlarged so often, and never beyond need. -/
structure Grown (first size capacity count : Nat) : Prop where
  capacity_eq : capacity = doubled first count
  count_le : count ≤ doublings first size

theorem Grown.zero : Grown first size 0 0 := ⟨rfl, Nat.zero_le _⟩

theorem Grown.mono (h : 0 < first) {size' capacity : Nat} (hg : Grown first size capacity count)
    (hle : size ≤ size') : Grown first size' capacity count :=
  ⟨hg.capacity_eq, hg.count_le.trans (doublings_mono h hle)⟩

theorem Grown.lt (h : 0 < first) {capacity : Nat} (hg : Grown first size capacity count)
    (hlt : capacity < size) : count < doublings first size :=
  (lt_doublings h).mpr (hg.capacity_eq ▸ hlt)

theorem Grown.succ (h : 0 < first) {capacity : Nat} (hg : Grown first size capacity count)
    (hlt : capacity < size) :
    Grown first size (if capacity = 0 then first else capacity * 2) (count + 1) :=
  ⟨by rw [doubled_succ h, hg.capacity_eq], hg.lt h hlt⟩

/-- It is then less than twice as long as is needed, but for the first slots. -/
theorem Grown.capacity_le (h : 0 < first) {capacity : Nat} (hg : Grown first size capacity count) :
    capacity ≤ first ∨ capacity < 2 * size := by
  obtain ⟨rfl, hle⟩ := hg
  match count with
  | 0 => exact .inl (Nat.zero_le _)
  | 1 => exact .inl (by simp [doubled])
  | count + 2 =>
    have hlt : doubled first (count + 1) < size := (lt_doublings h).mp hle
    right
    rw [doubled, pow_succ, ← mul_assoc, mul_comm]
    exact Nat.mul_lt_mul_of_pos_left hlt two_pos

end Library
