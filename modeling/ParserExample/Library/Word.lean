import Mathlib

/-!
# Little-endian words

`encodeLE k n` is the number `n` in `k` bytes, the least significant first;
`wordAt k bytes offset` reads `k` bytes back.
-/

namespace Library

def encodeLE : Nat → Nat → List UInt8
  | 0, _ => []
  | k + 1, n => UInt8.ofNat (n % 256) :: encodeLE k (n / 256)

def decodeLE : List UInt8 → Nat
  | [] => 0
  | b :: bs => b.toNat + 256 * decodeLE bs

/-- The `k`-byte word at an offset, if it is inside the bytes. -/
def wordAt (k : Nat) (bytes : List UInt8) (offset : Nat) : Option Nat :=
  if offset + k ≤ bytes.length then some (decodeLE ((bytes.drop offset).take k)) else none

@[simp] theorem length_encodeLE (k n : Nat) : (encodeLE k n).length = k := by
  induction k generalizing n with
  | zero => rfl
  | succ k ih => simp [encodeLE, ih]

theorem decodeLE_encodeLE {k n : Nat} (h : n < 256 ^ k) : decodeLE (encodeLE k n) = n := by
  induction k generalizing n with
  | zero => simp at h; simp [encodeLE, decodeLE, h]
  | succ k ih =>
    have hq : n / 256 < 256 ^ k := by
      rw [Nat.div_lt_iff_lt_mul (by decide), ← pow_succ]
      exact h
    have hr : n % 256 < 256 := Nat.mod_lt _ (by decide)
    simp only [encodeLE, decodeLE, ih hq, UInt8.toNat_ofNat']
    omega

theorem wordAt_append {k n : Nat} (h : n < 256 ^ k) (front back : List UInt8) :
    wordAt k (front ++ (encodeLE k n ++ back)) front.length = some n := by
  have htake : (encodeLE k n ++ back).take k = encodeLE k n := by
    simp
  simp [wordAt, htake, decodeLE_encodeLE h]

end Library
