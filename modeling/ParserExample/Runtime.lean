import ParserExample.Library.Except

/-!
# The C machine the program runs on

An LP64 machine: `long` is a 64-bit two's-complement integer that wraps
around, `size_t` is a natural number bounded by `sizeMax`. What C leaves
undefined or stops the process at is a `Fault`.
-/

namespace ParserExample

abbrev Long := Int64

/-- The bytes of a C string or of a slice of the source. -/
abbrev Bytes := List UInt8

def longMax : Long := Int64.maxValue
def longMin : Long := Int64.minValue
def sizeMax : Nat := 2 ^ 64 - 1

def toSize (n : Nat) : Nat := n % (sizeMax + 1)

theorem toSize_eq {n : Nat} (h : n ≤ sizeMax) : toSize n = n :=
  Nat.mod_eq_of_lt (Nat.lt_succ_of_le h)

/-- `sizeof(long)` and `sizeof(size_t)`. -/
def wordSize : Nat := 8

inductive Fault
  /-- Division by 0 or `LONG_MIN / -1`. -/
  | division
  /-- A failed `assert`. -/
  | assertion
  /-- A read outside an array. -/
  | bounds
  /-- A write past the end of a heap block. -/
  | overrun
  /-- A jump through a table entry that does not exist. -/
  | dispatch
  /-- The bound on a recursion or a loop ran out: the code would go on. -/
  | fuel
  deriving DecidableEq, Repr

def longDiv (l r : Long) : Except Fault Long :=
  if r = 0 ∨ (l = longMin ∧ r = -1) then .error .division else .ok (l / r)

theorem longDiv_ok {l r value : Long} :
    longDiv l r = .ok value ↔ r ≠ 0 ∧ ¬ (l = longMin ∧ r = -1) ∧ l / r = value := by
  unfold longDiv
  split
  · simp only [reduceCtorEq, false_iff]
    tauto
  · simp_all [not_or]

-- ---------------------------------------------------------------------------
-- Allocation
-- ---------------------------------------------------------------------------

/-- The outcomes of the `realloc` calls to come; past the end of the list
every call succeeds. -/
structure Heap where
  outcomes : List Bool
  deriving DecidableEq, Repr

namespace Heap

def unlimited : Heap := ⟨[]⟩

/-- One `realloc`: whether it succeeds, and the heap after it. -/
def realloc : Heap → Bool × Heap
  | ⟨[]⟩ => (true, ⟨[]⟩)
  | ⟨ok :: rest⟩ => (ok, ⟨rest⟩)

@[simp] theorem realloc_unlimited : unlimited.realloc = (true, unlimited) := rfl

end Heap

-- ---------------------------------------------------------------------------
-- Functions that return `bool`
-- ---------------------------------------------------------------------------

/-- How a function that returns `bool` ends when it does not return `true`. -/
inductive Halt
  | returnFalse
  | fault (f : Fault)
  deriving DecidableEq, Repr

/-- A function on a state that returns `bool`, with what it computes when it
returns `true`. `if (!f(x)) return false;` is sequencing. -/
abbrev Proc (σ α : Type) := EStateM Halt σ α

end ParserExample
