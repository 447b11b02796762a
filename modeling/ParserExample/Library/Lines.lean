import Mathlib

/-!
# Lines

A separator cuts a list into lines, as `List.splitOn` gives them. Lines are
numbered from 1. The line of a position is the one that starts behind the last
separator in front of the position; it ends at the next separator, or where the
list ends.
-/

namespace Library

universe u

variable {α : Type u}

def Clear (sep : α) (xs : List α) (i j : Nat) : Prop := ∀ k, i ≤ k → k < j → xs[k]? ≠ some sep

structure LineStart [DecidableEq α] (sep : α) (xs : List α) (lineno start : Nat) : Prop where
  le_length : start ≤ xs.length
  lineno_eq : lineno = (xs.take start).count sep + 1
  boundary : ∀ i, start = i + 1 → xs[i]? = some sep

structure LineEnd (sep : α) (xs : List α) (i stop : Nat) : Prop where
  le : i ≤ stop
  le_length : stop ≤ xs.length
  clear : Clear sep xs i stop
  boundary : stop = xs.length ∨ xs[stop]? = some sep

/-- The position `i` is on the line of that number, which starts at `start`. -/
structure OnLine [DecidableEq α] (sep : α) (xs : List α) (lineno start i : Nat) : Prop
    extends LineStart sep xs lineno start where
  le : start ≤ i
  pos_le_length : i ≤ xs.length
  clear : Clear sep xs start i

variable {sep : α} {xs : List α} {i j lineno start stop : Nat}

-- ---------------------------------------------------------------------------
-- Separators in a range
-- ---------------------------------------------------------------------------

theorem clear_iff : Clear sep xs i j ↔ sep ∉ (xs.take j).drop i := by
  constructor
  · intro h hmem
    obtain ⟨k, hk⟩ := List.mem_iff_getElem?.mp hmem
    rw [List.getElem?_drop, List.getElem?_take] at hk
    split_ifs at hk with hlt
    exact h _ (Nat.le_add_right i k) hlt hk
  · rintro h k hik hkj hk
    refine h (List.mem_iff_getElem?.mpr ⟨k - i, ?_⟩)
    rw [List.getElem?_drop, List.getElem?_take, Nat.add_sub_of_le hik, if_pos hkj, hk]

theorem Clear.mono (h : Clear sep xs i j) {k : Nat} (hk : k ≤ j) : Clear sep xs i k :=
  fun l hil hlk => h l hil (by omega)

variable [DecidableEq α]

theorem count_take_add (h : i ≤ j) :
    (xs.take i).count sep + ((xs.take j).drop i).count sep = (xs.take j).count sep := by
  rw [← List.count_append]
  conv_rhs => rw [← List.take_append_drop i (xs.take j), List.take_take, min_eq_left h]

theorem count_take_mono (sep : α) (xs : List α) (h : i ≤ j) :
    (xs.take i).count sep ≤ (xs.take j).count sep := by
  rw [← count_take_add h]
  exact Nat.le_add_right _ _

theorem Clear.count_take (h : Clear sep xs i j) (hij : i ≤ j) :
    (xs.take j).count sep = (xs.take i).count sep := by
  rw [← count_take_add hij, List.count_eq_zero.mpr (clear_iff.mp h), Nat.add_zero]

theorem count_take_succ (h : xs[i]? = some sep) :
    (xs.take (i + 1)).count sep = (xs.take i).count sep + 1 := by
  rw [List.take_add_one, h, List.count_append, Option.toList_some, List.count_singleton_self]

-- ---------------------------------------------------------------------------
-- Where lines start and end
-- ---------------------------------------------------------------------------

theorem lineStart_zero : LineStart sep xs 1 0 := ⟨Nat.zero_le _, rfl, fun i h => by cases h⟩

theorem LineStart.next (h : LineStart sep xs lineno start) (he : LineEnd sep xs start stop)
    (hs : xs[stop]? = some sep) : LineStart sep xs (lineno + 1) (stop + 1) where
  le_length := (List.getElem?_eq_some_iff.mp hs).1
  lineno_eq := by rw [count_take_succ hs, he.clear.count_take he.le, h.lineno_eq]
  boundary := by
    rintro i ⟨⟩
    exact hs

theorem LineStart.start_eq {start' : Nat} (h : LineStart sep xs lineno start)
    (h' : LineStart sep xs lineno start') : start = start' := by
  -- the later of two starts has a separator in front of it, and so a higher number
  have hle : ∀ {s t}, LineStart sep xs lineno s → LineStart sep xs lineno t → t ≤ s := by
    rintro s t hs ht
    by_contra hlt
    obtain ⟨k, rfl⟩ := Nat.exists_eq_add_of_lt (Nat.lt_of_not_le hlt)
    have hcount := count_take_succ (ht.boundary _ rfl)
    have hmono := count_take_mono sep xs (Nat.le_add_right s k)
    have hs' := hs.lineno_eq
    have ht' := ht.lineno_eq
    omega
  exact le_antisymm (hle h' h) (hle h h')

theorem LineStart.eq_zero_iff (h : LineStart sep xs lineno start) : start = 0 ↔ lineno = 1 := by
  constructor
  · rintro rfl
    exact h.lineno_eq
  · rintro rfl
    exact h.start_eq lineStart_zero

theorem OnLine.lineno_eq_count (h : OnLine sep xs lineno start i) :
    lineno = (xs.take i).count sep + 1 := by
  rw [h.clear.count_take h.le, h.lineno_eq]

theorem OnLine.unique {lineno' start' : Nat} (h : OnLine sep xs lineno start i)
    (h' : OnLine sep xs lineno' start' i) : lineno = lineno' ∧ start = start' := by
  obtain rfl := h.lineno_eq_count.trans h'.lineno_eq_count.symm
  exact ⟨rfl, h.toLineStart.start_eq h'.toLineStart⟩

/-- A line with a later one ends at a separator, and later positions are behind
it. -/
theorem LineEnd.of_lt (he : LineEnd sep xs start stop) (hs : LineStart sep xs lineno start)
    (hj : j ≤ xs.length) (hlt : lineno < (xs.take j).count sep + 1) :
    stop < j ∧ xs[stop]? = some sep := by
  have hstop : stop < j := by
    by_contra hle
    have h := count_take_mono sep xs (Nat.le_of_not_lt hle)
    rw [he.clear.count_take he.le] at h
    have := hs.lineno_eq
    omega
  refine ⟨hstop, he.boundary.resolve_left ?_⟩
  omega

theorem OnLine.le_stop (h : OnLine sep xs lineno start i) (he : LineEnd sep xs start stop) :
    i ≤ stop := by
  rcases he.boundary with rfl | hsep
  · exact h.pos_le_length
  · by_contra hlt
    exact h.clear stop he.le (by omega) hsep

-- ---------------------------------------------------------------------------
-- The text of a line
-- ---------------------------------------------------------------------------

theorem length_splitOn (sep : α) (xs : List α) : (xs.splitOn sep).length = xs.count sep + 1 := by
  induction xs with
  | nil => simp
  | cons x xs ih =>
    rw [List.splitOn_cons_eq_if_modifyHead, List.count_cons]
    split_ifs
    · rw [List.length_cons, ih]
    · rw [List.length_modifyHead, ih, Nat.add_zero]

theorem LineStart.drop_splitOn (h : LineStart sep xs lineno start) :
    (xs.splitOn sep).drop (lineno - 1) = (xs.drop start).splitOn sep := by
  rw [h.lineno_eq, Nat.add_sub_cancel]
  cases start with
  | zero => simp
  | succ i =>
    have hsep := h.boundary i rfl
    have hcut : xs = xs.take i ++ sep :: xs.drop (i + 1) := by
      obtain ⟨hlt, hi⟩ := List.getElem?_eq_some_iff.mp hsep
      rw [← hi, ← List.drop_eq_getElem_cons hlt, List.take_append_drop]
    have hsplit : xs.splitOn sep = (xs.take i).splitOn sep ++ (xs.drop (i + 1)).splitOn sep := by
      conv_lhs => rw [hcut, List.splitOn_append_cons_self]
    rw [count_take_succ hsep, ← length_splitOn, hsplit, List.drop_left]

theorem LineStart.getElem?_splitOn (h : LineStart sep xs lineno start)
    (he : LineEnd sep xs start stop) :
    (xs.splitOn sep)[lineno - 1]? = some ((xs.take stop).drop start) := by
  have hnot := clear_iff.mp he.clear
  have htake : (xs.take stop).drop start ++ xs.drop stop = xs.drop start := by
    rw [← List.drop_append_of_le_length (by rw [List.length_take_of_le he.le_length]; exact he.le),
      List.take_append_drop]
  have hhead : ((xs.drop start).splitOn sep)[0]? = some ((xs.take stop).drop start) := by
    rw [← htake]
    rcases he.boundary with hend | hsep
    · rw [hend, List.drop_length, List.append_nil, ← hend, List.splitOn_eq_singleton hnot]
      rfl
    · obtain ⟨hlt, hi⟩ := List.getElem?_eq_some_iff.mp hsep
      rw [List.drop_eq_getElem_cons hlt, hi, List.splitOn_append_cons_self_of_not_mem hnot]
      rfl
  rw [← hhead, ← h.drop_splitOn, List.getElem?_drop, Nat.add_zero]

end Library
