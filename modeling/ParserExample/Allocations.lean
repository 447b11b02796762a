import ParserExample.Ast
import ParserExample.Buffer
import ParserExample.Library.Doubling

/-!
# Calls of `realloc`

`buffer_append` and `ast_append_node` enlarge their array in the same way: when
there is no room, once, to twice its capacity. `Enlarges` is what both of them do to
the capacity and the heap, and how often they do it follows from how long the array
becomes.
-/

namespace ParserExample

open Library

def Heap.Grants (heap : Heap) (count : Nat) : Prop := ∀ i < count, heap.outcomes[i]? ≠ some false

def Spent (heap heap' : Heap) (count : Nat) : Prop := heap'.outcomes = heap.outcomes.drop count

section
variable {heap heap' heap'' : Heap} {count count' : Nat}

theorem Spent.refl (heap : Heap) : Spent heap heap 0 := rfl

theorem Spent.trans (h : Spent heap heap' count) (h' : Spent heap' heap'' count') :
    Spent heap heap'' (count + count') := by
  rw [Spent, h', h, List.drop_drop]

theorem Spent.realloc (h : Spent heap heap' count) : Spent heap heap'.realloc.2 (count + 1) := by
  refine h.trans ?_
  rcases heap' with ⟨_ | ⟨ok, outcomes⟩⟩ <;> rfl

theorem Spent.not_grants (h : Spent heap heap' count) (hr : heap'.realloc.1 = false)
    (hlt : count < count') : ¬ heap.Grants count' := by
  intro hgrants
  refine hgrants count hlt ?_
  rw [← List.head?_drop, ← h]
  rcases heap' with ⟨_ | ⟨ok, outcomes⟩⟩
  · cases hr
  · exact congrArg some hr

end

/-- An append to an array of that capacity, behind which it has the given `size`.
The code asks for no array of more than `SIZE_MAX` bytes. -/
inductive Enlarges (first size : Nat) (heap : Heap) (capacity : Nat) : Bool → Nat → Heap → Prop
  | fits : Enlarges first size heap capacity true capacity heap
  | tooLong (h : sizeMax / 2 / astNodeSize < size) :
      Enlarges first size heap capacity false capacity heap
  | enlarged (hlt : capacity < size) (hr : heap.realloc.1 = true) :
      Enlarges first size heap capacity true
        (if capacity = 0 then first else capacity * 2) heap.realloc.2
  | refused (hlt : capacity < size) (hr : heap.realloc.1 = false) :
      Enlarges first size heap capacity false capacity heap.realloc.2

section
variable {first size limit capacity capacity' count : Nat} {heap heap' : Heap}

theorem Enlarges.grown (h : Enlarges first size heap capacity true capacity' heap') (hf : 0 < first)
    (hg : Grown first limit capacity count) (hle : size ≤ limit) :
    ∃ more, Grown first limit capacity' (count + more) ∧ Spent heap heap' more := by
  cases h with
  | fits => exact ⟨0, hg, .refl heap⟩
  | enlarged hlt hr => exact ⟨1, hg.succ hf (hlt.trans_le hle), (Spent.refl heap).realloc⟩

theorem Enlarges.failed (h : Enlarges first size heap capacity false capacity' heap')
    (hf : 0 < first) (hg : Grown first limit capacity count) (hle : size ≤ limit) :
    capacity' = capacity ∧ (sizeMax / 2 / astNodeSize < limit ∧ heap' = heap ∨
      count < doublings first limit ∧ heap' = heap.realloc.2 ∧ heap.realloc.1 = false) := by
  cases h with
  | tooLong h => exact ⟨rfl, .inl ⟨h.trans_le hle, rfl⟩⟩
  | refused hlt hr => exact ⟨rfl, .inr ⟨hg.lt hf (hlt.trans_le hle), rfl, hr⟩⟩

end

section
variable {heap heap' : Heap} {ok : Bool}

theorem bufferAppend_enlarges {buffer buffer' : Buffer} {chunk : Bytes}
    (h : bufferAppend heap buffer chunk = .ok (ok, buffer', heap')) :
    Enlarges bufsiz (buffer.used + chunk.length) heap buffer.capacity ok buffer'.capacity heap' := by
  unfold bufferAppend at h
  split at h
  · cases h
    refine .tooLong ?_
    unfold sizeMax astNodeSize at *
    omega
  split at h
  · next hfit =>
    split at h
    · cases h
      refine .tooLong ?_
      unfold sizeMax astNodeSize at *
      omega
    · cases hr : heap.realloc.1 with
      | false =>
        simp only [hr, Bool.not_false, if_true] at h
        cases h
        exact .refused hfit hr
      | true =>
        simp only [hr, Bool.not_true, Bool.false_eq_true, if_false] at h
        obtain ⟨data, -, hres⟩ := bind_ok.mp h
        cases hres
        exact .enlarged hfit hr
  · obtain ⟨data, -, hres⟩ := bind_ok.mp h
    cases hres
    exact .fits

theorem used_bufferAppend {buffer buffer' : Buffer} {chunk : Bytes}
    (h : bufferAppend heap buffer chunk = .ok (true, buffer', heap')) :
    buffer'.used = buffer.used + chunk.length := by
  rcases bufferAppend_cases heap buffer chunk with
    ⟨_, hr, -⟩ | ⟨hr, -⟩ | ⟨_, _, hr, -⟩ <;> rw [h] at hr <;> cases hr
  rfl

theorem astAppendNode_enlarges {ast ast' : Ast} {node : AstNode}
    (h : astAppendNode heap ast node = (ok, ast', heap')) :
    Enlarges 64 (ast.nodesUsed + 1) heap ast.nodesCapacity ok ast'.nodesCapacity heap' := by
  unfold astAppendNode at h
  split at h
  · next hfull =>
    split at h
    · cases h
      exact .tooLong (by omega)
    · have hlt : ast.nodesCapacity < ast.nodesUsed + 1 := by omega
      cases hr : heap.realloc with
      | mk granted rest =>
        simp only [hr] at h
        obtain rfl : heap.realloc.2 = rest := congrArg Prod.snd hr
        cases granted with
        | false =>
          cases h
          exact .refused hlt (congrArg Prod.fst hr)
        | true =>
          cases h
          exact .enlarged hlt (congrArg Prod.fst hr)
  · cases h
    exact .fits

end

end ParserExample
