import ParserExample.Bytecode.Compiler

/-!
# The compiler and its memory

The compiler writes one word after the other and stops at the first write that
is refused. What it has written by then does not depend on the memory it got.
-/

namespace ParserExample

open Library

def writeAll : List Bytes → Heap → Buffer → Except Fault (Bool × Buffer × Heap)
  | [], heap, buffer => .ok (true, buffer, heap)
  | word :: words, heap, buffer => do
    let (ok, buffer, heap) ← bufferAppend heap buffer word
    if ok then writeAll words heap buffer else return (false, buffer, heap)

def WriteFails (words : List Bytes) (heap : Heap) (buffer : Buffer) : Prop :=
  ∃ front word back heap' buffer' heap'', words = front ++ word :: back ∧
    writeAll front heap buffer = .ok (true, buffer', heap') ∧
    bufferAppend heap' buffer' word = .ok (false, buffer', heap'')

section
variable {heap : Heap} {buffer : Buffer} {words : List Bytes} {word : Bytes}

theorem writeAll_append (front back : List Bytes) (heap : Heap) (buffer : Buffer) :
    writeAll (front ++ back) heap buffer = do
      let (ok, buffer, heap) ← writeAll front heap buffer
      if ok then writeAll back heap buffer else return (false, buffer, heap) := by
  induction front generalizing heap buffer with
  | nil => rfl
  | cons word front ih =>
    simp only [List.cons_append, writeAll]
    cases bufferAppend heap buffer word with
    | error f => rfl
    | ok r =>
      obtain ⟨ok, buffer', heap'⟩ := r
      cases ok
      · rfl
      · exact ih heap' buffer'

theorem writeAll_singleton (word : Bytes) (heap : Heap) (buffer : Buffer) :
    writeAll [word] heap buffer = bufferAppend heap buffer word := by
  rw [writeAll]
  cases bufferAppend heap buffer word with
  | error f => rfl
  | ok r =>
    obtain ⟨ok, buffer', heap'⟩ := r
    cases ok <;> rfl

theorem writeFails_iff : WriteFails words heap buffer ↔
    ∃ buffer' heap', writeAll words heap buffer = .ok (false, buffer', heap') := by
  constructor
  · rintro ⟨front, word, back, heap', buffer', heap'', rfl, hfront, hword⟩
    refine ⟨buffer', heap'', ?_⟩
    rw [writeAll_append, hfront]
    simp only [ok_bind, if_true, writeAll, hword]
    rfl
  · rintro ⟨buffer', heap', h⟩
    induction words generalizing heap buffer with
    | nil => cases h
    | cons word words ih =>
      rw [writeAll] at h
      rcases bufferAppend_cases heap buffer word with
        ⟨heap₁, hr, -⟩ | ⟨hr, -⟩ | ⟨capacity, heap₁, hr, -⟩
      · exact ⟨[], word, words, heap, buffer, heap₁, rfl, rfl, hr⟩
      · rw [hr] at h
        cases h
      · simp only [hr, ok_bind, if_true] at h
        obtain ⟨front, w, back, heap₂, buffer₂, heap₃, rfl, hfront, hw⟩ := ih h
        refine ⟨word :: front, w, back, heap₂, buffer₂, heap₃, rfl, ?_, hw⟩
        rw [writeAll, hr]
        exact hfront

theorem writeAll_unlimited (words : List Bytes) (heap : Heap) (buffer : Buffer) :
    WriteFails words heap buffer ∨
    (writeAll words heap buffer).map (fun r => (r.1, r.2.1, Heap.unlimited)) =
      writeAll words Heap.unlimited buffer := by
  rw [writeFails_iff]
  induction words generalizing heap buffer with
  | nil => exact .inr rfl
  | cons word words ih =>
    simp only [writeAll]
    rcases bufferAppend_unlimited heap buffer word with ⟨heap₁, hr⟩ | hr
    · exact .inl ⟨buffer, heap₁, by rw [hr]; rfl⟩
    · rw [← hr]
      cases bufferAppend heap buffer word with
      | error f => exact .inr rfl
      | ok r =>
        obtain ⟨ok, buffer', heap'⟩ := r
        cases ok
        · exact .inl ⟨_, _, rfl⟩
        · exact ih heap' buffer'

end

-- ---------------------------------------------------------------------------
-- The writes of the compiler
-- ---------------------------------------------------------------------------

/-- The procedure ends as the writes of the words do, and raises the stack size
when all of them succeed. -/
def EmitsAll (p : Proc Emitter Unit) (words : List Bytes) (size : Nat) : Prop :=
  ∀ s, match writeAll words s.heap s.bytecode.bytes with
    | .error f => ∃ s', p s = .error (.fault f) s'
    | .ok (true, bytes, heap) => p s = .ok () ⟨⟨bytes, max s.bytecode.stackSize size⟩, heap⟩
    | .ok (false, bytes, heap) => ∃ size', p s = .error .returnFalse ⟨⟨bytes, size'⟩, heap⟩

theorem EmitsAll.seq {p q : Proc Emitter Unit} {words words' : List Bytes} {size size' : Nat}
    (hp : EmitsAll p words size) (hq : EmitsAll q words' size') :
    EmitsAll (p >>= fun _ => q) (words ++ words') (max size size') := by
  intro s
  have hs := hp s
  rw [writeAll_append]
  cases hw : writeAll words s.heap s.bytecode.bytes with
  | error f =>
    simp only [hw] at hs
    obtain ⟨s', hs⟩ := hs
    exact ⟨s', proc_bind_of_error hs⟩
  | ok r =>
    obtain ⟨ok, bytes, heap⟩ := r
    simp only [hw] at hs
    cases ok with
    | false =>
      obtain ⟨size₁, hs⟩ := hs
      exact ⟨size₁, proc_bind_of_error hs⟩
    | true =>
      have hs' := hq ⟨⟨bytes, max s.bytecode.stackSize size⟩, heap⟩
      simp only [ok_bind, if_true, proc_bind_of_ok hs, ← max_assoc]
      exact hs'

theorem compiles_emitsAll : Compiles EmitsAll where
  seq hp hq := hp.seq hq
  word {write word} _ hw s := by
    rw [writeAll_singleton]
    cases hb : bufferAppend s.heap s.bytecode.bytes word with
    | error f => exact ⟨s, by simp only [emit, hw, hb]⟩
    | ok r =>
      obtain ⟨ok, bytes, heap⟩ := r
      cases ok with
      | false => exact ⟨_, emit_failed ((hw _ _).trans hb)⟩
      | true =>
        simp only [Nat.max_zero]
        exact emit_ok ((hw _ _).trans hb)
  raise size s := by
    simp only [writeAll, raiseStackSize, proc_modify]
    split_ifs with h
    · rw [max_eq_right (Nat.le_of_lt h)]
    · rw [max_eq_left (Nat.le_of_not_lt h)]

section
variable {ast : Ast} {t : SlotTree}

/-- The compiler reports a stack size of 0 exactly when a write fails, and
otherwise returns what it returns when no memory is refused. -/
theorem bytecodeCompile_writes (heap : Heap) (ht : Holds ast.view t)
    (hs : t.slot = ast.rootNodeIndex) (hd : t.erase.depth ≤ ast.nodesUsed) :
    ∃ bytecode, bytecodeCompile heap ast = .ok bytecode ∧
      (bytecode.stackSize = 0 ↔ WriteFails (programWrites t.erase) heap Buffer.init) ∧
      (bytecode.stackSize ≠ 0 → bytecodeCompile Heap.unlimited ast = .ok bytecode) := by
  obtain ⟨bytecode, hc, -⟩ := bytecodeCompile_cases heap ht hs hd
  refine ⟨bytecode, hc, ?_⟩
  have hemits := compiles_emitsAll.program ht hs hd
  have hheap := hemits ⟨⟨Buffer.init, 0⟩, heap⟩
  have hfree := hemits ⟨⟨Buffer.init, 0⟩, Heap.unlimited⟩
  have hpos := t.erase.lt_height 0
  unfold bytecodeCompile at hc ⊢
  dsimp only at hc hheap hfree ⊢
  rw [writeFails_iff]
  cases hw : writeAll (programWrites t.erase) heap Buffer.init with
  | error f =>
    simp only [hw] at hheap
    obtain ⟨s', hheap⟩ := hheap
    rw [hheap] at hc
    cases hc
  | ok r =>
    obtain ⟨ok, bytes, heap'⟩ := r
    simp only [hw] at hheap
    cases ok with
    | false =>
      obtain ⟨size, hheap⟩ := hheap
      rw [hheap] at hc
      obtain rfl := Except.ok.inj hc
      exact ⟨iff_of_true rfl ⟨_, _, rfl⟩, fun h => absurd rfl h⟩
    | true =>
      have hsame : writeAll (programWrites t.erase) Heap.unlimited Buffer.init =
          .ok (true, bytes, Heap.unlimited) := by
        rcases writeAll_unlimited (programWrites t.erase) heap Buffer.init with hfails | hsame
        · obtain ⟨bytes', heap'', hf⟩ := writeFails_iff.mp hfails
          rw [hw] at hf
          cases hf
        · rw [← hsame, hw]
          rfl
      simp only [hsame] at hfree
      rw [hheap] at hc
      rw [hfree]
      refine ⟨iff_of_false ?_ (by rintro ⟨_, _, hf⟩; cases hf), fun _ => hc⟩
      dsimp only at hc
      obtain ⟨data, -, hc⟩ := bind_ok.mp hc
      obtain rfl := Except.ok.inj hc
      show max 0 (t.erase.height 0) ≠ 0
      omega

end

end ParserExample
