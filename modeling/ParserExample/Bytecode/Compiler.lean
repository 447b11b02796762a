import ParserExample.Bytecode

/-!
# What the compiler writes

`encode` is postfix code as bytes. `bytecodeCompile_cases` says that the
compiler never faults, and that unless a write fails it produces the stack
height, the code of the expression and `RET`.
-/

namespace ParserExample

open Library

abbrev Instruction := Instr BinaryType Unit Leaf

def Instruction.opcode : Instruction → ByteCode
  | .push (.int _) => .val
  | .push (.var _) => .var
  | .un () => .inv
  | .bin type => type.opcode

def opcodeBytes (code : ByteCode) : Bytes := encodeLE wordSize code.toNat

def Instruction.operand : Instruction → Bytes
  | .push (.int value) => encodeLE wordSize (longBits value)
  | .push (.var argIndex) => encodeLE wordSize argIndex
  | .un () => []
  | .bin _ => []

def Instruction.encode (i : Instruction) : Bytes := opcodeBytes i.opcode ++ i.operand

def Instruction.writes : Instruction → List Bytes
  | .push (.int value) => [opcodeBytes .val, encodeLE wordSize (longBits value)]
  | .push (.var argIndex) => [opcodeBytes .var, encodeLE wordSize argIndex]
  | .un () => [opcodeBytes .inv]
  | .bin type => [opcodeBytes type.opcode]

theorem Instruction.flatten_writes (i : Instruction) : i.writes.flatten = i.encode := by
  rcases i with (_ | _) | _ | _ <;> simp [writes, encode, opcode, operand]

def encode (code : List Instruction) : Bytes := code.flatMap Instruction.encode

@[simp] theorem encode_nil : encode [] = [] := rfl
@[simp] theorem encode_cons (i : Instruction) (is : List Instruction) :
    encode (i :: is) = i.encode ++ encode is := rfl
@[simp] theorem encode_append (is js : List Instruction) :
    encode (is ++ js) = encode is ++ encode js := List.flatMap_append

theorem flatten_writes (code : List Instruction) :
    (code.flatMap Instruction.writes).flatten = encode code := by
  induction code with
  | nil => rfl
  | cons i is ih => simp [i.flatten_writes, ih]

@[simp] theorem length_opcodeBytes (code : ByteCode) : (opcodeBytes code).length = wordSize :=
  length_encodeLE _ _

theorem length_operand (i : Instruction) : wordSize ∣ i.operand.length := by
  rcases i with (_ | _) | _ | _ <;> simp [Instruction.operand]

theorem length_encode_instruction (i : Instruction) : wordSize ∣ i.encode.length := by
  simpa [Instruction.encode] using length_operand i

theorem length_encode (code : List Instruction) : wordSize ∣ (encode code).length := by
  induction code with
  | nil => simp
  | cons i is ih => simpa using dvd_add (length_encode_instruction i) ih

theorem length_le_encode (code : List Instruction) :
    wordSize * code.length ≤ (encode code).length := by
  induction code with
  | nil => simp
  | cons i is ih =>
    have hi : wordSize ≤ i.encode.length := by simp [Instruction.encode]
    simp only [encode_cons, List.length_append, List.length_cons, Nat.mul_add]
    omega

theorem longBits_opcode (code : ByteCode) : longBits (longOfBits code.toNat) = code.toNat := by
  cases code <;> decide

-- ---------------------------------------------------------------------------
-- Writes
-- ---------------------------------------------------------------------------

namespace Emitter

def contents (s : Emitter) : Bytes := s.bytecode.bytes.contents

/-- The block holds nothing yet or is large enough that doubling it makes room
for one more word. -/
structure Ready (s : Emitter) : Prop where
  inv : s.bytecode.bytes.Inv
  room : s.bytecode.bytes.capacity = 0 ∨ wordSize ≤ s.bytecode.bytes.capacity

/-- No allocation fails and `size` more bytes are no reason to be refused. -/
structure Ample (s : Emitter) (size : Nat) : Prop where
  heap : s.heap = Heap.unlimited
  fits : s.contents.length + size ≤ sizeMax / 2

theorem Ready.used {s : Emitter} (h : s.Ready) : s.bytecode.bytes.used = s.contents.length := by
  simp [contents, Buffer.contents, h.inv.written]

end Emitter

/-- The procedure appends `out` and raises the stack size to `size`, or fails
for lack of memory. -/
def Writes (p : Proc Emitter Unit) (out : Bytes) (size : Nat) : Prop :=
  ∀ s, s.Ready →
    (∃ s', p s = .ok () s' ∧ s'.Ready ∧ s'.contents = s.contents ++ out ∧
      s'.bytecode.stackSize = max s.bytecode.stackSize size ∧
      (s.heap = Heap.unlimited → s'.heap = Heap.unlimited)) ∨
    (∃ s', p s = .error .returnFalse s' ∧ ¬ s.Ample out.length)

theorem Writes.seq {p q : Proc Emitter Unit} {out out' : Bytes} {size size' : Nat}
    (hp : Writes p out size) (hq : Writes q out' size') :
    Writes (p >>= fun _ => q) (out ++ out') (max size size') := by
  intro s hs
  rcases hp s hs with ⟨s₁, h₁, hs₁, hc₁, hz₁, hh₁⟩ | ⟨s₁, h₁, hn⟩
  · rcases hq s₁ hs₁ with ⟨s₂, h₂, hs₂, hc₂, hz₂, hh₂⟩ | ⟨s₂, h₂, hn⟩
    · refine .inl ⟨s₂, by rw [proc_bind_of_ok h₁, h₂], hs₂, ?_, ?_, fun h => hh₂ (hh₁ h)⟩
      · rw [hc₂, hc₁, List.append_assoc]
      · rw [hz₂, hz₁, max_assoc]
    · refine .inr ⟨s₂, by rw [proc_bind_of_ok h₁, h₂], fun ha => hn ⟨hh₁ ha.heap, ?_⟩⟩
      have hf := ha.fits
      rw [hc₁]
      simp only [List.length_append] at hf ⊢
      omega
  · refine .inr ⟨s₁, by rw [proc_bind_of_error h₁], fun ha => hn ⟨ha.heap, ?_⟩⟩
    have hf := ha.fits
    simp only [List.length_append] at hf
    omega

theorem emit_ok {write : Heap → Buffer → Except Fault (Bool × Buffer × Heap)} {s : Emitter}
    {bytes : Buffer} {heap : Heap} (h : write s.heap s.bytecode.bytes = .ok (true, bytes, heap)) :
    emit write s = .ok () ⟨{ s.bytecode with bytes }, heap⟩ := by
  simp only [emit, h]

theorem emit_failed {write : Heap → Buffer → Except Fault (Bool × Buffer × Heap)} {s : Emitter}
    {bytes : Buffer} {heap : Heap} (h : write s.heap s.bytecode.bytes = .ok (false, bytes, heap)) :
    emit write s = .error .returnFalse ⟨{ s.bytecode with bytes }, heap⟩ := by
  simp only [emit, h]

/-- One word always fits the block after it has been enlarged. -/
theorem emit_writes {write : Heap → Buffer → Except Fault (Bool × Buffer × Heap)} {chunk : Bytes}
    (hw : ∀ heap buffer, write heap buffer = bufferAppend heap buffer chunk)
    (hc : chunk.length = wordSize) : Writes (emit write) chunk 0 := by
  intro s hs
  have hused := hs.inv.used_le
  rcases bufferAppend_cases s.heap s.bytecode.bytes chunk with
    ⟨heap', hr, hn, hfull⟩ | ⟨-, -, hlt⟩ | ⟨capacity, heap', hr, -, hle, hcap⟩
  · refine .inr ⟨_, emit_failed ((hw _ _).trans hr), fun ha => hn ?_⟩
    have hf := ha.fits
    rw [← hs.used] at hf
    have hsize : s.bytecode.bytes.used ≤ sizeMax - chunk.length := by omega
    have hcap := hfull hsize
    exact ⟨hsize, hcap, by omega, by rw [ha.heap]; rfl⟩
  · have hroom := hs.room
    simp only [newCapacity, bufsiz, wordSize] at hlt hroom hc
    split at hlt <;> omega
  · refine .inl ⟨_, emit_ok ((hw _ _).trans hr), ?_, ?_, ?_, ?_⟩
    · refine ⟨hs.inv.append hr, ?_⟩
      rcases hcap with ⟨rfl, -⟩ | ⟨-, rfl, -⟩
      · exact hs.room
      · refine .inr ?_
        simp only [hc] at hle
        show wordSize ≤ newCapacity _
        omega
    · exact contents_bufferAppend hs.inv hr
    · simp
    · intro hu
      rcases hcap with ⟨-, rfl⟩ | ⟨-, -, rfl⟩
      · exact hu
      · simp [hu]

theorem raiseStackSize_writes (size : Nat) : Writes (raiseStackSize size) [] size := by
  intro s hs
  refine .inl ⟨_, proc_modify _, ?_⟩
  split
  · exact ⟨⟨hs.inv, hs.room⟩, by simp [Emitter.contents], by simp; omega, id⟩
  · exact ⟨hs, by simp, by omega, id⟩

-- ---------------------------------------------------------------------------
-- The code of a tree
-- ---------------------------------------------------------------------------

structure Compiles (P : Proc Emitter Unit → List Bytes → Nat → Prop) : Prop where
  seq : ∀ {p q ws ws' size size'}, P p ws size → P q ws' size' →
    P (p >>= fun _ => q) (ws ++ ws') (max size size')
  word : ∀ {write word}, word.length = wordSize →
    (∀ heap buffer, write heap buffer = bufferAppend heap buffer word) → P (emit write) [word] 0
  raise : ∀ size, P (raiseStackSize size) [] size

variable {ast : Ast} {P : Proc Emitter Unit → List Bytes → Nat → Prop}

theorem Compiles.code (hP : Compiles P) (code : ByteCode) :
    P (emitCode code) [opcodeBytes code] 0 := by
  refine hP.word (length_opcodeBytes code) fun heap buffer => ?_
  rw [bytecodeWriteInt, longBits_opcode, opcodeBytes]

/-- The compiler writes the postfix code of the expression below a node, and
records the stack height it needs on top of `h` values. -/
theorem Compiles.node (hP : Compiles P) {t : SlotTree} {fuel h : Nat} (ht : Holds ast.view t)
    (hf : t.erase.depth ≤ fuel) :
    P (nodeCompile ast fuel t.slot h) (t.erase.code.flatMap Instruction.writes)
      (t.erase.height h) := by
  induction t generalizing fuel h with
  | leaf s a =>
    obtain ⟨node, hn, hd⟩ := Ast.exists_node ht
    obtain ⟨fuel, rfl⟩ := Term.exists_succ hf
    simp only [Tree.slot_leaf] at hn
    cases a with
    | int value =>
      have hop := @Compiles.word P hP (bytecodeWriteInt · · value) _ (length_encodeLE _ _)
        (fun _ _ => rfl)
      have hw := hP.seq (hP.code .val) (hP.seq hop (hP.raise (h + 1)))
      simp only [nodeCompile, Tree.slot_leaf, hn, hd, Tree.shape_leaf]
      simpa [Term.code, Term.height, Instruction.writes] using hw
    | var argIndex =>
      have hop := @Compiles.word P hP (bytecodeWriteSize · · argIndex) _ (length_encodeLE _ _)
        (fun _ _ => rfl)
      have hw := hP.seq (hP.code .var) (hP.seq hop (hP.raise (h + 1)))
      simp only [nodeCompile, Tree.slot_leaf, hn, hd, Tree.shape_leaf]
      simpa [Term.code, Term.height, Instruction.writes] using hw
  | un s f c ih =>
    obtain ⟨node, hn, hd⟩ := Ast.exists_node ht
    obtain ⟨fuel, rfl⟩ := Term.exists_succ hf
    simp only [Tree.slot_un] at hn
    have hc := ih (h := h) ht.2 (by simpa using hf)
    have hw := hP.seq hc (hP.seq (hP.code .inv) (hP.raise (h + 1)))
    have hlt : h + 1 ≤ c.erase.height h := c.erase.lt_height h
    simp only [nodeCompile, Tree.slot_un, hn, hd, Tree.shape_un]
    simpa [Term.code, Term.height, Instruction.writes, hlt] using hw
  | bin s g l r ihl ihr =>
    obtain ⟨node, hn, hd⟩ := Ast.exists_node ht
    obtain ⟨fuel, rfl⟩ := Term.exists_succ hf
    simp only [Tree.erase, Term.depth, Nat.add_le_add_iff_right, max_le_iff] at hf
    simp only [Tree.slot_bin] at hn
    have hl := ihl (h := h) ht.2.1 hf.1
    have hr := ihr (h := h + 1) ht.2.2 hf.2
    have hw := hP.seq hl (hP.seq hr (hP.seq (hP.code g.opcode) (hP.raise (h + 1))))
    -- the right operand already needs the cell of the result
    have hlt : h + 1 ≤ r.erase.height (h + 1) := (r.erase.lt_height (h + 1)).le
    simp only [nodeCompile, Tree.slot_bin, hn, hd, Tree.shape_bin]
    simpa [Term.code, Term.height, Instruction.writes, hlt] using hw

def programWrites (t : Expr) : List Bytes :=
  encodeLE wordSize 0 :: (t.code.flatMap Instruction.writes ++ [opcodeBytes .ret])

theorem Compiles.program (hP : Compiles P) {t : SlotTree} (ht : Holds ast.view t)
    (hs : t.slot = ast.rootNodeIndex) (hd : t.erase.depth ≤ ast.nodesUsed) :
    P (do
      emit (bytecodeWriteSize · · 0)
      nodeCompile ast ast.nodesUsed ast.rootNodeIndex 0
      emitCode .ret) (programWrites t.erase) (t.erase.height 0) := by
  have hzero := @Compiles.word P hP (bytecodeWriteSize · · 0) _ (length_encodeLE _ _)
    (fun _ _ => rfl)
  have hw := hP.seq hzero (hP.seq (hP.node (h := 0) ht hd) (hP.code .ret))
  rw [hs] at hw
  simpa [programWrites] using hw

theorem compiles_writes : Compiles fun p ws size => Writes p ws.flatten size where
  seq hp hq := by
    rw [List.flatten_append]
    exact hp.seq hq
  word hlen hw := by
    rw [List.flatten_singleton]
    exact emit_writes hw hlen
  raise := raiseStackSize_writes

def program (t : Expr) : Bytes :=
  encodeLE wordSize (t.height 0) ++ (encode t.code ++ opcodeBytes .ret)

theorem flatten_programWrites (t : Expr) :
    (programWrites t).flatten = encodeLE wordSize 0 ++ (encode t.code ++ opcodeBytes .ret) := by
  simp [programWrites, flatten_writes]

/-- Everything the compiler can do with a well-formed tree: fail for lack of
memory, or write the program of the expression. -/
theorem bytecodeCompile_cases {t : SlotTree} (heap : Heap) (ht : Holds ast.view t)
    (hs : t.slot = ast.rootNodeIndex) (hd : t.erase.depth ≤ ast.nodesUsed) :
    ∃ bytecode, bytecodeCompile heap ast = .ok bytecode ∧
      (bytecode.stackSize ≠ 0 → bytecode.stackSize = t.erase.height 0 ∧
        bytecode.bytes.contents = program t.erase ∧ (program t.erase).length ≤ sizeMax ∧
        bytecode.bytes.used = (program t.erase).length) ∧
      (bytecode.stackSize = 0 → heap = Heap.unlimited →
        sizeMax / 2 < (program t.erase).length) := by
  have hw := compiles_writes.program ht hs hd
  rw [flatten_programWrites] at hw
  have hpos := t.erase.lt_height 0
  unfold bytecodeCompile
  rcases hw ⟨⟨Buffer.init, 0⟩, heap⟩ ⟨Buffer.inv_init, .inl rfl⟩ with
    ⟨s, h, hs, hc, hz, -⟩ | ⟨s, h, hn⟩
  · replace hc : s.bytecode.bytes.contents = encodeLE wordSize 0 ++
        (encode t.erase.code ++ opcodeBytes .ret) := hc
    have hsize : s.bytecode.stackSize = t.erase.height 0 := by simpa using hz
    obtain ⟨data, hm, hdata⟩ := exists_memcpy (encodeLE wordSize s.bytecode.stackSize)
      hs.inv hc (by simp)
    have hused : s.bytecode.bytes.used = (program t.erase).length := by
      rw [hs.used, Emitter.contents, hc]
      simp [program]
    refine ⟨{ s.bytecode with bytes := { s.bytecode.bytes with data } },
      by simp only [h, hm, ok_bind, pure_eq_ok], fun _ => ⟨hsize, ?_, ?_, hused⟩, fun h0 => ?_⟩
    · rw [program, ← hsize]
      exact hdata
    · exact hused ▸ hs.inv.used_le.trans hs.inv.capacity_le
    · exact absurd (hsize.symm.trans h0) hpos.ne'
  · refine ⟨{ s.bytecode with stackSize := 0 }, by simp only [h], by simp, fun _ hu => ?_⟩
    by_contra hle
    refine hn ⟨hu, ?_⟩
    simp only [program, List.length_append, length_encodeLE, length_opcodeBytes] at hle ⊢
    simp only [Emitter.contents, Buffer.contents, Buffer.init, List.take_nil, List.length_nil]
    omega

end ParserExample
