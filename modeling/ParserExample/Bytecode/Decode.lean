import ParserExample.Bytecode.Interpreter
import ParserExample.Printer

/-!
# The disassembler

`bytecodePrint` reads a program from its first instruction on, one opcode and
its operand at a time, up to `RET`. On a compiled tree it reads back the
postfix code of the tree and nothing else, so the program determines the tree.
-/

namespace ParserExample

open Library

/-- The loop of `bytecode_print`, its output aside: the instructions it comes
to, and where `codeptr` is behind `RET`. The first argument bounds the number
of turns. -/
def disassemble (bytes : Bytes) : Nat → Nat → Except Fault (List Instruction × Nat)
  | 0, _ => .error .fuel
  | fuel + 1, codeptr => do
    let code ← readWord bytes codeptr
    let visit (i : Instruction) (codeptr : Nat) : Except Fault (List Instruction × Nat) := do
      let (rest, codeptr) ← disassemble bytes fuel codeptr
      return (i :: rest, codeptr)
    match ByteCode.ofNat? code with
    | some .add => visit (.bin .add) (codeptr + wordSize)
    | some .sub => visit (.bin .sub) (codeptr + wordSize)
    | some .mul => visit (.bin .mul) (codeptr + wordSize)
    | some .div => visit (.bin .div) (codeptr + wordSize)
    | some .inv => visit (.un ()) (codeptr + wordSize)
    | some .val =>
      let value ← readWord bytes (codeptr + wordSize)
      visit (.push (.int (longOfBits value))) (codeptr + wordSize + wordSize)
    | some .var =>
      let argIndex ← readWord bytes (codeptr + wordSize)
      visit (.push (.var argIndex)) (codeptr + wordSize + wordSize)
    | some .ret => return ([], codeptr + wordSize)
    -- the switch has no default case
    | none => disassemble bytes fuel (codeptr + wordSize)

def Instruction.line (args : List Bytes) : Instruction → Except Fault Bytes
  | .bin .add => return ascii "ADD\n"
  | .bin .sub => return ascii "SUB\n"
  | .bin .mul => return ascii "MUL\n"
  | .bin .div => return ascii "DIV\n"
  | .un () => return ascii "INV\n"
  | .push (.int value) => return ascii "VAL " ++ formatLong value ++ [newline]
  | .push (.var argIndex) => do
    let name ← readName args argIndex
    return ascii "VAR " ++ name ++ [newline]

/-- The line that gives the height of the stack and its size in bytes, which
can wrap around. -/
def stackSizeLine (cells : Nat) : Bytes :=
  let stackSize := wordSize * cells % (sizeMax + 1)
  ascii "stack size: " ++ formatNat (stackSize / wordSize) ++ ascii " cells (" ++
    formatNat stackSize ++ ascii " B)\n\n"

/-- What `bytecode_print` writes to `stdout` and to the stream. Every turn
reads a word, so there are fewer turns than bytes. -/
def bytecodePrint (bytes : Bytes) (args : List Bytes) : Except Fault (Bytes × Bytes) := do
  let cells ← readWord bytes 0
  let (instructions, _) ← disassemble bytes bytes.length wordSize
  let lines ← instructions.mapM (Instruction.line args)
  return (stackSizeLine cells, lines.flatten ++ ascii "RET\n")

section
variable {front back : Bytes} {ast : Ast}

theorem disassemble_instruction {i : Instruction} (hi : i.Fits) (fuel : Nat) :
    disassemble (front ++ (i.encode ++ back)) (fuel + 1) front.length =
      (fun r => (i :: r.1, r.2)) <$>
        disassemble (front ++ (i.encode ++ back)) fuel (front.length + i.encode.length) := by
  simp only [Instruction.encode, List.append_assoc, disassemble, readWord_opcode, ok_bind,
    ByteCode.ofNat?_toNat, List.length_append, length_opcodeBytes]
  rcases i with (value | argIndex) | _ | type
  · simp only [Instruction.opcode, Instruction.operand, readWord_operand _ (longBits_lt value),
      ok_bind, longOfBits_longBits, length_encodeLE, Nat.add_assoc]
    rfl
  · have ha : argIndex < 256 ^ wordSize :=
      Nat.lt_of_le_of_lt (show argIndex ≤ sizeMax from hi) (by decide)
    simp only [Instruction.opcode, Instruction.operand, readWord_operand _ ha, ok_bind,
      length_encodeLE, Nat.add_assoc]
    rfl
  · rfl
  · cases type <;> rfl

theorem disassemble_encode {code : List Instruction} (hc : ∀ i ∈ code, i.Fits) (fuel : Nat) :
    disassemble (front ++ (encode code ++ back)) (fuel + code.length) front.length =
      (fun r => (code ++ r.1, r.2)) <$> disassemble (front ++ (encode code ++ back)) fuel
        (front.length + (encode code).length) := by
  induction code generalizing front with
  | nil => simp
  | cons i code ih =>
    have hi := @disassemble_instruction front (encode code ++ back) i (hc i (by simp))
    have hr := @ih (front ++ i.encode) fun j hj => hc j (by simp [hj])
    simp only [List.append_assoc, List.length_append, Nat.add_assoc] at hr
    simp only [encode_cons, List.append_assoc, List.length_cons, List.length_append,
      ← Nat.add_assoc, hi]
    simp only [Nat.add_assoc, hr, ← comp_map]
    rfl

theorem disassemble_program {t : Expr} (hc : ∀ i ∈ t.code, Instruction.Fits i) :
    disassemble (program t) (program t).length wordSize = .ok (t.code, (program t).length) := by
  have hlen : (program t).length = wordSize + (encode t.code).length + wordSize := by
    simp [program, Nat.add_assoc]
  obtain ⟨n, hn⟩ : ∃ n, (program t).length = n + 1 + t.code.length := by
    have hcode := length_le_encode t.code
    refine ⟨(program t).length - 1 - t.code.length, ?_⟩
    simp only [wordSize] at *
    omega
  have hcode := @disassemble_encode (encodeLE wordSize (t.height 0)) (opcodeBytes .ret) _ hc (n + 1)
  have hret := @readWord_opcode (encodeLE wordSize (t.height 0) ++ encode t.code) [] .ret
  simp only [List.append_assoc, List.length_append, length_encodeLE, List.append_nil] at hcode hret
  rw [hn, program, hcode, disassemble, hret, ← hn, hlen]
  simp [ByteCode.ofNat?_toNat]

theorem program_injective {t t' : Expr} (hc : ∀ i ∈ t.code, Instruction.Fits i)
    (hc' : ∀ i ∈ t'.code, Instruction.Fits i) (h : program t = program t') : t = t' := by
  have hd := disassemble_program hc
  rw [h, disassemble_program hc'] at hd
  refine Term.code_injective ?_
  simpa using hd.symm

/-- The loop of the disassembler reads a compiled tree back: it comes to the
instructions of the tree in post-order and then to `RET`, with nothing left
over. Two trees with the same program are the same but for the slots and the
source positions of their nodes. -/
theorem disassemble_bytecodeCompile (heap : Heap) (hw : ast.WellFormed) :
    ∃ t bytecode, Holds ast.view t ∧ t.slot = ast.rootNodeIndex ∧
      bytecodeCompile heap ast = .ok bytecode ∧
      (heap = Heap.unlimited → (program t.erase).length ≤ sizeMax / 2 →
        bytecode.stackSize ≠ 0) ∧
      (bytecode.stackSize ≠ 0 →
        disassemble bytecode.bytes.contents bytecode.bytes.contents.length wordSize =
          .ok (t.erase.code, bytecode.bytes.contents.length) ∧
        ∀ heap' ast' t' bytecode', Ast.WellFormed ast' → Holds ast'.view t' →
          t'.slot = ast'.rootNodeIndex → bytecodeCompile heap' ast' = .ok bytecode' →
          bytecode'.stackSize ≠ 0 → bytecode'.bytes.contents = bytecode.bytes.contents →
          t'.erase = t.erase) := by
  obtain ⟨t, ht, hs, hd⟩ := hw.exists_holds
  obtain ⟨bytecode, hcompile, hok, hfail⟩ := bytecodeCompile_cases heap ht hs hd
  refine ⟨t, bytecode, ht, hs, hcompile, fun hu hsize hz => ?_, fun hz => ?_⟩
  · exact absurd hsize (Nat.not_le.mpr (hfail hz hu))
  obtain ⟨-, hbytes, -⟩ := hok hz
  rw [hbytes]
  refine ⟨disassemble_program (hw.fits ht hs), ?_⟩
  intro heap' ast' t' bytecode' hw' ht' hs' hcompile' hz' hsame
  obtain ⟨u, hu, hus, hud⟩ := hw'.exists_holds
  obtain rfl : t' = u := ht'.unique hu (hs'.trans hus.symm)
  obtain ⟨bytecode₁, hcompile₁, hok₁, -⟩ := bytecodeCompile_cases heap' ht' hs' hud
  obtain rfl : bytecode' = bytecode₁ := by simpa [hcompile'] using hcompile₁
  exact program_injective (hw'.fits ht' hs') (hw.fits ht hs) ((hok₁ hz').2.1.symm.trans hsame)

theorem disassemble_bytecodeCompile_quotient :
    ∃ t bytecode, Holds quotientAst.view t ∧
      bytecodeCompile Heap.unlimited quotientAst = .ok bytecode ∧ bytecode.stackSize ≠ 0 ∧
        disassemble bytecode.bytes.contents bytecode.bytes.contents.length wordSize =
          .ok (t.erase.code, bytecode.bytes.contents.length) := by
  obtain ⟨t, bytecode, ht, -, hc, -, hok⟩ :=
    disassemble_bytecodeCompile Heap.unlimited quotientAst_wellFormed
  have hz := stackSize_quotientAst hc
  exact ⟨t, bytecode, ht, hc, hz, (hok hz).1⟩

def Instruction.text (args : List Bytes) : Instruction → Bytes
  | .bin .add => ascii "ADD\n"
  | .bin .sub => ascii "SUB\n"
  | .bin .mul => ascii "MUL\n"
  | .bin .div => ascii "DIV\n"
  | .un () => ascii "INV\n"
  | .push (.int value) => ascii "VAL " ++ ascii (toString value.toInt) ++ ascii "\n"
  | .push (.var argIndex) => ascii "VAR " ++ args[argIndex]?.getD [] ++ ascii "\n"

theorem Instruction.line_eq {args : List Bytes} {i : Instruction}
    (h : ∀ argIndex, i = .push (.var argIndex) → argIndex < args.length) :
    Instruction.line args i = .ok (Instruction.text args i) := by
  have hnewline : ascii "\n" = [newline] := rfl
  rcases i with (value | argIndex) | _ | type
  · rw [Instruction.line, Instruction.text, formatLong_toString, hnewline]
    rfl
  · have hlt := h argIndex rfl
    simp only [Instruction.line, Instruction.text, readName, List.getElem?_eq_getElem hlt, ok_bind,
      hnewline]
    rfl
  · rfl
  · cases type <;> rfl

/-- With a name for every variable the disassembler prints the height of the stack and
its size in bytes, and a line for every instruction. -/
theorem bytecodePrint_program {t : Expr} {args : List Bytes}
    (hc : ∀ i ∈ t.code, Instruction.Fits i) (hp : (program t).length ≤ sizeMax)
    (hv : ∀ a, .var a ∈ t.leaves → a < args.length) :
    bytecodePrint (program t) args =
      .ok (ascii "stack size: " ++ ascii (toString (t.height 0)) ++ ascii " cells (" ++
          ascii (toString (wordSize * t.height 0)) ++ ascii " B)\n\n",
        (t.code.map (Instruction.text args)).flatten ++ ascii "RET\n") := by
  have hlines : t.code.mapM (Instruction.line args) = .ok (t.code.map (Instruction.text args)) := by
    have hline : ∀ i ∈ t.code, Instruction.line args i = .ok (Instruction.text args i) := by
      intro i hi
      refine Instruction.line_eq ?_
      rintro argIndex rfl
      exact hv argIndex (Term.push_mem_code.mp hi)
    generalize Term.code t = code at hline
    induction code with
    | nil => rfl
    | cons i code ih =>
      have hi := hline i (by simp)
      have hcode := ih fun j hj => hline j (by simp [hj])
      simp [hi, hcode]
  have hsize := Nat.mod_eq_of_lt (Nat.lt_succ_of_le (height_le hp))
  have hcells : wordSize * t.height 0 / wordSize = t.height 0 :=
    Nat.mul_div_cancel_left _ (by decide)
  simp only [bytecodePrint, readWord_program hp, ok_bind, disassemble_program hc, hlines,
    pure_eq_ok, stackSizeLine, formatNat_toString, hsize, hcells]

end

end ParserExample
