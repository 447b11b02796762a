import ParserExample.Bytecode.Compiler

/-!
# The interpreter on compiled programs

On the bytes of a program `vmStep` is one step of the stack machine of
`Library.Machine`, so the interpreter computes the value of the expression the
program was compiled from. The positions it can reach are the positions
between the instructions of the code, which is what keeps it inside the code
and inside its stack.
-/

namespace ParserExample

open Library

def machine (args : List Long) (stackSize : Nat) : Machine Fault Long BinaryType Unit Leaf :=
  { meaning args with
    limit := stackSize
    underflow := .bounds
    overflow := .overrun }

def Instruction.Fits : Instruction → Prop
  | .push (.var argIndex) => argIndex ≤ sizeMax
  | _ => True

variable {args : List Long} {stackSize : Nat} {st st' : List Long} {front back bytes : Bytes}

theorem longOfBits_longBits (value : Long) : longOfBits (longBits value) = value := by
  simp [longOfBits, longBits]

theorem longBits_lt (value : Long) : longBits value < 256 ^ wordSize :=
  (value.toUInt64.toNat_lt).trans_eq (by decide)

theorem readWord_opcode (code : ByteCode) :
    readWord (front ++ (opcodeBytes code ++ back)) front.length = .ok code.toNat := by
  rw [readWord, opcodeBytes, wordAt_append code.toNat_lt]

theorem readWord_operand (code : ByteCode) {n : Nat} (h : n < 256 ^ wordSize) :
    readWord (front ++ (opcodeBytes code ++ (encodeLE wordSize n ++ back)))
      (front.length + wordSize) = .ok n := by
  have hw := wordAt_append h (front ++ opcodeBytes code) back
  simp only [List.append_assoc, List.length_append, length_opcodeBytes] at hw
  rw [readWord, hw]

theorem vmBinary_eq (type : BinaryType) (codeptr : Nat) :
    vmBinary type ⟨codeptr, st⟩ =
      (fun st' => VmStep.next ⟨codeptr + wordSize, st'⟩) <$>
        (machine args stackSize).step (.bin type) st := by
  match st with
  | [] | [_] => rfl
  | right :: left :: st =>
    simp only [vmBinary, Machine.step, machine, meaning]
    cases type.apply left right <;> rfl

/-- One instruction of the interpreter is one step of the stack machine. -/
theorem vmStep_encode {i : Instruction} (hi : i.Fits) :
    vmStep (front ++ (i.encode ++ back)) args stackSize ⟨front.length, st⟩ =
      (fun st' => .next ⟨front.length + i.encode.length, st'⟩) <$>
        (machine args stackSize).step i st := by
  simp only [Instruction.encode, List.append_assoc, vmStep, readWord_opcode, ok_bind,
    ByteCode.ofNat?_toNat, List.length_append, length_opcodeBytes]
  rcases i with (value | argIndex) | _ | type
  · simp only [Instruction.opcode, Instruction.operand, readWord_operand _ (longBits_lt value),
      ok_bind, longOfBits_longBits, push, Machine.step, machine, meaning]
    by_cases hl : st.length < stackSize <;> simp [hl, Nat.add_assoc]
  · have ha : argIndex < 256 ^ wordSize :=
      Nat.lt_of_le_of_lt (show argIndex ≤ sizeMax from hi) (by decide)
    simp only [Instruction.opcode, Instruction.operand, readWord_operand _ ha, ok_bind,
      push, Machine.step, machine, meaning]
    cases readArg args argIndex with
    | error f => rfl
    | ok value =>
      simp only [ok_bind]
      by_cases hl : st.length < stackSize <;> simp [hl, Nat.add_assoc]
  · cases st <;> rfl
  · cases type <;> exact vmBinary_eq _ _

theorem vmStep_ret :
    vmStep (front ++ (opcodeBytes .ret ++ back)) args stackSize ⟨front.length, st⟩ =
      match st with
      | result :: _ => .ok (.ret result)
      | [] => .error .bounds := by
  simp only [vmStep, readWord_opcode, ok_bind, ByteCode.ofNat?_toNat]
  cases st <;> rfl

theorem vmRun_encode {code : List Instruction} (hc : ∀ i ∈ code, i.Fits) (fuel : Nat) :
    vmRun (front ++ (encode code ++ back)) args stackSize (fuel + code.length)
        ⟨front.length, st⟩ =
      (machine args stackSize).exec code st >>= fun st' =>
        vmRun (front ++ (encode code ++ back)) args stackSize fuel
          ⟨front.length + (encode code).length, st'⟩ := by
  induction code generalizing front st with
  | nil => simp [Machine.exec]
  | cons i code ih =>
    have hs := @vmStep_encode args stackSize st front (encode code ++ back) i (hc i (by simp))
    simp only [encode_cons, List.append_assoc, List.length_cons, ← Nat.add_assoc, vmRun, hs,
      Machine.exec]
    cases (machine args stackSize).step i st with
    | error f => rfl
    | ok st' =>
      have hr := @ih st' (front ++ i.encode) fun j hj => hc j (by simp [hj])
      simp only [List.append_assoc, List.length_append, Nat.add_assoc] at hr
      simpa [Nat.add_assoc] using hr

-- ---------------------------------------------------------------------------
-- The value of a program
-- ---------------------------------------------------------------------------

variable {ast : Ast} {t : SlotTree}

theorem Ast.WellFormed.fits (hw : ast.WellFormed) (ht : Holds ast.view t)
    (hs : t.slot = ast.rootNodeIndex) : ∀ i ∈ t.erase.code, Instruction.Fits i := by
  intro i hi
  rcases i with (value | argIndex) | _ | type
  · trivial
  · obtain ⟨j, hj, hv⟩ := ht.mem_leaves_iff.mp (Term.push_mem_code.mp hi)
    exact hw.argIndex j argIndex (hs ▸ hj) hv
  · trivial
  · trivial

theorem height_le {t : Expr} (hp : (program t).length ≤ sizeMax) :
    wordSize * t.height 0 ≤ sizeMax := by
  have hh := (t.height_le 0).trans_eq (Nat.zero_add _)
  have hcode := length_le_encode t.code
  have hsize := t.depth_le_size
  rw [← t.length_code] at hsize
  simp only [program, List.length_append, length_encodeLE, length_opcodeBytes] at hp
  simp only [wordSize] at *
  omega

theorem stackCells_height {t : Expr} (hp : (program t).length ≤ sizeMax) :
    stackCells (t.height 0) = t.height 0 := by
  have hh := height_le hp
  rw [stackCells, Nat.mod_eq_of_lt (Nat.lt_succ_of_le hh), Nat.mul_div_cancel_left _ (by decide)]

theorem readWord_program {t : Expr} (hp : (program t).length ≤ sizeMax) :
    readWord (program t) 0 = .ok (t.height 0) := by
  have hh := height_le hp
  have hlt : t.height 0 < 256 ^ wordSize := by
    simp only [wordSize, sizeMax] at *
    omega
  have hw := wordAt_append hlt [] (encode t.code ++ opcodeBytes .ret)
  simp only [List.nil_append, List.length_nil] at hw
  rw [program, readWord, hw]

theorem bytecodeEval_program {t : Expr} (hc : ∀ i ∈ t.code, Instruction.Fits i)
    (hp : (program t).length ≤ sizeMax) :
    bytecodeEval true (program t) args = t.eval (meaning args) := by
  obtain ⟨n, hn⟩ : ∃ n, (program t).length = n + 1 + t.code.length := by
    have hlen : (program t).length = wordSize + (encode t.code).length + wordSize := by
      simp [program, Nat.add_assoc]
    have hcode := length_le_encode t.code
    refine ⟨(program t).length - 1 - t.code.length, ?_⟩
    simp only [wordSize] at *
    omega
  have hrun := @vmRun_encode args (t.height 0) [] (encodeLE wordSize (t.height 0))
    (opcodeBytes .ret) _ hc (n + 1)
  have hexec := Machine.exec_code (machine args (t.height 0)) [] t le_rfl
  have hret (value : Long) := @vmStep_ret args (t.height 0) [value]
    (encodeLE wordSize (t.height 0) ++ encode t.code) []
  simp only [List.append_nil, List.append_assoc, List.length_append, length_encodeLE] at hret
  rw [length_encodeLE] at hrun
  simp only [bytecodeEval, readWord_program hp, stackCells_height hp, ok_bind, if_true, hn]
  rw [program, hrun, hexec]
  show _ = t.eval (machine args (t.height 0)).toMeaning
  cases t.eval (machine args (t.height 0)).toMeaning with
  | error f => rfl
  | ok value =>
    simp only [map_ok, ok_bind, vmRun, hret]
    rfl

/-- Running the compiled tree gives the value that interpreting the tree gives,
and traps on a division exactly when interpreting the tree does. Compiling
fails, with a stack size of 0, only for lack of memory. -/
theorem bytecodeEval_bytecodeCompile (heap : Heap) (hw : ast.WellFormed)
    (hv : ast.VarsBelow args.length) :
    ∃ bytecode, bytecodeCompile heap ast = .ok bytecode ∧
      (bytecode.stackSize ≠ 0 →
        (∃ value, astEval ast args = .ok value ∧
          bytecodeEval true bytecode.bytes.contents args = .ok value) ∨
        (astEval ast args = .error .division ∧
          bytecodeEval true bytecode.bytes.contents args = .error .division)) ∧
      (heap = Heap.unlimited →
        (∀ t, Holds ast.view t → t.slot = ast.rootNodeIndex →
          (program t.erase).length ≤ sizeMax / 2) → bytecode.stackSize ≠ 0) := by
  obtain ⟨t, ht, hs, hd⟩ := hw.exists_holds
  obtain ⟨bytecode, hc, hok, hfail⟩ := bytecodeCompile_cases heap ht hs hd
  refine ⟨bytecode, hc, fun hz => ?_, fun hu hsize hz => ?_⟩
  · obtain ⟨-, hbytes, hp, -⟩ := hok hz
    rw [hbytes, bytecodeEval_program (hw.fits ht hs) hp, Ast.astEval_eq ht hs hd]
    rcases eval_cases ((Ast.varsBelow_iff ht hs).mp hv) with ⟨value, he⟩ | he
    · exact .inl ⟨value, he, he⟩
    · exact .inr ⟨he, he⟩
  · exact absurd (hsize t ht hs) (Nat.not_le.mpr (hfail hz hu))

/-- The parsed tree of `a / 3`. -/
def quotientAst : Ast :=
  ⟨[⟨0, 1, .leaf (.var 0)⟩, ⟨4, 5, .leaf (.int 3)⟩, ⟨2, 3, .bin .div 0 1⟩], 64⟩

def quotientTree : SlotTree := .bin 2 .div (.leaf 0 (.var 0)) (.leaf 1 (.int 3))

theorem quotientAst_holds : Holds quotientAst.view quotientTree := by decide

theorem quotientAst_wellFormed : quotientAst.WellFormed :=
  Ast.wellFormed_of_holds quotientAst_holds rfl (by simp [quotientTree])

theorem quotientAst_varsBelow : quotientAst.VarsBelow 1 :=
  (Ast.varsBelow_iff quotientAst_holds rfl).mpr (by simp [quotientTree])

theorem quotientAst_compiles :
    (bytecodeCompile Heap.unlimited quotientAst).map Bytecode.stackSize = .ok 2 := by
  decide +kernel

theorem stackSize_quotientAst {bytecode : Bytecode}
    (h : bytecodeCompile Heap.unlimited quotientAst = .ok bytecode) : bytecode.stackSize ≠ 0 := by
  have hcompiles := quotientAst_compiles
  rw [h] at hcompiles
  simp [Except.ok.inj hcompiles]

theorem bytecodeEval_bytecodeCompile_quotient :
    ∃ bytecode, bytecodeCompile Heap.unlimited quotientAst = .ok bytecode ∧
      bytecode.stackSize ≠ 0 ∧ ∃ value, astEval quotientAst [7] = .ok value ∧
        bytecodeEval true bytecode.bytes.contents [7] = .ok value := by
  obtain ⟨bytecode, hc, hsame, -⟩ :=
    bytecodeEval_bytecodeCompile Heap.unlimited quotientAst_wellFormed
      (show quotientAst.VarsBelow ([7] : List Long).length from quotientAst_varsBelow)
  have hz := stackSize_quotientAst hc
  have heval : astEval quotientAst [7] = .ok 2 := by decide +kernel
  rcases hsame hz with hvalue | ⟨htrap, -⟩
  · exact ⟨bytecode, hc, hz, hvalue⟩
  · rw [heval] at htrap
    cases htrap

-- ---------------------------------------------------------------------------
-- The states of a run
-- ---------------------------------------------------------------------------

/-- The states in which a run of `bytecodeEval` dispatches an instruction. -/
def VmReaches (bytes : Bytes) (args : List Long) (stackSize : Nat) : Vm → Prop :=
  Relation.ReflTransGen (fun vm vm' => vmStep bytes args stackSize vm = .ok (.next vm'))
    ⟨wordSize, []⟩

/-- The compiler wrote an opcode at an offset of the program. -/
inductive OpcodeAt (code : List Instruction) : Nat → ByteCode → Prop
  | instruction (front : List Instruction) (i : Instruction) (back : List Instruction)
      (split : code = front ++ i :: back) :
      OpcodeAt code (wordSize + (encode front).length) i.opcode
  | ret : OpcodeAt code (wordSize + (encode code).length) .ret

theorem OpcodeAt.dvd {code : List Instruction} {offset : Nat} {op : ByteCode}
    (h : OpcodeAt code offset op) : wordSize ∣ offset := by
  cases h with
  | instruction front i back split => exact dvd_add dvd_rfl (length_encode front)
  | ret => exact dvd_add dvd_rfl (length_encode code)

def StackOk (stackSize height : Nat) : ByteCode → Prop
  | .add | .sub | .mul | .div => 2 ≤ height
  | .inv => 1 ≤ height
  | .val | .var => height < stackSize
  | .ret => height = 1

theorem opcode_ne_ret (i : Instruction) : i.opcode ≠ .ret := by
  rcases i with (_ | _) | _ | type
  · exact nofun
  · exact nofun
  · exact nofun
  · cases type <;> exact nofun

theorem stackOk_opcode {i : Instruction} {height : Nat} (hn : i.need ≤ height)
    (hl : i.after height ≤ stackSize) : StackOk stackSize height i.opcode := by
  rcases i with (_ | _) | _ | type
  · exact hl
  · exact hl
  · exact hn
  · cases type <;> exact hn

section
variable {t : Expr} {pre post : List Instruction} {i : Instruction} {vm : Vm}

theorem vmStep_program (hc : ∀ i ∈ t.code, Instruction.Fits i) (h : t.code = pre ++ i :: post) :
    vmStep (program t) args stackSize ⟨wordSize + (encode pre).length, st⟩ =
      (fun st' => .next ⟨wordSize + (encode (pre ++ [i])).length, st'⟩) <$>
        (machine args stackSize).step i st := by
  have hs := @vmStep_encode args stackSize st (encodeLE wordSize (t.height 0) ++ encode pre)
    (encode post ++ opcodeBytes .ret) i (hc i (by simp [h]))
  simp only [List.append_assoc, List.length_append, length_encodeLE] at hs
  simpa [program, h, Nat.add_assoc] using hs

theorem vmStep_program_ret :
    vmStep (program t) args stackSize ⟨wordSize + (encode t.code).length, st⟩ =
      match st with
      | result :: _ => .ok (.ret result)
      | [] => .error .bounds := by
  have hs := @vmStep_ret args stackSize st (encodeLE wordSize (t.height 0) ++ encode t.code) []
  simp only [List.append_assoc, List.length_append, length_encodeLE, List.append_nil] at hs
  exact hs

/-- A run stops between two instructions, with the stack that the instructions
so far leave. -/
theorem vmReaches_iff (hc : ∀ i ∈ t.code, Instruction.Fits i) :
    VmReaches (program t) args stackSize vm ↔
      ∃ pre post, t.code = pre ++ post ∧ vm.codeptr = wordSize + (encode pre).length ∧
        (machine args stackSize).exec pre [] = .ok vm.stack := by
  constructor
  · intro h
    induction h with
    | refl => exact ⟨[], t.code, rfl, rfl, rfl⟩
    | @tail vm vm' _ hstep ih =>
      obtain ⟨codeptr, st⟩ := vm
      obtain ⟨pre, post, hcode, rfl, hst⟩ := ih
      cases post with
      | nil =>
        obtain rfl : t.code = pre := by simpa using hcode
        rw [vmStep_program_ret] at hstep
        split at hstep <;> simp at hstep
      | cons i post =>
        rw [vmStep_program hc hcode] at hstep
        cases hi : (machine args stackSize).step i st with
        | error f => simp [hi] at hstep
        | ok st' =>
          obtain rfl : ⟨wordSize + (encode (pre ++ [i])).length, st'⟩ = vm' := by
            simpa [hi] using hstep
          refine ⟨pre ++ [i], post, by simp [hcode], rfl, ?_⟩
          simp [Machine.exec_append, hst, Machine.exec_singleton, hi]
  · obtain ⟨codeptr, st⟩ := vm
    rintro ⟨pre, post, hcode, rfl, hst⟩
    induction pre using List.reverseRecOn generalizing st post with
    | nil =>
      obtain rfl : [] = st := by simpa [Machine.exec] using hst
      exact .refl
    | append_singleton pre i ih =>
      obtain ⟨st₁, h₁, hi⟩ := bind_ok.mp (Machine.exec_append.symm.trans hst)
      rw [Machine.exec_singleton] at hi
      have hr := ih st₁ (i :: post) (by simpa using hcode) h₁
      refine hr.tail ?_
      rw [vmStep_program hc (by simpa using hcode), hi]
      rfl

theorem vmReaches_ok (hc : ∀ i ∈ t.code, Instruction.Fits i)
    (h : VmReaches (program t) args (t.height 0) vm) :
    ∃ code, OpcodeAt t.code vm.codeptr code ∧
      readWord (program t) vm.codeptr = .ok code.toNat ∧
      StackOk (t.height 0) vm.stack.length code ∧
      (code = .ret → vm.codeptr + wordSize = (program t).length) := by
  obtain ⟨pre, post, hcode, hptr, hst⟩ := (vmReaches_iff hc).mp h
  have hlen := Machine.length_exec hst
  cases post with
  | nil =>
    obtain rfl : t.code = pre := by simpa using hcode
    have hword := @readWord_opcode (encodeLE wordSize (t.height 0) ++ encode t.code) [] .ret
    simp only [List.append_assoc, List.length_append, length_encodeLE, List.append_nil] at hword
    refine ⟨.ret, hptr ▸ .ret, hptr ▸ hword, ?_, fun _ => ?_⟩
    · simpa [StackOk] using hlen
    · simp [hptr, program, Nat.add_assoc]
  | cons i post =>
    have hword := @readWord_opcode (encodeLE wordSize (t.height 0) ++ encode pre)
      (Instruction.operand i ++ (encode post ++ opcodeBytes .ret)) (Instruction.opcode i)
    simp only [List.append_assoc, List.length_append, length_encodeLE] at hword
    have hsafe := t.safe_code 0 (t.height 0) le_rfl
    rw [hcode] at hsafe
    have hi := hsafe.at
    refine ⟨Instruction.opcode i, hptr ▸ .instruction pre i post hcode, ?_, ?_,
      fun h => absurd h (opcode_ne_ret i)⟩
    · simpa [program, hcode, hptr, Instruction.encode] using hword
    · rw [hlen]
      exact stackOk_opcode (by simpa using hi.1) hi.2

theorem step_error {f : Fault} (hi : ∀ a, i = .push (.var a) → a < args.length)
    (hn : i.need ≤ st.length) (hl : i.after st.length ≤ stackSize)
    (he : (machine args stackSize).step i st = .error f) : f = .division := by
  rcases i with a | g | type
  · have hleaf : ∃ value, (meaning args).leaf a = .ok value := by
      cases a with
      | int value => exact ⟨value, rfl⟩
      | var argIndex =>
        have hlt := hi argIndex rfl
        exact ⟨args[argIndex], by simp [readArg, hlt]⟩
    obtain ⟨value, hv⟩ := hleaf
    have hlt : st.length < stackSize := hl
    simp only [Machine.step, show (machine args stackSize).leaf a = .ok value from hv, ok_bind,
      show st.length < (machine args stackSize).limit from hlt, if_true] at he
    exact absurd he (by simp)
  · cases st with
    | nil => exact absurd hn (by simp [Instr.need])
    | cons value st => exact absurd he (by simp [Machine.step, machine])
  · rcases st with _ | ⟨right, _ | ⟨left, st⟩⟩
    · exact absurd hn (by simp [Instr.need])
    · exact absurd hn (by simp [Instr.need])
    · rcases bind_error.mp he with he | ⟨value, -, he⟩
      · rcases type.apply_cases left right with ⟨value, hv⟩ | hv
        · exact absurd (hv.symm.trans he) (by simp)
        · exact (Except.error.inj (hv.symm.trans he)).symm
      · exact absurd he (by simp)

theorem vmReaches_error (hc : ∀ i ∈ t.code, Instruction.Fits i)
    (hv : ∀ a, .var a ∈ t.leaves → a < args.length)
    (h : VmReaches (program t) args (t.height 0) vm) {f : Fault}
    (he : vmStep (program t) args (t.height 0) vm = .error f) : f = .division := by
  obtain ⟨codeptr, st⟩ := vm
  obtain ⟨pre, post, hcode, rfl, hst⟩ := (vmReaches_iff hc).mp h
  have hlen : st.length = after pre 0 := Machine.length_exec hst
  cases post with
  | nil =>
    obtain rfl : t.code = pre := by simpa using hcode
    rw [vmStep_program_ret] at he
    match st with
    | [] => simp at hlen
    | _ :: _ => simp at he
  | cons i post =>
    have hsafe := t.safe_code 0 (t.height 0) le_rfl
    rw [hcode] at hsafe
    have hi := hsafe.at
    rw [← hlen] at hi
    rw [vmStep_program hc hcode] at he
    cases hstep : (machine args (t.height 0)).step i st with
    | error f' =>
      obtain rfl : f' = f := by simpa [hstep] using he
      refine step_error (fun a ha => hv a ?_) (by simpa using hi.1) hi.2 hstep
      exact Term.push_mem_code.mp (by simp [hcode, ha])
    | ok st' => simp [hstep] at he

theorem isGreatest_height (hc : ∀ i ∈ t.code, Instruction.Fits i) {value : Long}
    (hv : t.eval (meaning args) = .ok value) :
    IsGreatest {n | ∃ vm, VmReaches (program t) args (t.height 0) vm ∧ n = vm.stack.length}
      (t.height 0) := by
  constructor
  · obtain ⟨pre, post, hcode, hheight⟩ := t.exists_height 0
    have hexec := Machine.exec_code (machine args (t.height 0)) [] t le_rfl
    rw [show t.eval (machine args (t.height 0)).toMeaning = .ok value from hv, hcode,
      Machine.exec_append] at hexec
    obtain ⟨st, hst, -⟩ := bind_ok.mp hexec
    refine ⟨⟨_, st⟩, (vmReaches_iff hc).mpr ⟨pre, post, hcode, rfl, hst⟩, ?_⟩
    rw [Machine.length_exec hst]
    exact hheight.symm
  · rintro _ ⟨vm, h, rfl⟩
    obtain ⟨pre, post, hcode, -, hst⟩ := (vmReaches_iff hc).mp h
    have hsafe := t.safe_code 0 (t.height 0) le_rfl
    rw [hcode] at hsafe
    rw [Machine.length_exec hst]
    exact hsafe.after_le (Nat.zero_le _)

end

/-- On a compiled tree the interpreter stays inside its code and its stack: it
only dispatches on words that were written as opcodes, finds the values and the
room on the stack that the instruction needs, and faults at a division at most.
The stack size in the header is the greatest height of a run that does not
trap. -/
theorem vmReaches_bytecodeCompile (heap : Heap) (args : List Long) (hw : ast.WellFormed) :
    ∃ bytecode, bytecodeCompile heap ast = .ok bytecode ∧
      (heap = Heap.unlimited →
        (∀ t, Holds ast.view t → t.slot = ast.rootNodeIndex →
          (program t.erase).length ≤ sizeMax / 2) → bytecode.stackSize ≠ 0) ∧
      (bytecode.stackSize ≠ 0 → ∃ t, Holds ast.view t ∧ t.slot = ast.rootNodeIndex ∧
        bytecode.bytes.contents = program t.erase ∧
        readWord bytecode.bytes.contents 0 = .ok bytecode.stackSize ∧
        stackCells bytecode.stackSize = bytecode.stackSize ∧
        (∀ vm, VmReaches bytecode.bytes.contents args bytecode.stackSize vm →
          wordSize ∣ vm.codeptr ∧
          (∃ code, OpcodeAt t.erase.code vm.codeptr code ∧
            readWord bytecode.bytes.contents vm.codeptr = .ok code.toNat ∧
            StackOk bytecode.stackSize vm.stack.length code ∧
            (code = .ret → vm.codeptr + wordSize = bytecode.bytes.contents.length)) ∧
          (ast.VarsBelow args.length → ∀ f,
            vmStep bytecode.bytes.contents args bytecode.stackSize vm = .error f →
              f = .division)) ∧
        ((∃ value, bytecodeEval true bytecode.bytes.contents args = .ok value) →
          IsGreatest {n | ∃ vm, VmReaches bytecode.bytes.contents args bytecode.stackSize vm ∧
            n = vm.stack.length} bytecode.stackSize)) := by
  obtain ⟨t, ht, hs, hd⟩ := hw.exists_holds
  obtain ⟨bytecode, hcompile, hok, hfail⟩ := bytecodeCompile_cases heap ht hs hd
  refine ⟨bytecode, hcompile, fun hu hsize hz => ?_, fun hz => ⟨t, ht, hs, ?_⟩⟩
  · exact absurd (hsize t ht hs) (Nat.not_le.mpr (hfail hz hu))
  obtain ⟨hsize, hbytes, hp, -⟩ := hok hz
  have hc := hw.fits ht hs
  rw [hbytes, hsize]
  refine ⟨rfl, readWord_program hp, stackCells_height hp, fun vm h => ?_, ?_⟩
  · obtain ⟨code, hat, hrest⟩ := vmReaches_ok hc h
    exact ⟨hat.dvd, ⟨code, hat, hrest⟩,
      fun hv f he => vmReaches_error hc ((Ast.varsBelow_iff ht hs).mp hv) h he⟩
  · rintro ⟨value, hv⟩
    rw [bytecodeEval_program hc hp] at hv
    exact isGreatest_height hc hv

theorem vmReaches_bytecodeCompile_quotient :
    ∃ t bytecode, bytecodeCompile Heap.unlimited quotientAst = .ok bytecode ∧
      bytecode.stackSize ≠ 0 ∧ Holds quotientAst.view t ∧
        readWord bytecode.bytes.contents 0 = .ok bytecode.stackSize ∧
        ∀ vm, VmReaches bytecode.bytes.contents [7] bytecode.stackSize vm →
          wordSize ∣ vm.codeptr ∧ ∃ code, OpcodeAt t.erase.code vm.codeptr code ∧
            StackOk bytecode.stackSize vm.stack.length code := by
  obtain ⟨bytecode, hc, -, hok⟩ :=
    vmReaches_bytecodeCompile Heap.unlimited [7] quotientAst_wellFormed
  have hz := stackSize_quotientAst hc
  obtain ⟨t, ht, -, -, hword, -, hall, -⟩ := hok hz
  refine ⟨t, bytecode, hc, hz, ht, hword, fun vm h => ?_⟩
  obtain ⟨hdvd, ⟨code, hat, -, hstack, -⟩, -⟩ := hall vm h
  exact ⟨hdvd, code, hat, hstack⟩

end ParserExample
