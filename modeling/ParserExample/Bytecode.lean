import ParserExample.Ast
import ParserExample.Buffer
import ParserExample.Library.Proc
import ParserExample.Library.Word

/-!
# The bytecode compiler and its interpreter

`nodeCompile` writes a tree in post-order, in 8-byte words: an opcode, and for
`VAL` and `VAR` an operand behind it. The first word of the code is the height
of the stack the code needs. `vmStep` executes one instruction and checks
nothing that the C code does not: what leaves the code or the stack is a fault.
-/

namespace ParserExample

open Library

inductive ByteCode
  | add | sub | mul | div | inv | val | var | ret
  deriving DecidableEq, Repr

namespace ByteCode

def toNat : ByteCode → Nat
  | .add => 0
  | .sub => 1
  | .mul => 2
  | .div => 3
  | .inv => 4
  | .val => 5
  | .var => 6
  | .ret => 7

/-- The entry of the jump table at an index. -/
def ofNat? : Nat → Option ByteCode
  | 0 => some .add
  | 1 => some .sub
  | 2 => some .mul
  | 3 => some .div
  | 4 => some .inv
  | 5 => some .val
  | 6 => some .var
  | 7 => some .ret
  | _ => none

@[simp] theorem ofNat?_toNat (code : ByteCode) : ofNat? code.toNat = some code := by
  cases code <;> rfl

theorem toNat_lt (code : ByteCode) : code.toNat < 256 ^ wordSize := by
  cases code <;> decide

end ByteCode

structure Bytecode where
  bytes : Buffer
  stackSize : Nat
  deriving DecidableEq, Repr

-- ---------------------------------------------------------------------------
-- The compiler
-- ---------------------------------------------------------------------------

def longBits (value : Long) : Nat := value.toUInt64.toNat

def longOfBits (bits : Nat) : Long := (UInt64.ofNat bits).toInt64

def bytecodeWriteInt (heap : Heap) (buffer : Buffer) (value : Long) :
    Except Fault (Bool × Buffer × Heap) :=
  bufferAppend heap buffer (encodeLE wordSize (longBits value))

def bytecodeWriteSize (heap : Heap) (buffer : Buffer) (value : Nat) :
    Except Fault (Bool × Buffer × Heap) :=
  bufferAppend heap buffer (encodeLE wordSize value)

structure Emitter where
  bytecode : Bytecode
  heap : Heap

/-- One `bytecode_write_...` of the compiler: failure is passed on. -/
def emit (write : Heap → Buffer → Except Fault (Bool × Buffer × Heap)) : Proc Emitter Unit :=
  fun s =>
    match write s.heap s.bytecode.bytes with
    | .error f => .error (.fault f) s
    | .ok (true, bytes, heap) => .ok () ⟨{ s.bytecode with bytes }, heap⟩
    | .ok (false, bytes, heap) => .error .returnFalse ⟨{ s.bytecode with bytes }, heap⟩

def emitCode (code : ByteCode) : Proc Emitter Unit :=
  emit (bytecodeWriteInt · · (longOfBits code.toNat))

def BinaryType.opcode : BinaryType → ByteCode
  | .add => .add
  | .sub => .sub
  | .mul => .mul
  | .div => .div

def raiseStackSize (size : Nat) : Proc Emitter Unit :=
  modify fun s =>
    if size > s.bytecode.stackSize then { s with bytecode := { s.bytecode with stackSize := size } }
    else s

/-- The first argument bounds the depth of the recursion. -/
def nodeCompile (ast : Ast) : Nat → Nat → Nat → Proc Emitter Unit
  | 0, _, _ => throw (.fault .fuel)
  | fuel + 1, nodeIndex, stackSize =>
    match ast.nodes[nodeIndex]? with
    | none => throw (.fault .assertion)
    | some node => do
      let resultStackSize := stackSize + 1
      match node.data with
      | .bin type leftIndex rightIndex =>
        nodeCompile ast fuel leftIndex stackSize
        nodeCompile ast fuel rightIndex resultStackSize
        emitCode type.opcode
      | .un () childIndex =>
        nodeCompile ast fuel childIndex stackSize
        emitCode .inv
      | .leaf (.int value) =>
        emitCode .val
        emit (bytecodeWriteInt · · value)
      | .leaf (.var argIndex) =>
        emitCode .var
        emit (bytecodeWriteSize · · argIndex)
      raiseStackSize resultStackSize

/-- A stack size of 0 in the result says that a write failed. -/
def bytecodeCompile (heap : Heap) (ast : Ast) : Except Fault Bytecode :=
  let program : Proc Emitter Unit := do
    emit (bytecodeWriteSize · · 0)
    nodeCompile ast ast.nodesUsed ast.rootNodeIndex 0
    emitCode .ret
  match program ⟨⟨Buffer.init, 0⟩, heap⟩ with
  | .error (.fault f) _ => .error f
  | .error .returnFalse s => .ok { s.bytecode with stackSize := 0 }
  | .ok () s => do
    let bytes := s.bytecode.bytes
    let data ← memcpy bytes.data bytes.capacity 0 (encodeLE wordSize s.bytecode.stackSize)
    return { s.bytecode with bytes := { bytes with data } }

-- ---------------------------------------------------------------------------
-- The interpreter
-- ---------------------------------------------------------------------------

/-- `codeptr` as an offset, and the stack with its top first. -/
structure Vm where
  codeptr : Nat
  stack : List Long
  deriving DecidableEq, Repr

inductive VmStep
  | next (vm : Vm)
  | ret (result : Long)
  deriving DecidableEq, Repr

def readWord (bytes : Bytes) (offset : Nat) : Except Fault Nat :=
  match wordAt wordSize bytes offset with
  | some word => .ok word
  | none => .error .bounds

/-- A write to the stack block, which holds `stackSize` values. -/
def push (stackSize : Nat) (stack : List Long) (value : Long) : Except Fault (List Long) :=
  if stack.length < stackSize then .ok (value :: stack) else .error .overrun

def vmBinary (type : BinaryType) (vm : Vm) : Except Fault VmStep :=
  match vm.stack with
  | right :: left :: stack => do
    let value ← type.apply left right
    return .next ⟨vm.codeptr + wordSize, value :: stack⟩
  | _ => .error .bounds

def vmStep (bytes : Bytes) (args : List Long) (stackSize : Nat) (vm : Vm) :
    Except Fault VmStep := do
  let word ← readWord bytes vm.codeptr
  match ByteCode.ofNat? word with
  | none => throw .dispatch
  | some .add => vmBinary .add vm
  | some .sub => vmBinary .sub vm
  | some .mul => vmBinary .mul vm
  | some .div => vmBinary .div vm
  | some .inv =>
    match vm.stack with
    | value :: stack => return .next ⟨vm.codeptr + wordSize, -value :: stack⟩
    | [] => throw .bounds
  | some .val =>
    let operand ← readWord bytes (vm.codeptr + wordSize)
    let stack ← push stackSize vm.stack (longOfBits operand)
    return .next ⟨vm.codeptr + wordSize + wordSize, stack⟩
  | some .var =>
    let argIndex ← readWord bytes (vm.codeptr + wordSize)
    let value ← readArg args argIndex
    let stack ← push stackSize vm.stack value
    return .next ⟨vm.codeptr + wordSize + wordSize, stack⟩
  | some .ret =>
    match vm.stack with
    | result :: _ => return .ret result
    | [] => throw .bounds

/-- The loop of the interpreter; the first argument bounds the number of
instructions. -/
def vmRun (bytes : Bytes) (args : List Long) (stackSize : Nat) : Nat → Vm → Except Fault Long
  | 0, _ => .error .fuel
  | fuel + 1, vm => do
    match ← vmStep bytes args stackSize vm with
    | .next vm => vmRun bytes args stackSize fuel vm
    | .ret result => return result

/-- How many values the block holds that `malloc` is asked for; the size it is
asked for can wrap around. -/
def stackCells (stackSize : Nat) : Nat := wordSize * stackSize % (sizeMax + 1) / wordSize

/-- `malloc` says whether the stack could be allocated. Every instruction takes
at least one word, so the code has fewer instructions than bytes. -/
def bytecodeEval (malloc : Bool) (bytes : Bytes) (args : List Long) : Except Fault Long := do
  let stackSize ← readWord bytes 0
  if malloc then vmRun bytes args (stackCells stackSize) bytes.length ⟨wordSize, []⟩
  else return longMax

end ParserExample
