import ParserExample.Bytecode.Decode
import ParserExample.Diagnostics
import ParserExample.Optimizer
import ParserExample.Tokens

/-!
# The command line

`main` parses the code that is its last argument, over parameters named by the
arguments in front of it, and reads the value of each parameter from the
environment. It prints the tree, its value and the bytecode, and evaluates the
program three times: as it was parsed, optimized, and compiled.
-/

namespace ParserExample

open Library

-- ---------------------------------------------------------------------------
-- Numbers in the environment
-- ---------------------------------------------------------------------------

def saturate (value : Int) : Long :=
  if value > maxLiteral then longMax
  else if value < -maxLiteral - 1 then longMin
  else Int64.ofInt value

/-- A sign: whether it is `-`, and what stands behind it. -/
def readSign : Bytes → Bool × Bytes
  | [] => (false, [])
  | sym :: rest =>
    if sym = byte '-' then (true, rest)
    else if sym = byte '+' then (false, rest)
    else (false, sym :: rest)

/-- `strtol(str, &endptr, 10)` in the C locale: the value, and the text at
`endptr`. Without a digit, `endptr` is `str`. -/
def strtol (str : Bytes) : Long × Bytes :=
  let (negative, rest) := readSign (str.dropWhile isspace)
  let digits := rest.takeWhile isDigit
  if digits = [] then (0, str)
  else
    (saturate (if negative then -(decimal digits : Int) else decimal digits),
      rest.dropWhile isDigit)

/-- The loop over the parameters: their values, or the message about the first
one that has none. -/
def readArgs (getenv : Bytes → Option Bytes) : List Bytes → Except Bytes (List Long)
  | [] => return []
  | name :: names =>
    match getenv name with
    | none => throw (ascii "Error: Environment variable not set: " ++ name ++ [newline])
    | some strvalue => do
      let (value, endptr) := strtol strvalue
      if strvalue = [] ∨ endptr ≠ [] then
        throw (ascii "Error: Environment variable is not a long integer: " ++ name ++ ascii "=" ++
          strvalue ++ [newline])
      return value :: (← readArgs getenv names)

-- ---------------------------------------------------------------------------
-- The process
-- ---------------------------------------------------------------------------

/-- What `main` is run with: arguments, which are C strings and counted by an
`int`, the environment, and the outcomes of the allocations. -/
structure Process where
  argv : List Bytes
  getenv : Bytes → Option Bytes
  parserHeap : Heap
  /-- Whether `calloc` finds memory for the arguments. -/
  calloc : Bool
  compilerHeap : Heap
  /-- Whether `malloc` finds memory for the interpreter's stack. -/
  malloc : Bool
  /-- The text of the error of an allocation that failed. -/
  strerror : Bytes
  argc_lt : argv.length < 2 ^ 31
  argv_noNul : ∀ arg ∈ argv, 0 ∉ arg

namespace Process

variable (process : Process)

def argc : Nat := process.argv.length

/-- `argv[argc - 1]`. -/
def code : Bytes := process.argv.getD (process.argc - 1) []

/-- `&argv[1]`. -/
def params : List Bytes := process.argv.drop 1

/-- The first `argc - 2` of `&argv[1]`. -/
def names : List Bytes := process.params.take (process.argc - 2)

/-- What `perror` writes. -/
def perror (message : Bytes) : Bytes := message ++ ascii ": " ++ process.strerror ++ [newline]

/-- What `bytecode_eval` writes to `stderr`. -/
def stackError : Bytes :=
  if process.malloc then [] else process.perror (ascii "allocating varialbe stack")

end Process

structure Exit where
  status : Nat
  stdout : Bytes
  stderr : Bytes
  deriving DecidableEq, Repr

namespace Exit

def print (exit : Exit) (text : Bytes) : Exit := { exit with stdout := exit.stdout ++ text }

def eprint (exit : Exit) (text : Bytes) : Exit := { exit with stderr := exit.stderr ++ text }

def check (exit : Exit) (valueAst value : Long) (message : Bytes) : Exit :=
  if valueAst ≠ value then { exit.eprint message with status := 1 } else exit

end Exit

-- ---------------------------------------------------------------------------
-- `main`
-- ---------------------------------------------------------------------------

def usage (argv : List Bytes) : Bytes :=
  ascii "Usage: " ++ argv.headD (ascii "parser_example") ++ ascii " [parameter-names...] code\n"

def printNames : List Bytes → Bytes
  | [] => []
  | [name] => name
  | name :: names => name ++ ascii ", " ++ printNames names

def signature (names : List Bytes) (code : Bytes) : Bytes :=
  ascii "(" ++ printNames names ++ ascii ") -> " ++ code ++ ascii "\n\n"

def resultLine (title text : Bytes) (value : Long) : Bytes :=
  title ++ text ++ ascii " = " ++ formatLong value ++ [newline]

/-- `main` from the signature on. -/
def report (process : Process) (ast : Ast) (args : List Long) : Except Fault Exit := do
  let exit : Exit := ⟨0, signature process.names process.code ++ ascii "AST\n---\n", []⟩
  let text ← astPrint ast process.params
  let valueAst ← astEval ast args
  let exit := exit.print (resultLine (ascii "Parsed AST: ") text valueAst)
  let ast ← optimize ast
  let text ← astPrint ast process.params
  let valueOpt ← astEval ast args
  let exit := exit.print (resultLine (ascii "Optimized AST: ") text valueOpt ++ [newline])
  let exit := exit.check valueAst valueOpt
    (ascii "Error: optimized code gives a different result!\n\n")
  let exit := exit.print (ascii "Byte Code\n---------\n")
  let bytecode ← bytecodeCompile process.compilerHeap ast
  if bytecode.stackSize = 0 then
    return exit.eprint (ascii "Error (probably out of memory)\n")
  let (stackSize, listing) ← bytecodePrint bytecode.bytes.contents process.params
  let exit := exit.print (stackSize ++ listing)
  let valueBc ← bytecodeEval process.malloc bytecode.bytes.contents args
  let exit := exit.eprint process.stackError
  let exit := exit.print (resultLine (ascii "\nresult") [] valueBc)
  return exit.check valueAst valueBc
    (ascii "\nError: bytecode code gives a different result!\n")

def main (process : Process) : Except Fault Exit := do
  if process.argc < 2 then
    return ⟨1, usage process.argv, []⟩
  let parser ← parseString process.parserHeap process.code process.names
  if parser.error ≠ .none then
    let message ← parserPrintError parser
    return ⟨1, [], message⟩
  if !process.calloc then
    return ⟨1, [], process.perror (ascii "allocating arguments")⟩
  match readArgs process.getenv process.names with
  | .error message => return ⟨1, usage process.argv, message⟩
  | .ok args => report process parser.ast args

end ParserExample
