import ParserExample.Ast
import ParserExample.Buffer
import ParserExample.Library.Proc

/-!
# The parser

A recursive-descent parser over a lexer that reads one token ahead. A function
that returns `bool` is a `Proc`: it goes on as long as `true` is returned, and
a node that the C code writes through a pointer is what it returns. The nodes
of a tree are appended late: `parseAddSub`, `parseMulDiv`, `parseSigned` and
`parseAtom` hand the node they have built to their caller, which appends it
once it knows that the node has a parent.
-/

namespace ParserExample

-- ---------------------------------------------------------------------------
-- Characters
-- ---------------------------------------------------------------------------

def byte (c : Char) : UInt8 := UInt8.ofNat c.toNat

def newline : UInt8 := byte '\n'

def ascii (s : String) : Bytes := s.toList.map byte

/-- `isspace` in the C locale. -/
def isspace (sym : UInt8) : Bool := (9 ≤ sym && sym ≤ 13) || sym == byte ' '

def isDigit (sym : UInt8) : Bool := byte '0' ≤ sym && sym ≤ byte '9'

/-- `IS_IDENT_HEAD`. -/
def isIdentHead (sym : UInt8) : Bool :=
  (byte 'a' ≤ sym && sym ≤ byte 'z') || (byte 'A' ≤ sym && sym ≤ byte 'Z') || sym == byte '_'

/-- `IS_IDENT_TAIL`. -/
def isIdentTail (sym : UInt8) : Bool := isIdentHead sym || isDigit sym

/-- The head of the empty string is its terminator. -/
def isIdentifier (str : Bytes) : Bool :=
  isIdentHead (str.headD 0) && str.tail.all isIdentTail

/-- `while (index < code_size && p(code[index])) ++ index;` -/
def advanceWhile (p : UInt8 → Bool) (code : Bytes) (index : Nat) : Nat :=
  index + ((code.drop index).takeWhile p).length

-- ---------------------------------------------------------------------------
-- The parser's state
-- ---------------------------------------------------------------------------

inductive ParserState
  | tokenPending | tokenReady | done | error
  deriving DecidableEq, Repr

inductive ParserError
  | none
  | illegalCharacter
  | illegalToken
  | expectedCloseParen
  | illegalArgName
  | duplicatedArgName
  | undefinedVariable
  | outOfMemory
  | valueOutOfRange
  | divByZero
  deriving DecidableEq, Repr

inductive ErrorInfo
  | argIndex (argIndex : Nat)
  | code (startIndex endIndex : Nat)
  deriving DecidableEq, Repr

inductive TokenType
  | plus | minus | mul | div | parenOpen | parenClose | int | ident | eof
  deriving DecidableEq, Repr

/-- The `name` of an identifier points to the parser's buffer, so it is not a
field. -/
structure Token where
  type : TokenType
  startIndex : Nat
  endIndex : Nat
  value : Long
  deriving DecidableEq, Repr

structure Parser where
  args : List Bytes
  state : ParserState
  error : ParserError
  errorInfo : ErrorInfo
  code : Bytes
  index : Nat
  buffer : Buffer
  token : Token
  ast : Ast
  heap : Heap
  deriving DecidableEq, Repr

namespace Parser

def init (heap : Heap) (code : Bytes) (args : List Bytes) : Parser where
  args
  state := .tokenPending
  error := .none
  errorInfo := .code 0 0
  code
  index := 0
  buffer := Buffer.init
  token := ⟨.eof, 0, 0, 0⟩
  ast := Ast.init
  heap

/-- `token.name`: the buffer up to its first NUL. -/
def tokenName (parser : Parser) : Bytes := parser.buffer.data.takeWhile (· ≠ 0)

end Parser

def fail {α : Type} (error : ParserError) (startIndex endIndex : Nat) : Proc Parser α := do
  modify fun p => { p with state := .error, error, errorInfo := .code startIndex endIndex }
  throw .returnFalse

/-- The number of arguments when there is none of that name. -/
def parserGetArgIndex (args : List Bytes) (name : Bytes) : Nat := args.findIdx (· == name)

-- ---------------------------------------------------------------------------
-- Tokens
-- ---------------------------------------------------------------------------

/-- The outer loop; its first argument is the number of bytes left. -/
def skipIgnoreable (code : Bytes) : Nat → Nat → Nat
  | 0, index => index
  | left + 1, index =>
    match code[index]? with
    | none => index
    | some sym =>
      if sym = byte '#' then
        skipIgnoreable code left (advanceWhile (· ≠ newline) code (index + 1))
      else if !isspace sym then index
      else skipIgnoreable code left (index + 1)

def parserSkipIgnoreable (parser : Parser) : Parser :=
  { parser with
    index := skipIgnoreable parser.code (parser.code.length - parser.index) parser.index }

def charType (sym : UInt8) : Option TokenType :=
  if sym = byte '+' then some .plus
  else if sym = byte '-' then some .minus
  else if sym = byte '*' then some .mul
  else if sym = byte '/' then some .div
  else if sym = byte '(' then some .parenOpen
  else if sym = byte ')' then some .parenClose
  else none

/-- The digit loop, over the code from `index` on: the value and the index
behind the digits, or the index of the digit that the value has no room for. -/
def readDigits : Bytes → Nat → Long → Except Nat (Long × Nat)
  | [], index, value => .ok (value, index)
  | sym :: rest, index, value =>
    if !isDigit sym then .ok (value, index)
    else
      let digit : Long := Int64.ofNat (sym - byte '0').toNat
      if value > (longMax - digit) / 10 then .error index
      else readDigits rest (index + 1) (value * 10 + digit)

def parseInt : Proc Parser Unit := do
  modify fun p => { p with token := { p.token with startIndex := p.index } }
  let p ← get
  match readDigits (p.code.drop p.index) p.index 0 with
  | .error index =>
    modify fun p => { p with index }
    fail .valueOutOfRange p.token.startIndex index
  | .ok (value, index) =>
    modify fun p =>
      { p with
        state := .tokenReady
        index
        token := { p.token with type := .int, endIndex := index, value } }

/-- An append to the buffer; failure is out of memory at the token. -/
def parserBufferAppend (append : Heap → Buffer → Except Fault (Bool × Buffer × Heap)) :
    Proc Parser Unit := do
  let p ← get
  match append p.heap p.buffer with
  | .error f => throw (.fault f)
  | .ok (ok, buffer, heap) =>
    modify fun p => { p with buffer, heap }
    if !ok then
      fail .outOfMemory p.token.startIndex p.token.endIndex

def parseIdent : Proc Parser Unit := do
  modify fun p =>
    let index := advanceWhile isIdentTail p.code p.index
    { p with
      index
      token := { p.token with startIndex := p.index, endIndex := index }
      buffer := bufferClear p.buffer }
  let p ← get
  let name := (p.code.drop p.token.startIndex).take (p.index - p.token.startIndex)
  parserBufferAppend (bufferAppend · · name)
  parserBufferAppend (bufferAppendByte · · 0)
  modify fun p => { p with state := .tokenReady, token := { p.token with type := .ident } }

def parseToken : Proc Parser Unit := do
  modify parserSkipIgnoreable
  let p ← get
  match p.code[p.index]? with
  | none =>
    modify fun p =>
      let size := p.code.length
      { p with
        state := .tokenReady
        token := { p.token with type := .eof, startIndex := size, endIndex := size } }
  | some sym =>
    match charType sym with
    | some type =>
      modify fun p =>
        { p with
          state := .tokenReady
          index := p.index + 1
          token := { p.token with type, startIndex := p.index, endIndex := p.index + 1 } }
    | none =>
      if isDigit sym then parseInt
      else if isIdentHead sym then parseIdent
      else fail .illegalCharacter p.index (p.index + 1)

def parserPeekToken : Proc Parser Unit := do
  match (← get).state with
  | .tokenReady => return
  | .tokenPending => parseToken
  | _ => throw .returnFalse

def parserConsumeToken : Proc Parser Unit := do
  match (← get).state with
  | .tokenReady => modify fun p => { p with state := .tokenPending }
  | .tokenPending => throw (.fault .assertion)
  | _ => throw .returnFalse

-- ---------------------------------------------------------------------------
-- The grammar
-- ---------------------------------------------------------------------------

def parserAppendNode (node : AstNode) : Proc Parser Unit := do
  let p ← get
  let (ok, ast, heap) := astAppendNode p.heap p.ast node
  modify fun p => { p with ast, heap }
  if !ok then
    fail .outOfMemory node.startIndex node.endIndex

def parserRootNodeIndex : Proc Parser Nat := return (← get).ast.rootNodeIndex

def addSubType : TokenType → Option BinaryType
  | .plus => some .add
  | .minus => some .sub
  | _ => none

def mulDivType : TokenType → Option BinaryType
  | .mul => some .mul
  | .div => some .div
  | _ => none

section
variable (parseAddSub : Proc Parser AstNode)

def parseParen : Proc Parser AstNode := do
  parserPeekToken
  let token := (← get).token
  if token.type ≠ .parenOpen then
    fail .illegalToken token.startIndex token.endIndex
  else
    parserConsumeToken
    let node ← parseAddSub
    let close := (← get).token
    if close.type ≠ .parenClose then
      fail .expectedCloseParen token.startIndex close.endIndex
    else
      parserConsumeToken
      return node

def parseAtom : Proc Parser AstNode := do
  parserPeekToken
  let token := (← get).token
  match token.type with
  | .ident =>
    parserConsumeToken
    let p ← get
    let argIndex := parserGetArgIndex p.args p.tokenName
    if argIndex = p.args.length then
      fail .undefinedVariable token.startIndex token.endIndex
    else
      return ⟨token.startIndex, token.endIndex, .leaf (.var argIndex)⟩
  | .int =>
    parserConsumeToken
    return ⟨token.startIndex, token.endIndex, .leaf (.int token.value)⟩
  | .parenOpen => parseParen parseAddSub
  | _ => fail .illegalToken token.startIndex token.endIndex

def parseSigns : Nat → Bool → Proc Parser Bool
  | 0, _ => throw (.fault .fuel)
  | fuel + 1, inverse => do
    parserPeekToken
    match (← get).token.type with
    | .minus =>
      parserConsumeToken
      parseSigns fuel !inverse
    | .plus =>
      parserConsumeToken
      parseSigns fuel inverse
    | _ => return inverse

def parseSigned (fuel : Nat) : Proc Parser AstNode := do
  parserPeekToken
  let startIndex := (← get).token.startIndex
  if ← parseSigns fuel false then
    let child ← parseAtom parseAddSub
    match child.data with
    | .leaf (.int value) =>
      if value = longMax then
        fail .valueOutOfRange startIndex child.endIndex
      else
        return ⟨startIndex, child.endIndex, .leaf (.int (-value))⟩
    | _ =>
      parserAppendNode child
      return ⟨startIndex, child.endIndex, .un () (← parserRootNodeIndex)⟩
  else
    let node ← parseAtom parseAddSub
    return { node with startIndex }

def parseMulDivLoop (fuel : Nat) : Nat → AstNode → Proc Parser AstNode
  | 0, _ => throw (.fault .fuel)
  | count + 1, node => do
    parserPeekToken
    let token := (← get).token
    match mulDivType token.type with
    | none => return node
    | some type =>
      parserAppendNode node
      parserConsumeToken
      let leftIndex ← parserRootNodeIndex
      let right ← parseSigned parseAddSub fuel
      if type = .div ∧ right.data = .leaf (.int 0) then
        fail .divByZero right.startIndex right.endIndex
      else
        parserAppendNode right
        let rightIndex ← parserRootNodeIndex
        parseMulDivLoop fuel count
          ⟨token.startIndex, token.endIndex, .bin type leftIndex rightIndex⟩

def parseMulDiv (fuel : Nat) : Proc Parser AstNode := do
  let node ← parseSigned parseAddSub fuel
  parseMulDivLoop parseAddSub fuel fuel node

def parseAddSubLoop (fuel : Nat) : Nat → AstNode → Proc Parser AstNode
  | 0, _ => throw (.fault .fuel)
  | count + 1, node => do
    parserPeekToken
    let token := (← get).token
    match addSubType token.type with
    | none => return node
    | some type =>
      parserAppendNode node
      parserConsumeToken
      let leftIndex ← parserRootNodeIndex
      let right ← parseMulDiv parseAddSub fuel
      parserAppendNode right
      let rightIndex ← parserRootNodeIndex
      parseAddSubLoop fuel count ⟨token.startIndex, token.endIndex, .bin type leftIndex rightIndex⟩

end

/-- The recursion goes through `parseParen`; the first argument bounds its
depth and the number of turns of each loop. -/
def parseAddSub : Nat → Proc Parser AstNode
  | 0 => throw (.fault .fuel)
  | fuel + 1 => do
    let node ← parseMulDiv (parseAddSub fuel) (fuel + 1)
    parseAddSubLoop (parseAddSub fuel) (fuel + 1) (fuel + 1) node

def parseExpr (fuel : Nat) : Proc Parser Unit := do
  let node ← parseAddSub fuel
  parserAppendNode node

def argNameError (args : List Bytes) (argIndex : Nat) (name : Bytes) : Option ParserError :=
  if !isIdentifier name then some .illegalArgName
  else if (args.take argIndex).any (name == ·) then some .duplicatedArgName
  else none

def argsError (args : List Bytes) : Option (ParserError × Nat) :=
  args.zipIdx.findSome? fun (name, argIndex) =>
    (argNameError args argIndex name).map (·, argIndex)

/-- What `parse_slice` does once the arguments are checked. Every token but
the last takes a byte of the code. -/
def parseProgram : Proc Parser Unit := do
  parseExpr ((← get).code.length + 2)
  parserPeekToken
  let token := (← get).token
  if token.type ≠ .eof then
    fail .illegalToken token.startIndex token.endIndex
  else
    parserConsumeToken
    modify fun p => { p with state := .done }

def parseSlice (heap : Heap) (code : Bytes) (args : List Bytes) : Except Fault Parser :=
  let parser := Parser.init heap code args
  match argsError args with
  | some (error, argIndex) =>
    .ok { parser with state := .error, error, errorInfo := .argIndex argIndex }
  | none =>
    match parseProgram parser with
    | .ok () parser => .ok parser
    | .error .returnFalse parser => .ok parser
    | .error (.fault f) _ => .error f

/-- `code` ends at its first NUL. -/
def parseString (heap : Heap) (code : Bytes) (args : List Bytes) : Except Fault Parser :=
  parseSlice heap (code.takeWhile (· ≠ 0)) args

end ParserExample
