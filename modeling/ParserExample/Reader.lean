import ParserExample.Tokens

/-!
# The parser on words

The parser without its lexer, its node array and its memory: it reads a list
of lexemes and returns the expression with the range of each node, and the
lexemes that are left. The functions go by the names of those they abstract,
`readSigned` for `parseSigned` and so on.
-/

namespace ParserExample

open Library

/-- An expression with the range of the code each of its nodes points to. -/
abbrev RangedExpr := Tree (Nat × Nat) BinaryType Unit Leaf

inductive Failure
  /-- There is no lexeme left to look at. -/
  | stopped
  | failed (error : ParserError) (startIndex endIndex : Nat)
  | fuel
  deriving DecidableEq, Repr

abbrev Read := Except Failure (RangedExpr × List Lexeme)

namespace Word

def addSubType : Word → Option BinaryType
  | .plus => some .add
  | .minus => some .sub
  | _ => none

def mulDivType : Word → Option BinaryType
  | .mul => some .mul
  | .div => some .div
  | _ => none

end Word

def next : List Lexeme → Except Failure Lexeme
  | [] => .error .stopped
  | l :: _ => .ok l

def readSigns : Nat → Bool → List Lexeme → Except Failure (Bool × List Lexeme)
  | 0, _, _ => .error .fuel
  | fuel + 1, inverse, tokens => do
    let l ← next tokens
    match l.word with
    | .minus => readSigns fuel (!inverse) tokens.tail
    | .plus => readSigns fuel inverse tokens.tail
    | _ => return (inverse, tokens)

def applySigns (startIndex : Nat) (inverse : Bool) (t : RangedExpr) : Except Failure RangedExpr :=
  if inverse then
    match t with
    | .leaf (_, endIndex) (.int value) =>
      if value = longMax then .error (.failed .valueOutOfRange startIndex endIndex)
      else .ok (.leaf (startIndex, endIndex) (.int (-value)))
    | t => .ok (.un (startIndex, t.slot.2) () t)
  else .ok (t.setSlot (startIndex, t.slot.2))

/-- The loops of `parseAddSub` and `parseMulDiv`: `op` picks their operators,
and only the second has a division among them. -/
def readLoop (op : Word → Option BinaryType) (operand : List Lexeme → Read) :
    Nat → RangedExpr → List Lexeme → Read
  | 0, _, _ => .error .fuel
  | count + 1, left, tokens => do
    let l ← next tokens
    match op l.word with
    | none => return (left, tokens)
    | some type => do
      let (right, rest) ← operand tokens.tail
      if type = .div ∧ right.erase = Expr.int 0 then
        throw (.failed .divByZero right.slot.1 right.slot.2)
      else
        readLoop op operand count (.bin l.range type left right) rest

section
variable (names : List Bytes) (readAddSub : List Lexeme → Read)

def readParen (openStart : Nat) (tokens : List Lexeme) : Read := do
  let (t, rest) ← readAddSub tokens
  let close ← next rest
  if close.word ≠ .parenClose then
    throw (.failed .expectedCloseParen openStart close.endIndex)
  else
    return (t, rest.tail)

def readAtom (tokens : List Lexeme) : Read := do
  let l ← next tokens
  match l.word with
  | .ident name =>
    let argIndex := parserGetArgIndex names name
    if argIndex = names.length then
      throw (.failed .undefinedVariable l.startIndex l.endIndex)
    else
      return (.leaf l.range (.var argIndex), tokens.tail)
  | .int digits => return (.leaf l.range (.int (Int64.ofNat (decimal digits))), tokens.tail)
  | .parenOpen => readParen readAddSub l.startIndex tokens.tail
  | _ => throw (.failed .illegalToken l.startIndex l.endIndex)

def readSigned (fuel : Nat) (tokens : List Lexeme) : Read := do
  let l ← next tokens
  let (inverse, rest) ← readSigns fuel false tokens
  let (t, rest) ← readAtom names readAddSub rest
  let t ← applySigns l.startIndex inverse t
  return (t, rest)

def readMulDiv (fuel : Nat) (tokens : List Lexeme) : Read := do
  let (t, rest) ← readSigned names readAddSub fuel tokens
  readLoop Word.mulDivType (readSigned names readAddSub fuel) fuel t rest

end

def readAddSub (names : List Bytes) : Nat → List Lexeme → Read
  | 0, _ => .error .fuel
  | fuel + 1, tokens => do
    let (t, rest) ← readMulDiv names (readAddSub names fuel) (fuel + 1) tokens
    readLoop Word.addSubType (readMulDiv names (readAddSub names fuel) (fuel + 1)) (fuel + 1) t rest

def readProgram (names : List Bytes) (fuel : Nat) (tokens : List Lexeme) :
    Except Failure RangedExpr := do
  let (t, rest) ← readAddSub names fuel tokens
  let l ← next rest
  if l.word ≠ .eof then
    throw (.failed .illegalToken l.startIndex l.endIndex)
  else
    return t

end ParserExample
