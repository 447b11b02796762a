import ParserExample.Parser
import ParserExample.Printer

/-!
# Error messages

`parserPrintError` writes the message of a parser that has failed. For an error
in the code, it shows the lines of its range, and below each of them a row of
markers. A printed line is first put together as a `PrintedLine`, which keeps
the bounds that the loop computes.
-/

namespace ParserExample

-- ---------------------------------------------------------------------------
-- Locations
-- ---------------------------------------------------------------------------

def memchr (s : Bytes) (c : UInt8) : Option Nat := s.findIdx? (· == c)

def memrchr (s : Bytes) (c : UInt8) : Option Nat :=
  (s.reverse.findIdx? (· == c)).map (s.length - 1 - ·)

structure Location where
  lineno : Nat
  column : Nat
  deriving DecidableEq, Repr

structure Range where
  startIndex : Nat
  endIndex : Nat
  deriving DecidableEq, Repr

/-- The loop of `get_location`; its first argument is the number of bytes left. -/
def locationFrom (code : Bytes) (endPtr : Nat) : Nat → Nat → Nat → Location
  | 0, ptr, lineno => ⟨lineno, endPtr - ptr + 1⟩
  | left + 1, ptr, lineno =>
    match memchr ((code.take endPtr).drop ptr) newline with
    | none => ⟨lineno, endPtr - ptr + 1⟩
    | some offset => locationFrom code endPtr left (ptr + offset + 1) (lineno + 1)

def getLocation (code : Bytes) (index : Nat) : Location :=
  let endPtr := if index > code.length then code.length else index
  locationFrom code endPtr endPtr 0 1

def getLineStart (code : Bytes) (index : Nat) : Nat :=
  let startptr :=
    if index < code.length then memrchr (code.take (index + 1)) newline else memrchr code newline
  match startptr with
  | none => 0
  | some offset => offset + 1

def getLineEnd (code : Bytes) (index : Nat) : Nat :=
  if index ≥ code.length then code.length
  else
    match memchr (code.drop index) newline with
    | none => code.length
    | some offset => index + offset

def getLineRange (code : Bytes) (index : Nat) : Range :=
  let (startptr, endptr) : Option Nat × Option Nat :=
    if index < code.length then
      (memrchr (code.take (index + 1)) newline, (memchr (code.drop index) newline).map (index + ·))
    else (memrchr code newline, some code.length)
  { startIndex := match startptr with
      | none => 0
      | some offset => offset + 1
    endIndex := match endptr with
      | none => code.length
      | some offset => offset }

-- ---------------------------------------------------------------------------
-- Texts
-- ---------------------------------------------------------------------------

/-- The loop of `get_number_length`; its first argument bounds the digits. -/
def countDigits : Nat → Nat → Nat → Nat
  | 0, _, length => length
  | left + 1, number, length =>
    if number > 0 then countDigits left (number / 10) (length + 1) else length

def getNumberLength (number : Nat) : Nat :=
  if number = 0 then 1 else countDigits number number 0

def getParserErrorMessage : ParserError → String
  | .none => "no error"
  | .illegalCharacter => "illegal character"
  | .illegalToken => "illegal token"
  | .expectedCloseParen => "expected ')'"
  | .illegalArgName => "illegal argument name"
  | .duplicatedArgName => "duplicated argument name"
  | .undefinedVariable => "undefined variable"
  | .outOfMemory => "out of memory"
  | .valueOutOfRange => "value out of range"
  | .divByZero => "division by zero"

def getTokenName : TokenType → String
  | .plus => "'+'"
  | .minus => "'-'"
  | .mul => "'*'"
  | .div => "'/'"
  | .parenOpen => "'('"
  | .parenClose => "')'"
  | .int => "<integer>"
  | .ident => "<identifier>"
  | .eof => "<end of file>"

def lineGutter (paddingLength lineno : Nat) : Bytes :=
  let digits := formatNat lineno
  byte ' ' :: List.replicate (paddingLength - digits.length) (byte ' ') ++ digits ++ ascii " | "

def markerGutter (paddingLength : Nat) : Bytes :=
  byte ' ' :: List.replicate paddingLength (byte ' ') ++ ascii " | "

def markerRow (startColumn endColumn : Nat) : Bytes :=
  List.replicate startColumn (byte ' ') ++
    if startColumn = endColumn then [byte '^']
    else List.replicate (endColumn - startColumn) (byte '^')

-- ---------------------------------------------------------------------------
-- The printed lines
-- ---------------------------------------------------------------------------

structure PrintedLine where
  lineno : Nat
  index : Nat
  lineEnd : Nat
  text : Bytes
  marker : Bytes
  deriving DecidableEq, Repr

def codeSlice (code : Bytes) (startIndex endIndex : Nat) : Except Fault Bytes :=
  if startIndex ≤ endIndex ∧ endIndex ≤ code.length then
    .ok ((code.take endIndex).drop startIndex)
  else .error .bounds

/-- The loop of `parser_print_error`; its first argument is the number of lines
left. -/
def printLines (code : Bytes) (startLoc endLoc : Location) :
    Nat → Nat → Nat → Except Fault (List PrintedLine)
  | 0, _, _ => .ok []
  | left + 1, lineno, index => do
    let lineEnd := getLineEnd code index
    let text ← codeSlice code index lineEnd
    let startColumn := if lineno = startLoc.lineno then startLoc.column - 1 else 0
    let endColumn := if lineno = endLoc.lineno then endLoc.column - 1 else lineEnd
    let marker := markerRow startColumn endColumn
    let rest ← printLines code startLoc endLoc left (lineno + 1) (lineEnd + 1)
    return { lineno, index, lineEnd, text, marker } :: rest

def printedLines (code : Bytes) (startIndex endIndex : Nat) : Except Fault (List PrintedLine) :=
  let startLoc := getLocation code startIndex
  let endLoc := getLocation code endIndex
  printLines code startLoc endLoc (endLoc.lineno + 1 - startLoc.lineno) startLoc.lineno
    (getLineStart code startIndex)

/-- A line of the code and the markers under it, as they are written. -/
def PrintedLine.write (paddingLength : Nat) (line : PrintedLine) : Bytes :=
  lineGutter paddingLength line.lineno ++ line.text ++ [newline] ++
    markerGutter paddingLength ++ line.marker ++ [newline]

/-- The members of the union share their first word. -/
def ErrorInfo.readArgIndex : ErrorInfo → Nat
  | .argIndex index => index
  | .code startIndex _ => startIndex

/-- An argument's index does not write the second word. -/
def ErrorInfo.readCode : ErrorInfo → Except Fault (Nat × Nat)
  | .argIndex _ => .error .bounds
  | .code startIndex endIndex => .ok (startIndex, endIndex)

def errorHeader (parser : Parser) (startIndex : Nat) : Bytes :=
  let startLoc := getLocation parser.code startIndex
  ascii "Error in line " ++ formatNat startLoc.lineno ++ ascii " in column " ++
    formatNat startLoc.column ++ ascii ": " ++ ascii (getParserErrorMessage parser.error) ++
    (match parser.error with
      | .illegalToken => ascii " " ++ ascii (getTokenName parser.token.type)
      | .expectedCloseParen => ascii ", but got " ++ ascii (getTokenName parser.token.type)
      | _ => []) ++
    [newline, newline]

def parserPrintError (parser : Parser) : Except Fault Bytes :=
  match parser.error with
  | .none => return ascii "no error\n"
  | .illegalArgName | .duplicatedArgName => do
    let name ← readName parser.args parser.errorInfo.readArgIndex
    return ascii "Error: " ++ ascii (getParserErrorMessage parser.error) ++ ascii ": " ++ name ++
      [newline]
  | _ => do
    let (startIndex, endIndex) ← parser.errorInfo.readCode
    let lines ← printedLines parser.code startIndex endIndex
    let paddingLength := getNumberLength (getLocation parser.code endIndex).lineno
    return errorHeader parser startIndex ++ (lines.map (·.write paddingLength)).flatten

end ParserExample
