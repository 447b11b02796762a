import ParserExample.Tokens

/-!
# The grammar and what it means

A `Derivation` is a derivation tree of the grammar

    EXPR    := ADD_SUB
    ADD_SUB := MUL_DIV {( "+" | "-" ) MUL_DIV}
    MUL_DIV := SIGNED {( "*" | "/" ) SIGNED}
    SIGNED  := {"+" | "-"} ATOM
    ATOM    := IDENT | INT | PAREN
    PAREN   := "(" EXPR ")"

with a chain `A {op A}` as `A` or a shorter chain followed by `op A`. `value`
is the value of the expression it derives and `Valid` are the conditions that
the grammar does not express. `Accepts` is the language.
-/

namespace ParserExample

open Library

inductive AddSubOp
  | plus | minus
  deriving DecidableEq, Repr

inductive MulDivOp
  | mul | div
  deriving DecidableEq, Repr

namespace AddSubOp

@[simp] def word : AddSubOp → Word
  | .plus => .plus
  | .minus => .minus

@[simp] def type : AddSubOp → BinaryType
  | .plus => .add
  | .minus => .sub

end AddSubOp

namespace MulDivOp

@[simp] def word : MulDivOp → Word
  | .mul => .mul
  | .div => .div

@[simp] def type : MulDivOp → BinaryType
  | .mul => .mul
  | .div => .div

end MulDivOp

inductive NonTerminal
  | addSub | mulDiv | signed | atom

inductive Derivation : NonTerminal → Type
  | ofMulDiv (e : Derivation .mulDiv) : Derivation .addSub
  | addSub (op : AddSubOp) (left : Derivation .addSub) (right : Derivation .mulDiv) :
      Derivation .addSub
  | ofSigned (e : Derivation .signed) : Derivation .mulDiv
  | mulDiv (op : MulDivOp) (left : Derivation .mulDiv) (right : Derivation .signed) :
      Derivation .mulDiv
  | signed (signs : List AddSubOp) (e : Derivation .atom) : Derivation .signed
  | ident (name : Bytes) : Derivation .atom
  | int (digits : Bytes) : Derivation .atom
  | paren (e : Derivation .addSub) : Derivation .atom

/-- A run of signs negates when it holds an odd number of minus signs. -/
def negates (signs : List AddSubOp) : Bool := signs.count .minus % 2 = 1

namespace Derivation

variable {nt : NonTerminal}

@[simp] def yield : {nt : NonTerminal} → Derivation nt → List Word
  | _, .ofMulDiv e => e.yield
  | _, .addSub op left right => left.yield ++ op.word :: right.yield
  | _, .ofSigned e => e.yield
  | _, .mulDiv op left right => left.yield ++ op.word :: right.yield
  | _, .signed signs e => signs.map AddSubOp.word ++ e.yield
  | _, .ident name => [.ident name]
  | _, .int digits => [.int digits]
  | _, .paren e => .parenOpen :: (e.yield ++ [.parenClose])

def value (names : List Bytes) (args : List Long) :
    {nt : NonTerminal} → Derivation nt → Except Fault Long
  | _, .ofMulDiv e => e.value names args
  | _, .addSub op left right => do
    let l ← left.value names args
    let r ← right.value names args
    op.type.apply l r
  | _, .ofSigned e => e.value names args
  | _, .mulDiv op left right => do
    let l ← left.value names args
    let r ← right.value names args
    op.type.apply l r
  | _, .signed signs e => do
    let v ← e.value names args
    return if negates signs then -v else v
  | _, .ident name => readArg args (names.idxOf name)
  | _, .int digits => .ok (Int64.ofNat (decimal digits))
  | _, .paren e => e.value names args

/-- The integer that the derivation reduces to through signs and parentheses
only. -/
@[simp] def literal : {nt : NonTerminal} → Derivation nt → Option Int
  | _, .ofMulDiv e => e.literal
  | _, .addSub _ _ _ => none
  | _, .ofSigned e => e.literal
  | _, .mulDiv _ _ _ => none
  | _, .signed signs e => e.literal.map fun n => if negates signs then -n else n
  | _, .ident _ => none
  | _, .int digits => some (decimal digits)
  | _, .paren e => e.literal

/-- Every name is an argument's, every number is in range, the literal
`LONG_MAX` is not negated and no divisor is the literal 0. -/
@[simp] def Valid (names : List Bytes) : {nt : NonTerminal} → Derivation nt → Prop
  | _, .ofMulDiv e => e.Valid names
  | _, .addSub _ left right => left.Valid names ∧ right.Valid names
  | _, .ofSigned e => e.Valid names
  | _, .mulDiv op left right =>
    left.Valid names ∧ right.Valid names ∧ (op = .div → right.literal ≠ some 0)
  | _, .signed signs e =>
    e.Valid names ∧ (negates signs = true → e.literal ≠ some (maxLiteral : Int))
  | _, .ident name => name ∈ names
  | _, .int digits => decimal digits ≤ maxLiteral
  | _, .paren e => e.Valid names

end Derivation

def IsIdentifier (name : Bytes) : Prop :=
  ∃ head tail, name = head :: tail ∧ isIdentHead head = true ∧ ∀ sym ∈ tail, isIdentTail sym = true

/-- The names of the arguments are identifiers, and no two are the same. -/
def NamesValid (names : List Bytes) : Prop :=
  (∀ name ∈ names, IsIdentifier name) ∧ names.Nodup

/-- The language of the parser. -/
def Accepts (names : List Bytes) (code : Bytes) : Prop :=
  NamesValid names ∧ ∃ e : Derivation .addSub, words code = e.yield ++ [.eof] ∧ e.Valid names

/-- Words that some words complete to a valid program. -/
def Viable (names : List Bytes) (front : List Word) : Prop :=
  ∃ (e : Derivation .addSub) (back : List Word), e.yield ++ [.eof] = front ++ back ∧ e.Valid names

end ParserExample
