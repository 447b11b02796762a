import ParserExample.Grammar
import ParserExample.Reader

/-!
# The expression of a derivation

The parser builds the expression of a derivation with the signs of a literal
folded into it. `eval_expr` says that this is the value of the derivation, and
`literal_eq_iff` that the integers the parser sees are the derivation's
literals.
-/

namespace ParserExample

open Library

/-- The sign of a negated operand, folded into a literal. -/
def negate : Expr → Expr
  | .leaf (.int value) => .leaf (.int (-value))
  | e => .un () e

namespace Derivation

def expr (names : List Bytes) : {nt : NonTerminal} → Derivation nt → Expr
  | _, .ofMulDiv e => e.expr names
  | _, .addSub op left right => .bin op.type (left.expr names) (right.expr names)
  | _, .ofSigned e => e.expr names
  | _, .mulDiv op left right => .bin op.type (left.expr names) (right.expr names)
  | _, .signed signs e => if negates signs then negate (e.expr names) else e.expr names
  | _, .ident name => .leaf (.var (names.idxOf name))
  | _, .int digits => .leaf (.int (Int64.ofNat (decimal digits)))
  | _, .paren e => e.expr names

end Derivation

section
variable {names : List Bytes} {args : List Long} {nt : NonTerminal}

theorem eval_negate (t : Expr) :
    (negate t).eval (meaning args) = (t.eval (meaning args)).map (- ·) := by
  unfold negate
  split
  · rfl
  · cases h : t.eval (meaning args) <;> simp [Term.eval, h, Except.map]

theorem eval_expr (e : Derivation nt) :
    (e.expr names).eval (meaning args) = e.value names args := by
  induction e with
  | addSub op left right ihl ihr =>
    simp only [Derivation.expr, Derivation.value, Term.eval, ihl, ihr, meaning_bin]
  | mulDiv op left right ihl ihr =>
    simp only [Derivation.expr, Derivation.value, Term.eval, ihl, ihr, meaning_bin]
  | signed signs e ih =>
    simp only [Derivation.expr, Derivation.value]
    cases negates signs with
    | false =>
      rw [if_neg Bool.false_ne_true, ih]
      cases e.value names args <;> rfl
    | true =>
      rw [if_pos rfl, eval_negate, ih]
      cases e.value names args <;> rfl
  | ident name => rfl
  | int digits => rfl
  | _ => simpa only [Derivation.expr, Derivation.value]

/-- A number the parser can hold. -/
def Representable (n : Int) : Prop := -(maxLiteral : Int) ≤ n ∧ n ≤ maxLiteral

theorem ofInt_inj {m n : Int} (hm : Representable m) (hn : Representable n) :
    Int64.ofInt m = Int64.ofInt n ↔ m = n := by
  unfold Representable maxLiteral at *
  refine ⟨fun h => ?_, fun h => h ▸ rfl⟩
  have := congrArg Int64.toInt h
  rwa [Int64.toInt_ofInt_of_le (by omega) (by omega),
    Int64.toInt_ofInt_of_le (by omega) (by omega)] at this

theorem negate_eq_int {t : Expr} {value : Long} (h : negate t = Expr.int value) :
    t = Expr.int (-value) := by
  unfold negate at h
  split at h
  · obtain rfl : -_ = value := by simpa using h
    rw [Int64.neg_neg]
  · simp at h

theorem literal_expr {e : Derivation nt} (h : e.Valid names) :
    (∀ n, e.literal = some n → Representable n ∧ n ≠ -(maxLiteral : Int) ∧
      e.expr names = Expr.int (Int64.ofInt n)) ∧
    (e.literal = none → ∀ value, e.expr names ≠ Expr.int value) := by
  induction e with
  | signed signs e ih =>
    obtain ⟨ihs, ihn⟩ := ih h.1
    refine ⟨?_, ?_⟩
    · intro n hn
      simp only [Derivation.literal, Option.map_eq_some_iff] at hn
      obtain ⟨m, hm, rfl⟩ := hn
      obtain ⟨hrep, hne, hexpr⟩ := ihs m hm
      rw [Derivation.expr, hexpr]
      cases hneg : negates signs with
      | false => exact ⟨by simpa using hrep, by simpa using hne, by simp⟩
      | true =>
        have hmax := h.2 hneg
        rw [hm] at hmax
        unfold Representable at *
        refine ⟨by simp; omega, by simpa using hmax, ?_⟩
        simp [negate, Int64.ofInt_neg]
    · intro hn value
      have hn := ihn (by simpa using hn)
      rw [Derivation.expr]
      split
      · exact fun hv => hn _ (negate_eq_int hv)
      · exact hn value
  | int digits =>
    refine ⟨?_, by simp⟩
    rintro n ⟨⟩
    simp only [Derivation.Valid] at h
    exact ⟨⟨by omega, by omega⟩, by unfold maxLiteral; omega, rfl⟩
  | addSub => simp [Derivation.expr]
  | mulDiv => simp [Derivation.expr]
  | ident => simp [Derivation.expr]
  | ofMulDiv e ih => exact ih h
  | ofSigned e ih => exact ih h
  | paren e ih => exact ih h

theorem literal_eq_iff {e : Derivation nt} (h : e.Valid names) {n : Int} (hn : Representable n) :
    e.literal = some n ↔ e.expr names = Expr.int (Int64.ofInt n) := by
  obtain ⟨hs, hnone⟩ := literal_expr h
  refine ⟨fun hl => (hs n hl).2.2, fun he => ?_⟩
  cases hl : e.literal with
  | none => exact absurd he (hnone hl _)
  | some m =>
    obtain ⟨hrep, -, hm⟩ := hs m hl
    rw [hm] at he
    rw [(ofInt_inj hrep hn).mp (by simpa using he)]

/-- The parser's check on a negated operand. -/
theorem applySigns_cases (startIndex : Nat) (inverse : Bool) (t : RangedExpr) :
    (inverse = true ∧ t.erase = Expr.int longMax ∧ ∃ endIndex,
      applySigns startIndex inverse t = .error (.failed .valueOutOfRange startIndex endIndex)) ∨
    (¬ (inverse = true ∧ t.erase = Expr.int longMax) ∧ ∃ t',
      applySigns startIndex inverse t = .ok t' ∧
        t'.erase = if inverse then negate t.erase else t.erase) := by
  cases inverse with
  | false => exact .inr ⟨nofun, _, rfl, by simp⟩
  | true =>
    have hother (hint : ∀ value, t.erase ≠ Expr.int value) (h : applySigns startIndex true t =
        .ok (.un (startIndex, t.slot.2) () t)) (hn : negate t.erase = .un () t.erase) :
        ¬ (true = true ∧ t.erase = Expr.int longMax) ∧ ∃ t', applySigns startIndex true t = .ok t' ∧
          t'.erase = if true then negate t.erase else t.erase :=
      ⟨fun hv => hint _ hv.2, _, h, by rw [if_pos rfl, hn]; rfl⟩
    cases t with
    | leaf s a =>
      cases a with
      | int value =>
        by_cases hmax : value = longMax
        · exact .inl ⟨rfl, by rw [hmax]; rfl, s.2, by simp [applySigns, hmax]⟩
        · exact .inr ⟨by simpa using hmax, _, by simp only [applySigns, hmax]; rfl, rfl⟩
      | var argIndex => exact .inr (hother (by simp) rfl rfl)
    | un s f t => exact .inr (hother (by simp) rfl rfl)
    | bin s g l r => exact .inr (hother (by simp) rfl rfl)

end

-- ---------------------------------------------------------------------------
-- Chains
-- ---------------------------------------------------------------------------

/-- What `ADD_SUB` and `MUL_DIV` share: chains of operands of `nt'` with
operators of their own between them. -/
structure Chain (names : List Bytes) (nt nt' : NonTerminal) where
  Op : Type
  word : Op → Word
  type : Op → BinaryType
  pick : Word → Option BinaryType
  node : Op → Derivation nt → Derivation nt' → Derivation nt
  pick_word : ∀ op, pick (word op) = some (type op)
  exists_op : ∀ w t, pick w = some t → ∃ op, word op = w ∧ type op = t
  exists_not_div : ∃ op, type op ≠ .div
  yield_node : ∀ op l r, (node op l r).yield = l.yield ++ word op :: r.yield
  expr_node : ∀ op l r, (node op l r).expr names = .bin (type op) (l.expr names) (r.expr names)
  literal_node : ∀ op l r, (node op l r).literal = none
  valid_node : ∀ op l r, (node op l r).Valid names ↔
    l.Valid names ∧ r.Valid names ∧ (type op = .div → r.literal ≠ some 0)

def addSubChain (names : List Bytes) : Chain names .addSub .mulDiv where
  Op := AddSubOp
  word := AddSubOp.word
  type := AddSubOp.type
  pick := Word.addSubType
  node := .addSub
  pick_word op := by cases op <;> rfl
  exists_op w t h := by
    cases w <;> simp only [Word.addSubType, Option.some.injEq, reduceCtorEq] at h
    · exact ⟨.plus, rfl, h⟩
    · exact ⟨.minus, rfl, h⟩
  exists_not_div := ⟨.plus, nofun⟩
  yield_node _ _ _ := rfl
  expr_node _ _ _ := rfl
  literal_node _ _ _ := rfl
  valid_node op l r := by cases op <;> simp

def mulDivChain (names : List Bytes) : Chain names .mulDiv .signed where
  Op := MulDivOp
  word := MulDivOp.word
  type := MulDivOp.type
  pick := Word.mulDivType
  node := .mulDiv
  pick_word op := by cases op <;> rfl
  exists_op w t h := by
    cases w <;> simp only [Word.mulDivType, Option.some.injEq, reduceCtorEq] at h
    · exact ⟨.mul, rfl, h⟩
    · exact ⟨.div, rfl, h⟩
  exists_not_div := ⟨.mul, nofun⟩
  yield_node _ _ _ := rfl
  expr_node _ _ _ := rfl
  literal_node _ _ _ := rfl
  valid_node op l r := by cases op <;> simp

/-- The parser's check on a divisor. -/
theorem div_check_iff {names : List Bytes} {nt : NonTerminal} {e : Derivation nt} {t : RangedExpr}
    (h : e.Valid names) (ht : t.erase = e.expr names) :
    t.erase = Expr.int 0 ↔ e.literal = some 0 := by
  rw [literal_eq_iff h ⟨by unfold maxLiteral; omega, by unfold maxLiteral; omega⟩, ht]
  rfl

/-- The parser's check on a negated literal. -/
theorem max_check_iff {names : List Bytes} {nt : NonTerminal} {e : Derivation nt} {t : RangedExpr}
    (h : e.Valid names) (ht : t.erase = e.expr names) :
    t.erase = Expr.int longMax ↔ e.literal = some (maxLiteral : Int) := by
  rw [literal_eq_iff h ⟨by unfold maxLiteral; omega, le_refl _⟩, ht]
  rfl

end ParserExample
