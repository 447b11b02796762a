import ParserExample.Parser.Errors
import ParserExample.Parser.Language
import ParserExample.Parser.Words

/-!
# Signed literals

A program that is a number under runs of signs and parentheses. The parser
refuses to negate `LONG_MAX`, whose negation is a `long`: `parseSlice_literal`
says that this is the only number in range that it gets wrong.
-/

namespace ParserExample

open Library

namespace Derivation

variable {names : List Bytes} {nt : NonTerminal}

/-- The number of a literal and what it becomes behind each run of signs, the
outermost first. -/
@[simp] def signedValues : {nt : NonTerminal} → Derivation nt → List Int
  | _, .ofMulDiv e => e.signedValues
  | _, .addSub _ _ _ => []
  | _, .ofSigned e => e.signedValues
  | _, .mulDiv _ _ _ => []
  | _, .signed signs e => (Derivation.signed signs e).literal.toList ++ e.signedValues
  | _, .ident _ => []
  | _, .int digits => [(decimal digits : Int)]
  | _, .paren e => e.signedValues

def InRange (e : Derivation nt) : Prop :=
  ∀ n ∈ e.signedValues, longMin.toInt ≤ n ∧ n ≤ longMax.toInt

@[simp] def negatesOnce : {nt : NonTerminal} → Derivation nt → Bool
  | _, .ofMulDiv e => e.negatesOnce
  | _, .addSub _ _ _ => false
  | _, .ofSigned e => e.negatesOnce
  | _, .mulDiv _ _ _ => false
  | _, .signed signs e => negates signs || e.negatesOnce
  | _, .ident _ => false
  | _, .int _ => false
  | _, .paren e => e.negatesOnce

/-- The literal is `LONG_MAX` and comes with a sign that counts. -/
def NegatesMax (e : Derivation nt) : Prop :=
  (∃ n, e.literal = some n ∧ n.natAbs = maxLiteral) ∧ e.negatesOnce = true

theorem literal_nonneg {e : Derivation nt} {n : Int} (h : e.literal = some n)
    (hn : e.negatesOnce = false) : 0 ≤ n := by
  induction e generalizing n with
  | signed signs e ih =>
    simp only [negatesOnce, Bool.or_eq_false_iff] at hn
    simp only [literal, hn.1, Bool.false_eq_true, if_false, Option.map_eq_some_iff] at h
    obtain ⟨m, hm, rfl⟩ := h
    exact ih hm hn.2
  | int digits =>
    obtain rfl : (decimal digits : Int) = n := by simpa using h
    exact Int.natCast_nonneg _
  | ofMulDiv e ih | ofSigned e ih | paren e ih => exact ih h hn
  | addSub | mulDiv | ident => simp at h

theorem valid_literal {e : Derivation nt} {n : Int} (h : e.literal = some n) :
    e.Valid names ↔ n.natAbs ≤ maxLiteral ∧ ¬ e.NegatesMax := by
  unfold NegatesMax
  simp only [h, Option.some.injEq, exists_eq_left']
  induction e generalizing n with
  | signed signs e ih =>
    simp only [literal, Option.map_eq_some_iff] at h
    obtain ⟨m, hm, rfl⟩ := h
    have habs : (if negates signs = true then -m else m).natAbs = m.natAbs := by
      split <;> simp
    have hpos := fun hn => literal_nonneg hm hn
    simp only [Valid, ih hm, hm, habs, negatesOnce, Bool.or_eq_true, Option.some.injEq, ne_eq]
    cases hs : negates signs with
    | false => simp
    | true =>
      cases he : e.negatesOnce with
      | false =>
        have := hpos he
        simp only [Bool.false_eq_true, and_false, not_false_eq_true, and_true, true_implies,
          or_false]
        omega
      | true =>
        simp only [and_true, true_implies, or_true]
        omega
  | int digits =>
    obtain rfl : (decimal digits : Int) = n := by simpa using h
    simp
  | ofMulDiv e ih | ofSigned e ih | paren e ih => exact ih h
  | addSub | mulDiv | ident => simp at h

theorem inRange_literal {e : Derivation nt} {n : Int} (h : e.literal = some n) :
    e.InRange ↔ n.natAbs ≤ maxLiteral := by
  have hmin : longMin.toInt = -2 ^ 63 := by decide
  have hmax : longMax.toInt = 2 ^ 63 - 1 := by decide
  unfold InRange
  rw [hmin, hmax]
  induction e generalizing n with
  | signed signs e ih =>
    simp only [literal, Option.map_eq_some_iff] at h
    obtain ⟨m, hm, rfl⟩ := h
    have habs : (if negates signs = true then -m else m).natAbs = m.natAbs := by
      split <;> simp
    simp only [signedValues, literal, hm, Option.map_some, Option.toList_some,
      List.singleton_append, List.forall_mem_cons, ih hm, habs]
    refine ⟨And.right, fun hle => ⟨?_, hle⟩⟩
    unfold maxLiteral at hle
    split <;> omega
  | int digits =>
    obtain rfl : (decimal digits : Int) = n := by simpa using h
    simp only [signedValues, List.forall_mem_singleton, Int.natAbs_natCast, maxLiteral]
    omega
  | ofMulDiv e ih | ofSigned e ih | paren e ih => exact ih h
  | addSub | mulDiv | ident => simp at h

theorem ident_notMem_yield {e : Derivation nt} {n : Int} (h : e.literal = some n) (name : Bytes) :
    Word.ident name ∉ e.yield := by
  induction e generalizing n with
  | signed signs e ih =>
    simp only [literal, Option.map_eq_some_iff] at h
    obtain ⟨m, hm, -⟩ := h
    simp only [yield, List.mem_append, List.mem_map, not_or, not_exists, not_and]
    refine ⟨fun op _ hop => ?_, ih hm⟩
    cases op <;> cases hop
  | int digits => simp
  | paren e ih => simpa using ih h
  | ofMulDiv e ih | ofSigned e ih => exact ih h
  | addSub | mulDiv | ident => simp at h

end Derivation

section
variable {heap : Heap} {code : Bytes} {names : List Bytes} {e : Derivation .addSub} {n : Int}

/-- What the parser owes a signed literal: if the literal and its signed values
are in range, one node that holds its value; and it says that a value is out of
range only if one is. -/
def LiteralChecked (heap : Heap) (code : Bytes) (names : List Bytes) (e : Derivation .addSub)
    (n : Int) : Prop :=
  (e.InRange → ∃ p node value, parseSlice heap code names = .ok p ∧ p.state = .done ∧
    p.ast.nodes = [node] ∧ node.data = .leaf (.int value) ∧ value.toInt = n) ∧
  ∀ p, parseSlice heap code names = .ok p → p.error = .valueOutOfRange → ¬ e.InRange

theorem parseSlice_of_valid_literal (hn : NamesValid names)
    (hmem : AllocationsSucceed heap code names) (h : words code = e.yield ++ [.eof])
    (hl : e.literal = some n) (hv : e.Valid names) :
    ∃ p node value, parseSlice heap code names = .ok p ∧ p.state = .done ∧
      p.ast.nodes = [node] ∧ node.data = .leaf (.int value) ∧ value.toInt = n := by
  have haccepts : Accepts names code := ⟨hn, e, h, hv⟩
  have hfit : IdentifiersFit names code := by
    intro l name hl' hw
    obtain ⟨rest, hrest, hstop⟩ := lexemes_eq code
    have hmem : Word.ident name ∈ e.yield ++ [.eof] := by
      rw [← h, words, ← hw, hrest]
      exact List.mem_map_of_mem (List.mem_append_right _ (List.mem_of_mem_head? (hstop ▸ hl')))
    exact absurd (by simpa using hmem) (e.ident_notMem_yield hl name)
  obtain ⟨p, hp, hdone, -⟩ := parsesExactly_of_fit hmem hfit
  have hd := hdone haccepts
  obtain ⟨-, t, hf, hr⟩ := parseSlice_done hp hd
  obtain ⟨-, ht⟩ := expr_of_derivation hr h
  obtain ⟨hrep, -, hexpr⟩ := (literal_expr hv).1 n hl
  rw [hexpr] at ht
  cases t with
  | leaf s a =>
    obtain rfl : a = .int (Int64.ofInt n) := by simpa using ht
    refine ⟨p, ⟨s.1, s.2, .leaf (.int (Int64.ofInt n))⟩, _, hp, hd, hf.2.2, rfl, ?_⟩
    unfold Representable maxLiteral at hrep
    exact Int64.toInt_ofInt_of_le (by omega) (by omega)
  | _ => simp at ht

/-- The parser checks the range of a signed literal exactly, unless the literal
is `LONG_MAX` and one of its runs of signs negates. -/
theorem parseSlice_literal (hn : NamesValid names) (hmem : AllocationsSucceed heap code names)
    (h : words code = e.yield ++ [.eof]) (hl : e.literal = some n) :
    LiteralChecked heap code names e n ↔ ¬ e.NegatesMax := by
  have hrange := e.inRange_literal hl
  have hvalid := @Derivation.valid_literal names _ _ _ hl
  constructor
  · rintro ⟨hok, -⟩ hneg
    obtain ⟨m, hm, habs⟩ := hneg.1
    obtain rfl : n = m := by simpa [hl] using hm
    obtain ⟨p, -, -, hp, hd, -⟩ := hok (hrange.mpr habs.le)
    obtain ⟨-, t, -, hr⟩ := parseSlice_done hp hd
    exact (hvalid.mp (expr_of_derivation hr h).1).2 hneg
  · intro hneg
    refine ⟨fun hin => ?_, fun p hp herr hin => ?_⟩
    · exact parseSlice_of_valid_literal hn hmem h hl (hvalid.mpr ⟨hrange.mp hin, hneg⟩)
    · obtain ⟨q, -, -, hq, hd, -⟩ :=
        parseSlice_of_valid_literal hn hmem h hl (hvalid.mpr ⟨hrange.mp hin, hneg⟩)
      obtain rfl : p = q := Except.ok.inj (hp.symm.trans hq)
      have hstate := (parseSlice_returned hp).error_iff.mpr (by rw [herr]; decide)
      rw [hd] at hstate
      cases hstate

/-- `-(-9223372036854775806)`. -/
theorem parseSlice_literal_nested : ∃ (e : Derivation .addSub) (p : Parser) (node : AstNode)
    (value : Long), words (ascii "-(-9223372036854775806)") = e.yield ++ [.eof] ∧ e.InRange ∧
      parseSlice Heap.unlimited (ascii "-(-9223372036854775806)") [] = .ok p ∧ p.state = .done ∧
      p.ast.nodes = [node] ∧ node.data = .leaf (.int value) ∧
      value.toInt = 9223372036854775806 := by
  let inner : Derivation .atom := .int (ascii "9223372036854775806")
  let e : Derivation .addSub := .ofMulDiv (.ofSigned (.signed [.minus]
    (.paren (.ofMulDiv (.ofSigned (.signed [.minus] inner))))))
  have hwords : words (ascii "-(-9223372036854775806)") = e.yield ++ [.eof] := by
    have hcode : ascii "-(-9223372036854775806)" = byte '-' :: byte '(' :: byte '-' ::
        (ascii "9223372036854775806" ++ [byte ')']) := rfl
    rw [hcode, words_minus, words_parenOpen, words_minus,
      words_digits (by decide) (by decide +kernel) (by rintro _ ⟨⟩; decide),
      words_parenClose, words_nil]
    rfl
  have hlit : e.literal = some 9223372036854775806 := by decide +kernel
  have hin : e.InRange := (e.inRange_literal hlit).mpr (by decide +kernel)
  have hneg : ¬ e.NegatesMax := by
    rintro ⟨⟨n, hn, habs⟩, -⟩
    obtain rfl : 9223372036854775806 = n := by simpa [hlit] using hn
    exact absurd habs (by decide +kernel)
  have hmem : AllocationsSucceed Heap.unlimited (ascii "-(-9223372036854775806)") [] :=
    allocationsSucceed_of_error (by decide +kernel)
  obtain ⟨p, node, value, hp⟩ :=
    ((parseSlice_literal ⟨by simp, List.nodup_nil⟩ hmem hwords hlit).mpr hneg).1 hin
  exact ⟨e, p, node, value, hwords, hin, hp⟩

/-- `-9223372036854775807`. -/
theorem not_literalChecked : ¬ ∀ heap code names (e : Derivation .addSub) n, NamesValid names →
    AllocationsSucceed heap code names → words code = e.yield ++ [.eof] → e.literal = some n →
      LiteralChecked heap code names e n := by
  intro h
  let e : Derivation .addSub :=
    .ofMulDiv (.ofSigned (.signed [.minus] (.int (ascii "9223372036854775807"))))
  have hwords : words (ascii "-9223372036854775807") = e.yield ++ [.eof] := by
    have hcode : ascii "-9223372036854775807" =
        byte '-' :: (ascii "9223372036854775807" ++ []) := rfl
    rw [hcode, words_minus,
      words_digits (by decide) (by decide +kernel) (by rintro _ ⟨⟩), words_nil]
    rfl
  have hparse : (parseSlice Heap.unlimited (ascii "-9223372036854775807") []).map Parser.error =
      .ok .valueOutOfRange := by decide +kernel
  obtain ⟨p, hp, herr⟩ := exists_of_map_eq_ok hparse
  have hmem : AllocationsSucceed Heap.unlimited (ascii "-9223372036854775807") [] := by
    intro q hq
    obtain rfl : p = q := Except.ok.inj (hp.symm.trans hq)
    rw [herr]
    decide
  have hchecked := h _ _ [] e (-9223372036854775807) ⟨by simp, List.nodup_nil⟩ hmem hwords
    (by decide +kernel)
  refine hchecked.2 p hp herr ?_
  unfold Derivation.InRange
  decide +kernel

end

end ParserExample
