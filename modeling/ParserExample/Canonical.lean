import ParserExample.Bytecode.Decode
import ParserExample.Grammar.Unambiguous
import ParserExample.Pipeline
import ParserExample.Printer.Reparse

/-!
# What tells programs apart

The array, the printed text and the bytecode of a program each determine its
expression, and the expression determines them. Two codes of the same words,
whatever stands between the words, are the same program.
-/

namespace ParserExample

open Library
open ParserExample.Expr (int var)

-- ---------------------------------------------------------------------------
-- Printed texts
-- ---------------------------------------------------------------------------

section
variable {names : List Bytes} {e e' l r l' r' t : Expr} {g g' : BinaryType} {argc : Nat}

/-- Only a literal is printed as a number, since a negated literal is folded. -/
theorem Folded.eq_int {digits : Bytes} (he : Folded argc e)
    (h : Expr.atom names e = .int digits) : ∃ value, e = int value := by
  induction e with
  | leaf a =>
    cases a with
    | int value => exact ⟨value, rfl⟩
    | var a => cases h
  | un f t ih =>
    obtain ⟨value, rfl⟩ := ih he.1 h
    exact absurd rfl (he.2 value)
  | bin g l r => cases h

theorem derivation_injective {left right left' right' : Derivation .signed}
    (h : g.derivation left right = g'.derivation left' right') :
    g = g' ∧ left = left' ∧ right = right' := by
  cases g <;> cases g' <;> simp_all [BinaryType.derivation]

theorem int_injective {value value' : Long} (hs : Expr.signs (int value) = Expr.signs (int value'))
    (ha : Expr.atom names (int value) = Expr.atom names (int value')) : value = value' := by
  simp only [Expr.signs, Expr.atom, Derivation.int.injEq] at hs ha
  have habs : value.toInt.natAbs = value'.toInt.natAbs := by
    rw [← decimal_formatNat value.toInt.natAbs, ha, decimal_formatNat]
  have hsign : value.toInt < 0 ↔ value'.toInt < 0 := by
    by_cases h : value.toInt < 0 <;> by_cases h' : value'.toInt < 0 <;> simp [h, h'] at hs ⊢
  exact Int64.toInt_inj.mp (by omega)

theorem printed_injective (hn : NamesValid names) (he : Folded names.length e)
    (he' : Folded names.length e') (h : Expr.printed names e = Expr.printed names e') : e = e' := by
  induction e generalizing e' with
  | leaf a =>
    cases a with
    | int value =>
      obtain ⟨hs, ha⟩ := Derivation.signed.inj h
      obtain ⟨value', rfl⟩ := he'.eq_int ha.symm
      rw [int_injective hs ha]
    | var a =>
      obtain ⟨hs, ha⟩ := Derivation.signed.inj h
      rcases e' with (value | a') | ⟨f, t⟩ | ⟨g, l, r⟩
      · cases ha
      · have hlt : a < names.length := he
        have hlt' : a' < names.length := he'
        have hname : names[a] = names[a'] := by
          simpa [Expr.atom, hlt, hlt'] using ha
        rw [(hn.2.getElem_inj_iff).mp hname]
      · cases hs
      · cases ha
  | un f t ih =>
    obtain ⟨hs, ha⟩ := Derivation.signed.inj h
    rcases e' with (value | a') | ⟨f', t'⟩ | ⟨g, l, r⟩
    · obtain ⟨value', heq⟩ := he.eq_int ha
      cases heq
    · cases hs
    · have hsigns : Expr.signs t = Expr.signs t' := (List.cons.inj hs).2
      have hprinted : Expr.printed names t = Expr.printed names t' := by
        rw [Expr.printed, Expr.printed, hsigns]
        exact congrArg _ ha
      rw [ih he.1 he'.1 hprinted]
    · cases hs
  | bin g l r ihl ihr =>
    obtain ⟨hs, ha⟩ := Derivation.signed.inj h
    rcases e' with (value | a') | ⟨f', t'⟩ | ⟨g', l', r'⟩
    · cases ha
    · cases ha
    · cases hs
    · obtain ⟨rfl, hl, hr⟩ := derivation_injective (Derivation.paren.inj ha)
      rw [ihl he.1 he'.1 hl, ihr he.2.1 he'.2.1 hr]

theorem text_injective (hn : NamesValid names) (he : Folded names.length e)
    (he' : Folded names.length e') (h : Expr.text names e = Expr.text names e') : e = e' := by
  have hwords {t : Expr} (ht : Folded names.length t) :
      words (Expr.text names t) = (Expr.printed names t).yield ++ [.eof] := by
    simpa [words_nil] using @words_text names t [] hn ht nofun
  have hyield := (hwords he).symm.trans ((congrArg words h).trans (hwords he'))
  have hd : Derivation.ofMulDiv (.ofSigned (Expr.printed names e)) =
      .ofMulDiv (.ofSigned (Expr.printed names e')) :=
    Derivation.yield_injective _ (List.append_cancel_right hyield)
  exact printed_injective hn he he' (Derivation.ofSigned.inj (Derivation.ofMulDiv.inj hd))

end

-- ---------------------------------------------------------------------------
-- Arrays
-- ---------------------------------------------------------------------------

section
variable {ast ast' : Ast} {e e' : Expr} {argc : Nat}

theorem Folded.fits (he : Folded argc e) (hargc : argc ≤ sizeMax) :
    ∀ i ∈ e.code, Instruction.Fits i := by
  intro i hi
  rcases i with (value | a) | _ | type
  · trivial
  · exact (he.var_lt (Term.push_mem_code.mp hi)).le.trans hargc
  · trivial
  · trivial

theorem Ast.getElem?_data (ast : Ast) (i : Nat) : (ast.nodes.map AstNode.data)[i]? = ast.view i := by
  simp [Ast.view]

/-- But for the source positions, the array that lists an expression is determined by it. -/
theorem data_eq_iff (h : ast.ListsPostOrder (e.number 0)) (hlen : ast.nodesUsed = e.size)
    (h' : ast'.ListsPostOrder (e'.number 0)) (hlen' : ast'.nodesUsed = e'.size) :
    ast.nodes.map AstNode.data = ast'.nodes.map AstNode.data ↔ e = e' := by
  constructor
  · intro hdata
    have hview : ast.view = ast'.view := by
      funext i
      rw [← ast.getElem?_data, ← ast'.getElem?_data, hdata]
    have hused : ast.nodesUsed = ast'.nodesUsed := by
      simpa [Ast.nodesUsed] using congrArg List.length hdata
    have hslot : (e.number 0).slot = (e'.number 0).slot := by rw [h.root, h'.root, hused]
    have htree := h.holds.unique (hview ▸ h'.holds) hslot
    simpa using congrArg Tree.erase htree
  · rintro rfl
    have hused : ast.nodesUsed = ast'.nodesUsed := hlen.trans hlen'.symm
    refine List.ext_getElem? fun i => ?_
    rw [ast.getElem?_data, ast'.getElem?_data]
    by_cases hi : i ∈ (e.number 0).slots
    · exact h.holds.view_eq h'.holds hi
    · rw [h.slots, List.mem_range, not_lt] at hi
      have hi' : ast'.nodesUsed ≤ i := hused ▸ hi
      rw [Ast.view, Ast.view, List.getElem?_eq_none hi, List.getElem?_eq_none hi']

end

-- ---------------------------------------------------------------------------
-- Programs
-- ---------------------------------------------------------------------------

section
variable {heap heap' heap₁ heap₁' : Heap} {code code' : Bytes} {names : List Bytes}
  {p p' : Parser} {bytecode bytecode' : Bytecode}

theorem contents_bytecodeCompile {ast : Ast} {e : Expr} (ht : ast.ListsPostOrder (e.number 0))
    (hlen : ast.nodesUsed = e.size) (hc : bytecodeCompile heap ast = .ok bytecode)
    (hz : bytecode.stackSize ≠ 0) : bytecode.bytes.contents = program e := by
  have hdepth : (e.number 0).erase.depth ≤ ast.nodesUsed := by
    rw [Term.erase_number, hlen]
    exact e.depth_le_size
  obtain ⟨bytecode₁, hc₁, hok, -⟩ :=
    bytecodeCompile_cases heap ht.holds (Ast.slot_number ht hlen) hdepth
  obtain rfl := Except.ok.inj (hc.symm.trans hc₁)
  rw [(hok hz).2.1, Term.erase_number]

theorem exists_compiled (code : Bytes) (names : List Bytes)
    (h : (parseSlice Heap.unlimited code names).bind (fun p =>
      (bytecodeCompile Heap.unlimited p.ast).map fun bytecode =>
        (p.state, decide (bytecode.stackSize ≠ 0))) = .ok (.done, true)) :
    ∃ p bytecode, parseSlice Heap.unlimited code names = .ok p ∧ p.state = .done ∧
      bytecodeCompile Heap.unlimited p.ast = .ok bytecode ∧ bytecode.stackSize ≠ 0 := by
  obtain ⟨p, hp, h⟩ := bind_ok.mp h
  obtain ⟨bytecode, hc, h⟩ := exists_of_map_eq_ok h
  obtain ⟨hd, hz⟩ := Prod.mk.inj h
  exact ⟨p, bytecode, hp, hd, hc, of_decide_eq_true hz⟩

/-- Two programs over the same names are the same expression if and only if they
have the same nodes, the same text, or the same bytecode. -/
theorem parseSlice_canonical (hnames : names.length ≤ sizeMax)
    (h : parseSlice heap code names = .ok p) (hd : p.state = .done)
    (h' : parseSlice heap' code' names = .ok p') (hd' : p'.state = .done)
    (hc : bytecodeCompile heap₁ p.ast = .ok bytecode) (hz : bytecode.stackSize ≠ 0)
    (hc' : bytecodeCompile heap₁' p'.ast = .ok bytecode') (hz' : bytecode'.stackSize ≠ 0) :
    [∀ d d' : Derivation .addSub, words code = d.yield ++ [.eof] →
        words code' = d'.yield ++ [.eof] → d.expr names = d'.expr names,
      p.ast.nodes.map AstNode.data = p'.ast.nodes.map AstNode.data,
      astPrint p.ast names = astPrint p'.ast names,
      bytecode.bytes.contents = bytecode'.bytes.contents].TFAE := by
  obtain ⟨hn, u, -, hread⟩ := parseSlice_done h hd
  obtain ⟨-, u', -, hread'⟩ := parseSlice_done h' hd'
  obtain ⟨-, d, hwords, -⟩ := exists_derivation hread
  obtain ⟨-, d', hwords', -⟩ := exists_derivation hread'
  obtain ⟨e, ht, hlen, hf, hexpr⟩ := parseSlice_tree h hd
  obtain ⟨e', ht', hlen', hf', hexpr'⟩ := parseSlice_tree h' hd'
  have hderivations : (∀ d d' : Derivation .addSub, words code = d.yield ++ [.eof] →
      words code' = d'.yield ++ [.eof] → d.expr names = d'.expr names) ↔ e = e' := by
    constructor
    · intro hall
      rw [hexpr d hwords, hexpr' d' hwords', hall d d' hwords hwords']
    · rintro rfl d d' hwords hwords'
      rw [← hexpr d hwords, ← hexpr' d' hwords']
  have htexts : astPrint p.ast names = astPrint p'.ast names ↔ e = e' := by
    rw [astPrint_number ht hlen hf, astPrint_number ht' hlen' hf', Except.ok.injEq]
    exact ⟨text_injective hn hf hf', congrArg _⟩
  have hcontents : bytecode.bytes.contents = bytecode'.bytes.contents ↔ e = e' := by
    rw [contents_bytecodeCompile ht hlen hc hz, contents_bytecodeCompile ht' hlen' hc' hz']
    exact ⟨program_injective (hf.fits hnames) (hf'.fits hnames), congrArg _⟩
  rw [hderivations, data_eq_iff ht hlen ht' hlen', htexts, hcontents]
  exact List.tfae_of_forall (e = e') _ (by simp)

theorem parseSlice_canonical_sum :
    ∃ p p' : Parser, parseSlice Heap.unlimited (ascii "1 + (2 + a)") [ascii "a"] = .ok p ∧
      parseSlice Heap.unlimited (ascii "(1) + (+2 + a)") [ascii "a"] = .ok p' ∧
      p.ast.nodes.map AstNode.data = p'.ast.nodes.map AstNode.data := by
  obtain ⟨p, bytecode, hp, hd, hc, hz⟩ :=
    exists_compiled (ascii "1 + (2 + a)") [ascii "a"] (by decide +kernel)
  obtain ⟨p', bytecode', hp', hd', hc', hz'⟩ :=
    exists_compiled (ascii "(1) + (+2 + a)") [ascii "a"] (by decide +kernel)
  have hprint : (parseSlice Heap.unlimited (ascii "1 + (2 + a)") [ascii "a"]).bind
      (fun p => astPrint p.ast [ascii "a"]) =
    (parseSlice Heap.unlimited (ascii "(1) + (+2 + a)") [ascii "a"]).bind
      (fun p => astPrint p.ast [ascii "a"]) := by decide +kernel
  rw [hp, hp'] at hprint
  have htfae := parseSlice_canonical (by decide) hp hd hp' hd' hc hz hc' hz'
  exact ⟨p, p', hp, hp', (htfae.out 2 1).mp hprint⟩

/-- The words alone make the program: with other spaces and comments between them,
the parser builds the same nodes, or reports that it is out of memory. -/
theorem parseSlice_layout (h : parseSlice heap code names = .ok p) (hd : p.state = .done)
    (hwords : words code' = words code) (heap' : Heap) :
    ∃ p', parseSlice heap' code' names = .ok p' ∧ (p'.error = .outOfMemory ∨
      p'.state = .done ∧ p'.ast.nodes.map AstNode.data = p.ast.nodes.map AstNode.data) := by
  by_cases hmem : AllocationsSucceed heap' code' names
  swap
  · unfold AllocationsSucceed at hmem
    push Not at hmem
    obtain ⟨p', hp', he⟩ := hmem
    exact ⟨p', hp', .inl he⟩
  obtain ⟨hn, u, -, hread⟩ := parseSlice_done h hd
  obtain ⟨hlegible, d, hyield, hvalid, -⟩ := exists_derivation hread
  have hyield' : words code' = d.yield ++ [.eof] := hwords.trans hyield
  have hlegible' : obstacle code' = none := by
    rw [obstacle_eq_none_iff hyield' hvalid]
    rwa [obstacle_eq_none_iff hyield hvalid] at hlegible
  have hfit : IdentifiersFit names code' := by
    intro l name hl
    rw [hlegible'] at hl
    cases hl
  obtain ⟨p', hp', hdone, -⟩ := parsesExactly_of_fit hmem hfit
  have hd' := hdone ⟨hn, d, hyield', hvalid⟩
  obtain ⟨e, ht, hlen, -, hexpr⟩ := parseSlice_tree h hd
  obtain ⟨e', ht', hlen', -, hexpr'⟩ := parseSlice_tree hp' hd'
  have heq : e' = e := (hexpr' d hyield').trans (hexpr d hyield).symm
  exact ⟨p', hp', .inr ⟨hd', (data_eq_iff ht' hlen' ht hlen).mpr heq⟩⟩

theorem parseSlice_layout_sum :
    ∃ p p' : Parser, parseSlice Heap.unlimited (ascii "1 + (2 + a)") [ascii "a"] = .ok p ∧
      parseSlice ⟨[true, true]⟩ (ascii "1+(2 # two\n+\ta)") [ascii "a"] = .ok p' ∧
      (p'.error = .outOfMemory ∨
        p'.state = .done ∧ p'.ast.nodes.map AstNode.data = p.ast.nodes.map AstNode.data) := by
  obtain ⟨p, hp, hsum⟩ := exists_of_map_eq_ok sum_optimized
  obtain ⟨p', hp', hsame⟩ := parseSlice_layout hp (Prod.mk.inj hsum).1
    (show words (ascii "1+(2 # two\n+\ta)") = _ by decide +kernel) ⟨[true, true]⟩
  exact ⟨p, p', hp, hp', hsame⟩

end

end ParserExample
