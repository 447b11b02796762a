import ParserExample.Bytecode.Interpreter
import ParserExample.Bytecode.Memory
import ParserExample.Optimizer.NormalForm
import ParserExample.Optimizer.Preservation
import ParserExample.Optimizer.Size
import ParserExample.Parser.Kept
import ParserExample.Parser.Memory
import ParserExample.Parser.PostOrder

/-!
# Programs on their way

What `optimize` does to the array that `parse_slice` returns, and how the parser
and the compiler report memory that they are refused.
-/

namespace ParserExample

open Library

section
variable {heap : Heap} {code : Bytes} {names : List Bytes} {p : Parser}

theorem parseSlice_slotTree (h : parseSlice heap code names = .ok p) (hd : p.state = .done) :
    ∃ t, Holds p.ast.view t ∧ t.slots.Nodup ∧ t.slot = p.ast.rootNodeIndex ∧
      ∀ args, astEval p.ast args = t.erase.eval (meaning args) := by
  obtain ⟨e, ht, hlen, -⟩ := parseSlice_tree h hd
  refine ⟨e.number 0, ht.holds, ht.slots ▸ List.nodup_range, Ast.slot_number ht hlen, ?_⟩
  intro args
  rw [astEval_number ht hlen, Term.erase_number]

/-- The optimizer brings a parsed program to a normal form, which it leaves as
it is when it runs again. It can fail only at a division of two constants that
overflows. -/
theorem optimize_parseSlice (h : parseSlice heap code names = .ok p) (hd : p.state = .done) :
    (optimize p.ast = .error .division ∧ ∃ pass ∈ optimizeTrace p.ast, Overflows pass) ∨
      ∃ ast', optimize p.ast = .ok ast' ∧ ast'.Optimized ∧ optimize ast' = .ok ast' := by
  obtain ⟨t, ht, hn, hs, -⟩ := parseSlice_slotTree h hd
  exact optimize_normal ht hn hs

theorem sum_optimized : (parseSlice Heap.unlimited (ascii "1 + (2 + a)") [ascii "a"]).map
    (fun p => (p.state, (optimize p.ast).isOk)) = .ok (.done, true) := by
  decide +kernel

theorem optimize_parseSlice_sum :
    ∃ p ast', parseSlice Heap.unlimited (ascii "1 + (2 + a)") [ascii "a"] = .ok p ∧
      optimize p.ast = .ok ast' ∧ ast'.Optimized ∧ optimize ast' = .ok ast' := by
  obtain ⟨p, hp, hsum⟩ := exists_of_map_eq_ok sum_optimized
  obtain ⟨hd, hok⟩ := Prod.mk.inj hsum
  rcases optimize_parseSlice hp hd with ⟨herr, -⟩ | ⟨ast', hopt, hnormal, hagain⟩
  · simp [herr, Except.isOk, Except.toBool] at hok
  · exact ⟨p, ast', hp, hopt, hnormal, hagain⟩

/-- Every pass of the optimizer on a parsed program keeps the value of its node
if and only if no pass drops a negation that matters; if none does, the
optimized program has the value of the program. -/
theorem astEval_optimize (h : parseSlice heap code names = .ok p) (hd : p.state = .done)
    (args : List Long) :
    ((∀ pass ∈ optimizeTrace p.ast, KeepsValue args pass) ↔
      ∀ pass ∈ optimizeTrace p.ast, ¬ LosesSign args pass) ∧
    ((∀ pass ∈ optimizeTrace p.ast, ¬ LosesSign args pass) →
      ∀ value, astEval p.ast args = .ok value →
        ∃ ast', optimize p.ast = .ok ast' ∧ astEval ast' args = .ok value) := by
  obtain ⟨t, ht, hn, hs, hv⟩ := parseSlice_slotTree h hd
  refine ⟨keepsValue_trace_iff ht hn hs, fun hl value hvalue => ?_⟩
  exact optimize_eval ht hn hs hl ((hv args).symm.trans hvalue)

theorem astEval_optimize_quotient :
    ∃ p ast',
      parseSlice Heap.unlimited (ascii "-(a / (2 + b + 1))") [ascii "a", ascii "b"] = .ok p ∧
      astEval p.ast [7, -1] = .ok (-3) ∧ optimize p.ast = .ok ast' ∧
      astEval ast' [7, -1] = .ok (-3) := by
  obtain ⟨p, hp, hd⟩ := exists_of_map_eq_ok (b := ParserState.done)
    (show (parseSlice Heap.unlimited (ascii "-(a / (2 + b + 1))") [ascii "a", ascii "b"]).map
      Parser.state = _ by decide +kernel)
  have hv : (parseSlice Heap.unlimited (ascii "-(a / (2 + b + 1))") [ascii "a", ascii "b"]).bind
      (fun p => astEval p.ast [7, -1]) = .ok (-3) := by decide +kernel
  have hl : (parseSlice Heap.unlimited (ascii "-(a / (2 + b + 1))") [ascii "a", ascii "b"]).map
      (fun p => (optimizeTrace p.ast).all fun pass => !pass.1.isDoubleInv pass.2) = .ok true := by
    decide +kernel
  simp only [hp, Except.bind, Except.map, Except.ok.injEq, List.all_eq_true,
    Bool.not_eq_true'] at hv hl
  obtain ⟨ast', hopt, hval⟩ := (astEval_optimize hp hd [7, -1]).2
    (fun pass hpass hlost => Bool.eq_false_iff.mp (hl pass hpass) hlost.1) (-3) hv
  exact ⟨p, ast', hp, hv, hopt, hval⟩

/-- `-(-a)` with the argument 5. -/
theorem not_astEval_optimize : ¬ ∀ heap code names p, parseSlice heap code names = .ok p →
    p.state = .done → ∀ args value, astEval p.ast args = .ok value →
      ∃ ast', optimize p.ast = .ok ast' ∧ astEval ast' args = .ok value := by
  intro h
  obtain ⟨p, hp, hd⟩ := exists_of_map_eq_ok (b := ParserState.done)
    (show (parseSlice Heap.unlimited (ascii "-(-a)") [ascii "a"]).map Parser.state = _ by
      decide +kernel)
  have hv : (parseSlice Heap.unlimited (ascii "-(-a)") [ascii "a"]).bind
      (fun p => astEval p.ast [5]) = .ok 5 := by decide +kernel
  have hw : (parseSlice Heap.unlimited (ascii "-(-a)") [ascii "a"]).bind
      (fun p => (optimize p.ast).bind fun ast' => astEval ast' [5]) = .ok (-5) := by decide +kernel
  simp only [hp, Except.bind] at hv hw
  obtain ⟨ast', hopt, hval⟩ := h _ _ _ p hp hd [5] 5 hv
  simp only [hopt, hval, Except.ok.injEq] at hw
  exact absurd hw (by decide)

/-- The optimizer carries out no division that traps, and so does not crash, if
and only if no pass is at a division of the constants `LONG_MIN` and -1. -/
theorem optimize_parseSlice_traps (h : parseSlice heap code names = .ok p) (hd : p.state = .done) :
    ((∀ pass ∈ optimizeTrace p.ast, iteration pass.1 pass.2 ≠ .error .division) ∧
      ∃ ast', optimize p.ast = .ok ast') ↔ ∀ pass ∈ optimizeTrace p.ast, ¬ Overflows pass := by
  obtain ⟨t, ht, hn, hs, -⟩ := parseSlice_slotTree h hd
  exact optimize_overflows_iff ht hn hs

theorem optimize_parseSlice_traps_sum :
    ∃ p ast', parseSlice Heap.unlimited (ascii "1 + (2 + a)") [ascii "a"] = .ok p ∧
      (∀ pass ∈ optimizeTrace p.ast, iteration pass.1 pass.2 ≠ .error .division) ∧
      optimize p.ast = .ok ast' := by
  obtain ⟨p, hp, hsum⟩ := exists_of_map_eq_ok sum_optimized
  have hadds : (parseSlice Heap.unlimited (ascii "1 + (2 + a)") [ascii "a"]).map (fun p =>
      (optimizeTrace p.ast).all fun pass =>
        pass.1.nodes[pass.2]?.bind AstNode.type? != some .div) = .ok true := by decide +kernel
  simp only [hp, Except.map, Except.ok.injEq, List.all_eq_true] at hadds
  obtain ⟨hsafe, ast', ho⟩ := (optimize_parseSlice_traps hp (Prod.mk.inj hsum).1).mpr
    fun pass hpass hover => by
      obtain ⟨left, right, hdiv, -⟩ := hover
      obtain ⟨node, hnode, hdata⟩ := Option.map_eq_some_iff.mp hdiv
      simpa [hnode, AstNode.type?, hdata] using hadds pass hpass
  exact ⟨p, ast', hp, hsafe, ho⟩

/-- `(-9223372036854775806 - 2) / -1`. -/
theorem not_optimize_parseSlice : ¬ ∀ heap code names p, parseSlice heap code names = .ok p →
    p.state = .done → ∃ ast', optimize p.ast = .ok ast' := by
  intro h
  obtain ⟨p, hp, hd⟩ := exists_of_map_eq_ok (b := ParserState.done)
    (show (parseSlice Heap.unlimited (ascii "(-9223372036854775806 - 2) / -1") []).map
      Parser.state = _ by decide +kernel)
  have htrap : (parseSlice Heap.unlimited (ascii "(-9223372036854775806 - 2) / -1") []).bind
      (fun p => optimize p.ast) = .error .division := by decide +kernel
  simp only [hp, Except.bind] at htrap
  obtain ⟨ast', hopt⟩ := h _ _ _ p hp hd
  simp [htrap] at hopt

/-- Optimizing never makes a program bigger: with all the memory it asks for the
compiler succeeds before and after, and after it the code is no longer and needs
no larger stack. -/
theorem bytecodeCompile_optimize {ast' : Ast} (h : parseSlice heap code names = .ok p)
    (hd : p.state = .done) (ho : optimize p.ast = .ok ast') :
    ∃ bytecode bytecode', bytecodeCompile Heap.unlimited p.ast = .ok bytecode ∧
      bytecodeCompile Heap.unlimited ast' = .ok bytecode' ∧
      bytecode.stackSize ≠ 0 ∧ bytecode'.stackSize ≠ 0 ∧
      bytecode'.bytes.used ≤ bytecode.bytes.used ∧ bytecode'.stackSize ≤ bytecode.stackSize := by
  obtain ⟨t, ht, hn, hs, -⟩ := parseSlice_slotTree h hd
  obtain ⟨t', hu, hsmall⟩ := optimize_smaller ht hn hs ho
  have hfits := length_program_le ht hn (parseSlice_size_le h)
  have hdepth := t.erase.depth_le_size.trans (size_le_nodesUsed ht hn)
  have hdepth' := t'.erase.depth_le_size.trans (size_le_nodesUsed hu.holds (hu.nodup hn))
  obtain ⟨bytecode, hc, hok, hfail⟩ := bytecodeCompile_cases Heap.unlimited ht hs hdepth
  obtain ⟨bytecode', hc', hok', hfail'⟩ :=
    bytecodeCompile_cases Heap.unlimited hu.holds (hu.root hs) hdepth'
  have hz : bytecode.stackSize ≠ 0 := fun hz => Nat.not_lt.mpr hfits (hfail hz rfl)
  have hz' : bytecode'.stackSize ≠ 0 := fun hz =>
    Nat.not_lt.mpr (hsmall.program.trans hfits) (hfail' hz rfl)
  obtain ⟨hsize, -, -, hused⟩ := hok hz
  obtain ⟨hsize', -, -, hused'⟩ := hok' hz'
  refine ⟨bytecode, bytecode', hc, hc', hz, hz', ?_, ?_⟩
  · rw [hused, hused']
    exact hsmall.program
  · rw [hsize, hsize']
    exact hsmall.height 0

theorem bytecodeCompile_optimize_sum :
    ∃ p ast' bytecode bytecode',
      parseSlice Heap.unlimited (ascii "1 + (2 + a)") [ascii "a"] = .ok p ∧
      optimize p.ast = .ok ast' ∧ bytecodeCompile Heap.unlimited p.ast = .ok bytecode ∧
      bytecodeCompile Heap.unlimited ast' = .ok bytecode' ∧
      bytecode'.bytes.used ≤ bytecode.bytes.used ∧ bytecode'.stackSize ≤ bytecode.stackSize := by
  obtain ⟨p, hp, hsum⟩ := exists_of_map_eq_ok sum_optimized
  obtain ⟨hd, hok⟩ := Prod.mk.inj hsum
  cases ho : optimize p.ast with
  | error f => simp [ho, Except.isOk, Except.toBool] at hok
  | ok ast' =>
    obtain ⟨bytecode, bytecode', hc, hc', -, -, hused, hsize⟩ := bytecodeCompile_optimize hp hd ho
    exact ⟨p, ast', bytecode, bytecode', hp, ho, hc, hc', hused, hsize⟩

/-- Memory that is refused is never passed over in silence: the parser reports it
or returns what it returns without, and the compiler reports a stack size of 0
exactly when a write fails and else returns what it returns without. -/
theorem allocationFailure_reported (heap heap' : Heap) (code : Bytes) (names : List Bytes)
    {ast : Ast} (hw : ast.WellFormed) :
    ((∃ p, parseSlice heap code names = .ok p ∧ p.state = .error ∧ p.error = .outOfMemory) ∨
      (parseSlice heap code names).map Parser.outcome =
        (parseSlice Heap.unlimited code names).map Parser.outcome) ∧
    ∃ t bytecode, Holds ast.view t ∧ t.slot = ast.rootNodeIndex ∧
      bytecodeCompile heap' ast = .ok bytecode ∧
      (bytecode.stackSize = 0 ↔ WriteFails (programWrites t.erase) heap' Buffer.init) ∧
      (1 ≤ bytecode.stackSize → bytecodeCompile Heap.unlimited ast = .ok bytecode) := by
  obtain ⟨t, ht, hs, hd⟩ := hw.exists_holds
  obtain ⟨bytecode, hc, hfails, hsame⟩ := bytecodeCompile_writes heap' ht hs hd
  exact ⟨parseSlice_sheltered heap code names, t, bytecode, ht, hs, hc, hfails,
    fun h => hsame (Nat.one_le_iff_ne_zero.mp h)⟩

theorem allocationFailure_reported_refused :
    ∃ p t bytecode, parseSlice ⟨[false]⟩ (ascii "1 + 2") [] = .ok p ∧ p.error = .outOfMemory ∧
      Holds quotientAst.view t ∧ bytecodeCompile ⟨[false]⟩ quotientAst = .ok bytecode ∧
      bytecode.stackSize = 0 ∧ WriteFails (programWrites t.erase) ⟨[false]⟩ Buffer.init := by
  obtain ⟨hparse, t, bytecode, ht, -, hc, hfails, -⟩ :=
    allocationFailure_reported ⟨[false]⟩ ⟨[false]⟩ (ascii "1 + 2") [] quotientAst_wellFormed
  have hlost : (parseSlice ⟨[false]⟩ (ascii "1 + 2") []).map Parser.outcome ≠
      (parseSlice Heap.unlimited (ascii "1 + 2") []).map Parser.outcome := by decide +kernel
  have hzero : (bytecodeCompile ⟨[false]⟩ quotientAst).map Bytecode.stackSize = .ok 0 := by
    decide +kernel
  rw [hc] at hzero
  rcases hparse with ⟨p, hp, -, he⟩ | hsame
  · exact ⟨p, t, bytecode, hp, he, ht, hc, Except.ok.inj hzero, hfails.mp (Except.ok.inj hzero)⟩
  · exact absurd hsame hlost

end

end ParserExample
