import ParserExample.Driver.Report
import ParserExample.Grammar.Unambiguous
import ParserExample.Optimizer.Negations

/-!
# The exit status

`main` returns 0 if and only if the three evaluations of the program agree. What
it then prints is right: the value is that of the code, as the grammar reads it,
with the arguments that the environment holds.
-/

namespace ParserExample

open Library

theorem Process.code_noNul (process : Process) (hargc : 2 ≤ process.argc) : 0 ∉ process.code := by
  have hlt : process.argc - 1 < process.argv.length := by
    rw [Process.argc] at *
    omega
  rw [Process.code, List.getD_eq_getElem _ _ hlt]
  exact process.argv_noNul _ (List.getElem_mem hlt)

theorem Process.parseString_code (process : Process) (hargc : 2 ≤ process.argc) (heap : Heap)
    (names : List Bytes) :
    parseString heap process.code names = parseSlice heap process.code names := by
  rw [parseString, List.takeWhile_eq_self_iff.mpr]
  intro sym hsym
  have hne : sym ≠ 0 := fun hz => process.code_noNul hargc (hz ▸ hsym)
  simpa using hne

section
variable {process : Process} {e e' : Expr} {value value' : Long} {exit : Exit}

@[simp] theorem Exit.status_check (exit : Exit) (value value' : Long) (message : Bytes) :
    (exit.check value value' message).status = if value = value' then exit.status else 1 := by
  by_cases heq : value = value' <;> simp [Exit.check, heq]

@[simp] theorem Exit.stdout_check (exit : Exit) (value value' : Long) (message : Bytes) :
    (exit.check value value' message).stdout = exit.stdout := by
  by_cases heq : value = value' <;> simp [Exit.check, Exit.eprint, heq]

@[simp] theorem Exit.stderr_check (exit : Exit) (value value' : Long) (message : Bytes) :
    (exit.check value value' message).stderr =
      exit.stderr ++ if value = value' then [] else message := by
  by_cases heq : value = value' <;> simp [Exit.check, Exit.eprint, heq]

theorem Reported.status_eq_zero_iff (h : Reported process e e' value value' exit) :
    exit.status = 0 ↔ value = value' ∧
      (WriteFails (programWrites e') process.compilerHeap Buffer.init ∨ process.malloc = true ∨
        value = longMax) := by
  cases h with
  | noCode hw => simp [Exit.eprint, hw]
  | @ran result hw hresult =>
    subst hresult
    by_cases heq : value = value'
    · cases process.malloc <;> simp [Exit.eprint, hw, heq]
    · simp [Exit.eprint, heq]

end

/-- `parser_example a '1 + (2 + a)'`, with 5 for `a`. -/
def sumProcess : Process where
  argv := [ascii "parser_example", ascii "a", ascii "1 + (2 + a)"]
  getenv name := if name = ascii "a" then some (ascii "5") else none
  parserHeap := Heap.unlimited
  calloc := true
  compilerHeap := Heap.unlimited
  malloc := true
  strerror := []
  argc_lt := by decide
  argv_noNul := by decide

/-- `parser_example a '-(-a)'`, with 5 for `a`. -/
def negationProcess : Process where
  argv := [ascii "parser_example", ascii "a", ascii "-(-a)"]
  getenv name := if name = ascii "a" then some (ascii "5") else none
  parserHeap := Heap.unlimited
  calloc := true
  compilerHeap := Heap.unlimited
  malloc := true
  strerror := []
  argc_lt := by decide
  argv_noNul := by decide

section
variable {process : Process} {p : Parser} {args : List Long} {value : Long} {exit : Exit}
  {d : Derivation .addSub}

/-- `main` is done with its three evaluations and they agree. With no memory for the
bytecode there is no third one, and with none for its stack it has the result
`LONG_MAX`. -/
theorem main_status_eq_zero_iff (process : Process) :
    (∃ exit, main process = .ok exit ∧ exit.status = 0) ↔
    ∃ p args ast' value bytecode, process.Ready p args ∧ astEval p.ast args = .ok value ∧
      optimize p.ast = .ok ast' ∧ astEval ast' args = .ok value ∧
      bytecodeCompile process.compilerHeap ast' = .ok bytecode ∧
      (bytecode.stackSize = 0 ∨ process.malloc = true ∨ value = longMax) := by
  constructor
  · rintro ⟨exit, h, hs⟩
    have hruns := main_runs process
    rw [h] at hruns
    cases hruns with
    | report hready _ ho hs' hv hv' hr =>
      obtain ⟨bytecode, hc, hfails, -⟩ := hs'.compile process.compilerHeap
      obtain ⟨rfl, hend⟩ := hr.status_eq_zero_iff.mp hs
      exact ⟨_, _, _, _, bytecode, hready, hv, ho, hv', hc, hend.imp_left hfails.mpr⟩
    | _ => cases hs
  · rintro ⟨p, args, ast', value, bytecode, hready, hv, ho, hv', hc, hend⟩
    obtain ⟨t, t', exit, -, hs', hr, hmain⟩ := hready.reported hv ho hv'
    obtain ⟨bytecode', hc', hfails, -⟩ := hs'.compile process.compilerHeap
    obtain rfl := Except.ok.inj (hc.symm.trans hc')
    exact ⟨exit, hmain, hr.status_eq_zero_iff.mpr ⟨rfl, hend.imp_left hfails.mp⟩⟩

/-- The status 0 vouches for what is printed: the code is a program, the arguments
are in the environment, and the value is that of the program. The trees and the
listing are complete, unless there was no memory for the bytecode. -/
theorem main_sound (h : main process = .ok exit) (hs : exit.status = 0) :
    ∃ (d : Derivation .addSub) (args : List Long) (value : Long) (p : Parser) (ast' : Ast)
      (t' : SlotTree) (bytecode : Bytecode),
      NamesValid process.names ∧ words process.code = d.yield ++ [.eof] ∧ d.Valid process.names ∧
      List.Forall₂ (HasValue process.getenv) process.names args ∧
      d.value process.names args = .ok value ∧
      process.Ready p args ∧ optimize p.ast = .ok ast' ∧
      ast'.Stores process.names.length t' ∧ t'.erase.eval (meaning args) = .ok value ∧
      bytecodeCompile process.compilerHeap ast' = .ok bytecode ∧
      ((bytecode.stackSize ≠ 0 ∧ (process.malloc = true ∨ value = longMax) ∧
          exit.stdout = treeSection process (d.expr process.names) t'.erase value value ++
            codeSection process t'.erase value ∧
          exit.stderr = if process.malloc then []
            else ascii "allocating varialbe stack: " ++ process.strerror ++ ascii "\n") ∨
        (bytecode.stackSize = 0 ∧
          WriteFails (programWrites t'.erase) process.compilerHeap Buffer.init ∧
          exit.stdout = treeSection process (d.expr process.names) t'.erase value value ∧
          exit.stderr = ascii "Error (probably out of memory)\n")) := by
  have hruns := main_runs process
  rw [h] at hruns
  cases hruns with
  | @report p args ast' t t' value value' exit hready hst ho hst' hv hv' hr =>
    obtain ⟨rfl, hend⟩ := hr.status_eq_zero_iff.mp hs
    have hparses := hready.parses
    rw [process.parseString_code hready.argc] at hparses
    obtain ⟨hn, u, d, hsu, hwords, hvalid, hexpr⟩ := parseSlice_stores hparses hready.done
    obtain rfl := hst.unique hsu
    have hargs := hasValue_of_readArgs hready.args
    have hd : d.value process.names args = .ok value := by
      rw [← eval_expr, ← hexpr, ← hst.eval, hv]
    have he' : t'.erase.eval (meaning args) = .ok value := by rw [← hst'.eval, hv']
    obtain ⟨bytecode, hc, hfails, -⟩ := hst'.compile process.compilerHeap
    refine ⟨d, args, value, p, ast', t', bytecode, hn, hwords, hvalid, hargs, hd, hready, ho, hst',
      he', hc, ?_⟩
    rw [← hexpr]
    cases hr with
    | noCode hw => exact .inr ⟨hfails.mpr hw, hw, by simp [Exit.eprint], by simp [Exit.eprint]⟩
    | @ran result hw hresult =>
      have hmemory : process.malloc = true ∨ value = longMax :=
        hend.resolve_left hw
      obtain rfl : result = value := by
        rcases hmemory with hmalloc | hmax
        · rw [hresult, if_pos hmalloc]
        · rw [hresult, hmax, ite_self]
      refine .inl ⟨mt hfails.mp hw, hmemory, by simp [Exit.eprint], ?_⟩
      have hmessage : ascii "allocating varialbe stack: " =
          ascii "allocating varialbe stack" ++ ascii ": " := rfl
      have hnewline : ascii "\n" = [newline] := rfl
      simp [Exit.eprint, Process.stackError, Process.perror, hmessage, hnewline]
  | _ => cases hs

theorem main_sound_sum : ∃ (exit : Exit) (d : Derivation .addSub) (args : List Long)
    (value : Long) (t' : SlotTree), main sumProcess = .ok exit ∧
      words sumProcess.code = d.yield ++ [.eof] ∧
      List.Forall₂ (HasValue sumProcess.getenv) sumProcess.names args ∧
      d.value sumProcess.names args = .ok value ∧
      exit.stdout = treeSection sumProcess (d.expr sumProcess.names) t'.erase value value ++
        codeSection sumProcess t'.erase value ∧
      exit.stderr = [] := by
  obtain ⟨exit, hexit, hrun⟩ := exists_of_map_eq_ok (b := (0, ([] : Bytes)))
    (show (main sumProcess).map (fun exit => (exit.status, exit.stderr)) = _ by decide +kernel)
  obtain ⟨hs, herr⟩ := Prod.mk.inj hrun
  obtain ⟨d, args, value, p, ast', t', bytecode, -, hwords, -, hargs, hv, -, -, -, -, -, hout⟩ :=
    main_sound hexit hs
  rcases hout with ⟨-, -, hstdout, -⟩ | ⟨-, -, -, hmessage⟩
  · exact ⟨exit, d, args, value, t', hexit, hwords, hargs, hv, hstdout, herr⟩
  · rw [herr] at hmessage
    exact absurd hmessage (by decide)

/-- With memory for its stack, the interpreter's result is compared in vain: it
differs from the first value only where that of the optimized tree does. -/
theorem main_mismatch (h : process.Ready p args) (hm : process.malloc = true)
    (hmain : main process = .ok exit) :
    ∃ ast' value value', astEval p.ast args = .ok value ∧ optimize p.ast = .ok ast' ∧
      astEval ast' args = .ok value' ∧
      exit.status = (if value = value' then 0 else 1) ∧
      ∃ bytecode, bytecodeCompile process.compilerHeap ast' = .ok bytecode ∧
        exit.stderr =
          (if value = value' then []
            else ascii "Error: optimized code gives a different result!\n\n") ++
          if bytecode.stackSize = 0 then ascii "Error (probably out of memory)\n"
          else if value = value' then []
          else ascii "\nError: bytecode code gives a different result!\n" := by
  have hruns := h.runs
  obtain ⟨t, hst⟩ := h.stores
  rw [h.main_eq] at hmain
  rcases report_cases hst h.length_args with
    ⟨-, hr⟩ | ⟨ast', t', value, value', exit', ho, hst', hv, hv', hr, hrep⟩
  · rw [hmain] at hr
    cases hr
  obtain rfl := Except.ok.inj (hmain.symm.trans hrep)
  obtain ⟨bytecode, hc, hfails, -⟩ := hst'.compile process.compilerHeap
  refine ⟨ast', value, value', hv, ho, hv', ?_, bytecode, hc, ?_⟩
  · cases hr with
    | noCode hw => simp [Exit.eprint]
    | ran hw hresult => simp [Exit.eprint, hresult, hm]
  · cases hr with
    | noCode hw => simp [Exit.eprint, hfails.mpr hw]
    | ran hw hresult =>
      simp [Exit.eprint, Process.stackError, hresult, hm, mt hfails.mp hw]

theorem main_mismatch_negation : ∃ exit, main negationProcess = .ok exit ∧ exit.status = 1 ∧
    ∃ value value' : Long, value ≠ value' ∧
      exit.status = if value = value' then 0 else 1 := by
  obtain ⟨p, hp, herror⟩ := exists_of_map_eq_ok (b := ParserError.none)
    (show (parseString negationProcess.parserHeap negationProcess.code
      negationProcess.names).map Parser.error = _ by decide +kernel)
  obtain ⟨exit, hexit, hs⟩ := exists_of_map_eq_ok (b := 1)
    (show (main negationProcess).map Exit.status = _ by decide +kernel)
  have hready : negationProcess.Ready p [5] :=
    ⟨by decide, hp, herror, rfl, by decide +kernel⟩
  obtain ⟨ast', value, value', -, -, -, hstatus, -⟩ := main_mismatch hready rfl hexit
  refine ⟨exit, hexit, hs, value, value', ?_, hstatus⟩
  rintro rfl
  rw [hs, if_pos rfl] at hstatus
  cases hstatus

/-- With memory, the run succeeds of every program that nests no two negations and
has a value. -/
theorem main_succeeds (hargc : 2 ≤ process.argc) (hn : NamesValid process.names)
    (hwords : words process.code = d.yield ++ [.eof]) (hvalid : d.Valid process.names)
    (hfit : IdentifiersFit process.names process.code)
    (hmem : AllocationsSucceed process.parserHeap process.code process.names)
    (hcalloc : process.calloc = true) (hmalloc : process.malloc = true)
    (hargs : List.Forall₂ (HasValue process.getenv) process.names args)
    (hv : d.value process.names args = .ok value)
    (hneg : negations (d.expr process.names) (d.expr process.names) ≤ 1) :
    ∃ exit, main process = .ok exit ∧ exit.status = 0 := by
  obtain ⟨p, hp, hdone, -⟩ := parsesExactly_of_fit hmem hfit
  have hd := hdone ⟨hn, d, hwords, hvalid⟩
  have herror : p.error = .none := by
    by_contra hne
    have hs := (parseSlice_returned hp).error_iff.mpr hne
    rw [hd] at hs
    cases hs
  have hready : process.Ready p args :=
    ⟨hargc, process.parseString_code hargc _ _ ▸ hp, herror, hcalloc, readArgs_values hargs⟩
  obtain ⟨-, t, d', hst, hwords', -, hexpr⟩ := parseSlice_stores hp hd
  obtain rfl : d = d' := by
    refine Derivation.yield_injective _ (List.append_cancel_right (hwords.symm.trans hwords'))
  have hvt : t.erase.eval (meaning args) = .ok value := by rw [hexpr, eval_expr, hv]
  rw [← hexpr] at hneg
  obtain ⟨ast', ho, hv'⟩ := optimize_eval hst.holds hst.nodup hst.root
    (not_losesSign hst.holds hst.root hst.nodup hneg) hvt
  obtain ⟨t', t'', exit, -, -, hr, hmain⟩ := hready.reported (hst.eval.trans hvt) ho hv'
  exact ⟨exit, hmain, hr.status_eq_zero_iff.mpr ⟨rfl, .inr (.inl hmalloc)⟩⟩

theorem main_succeeds_sum : ∃ exit, main sumProcess = .ok exit ∧ exit.status = 0 := by
  have hargs : readArgs sumProcess.getenv sumProcess.names = .ok [5] := by decide +kernel
  let one : Derivation .mulDiv := .ofSigned (.signed [] (.int (ascii "1")))
  let two : Derivation .mulDiv := .ofSigned (.signed [] (.int (ascii "2")))
  let a : Derivation .mulDiv := .ofSigned (.signed [] (.ident (ascii "a")))
  let d : Derivation .addSub :=
    .addSub .plus (.ofMulDiv one) (.ofSigned (.signed [] (.paren (.addSub .plus (.ofMulDiv two) a))))
  have hvalid : d.Valid sumProcess.names := by
    have hone : decimal (ascii "1") ≤ maxLiteral := by decide +kernel
    have htwo : decimal (ascii "2") ≤ maxLiteral := by decide +kernel
    have ha : ascii "a" ∈ sumProcess.names := by decide +kernel
    exact ⟨⟨hone, nofun⟩, ⟨⟨htwo, nofun⟩, ha, nofun⟩, nofun⟩
  refine @main_succeeds sumProcess [5] 8 d (by decide)
    (argsError_eq_none_iff.mp (by decide +kernel)) (by decide +kernel) hvalid ?_ ?_ rfl rfl
    (hasValue_of_readArgs hargs) (by decide +kernel) (by decide +kernel)
  · intro l name hl
    simp [show obstacle sumProcess.code = none by decide +kernel] at hl
  · exact allocationsSucceed_of_error (by decide +kernel)

end

end ParserExample
