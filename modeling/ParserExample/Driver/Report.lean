import ParserExample.Diagnostics.Lines
import ParserExample.Driver.Environment
import ParserExample.Printer.Optimized

/-!
# Runs of the program

Whatever the arguments, the environment and the outcomes of the allocations are,
`main` returns, but for a division that traps and a name that overruns the
parser's buffer. `Runs` lists what it can do.
-/

namespace ParserExample

open Library

-- ---------------------------------------------------------------------------
-- Trees over named arguments
-- ---------------------------------------------------------------------------

structure Ast.Stores (ast : Ast) (argc : Nat) (t : SlotTree) : Prop where
  holds : Holds ast.view t
  nodup : t.slots.Nodup
  root : t.slot = ast.rootNodeIndex
  var_lt : ∀ a, .var a ∈ t.erase.leaves → a < argc

namespace Ast.Stores

variable {ast ast' : Ast} {argc : Nat} {t : SlotTree} {args : List Long} {names : List Bytes}

theorem depth_le (h : ast.Stores argc t) : t.erase.depth ≤ ast.nodesUsed :=
  t.erase.depth_le_size.trans (size_le_nodesUsed h.holds h.nodup)

theorem eval (h : ast.Stores argc t) : astEval ast args = t.erase.eval (meaning args) :=
  Ast.astEval_eq h.holds h.root h.depth_le

theorem eval_cases (h : ast.Stores argc t) (hargs : args.length = argc) :
    (∃ value, astEval ast args = .ok value) ∨ astEval ast args = .error .division := by
  rw [h.eval]
  exact ParserExample.eval_cases (hargs ▸ h.var_lt)

theorem print (h : ast.Stores argc t) (hnames : argc ≤ names.length) :
    astPrint ast names = .ok (Expr.text names t.erase) :=
  Ast.astPrint_eq h.holds h.root h.depth_le fun a ha => (h.var_lt a ha).trans_le hnames

theorem fits (h : ast.Stores argc t) (hargc : argc ≤ sizeMax) :
    ∀ i ∈ t.erase.code, Instruction.Fits i :=
  (Ast.wellFormed_of_holds h.holds h.root fun a ha =>
    (h.var_lt a ha).le.trans hargc).fits h.holds h.root

theorem optimize_cases (h : ast.Stores argc t) :
    optimize ast = .error .division ∨
      ∃ ast' t', optimize ast = .ok ast' ∧ ast'.Stores argc t' := by
  rcases optimize_normal h.holds h.nodup h.root with ⟨herr, -⟩ | ⟨ast', ho, -⟩
  · exact .inl herr
  · obtain ⟨t', visited, hu, hr⟩ := optimize_ok_run h.holds h.nodup h.root ho
    refine .inr ⟨ast', t', ho, hu.holds, hu.nodup h.nodup, hu.root h.root, fun a ha => ?_⟩
    exact h.var_lt a (hr.respects varsIn_respected a ha)

theorem compile (h : ast.Stores argc t) (heap : Heap) :
    ∃ bytecode, bytecodeCompile heap ast = .ok bytecode ∧
      (bytecode.stackSize = 0 ↔ WriteFails (programWrites t.erase) heap Buffer.init) ∧
      (bytecode.stackSize ≠ 0 → bytecode.bytes.contents = program t.erase ∧
        (program t.erase).length ≤ sizeMax) := by
  obtain ⟨bytecode, hc, hfails, -⟩ := bytecodeCompile_writes heap h.holds h.root h.depth_le
  obtain ⟨bytecode', hc', hok, -⟩ := bytecodeCompile_cases heap h.holds h.root h.depth_le
  obtain rfl := Except.ok.inj (hc.symm.trans hc')
  exact ⟨bytecode, hc, hfails, fun hz => ⟨(hok hz).2.1, (hok hz).2.2.1⟩⟩

end Ast.Stores

theorem Ast.Stores.unique {ast : Ast} {argc : Nat} {t t' : SlotTree} (h : ast.Stores argc t)
    (h' : ast.Stores argc t') : t = t' :=
  h.holds.unique h'.holds (h.root.trans h'.root.symm)

theorem bytecodeEval_malloc {e : Expr} {args : List Long} (malloc : Bool)
    (hc : ∀ i ∈ e.code, Instruction.Fits i) (hp : (program e).length ≤ sizeMax) :
    bytecodeEval malloc (program e) args =
      if malloc then e.eval (meaning args) else .ok longMax := by
  cases malloc with
  | true => rw [bytecodeEval_program hc hp, if_pos rfl]
  | false =>
    simp only [bytecodeEval, readWord_program hp, ok_bind]
    rfl

theorem parseSlice_stores {heap : Heap} {code : Bytes} {names : List Bytes} {p : Parser}
    (h : parseSlice heap code names = .ok p) (hd : p.state = .done) :
    NamesValid names ∧ ∃ (t : SlotTree) (d : Derivation .addSub), p.ast.Stores names.length t ∧
      words code = d.yield ++ [.eof] ∧ d.Valid names ∧ t.erase = d.expr names := by
  obtain ⟨hn, u, -, hread⟩ := parseSlice_done h hd
  obtain ⟨-, d, hwords, hvalid, -⟩ := exists_derivation hread
  obtain ⟨e, hlists, hlen, hf, hexpr⟩ := parseSlice_tree h hd
  refine ⟨hn, e.number 0, d, ⟨hlists.holds, hlists.slots ▸ List.nodup_range,
    Ast.slot_number hlists hlen, fun a ha => ?_⟩, hwords, hvalid, ?_⟩
  · rw [Term.erase_number] at ha
    exact hf.var_lt ha
  · rw [Term.erase_number, hexpr d hwords]

-- ---------------------------------------------------------------------------
-- The report
-- ---------------------------------------------------------------------------

/-- What is printed up to the bytecode. -/
def treeSection (process : Process) (e e' : Expr) (value value' : Long) : Bytes :=
  ascii "(" ++ (ascii ", ").intercalate process.names ++ ascii ") -> " ++ process.code ++
    ascii "\n\nAST\n---\n" ++
    ascii "Parsed AST: " ++ Expr.text process.params e ++ ascii " = " ++
    ascii (toString value.toInt) ++ ascii "\n" ++
    ascii "Optimized AST: " ++ Expr.text process.params e' ++ ascii " = " ++
    ascii (toString value'.toInt) ++ ascii "\n\n" ++
    ascii "Byte Code\n---------\n"

/-- What is printed of the bytecode. -/
def codeSection (process : Process) (e' : Expr) (result : Long) : Bytes :=
  ascii "stack size: " ++ ascii (toString (e'.height 0)) ++ ascii " cells (" ++
    ascii (toString (wordSize * e'.height 0)) ++ ascii " B)\n\n" ++
    (e'.code.map (Instruction.text process.params)).flatten ++ ascii "RET\n" ++
    ascii "\nresult = " ++ ascii (toString result.toInt) ++ ascii "\n"

theorem printNames_eq (names : List Bytes) : printNames names = (ascii ", ").intercalate names := by
  induction names using printNames.induct with
  | case1 => rfl
  | case2 name => simp [printNames, List.intercalate]
  | case3 name names hne ih =>
    cases names with
    | nil => exact absurd rfl hne
    | cons name' names =>
      rw [printNames, ih]
      · simp [List.intercalate]
      · exact hne

theorem treeSection_eq (process : Process) (e e' : Expr) (value value' : Long) :
    treeSection process e e' value value' =
      signature process.names process.code ++ ascii "AST\n---\n" ++
        resultLine (ascii "Parsed AST: ") (Expr.text process.params e) value ++
        (resultLine (ascii "Optimized AST: ") (Expr.text process.params e') value' ++ [newline]) ++
        ascii "Byte Code\n---------\n" := by
  have hsection : ascii "\n\nAST\n---\n" = ascii "\n\n" ++ ascii "AST\n---\n" := rfl
  have hnewlines : ascii "\n\n" = [newline] ++ [newline] := rfl
  have hnewline : ascii "\n" = [newline] := rfl
  simp only [treeSection, signature, resultLine, printNames_eq, formatLong_toString, hsection,
    hnewlines, hnewline, List.append_assoc]

theorem codeSection_eq (process : Process) (e' : Expr) (result : Long) :
    codeSection process e' result =
      ascii "stack size: " ++ ascii (toString (e'.height 0)) ++ ascii " cells (" ++
        ascii (toString (wordSize * e'.height 0)) ++ ascii " B)\n\n" ++
        ((e'.code.map (Instruction.text process.params)).flatten ++ ascii "RET\n") ++
        resultLine (ascii "\nresult") [] result := by
  have hresult : ascii "\nresult = " = ascii "\nresult" ++ ascii " = " := rfl
  have hnewline : ascii "\n" = [newline] := rfl
  simp only [codeSection, resultLine, formatLong_toString, hresult, hnewline, List.append_assoc,
    List.nil_append]

inductive Reported (process : Process) (e e' : Expr) (value value' : Long) : Exit → Prop
  | noCode (hw : WriteFails (programWrites e') process.compilerHeap Buffer.init) :
    Reported process e e' value value'
      ((Exit.check ⟨0, treeSection process e e' value value', []⟩ value value'
          (ascii "Error: optimized code gives a different result!\n\n")).eprint
        (ascii "Error (probably out of memory)\n"))
  | ran {result} (hw : ¬ WriteFails (programWrites e') process.compilerHeap Buffer.init)
      (hresult : result = if process.malloc then value' else longMax) :
    Reported process e e' value value'
      (((Exit.check ⟨0, treeSection process e e' value value' ++
              codeSection process e' result, []⟩
            value value' (ascii "Error: optimized code gives a different result!\n\n")).eprint
          process.stackError).check
        value result (ascii "\nError: bytecode code gives a different result!\n"))

/-- A division traps while the program is evaluated or optimized. -/
def Ast.TrapsOn (ast : Ast) (args : List Long) : Prop :=
  astEval ast args = .error .division ∨ optimize ast = .error .division ∨
    ∃ ast', optimize ast = .ok ast' ∧ astEval ast' args = .error .division

theorem Exit.check_print (exit : Exit) (value value' : Long) (message text : Bytes) :
    (exit.check value value' message).print text =
      (exit.print text).check value value' message := by
  unfold Exit.check
  split <;> rfl

theorem Exit.eprint_print (exit : Exit) (message text : Bytes) :
    (exit.eprint message).print text = (exit.print text).eprint message := rfl

namespace Process

variable (process : Process)

theorem names_length : process.names.length = process.argc - 2 := by
  simp only [names, params, List.length_take, List.length_drop, argc]
  omega

theorem names_length_le : process.names.length ≤ process.params.length := by
  simp [names]

theorem names_length_le_sizeMax : process.names.length ≤ sizeMax := by
  have h := process.argc_lt
  rw [names_length, argc, sizeMax]
  omega

end Process

section
variable {process : Process} {ast : Ast} {t : SlotTree} {args : List Long}

theorem report_cases (h : ast.Stores process.names.length t)
    (hargs : args.length = process.names.length) :
    (ast.TrapsOn args ∧ report process ast args = .error .division) ∨
    ∃ ast' t' value value' exit, optimize ast = .ok ast' ∧ ast'.Stores process.names.length t' ∧
      astEval ast args = .ok value ∧ astEval ast' args = .ok value' ∧
      Reported process t.erase t'.erase value value' exit ∧
      report process ast args = .ok exit := by
  rcases h.eval_cases hargs with ⟨value, hv⟩ | hv
  swap
  · refine .inl ⟨.inl hv, ?_⟩
    simp only [report, h.print process.names_length_le, hv, ok_bind, error_bind]
  rcases h.optimize_cases with ho | ⟨ast', t', ho, h'⟩
  · refine .inl ⟨.inr (.inl ho), ?_⟩
    simp only [report, h.print process.names_length_le, hv, ho, ok_bind, error_bind]
  rcases h'.eval_cases hargs with ⟨value', hv'⟩ | hv'
  swap
  · refine .inl ⟨.inr (.inr ⟨ast', ho, hv'⟩), ?_⟩
    simp only [report, h.print process.names_length_le, hv, ho, h'.print process.names_length_le,
      hv', ok_bind, error_bind]
  obtain ⟨bytecode, hc, hfails, hok⟩ := h'.compile process.compilerHeap
  have hfits := h'.fits process.names_length_le_sizeMax
  have htrees := treeSection_eq process t.erase t'.erase value value'
  refine .inr ⟨ast', t', value, value', ?_⟩
  by_cases hz : bytecode.stackSize = 0
  · refine ⟨_, ho, h', hv, hv', .noCode (hfails.mp hz), ?_⟩
    simp only [report, h.print process.names_length_le, hv, ho, h'.print process.names_length_le,
      hv', hc, ok_bind, if_pos hz, pure_eq_ok, Exit.check_print]
    simp only [Exit.print, htrees, List.append_assoc]
  · obtain ⟨hcontents, hp⟩ := hok hz
    have hprint := @bytecodePrint_program _ process.params hfits hp fun a ha =>
      (h'.var_lt a ha).trans_le process.names_length_le
    have hbc : bytecodeEval process.malloc (program t'.erase) args =
        .ok (if process.malloc then value' else longMax) := by
      rw [bytecodeEval_malloc _ hfits hp, ← h'.eval, hv']
      cases process.malloc <;> rfl
    refine ⟨_, ho, h', hv, hv', .ran (fun hw => hz (hfails.mpr hw)) rfl, ?_⟩
    simp only [report, h.print process.names_length_le, hv, ho, h'.print process.names_length_le,
      hv', hc, ok_bind, if_neg hz, hcontents, hprint, hbc, pure_eq_ok, Exit.check_print,
      Exit.eprint_print]
    simp only [Exit.print, htrees, codeSection_eq, List.append_assoc]

end

-- ---------------------------------------------------------------------------
-- `main`
-- ---------------------------------------------------------------------------

/-- `main` gets to its report: the code is accepted and every parameter has a value. -/
structure Process.Ready (process : Process) (p : Parser) (args : List Long) : Prop where
  argc : 2 ≤ process.argc
  parses : parseString process.parserHeap process.code process.names = .ok p
  accepted : p.error = .none
  calloc : process.calloc = true
  args : readArgs process.getenv process.names = .ok args

inductive Process.Runs (process : Process) : Except Fault Exit → Prop
  | usage (hargc : process.argc < 2) : process.Runs (.ok ⟨1, usage process.argv, []⟩)
  | overrun (hargc : 2 ≤ process.argc)
      (hp : parseString process.parserHeap process.code process.names = .error .overrun) :
    process.Runs (.error .overrun)
  | rejected {p message} (hargc : 2 ≤ process.argc)
      (hp : parseString process.parserHeap process.code process.names = .ok p)
      (he : p.error ≠ .none) (hm : parserPrintError p = .ok message) :
    process.Runs (.ok ⟨1, [], message⟩)
  | noMemory {p} (hargc : 2 ≤ process.argc)
      (hp : parseString process.parserHeap process.code process.names = .ok p)
      (he : p.error = .none) (hc : process.calloc = false) :
    process.Runs (.ok ⟨1, [], process.perror (ascii "allocating arguments")⟩)
  | noArgs {p message} (hargc : 2 ≤ process.argc)
      (hp : parseString process.parserHeap process.code process.names = .ok p)
      (he : p.error = .none) (hc : process.calloc = true)
      (hr : readArgs process.getenv process.names = .error message) :
    process.Runs (.ok ⟨1, ParserExample.usage process.argv, message⟩)
  | trap {p args} (h : process.Ready p args) (ht : p.ast.TrapsOn args) :
    process.Runs (.error .division)
  | report {p args ast' t t' value value' exit} (h : process.Ready p args)
      (hs : p.ast.Stores process.names.length t) (ho : optimize p.ast = .ok ast')
      (hs' : ast'.Stores process.names.length t') (hv : astEval p.ast args = .ok value)
      (hv' : astEval ast' args = .ok value')
      (hr : Reported process t.erase t'.erase value value' exit) : process.Runs (.ok exit)

section
variable {process : Process} {p : Parser} {args : List Long} {f : Fault}

theorem Process.Ready.length_args (h : process.Ready p args) : args.length = process.names.length :=
  (hasValue_of_readArgs h.args).length_eq.symm

theorem Process.Ready.done (h : process.Ready p args) : p.state = .done := by
  cases parseSlice_returned h.parses with
  | argument _ herror => rcases herror with he | he <;> simp [h.accepted] at he
  | failed hf => exact absurd h.accepted hf.error
  | done hd => exact hd.state

theorem Process.Ready.stores (h : process.Ready p args) :
    ∃ t, p.ast.Stores process.names.length t := by
  obtain ⟨-, t, -, hs, -⟩ := parseSlice_stores h.parses h.done
  exact ⟨t, hs⟩

theorem Process.Ready.main_eq (h : process.Ready p args) : main process = report process p.ast args := by
  have hargc := h.argc
  rw [main, if_neg (by omega)]
  simp only [h.parses, ok_bind, h.accepted, ne_eq, not_true_eq_false, if_false, h.calloc, h.args]
  rfl

theorem Process.Ready.runs (h : process.Ready p args) : process.Runs (main process) := by
  obtain ⟨t, hs⟩ := h.stores
  rw [h.main_eq]
  rcases report_cases hs h.length_args with
    ⟨ht, hr⟩ | ⟨ast', t', value, value', exit, ho, hs', hv, hv', hrep, hr⟩
  · rw [hr]
    exact .trap h ht
  · rw [hr]
    exact .report h hs ho hs' hv hv' hrep

theorem main_runs (process : Process) : process.Runs (main process) := by
  rcases Nat.lt_or_ge process.argc 2 with hargc | hargc
  · rw [main, if_pos hargc]
    exact .usage hargc
  cases hp : parseString process.parserHeap process.code process.names with
  | error f =>
    obtain rfl := parseSlice_fault hp
    rw [main, if_neg (by omega), hp]
    exact .overrun hargc hp
  | ok p =>
    by_cases he : p.error = .none
    swap
    · obtain ⟨message, hm⟩ := parserPrintError_ok hp
      rw [main, if_neg (by omega), hp]
      simp only [ok_bind, if_pos he, hm]
      exact .rejected hargc hp he hm
    cases hc : process.calloc with
    | false =>
      rw [main, if_neg (by omega), hp]
      simp only [ok_bind, he, hc]
      exact .noMemory hargc hp he hc
    | true =>
      cases hr : readArgs process.getenv process.names with
      | error message =>
        rw [main, if_neg (by omega), hp]
        simp only [ok_bind, he, hc, hr]
        exact .noArgs hargc hp he hc hr
      | ok args => exact Process.Ready.runs ⟨hargc, hp, he, hc, hr⟩

theorem Ast.TrapsOn.elim {ast ast' : Ast} {value value' : Long} (ht : ast.TrapsOn args)
    (hv : astEval ast args = .ok value) (ho : optimize ast = .ok ast')
    (hv' : astEval ast' args = .ok value') : False := by
  rcases ht with ht | ht | ⟨ast₁, ho₁, ht⟩
  · rw [hv] at ht
    cases ht
  · rw [ho] at ht
    cases ht
  · obtain rfl := Except.ok.inj (ho.symm.trans ho₁)
    rw [hv'] at ht
    cases ht

theorem Process.Ready.main_trap (h : process.Ready p args) (ht : p.ast.TrapsOn args) :
    main process = .error .division := by
  obtain ⟨t, hs⟩ := h.stores
  rw [h.main_eq]
  rcases report_cases hs h.length_args with
    ⟨-, hr⟩ | ⟨ast', t', value, value', exit, ho, -, hv, hv', -⟩
  · exact hr
  · exact (ht.elim hv ho hv').elim

theorem Process.Ready.reported {ast' : Ast} {value value' : Long} (h : process.Ready p args)
    (hv : astEval p.ast args = .ok value) (ho : optimize p.ast = .ok ast')
    (hv' : astEval ast' args = .ok value') :
    ∃ t t' exit, p.ast.Stores process.names.length t ∧ ast'.Stores process.names.length t' ∧
      Reported process t.erase t'.erase value value' exit ∧ main process = .ok exit := by
  obtain ⟨t, hs⟩ := h.stores
  rcases report_cases hs h.length_args with
    ⟨ht, -⟩ | ⟨ast₁, t', value₁, value₁', exit, ho₁, hs', hv₁, hv₁', hr, hrep⟩
  · exact (ht.elim hv ho hv').elim
  · obtain rfl := Except.ok.inj (ho.symm.trans ho₁)
    obtain rfl := Except.ok.inj (hv.symm.trans hv₁)
    obtain rfl := Except.ok.inj (hv'.symm.trans hv₁')
    exact ⟨t, t', exit, hs, hs', hr, h.main_eq.trans hrep⟩

/-- `main` crashes in two ways only: a name in the code overruns the parser's
buffer, or a division traps in the evaluation of the program or in the
optimizer. It reads and writes nothing out of bounds otherwise, no assertion
fails, and it always comes to an end. -/
theorem main_error_iff (process : Process) (f : Fault) : main process = .error f ↔
    (f = .overrun ∧ 2 ≤ process.argc ∧
      parseString process.parserHeap process.code process.names = .error .overrun) ∨
    f = .division ∧ ∃ p args, process.Ready p args ∧ p.ast.TrapsOn args := by
  constructor
  · intro h
    have hruns := main_runs process
    rw [h] at hruns
    cases hruns with
    | overrun hargc hp => exact .inl ⟨rfl, hargc, hp⟩
    | trap hready ht => exact .inr ⟨rfl, _, _, hready, ht⟩
  · rintro (⟨rfl, hargc, hp⟩ | ⟨rfl, p, args, hready, ht⟩)
    · rw [main, if_neg (by omega), hp]
      rfl
    · exact hready.main_trap ht

end

end ParserExample
