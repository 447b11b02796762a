import ParserExample.Driver.Status

/-!
# Runs that are refused memory

A run that is refused memory does what it does with all the memory it asks for,
or says something on `stderr`.
-/

namespace ParserExample

open Library

def Process.unlimited (process : Process) : Process :=
  { process with
    parserHeap := Heap.unlimited
    calloc := true
    compilerHeap := Heap.unlimited
    malloc := true }

def Speaks (run : Except Fault Exit) : Prop := ∃ exit, run = .ok exit ∧ exit.stderr ≠ []

@[simp] theorem ascii_eq_nil {s : String} : ascii s = [] ↔ s = "" := by
  simp [ascii]

theorem Process.perror_ne_nil (process : Process) (message : Bytes) :
    process.perror message ≠ [] := by
  simp [perror]

theorem writeFails_of_unlimited {words : List Bytes} {heap : Heap} {buffer : Buffer}
    (h : WriteFails words Heap.unlimited buffer) : WriteFails words heap buffer := by
  rcases writeAll_unlimited words heap buffer with hfails | hsame
  · exact hfails
  · obtain ⟨bytes, heap', hu⟩ := writeFails_iff.mp h
    rw [← hsame] at hu
    cases hw : writeAll words heap buffer with
    | error f => simp [hw, Except.map] at hu
    | ok r =>
      obtain ⟨ok, bytes', heap''⟩ := r
      obtain ⟨rfl, -⟩ : ok = false ∧ _ := by simpa [hw, Except.map] using hu
      exact writeFails_iff.mpr ⟨bytes', heap'', hw⟩

theorem ne_nil_of_parserPrintError {p : Parser} {message : Bytes} (he : p.error ≠ .none)
    (h : parserPrintError p = .ok message) : message ≠ [] := by
  unfold parserPrintError at h
  split at h
  · exact absurd ‹_› he
  · obtain ⟨name, -, h⟩ := bind_ok.mp h
    obtain rfl := Except.ok.inj h
    simp
  · obtain ⟨name, -, h⟩ := bind_ok.mp h
    obtain rfl := Except.ok.inj h
    simp
  · obtain ⟨⟨i, j⟩, -, h⟩ := bind_ok.mp h
    obtain ⟨lines, -, h⟩ := bind_ok.mp h
    obtain rfl := Except.ok.inj h
    simp [errorHeader]

section
variable {process : Process} {ast : Ast} {t : SlotTree} {args : List Long} {e e' : Expr}
  {value value' : Long} {exit exit' : Exit}

theorem Reported.eq_of_memory (h : Reported process e e' value value' exit)
    (h' : Reported process.unlimited e e' value value' exit')
    (hw : ¬ WriteFails (programWrites e') process.compilerHeap Buffer.init)
    (hm : process.malloc = true) : exit = exit' := by
  cases h with
  | noCode hf => exact absurd hf hw
  | @ran result _ hresult =>
    rw [if_pos hm] at hresult
    cases h' with
    | noCode hw' => exact absurd (writeFails_of_unlimited hw') hw
    | @ran result' hw' hresult' =>
      obtain rfl : result' = result := hresult'.trans hresult.symm
      have hsilent : process.stackError = process.unlimited.stackError := if_pos hm
      rw [hsilent]
      rfl

theorem Reported.memory_of_silent (h : Reported process e e' value value' exit)
    (hs : exit.stderr = []) :
    ¬ WriteFails (programWrites e') process.compilerHeap Buffer.init ∧ process.malloc = true := by
  cases h with
  | noCode hw => simp [Exit.eprint] at hs
  | ran hw hresult =>
    refine ⟨hw, ?_⟩
    by_contra hm
    simp [Exit.eprint, Process.stackError, process.perror_ne_nil, hm] at hs

theorem report_both (h : ast.Stores process.names.length t)
    (hargs : args.length = process.names.length) :
    report process.unlimited ast args = report process ast args ∨
    ∃ ast' t' value value' exit exit', optimize ast = .ok ast' ∧
      ast'.Stores process.names.length t' ∧
      Reported process t.erase t'.erase value value' exit ∧
      Reported process.unlimited t.erase t'.erase value value' exit' ∧
      report process ast args = .ok exit ∧ report process.unlimited ast args = .ok exit' := by
  have h₂ : ast.Stores process.unlimited.names.length t := h
  rcases report_cases h hargs with
    ⟨ht, hr⟩ | ⟨ast', t', value, value', exit, ho, hs', hv, hv', hrep, hr⟩
  · rcases report_cases h₂ hargs with ⟨-, hr₂⟩ | ⟨_, _, _, _, _, ho₂, -, hv₂, hv₂', -⟩
    · exact .inl (hr₂.trans hr.symm)
    · exact (ht.elim hv₂ ho₂ hv₂').elim
  · rcases report_cases h₂ hargs with
      ⟨ht₂, -⟩ | ⟨ast₂, t₂, value₂, value₂', exit₂, ho₂, hs₂, hv₂, hv₂', hrep₂, hr₂⟩
    · exact (ht₂.elim hv ho hv').elim
    · obtain rfl := Except.ok.inj (ho.symm.trans ho₂)
      obtain rfl := Except.ok.inj (hv.symm.trans hv₂)
      obtain rfl := Except.ok.inj (hv'.symm.trans hv₂')
      obtain rfl := hs'.unique hs₂
      exact .inr ⟨_, _, _, _, _, _, ho, hs', hrep, hrep₂, hr, hr₂⟩

theorem report_unlimited (h : ast.Stores process.names.length t)
    (hargs : args.length = process.names.length) :
    Speaks (report process ast args) ∨
      report process.unlimited ast args = report process ast args := by
  rcases report_both h hargs with hsame | ⟨_, _, _, _, exit, exit', -, -, hrep, hrep', hr, hr'⟩
  · exact .inr hsame
  · by_cases hsilent : exit.stderr = []
    · obtain ⟨hw, hm⟩ := hrep.memory_of_silent hsilent
      rw [hr, hr', hrep.eq_of_memory hrep' hw hm]
      exact .inr rfl
    · exact .inl ⟨exit, hr, hsilent⟩

theorem Process.Ready.unlimited {p : Parser} (h : process.Ready p args) :
    process.unlimited.Ready p.unlimited args := by
  refine ⟨h.argc, ?_, h.accepted, rfl, h.args⟩
  have hparses := h.parses
  rw [parseString] at hparses ⊢
  rcases parseSlice_unlimited process.parserHeap (process.code.takeWhile (· ≠ 0)) process.names with
    ⟨q, hq, -, he⟩ | hsame
  · obtain rfl := Except.ok.inj (hparses.symm.trans hq)
    rw [h.accepted] at he
    cases he
  · rw [hparses] at hsame
    exact hsame

theorem Process.Ready.run_unlimited {p : Parser} (h : process.Ready p args) :
    Speaks (main process) ∨ main process.unlimited = main process := by
  obtain ⟨t, hst⟩ := h.stores
  rw [h.main_eq, h.unlimited.main_eq]
  exact report_unlimited hst h.length_args

/-- Memory that is refused makes no difference to a run that is silent on `stderr`:
it prints the same, with the same status, or crashes in the same way. -/
theorem main_unlimited (process : Process) :
    Speaks (main process) ∨ main process.unlimited = main process := by
  have hruns := main_runs process
  generalize hrun : main process = run at hruns
  cases hruns with
  | usage hargc =>
    right
    rw [main, if_pos (show process.unlimited.argc < 2 from hargc)]
    rfl
  | overrun hargc hp =>
    right
    have hparses : parseString process.unlimited.parserHeap process.unlimited.code
        process.unlimited.names = .error .overrun := by
      rw [parseString] at hp
      rcases parseSlice_unlimited process.parserHeap (process.code.takeWhile (· ≠ 0))
        process.names with ⟨q, hq, -⟩ | hsame
      · rw [hp] at hq
        cases hq
      · rw [hp] at hsame
        exact hsame
    rw [main, if_neg (show ¬ process.unlimited.argc < 2 from Nat.not_lt.mpr hargc), hparses]
    rfl
  | rejected hargc hp he hm => exact .inl ⟨_, rfl, ne_nil_of_parserPrintError he hm⟩
  | noMemory => exact .inl ⟨_, rfl, process.perror_ne_nil _⟩
  | noArgs hargc hp he hc hr =>
    rcases readArgs_cases process.getenv process.names with
      ⟨args, hargs, -⟩ | ⟨front, name, back, message, -, -, hc, herr⟩
    · rw [hr] at hargs
      cases hargs
    · obtain rfl := Except.error.inj (hr.symm.trans herr)
      exact .inl ⟨_, rfl, hc.ne_nil⟩
  | trap h ht => exact hrun ▸ h.run_unlimited
  | report h => exact hrun ▸ h.run_unlimited

end

end ParserExample
