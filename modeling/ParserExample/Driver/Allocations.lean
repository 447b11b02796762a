import ParserExample.Driver.Memory
import ParserExample.Parser.Allocations
import ParserExample.Resources

/-!
# How much memory is enough

A run of the program needs a logarithmic number of calls of `realloc`. If these, and
`calloc` and `malloc`, succeed, it does what it does with all the memory.
-/

namespace ParserExample

open Library

-- ---------------------------------------------------------------------------
-- The compiler
-- ---------------------------------------------------------------------------

/-- How often the compiler enlarges its buffer at most, for `n` bytes of code. -/
def compilerReallocs (n : Nat) : Nat := doublings bufsiz (12 * n + 20)

theorem not_grants_of_writeAll {words : List Bytes} {heap₀ heap heap' : Heap}
    {buffer buffer' : Buffer} {limit count : Nat}
    (h : writeAll words heap buffer = .ok (false, buffer', heap'))
    (hg : Grown bufsiz limit buffer.capacity count) (hs : Spent heap₀ heap count)
    (hle : buffer.used + words.flatten.length ≤ limit)
    (hlimit : limit ≤ sizeMax / 2 / astNodeSize) : ¬ heap₀.Grants (doublings bufsiz limit) := by
  induction words generalizing heap buffer count with
  | nil => cases h
  | cons word words ih =>
    have hpos : 0 < bufsiz := by decide
    rw [List.flatten_cons, List.length_append] at hle
    obtain ⟨⟨ok, buffer₁, heap₁⟩, ha, h⟩ := bind_ok.mp h
    have hext := bufferAppend_enlarges ha
    cases ok with
    | true =>
      obtain ⟨more, hg₁, hs₁⟩ := hext.grown hpos hg (by omega)
      refine ih h hg₁ (hs.trans hs₁) ?_
      rw [used_bufferAppend ha]
      omega
    | false =>
      obtain ⟨-, hlong | ⟨hlt, -, hr⟩⟩ := hext.failed hpos hg (by omega)
      · omega
      · exact hs.not_grants hr hlt

theorem not_writeFails {e : Expr} {heap : Heap} {n : Nat} (hlen : (program e).length ≤ 12 * n + 20)
    (hn : n < 2 ^ 53) (hg : heap.Grants (compilerReallocs n)) :
    ¬ WriteFails (programWrites e) heap Buffer.init := by
  rw [writeFails_iff]
  rintro ⟨buffer, heap', hw⟩
  refine not_grants_of_writeAll hw .zero (.refl heap) ?_ ?_ hg
  · rw [flatten_programWrites, List.length_append, length_encodeLE]
    rw [program, List.length_append, length_encodeLE] at hlen
    show 0 + _ ≤ _
    omega
  · unfold sizeMax astNodeSize
    omega

-- ---------------------------------------------------------------------------
-- `main`
-- ---------------------------------------------------------------------------

/-- There is memory for what the code can ask for. -/
structure Process.Granted (process : Process) : Prop where
  parser : process.parserHeap.Grants (parserReallocs process.code.length)
  calloc : process.calloc = true
  compiler : process.compilerHeap.Grants (compilerReallocs process.code.length)
  malloc : process.malloc = true

section
variable {process : Process} {p : Parser} {args : List Long}

theorem Process.Granted.parseString (h : process.Granted) (hlen : process.code.length < 2 ^ 53)
    (hargc : 2 ≤ process.argc) :
    ParserExample.parseString Heap.unlimited process.code process.names =
      (ParserExample.parseString process.parserHeap process.code process.names).map
        Parser.unlimited := by
  rw [process.parseString_code hargc, process.parseString_code hargc]
  rcases parseSlice_unlimited process.parserHeap process.code process.names with
    ⟨p, hp, -, he⟩ | hsame
  · refine absurd h.parser ((parseSlice_economized hp).refused he ?_)
    unfold sizeMax astNodeSize
    omega
  · exact hsame

theorem Process.Granted.report (h : process.Granted) (hlen : process.code.length < 2 ^ 53)
    (hready : process.Ready p args) :
    ParserExample.report process.unlimited p.ast args = ParserExample.report process p.ast args := by
  have hparses := hready.parses
  rw [process.parseString_code hready.argc] at hparses
  obtain ⟨-, t, d, hstores, hwords, -, herase⟩ := parseSlice_stores hparses hready.done
  rcases report_both hstores hready.length_args with
    hsame | ⟨ast', t', _, _, exit, exit', ho, hs', hrep, hrep', hr, hr'⟩
  · exact hsame
  · obtain ⟨t'', hu, hsmall⟩ := optimize_smaller hstores.holds hstores.nodup hstores.root ho
    obtain rfl : t'' = t' := hu.holds.unique hs'.holds ((hu.root hstores.root).trans hs'.root.symm)
    rw [herase] at hsmall
    have hwrites := not_writeFails (length_program_le_of_smaller hsmall hwords) hlen h.compiler
    rw [hr, hr', hrep.eq_of_memory hrep' hwrites h.malloc]

/-- A run whose calls for memory succeed, as many as its code can make, does what it
does with all the memory. -/
theorem main_granted (h : process.Granted) (hlen : process.code.length < 2 ^ 53) :
    main process.unlimited = main process := by
  rcases Nat.lt_or_ge process.argc 2 with hargc | hargc
  · rw [main, if_pos (show process.unlimited.argc < 2 from hargc), main, if_pos hargc]
    rfl
  have hparse := h.parseString hlen hargc
  have hargc' : ¬ process.argc < 2 := Nat.not_lt.mpr hargc
  cases hp : ParserExample.parseString process.parserHeap process.code process.names with
  | error f =>
    rw [hp] at hparse
    rw [main, if_neg (show ¬ process.unlimited.argc < 2 from hargc'), main, if_neg hargc', hp]
    exact congrArg (· >>= _) hparse
  | ok p =>
    rw [hp] at hparse
    by_cases hready : p.error = .none ∧ ∃ args, readArgs process.getenv process.names = .ok args
    · obtain ⟨he, args, hr⟩ := hready
      have hready : process.Ready p args := ⟨hargc, hp, he, h.calloc, hr⟩
      have hready' : process.unlimited.Ready p.unlimited args := ⟨hargc, hparse, he, rfl, hr⟩
      have hreport := h.report hlen hready
      rw [hready.main_eq, hready'.main_eq]
      exact hreport
    · -- the rest of the run does not ask for memory
      have hparse' : ParserExample.parseString process.unlimited.parserHeap process.unlimited.code
          process.unlimited.names = .ok p.unlimited := hparse
      rw [main, if_neg (show ¬ process.unlimited.argc < 2 from hargc'), main, if_neg hargc', hp,
        hparse']
      simp only [ok_bind, h.calloc]
      by_cases he : p.error = .none
      · cases hr : readArgs process.getenv process.names with
        | ok args => exact absurd ⟨he, args, hr⟩ hready
        | error message =>
          have hr' : readArgs process.unlimited.getenv process.unlimited.names = .error message :=
            hr
          rw [if_neg (not_not_intro he), if_neg (not_not_intro (show p.unlimited.error = .none from he)),
            hr']
          rfl
      · rw [if_pos he, if_pos (show p.unlimited.error ≠ .none from he)]
        rfl

/-- The third call of the parser and the second one of the compiler would fail. -/
theorem main_granted_sum :
    main sumProcess = main { sumProcess with
      parserHeap := ⟨[true, true, false]⟩
      compilerHeap := ⟨[true, false]⟩ } := by
  have hparser : Heap.Grants ⟨[true, true, false]⟩ (parserReallocs 11) := by
    show ∀ i < _, _
    decide +kernel
  have hcompiler : Heap.Grants ⟨[true, false]⟩ (compilerReallocs 11) := by
    show ∀ i < _, _
    decide +kernel
  exact @main_granted { sumProcess with
      parserHeap := ⟨[true, true, false]⟩
      compilerHeap := ⟨[true, false]⟩ } ⟨hparser, rfl, hcompiler, rfl⟩ (by decide)

end

end ParserExample
