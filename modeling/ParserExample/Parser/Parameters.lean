import ParserExample.Parser.Exchange
import ParserExample.Parser.Faults

/-!
# More parameters

The parser looks at its parameters only to find the index of a name. With more of
them behind the others it takes the same steps, down to its memory and its faults,
unless it reports a name that is not among them.
-/

namespace ParserExample

open Library

def Parser.extend (more : List Bytes) (s : Parser) : Parser := { s with args := s.args ++ more }

def Undefined (e : Halt) (s : Parser) : Prop :=
  e = .returnFalse ∧ s.state = .error ∧ s.error = .undefinedVariable

def extended (more : List Bytes) : Exchange Halt Parser := replacing (· ++ more) id Undefined

/-- A function of the parser does the same with more parameters, or does not find a
name. -/
abbrev Extensible {α : Type} (more : List Bytes) (x : Proc Parser α) : Prop :=
  (extended more).Allows x x

section
variable {more : List Bytes}

theorem extended_keepsMemory : KeepsMemory (extended more) :=
  ⟨fun _ => rfl, fun _ => rfl, fun _ => rfl, fun _ => rfl, fun _ _ _ => rfl, fun _ _ _ => rfl,
    fun _ _ _ => trivial, fun _ _ _ => trivial, replacing_fail⟩

theorem parserGetArgIndex_append {args : List Bytes} {name : Bytes}
    (h : parserGetArgIndex args name ≠ args.length) :
    parserGetArgIndex (args ++ more) name = parserGetArgIndex args name ∧
      parserGetArgIndex args name < (args ++ more).length := by
  have hlt : args.findIdx (· == name) < args.length :=
    lt_of_le_of_ne List.findIdx_le_length h
  refine ⟨?_, ?_⟩
  · rw [parserGetArgIndex, List.findIdx_append, if_pos hlt]
    rfl
  · rw [List.length_append]
    exact Nat.lt_add_right _ hlt

theorem findVariable_extensible (token : Token) : Extensible more (findVariable token) := by
  intro s
  unfold Exchange.AllowsAt findVariable
  simp only [proc_get_bind]
  by_cases hname : parserGetArgIndex s.args s.tokenName = s.args.length
  · rw [if_pos hname]
    exact ⟨trivial, fun hl => absurd ⟨rfl, rfl, rfl⟩ hl⟩
  · obtain ⟨hsame, hlt⟩ := @parserGetArgIndex_append more _ _ hname
    have hfound : parserGetArgIndex ((extended more).swap s).args
        ((extended more).swap s).tokenName = parserGetArgIndex s.args s.tokenName := hsame
    have hne : parserGetArgIndex s.args s.tokenName ≠ ((extended more).swap s).args.length := hlt.ne
    rw [if_neg hname, hfound, if_neg hne]
    exact ⟨trivial, fun _ => rfl⟩

theorem parseProgram_extensible : Extensible more parseProgram :=
  replacing_parseProgram (fun _ => parserBufferAppend_allows extended_keepsMemory _)
    (parserAppendNode_allows extended_keepsMemory) findVariable_extensible

end

theorem NamesValid.initial {names more : List Bytes} (h : NamesValid (names ++ more)) :
    NamesValid names :=
  ⟨fun name hname => h.1 name (List.mem_append_left _ hname), (List.nodup_append.mp h.2).1⟩

/-- More parameters behind the others make no difference, but that more names are
found: with any outcomes of the allocations, the parser returns the same, or crashes
in the same way, unless it has reported the first name that is not among them. -/
theorem parseSlice_moreNames {names more : List Bytes} (hn : NamesValid (names ++ more))
    (heap : Heap) (code : Bytes) :
    (∃ p front l, parseSlice heap code names = .ok p ∧ p.error = .undefinedVariable ∧
      p.errorInfo = .code l.startIndex l.endIndex ∧ front ++ [l] <+: lexemes code ∧
      (∃ name, l.word = .ident name ∧ name ∉ names) ∧
      ∀ a ∈ front, ∀ name, a.word = .ident name → name ∈ names) ∨
    parseSlice heap code (names ++ more) =
      (parseSlice heap code names).map (Parser.extend more) := by
  have hrun := @parseProgram_extensible more (Parser.init heap code names)
  have hinit : (extended more).swap (Parser.init heap code names) =
      Parser.init heap code (names ++ more) := rfl
  rw [parseSlice_of_names_valid hn, parseSlice_of_names_valid hn.initial]
  cases hp : parseProgram (Parser.init heap code names) with
  | ok u p =>
    have hsame := (hrun.of_ok hp).2 trivial
    rw [hinit] at hsame
    rw [hsame]
    exact .inr rfl
  | error e p =>
    by_cases hl : Undefined e p
    · obtain ⟨rfl, hs, he⟩ := hl
      have hm : p.error ≠ .outOfMemory := by
        rw [he]
        exact nofun
      obtain ⟨front, l, hfault⟩ := parseProgram_firstFault hp hm
      obtain ⟨back, hback⟩ := hfault.split
      obtain ⟨hinfo, hname, hfront⟩ := hfault.undefinedVariable he
      refine .inl ⟨p, front, l, rfl, he, hinfo, ⟨back, ?_⟩, hname, hfront⟩
      rw [hback, List.append_assoc]
      rfl
    · have hsame := (hrun.of_error hp).2 hl trivial
      rw [hinit] at hsame
      rw [hsame]
      cases e <;> exact .inr rfl

/-- The parameter `b` is missing. -/
theorem parseSlice_moreNames_quotient :
    ∃ p front l, parseSlice Heap.unlimited (ascii "a / -(2 - -b)") [ascii "a"] = .ok p ∧
      p.error = .undefinedVariable ∧ p.errorInfo = .code l.startIndex l.endIndex ∧
      front ++ [l] <+: lexemes (ascii "a / -(2 - -b)") ∧
      (∃ name, l.word = .ident name ∧ name ∉ [ascii "a"]) ∧
      ∀ a ∈ front, ∀ name, a.word = .ident name → name ∈ [ascii "a"] := by
  have hvalid : NamesValid ([ascii "a"] ++ [ascii "b"]) :=
    argsError_eq_none_iff.mp (by decide +kernel)
  have hmore : (parseSlice Heap.unlimited (ascii "a / -(2 - -b)")
      ([ascii "a"] ++ [ascii "b"])).map Parser.state ≠
    ((parseSlice Heap.unlimited (ascii "a / -(2 - -b)") [ascii "a"]).map
      (Parser.extend [ascii "b"])).map Parser.state := by decide +kernel
  rcases parseSlice_moreNames hvalid Heap.unlimited (ascii "a / -(2 - -b)") with hmissing | hsame
  · exact hmissing
  · exact absurd (congrArg (Except.map Parser.state) hsame) hmore

end ParserExample
