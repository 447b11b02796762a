import ParserExample.Parser.Allocations
import ParserExample.Parser.Invariant

/-!
# The parser terminates

Every turn of a loop and every way round the recursion consumes a token, and
every token but the last takes a byte. So the parser returns, unless an
identifier overruns the buffer of the lexer.
-/

namespace ParserExample

open Library

-- ---------------------------------------------------------------------------
-- Progress
-- ---------------------------------------------------------------------------

/-- Between a point of the run and a state a token of at least one byte is
consumed, by a call from that point. -/
def TakesToken (x : Call × Parser) (s' : Parser) : Prop :=
  ∃ s, Relation.TransGen Calls x (.consumeToken, s) ∧ s.token.type ≠ .eof ∧
    x.2.here ≤ s.token.startIndex ∧ s.token.startIndex < s.token.endIndex ∧
    s.token.endIndex ≤ s'.here

def Call.nested : Call → Bool
  | .program | .expr _ => false
  | _ => true

/-- The loops and the recursion of a run make progress, and inside of them the
end of the code is not consumed. -/
structure Progress (heap : Heap) (code : Bytes) (names : List Bytes) : Prop where
  loops : ∀ {level fuel count node node' s s'},
    Called heap code names (.loop level fuel (count + 1) node, s) →
    Calls (.loop level fuel (count + 1) node, s) (.loop level fuel count node', s') →
      TakesToken (.loop level fuel (count + 1) node, s) s'
  signs : ∀ {count inverse inverse' s s'}, Called heap code names (.signs (count + 1) inverse, s) →
    Calls (.signs (count + 1) inverse, s) (.signs count inverse', s') →
      TakesToken (.signs (count + 1) inverse, s) s'
  recursion : ∀ {fuel fuel' s s'}, Called heap code names (.addSub fuel, s) →
    Relation.TransGen Calls (.addSub fuel, s) (.addSub fuel', s') →
      TakesToken (.addSub fuel, s) s'
  eof : ∀ {c s s'}, Called heap code names (c, s) → Calls (c, s) (.consumeToken, s') →
    c ≠ .program → s'.token.type ≠ .eof

section
variable {heap : Heap} {names : List Bytes} {code : Bytes} {s s₁ s₂ s' : Parser} {st st' : Stage}
  {x y : Call × Parser} {c : Call} {fuel : Nat}

theorem takesToken_of_consumed (hcalls : Relation.TransGen Calls x (.consumeToken, s₁))
    (hl : Live names code s₁ st) (hr : s₁.state = .tokenReady) (heof : s₁.token.type ≠ .eof)
    (hc : Consumed names code st' s₁ s₂) (hb : x.2.Before s₁) (hb' : s₂.Before s') :
    TakesToken x s' := by
  have htoken := hl.token hr
  have hhere : s₂.here = s₁.index := by
    rw [hc.eq]
    exact Parser.here_pending rfl
  refine ⟨s₁, hcalls, heof, ?_, htoken.nonempty heof, ?_⟩
  · rw [← Parser.here_ready hr]
    exact hb.here
  · rw [← htoken.index, ← hhere]
    exact hb'.here

theorem nested_of_calls {c c' : Call} (h : Calls (c, s) (c', s')) (hc : c.nested = true) :
    c'.nested = true := by
  cases h with
  | program_expr | program_peek | program_consume | expr_addSub | expr_append => cases hc
  | @loop_operand level => cases level <;> rfl
  | _ => rfl

theorem nested_of_reaches (h : Relation.ReflTransGen Calls x y) (hx : x.1.nested = true) :
    y.1.nested = true := by
  induction h with
  | refl => exact hx
  | tail _ hcalls ih => exact nested_of_calls hcalls ih

-- ---------------------------------------------------------------------------
-- Turns
-- ---------------------------------------------------------------------------

theorem loop_takesToken {level : Level} {count : Nat} {node node' : AstNode}
    (hpre : (Call.loop level fuel (count + 1) node).Pre names code s)
    (h : Calls (.loop level fuel (count + 1) node, s) (.loop level fuel count node', s')) :
    TakesToken (.loop level fuel (count + 1) node, s) s' := by
  obtain ⟨⟨opens, hl⟩, -, hn, hf, -⟩ := hpre
  generalize hy : (Call.loop level fuel count node', s') = y at h
  cases h with
  | loop_operand => cases level <;> cases hy
  | loop_next hop ho hdiv ha =>
    cases hy
    obtain ⟨hl₂, hr, heof, hb, -⟩ := hop.appended hl hn ho.1
    obtain ⟨hc, hread, -⟩ := ho.read hop hl hn hf
    obtain ⟨ast, heap, rfl, -⟩ :=
      (parserAppendNode_meets hread.live hread.range (Nat.zero_le _)).of_ok ha
    exact takesToken_of_consumed (.single (.loop_consume hop ho.1)) hl₂ hr heof hc hb
      (hread.before.withAst ast heap)
  | _ => cases hy

theorem signs_takesToken {count : Nat} {inverse inverse' : Bool}
    (hpre : (Call.signs (count + 1) inverse).Pre names code s)
    (h : Calls (.signs (count + 1) inverse, s) (.signs count inverse', s')) :
    TakesToken (.signs (count + 1) inverse, s) s' := by
  obtain ⟨opens, hl, -⟩ := hpre
  generalize hy : (Call.signs count inverse', s') = y at h
  cases h with
  | signs_next hp hsign hc =>
    obtain ⟨hr, heof, hb, hconsumed⟩ := hl.sign hp hsign hc
    cases hy
    exact takesToken_of_consumed (.single (.signs_consume hp hsign)) (hl.peeked hp).live hr heof
      hconsumed hb (.refl _)
  | _ => cases hy

/-- On the way round the recursion a parenthesis is consumed. -/
theorem addSub_takesToken {fuel' : Nat} (hpre : (Call.addSub fuel).Pre names code s)
    (h : Relation.TransGen Calls (.addSub fuel, s) (.addSub fuel', s')) :
    TakesToken (.addSub fuel, s) s' := by
  obtain ⟨⟨c, t⟩, hreaches, hlast⟩ := Relation.TransGen.tail'_iff.mp h
  have hnested := nested_of_reaches hreaches rfl
  obtain ⟨hpre', hb⟩ := pre_of_reaches hreaches hpre
  generalize hy : (Call.addSub fuel', s') = y at hlast
  cases hlast with
  | expr_addSub => cases hnested
  | @loop_operand level => cases level <;> cases hy
  | paren_addSub hp hopen hc =>
    cases hy
    obtain ⟨⟨opens, hl, -⟩, -⟩ := hpre'
    obtain ⟨hr, heof, hb', hconsumed⟩ := hl.paren hp hopen hc
    exact takesToken_of_consumed (.tail' hreaches (.paren_consume hp hopen)) (hl.peeked hp).live hr
      heof hconsumed (hb.trans hb') (.refl _)
  | _ => cases hy

-- ---------------------------------------------------------------------------
-- Termination
-- ---------------------------------------------------------------------------

theorem consumed_ne_eof (hpre : c.Pre names code s) (h : Calls (c, s) (.consumeToken, s'))
    (hc : c ≠ .program) : s'.token.type ≠ .eof := by
  generalize hy : (Call.consumeToken, s') = y at h
  cases h with
  | program_consume => exact absurd rfl hc
  | loop_consume hop ha =>
    cases hy
    obtain ⟨⟨opens, hl⟩, -, hn, -⟩ := hpre
    exact (hop.appended hl hn ha).2.2.1
  | @loop_operand level => cases level <;> cases hy
  | signs_consume _ htype | atom_consume _ htype =>
    cases hy
    rcases htype with h | h <;> rw [h] <;> decide
  | paren_consume _ htype | paren_close _ _ _ _ htype =>
    cases hy
    rw [htype]
    decide
  | _ => cases hy

theorem progress (heap : Heap) (code : Bytes) (names : List Bytes) : Progress heap code names where
  loops h hcalls := loop_takesToken h.pre hcalls
  signs h hcalls := signs_takesToken h.pre hcalls
  recursion h hcalls := addSub_takesToken h.pre hcalls
  eof h hcalls hc := consumed_ne_eof h.pre hcalls hc

/-- The parser returns, and makes progress until it does. -/
def Terminates (heap : Heap) (code : Bytes) (names : List Bytes) : Prop :=
  (∃ p, parseSlice heap code names = .ok p) ∧ Progress heap code names

theorem parseSlice_ok_of_fit (heap : Heap) (h : IdentifiersFit names code) :
    ∃ p, parseSlice heap code names = .ok p := by
  by_cases hn : NamesValid names
  · rcases parseSlice_cases heap code hn with ⟨p, -, hp, -⟩ | ⟨p, hp, -⟩ | ⟨-, hr, l, name, hl, hw⟩
    · exact ⟨p, hp⟩
    · exact ⟨p, hp⟩
    · exact absurd ((readProgram_sound (bounded_legible code)).2.1 hr) (h l name hl hw hn)
  · obtain ⟨p, hp, -⟩ := @parseSlice_of_names_invalid heap code names hn
    exact ⟨p, hp⟩

theorem parseSlice_ok_of_refused (h : ¬ AllocationsSucceed Heap.unlimited code names) (heap : Heap) :
    ∃ p, parseSlice heap code names = .ok p := by
  unfold AllocationsSucceed at h
  push Not at h
  obtain ⟨p, hp, -⟩ := h
  rcases parseSlice_sheltered heap code names with ⟨q, hq, -⟩ | hsame
  · exact ⟨q, hq⟩
  · rw [hp] at hsame
    cases hq : parseSlice heap code names with
    | ok q => exact ⟨q, rfl⟩
    | error f =>
      rw [hq] at hsame
      cases hsame

/-- The parser terminates, however much memory it gets, if and only if the names
of the program fit its buffer. A longer code may also be refused, even on the heap
that refuses nothing, before the parser gets to a name that does not fit. -/
theorem terminates_iff (code : Bytes) (names : List Bytes) :
    (code.length < sizeMax / 2 / astNodeSize →
      ((∀ heap, Terminates heap code names) ↔ IdentifiersFit names code)) ∧
    ((∀ heap, Terminates heap code names) ↔
      (AllocationsSucceed Heap.unlimited code names → IdentifiersFit names code)) := by
  have hiff : (∀ heap, Terminates heap code names) ↔
      (AllocationsSucceed Heap.unlimited code names → IdentifiersFit names code) := by
    constructor
    · intro h hmem
      by_contra hfit
      obtain ⟨⟨p, hp⟩, -⟩ := h Heap.unlimited
      rcases @parseSlice_overrun Heap.unlimited _ _ hfit with hr | ⟨p', hp', he⟩
      · rw [hp] at hr
        cases hr
      · exact hmem p' hp' he
    · intro h heap
      refine ⟨?_, progress heap code names⟩
      by_cases hmem : AllocationsSucceed Heap.unlimited code names
      · exact parseSlice_ok_of_fit heap (h hmem)
      · exact parseSlice_ok_of_refused hmem heap
  refine ⟨fun hlen => ?_, hiff⟩
  have hmem := allocationsSucceed_of_grants names (grants_unlimited _) hlen
  exact hiff.trans ⟨fun h => h hmem, fun h _ => h⟩

/-- A name of 10000 bytes. -/
theorem not_terminates : ¬ ∀ heap code names, Terminates heap code names := by
  intro h
  obtain ⟨⟨p, hp⟩, -⟩ := h Heap.unlimited (byte 'a' :: List.replicate 9999 (byte 'a'))
    [byte 'a' :: List.replicate 9999 (byte 'a')]
  rw [parseSlice_longName (by decide)] at hp
  cases hp

end

end ParserExample
