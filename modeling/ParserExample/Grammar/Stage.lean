import ParserExample.Grammar

/-!
# Prefixes of sentences

The grammar as an automaton with a stack: a `Stage` says whether an operand or
an operator comes next, and which parentheses are open. The words that the
automaton reads are exactly the prefixes of sentences
(`run_isSome_iff`), and it ends outside all parentheses, behind an operand,
exactly on sentences (`run_sentence_iff`).
-/

namespace ParserExample

open Library

def SentencePrefix (front : List Word) : Prop :=
  ∃ (e : Derivation .addSub) (back : List Word), e.yield = front ++ back

def Sentence (ws : List Word) : Prop := ∃ e : Derivation .addSub, e.yield = ws

/-- The parentheses that are still open behind some lexemes: where they start,
the innermost first. -/
def openParens (ls : List Lexeme) : List Nat :=
  ls.foldl (fun opens l =>
    match l.word with
    | .parenOpen => l.startIndex :: opens
    | .parenClose => opens.tail
    | _ => opens) []

-- ---------------------------------------------------------------------------
-- Stages
-- ---------------------------------------------------------------------------

/-- `operand`: an operand comes next, and otherwise an operator. -/
structure Stage where
  operand : Bool
  opens : List Nat
  deriving DecidableEq, Repr

namespace Stage

def start : Stage := ⟨true, []⟩

/-- The stage behind one more lexeme, if it is one that can stand here. -/
def step (st : Stage) (l : Lexeme) : Option Stage :=
  match st.operand, l.word with
  | true, .plus | true, .minus => some st
  | true, .int _ | true, .ident _ => some ⟨false, st.opens⟩
  | true, .parenOpen => some ⟨true, l.startIndex :: st.opens⟩
  | false, .plus | false, .minus | false, .mul | false, .div => some ⟨true, st.opens⟩
  | false, .parenClose =>
    match st.opens with
    | [] => none
    | _ :: opens => some ⟨false, opens⟩
  | _, _ => none

def run (st : Stage) (ls : List Lexeme) : Option Stage := ls.foldlM step st

@[simp] theorem run_nil (st : Stage) : st.run [] = some st := rfl

@[simp] theorem run_cons (st : Stage) (l : Lexeme) (ls : List Lexeme) :
    st.run (l :: ls) = (st.step l).bind fun st' => st'.run ls := rfl

theorem run_append (st : Stage) (ls ls' : List Lexeme) :
    st.run (ls ++ ls') = (st.run ls).bind fun st' => st'.run ls' := by
  simp only [run, List.foldlM_append]
  rfl

theorem run_concat (st : Stage) (ls : List Lexeme) (l : Lexeme) :
    st.run (ls ++ [l]) = (st.run ls).bind fun st' => st'.step l := by
  rw [run_append]
  cases st.run ls <;> simp

section
variable {st st' : Stage} {l : Lexeme} {ls : List Lexeme} {opens : List Nat}

theorem opens_run (h : start.run ls = some st) : st.opens = openParens ls := by
  induction ls using List.reverseRecOn generalizing st with
  | nil =>
    obtain rfl : start = st := by simpa using h
    rfl
  | append_singleton ls l ih =>
    rw [run_concat, Option.bind_eq_some_iff] at h
    obtain ⟨⟨operand, opens⟩, hls, hl⟩ := h
    have hopens : opens = openParens ls := ih hls
    rw [openParens, List.foldl_concat, ← openParens, ← hopens]
    cases operand <;> cases hw : l.word <;> simp only [step, hw, reduceCtorEq] at hl <;>
      first
      | (obtain rfl := Option.some.inj hl; rfl)
      | (cases opens <;> simp at hl; obtain rfl := hl; rfl)

-- ---------------------------------------------------------------------------
-- Sentences are read
-- ---------------------------------------------------------------------------

theorem run_signs {signs : List AddSubOp} (h : ls.map Lexeme.word = signs.map AddSubOp.word) :
    run ⟨true, opens⟩ ls = some ⟨true, opens⟩ := by
  induction ls generalizing signs with
  | nil => rfl
  | cons l ls ih =>
    cases signs with
    | nil => simp at h
    | cons sign signs =>
      simp only [List.map_cons, List.cons.injEq] at h
      have hl : step ⟨true, opens⟩ l = some ⟨true, opens⟩ := by
        cases sign <;> simp [step, h.1]
      rw [run_cons, hl]
      exact ih h.2

theorem run_yield {nt : NonTerminal} {e : Derivation nt} (h : ls.map Lexeme.word = e.yield) :
    run ⟨true, opens⟩ ls = some ⟨false, opens⟩ := by
  induction e generalizing ls opens with
  | ofMulDiv e ih | ofSigned e ih => exact ih h
  | addSub op left right ihl ihr | mulDiv op left right ihl ihr =>
    obtain ⟨lsl, lsr, rfl, hl, hr⟩ := List.map_eq_append_iff.mp h
    obtain ⟨l, lsr, rfl, hop, hr⟩ := List.map_eq_cons_iff.mp hr
    have hstep : step ⟨false, opens⟩ l = some ⟨true, opens⟩ := by
      cases op <;> simp_all [step]
    rw [run_append, ihl hl, Option.bind_some, run_cons, hstep]
    exact ihr hr
  | signed signs e ih =>
    obtain ⟨lss, lse, rfl, hs, he⟩ := List.map_eq_append_iff.mp h
    rw [run_append, run_signs hs]
    exact ih he
  | ident name | int digits =>
    obtain ⟨l, rfl, hl⟩ := List.map_eq_singleton_iff.mp h
    simp [step, hl]
  | paren e ih =>
    obtain ⟨l, ls, rfl, hl, h⟩ := List.map_eq_cons_iff.mp h
    obtain ⟨lse, lsc, rfl, he, hc⟩ := List.map_eq_append_iff.mp h
    obtain ⟨c, rfl, hclose⟩ := List.map_eq_singleton_iff.mp hc
    have hopen : step ⟨true, opens⟩ l = some ⟨true, l.startIndex :: opens⟩ := by simp [step, hl]
    rw [run_cons, hopen, Option.bind_some, run_append, ih he]
    simp [step, hclose]

end

end Stage

-- ---------------------------------------------------------------------------
-- What is read can be completed
-- ---------------------------------------------------------------------------

/-- A sum in front of its next atom: the operands so far, each with the operator
behind it, and the signs of the next one. -/
structure Frame where
  sum : Option (Derivation .addSub × AddSubOp)
  product : Option (Derivation .mulDiv × MulDivOp)
  signs : List AddSubOp

namespace Frame

def sumYield : Option (Derivation .addSub × AddSubOp) → List Word
  | none => []
  | some (e, op) => e.yield ++ [op.word]

def productYield : Option (Derivation .mulDiv × MulDivOp) → List Word
  | none => []
  | some (e, op) => e.yield ++ [op.word]

def yield (f : Frame) : List Word :=
  sumYield f.sum ++ productYield f.product ++ f.signs.map AddSubOp.word

def mulDiv (f : Frame) (e : Derivation .atom) : Derivation .mulDiv :=
  match f.product with
  | none => .ofSigned (.signed f.signs e)
  | some (left, op) => .mulDiv op left (.signed f.signs e)

def addSub (sum : Option (Derivation .addSub × AddSubOp)) (e : Derivation .mulDiv) :
    Derivation .addSub :=
  match sum with
  | none => .ofMulDiv e
  | some (left, op) => .addSub op left e

@[simp] theorem yield_addSub (sum : Option (Derivation .addSub × AddSubOp))
    (e : Derivation .mulDiv) : (addSub sum e).yield = sumYield sum ++ e.yield := by
  cases sum <;> simp [addSub, sumYield]

theorem yield_mulDiv (f : Frame) (e : Derivation .atom) :
    sumYield f.sum ++ (f.mulDiv e).yield = f.yield ++ e.yield := by
  obtain ⟨sum, product, signs⟩ := f
  cases product <;> simp [mulDiv, yield, productYield]

def outerYield : List Frame → List Word
  | [] => []
  | f :: outer => outerYield outer ++ f.yield ++ [.parenOpen]

theorem exists_closed (outer : List Frame) (e : Derivation .addSub) :
    ∃ (e' : Derivation .addSub) (back : List Word),
      e'.yield = outerYield outer ++ e.yield ++ back := by
  induction outer generalizing e with
  | nil => exact ⟨e, [], by simp [outerYield]⟩
  | cons f outer ih =>
    obtain ⟨e', back, he⟩ := ih (addSub f.sum (f.mulDiv (.paren e)))
    refine ⟨e', .parenClose :: back, ?_⟩
    rw [he, yield_addSub, yield_mulDiv]
    simp [outerYield]

end Frame

/-- The derivations under way at a stage. -/
inductive Underway (ws : List Word) (outer : List Frame) : Bool → Prop
  | operand (f : Frame) (h : ws = Frame.outerYield outer ++ f.yield) : Underway ws outer true
  | operator (sum : Option (Derivation .addSub × AddSubOp)) (e : Derivation .mulDiv)
      (h : ws = Frame.outerYield outer ++ (Frame.sumYield sum ++ e.yield)) : Underway ws outer false

section
variable {ls : List Lexeme} {st : Stage} {ws : List Word} {outer : List Frame} {operand : Bool}

theorem Underway.sentencePrefix (h : Underway ws outer operand) : SentencePrefix ws := by
  cases h with
  | operand f h =>
    let atom : Derivation .atom := .int [byte '1']
    obtain ⟨e, back, he⟩ := Frame.exists_closed outer (Frame.addSub f.sum (f.mulDiv atom))
    refine ⟨e, atom.yield ++ back, ?_⟩
    rw [he, Frame.yield_addSub, Frame.yield_mulDiv, h]
    simp
  | operator sum e h =>
    obtain ⟨e, back, he⟩ := Frame.exists_closed outer (Frame.addSub sum e)
    exact ⟨e, back, by rw [he, Frame.yield_addSub, h]⟩

theorem exists_underway (h : Stage.start.run ls = some st) :
    ∃ outer : List Frame, outer.length = st.opens.length ∧
      Underway (ls.map Lexeme.word) outer st.operand := by
  induction ls using List.reverseRecOn generalizing st with
  | nil =>
    obtain rfl : Stage.start = st := by simpa using h
    exact ⟨[], rfl, .operand ⟨none, none, []⟩ rfl⟩
  | append_singleton ls l ih =>
    rw [Stage.run_concat, Option.bind_eq_some_iff] at h
    obtain ⟨⟨operand, opens⟩, hls, hl⟩ := h
    obtain ⟨outer, hlen, hu⟩ := ih hls
    rw [List.map_append, List.map_singleton]
    cases hu with
    | operand f hf =>
      rw [hf]
      have hsign (sign : AddSubOp) : Underway (Frame.outerYield outer ++ f.yield ++ [sign.word])
          outer true :=
        .operand { f with signs := f.signs ++ [sign] } (by simp [Frame.yield])
      have hatom (e : Derivation .atom) : Underway (Frame.outerYield outer ++ f.yield ++ e.yield)
          outer false :=
        .operator f.sum (f.mulDiv e) (by rw [Frame.yield_mulDiv, List.append_assoc])
      cases hw : l.word <;> simp only [Stage.step, hw, reduceCtorEq, Option.some.injEq] at hl <;>
        subst hl
      case plus => exact ⟨outer, hlen, hsign .plus⟩
      case minus => exact ⟨outer, hlen, hsign .minus⟩
      case int digits => exact ⟨outer, hlen, hatom (.int digits)⟩
      case ident name => exact ⟨outer, hlen, hatom (.ident name)⟩
      case parenOpen =>
        refine ⟨f :: outer, by simpa using hlen, .operand ⟨none, none, []⟩ ?_⟩
        simp [Frame.outerYield, Frame.yield, Frame.sumYield, Frame.productYield]
    | operator sum e he =>
      rw [he]
      have hsum (op : AddSubOp) : Underway
          (Frame.outerYield outer ++ (Frame.sumYield sum ++ e.yield) ++ [op.word]) outer true :=
        .operand ⟨some (Frame.addSub sum e, op), none, []⟩
          (by simp [Frame.yield, Frame.sumYield, Frame.productYield])
      have hproduct (op : MulDivOp) : Underway
          (Frame.outerYield outer ++ (Frame.sumYield sum ++ e.yield) ++ [op.word]) outer true :=
        .operand ⟨sum, some (e, op), []⟩ (by simp [Frame.yield, Frame.productYield])
      cases hw : l.word <;> simp only [Stage.step, hw, reduceCtorEq, Option.some.injEq] at hl
      case plus => subst hl; exact ⟨outer, hlen, hsum .plus⟩
      case minus => subst hl; exact ⟨outer, hlen, hsum .minus⟩
      case mul => subst hl; exact ⟨outer, hlen, hproduct .mul⟩
      case div => subst hl; exact ⟨outer, hlen, hproduct .div⟩
      case parenClose =>
        rcases opens with _ | ⟨i, opens⟩
        · simp at hl
        rcases outer with _ | ⟨f, outer⟩
        · simp at hlen
        obtain rfl := Option.some.inj hl
        refine ⟨outer, by simpa using hlen, .operator f.sum
          (f.mulDiv (.paren (Frame.addSub sum e))) ?_⟩
        rw [Frame.yield_mulDiv]
        simp [Frame.outerYield]

/-- The automaton reads exactly the prefixes of sentences. -/
theorem run_isSome_iff : (Stage.start.run ls).isSome ↔ SentencePrefix (ls.map Lexeme.word) := by
  constructor
  · intro h
    obtain ⟨st, hst⟩ := Option.isSome_iff_exists.mp h
    obtain ⟨outer, -, hu⟩ := exists_underway hst
    exact hu.sentencePrefix
  · rintro ⟨e, back, he⟩
    have hmap : (ls ++ back.map fun w => Lexeme.mk w 0).map Lexeme.word = e.yield := by
      simp [he, Function.comp_def]
    have hrun : Stage.start.run (ls ++ back.map fun w => Lexeme.mk w 0) = some ⟨false, []⟩ :=
      Stage.run_yield hmap
    rw [Stage.run_append] at hrun
    cases h : Stage.start.run ls with
    | none => simp [h] at hrun
    | some st => rfl

theorem run_sentence_iff :
    Stage.start.run ls = some ⟨false, []⟩ ↔ Sentence (ls.map Lexeme.word) := by
  constructor
  · intro h
    obtain ⟨outer, hlen, hu⟩ := exists_underway h
    obtain rfl : outer = [] := List.length_eq_zero_iff.mp hlen
    cases hu with
    | operator sum e he => exact ⟨Frame.addSub sum e, by rw [Frame.yield_addSub, he]; rfl⟩
  · rintro ⟨e, he⟩
    exact Stage.run_yield he.symm

end

end ParserExample
