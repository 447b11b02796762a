import ParserExample.Reader.Completeness
import ParserExample.Reader.Prefix

/-!
# What an error is about

`Blames` says which part of the code an error of the parser points to. The
parser on words looks no further than the first lexeme behind which no program
goes on: `Answers` compares what it does when the lexemes run out with what it
does with one more of them.
-/

namespace ParserExample

open Library

structure Spans (ls : List Lexeme) (startIndex endIndex : Nat) : Prop where
  first : ls.head?.map Lexeme.startIndex = some startIndex
  number : ∃ l ∈ ls, (∃ digits, l.word = .int digits) ∧ l.endIndex = endIndex

inductive Blames (names : List Bytes) (front : List Lexeme) (l : Lexeme) :
    ParserError → Nat → Nat → Prop
  | illegalToken : Blames names front l .illegalToken l.startIndex l.endIndex
  | expectedCloseParen {before inside : List Lexeme} {opening : Lexeme}
      {e : Derivation .addSub} (hfront : front = before ++ opening :: inside)
      (hopening : opening.word = .parenOpen) (hinside : inside.map Lexeme.word = e.yield)
      (hl : l.word ≠ .parenClose) :
      Blames names front l .expectedCloseParen opening.startIndex l.endIndex
  | undefinedVariable {name : Bytes} (hl : l.word = .ident name) (hname : name ∉ names) :
      Blames names front l .undefinedVariable l.startIndex l.endIndex
  | divByZero {before divisor : List Lexeme} {div : Lexeme} {e : Derivation .signed} {i j : Nat}
      (hfront : front ++ [l] = before ++ div :: divisor) (hdiv : div.word = .div)
      (hdivisor : divisor.map Lexeme.word = e.yield) (hvalid : e.Valid names)
      (hliteral : e.literal = some 0) (hspans : Spans divisor i j) :
      Blames names front l .divByZero i j
  | valueOutOfRange {before operand : List Lexeme} {signs : List AddSubOp}
      {e : Derivation .atom} {i j : Nat} (hfront : front ++ [l] = before ++ operand)
      (hoperand : operand.map Lexeme.word = (Derivation.signed signs e).yield)
      (hvalid : e.Valid names) (hsigns : negates signs = true)
      (hliteral : e.literal = some (maxLiteral : Int)) (hspans : Spans operand i j) :
      Blames names front l .valueOutOfRange i j

/-- What a reader that has run out of lexemes returns with one more. -/
inductive Answer (names : List Bytes) (front : List Lexeme) (l : Lexeme)
    (left : List Lexeme) : Read → Prop
  | read (t : RangedExpr) : Answer names front l left (.ok (t, left))
  | stopped : Answer names front l left (.error .stopped)
  | fuel : Answer names front l left (.error .fuel)
  | failed {error : ParserError} {i j : Nat} (h : Blames names front l error i j) :
      Answer names front l left (.error (.failed error i j))

/-- A reader that stops as soon as no program goes on. Done, it has `left` before it
of one lexeme more than it has asked for. -/
def Answers (names : List Bytes) (n : Nat) (left : Lexeme → List Lexeme)
    (f : List Lexeme → Read) : Prop :=
  ∀ front l, Bounded n (front ++ [l]) → f front = .error .stopped →
    Answer names front l (left l) (f (front ++ [l]))

/-- A number that is read ends where its node does. -/
def EndsNumber (tokens : List Lexeme) (r : Read) : Prop :=
  ∀ t rest value, r = .ok (t, rest) → t.erase = Expr.int value →
    ∃ l ∈ tokens, (∃ digits, l.word = .int digits) ∧ l.endIndex = t.slot.2

section
variable {names : List Bytes} {front used rest left : List Lexeme} {l : Lexeme}

theorem Blames.behind {error : ParserError} {i j : Nat} (h : Blames names rest l error i j)
    (used : List Lexeme) : Blames names (used ++ rest) l error i j := by
  cases h with
  | illegalToken => exact .illegalToken
  | expectedCloseParen hfront hopening hinside hl =>
    exact .expectedCloseParen (by rw [hfront, ← List.append_assoc]) hopening hinside hl
  | undefinedVariable hl hname => exact .undefinedVariable hl hname
  | divByZero hfront hdiv hdivisor hvalid hliteral hspans =>
    exact .divByZero (by rw [List.append_assoc, hfront, ← List.append_assoc]) hdiv hdivisor
      hvalid hliteral hspans
  | valueOutOfRange hfront hoperand hvalid hsigns hliteral hspans =>
    exact .valueOutOfRange (by rw [List.append_assoc, hfront, ← List.append_assoc]) hoperand
      hvalid hsigns hliteral hspans

theorem Answer.behind {r : Read} (h : Answer names rest l left r) (used : List Lexeme) :
    Answer names (used ++ rest) l left r := by
  cases h with
  | read t => exact .read t
  | stopped => exact .stopped
  | fuel => exact .fuel
  | failed h => exact .failed (h.behind used)

theorem Bounded.concat_suffix {n : Nat} (h : Bounded n (used ++ rest ++ [l])) :
    Bounded n (rest ++ [l]) := by
  rw [List.append_assoc] at h
  exact h.suffix

theorem Bounded.initial {n : Nat} (h : Bounded n (front ++ rest)) : Bounded n front :=
  ⟨lt_of_le_of_lt (by simp) h.length_lt, fun a ha => h.in_range a (List.mem_append_left _ ha)⟩

/-- A reader that comes to the end of the lexemes goes on with one more. -/
theorem Answers.concat {n : Nat} {f : List Lexeme → Read} (hf : Answers names n (fun l => [l]) f)
    (hcont : Continues f f) (hb : Bounded n (front ++ [l]))
    (h : f front = .error .stopped ∨ ∃ t, f front = .ok (t, [])) :
    Answer names front l [l] (f (front ++ [l])) := by
  rcases h with h | ⟨t, h⟩
  · exact hf front l hb h
  · rcases hcont front [l] with h' | h' | h'
    · exact hf front l hb h'
    · rw [h] at h'
      cases h'
    · rw [h', h]
      exact .read t

theorem Answers.bind {nt : NonTerminal} {n : Nat} {left left' : Lexeme → List Lexeme}
    {f : List Lexeme → Read} {g : RangedExpr × List Lexeme → Read}
    (hf : Answers names n left f) (hcont : Continues f f)
    (hex : ∀ tokens, Bounded n tokens → Explains names nt tokens (f tokens))
    (hdone : ∀ front l t, Answer names front l (left' l) (g (t, left l)))
    (hg : ∀ t, Answers names n left' fun tokens => g (t, tokens)) :
    Answers names n left' fun tokens => f tokens >>= g := by
  intro front l hb hs
  dsimp only at hs ⊢
  have hread := hex front hb.initial
  rcases hcont front [l] with h | h | h
  · have hanswer := hf front l hb h
    generalize f (front ++ [l]) = r at hanswer ⊢
    cases hanswer with
    | read t => exact hdone front l t
    | stopped => exact .stopped
    | fuel => exact .fuel
    | failed h => exact .failed h
  · simp only [h, error_bind] at hs
    cases hs
  · generalize f front = r at hread hs h
    match r, hread with
    | .error e, _ =>
      obtain rfl : e = .stopped := Except.error.inj hs
      rw [h]
      exact .stopped
    | .ok (t, rest), ⟨used, _, hfront, _⟩ =>
      subst hfront
      rw [h]
      exact (hg t rest l hb.concat_suffix hs).behind used

-- ---------------------------------------------------------------------------
-- Signs and atoms
-- ---------------------------------------------------------------------------

theorem readSigns_stopped {fuel : Nat} {inverse : Bool} {signs : List AddSubOp}
    (h : front.map Lexeme.word = signs.map AddSubOp.word) (hf : front.length < fuel) :
    readSigns fuel inverse front = .error .stopped := by
  induction fuel generalizing front signs inverse with
  | zero => omega
  | succ fuel ih =>
    cases front with
    | nil => rfl
    | cons a front =>
      cases signs with
      | nil => cases h
      | cons sign signs =>
        obtain ⟨ha, hfront⟩ := List.cons.inj h
        have hlen : front.length < fuel := Nat.lt_of_succ_lt_succ hf
        cases sign <;> simp only [AddSubOp.word] at ha <;>
          simp only [readSigns, next, ok_bind, ha, List.tail_cons, ih hfront hlen]

theorem readSigns_append {fuel : Nat} (hf : (front ++ [l]).length < fuel) :
    readSigns fuel false (front ++ [l]) = .error .stopped ∨
    ∃ (used rest : List Lexeme) (signs : List AddSubOp), front = used ++ rest ∧
      used.map Lexeme.word = signs.map AddSubOp.word ∧
      (rest = [] ∨ readSigns fuel false front = .ok (negates signs, rest)) ∧
      readSigns fuel false (front ++ [l]) = .ok (negates signs, rest ++ [l]) := by
  have hlen : front.length < fuel := by
    rw [List.length_append] at hf
    exact (Nat.le_add_right _ _).trans_lt hf
  rcases readSigns_explains false hlen with
    ⟨used, rest, signs, hfront, hu, hr⟩ | ⟨-, signs, hs⟩
  · refine .inr ⟨used, rest, signs, hfront, hu, .inr (by rw [hr, Bool.false_bne]), ?_⟩
    rcases continues_readSigns (le_refl fuel) false front [l] with h | h | h
    · rw [hr] at h
      cases h
    · rw [hr] at h
      cases h
    · rw [h, hr, Bool.false_bne]
      rfl
  · have hsign (sign : AddSubOp) (hl : l.word = sign.word) :
        readSigns fuel false (front ++ [l]) = .error .stopped :=
      @readSigns_stopped (front ++ [l]) fuel false (signs ++ [sign])
        (by rw [List.map_append, List.map_append, hs, List.map_singleton, hl]; rfl) hf
    by_cases hplus : l.word = .plus
    · exact .inl (hsign .plus hplus)
    by_cases hminus : l.word = .minus
    · exact .inl (hsign .minus hminus)
    refine .inr ⟨front, [], signs, (List.append_nil _).symm, hs, .inl rfl, ?_⟩
    have hfuel : signs.length < fuel := by
      have hmap := congrArg List.length hs
      rw [List.length_map, List.length_map] at hmap
      exact hmap ▸ hlen
    rw [readSigns_complete hs ⟨hplus, hminus⟩ hfuel, Bool.false_bne]
    rfl

theorem mem_of_readSigns {fuel : Nat} {inverse b : Bool} {tokens rest : List Lexeme}
    (h : readSigns fuel inverse tokens = .ok (b, rest)) (hl : l ∈ rest) : l ∈ tokens := by
  induction fuel generalizing inverse tokens with
  | zero => cases h
  | succ fuel ih =>
    obtain ⟨a, ha, h⟩ := bind_ok.mp h
    cases tokens with
    | nil => cases ha
    | cons a' tokens =>
      split at h
      · exact List.mem_cons_of_mem _ (ih h)
      · exact List.mem_cons_of_mem _ (ih h)
      · cases h
        exact hl

theorem applySigns_slot (startIndex : Nat) (inverse : Bool) (t : RangedExpr) :
    (inverse = true ∧ t.erase = Expr.int longMax ∧ applySigns startIndex inverse t =
      .error (.failed .valueOutOfRange startIndex t.slot.2)) ∨
    ∃ t', applySigns startIndex inverse t = .ok t' ∧ t'.slot = (startIndex, t.slot.2) ∧
      ∀ value, t'.erase = Expr.int value → ∃ value', t.erase = Expr.int value' := by
  rcases applySigns_cases startIndex inverse t with ⟨hinv, hint, j, happ⟩ | ⟨-, t', happ, ht'⟩
  · refine .inl ⟨hinv, hint, ?_⟩
    subst hinv
    cases t with
    | leaf s a =>
      obtain rfl : a = .int longMax := by simpa using hint
      simp [applySigns, Tree.slot]
    | un => simp at hint
    | bin => simp at hint
  · refine .inr ⟨t', happ, ?_, fun value hvalue => ?_⟩
    · cases inverse with
      | false =>
        obtain rfl : t.setSlot (startIndex, t.slot.2) = t' := by simpa [applySigns] using happ
        cases t <;> rfl
      | true =>
        unfold applySigns at happ
        simp only [if_true] at happ
        split at happ
        · split at happ
          · cases happ
          · cases happ
            rfl
        · cases happ
          rfl
    · rw [ht'] at hvalue
      split at hvalue
      · exact ⟨_, negate_eq_int hvalue⟩
      · exact ⟨_, hvalue⟩

section
variable {n fuel : Nat} {readAddSub : List Lexeme → Read}

theorem endsNumber_readAtom (hends : ∀ tokens, EndsNumber tokens (readAddSub tokens))
    (tokens : List Lexeme) : EndsNumber tokens (readAtom names readAddSub tokens) := by
  intro t rest value h ht
  cases tokens with
  | nil => cases h
  | cons l tokens =>
    simp only [readAtom, next, ok_bind, List.tail_cons] at h
    cases hw : l.word <;> rw [hw] at h
    case ident name =>
      dsimp only at h
      split at h
      · cases h
      · cases h
        cases ht
    case int digits =>
      cases h
      exact ⟨l, List.mem_cons_self, ⟨digits, hw⟩, rfl⟩
    case parenOpen =>
      simp only [readParen] at h
      obtain ⟨⟨t', rest'⟩, hr, h⟩ := bind_ok.mp h
      obtain ⟨close, -, h⟩ := bind_ok.mp h
      split at h
      · cases h
      · cases h
        obtain ⟨a, ha, hdigits, hend⟩ := hends _ _ _ _ hr ht
        exact ⟨a, List.mem_cons_of_mem _ ha, hdigits, hend⟩
    all_goals cases h

theorem endsNumber_readSigned (hends : ∀ tokens, EndsNumber tokens (readAddSub tokens))
    (tokens : List Lexeme) : EndsNumber tokens (readSigned names readAddSub fuel tokens) := by
  intro t rest value h ht
  obtain ⟨first, -, h⟩ := bind_ok.mp h
  obtain ⟨⟨inverse, rest₁⟩, hsigns, h⟩ := bind_ok.mp h
  obtain ⟨⟨t', rest₂⟩, hatom, h⟩ := bind_ok.mp h
  obtain ⟨t'', happ, h⟩ := bind_ok.mp h
  cases h
  rcases applySigns_slot first.startIndex inverse t' with ⟨-, -, he⟩ | ⟨u, hu, hslot, hint⟩
  · rw [he] at happ
    cases happ
  · obtain rfl : u = t := Except.ok.inj (hu.symm.trans happ)
    obtain ⟨value', hvalue⟩ := hint value ht
    obtain ⟨l, hl, hdigits, hend⟩ := endsNumber_readAtom hends rest₁ t' _ value' hatom hvalue
    exact ⟨l, mem_of_readSigns hsigns hl, hdigits, by rw [hslot, hend]⟩

theorem eq_left_of_readLoop {op : Word → Option BinaryType} {operand : List Lexeme → Read}
    {count : Nat} {left t : RangedExpr} {tokens rest : List Lexeme} {value : Long}
    (h : readLoop op operand count left tokens = .ok (t, rest)) (ht : t.erase = Expr.int value) :
    t = left := by
  induction count generalizing left tokens with
  | zero => cases h
  | succ count ih =>
    rw [readLoop] at h
    obtain ⟨l, -, h⟩ := bind_ok.mp h
    cases hop : op l.word with
    | none =>
      rw [hop] at h
      cases h
      rfl
    | some type =>
      rw [hop] at h
      obtain ⟨⟨right, rest'⟩, -, h⟩ := bind_ok.mp h
      dsimp only at h
      split at h
      · cases h
      · rw [ih h] at ht
        cases ht

theorem endsNumber_readMulDiv (hends : ∀ tokens, EndsNumber tokens (readAddSub tokens))
    (tokens : List Lexeme) : EndsNumber tokens (readMulDiv names readAddSub fuel tokens) := by
  intro t rest value h ht
  obtain ⟨⟨left, rest'⟩, hleft, h⟩ := bind_ok.mp h
  obtain rfl := eq_left_of_readLoop h ht
  exact endsNumber_readSigned hends tokens _ _ value hleft ht

end

theorem endsNumber_readAddSub (names : List Bytes) (fuel : Nat) (tokens : List Lexeme) :
    EndsNumber tokens (readAddSub names fuel tokens) := by
  induction fuel generalizing tokens with
  | zero => exact nofun
  | succ fuel ih =>
    intro t rest value h ht
    obtain ⟨⟨left, rest'⟩, hleft, h⟩ := bind_ok.mp h
    obtain rfl := eq_left_of_readLoop h ht
    exact endsNumber_readMulDiv ih tokens _ _ value hleft ht

-- ---------------------------------------------------------------------------
-- One lexeme more
-- ---------------------------------------------------------------------------

section
variable {n fuel count : Nat} {readAddSub : List Lexeme → Read}

/-- What an atom or a signed atom is made of, when it is all that is left. -/
theorem explains_ok {nt : NonTerminal} {tokens : List Lexeme} {r : Read} {t : RangedExpr}
    (h : Explains names nt tokens r) (hr : r = .ok (t, [])) :
    ∃ e : Derivation nt, tokens.map Lexeme.word = e.yield ∧ e.Valid names ∧
      t.erase = e.expr names := by
  subst hr
  obtain ⟨used, e, htokens, hu, hv, ht⟩ := h
  rw [List.append_nil] at htokens
  exact ⟨e, htokens ▸ hu, hv, ht⟩

theorem answer_readParen (hcont : Continues readAddSub readAddSub)
    (hex : ∀ tokens, Bounded fuel tokens → Explains names .addSub tokens (readAddSub tokens))
    (hanswers : Answers names fuel (fun l => [l]) readAddSub) {a : Lexeme}
    (hw : a.word = .parenOpen) (hb : Bounded fuel (front ++ [l]))
    (hfront : readAddSub front = .error .stopped ∨ ∃ t, readAddSub front = .ok (t, [])) :
    Answer names (a :: front) l [] (readParen readAddSub a.startIndex (front ++ [l])) := by
  have hanswer := hanswers.concat hcont hb hfront
  have hexplains := hex (front ++ [l]) hb
  simp only [readParen]
  generalize readAddSub (front ++ [l]) = r at hanswer hexplains ⊢
  cases hanswer with
  | read t =>
    obtain ⟨used, e, hfront, hu, -, -⟩ := hexplains
    obtain rfl : front = used := List.append_cancel_right hfront
    simp only [ok_bind, next]
    split
    · rename_i hclose
      exact .failed (.expectedCloseParen (List.nil_append _).symm hw hu hclose)
    · exact .read t
  | stopped => exact .stopped
  | fuel => exact .fuel
  | failed h => exact .failed (h.behind [a])

theorem answers_readAtom (hnil : readAddSub [] = .error .stopped ∨ readAddSub [] = .error .fuel)
    (hcont : Continues readAddSub readAddSub)
    (hex : ∀ tokens, Bounded fuel tokens → Explains names .addSub tokens (readAddSub tokens))
    (hanswers : Answers names fuel (fun l => [l]) readAddSub) :
    Answers names (fuel + 1) (fun _ => []) (readAtom names readAddSub) := by
  intro front l hb hs
  cases front with
  | nil =>
    simp only [List.nil_append, readAtom, next, ok_bind, List.tail_cons]
    cases hw : l.word
    case ident name =>
      dsimp only
      split
      · rename_i hname
        exact .failed (.undefinedVariable hw (List.idxOf_eq_length_iff.mp hname))
      · exact .read _
    case int digits => exact .read _
    case parenOpen =>
      rcases hnil with h | h
      · simp only [readParen, h]
        exact .stopped
      · simp only [readParen, h]
        exact .fuel
    all_goals exact .failed .illegalToken
  | cons a front =>
    simp only [readAtom, next, ok_bind, List.tail_cons] at hs
    simp only [List.cons_append, readAtom, next, ok_bind, List.tail_cons]
    cases hw : a.word <;> rw [hw] at hs
    case ident name =>
      dsimp only at hs
      split at hs <;> cases hs
    case int digits => cases hs
    case parenOpen =>
      have hb' : Bounded fuel (front ++ [l]) := Bounded.tail hb
      have hfront : readAddSub front = .error .stopped ∨ ∃ t, readAddSub front = .ok (t, []) := by
        rcases bind_error.mp hs with h | ⟨⟨t, rest⟩, h, hs⟩
        · exact .inl h
        · cases rest with
          | nil => exact .inr ⟨t, h⟩
          | cons close rest =>
            simp only [ok_bind, next] at hs
            split at hs <;> cases hs
      exact answer_readParen hcont hex hanswers hw hb' hfront
    all_goals cases hs

theorem startIndex_readSigned {tokens : List Lexeme} {t : RangedExpr}
    (h : readSigned names readAddSub fuel tokens = .ok (t, rest)) :
    tokens.head?.map Lexeme.startIndex = some t.slot.1 := by
  obtain ⟨first, hnext, h⟩ := bind_ok.mp h
  obtain ⟨⟨inverse, _⟩, -, h⟩ := bind_ok.mp h
  obtain ⟨⟨t', _⟩, -, h⟩ := bind_ok.mp h
  obtain ⟨t'', happ, h⟩ := bind_ok.mp h
  cases h
  cases tokens with
  | nil => cases hnext
  | cons a tokens =>
    obtain rfl : a = first := Except.ok.inj hnext
    rcases applySigns_slot a.startIndex inverse t' with ⟨-, -, he⟩ | ⟨u, hu, hslot, -⟩
    · rw [he] at happ
      cases happ
    · obtain rfl : u = t := Except.ok.inj (hu.symm.trans happ)
      rw [hslot]
      rfl

/-- Behind the signs, the lexemes run out in the atom. -/
theorem readAtom_stopped {inverse : Bool} {tokens : List Lexeme}
    (h : readSigned names readAddSub fuel tokens = .error .stopped)
    (hsigns : readSigns fuel false tokens = .ok (inverse, rest)) :
    readAtom names readAddSub rest = .error .stopped := by
  rcases bind_error.mp h with hnext | ⟨first, -, h⟩
  · cases tokens with
    | nil => cases fuel <;> cases hsigns
    | cons a tokens => cases hnext
  · rw [hsigns, ok_bind] at h
    rcases bind_error.mp h with hatom | ⟨⟨t, rest'⟩, -, h⟩
    · exact hatom
    · rcases applySigns_slot first.startIndex inverse t with ⟨-, -, happ⟩ | ⟨t', happ, -⟩
      · simp [happ] at h
      · simp [happ] at h

theorem answers_readSigned (hatom : Answers names (fuel + 1) (fun _ => [])
      (readAtom names readAddSub))
    (hex : ∀ tokens, Bounded fuel tokens → Explains names .addSub tokens (readAddSub tokens))
    (hends : ∀ tokens, EndsNumber tokens (readAddSub tokens)) :
    Answers names (fuel + 1) (fun _ => []) (readSigned names readAddSub (fuel + 1)) := by
  intro front l hb hs
  obtain ⟨first, others, hfirst⟩ : ∃ a as, front ++ [l] = a :: as := by
    cases front <;> exact ⟨_, _, rfl⟩
  rw [readSigned, hfirst]
  simp only [next, ok_bind]
  rw [← hfirst]
  rcases readSigns_append hb.length_lt with h | ⟨used, rest, signs, rfl, hu, hrest, h⟩
  · rw [h]
    exact .stopped
  · -- the atom is not there yet
    have hstopped : readAtom names readAddSub rest = .error .stopped := by
      rcases hrest with rfl | hr
      · rfl
      · exact readAtom_stopped hs hr
    have hanswer := hatom rest l hb.concat_suffix hstopped
    have hexplains := explains_readAtom hex hb.concat_suffix
    have hnumber := @endsNumber_readAtom names _ hends (rest ++ [l])
    rw [h]
    simp only [ok_bind]
    generalize readAtom names readAddSub (rest ++ [l]) = r at hanswer hexplains hnumber ⊢
    cases hanswer with
    | stopped => exact .stopped
    | fuel => exact .fuel
    | failed h => exact .failed (h.behind used)
    | read t =>
      simp only [ok_bind]
      rcases applySigns_slot first.startIndex (negates signs) t with
        ⟨hneg, hint, happ⟩ | ⟨t', happ, -⟩
      · obtain ⟨e, hyield, hv, ht⟩ := explains_ok hexplains rfl
        obtain ⟨a, ha, hdigits, hend⟩ := hnumber t [] longMax rfl hint
        rw [happ]
        refine .failed (.valueOutOfRange (List.nil_append _).symm ?_ hv hneg
          ((max_check_iff hv ht).mp hint) ⟨?_, a, ?_, hdigits, hend⟩)
        · rw [List.append_assoc, List.map_append, hu, hyield]
          rfl
        · rw [hfirst]
          rfl
        · rw [List.append_assoc]
          exact List.mem_append_right _ ha
      · rw [happ]
        exact .read t'

end

theorem answer_readLoop {op : Word → Option BinaryType} {operand : List Lexeme → Read}
    (hnil : operand [] = .error .stopped ∨ operand [] = .error .fuel) (count : Nat)
    (t : RangedExpr) : Answer names front l [l] (readLoop op operand count t [l]) := by
  cases count with
  | zero => exact .fuel
  | succ count =>
    simp only [readLoop, next, ok_bind, List.tail_cons]
    cases op l.word with
    | none => exact .read t
    | some type =>
      rcases hnil with h | h
      · simp only [h]
        exact .stopped
      · simp only [h]
        exact .fuel

theorem answer_readLoop_nil {op : Word → Option BinaryType} {operand : List Lexeme → Read}
    {count : Nat} (t : RangedExpr) :
    Answer names front l left (readLoop op operand count t []) := by
  cases count with
  | zero => exact .fuel
  | succ count => exact .stopped

/-- Either the chain has no division, and an operand that is read has looked one lexeme
ahead, or it has looked no further, and an operand whose tree is 0 is the literal 0. -/
def ChecksDivisors {nt nt' : NonTerminal} (c : Chain names nt nt') (n : Nat)
    (left : Lexeme → List Lexeme) (operand : List Lexeme → Read) : Prop :=
  (∀ l, left l = [l]) ∧ (∀ w, c.pick w ≠ some .div) ∨
    (∀ l, left l = []) ∧ (∀ w, c.pick w = some .div → w = .div) ∧
    ∀ tokens t, Bounded n tokens → operand tokens = .ok (t, []) → t.erase = Expr.int 0 →
      ∃ e : Derivation .signed, tokens.map Lexeme.word = e.yield ∧ e.Valid names ∧
        e.literal = some 0 ∧ Spans tokens t.slot.1 t.slot.2

section
variable {nt nt' : NonTerminal} (c : Chain names nt nt') {n count : Nat}
  {operand : List Lexeme → Read} {behind : Lexeme → List Lexeme} (t : RangedExpr)
  (hnil : operand [] = .error .stopped ∨ operand [] = .error .fuel)
  (hanswers : Answers names n behind operand)
  (hchecks : ChecksDivisors c n behind operand)
include hnil hanswers hchecks

/-- The turn of the loop in which the lexemes run out. -/
theorem answer_operand {a : Lexeme} {type : BinaryType} (hpick : c.pick a.word = some type)
    (hb : Bounded n (front ++ [l])) (hr : operand front = .error .stopped) :
    Answer names (a :: front) l [l]
      (readLoop c.pick operand (count + 1) t (a :: (front ++ [l]))) := by
  have hanswer := hanswers front l hb hr
  simp only [readLoop, next, ok_bind, List.tail_cons, hpick]
  generalize hr' : operand (front ++ [l]) = r at hanswer ⊢
  cases hanswer with
  | stopped => exact .stopped
  | fuel => exact .fuel
  | failed h => exact .failed (h.behind [a])
  | read right =>
    simp only [ok_bind]
    rcases hchecks with ⟨hbehind, hdiv⟩ | ⟨hbehind, hdiv, hzero⟩
    · rw [if_neg fun h => hdiv _ (h.1 ▸ hpick), hbehind]
      exact answer_readLoop hnil _ _
    · rw [hbehind] at hr' ⊢
      split
      · rename_i hcheck
        obtain ⟨e, hyield, hv, hliteral, hspans⟩ := hzero _ right hb hr' hcheck.2
        exact .failed (.divByZero (List.nil_append _).symm (hdiv _ (hcheck.1 ▸ hpick))
          hyield hv hliteral hspans)
      · exact answer_readLoop_nil _

theorem answers_readLoop (hcont : Continues operand operand)
    (hex : ∀ tokens, Bounded n tokens → Explains names nt' tokens (operand tokens)) :
    Answers names n (fun l => [l]) (readLoop c.pick operand count t) := by
  induction count generalizing t with
  | zero => exact fun _ _ _ hs => by cases hs
  | succ count ih =>
    intro front l hb hs
    cases front with
    | nil => exact answer_readLoop hnil _ t
    | cons a front =>
      simp only [readLoop, next, ok_bind, List.tail_cons] at hs
      rw [List.cons_append]
      cases hpick : c.pick a.word with
      | none =>
        rw [hpick] at hs
        cases hs
      | some type =>
        rw [hpick] at hs
        obtain ⟨op, -, rfl⟩ := c.exists_op _ _ hpick
        have hb' : Bounded n (front ++ [l]) := @Bounded.suffix n [a] _ hb
        have hfinish := @answer_operand names front l _ _ c n count _ _ t hnil hanswers hchecks
          a _ hpick hb'
        rcases hcont front [l] with h | h | h
        · exact hfinish h
        · rw [h] at hs
          cases hs
        · have hread := hex front hb'.initial
          cases hr : operand front with
          | error e =>
            rw [hr] at hs
            obtain rfl : e = .stopped := Except.error.inj hs
            exact hfinish hr
          | ok r =>
            obtain ⟨right, rest⟩ := r
            rw [hr] at hs hread
            obtain ⟨used, -, rfl, -⟩ := hread
            simp only [ok_bind] at hs
            simp only [readLoop, next, ok_bind, List.tail_cons, hpick, h, hr]
            split at hs
            · cases hs
            · rename_i hdiv
              simp only [Except.map, ok_bind, if_neg hdiv]
              exact (ih _ rest l hb'.concat_suffix hs).behind (a :: used)

end

section
variable {n fuel : Nat} {readAddSub : List Lexeme → Read}
  (hnil : readAddSub [] = .error .stopped ∨ readAddSub [] = .error .fuel)
  (hcont : Continues readAddSub readAddSub)
  (hex : ∀ tokens, Bounded fuel tokens → Explains names .addSub tokens (readAddSub tokens))
  (hanswers : Answers names fuel (fun l => [l]) readAddSub)
  (hends : ∀ tokens, EndsNumber tokens (readAddSub tokens))
include hnil hcont hex hanswers hends

theorem answers_readMulDiv :
    Answers names (fuel + 1) (fun l => [l]) (readMulDiv names readAddSub (fuel + 1)) := by
  have hsigned := answers_readSigned (answers_readAtom hnil hcont hex hanswers) hex hends
  have hcontSigned := @continues_readSigned names _ _ hcont _ _ (le_refl (fuel + 1))
  refine hsigned.bind hcontSigned (fun tokens => explains_readSigned hex)
    (fun front l t => answer_readLoop_nil t) fun t => ?_
  refine answers_readLoop (mulDivChain names) t (.inl rfl) hsigned
    (.inr ⟨fun _ => rfl, ?_, ?_⟩) hcontSigned fun tokens => explains_readSigned hex
  · intro w hw
    cases w <;> cases hw
    rfl
  · intro tokens right hb hright hzero
    obtain ⟨e, hyield, hv, ht⟩ := explains_ok (explains_readSigned hex hb) hright
    obtain ⟨a, ha, hdigits, hend⟩ := endsNumber_readSigned hends tokens right [] 0 hright hzero
    exact ⟨e, hyield, hv, (div_check_iff hv ht).mp hzero, startIndex_readSigned hright, a, ha,
      hdigits, hend⟩

end

theorem readAddSub_nil (names : List Bytes) (fuel : Nat) :
    readAddSub names fuel [] = .error .stopped ∨ readAddSub names fuel [] = .error .fuel := by
  cases fuel with
  | zero => exact .inr rfl
  | succ fuel => exact .inl rfl

theorem answers_readAddSub (names : List Bytes) (fuel : Nat) :
    Answers names fuel (fun l => [l]) (readAddSub names fuel) := by
  induction fuel with
  | zero => exact fun _ _ _ hs => by cases hs
  | succ fuel ih =>
    have hcont := continues_readAddSub names (le_refl fuel)
    have hex := fun tokens => @explains_readAddSub names fuel tokens
    have hmulDiv := answers_readMulDiv (readAddSub_nil names fuel) hcont hex ih
      (endsNumber_readAddSub names fuel)
    have hcontMulDiv := @continues_readMulDiv names _ _ hcont _ _ (le_refl (fuel + 1))
    have hexMulDiv := fun tokens hb => @explains_readMulDiv names fuel _ tokens hex hb
    refine hmulDiv.bind hcontMulDiv hexMulDiv
      (fun front l t => answer_readLoop (.inl rfl) _ t) fun t => ?_
    refine answers_readLoop (addSubChain names) t (.inl rfl) hmulDiv
      (.inl ⟨fun _ => rfl, fun w hw => ?_⟩) hcontMulDiv hexMulDiv
    cases w <;> cases hw

-- ---------------------------------------------------------------------------
-- Programs
-- ---------------------------------------------------------------------------

section
variable {fuel : Nat} {error : ParserError} {i j : Nat}

theorem readProgram_concat (hb : Bounded fuel (front ++ [l]))
    (hs : readProgram names fuel front = .error .stopped)
    (h : readProgram names fuel (front ++ [l]) = .error (.failed error i j)) :
    Blames names front l error i j := by
  have hfront : readAddSub names fuel front = .error .stopped ∨
      ∃ t, readAddSub names fuel front = .ok (t, []) := by
    rcases bind_error.mp hs with h | ⟨⟨t, rest⟩, h, hs⟩
    · exact .inl h
    · cases rest with
      | nil => exact .inr ⟨t, h⟩
      | cons l rest =>
        simp only [ok_bind, next] at hs
        split at hs <;> cases hs
  have hanswer := (answers_readAddSub names fuel).concat
    (continues_readAddSub names (le_refl fuel)) hb hfront
  rw [readProgram] at h
  generalize readAddSub names fuel (front ++ [l]) = r at hanswer h
  cases hanswer with
  | stopped => cases h
  | fuel => cases h
  | failed hblames =>
    cases h
    exact hblames
  | read t =>
    simp only [ok_bind, next] at h
    split at h
    · cases h
      exact .illegalToken
    · cases h

/-- An error is found at the first lexeme with which the parser on words fails. -/
theorem readProgram_blames {tokens : List Lexeme} (hb : Bounded fuel tokens)
    (h : readProgram names fuel tokens = .error (.failed error i j)) :
    ∃ front l back, tokens = front ++ l :: back ∧
      readProgram names fuel front = .error .stopped ∧
      readProgram names fuel (front ++ [l]) = .error (.failed error i j) ∧
      Blames names front l error i j := by
  induction tokens using List.reverseRecOn with
  | nil => cases fuel <;> cases h
  | append_singleton tokens a ih =>
    rcases readProgram_append names (le_refl fuel) tokens [a] with hs | hf | happ
    · exact ⟨tokens, a, [], rfl, hs, h, readProgram_concat hb hs h⟩
    · exact absurd hf (readProgram_sound hb.initial).2.2
    · obtain ⟨front, l, back, rfl, hrest⟩ := ih hb.initial (happ ▸ h)
      exact ⟨front, l, back ++ [a], by rw [List.append_assoc, List.cons_append], hrest⟩

end

end

end ParserExample
