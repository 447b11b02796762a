import ParserExample.Reader

/-!
# Reading further does not change what is read

A reader that does not run out of lexemes, nor of fuel, does the same with more
of both.
-/

namespace ParserExample

open Library

def Extends {β : Type} (more : List Lexeme) (r r' : Except Failure (β × List Lexeme)) : Prop :=
  r = .error .stopped ∨ r = .error .fuel ∨ r' = r.map fun (b, rest) => (b, rest ++ more)

def Continues {β : Type} (f g : List Lexeme → Except Failure (β × List Lexeme)) : Prop :=
  ∀ tokens more, Extends more (f tokens) (g (tokens ++ more))

section
variable {β γ : Type} {f f' : List Lexeme → Except Failure (β × List Lexeme)}

theorem Continues.bind {g g' : β × List Lexeme → Except Failure (γ × List Lexeme)}
    (hf : Continues f f')
    (hg : ∀ b rest more, Extends more (g (b, rest)) (g' (b, rest ++ more))) :
    Continues (fun tokens => f tokens >>= g) (fun tokens => f' tokens >>= g') := by
  intro tokens more
  rcases hf tokens more with h | h | h
  · exact .inl (by simp [h])
  · exact .inr (.inl (by simp [h]))
  · simp only [h]
    cases f tokens with
    | error e => exact .inr (.inr rfl)
    | ok r => exact hg r.1 r.2 more

theorem continues_pure (b : β) :
    Continues (fun tokens => .ok (b, tokens)) (fun tokens => .ok (b, tokens)) :=
  fun _ _ => .inr (.inr rfl)

theorem continues_error (e : Failure) :
    Continues (β := β) (fun _ => .error e) (fun _ => .error e) :=
  fun _ _ => .inr (.inr rfl)

/-- A reader that looks at the next lexeme first. -/
theorem Continues.next {g g' : Lexeme → List Lexeme → Except Failure (β × List Lexeme)}
    (hg : ∀ l, Continues (fun tokens => g l (l :: tokens)) (fun tokens => g' l (l :: tokens))) :
    Continues (fun tokens => next tokens >>= fun l => g l tokens)
      (fun tokens => next tokens >>= fun l => g' l tokens) := by
  intro tokens more
  cases tokens with
  | nil => exact .inl rfl
  | cons l tokens => exact hg l tokens more

end

theorem continues_readSigns {m n : Nat} (hmn : m ≤ n) (inverse : Bool) :
    Continues (readSigns m inverse) (readSigns n inverse) := by
  induction m generalizing n inverse with
  | zero => exact fun _ _ => .inr (.inl rfl)
  | succ m ih =>
    obtain ⟨n, rfl⟩ : ∃ k, n = k + 1 := ⟨n - 1, by omega⟩
    refine Continues.next fun l => ?_
    simp only [List.tail_cons]
    cases l.word
    case plus => exact ih (by omega) _
    case minus => exact ih (by omega) _
    all_goals exact fun _ _ => .inr (.inr rfl)

theorem continues_readLoop {op : Word → Option BinaryType} {f g : List Lexeme → Read} {m n : Nat}
    (hfg : Continues f g) (hmn : m ≤ n) (left : RangedExpr) :
    Continues (readLoop op f m left) (readLoop op g n left) := by
  induction m generalizing n left with
  | zero => exact fun _ _ => .inr (.inl rfl)
  | succ m ih =>
    obtain ⟨n, rfl⟩ : ∃ k, n = k + 1 := ⟨n - 1, by omega⟩
    refine Continues.next fun l => ?_
    simp only [List.tail_cons]
    cases op l.word with
    | none => exact fun _ _ => .inr (.inr rfl)
    | some type =>
      refine hfg.bind fun right rest more => ?_
      dsimp only
      split
      · exact .inr (.inr rfl)
      · exact ih (by omega) _ rest more

section
variable {names : List Bytes} {f g : List Lexeme → Read} (hfg : Continues f g)
include hfg

theorem continues_readAtom : Continues (readAtom names f) (readAtom names g) := by
  refine Continues.next fun l => ?_
  simp only [List.tail_cons]
  cases l.word
  case ident name =>
    dsimp only
    split
    · exact continues_error _
    · exact continues_pure _
  case int digits => exact continues_pure _
  case parenOpen =>
    refine hfg.bind fun t rest more => ?_
    cases rest with
    | nil => exact .inl rfl
    | cons close rest =>
      simp only [ParserExample.next, ok_bind, List.cons_append]
      split
      · exact .inr (.inr rfl)
      · exact .inr (.inr rfl)
  all_goals exact continues_error _

theorem continues_readSigned {m n : Nat} (hmn : m ≤ n) :
    Continues (readSigned names f m) (readSigned names g n) := by
  intro tokens more
  cases tokens with
  | nil => exact .inl rfl
  | cons l tokens =>
    refine (continues_readSigns hmn false).bind (fun inverse rest more => ?_) (l :: tokens) more
    refine (continues_readAtom hfg).bind (fun t rest more => ?_) rest more
    dsimp only
    cases applySigns l.startIndex inverse t <;> exact .inr (.inr rfl)

theorem continues_readMulDiv {m n : Nat} (hmn : m ≤ n) :
    Continues (readMulDiv names f m) (readMulDiv names g n) :=
  (continues_readSigned hfg hmn).bind fun t rest more =>
    continues_readLoop (continues_readSigned hfg hmn) hmn t rest more

end

theorem continues_readAddSub (names : List Bytes) {m n : Nat} (hmn : m ≤ n) :
    Continues (readAddSub names m) (readAddSub names n) := by
  induction m generalizing n with
  | zero => exact fun _ _ => .inr (.inl rfl)
  | succ m ih =>
    obtain ⟨n, rfl⟩ : ∃ k, n = k + 1 := ⟨n - 1, by omega⟩
    have hmulDiv := @continues_readMulDiv names _ _ (@ih n (by omega)) _ _ hmn
    exact hmulDiv.bind fun t rest more => continues_readLoop hmulDiv hmn t rest more

theorem readProgram_append (names : List Bytes) {m n : Nat} (hmn : m ≤ n)
    (tokens more : List Lexeme) :
    readProgram names m tokens = .error .stopped ∨ readProgram names m tokens = .error .fuel ∨
      readProgram names n (tokens ++ more) = readProgram names m tokens := by
  simp only [readProgram]
  rcases continues_readAddSub names hmn tokens more with h | h | h
  · exact .inl (by rw [h]; rfl)
  · exact .inr (.inl (by rw [h]; rfl))
  · rw [h]
    match readAddSub names m tokens with
    | .error e => exact .inr (.inr rfl)
    | .ok (t, []) => exact .inl rfl
    | .ok (t, l :: rest) => exact .inr (.inr rfl)

end ParserExample
