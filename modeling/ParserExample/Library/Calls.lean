import ParserExample.Library.Except

/-!
# Sequences of calls

A component is a step function from a state and a call to the state after it;
a call that fails ends the sequence. `Along step P s calls` says that `P` holds
of every call made from `s`, each in the state it is made in.
-/

namespace Library

universe u v w

variable {σ : Type u} {ω : Type v} {ε : Type w} {step : σ → ω → Except ε σ}
  {P Q : σ → ω → Prop} {inv : σ → Prop} {s : σ}

def Along (step : σ → ω → Except ε σ) (P : σ → ω → Prop) : σ → List ω → Prop
  | _, [] => True
  | s, call :: calls => P s call ∧ ∀ s', step s call = .ok s' → Along step P s' calls

/-- Two properties of a call that agree under an invariant agree along every
sequence of calls from a state that meets it. -/
theorem along_congr (inv : σ → Prop) (hstep : ∀ s call s', inv s → step s call = .ok s' → inv s')
    (hiff : ∀ s call, inv s → (P s call ↔ Q s call)) (hs : inv s) (calls : List ω) :
    Along step P s calls ↔ Along step Q s calls := by
  induction calls generalizing s with
  | nil => exact Iff.rfl
  | cons call calls ih =>
    simp only [Along, hiff s call hs]
    exact and_congr_right fun _ => forall₂_congr fun s' h => ih (hstep s call s' hs h)

end Library
