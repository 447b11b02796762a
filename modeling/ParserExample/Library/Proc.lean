import Mathlib

/-!
# Procedures on a state

A procedure of `EStateM` keeps its state when it fails. The first lemmas read
the outcome of a sequence of two procedures. `Meets` are postconditions for
both ends of a procedure, with a rule for each way to put one together. So has
`Keeps`, for an invariant of the state.
-/

namespace Library

universe u

variable {ε σ α β : Type u} {x : EStateM ε σ α} {f : α → EStateM ε σ β} {s s' s'' : σ}
  {a : α} {b : β} {e : ε}

theorem proc_bind_of_ok (h : x s = .ok a s') : (x >>= f) s = f a s' := by
  show EStateM.bind x f s = _
  simp [EStateM.bind, h]

theorem proc_bind_of_error (h : x s = .error e s') : (x >>= f) s = .error e s' := by
  show EStateM.bind x f s = _
  simp [EStateM.bind, h]

@[simp] theorem proc_modify (g : σ → σ) : (modify g : EStateM ε σ PUnit) s = .ok ⟨⟩ (g s) := rfl

@[simp] theorem proc_get_bind {f : σ → EStateM ε σ β} : (get >>= f) s = f s s := rfl
@[simp] theorem proc_modify_bind (g : σ → σ) {f : PUnit → EStateM ε σ β} :
    (modify g >>= f) s = f ⟨⟩ (g s) := rfl

-- ---------------------------------------------------------------------------
-- Postconditions
-- ---------------------------------------------------------------------------

/-- From state `s` the procedure returns as `post` says, or fails as `stop`
says. -/
def Meets (x : EStateM ε σ α) (s : σ) (post : α → σ → Prop) (stop : ε → σ → Prop) : Prop :=
  match x s with
  | .ok a s' => post a s'
  | .error e s' => stop e s'

section
variable {post post' : α → σ → Prop} {mid : β → σ → Prop} {stop stop' : ε → σ → Prop}

theorem Meets.of_ok (hx : Meets x s post stop) (h : x s = .ok a s') : post a s' := by
  simpa only [Meets, h] using hx

theorem Meets.of_error (hx : Meets x s post stop) (h : x s = .error e s') : stop e s' := by
  simpa only [Meets, h] using hx

theorem Meets.mono (hx : Meets x s post stop) (hp : ∀ a s', x s = .ok a s' → post a s' → post' a s')
    (hs : ∀ e s', stop e s' → stop' e s') : Meets x s post' stop' := by
  unfold Meets at *
  cases h : x s with
  | ok a s' => exact hp a s' h (by simpa only [h] using hx)
  | error e s' => exact hs e s' (by simpa only [h] using hx)

theorem Meets.bind {f : α → EStateM ε σ β} (hx : Meets x s post stop)
    (hf : ∀ a s', x s = .ok a s' → post a s' → Meets (f a) s' mid stop) :
    Meets (x >>= f) s mid stop := by
  unfold Meets at hx
  cases h : x s with
  | ok a s' =>
    have := hf a s' h (by simpa only [h] using hx)
    simpa only [Meets, proc_bind_of_ok h] using this
  | error e s' =>
    simp only [h] at hx
    simpa only [Meets, proc_bind_of_error h] using hx

theorem meets_pure (h : post a s) : Meets (pure a) s post stop := h

theorem meets_throw (h : stop e s) : Meets (throw e) s post stop := h

theorem meets_get_bind {f : σ → EStateM ε σ β} (h : Meets (f s) s mid stop) :
    Meets (get >>= f) s mid stop := h

theorem meets_modify {g : σ → σ} {post : PUnit → σ → Prop} (h : post ⟨⟩ (g s)) :
    Meets (modify g) s post stop := h

theorem meets_modify_bind {g : σ → σ} {f : PUnit → EStateM ε σ β}
    (h : Meets (f ⟨⟩) (g s) mid stop) : Meets (modify g >>= f) s mid stop := h

end

-- ---------------------------------------------------------------------------
-- Invariants
-- ---------------------------------------------------------------------------

/-- From a state with the invariant the procedure leads to one, whether or not it
fails, and what it returns is good. -/
def Keeps (inv : σ → Prop) (good : α → Prop) (x : EStateM ε σ α) : Prop :=
  ∀ s, inv s → Meets x s (fun a s' => good a ∧ inv s') (fun _ s' => inv s')

section
variable {inv : σ → Prop} {good : α → Prop} {good' : β → Prop}

theorem Keeps.of_ok (hx : Keeps inv good x) (hs : inv s) (h : x s = .ok a s') :
    good a ∧ inv s' :=
  (hx s hs).of_ok h

theorem Keeps.bind {f : α → EStateM ε σ β} (hx : Keeps inv good x)
    (hf : ∀ a, good a → Keeps inv good' (f a)) : Keeps inv good' (x >>= f) := by
  intro s hs
  refine (hx s hs).bind ?_
  rintro a s' - ⟨ha, hs'⟩
  exact hf a ha s' hs'

theorem keeps_pure (h : good a) : Keeps inv good (pure a : EStateM ε σ α) :=
  fun _ hs => meets_pure ⟨h, hs⟩

theorem keeps_throw (e : ε) : Keeps inv good (throw e : EStateM ε σ α) := fun _ hs => meets_throw hs

theorem keeps_get_bind {f : σ → EStateM ε σ β} (h : ∀ s, inv s → Keeps inv good' (f s)) :
    Keeps inv good' (get >>= f) :=
  fun s hs => meets_get_bind (h s hs s hs)

theorem keeps_modify {g : σ → σ} {good : PUnit → Prop} (hg : ∀ s, inv s → inv (g s))
    (h : good ⟨⟩) : Keeps inv good (modify g : EStateM ε σ PUnit) :=
  fun s hs => meets_modify ⟨h, hg s hs⟩

theorem keeps_modify_bind {g : σ → σ} {f : PUnit → EStateM ε σ β} (hg : ∀ s, inv s → inv (g s))
    (h : Keeps inv good' (f ⟨⟩)) : Keeps inv good' (modify g >>= f) :=
  fun s hs => meets_modify_bind (h _ (hg s hs))

end

end Library
