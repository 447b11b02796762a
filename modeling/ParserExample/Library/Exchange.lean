import ParserExample.Library.Proc

/-!
# Procedures on another state

A procedure does not depend on what it does not read. An `Exchange` puts something
else into its state: behind the part of an input that it has read so far (`unread`),
or in a place that it never looks at (`Exchange.replacing`). It allows two
procedures if the second one does, after the exchange, what the first one does, as
long as the first one does not get to the part exchanged and is not lost, as a
procedure is that runs out of fuel.
-/

namespace Library

universe u

structure Exchange (ε σ : Type u) where
  swap : σ → σ
  /-- The part that `swap` exchanges has not been read. -/
  unread : σ → Prop
  /-- The second state is reached from the first one. -/
  after : σ → σ → Prop
  lost : ε → σ → Prop
  refl : ∀ s, after s s
  trans : ∀ {s s' s''}, after s s' → after s' s'' → after s s''
  unread_of_after : ∀ {s s'}, after s s' → unread s' → unread s

namespace Exchange

variable {ε σ α β : Type u} (E : Exchange ε σ)

/-- Nothing of what is exchanged is ever read. -/
def replacing (swap : σ → σ) (lost : ε → σ → Prop) : Exchange ε σ where
  swap
  unread _ := True
  after _ _ := True
  lost
  refl _ := trivial
  trans _ _ := trivial
  unread_of_after _ _ := trivial

def AllowsAt (x y : EStateM ε σ α) (s : σ) : Prop :=
  match x s with
  | .ok a s' => E.after s s' ∧ (E.unread s' → y (E.swap s) = .ok a (E.swap s'))
  | .error e s' =>
    E.after s s' ∧ (¬ E.lost e s' → E.unread s' → y (E.swap s) = .error e (E.swap s'))

def Allows (x y : EStateM ε σ α) : Prop := ∀ s, E.AllowsAt x y s

variable {E} {x y : EStateM ε σ α} {f g : α → EStateM ε σ β} {s s' : σ} {a : α} {e : ε}

theorem AllowsAt.of_ok (h : E.AllowsAt x y s) (hx : x s = .ok a s') :
    E.after s s' ∧ (E.unread s' → y (E.swap s) = .ok a (E.swap s')) := by
  simpa only [AllowsAt, hx] using h

theorem AllowsAt.of_error (h : E.AllowsAt x y s) (hx : x s = .error e s') :
    E.after s s' ∧ (¬ E.lost e s' → E.unread s' → y (E.swap s) = .error e (E.swap s')) := by
  simpa only [AllowsAt, hx] using h

/-- Steps that two procedures take in the same way if nothing exchanged is read. -/
theorem AllowsAt.of_steps {x' y' : EStateM ε σ α} (h : E.AllowsAt x' y' s')
    (hx : x s = x' s') (hafter : E.after s s')
    (hy : E.unread s' → y (E.swap s) = y' (E.swap s')) : E.AllowsAt x y s := by
  rw [AllowsAt, hx]
  cases h' : x' s' with
  | ok a s'' =>
    obtain ⟨hafter', hrest⟩ := h.of_ok h'
    refine ⟨E.trans hafter hafter', fun hu => ?_⟩
    rw [hy (E.unread_of_after hafter' hu), hrest hu]
  | error e s'' =>
    obtain ⟨hafter', hrest⟩ := h.of_error h'
    refine ⟨E.trans hafter hafter', fun hl hu => ?_⟩
    rw [hy (E.unread_of_after hafter' hu), hrest hl hu]

theorem AllowsAt.bind (hx : E.AllowsAt x y s)
    (hf : ∀ a s', x s = .ok a s' → E.AllowsAt (f a) (g a) s') :
    E.AllowsAt (x >>= f) (y >>= g) s := by
  cases h : x s with
  | error e s' =>
    obtain ⟨hafter, hy⟩ := hx.of_error h
    rw [AllowsAt, proc_bind_of_error h]
    exact ⟨hafter, fun hl hu => proc_bind_of_error (hy hl hu)⟩
  | ok a s' =>
    obtain ⟨hafter, hy⟩ := hx.of_ok h
    have hrest := hf a s' h
    rw [AllowsAt, proc_bind_of_ok h]
    cases h' : f a s' with
    | ok b s'' =>
      obtain ⟨hafter', hg⟩ := hrest.of_ok h'
      refine ⟨E.trans hafter hafter', fun hu => ?_⟩
      rw [proc_bind_of_ok (hy (E.unread_of_after hafter' hu)), hg hu]
    | error e s'' =>
      obtain ⟨hafter', hg⟩ := hrest.of_error h'
      refine ⟨E.trans hafter hafter', fun hl hu => ?_⟩
      rw [proc_bind_of_ok (hy (E.unread_of_after hafter' hu)), hg hl hu]

theorem Allows.bind (hx : E.Allows x y) (hf : ∀ a, E.Allows (f a) (g a)) :
    E.Allows (x >>= f) (y >>= g) :=
  fun s => (hx s).bind fun a s' _ => hf a s'

theorem allows_pure (a : α) : E.Allows (pure a) (pure a) := fun s => ⟨E.refl s, fun _ => rfl⟩

theorem allows_throw (e : ε) : E.Allows (throw e : EStateM ε σ α) (throw e) :=
  fun s => ⟨E.refl s, fun _ _ => rfl⟩

theorem allows_throw_lost (he : ∀ s, E.lost e s) (y : EStateM ε σ α) : E.Allows (throw e) y :=
  fun s => ⟨E.refl s, fun hl => absurd (he s) hl⟩

theorem allows_get_bind {f g : σ → EStateM ε σ β} (hget : ∀ s, g (E.swap s) = g s)
    (hf : ∀ s, E.Allows (f s) (g s)) : E.Allows (get >>= f) (get >>= g) := by
  intro s
  have h := hf s s
  simp only [AllowsAt, proc_get_bind, hget]
  exact h

theorem allows_modify {g : σ → σ} (hg : ∀ s, g (E.swap s) = E.swap (g s))
    (hafter : ∀ s, E.after s (g s)) : E.Allows (modify g) (modify g) := by
  intro s
  refine ⟨hafter s, fun _ => ?_⟩
  rw [proc_modify, hg]

theorem allows_modify_bind {g : σ → σ} {f f' : PUnit → EStateM ε σ β}
    (hg : ∀ s, g (E.swap s) = E.swap (g s)) (hafter : ∀ s, E.after s (g s))
    (hf : E.Allows (f ⟨⟩) (f' ⟨⟩)) : E.Allows (modify g >>= f) (modify g >>= f') :=
  (allows_modify hg hafter).bind fun _ => hf

end Exchange

end Library
