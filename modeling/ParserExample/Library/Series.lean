import Mathlib

/-!
# Series

A series `a {op a}` of a grammar, and when the words that it yields determine it:
every element is determined by the words it begins with, up to a word that cannot
continue it, and an operator is such a word.
-/

namespace Library

universe u v w

structure Series (ο : Type u) (α : Type v) where
  first : α
  rest : List (ο × α)

namespace Series

variable {ο : Type u} {α : Type v} {ω : Type w}

def snoc (c : Series ο α) (op : ο) (a : α) : Series ο α := ⟨c.first, c.rest ++ [(op, a)]⟩

def elements (c : Series ο α) : List α := c.first :: c.rest.map Prod.snd

@[simp] theorem elements_snoc (c : Series ο α) (op : ο) (a : α) :
    (c.snoc op a).elements = c.elements ++ [a] := by
  simp [elements, snoc]

section
variable (word : ο → ω) (yield : α → List ω)

def tailYield (rest : List (ο × α)) : List ω := rest.flatMap fun p => word p.1 :: yield p.2

def seriesYield (c : Series ο α) : List ω := yield c.first ++ tailYield word yield c.rest

@[simp] theorem seriesYield_single (a : α) : seriesYield word yield ⟨a, []⟩ = yield a := by
  simp [seriesYield, tailYield]

@[simp] theorem seriesYield_snoc (c : Series ο α) (op : ο) (a : α) :
    seriesYield word yield (c.snoc op a) = seriesYield word yield c ++ word op :: yield a := by
  simp [seriesYield, tailYield, snoc]

end

/-- The words do not begin with one that continues what is in front of them. -/
def Stops (continues : ω → Prop) (ws : List ω) : Prop := ∀ w ∈ ws.head?, ¬ continues w

/-- What is read of some words in front of others is determined by all of them. -/
def Determined (continues : ω → Prop) (yield : α → List ω) (a : α) : Prop :=
  ∀ a' ws ws', Stops continues ws → Stops continues ws' → yield a ++ ws = yield a' ++ ws' →
    a = a' ∧ ws = ws'

variable {word : ο → ω} {yield : α → List ω} {continues : ω → Prop}

theorem stops_tail (hop : ∀ op, ¬ continues (word op)) {ws : List ω} (hws : Stops continues ws)
    (rest : List (ο × α)) : Stops continues (tailYield word yield rest ++ ws) := by
  cases rest with
  | nil => exact hws
  | cons p rest =>
    intro w hw
    obtain rfl : word p.1 = w := by simpa [tailYield] using hw
    exact hop p.1

theorem Stops.mono {more : ω → Prop} {ws : List ω} (h : Stops more ws)
    (hle : ∀ w, continues w → more w) : Stops continues ws :=
  fun w hw hc => h w hw (hle w hc)

theorem tail_determined (hword : Function.Injective word) (hop : ∀ op, ¬ continues (word op))
    {rest : List (ο × α)} (hrest : ∀ p ∈ rest, Determined continues yield p.2)
    {rest' : List (ο × α)} {ws ws' : List ω}
    (hws : Stops (fun w => continues w ∨ ∃ op, word op = w) ws)
    (hws' : Stops (fun w => continues w ∨ ∃ op, word op = w) ws')
    (h : tailYield word yield rest ++ ws = tailYield word yield rest' ++ ws') :
    rest = rest' ∧ ws = ws' := by
  induction rest generalizing rest' with
  | nil =>
    cases rest' with
    | nil => exact ⟨rfl, h⟩
    | cons p rest' =>
      have hhead : word p.1 ∈ ws.head? := by
        rw [show ws = _ from h]
        simp [tailYield]
      exact absurd (.inr ⟨p.1, rfl⟩) (hws _ hhead)
  | cons p rest ih =>
    cases rest' with
    | nil =>
      have hhead : word p.1 ∈ ws'.head? := by
        rw [show ws' = _ from h.symm]
        simp [tailYield]
      exact absurd (.inr ⟨p.1, rfl⟩) (hws' _ hhead)
    | cons p' rest' =>
      obtain ⟨op, a⟩ := p
      obtain ⟨op', a'⟩ := p'
      simp only [tailYield, List.flatMap_cons, List.cons_append, List.append_assoc,
        List.cons.injEq] at h
      obtain ⟨hopeq, helems⟩ := h
      obtain rfl := hword hopeq
      obtain ⟨rfl, htail⟩ := hrest (op, a) List.mem_cons_self a' _ _
        (stops_tail hop (hws.mono fun _ => .inl) rest)
        (stops_tail hop (hws'.mono fun _ => .inl) rest') helems
      obtain ⟨rfl, hwords⟩ := ih (fun p hp => hrest p (.tail _ hp)) htail
      exact ⟨rfl, hwords⟩

/-- A series is determined by its words up to one that continues neither an element
nor the series. -/
theorem determined (hword : Function.Injective word) (hop : ∀ op, ¬ continues (word op))
    {c : Series ο α} (hc : ∀ a ∈ c.elements, Determined continues yield a) :
    Determined (fun w => continues w ∨ ∃ op, word op = w) (seriesYield word yield) c := by
  intro c' ws ws' hws hws' h
  obtain ⟨first, rest⟩ := c
  obtain ⟨first', rest'⟩ := c'
  simp only [seriesYield, List.append_assoc] at h
  obtain ⟨rfl, htail⟩ := hc first List.mem_cons_self first' _ _
    (stops_tail hop (hws.mono fun _ => .inl) rest)
    (stops_tail hop (hws'.mono fun _ => .inl) rest') h
  have hrest : ∀ p ∈ rest, Determined continues yield p.2 := fun p hp =>
    hc p.2 (.tail _ (List.mem_map_of_mem hp))
  obtain ⟨rfl, hwords⟩ := tail_determined hword hop hrest hws hws' htail
  exact ⟨rfl, hwords⟩

end Series

end Library
