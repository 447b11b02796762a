import ParserExample.Library.Except
import ParserExample.Library.Term

/-!
# Postfix code and the stack it needs

`Term.code` is a term in postfix order; `Machine.exec` runs postfix code on a
stack of bounded height. Running the code of a term pushes the value of the
term (`Machine.exec_code`), and `Term.height` is exactly the height the stack
reaches on the way (`Term.safe_code`, `Term.exists_height`). Two terms with the
same code are the same (`Term.code_injective`).
-/

namespace Library

universe u v w y z

inductive Instr (β : Type u) (υ : Type v) (α : Type w)
  | push (a : α)
  | un (f : υ)
  | bin (g : β)
  deriving DecidableEq, Repr

variable {β : Type u} {υ : Type v} {α : Type w} {ε : Type y} {V : Type z}

structure Meaning (ε : Type y) (V : Type z) (β : Type u) (υ : Type v) (α : Type w) where
  leaf : α → Except ε V
  un : υ → V → Except ε V
  bin : β → V → V → Except ε V

def Term.eval (m : Meaning ε V β υ α) : Term β υ α → Except ε V
  | .leaf a => m.leaf a
  | .un f t => t.eval m >>= m.un f
  | .bin g l r => do
    let x ← l.eval m
    let y ← r.eval m
    m.bin g x y

def Term.code : Term β υ α → List (Instr β υ α)
  | .leaf a => [.push a]
  | .un f t => t.code ++ [.un f]
  | .bin g l r => l.code ++ r.code ++ [.bin g]

theorem Term.push_mem_code {t : Term β υ α} {a : α} : .push a ∈ t.code ↔ a ∈ t.leaves := by
  induction t with
  | leaf b => simp [Term.code]
  | un f t ih => simp [Term.code, ih]
  | bin g l r ihl ihr => simp [Term.code, ihl, ihr]

theorem Term.length_code (t : Term β υ α) : t.code.length = t.size := by
  induction t with
  | leaf a => rfl
  | un f t ih => simp [Term.code, ih]
  | bin g l r ihl ihr => simp [Term.code, ihl, ihr, Nat.add_assoc]

-- ---------------------------------------------------------------------------
-- Stack heights
-- ---------------------------------------------------------------------------

def Instr.need : Instr β υ α → Nat
  | .push _ => 0
  | .un _ => 1
  | .bin _ => 2

def Instr.after : Instr β υ α → Nat → Nat
  | .push _, h => h + 1
  | .un _, h => h
  | .bin _, h => h - 1

def after : List (Instr β υ α) → Nat → Nat
  | [], h => h
  | i :: is, h => after is (i.after h)

/-- The greatest height the stack reaches while a term is computed on top of
`h` values. -/
def Term.height : Term β υ α → Nat → Nat
  | .leaf _, h => h + 1
  | .un _ t, h => t.height h
  | .bin _ l r, h => max (l.height h) (r.height (h + 1))

/-- From height `h`, no instruction digs below `base` values or climbs above
`limit`. -/
def Safe (base limit : Nat) : List (Instr β υ α) → Nat → Prop
  | [], _ => True
  | i :: is, h => base + i.need ≤ h ∧ i.after h ≤ limit ∧ Safe base limit is (i.after h)

section
variable {base limit h : Nat} {is js : List (Instr β υ α)} {i : Instr β υ α}

@[simp] theorem after_append : after (is ++ js) h = after js (after is h) := by
  induction is generalizing h with
  | nil => rfl
  | cons i is ih => exact ih

@[simp] theorem Term.after_code (t : Term β υ α) : after t.code h = h + 1 := by
  induction t generalizing h with
  | leaf a => rfl
  | un f t ih => simp [Term.code, ih, after, Instr.after]
  | bin g l r ihl ihr => simp [Term.code, ihl, ihr, after, Instr.after]

theorem safe_append : Safe base limit (is ++ js) h ↔
    Safe base limit is h ∧ Safe base limit js (after is h) := by
  induction is generalizing h with
  | nil => simp [Safe, after]
  | cons i is ih => simp [Safe, after, ih, and_assoc]

theorem Safe.mono {base' : Nat} (hs : Safe base limit is h) (hb : base' ≤ base) :
    Safe base' limit is h := by
  induction is generalizing h with
  | nil => trivial
  | cons i is ih => exact ⟨by have := hs.1; omega, hs.2.1, ih hs.2.2⟩

theorem Safe.at (hs : Safe base limit (is ++ i :: js) h) :
    base + i.need ≤ after is h ∧ i.after (after is h) ≤ limit :=
  have hi := (safe_append.mp hs).2
  ⟨hi.1, hi.2.1⟩

theorem Safe.after_le (hs : Safe base limit (is ++ js) h) (hh : h ≤ limit) :
    after is h ≤ limit := by
  induction is generalizing h with
  | nil => exact hh
  | cons i is ih => exact ih hs.2.2 hs.2.1

theorem Term.lt_height (t : Term β υ α) (h : Nat) : h < t.height h := by
  induction t generalizing h with
  | leaf a => simp [Term.height]
  | un f t ih => exact ih h
  | bin g l r ihl ihr => exact lt_max_of_lt_left (ihl h)

theorem Term.height_mono (t : Term β υ α) {h h' : Nat} (hle : h ≤ h') :
    t.height h ≤ t.height h' := by
  induction t generalizing h h' with
  | leaf a => exact Nat.succ_le_succ hle
  | un f t ih => exact ih hle
  | bin g l r ihl ihr => exact max_le_max (ihl hle) (ihr (Nat.succ_le_succ hle))

theorem Term.height_le (t : Term β υ α) (h : Nat) : t.height h ≤ h + t.depth := by
  induction t generalizing h with
  | leaf a => simp [Term.height]
  | un f t ih => exact (ih h).trans (by simp)
  | bin g l r ihl ihr =>
    have hl := ihl h
    have hr := ihr (h + 1)
    simp only [Term.height, Term.depth]
    omega

/-- Every value on the stack is that of another leaf. -/
theorem Term.height_le_leaves (t : Term β υ α) (h : Nat) :
    t.height h ≤ h + t.leaves.length := by
  induction t generalizing h with
  | leaf a => exact le_rfl
  | un f t ih => exact ih h
  | bin g l r ihl ihr =>
    have hl := ihl h
    have hr := ihr (h + 1)
    have hpos := l.leaves_length_pos
    simp only [Term.height, Term.leaves, List.length_append]
    omega

/-- Computing a term never touches the values it started on. -/
theorem Term.safe_code (t : Term β υ α) (h limit : Nat) (hl : t.height h ≤ limit) :
    Safe h limit t.code h := by
  induction t generalizing h with
  | leaf a => exact ⟨by simp [Instr.need], hl, trivial⟩
  | un f t ih =>
    have hlt := t.lt_height h
    have hlim : h + 1 ≤ limit := hlt.trans_le hl
    exact safe_append.mpr ⟨ih h hl, by simp [Safe, Instr.need, Instr.after, hlim]⟩
  | bin g l r ihl ihr =>
    have hlt := l.lt_height h
    simp only [Term.height, max_le_iff] at hl
    simp only [Term.code, safe_append, after_append, Term.after_code]
    refine ⟨⟨ihl h hl.1, (ihr (h + 1) hl.2).mono (by omega)⟩, ?_⟩
    have hlim : h + 1 ≤ limit := hlt.trans_le hl.1
    simp [Safe, Instr.need, Instr.after, hlim]

theorem Term.exists_height (t : Term β υ α) (h : Nat) :
    ∃ is js, t.code = is ++ js ∧ after is h = t.height h := by
  induction t generalizing h with
  | leaf a => exact ⟨[.push a], [], rfl, rfl⟩
  | un f t ih =>
    obtain ⟨is, js, hc, hi⟩ := ih h
    exact ⟨is, js ++ [.un f], by simp [Term.code, hc], hi⟩
  | bin g l r ihl ihr =>
    obtain hm | hm := le_total (l.height h) (r.height (h + 1))
    · obtain ⟨is, js, hc, hi⟩ := ihr (h + 1)
      exact ⟨l.code ++ is, js ++ [.bin g], by simp [Term.code, hc], by simp [hi, Term.height, hm]⟩
    · obtain ⟨is, js, hc, hi⟩ := ihl h
      exact ⟨is, js ++ (r.code ++ [.bin g]), by simp [Term.code, hc], by simp [hi, Term.height, hm]⟩

end

-- ---------------------------------------------------------------------------
-- The stack machine
-- ---------------------------------------------------------------------------

/-- A stack machine whose stack holds at most `limit` values. -/
structure Machine (ε : Type y) (V : Type z) (β : Type u) (υ : Type v) (α : Type w)
    extends Meaning ε V β υ α where
  limit : Nat
  underflow : ε
  overflow : ε

namespace Machine

variable (m : Machine ε V β υ α)

def step : Instr β υ α → List V → Except ε (List V)
  | .push a, st => do
    let v ← m.leaf a
    if st.length < m.limit then pure (v :: st) else throw m.overflow
  | .un f, v :: st => do
    let w ← m.un f v
    pure (w :: st)
  | .bin g, y :: x :: st => do
    let z ← m.bin g x y
    pure (z :: st)
  | _, _ => throw m.underflow

def exec : List (Instr β υ α) → List V → Except ε (List V)
  | [], st => pure st
  | i :: is, st => m.step i st >>= exec is

variable {m} {is js : List (Instr β υ α)} {i : Instr β υ α} {st st' : List V}

theorem exec_singleton : m.exec [i] st = m.step i st := bind_pure (m.step i st)

theorem exec_append : m.exec (is ++ js) st = m.exec is st >>= m.exec js := by
  induction is generalizing st with
  | nil => rfl
  | cons i is ih =>
    simp only [List.cons_append, exec]
    cases m.step i st with
    | error e => rfl
    | ok st' => exact ih

theorem length_step (hs : m.step i st = .ok st') : st'.length = i.after st.length := by
  cases i with
  | push a =>
    obtain ⟨v, -, hs⟩ := bind_ok.mp hs
    split at hs
    · obtain rfl : v :: st = st' := by simpa using hs
      rfl
    · simp at hs
  | un f =>
    cases st with
    | nil => simp [step] at hs
    | cons v st =>
      obtain ⟨w, -, hs⟩ := bind_ok.mp hs
      obtain rfl : w :: st = st' := by simpa using hs
      rfl
  | bin g =>
    match st with
    | [] | [_] => simp [step] at hs
    | y :: x :: st =>
      obtain ⟨z, -, hs⟩ := bind_ok.mp hs
      obtain rfl : z :: st = st' := by simpa using hs
      rfl

theorem length_exec (hs : m.exec is st = .ok st') : st'.length = after is st.length := by
  induction is generalizing st with
  | nil =>
    obtain rfl : st = st' := by simpa [exec] using hs
    rfl
  | cons i is ih =>
    obtain ⟨st₁, hi, hs⟩ := bind_ok.mp hs
    rw [after, ← length_step hi]
    exact ih hs

/-- Running the code of a term pushes the value of the term, or fails as the
term does. -/
theorem exec_code (m : Machine ε V β υ α) (st : List V) (t : Term β υ α)
    (hl : t.height st.length ≤ m.limit) :
    m.exec t.code st = (· :: st) <$> t.eval m.toMeaning := by
  induction t generalizing st with
  | leaf a =>
    have hlt : st.length < m.limit := hl
    simp only [Term.code, exec, step, Term.eval]
    cases m.leaf a <;> simp [hlt]
  | un f t ih =>
    simp only [Term.code, exec_append, ih st hl, Term.eval]
    cases t.eval m.toMeaning with
    | error e => rfl
    | ok v =>
      simp only [map_ok, ok_bind, exec, step]
      cases m.un f v <;> rfl
  | bin g l r ihl ihr =>
    simp only [Term.height, max_le_iff] at hl
    simp only [Term.code, exec_append, ihl st hl.1, Term.eval]
    cases l.eval m.toMeaning with
    | error e => rfl
    | ok x =>
      simp only [map_ok, ok_bind, ihr (x :: st) hl.2]
      cases r.eval m.toMeaning with
      | error e => rfl
      | ok y =>
        simp only [map_ok, ok_bind, exec, step]
        cases m.bin g x y <;> rfl

end Machine

-- ---------------------------------------------------------------------------
-- Putting terms together
-- ---------------------------------------------------------------------------

/-- The machine whose values are the terms themselves. -/
def rebuild (limit : Nat) : Machine PUnit.{y + 1} (Term β υ α) β υ α where
  leaf a := .ok (.leaf a)
  un f t := .ok (.un f t)
  bin g l r := .ok (.bin g l r)
  limit
  underflow := ⟨⟩
  overflow := ⟨⟩

theorem Term.eval_rebuild (limit : Nat) (t : Term β υ α) :
    t.eval (rebuild.{u, v, w, y} limit).toMeaning = .ok t := by
  induction t with
  | leaf a => rfl
  | un f t ih => rw [Term.eval, ih]; rfl
  | bin g l r ihl ihr => rw [Term.eval, ihl, ihr]; rfl

/-- Postfix code needs no parentheses. -/
theorem Term.code_injective : Function.Injective (Term.code : Term β υ α → List (Instr β υ α)) := by
  intro t t' h
  have ht := Machine.exec_code (rebuild.{u, v, w, 0} (max (t.height 0) (t'.height 0))) [] t
    (le_max_left _ _)
  have ht' := Machine.exec_code (rebuild.{u, v, w, 0} (max (t.height 0) (t'.height 0))) [] t'
    (le_max_right _ _)
  rw [h, ht', Term.eval_rebuild, Term.eval_rebuild] at ht
  simpa using ht.symm

end Library
