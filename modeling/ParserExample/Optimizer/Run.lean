import ParserExample.Optimizer.Rules

/-!
# Runs of the optimizer

A run of the loop on an expression, and of the recursion that prepares its
operands, as derivations from the rules. The list of a run holds the
expressions at which a pass of the loop begins. What a run computes keeps the
value as long as no pass drops a negation that matters (`RunRecursive.eval`),
and no rule applies to it any more (`RunRecursive.normal`).
-/

namespace ParserExample

open Library
open ParserExample.Expr (int var inv)

/-- `Run e visited result`: the loop of `node_optimize`. -/
inductive Run : Expr → List Expr → Except Fault Expr → Prop
  | stop {e} (h : ¬ Reducible e) : Run e [e] (.ok e)
  | trap {e} (h : Traps e) : Run e [e] (.error .division)
  | done {e e'} (h : Done e e') : Run e [e] (.ok e')
  | again {e e' vs result} (h : Again e e') (hr : Run e' vs result) : Run e (e :: vs) result
  | nested {e g l l' r us vs result} (h : Nested e g l r) (hl : Run l us (.ok l'))
      (hr : Run (.bin g l' r) vs result) : Run e (e :: (us ++ vs)) result
  | nestedError {e g l r us f} (h : Nested e g l r) (hl : Run l us (.error f)) :
      Run e (e :: us) (.error f)

/-- `RunRecursive e visited result`: the recursion of `node_optimize_recursive`. -/
inductive RunRecursive : Expr → List Expr → Except Fault Expr → Prop
  | leaf {a vs result} (h : Run (.leaf a) vs result) : RunRecursive (.leaf a) vs result
  | un {f e e' us vs result} (he : RunRecursive e us (.ok e')) (h : Run (.un f e') vs result) :
      RunRecursive (.un f e) (us ++ vs) result
  | unError {f e us fault} (he : RunRecursive e us (.error fault)) :
      RunRecursive (.un f e) us (.error fault)
  | bin {g l l' r r' us vs ws result} (hl : RunRecursive l us (.ok l'))
      (hr : RunRecursive r vs (.ok r')) (h : Run (.bin g l' r') ws result) :
      RunRecursive (.bin g l r) (us ++ (vs ++ ws)) result
  | leftError {g l r us fault} (hl : RunRecursive l us (.error fault)) :
      RunRecursive (.bin g l r) us (.error fault)
  | rightError {g l l' r us vs fault} (hl : RunRecursive l us (.ok l'))
      (hr : RunRecursive r vs (.error fault)) : RunRecursive (.bin g l r) (us ++ vs) (.error fault)

variable {e e' : Expr} {visited : List Expr} {result : Except Fault Expr} {args : List Long}
  {value : Long} {fault : Fault}

-- ---------------------------------------------------------------------------
-- Failures, relations and normal forms
-- ---------------------------------------------------------------------------

theorem Run.error (h : Run e visited (.error fault)) : fault = .division := by
  generalize hr : Except.error fault = result at h
  induction h with
  | stop | done => cases hr
  | trap => exact Except.error.inj hr
  | again _ _ ih => exact ih hr
  | nested _ _ _ _ ih => exact ih hr
  | nestedError _ _ ih => exact ih hr

theorem Run.exists_traps (h : Run e visited (.error fault)) : ∃ x ∈ visited, Traps x := by
  generalize hr : Except.error fault = result at h
  induction h with
  | stop | done => cases hr
  | trap h => exact ⟨_, by simp, h⟩
  | again _ _ ih | nestedError _ _ ih =>
    obtain ⟨x, hx, ht⟩ := ih hr
    exact ⟨x, by simp [hx], ht⟩
  | nested _ _ _ _ ih =>
    obtain ⟨x, hx, ht⟩ := ih hr
    exact ⟨x, by simp [hx], ht⟩

/-- A relation between what becomes of an expression and the expression: a preorder
that every rule respects, at any node of a tree. -/
structure Respected (R : Expr → Expr → Prop) : Prop where
  refl : ∀ e, R e e
  trans : ∀ {e₁ e₂ e₃}, R e₁ e₂ → R e₂ e₃ → R e₁ e₃
  un : ∀ {f e' e}, R e' e → R (.un f e') (.un f e)
  bin : ∀ {g l' l r' r}, R l' l → R r' r → R (.bin g l' r') (.bin g l r)
  done : ∀ {e e'}, Done e e' → R e' e
  again : ∀ {e e'}, Again e e' → R e' e
  nested : ∀ {e g l r}, Nested e g l r → R (.bin g l r) e

theorem varsIn_respected : Respected VarsIn where
  refl := VarsIn.refl
  trans := VarsIn.trans
  un := VarsIn.un
  bin := VarsIn.bin
  done := Done.varsIn
  again := Again.varsIn
  nested := Nested.varsIn

theorem Run.respects {R : Expr → Expr → Prop} (h : Run e visited (.ok e')) (hR : Respected R) :
    R e' e := by
  generalize hr : Except.ok e' = result at h
  induction h generalizing e' with
  | stop => obtain rfl := Except.ok.inj hr; exact hR.refl _
  | trap | nestedError => cases hr
  | done h => obtain rfl := Except.ok.inj hr; exact hR.done h
  | again h _ ih => exact hR.trans (ih hr) (hR.again h)
  | nested h _ _ ihl ih =>
    exact hR.trans (ih hr) (hR.trans (hR.bin (ihl rfl) (hR.refl _)) (hR.nested h))

/-- The operands of every node a run meets are normal, so it stops at a normal
expression. -/
theorem Run.normal (h : Run e visited (.ok e')) (hc : ChildrenNormal e) : Normal e' := by
  generalize hr : Except.ok e' = result at h
  induction h generalizing e' with
  | stop h => obtain rfl := Except.ok.inj hr; exact normal_iff.mpr ⟨hc, h⟩
  | trap | nestedError => cases hr
  | done h => obtain rfl := Except.ok.inj hr; exact h.normal hc
  | again h _ ih => exact ih (h.childrenNormal hc) hr
  | nested h _ _ ihl ih =>
    obtain ⟨hl, hn⟩ := h.childrenNormal hc
    exact ih ⟨ihl hl rfl, hn⟩ hr

theorem Run.visited_childrenNormal (h : Run e visited result) (hc : ChildrenNormal e) :
    ∀ x ∈ visited, ChildrenNormal x := by
  induction h with
  | stop | trap | done => simpa using hc
  | again h _ ih => exact List.forall_mem_cons.mpr ⟨hc, ih (h.childrenNormal hc)⟩
  | nested h hl _ ihl ih =>
    obtain ⟨hcl, hn⟩ := h.childrenNormal hc
    exact List.forall_mem_cons.mpr
      ⟨hc, List.forall_mem_append.mpr ⟨ihl hcl, ih ⟨hl.normal hcl, hn⟩⟩⟩
  | nestedError h _ ihl =>
    exact List.forall_mem_cons.mpr ⟨hc, ihl (h.childrenNormal hc).1⟩

theorem RunRecursive.error (h : RunRecursive e visited (.error fault)) : fault = .division := by
  generalize hr : Except.error fault = result at h
  induction h with
  | leaf h => exact (hr ▸ h).error
  | un _ h => exact (hr ▸ h).error
  | bin _ _ h => exact (hr ▸ h).error
  | unError _ ih => exact ih hr
  | leftError _ ih => exact ih hr
  | rightError _ _ _ ih => exact ih hr

theorem RunRecursive.exists_traps (h : RunRecursive e visited (.error fault)) :
    ∃ x ∈ visited, Traps x := by
  generalize hr : Except.error fault = result at h
  induction h with
  | leaf h => exact (hr ▸ h).exists_traps
  | unError _ ih | leftError _ ih => exact ih hr
  | un _ h | bin _ _ h =>
    obtain ⟨x, hx, ht⟩ := (hr ▸ h).exists_traps
    exact ⟨x, by simp [hx], ht⟩
  | rightError _ _ _ ih =>
    obtain ⟨x, hx, ht⟩ := ih hr
    exact ⟨x, by simp [hx], ht⟩

theorem RunRecursive.respects {R : Expr → Expr → Prop} (h : RunRecursive e visited (.ok e'))
    (hR : Respected R) : R e' e := by
  generalize hr : Except.ok e' = result at h
  induction h generalizing e' with
  | leaf h => exact (hr ▸ h).respects hR
  | un _ h ih => exact hR.trans ((hr ▸ h).respects hR) (hR.un (ih rfl))
  | bin _ _ h ihl ihr => exact hR.trans ((hr ▸ h).respects hR) (hR.bin (ihl rfl) (ihr rfl))
  | unError | leftError | rightError => cases hr

theorem RunRecursive.normal (h : RunRecursive e visited (.ok e')) : Normal e' := by
  generalize hr : Except.ok e' = result at h
  induction h generalizing e' with
  | leaf h => exact (hr ▸ h).normal trivial
  | un _ h ih => exact (hr ▸ h).normal (ih rfl)
  | bin _ _ h ihl ihr => exact (hr ▸ h).normal ⟨ihl rfl, ihr rfl⟩
  | unError | leftError | rightError => cases hr

theorem RunRecursive.visited_childrenNormal (h : RunRecursive e visited result) :
    ∀ x ∈ visited, ChildrenNormal x := by
  induction h with
  | leaf h => exact h.visited_childrenNormal trivial
  | un he h ih => exact List.forall_mem_append.mpr ⟨ih, h.visited_childrenNormal he.normal⟩
  | unError _ ih | leftError _ ih => exact ih
  | bin hl hr h ihl ihr =>
    exact List.forall_mem_append.mpr
      ⟨ihl, List.forall_mem_append.mpr ⟨ihr, h.visited_childrenNormal ⟨hl.normal, hr.normal⟩⟩⟩
  | rightError _ _ ihl ihr => exact List.forall_mem_append.mpr ⟨ihl, ihr⟩

-- ---------------------------------------------------------------------------
-- Values
-- ---------------------------------------------------------------------------

/-- A pass on this expression drops a negation that changes its value. -/
def SignLost (args : List Long) (e : Expr) : Prop :=
  (∃ x, e = inv (inv x)) ∧ ∃ value, e.eval (meaning args) = .ok value ∧ -value ≠ value

theorem eval_bin_ok {g : BinaryType} {l r : Expr}
    (h : (Term.bin g l r).eval (meaning args) = .ok value) :
    ∃ x y, l.eval (meaning args) = .ok x ∧ r.eval (meaning args) = .ok y ∧
      g.apply x y = .ok value := by
  obtain ⟨x, hx, h⟩ := bind_ok.mp h
  obtain ⟨y, hy, h⟩ := bind_ok.mp h
  exact ⟨x, y, hx, hy, h⟩

theorem Done.eval_of_not_signLost (h : Done e e') (hs : ¬ SignLost args e)
    (hv : e.eval (meaning args) = .ok value) : e'.eval (meaning args) = .ok value := by
  by_cases hd : DropsSign e e'
  · refine (hd.eval hv).mpr ?_
    obtain ⟨x, rfl, -⟩ := hd
    by_contra hne
    exact hs ⟨⟨x, rfl⟩, value, hv, hne⟩
  · exact h.eval hd hv

theorem Run.eval (h : Run e visited result) (hc : ChildrenNormal e)
    (hs : ∀ x ∈ visited, ¬ SignLost args x) (hv : e.eval (meaning args) = .ok value) :
    ∃ e', result = .ok e' ∧ e'.eval (meaning args) = .ok value := by
  induction h generalizing value with
  | @stop e => exact ⟨e, rfl, hv⟩
  | trap h =>
    subst h
    cases hv
  | @done e e' h => exact ⟨e', rfl, h.eval_of_not_signLost (hs e (by simp)) hv⟩
  | again h _ ih =>
    exact ih (h.childrenNormal hc) (fun x hx => hs x (by simp [hx])) (h.eval.trans hv)
  | nested h hl _ ihl ih =>
    obtain ⟨hcl, hn⟩ := h.childrenNormal hc
    obtain ⟨x, y, hx, hy, hxy⟩ := eval_bin_ok ((h.eval hc).trans hv)
    obtain ⟨_, ⟨⟩, hx'⟩ := ihl hcl (fun x hx => hs x (by simp [hx])) hx
    refine ih ⟨hl.normal hcl, hn⟩ (fun x hx => hs x (by simp [hx])) ?_
    simp [Term.eval, hx', hy, hxy]
  | nestedError h _ ihl =>
    obtain ⟨hcl, -⟩ := h.childrenNormal hc
    obtain ⟨x, y, hx, -⟩ := eval_bin_ok ((h.eval hc).trans hv)
    obtain ⟨_, he, -⟩ := ihl hcl (fun x hx => hs x (by simp [hx])) hx
    cases he

theorem RunRecursive.eval (h : RunRecursive e visited result)
    (hs : ∀ x ∈ visited, ¬ SignLost args x) (hv : e.eval (meaning args) = .ok value) :
    ∃ e', result = .ok e' ∧ e'.eval (meaning args) = .ok value := by
  induction h generalizing value with
  | leaf h => exact h.eval trivial hs hv
  | un he h ih =>
    obtain ⟨x, hx, hv⟩ := bind_ok.mp hv
    obtain ⟨_, ⟨⟩, hx'⟩ := ih (fun x hx => hs x (by simp [hx])) hx
    exact h.eval he.normal (fun x hx => hs x (by simp [hx])) (by simpa [Term.eval, hx'] using hv)
  | unError _ ih =>
    obtain ⟨x, hx, -⟩ := bind_ok.mp hv
    obtain ⟨_, he, -⟩ := ih hs hx
    cases he
  | bin hl hr h ihl ihr =>
    obtain ⟨x, y, hx, hy, hxy⟩ := eval_bin_ok hv
    obtain ⟨_, ⟨⟩, hx'⟩ := ihl (fun x hx => hs x (by simp [hx])) hx
    obtain ⟨_, ⟨⟩, hy'⟩ := ihr (fun x hx => hs x (by simp [hx])) hy
    exact h.eval ⟨hl.normal, hr.normal⟩ (fun x hx => hs x (by simp [hx]))
      (by simp [Term.eval, hx', hy', hxy])
  | leftError _ ihl =>
    obtain ⟨x, y, hx, -⟩ := eval_bin_ok hv
    obtain ⟨_, he, -⟩ := ihl hs hx
    cases he
  | rightError _ _ _ ihr =>
    obtain ⟨x, y, -, hy, -⟩ := eval_bin_ok hv
    obtain ⟨_, he, -⟩ := ihr (fun x hx => hs x (by simp [hx])) hy
    cases he

end ParserExample
