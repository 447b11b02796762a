import ParserExample.Optimizer.Refinement

/-!
# Optimized trees

A tree whose expression is normal is one at which every pass of the optimizer
stops: `optimize` leaves it as it is.
-/

namespace ParserExample

open Library

-- ---------------------------------------------------------------------------
-- Passes that stop
-- ---------------------------------------------------------------------------

section
variable {ast : Ast} {t u : SlotTree}

theorem iteration_stop_iff (h : Holds ast.view t) (hn : t.slots.Nodup) :
    iteration ast t.slot = .ok .stop ↔ ¬ Reducible t.erase := by
  have hi := iteration_ok h hn
  generalize iteration ast t.slot = pass at hi
  cases hi with
  | stop hr => exact iff_of_true rfl hr
  | trap ht => exact iff_of_false (by simp) (not_not_intro (.inr (.inr (.inr ht))))
  | done _ hd => exact iff_of_false (by simp) (not_not_intro (.inl ⟨_, hd⟩))
  | again _ ha => exact iff_of_false (by simp) (not_not_intro (.inr (.inl ⟨_, ha⟩)))
  | nested _ _ hnest =>
    exact iff_of_false (by simp) (not_not_intro (.inr (.inr (.inl ⟨_, _, _, hnest⟩))))

theorem nodeOptimize_passes (h : Holds ast.view t) (hn : t.slots.Nodup)
    (hr : ¬ Reducible t.erase) : nodeOptimize (passes ast.nodesUsed) ast t.slot = .ok ast := by
  rw [passes, nodeOptimize, (iteration_stop_iff h hn).mpr hr]
  rfl

theorem nodeOptimizeRecursive_stop {fuel : Nat} (h : Holds ast.view t) (hn : t.slots.Nodup)
    (hf : t.erase.depth ≤ fuel) (ht : Normal t.erase) :
    nodeOptimizeRecursive fuel ast t.slot = .ok ast := by
  induction t generalizing fuel with
  | leaf s a =>
    obtain ⟨fuel, rfl⟩ := Term.exists_succ hf
    obtain ⟨node, hr, hd⟩ := Ast.exists_read h
    have hstop := nodeOptimize_passes h hn (normal_iff.mp ht).2
    simp only [Tree.slot_leaf] at hr hstop
    simp only [nodeOptimizeRecursive, Tree.slot_leaf, hr, hd, Tree.shape_leaf, ok_bind, hstop]
  | un s f c ih =>
    obtain ⟨fuel, rfl⟩ := Term.exists_succ hf
    obtain ⟨node, hr, hd⟩ := Ast.exists_read h
    have hc := ih h.2 (Tree.nodup_child hn) (by simpa using hf) ht.1
    have hstop := nodeOptimize_passes h hn ht.2
    simp only [Tree.slot_un] at hr hstop
    simp only [nodeOptimizeRecursive, Tree.slot_un, hr, hd, Tree.shape_un, ok_bind, hc, hstop]
  | bin s g l r ihl ihr =>
    obtain ⟨fuel, rfl⟩ := Term.exists_succ hf
    simp only [Tree.erase, Term.depth, Nat.add_le_add_iff_right, max_le_iff] at hf
    obtain ⟨node, hr, hd⟩ := Ast.exists_read h
    have hl := ihl h.2.1 (Tree.nodup_left hn) hf.1 ht.1
    have hrr := ihr h.2.2 (Tree.nodup_right hn) hf.2 ht.2.1
    have hstop := nodeOptimize_passes h hn ht.2.2
    simp only [Tree.slot_bin] at hr hstop
    simp only [nodeOptimizeRecursive, Tree.slot_bin, hr, hd, Tree.shape_bin, ok_bind,
      AstNode.leftIndex, AstNode.rightIndex, hl, hrr, hstop]

theorem normal_iff_subtrees : Normal t.erase ↔ ∀ u ∈ t.subtrees, ¬ Reducible u.erase := by
  induction t with
  | leaf s a => simp [Normal, not_reducible_leaf]
  | un s f t ih => simp [Normal, ih, or_imp, forall_and]
  | bin s g l r ihl ihr => simp [Normal, ihl, ihr, or_imp, forall_and]

theorem Normal.not_reducible (h : Normal t.erase) (hu : u ∈ t.subtrees) : ¬ Reducible u.erase :=
  normal_iff_subtrees.mp h u hu

theorem normal_of_stop (h : Holds ast.view t) (hn : t.slots.Nodup)
    (hstop : ∀ i, ast.view.Reaches t.slot i → iteration ast i = .ok .stop) : Normal t.erase := by
  refine normal_iff_subtrees.mpr fun u hu => ?_
  have hi := hstop u.slot (h.reaches_iff.mpr (Tree.mem_slots.mpr ⟨u, hu, rfl⟩))
  exact (iteration_stop_iff (h.subtree hu) (Tree.nodup_subtree hn hu)).mp hi

-- ---------------------------------------------------------------------------
-- Optimized arrays
-- ---------------------------------------------------------------------------

/-- No guard of `node_optimize` holds at a node reachable from the root. -/
structure Ast.Optimized (ast : Ast) : Prop where
  stop : ∀ i, ast.view.Reaches ast.rootNodeIndex i → iteration ast i = .ok .stop
  fold : ∀ i type left right a b, ast.view.Reaches ast.rootNodeIndex i → type ≠ .div →
    ast.view i = some (.bin type left right) → ast.view left = some (.leaf (.int a)) →
      ast.view right ≠ some (.leaf (.int b))
  sum : ∀ i type left right type' left' right', ast.view.Reaches ast.rootNodeIndex i →
    type.IsSum → type'.IsSum → ast.view i = some (.bin type left right) →
      ast.view right ≠ some (.bin type' left' right')
  invInt : ∀ i child value, ast.view.Reaches ast.rootNodeIndex i →
    ast.view i = some (.un () child) → ast.view child ≠ some (.leaf (.int value))
  invInv : ∀ i child child', ast.view.Reaches ast.rootNodeIndex i →
    ast.view i = some (.un () child) → ast.view child ≠ some (.un () child')

theorem Ast.optimized_of_normal (h : Holds ast.view t) (hn : t.slots.Nodup)
    (hs : t.slot = ast.rootNodeIndex) (ht : Normal t.erase) : ast.Optimized := by
  have hnode {i : Nat} {shape : NodeData} (hi : ast.view.Reaches ast.rootNodeIndex i)
      (hv : ast.view i = some shape) :
      ∃ u, Holds ast.view u ∧ u.shape = shape ∧ ¬ Reducible u.erase := by
    obtain ⟨u, hu, -, hshape⟩ := h.exists_subtree (h.reaches_iff.mp (hs ▸ hi)) hv
    exact ⟨u, h.subtree hu, hshape, ht.not_reducible hu⟩
  constructor
  · intro i hi
    obtain ⟨u, hu, rfl⟩ := Tree.mem_slots.mp (h.reaches_iff.mp (hs ▸ hi))
    have hnu := Tree.nodup_subtree hn hu
    exact (iteration_stop_iff (h.subtree hu) hnu).mpr (ht.not_reducible hu)
  · intro i type left right a b hi htype hv hl hr
    obtain ⟨u, hu, hshape, hred⟩ := hnode hi hv
    cases u with
    | bin s g l r =>
      obtain ⟨rfl, rfl, rfl⟩ : g = type ∧ l.slot = left ∧ r.slot = right := by simpa using hshape
      rw [Tree.erase, hu.2.1.erase_leaf hl, hu.2.2.erase_leaf hr] at hred
      exact hred (.fold htype)
    | _ => simp at hshape
  · intro i type left right type' left' right' hi htype htype' hv hr
    obtain ⟨u, hu, hshape, hred⟩ := hnode hi hv
    cases u with
    | bin s g l r =>
      obtain ⟨rfl, rfl, rfl⟩ : g = type ∧ l.slot = left ∧ r.slot = right := by simpa using hshape
      obtain ⟨x, y, hxy⟩ := hu.2.2.erase_bin hr
      rw [Tree.erase, hxy] at hred
      exact hred (.inr (.inr (.inl ⟨_, _, _, .sumRotate htype htype'⟩)))
    | _ => simp at hshape
  · intro i child value hi hv hc
    obtain ⟨u, hu, hshape, hred⟩ := hnode hi hv
    cases u with
    | un s f c =>
      obtain rfl : c.slot = child := by simpa using hshape
      rw [Tree.erase, hu.2.erase_leaf hc] at hred
      exact hred (.inl ⟨_, .invInt⟩)
    | _ => simp at hshape
  · intro i child child' hi hv hc
    obtain ⟨u, hu, hshape, hred⟩ := hnode hi hv
    cases u with
    | un s f c =>
      obtain rfl : c.slot = child := by simpa using hshape
      obtain ⟨d, hd⟩ := hu.2.erase_un hc
      rw [Tree.erase, hd] at hred
      exact hred (.inl ⟨_, .invInv⟩)
    | _ => simp at hshape

/-- The pass is at a division of two constants that overflows. -/
def Overflows (pass : Ast × Nat) : Prop :=
  ∃ left right, pass.1.view pass.2 = some (.bin .div left right) ∧
    pass.1.view left = some (.leaf (.int longMin)) ∧ pass.1.view right = some (.leaf (.int (-1)))

theorem Visits.overflows {pass : Ast × Nat} {e : Expr} (h : Visits pass e) (ht : Traps e) :
    Overflows pass := by
  obtain ⟨t, hh, -, hs, rfl⟩ := h
  rcases t with _ | _ | ⟨s, g, l, r⟩
  · simp [Traps] at ht
  · simp [Traps] at ht
  · obtain ⟨rfl, hl, hr⟩ : g = .div ∧ l.erase = Expr.int longMin ∧ r.erase = Expr.int (-1) := by
      simpa [Traps] using ht
    refine ⟨l.slot, r.slot, hs ▸ hh.1, ?_, ?_⟩
    · rw [hh.2.1.root]
      cases l <;> simp_all
    · rw [hh.2.2.root]
      cases r <;> simp_all

theorem Overflows.iteration {pass : Ast × Nat} (h : Overflows pass) :
    ParserExample.iteration pass.1 pass.2 = .error .division := by
  obtain ⟨left, right, hv, hl, hr⟩ := h
  simp only [Ast.view, Option.map_eq_some_iff] at hv hl hr
  obtain ⟨node, hn, hd⟩ := hv
  obtain ⟨lnode, hln, hld⟩ := hl
  obtain ⟨rnode, hrn, hrd⟩ := hr
  have hone : longDiv longMin (-1) = .error .division := by decide
  simp [ParserExample.iteration, Ast.read, hn, hd, hln, hrn, Site.iterationProduct, Site.times,
    AstNode.isInt, AstNode.value, hld, hrd, hone]

/-- What `optimize` leaves of a tree is optimized, and optimizing it again
changes nothing. It can fail at a division of constants only. -/
theorem optimize_normal (h : Holds ast.view t) (hn : t.slots.Nodup)
    (hs : t.slot = ast.rootNodeIndex) :
    (optimize ast = .error .division ∧ ∃ pass ∈ optimizeTrace ast, Overflows pass) ∨
      ∃ ast', optimize ast = .ok ast' ∧ ast'.Optimized ∧ optimize ast' = .ok ast' := by
  obtain ⟨visited, result, hr, hres, htrace⟩ := optimize_run h hn hs
  generalize optimize ast = x at hres ⊢
  cases hres with
  | error f =>
    obtain ⟨e, he, ht⟩ := hr.exists_traps
    obtain ⟨pass, hp, hv⟩ := exists_pass htrace he
    obtain rfl := hr.error
    exact .inl ⟨rfl, pass, hp, hv.overflows ht⟩
  | @ok ast' t' hu =>
    have hroot := hu.root hs
    have hn' := hu.nodup hn
    refine .inr ⟨ast', rfl, Ast.optimized_of_normal hu.holds hn' hroot hr.normal, ?_⟩
    rw [optimize, ← hroot]
    refine nodeOptimizeRecursive_stop hu.holds hn' ?_ hr.normal
    have hdepth := t'.erase.depth_le_size
    have hsize := size_le_nodesUsed hu.holds hn'
    omega

/-- A run ends without a trap if and only if no pass overflows, and these are
the passes that trap. -/
theorem optimize_overflows_iff (h : Holds ast.view t) (hn : t.slots.Nodup)
    (hs : t.slot = ast.rootNodeIndex) :
    ((∀ pass ∈ optimizeTrace ast, iteration pass.1 pass.2 ≠ .error .division) ∧
      ∃ ast', optimize ast = .ok ast') ↔ ∀ pass ∈ optimizeTrace ast, ¬ Overflows pass := by
  constructor
  · rintro ⟨hsafe, -⟩ pass hp ho
    exact hsafe pass hp ho.iteration
  · intro ho
    refine ⟨fun pass hp herr => ?_, ?_⟩
    · obtain ⟨visited, result, -, -, htrace⟩ := optimize_run h hn hs
      obtain ⟨e, -, u, hu, hnu, hsu, rfl⟩ := exists_visited htrace hp
      have hi := iteration_ok hu hnu
      rw [hsu, herr] at hi
      cases hi with
      | trap ht => exact ho pass hp (Visits.overflows ⟨u, hu, hnu, hsu, rfl⟩ ht)
    · rcases optimize_normal h hn hs with ⟨-, pass, hp, hover⟩ | ⟨ast', hok, -⟩
      · exact absurd hover (ho pass hp)
      · exact ⟨ast', hok⟩

end

end ParserExample
