import ParserExample.Optimizer.InPlace
import ParserExample.Optimizer.Run

/-!
# The optimizer carries out runs

On a tree whose slots are all different `node_optimize` and
`node_optimize_recursive` follow a run of the rules, in the slots of that tree
and with enough fuel (`optimize_run`). What `optimize` leaves in the array
follows from what is known of runs and of `Updates`.
-/

namespace ParserExample

open Library

-- ---------------------------------------------------------------------------
-- The states in which a pass begins
-- ---------------------------------------------------------------------------

def nodeOptimizeTrace : Nat → Ast → Nat → List (Ast × Nat)
  | 0, _, _ => []
  | fuel + 1, ast, nodeIndex => (ast, nodeIndex) ::
    match iteration ast nodeIndex with
    | .ok (.again ast) => nodeOptimizeTrace fuel ast nodeIndex
    | .ok (.nested ast leftIndex) => nodeOptimizeTrace fuel ast leftIndex ++
      match nodeOptimize fuel ast leftIndex with
      | .ok ast => nodeOptimizeTrace fuel ast nodeIndex
      | .error _ => []
    | _ => []

def nodeOptimizeRecursiveTrace : Nat → Ast → Nat → List (Ast × Nat)
  | 0, _, _ => []
  | fuel + 1, ast, nodeIndex =>
    match ast.nodes[nodeIndex]? with
    | none => []
    | some node =>
      match node.data with
      | .bin _ leftIndex _ => nodeOptimizeRecursiveTrace fuel ast leftIndex ++
        match nodeOptimizeRecursive fuel ast leftIndex with
        | .error _ => []
        | .ok ast =>
          match ast.nodes[nodeIndex]? with
          | none => []
          | some node => nodeOptimizeRecursiveTrace fuel ast node.rightIndex ++
            match nodeOptimizeRecursive fuel ast node.rightIndex with
            | .error _ => []
            | .ok ast => nodeOptimizeTrace (passes ast.nodesUsed) ast nodeIndex
      | .un () childIndex => nodeOptimizeRecursiveTrace fuel ast childIndex ++
        match nodeOptimizeRecursive fuel ast childIndex with
        | .error _ => []
        | .ok ast => nodeOptimizeTrace (passes ast.nodesUsed) ast nodeIndex
      | .leaf _ => nodeOptimizeTrace (passes ast.nodesUsed) ast nodeIndex

def optimizeTrace (ast : Ast) : List (Ast × Nat) :=
  nodeOptimizeRecursiveTrace (ast.nodesUsed + 1) ast ast.rootNodeIndex

-- ---------------------------------------------------------------------------
-- Rewriting below a node
-- ---------------------------------------------------------------------------

section
variable {ast ast' : Ast} {t t' c c' l l' r r' : SlotTree} {s : Nat} {f : Unit} {g : BinaryType}

theorem Updates.frame_of_disjoint (h : Updates ast t ast' t') (hc : Holds ast.view c)
    (hd : ∀ j ∈ c.slots, j ∉ t.slots) : Holds ast'.view c :=
  hc.frame fun j hj => Ast.view_eq_of_nodes (h.frame j (hd j hj))

theorem Updates.un (h : Updates ast c ast' c') (ht : Holds ast.view (.un s f c))
    (hn : (Tree.un s f c).slots.Nodup) : Updates ast (.un s f c) ast' (.un s f c') := by
  have hs : s ∉ c.slots := fun hs => (List.nodup_append.mp hn).2.2 s hs s (by simp) rfl
  refine ⟨⟨?_, h.holds⟩, rfl, h.slots.append (.refl _), fun j hj => h.frame j fun hj' => hj ?_,
    h.nodesUsed, h.capacity⟩
  · rw [Ast.view_eq_of_nodes (h.frame s hs), h.slot]
    exact ht.1
  · simp [hj']

theorem Updates.left (h : Updates ast l ast' l') (ht : Holds ast.view (.bin s g l r))
    (hn : (Tree.bin s g l r).slots.Nodup) :
    Updates ast (.bin s g l r) ast' (.bin s g l' r) := by
  simp only [Tree.slots, List.nodup_append, List.mem_append] at hn
  have hs : s ∉ l.slots := fun hs => hn.2.2 s (.inl hs) s (by simp) rfl
  refine ⟨⟨?_, h.holds, h.frame_of_disjoint ht.2.2 fun j hj hj' => hn.1.2.2 j hj' j hj rfl⟩, rfl,
    (h.slots.append (.refl _)).append (.refl _), fun j hj => h.frame j fun hj' => hj ?_,
    h.nodesUsed, h.capacity⟩
  · rw [Ast.view_eq_of_nodes (h.frame s hs), h.slot]
    exact ht.1
  · simp [hj']

theorem Updates.right (h : Updates ast r ast' r') (ht : Holds ast.view (.bin s g l r))
    (hn : (Tree.bin s g l r).slots.Nodup) :
    Updates ast (.bin s g l r) ast' (.bin s g l r') := by
  simp only [Tree.slots, List.nodup_append, List.mem_append] at hn
  have hs : s ∉ r.slots := fun hs => hn.2.2 s (.inr hs) s (by simp) rfl
  refine ⟨⟨?_, h.frame_of_disjoint ht.2.1 fun j hj hj' => hn.1.2.2 j hj j hj' rfl, h.holds⟩, rfl,
    ((List.Subperm.refl _).append h.slots).append (.refl _), fun j hj => h.frame j fun hj' => hj ?_,
    h.nodesUsed, h.capacity⟩
  · rw [Ast.view_eq_of_nodes (h.frame s hs), h.slot]
    exact ht.1
  · simp [hj']

theorem Updates.size_le (h : Updates ast t ast' t') : t'.erase.size ≤ t.erase.size := by
  simpa using h.slots.length_le

theorem Updates.root (h : Updates ast t ast' t') (hs : t.slot = ast.rootNodeIndex) :
    t'.slot = ast'.rootNodeIndex := by
  rw [h.slot, hs, Ast.rootNodeIndex, Ast.rootNodeIndex, h.nodesUsed]

theorem size_le_nodesUsed (h : Holds ast.view t) (hn : t.slots.Nodup) :
    t.erase.size ≤ ast.nodesUsed := by
  have hsub : t.slots ⊆ List.range ast.nodesUsed := by
    intro j hj
    obtain ⟨u, hu, rfl⟩ := Tree.mem_slots.mp hj
    exact List.mem_range.mpr (slot_lt (h.subtree hu))
  simpa using (hn.subperm hsub).length_le

theorem measure_lt_passes (h : Holds ast.view t) (hn : t.slots.Nodup) :
    measure t.erase < passes ast.nodesUsed := by
  have hsize := size_le_nodesUsed h hn
  have hw := rightWeight_lt t.erase
  have hsq := Nat.mul_le_mul hsize hsize
  simp only [measure, passes]
  omega

end

-- ---------------------------------------------------------------------------
-- Calls and runs
-- ---------------------------------------------------------------------------

inductive Result (ast : Ast) (t : SlotTree) : Except Fault Ast → Except Fault Expr → Prop
  | ok {ast' t'} (hu : Updates ast t ast' t') : Result ast t (.ok ast') (.ok t'.erase)
  | error (f : Fault) : Result ast t (.error f) (.error f)

def Visits (pass : Ast × Nat) (e : Expr) : Prop :=
  ∃ t, Holds pass.1.view t ∧ t.slots.Nodup ∧ t.slot = pass.2 ∧ t.erase = e

section
variable {ast ast' : Ast} {t t' : SlotTree} {x : Except Fault Ast} {result : Except Fault Expr}

theorem Result.trans (hu : Updates ast t ast' t') (h : Result ast' t' x result) :
    Result ast t x result := by
  cases h with
  | ok hu' => exact .ok (hu.trans hu')
  | error f => exact .error f

theorem nodeOptimize_run {fuel : Nat} (h : Holds ast.view t) (hn : t.slots.Nodup)
    (hf : measure t.erase < fuel) :
    ∃ visited result, Run t.erase visited result ∧
      Result ast t (nodeOptimize fuel ast t.slot) result ∧
      List.Forall₂ Visits (nodeOptimizeTrace fuel ast t.slot) visited := by
  induction fuel generalizing ast t with
  | zero => omega
  | succ fuel ih =>
    have hvisit : Visits (ast, t.slot) t.erase := ⟨t, h, hn, rfl, rfl⟩
    have hi := iteration_ok h hn
    generalize hp : iteration ast t.slot = pass at hi
    simp only [nodeOptimize, nodeOptimizeTrace, hp]
    cases hi with
    | stop hr => exact ⟨_, _, .stop hr, .ok (.refl h), .cons hvisit .nil⟩
    | trap ht => exact ⟨_, _, .trap ht, .error _, .cons hvisit .nil⟩
    | done hu hd => exact ⟨_, _, .done hd, .ok hu, .cons hvisit .nil⟩
    | again hu ha =>
      have hlt := ha.measure_lt
      obtain ⟨visited, result, hr, hres, htrace⟩ := ih hu.holds (hu.nodup hn) (by omega)
      rw [hu.slot] at hres htrace
      exact ⟨_, _, .again ha hr, hres.trans hu, .cons hvisit htrace⟩
    | @nested ast₁ g i l r hu hi hnest =>
      subst hi
      have hn₁ := hu.nodup hn
      have hlt := hnest.left_lt
      have hnl := Tree.nodup_left hn₁
      obtain ⟨us, resl, hrl, hresl, htracel⟩ := ih hu.holds.2.1 hnl (by omega)
      simp only [ok_bind]
      generalize nodeOptimize fuel ast₁ l.slot = xl at hresl ⊢
      cases hresl with
      | error f =>
        simp only [error_bind, List.append_nil]
        exact ⟨_, _, .nestedError hnest hrl, .error f, .cons hvisit htracel⟩
      | @ok ast₂ l' hul =>
        have hu₂ := hul.left hu.holds hn₁
        have hlt₂ := hnest.measure_lt hul.size_le
        obtain ⟨vs, result, hr, hres, htrace⟩ := ih hu₂.holds (hu₂.nodup hn₁) (by
          simp only [Tree.erase]
          omega)
        simp only [ok_bind]
        refine ⟨_, _, .nested hnest hrl hr, (hres.trans hu₂).trans hu, ?_⟩
        exact .cons hvisit (List.rel_append htracel htrace)

theorem nodeOptimizeRecursive_run {fuel : Nat} (h : Holds ast.view t) (hn : t.slots.Nodup)
    (hf : t.erase.depth ≤ fuel) :
    ∃ visited result, RunRecursive t.erase visited result ∧
      Result ast t (nodeOptimizeRecursive fuel ast t.slot) result ∧
      List.Forall₂ Visits (nodeOptimizeRecursiveTrace fuel ast t.slot) visited := by
  induction t generalizing fuel ast with
  | leaf s a =>
    obtain ⟨fuel, rfl⟩ := Term.exists_succ hf
    obtain ⟨node, hnode, hd⟩ := Ast.exists_node h
    obtain ⟨visited, result, hr, hres, htrace⟩ := nodeOptimize_run h hn (measure_lt_passes h hn)
    simp only [Tree.slot_leaf] at hnode hres htrace
    simp only [nodeOptimizeRecursive, nodeOptimizeRecursiveTrace, Ast.read, Tree.slot_leaf, hnode,
      hd, Tree.shape_leaf, ok_bind]
    exact ⟨_, _, .leaf hr, hres, htrace⟩
  | un s f c ih =>
    obtain ⟨fuel, rfl⟩ := Term.exists_succ hf
    obtain ⟨node, hnode, hd⟩ := Ast.exists_node h
    obtain ⟨us, resc, hrc, hresc, htracec⟩ := ih h.2 (Tree.nodup_child hn) (by simpa using hf)
    simp only [Tree.slot_un] at hnode
    simp only [nodeOptimizeRecursive, nodeOptimizeRecursiveTrace, Ast.read, Tree.slot_un, hnode,
      hd, Tree.shape_un, ok_bind]
    generalize nodeOptimizeRecursive fuel ast c.slot = xc at hresc ⊢
    cases hresc with
    | error f =>
      simp only [error_bind, List.append_nil]
      exact ⟨_, _, .unError hrc, .error f, htracec⟩
    | @ok ast₁ c' huc =>
      have hu := huc.un h hn
      have hn₁ := hu.nodup hn
      obtain ⟨vs, result, hr, hres, htrace⟩ :=
        nodeOptimize_run hu.holds hn₁ (measure_lt_passes hu.holds hn₁)
      simp only [ok_bind]
      exact ⟨_, _, .un hrc hr, hres.trans hu, List.rel_append htracec htrace⟩
  | bin s g l r ihl ihr =>
    obtain ⟨fuel, rfl⟩ := Term.exists_succ hf
    simp only [Tree.erase, Term.depth, Nat.add_le_add_iff_right, max_le_iff] at hf
    obtain ⟨node, hnode, hd⟩ := Ast.exists_node h
    have hnl := Tree.nodup_left hn
    obtain ⟨us, resl, hrl, hresl, htracel⟩ := ihl h.2.1 hnl hf.1
    simp only [Tree.slot_bin] at hnode
    simp only [nodeOptimizeRecursive, nodeOptimizeRecursiveTrace, Ast.read, Tree.slot_bin, hnode,
      hd, Tree.shape_bin, ok_bind, AstNode.leftIndex]
    generalize nodeOptimizeRecursive fuel ast l.slot = xl at hresl ⊢
    cases hresl with
    | error f =>
      simp only [error_bind, List.append_nil]
      exact ⟨_, _, .leftError hrl, .error f, htracel⟩
    | @ok ast₁ l' hul =>
      have hu₁ := hul.left h hn
      have hn₁ := hu₁.nodup hn
      -- the node still refers to its right operand
      obtain ⟨node₁, hnode₁, hd₁⟩ := Ast.exists_node hu₁.holds
      have hnr := Tree.nodup_right hn₁
      obtain ⟨vs, resr, hrr, hresr, htracer⟩ := ihr hu₁.holds.2.2 hnr hf.2
      simp only [Tree.slot_bin] at hnode₁
      simp only [hnode₁, hd₁, Tree.shape_bin, ok_bind, AstNode.rightIndex]
      generalize nodeOptimizeRecursive fuel ast₁ r.slot = xr at hresr ⊢
      cases hresr with
      | error f =>
        simp only [error_bind, List.append_nil]
        exact ⟨_, _, .rightError hrl hrr, .error f, List.rel_append htracel htracer⟩
      | @ok ast₂ r' hur =>
        have hu₂ := hur.right hu₁.holds hn₁
        have hn₂ := hu₂.nodup hn₁
        obtain ⟨ws, result, hr, hres, htrace⟩ :=
          nodeOptimize_run hu₂.holds hn₂ (measure_lt_passes hu₂.holds hn₂)
        simp only [ok_bind]
        exact ⟨_, _, .bin hrl hrr hr, (hres.trans hu₂).trans hu₁,
          List.rel_append htracel (List.rel_append htracer htrace)⟩

/-- `optimize` follows a run on the expression of the tree. -/
theorem optimize_run (h : Holds ast.view t) (hn : t.slots.Nodup) (hs : t.slot = ast.rootNodeIndex) :
    ∃ visited result, RunRecursive t.erase visited result ∧
      Result ast t (optimize ast) result ∧ List.Forall₂ Visits (optimizeTrace ast) visited := by
  rw [optimize, optimizeTrace, ← hs]
  refine nodeOptimizeRecursive_run h hn ?_
  have hdepth := t.erase.depth_le_size
  have hsize := size_le_nodesUsed h hn
  omega

end

theorem exists_pass {trace : List (Ast × Nat)} {visited : List Expr} {e : Expr}
    (h : List.Forall₂ Visits trace visited) (he : e ∈ visited) : ∃ pass ∈ trace, Visits pass e := by
  induction h with
  | nil => cases he
  | cons hv _ ih =>
    rcases List.mem_cons.mp he with rfl | he
    · exact ⟨_, List.mem_cons_self, hv⟩
    · obtain ⟨pass, hp, hv⟩ := ih he
      exact ⟨pass, .tail _ hp, hv⟩

theorem exists_visited {trace : List (Ast × Nat)} {visited : List Expr} {pass : Ast × Nat}
    (h : List.Forall₂ Visits trace visited) (hp : pass ∈ trace) : ∃ e ∈ visited, Visits pass e := by
  induction h with
  | nil => cases hp
  | cons hv _ ih =>
    rcases List.mem_cons.mp hp with rfl | hp
    · exact ⟨_, List.mem_cons_self, hv⟩
    · obtain ⟨e, he, hv⟩ := ih hp
      exact ⟨e, .tail _ he, hv⟩

-- ---------------------------------------------------------------------------
-- What the optimizer does to the array
-- ---------------------------------------------------------------------------

theorem Ast.exists_tree {ast : Ast} (ht : ast.view.TreeAt ast.rootNodeIndex) :
    ∃ t, Holds ast.view t ∧ t.slot = ast.rootNodeIndex ∧ t.slots.Nodup := by
  obtain ⟨t, h, hs, -⟩ := ht.toUnfolds.exists_holds (Finset.range ast.nodesUsed) fun j hj =>
    Finset.mem_range.mpr (view_isSome.mp (ht.node j hj))
  rw [← hs] at ht
  exact ⟨t, h, hs, h.treeAt_iff_nodup.mp ht⟩

/-- On a tree the optimizer traps or works in place: root, size and capacity of
the array stay as they are, the reachable slots form a tree again, they and
their variables were reachable before. `node_optimize` on a subtree changes no
slot outside of it. -/
theorem optimize_inPlace {ast : Ast} (ht : ast.view.TreeAt ast.rootNodeIndex) :
    (optimize ast = .error .division ∨ ∃ ast', optimize ast = .ok ast' ∧
      ast'.rootNodeIndex = ast.rootNodeIndex ∧ ast'.nodesUsed = ast.nodesUsed ∧
      ast'.nodesCapacity = ast.nodesCapacity ∧ ast'.view.TreeAt ast'.rootNodeIndex ∧
      (∀ i, ast'.view.Reaches ast'.rootNodeIndex i → ast.view.Reaches ast.rootNodeIndex i) ∧
      ∀ i a, ast'.view.Reaches ast'.rootNodeIndex i → ast'.view i = some (.leaf (.var a)) →
        ∃ j, ast.view.Reaches ast.rootNodeIndex j ∧ ast.view j = some (.leaf (.var a))) ∧
    ∀ i fuel, ast.view.Reaches ast.rootNodeIndex i → passes ast.nodesUsed ≤ fuel →
      nodeOptimize fuel ast i = .error .division ∨
      ∃ ast', nodeOptimize fuel ast i = .ok ast' ∧
        ∀ j, ¬ ast.view.Reaches i j → ast'.nodes[j]? = ast.nodes[j]? := by
  obtain ⟨t, h, hs, hn⟩ := Ast.exists_tree ht
  rw [← hs]
  constructor
  · obtain ⟨visited, result, hr, hres, -⟩ := optimize_run h hn hs
    generalize optimize ast = x at hres ⊢
    cases hres with
    | error f =>
      obtain rfl := hr.error
      exact .inl rfl
    | @ok ast' t' hu =>
      have hroot := (hu.root hs).symm
      refine .inr ⟨ast', rfl, hroot.trans hu.slot, hu.nodesUsed, hu.capacity, ?_⟩
      rw [hroot]
      refine ⟨hu.holds.treeAt_iff_nodup.mpr (hu.nodup hn), fun i hi => ?_, fun i a hi ha => ?_⟩
      · exact h.reaches_iff.mpr (hu.slots.subset (hu.holds.reaches_iff.mp hi))
      · have hvar := hu.holds.mem_leaves_iff.mpr ⟨i, hi, ha⟩
        exact h.mem_leaves_iff.mp (hr.respects varsIn_respected a hvar)
  · intro i fuel hi hf
    obtain ⟨u, hu, rfl⟩ := Tree.mem_slots.mp (h.reaches_iff.mp hi)
    have hsub := h.subtree hu
    have hnu := Tree.nodup_subtree hn hu
    obtain ⟨visited, result, hr, hres, -⟩ :=
      nodeOptimize_run hsub hnu (Nat.lt_of_lt_of_le (measure_lt_passes hsub hnu) hf)
    generalize nodeOptimize fuel ast u.slot = x at hres ⊢
    cases hres with
    | error f =>
      obtain rfl := hr.error
      exact .inl rfl
    | @ok ast' u' hup =>
      exact .inr ⟨ast', rfl, fun j hj => hup.frame j fun hm => hj (hsub.reaches_iff.mpr hm)⟩

/-- The parsed tree of `1 + (2 + a)`. -/
def sumAst : Ast :=
  ⟨[⟨0, 1, .leaf (.int 1)⟩, ⟨5, 6, .leaf (.int 2)⟩, ⟨9, 10, .leaf (.var 0)⟩,
    ⟨7, 8, .bin .add 1 2⟩, ⟨2, 3, .bin .add 0 3⟩], 64⟩

theorem sumAst_treeAt : sumAst.view.TreeAt sumAst.rootNodeIndex := by
  have h : Holds sumAst.view (.bin 4 .add (.leaf 0 (.int 1))
    (.bin 3 .add (.leaf 1 (.int 2)) (.leaf 2 (.var 0)))) := by decide
  exact h.treeAt_iff_nodup.mpr (by decide)

theorem optimize_sumAst_isOk : (optimize sumAst).isOk = true := by decide +kernel

theorem optimize_inPlace_sumAst :
    ∃ ast', optimize sumAst = .ok ast' ∧ ast'.nodesUsed = 5 ∧
      ast'.view.TreeAt ast'.rootNodeIndex := by
  have hok := optimize_sumAst_isOk
  rcases (optimize_inPlace sumAst_treeAt).1 with herr | ⟨ast', h, -, hn, -, ht, -⟩
  · rw [herr] at hok
    cases hok
  · exact ⟨ast', h, hn, ht⟩

end ParserExample
