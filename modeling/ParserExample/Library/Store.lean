import ParserExample.Library.Term

/-!
# Terms that live in a store

A store gives some slots a node. `Holds view t` says that every node of the
slotted term `t` is in the store at its slot, so `t` is what following the
links from `t.slot` unfolds to. Two things are proved of stores in general:
an acyclic store in which no followed link dangles unfolds to a term, whose
depth is at most the number of slots; and the slots reached from a root form a
tree (each is referred to once) exactly when the unfolding repeats no slot.
-/

namespace Library

universe u v w x

variable {ι : Type x} {β : Type u} {υ : Type v} {α : Type w}

open Relation (ReflTransGen TransGen)

/-- A store: the node at each slot, if there is one. -/
abbrev View (ι : Type x) (β : Type u) (υ : Type v) (α : Type w) := ι → Option (Shape ι β υ α)

def View.Child (view : View ι β υ α) (i j : ι) : Prop :=
  ∃ shape, view i = some shape ∧ j ∈ shape.children

def View.Reaches (view : View ι β υ α) : ι → ι → Prop := ReflTransGen view.Child

@[simp] def Holds (view : View ι β υ α) : Tree ι β υ α → Prop
  | .leaf s a => view s = some (.leaf a)
  | .un s f t => view s = some (.un f t.slot) ∧ Holds view t
  | .bin s g l r => view s = some (.bin g l.slot r.slot) ∧ Holds view l ∧ Holds view r

@[simp] def HoldsBelow (view : View ι β υ α) : Tree ι β υ α → Prop
  | .leaf _ _ => True
  | .un _ _ t => Holds view t
  | .bin _ _ l r => Holds view l ∧ Holds view r

instance instDecidableHolds [DecidableEq ι] [DecidableEq β] [DecidableEq υ] [DecidableEq α]
    (view : View ι β υ α) :
    (t : Tree ι β υ α) → Decidable (Holds view t)
  | .leaf s a => inferInstanceAs (Decidable (view s = some (.leaf a)))
  | .un s f t =>
    have := instDecidableHolds view t
    inferInstanceAs (Decidable (view s = some (.un f t.slot) ∧ Holds view t))
  | .bin s g l r =>
    have := instDecidableHolds view l
    have := instDecidableHolds view r
    inferInstanceAs (Decidable (view s = some (.bin g l.slot r.slot) ∧ Holds view l ∧ Holds view r))

-- ---------------------------------------------------------------------------
-- What holding a term says
-- ---------------------------------------------------------------------------

section
variable {view view' : View ι β υ α} {t u : Tree ι β υ α} {i j : ι}

theorem Holds.root (h : Holds view t) : view t.slot = some t.shape := by
  cases t with
  | leaf => exact h
  | un => exact h.1
  | bin => exact h.1

theorem holds_iff : Holds view t ↔ view t.slot = some t.shape ∧ HoldsBelow view t := by
  cases t <;> simp

theorem Holds.below (h : Holds view t) : HoldsBelow view t := (holds_iff.mp h).2

@[simp] theorem holdsBelow_setSlot (s : ι) (t : Tree ι β υ α) :
    HoldsBelow view (t.setSlot s) ↔ HoldsBelow view t := by
  cases t <;> rfl

theorem Holds.subtree (h : Holds view t) (hu : u ∈ t.subtrees) : Holds view u := by
  induction t with
  | leaf s a =>
    obtain rfl : u = .leaf s a := by simpa using hu
    exact h
  | un s f t ih =>
    simp only [Tree.subtrees, List.mem_append, List.mem_singleton] at hu
    rcases hu with hu | rfl
    · exact ih h.2 hu
    · exact h
  | bin s g l r ihl ihr =>
    simp only [Tree.subtrees, List.mem_append, List.mem_singleton] at hu
    rcases hu with (hu | hu) | rfl
    · exact ihl h.2.1 hu
    · exact ihr h.2.2 hu
    · exact h

/-- The frame rule: a store that agrees on the slots of a term still holds it. -/
theorem Holds.frame (h : Holds view t) (hs : ∀ j ∈ t.slots, view' j = view j) : Holds view' t := by
  induction t with
  | leaf s a => exact (hs s (by simp)).trans h
  | un s f t ih =>
    exact ⟨(hs s (by simp)).trans h.1, ih h.2 fun j hj => hs j (by simp [hj])⟩
  | bin s g l r ihl ihr =>
    exact ⟨(hs s (by simp)).trans h.1, ihl h.2.1 fun j hj => hs j (by simp [hj]),
      ihr h.2.2 fun j hj => hs j (by simp [hj])⟩

theorem HoldsBelow.frame (h : HoldsBelow view t) (hs : ∀ j ∈ t.lowerSlots, view' j = view j) :
    HoldsBelow view' t := by
  cases t with
  | leaf => trivial
  | un s f t => exact Holds.frame h hs
  | bin s g l r =>
    exact ⟨h.1.frame fun j hj => hs j (by simp [hj]), h.2.frame fun j hj => hs j (by simp [hj])⟩

theorem Holds.unique (ht : Holds view t) (hu : Holds view u) (hs : t.slot = u.slot) : t = u := by
  induction t generalizing u with
  | leaf s a =>
    have h := hu.root
    rw [← hs, ht.root] at h
    cases u <;> simp_all
  | un s f t ih =>
    have h := hu.root
    rw [← hs, ht.root] at h
    cases u with
    | un s' f' u =>
      simp only [Tree.shape, Option.some.injEq, Shape.un.injEq] at h
      rw [ih ht.2 hu.2 h.2, h.1]
      simpa using hs
    | _ => simp at h
  | bin s g l r ihl ihr =>
    have h := hu.root
    rw [← hs, ht.root] at h
    cases u with
    | bin s' g' l' r' =>
      simp only [Tree.shape, Option.some.injEq, Shape.bin.injEq] at h
      rw [ihl ht.2.1 hu.2.1 h.2.1, ihr ht.2.2 hu.2.2 h.2.2, h.1]
      simpa using hs
    | _ => simp at h

theorem Holds.child_subtree (h : Holds view t) (hc : view.Child t.slot j) :
    ∃ u ∈ t.subtrees, u.slot = j ∧ u.size < t.size := by
  obtain ⟨shape, hv, hj⟩ := hc
  obtain rfl : t.shape = shape := by simpa [h.root] using hv
  cases t with
  | leaf => simp at hj
  | un s f t =>
    obtain rfl : j = t.slot := by simpa using hj
    exact ⟨t, by simp, rfl, by simp⟩
  | bin s g l r =>
    rcases (by simpa using hj : j = l.slot ∨ j = r.slot) with rfl | rfl
    · exact ⟨l, by simp, rfl, by simp only [Tree.size]; omega⟩
    · exact ⟨r, by simp, rfl, by simp only [Tree.size]; omega⟩

theorem Holds.reaches_iff (h : Holds view t) : view.Reaches t.slot j ↔ j ∈ t.slots := by
  constructor
  · intro hr
    induction hr with
    | refl => simp
    | tail _ hc ih =>
      obtain ⟨u, hu, rfl⟩ := Tree.mem_slots.mp ih
      obtain ⟨v, hv, rfl, -⟩ := (h.subtree hu).child_subtree hc
      exact Tree.mem_slots.mpr ⟨v, Tree.subtrees_trans hv hu, rfl⟩
  · intro hj
    induction t with
    | leaf s a =>
      obtain rfl : j = s := by simpa using hj
      exact .refl
    | un s f t ih =>
      rcases (by simpa using hj : j ∈ t.slots ∨ j = s) with hj | rfl
      · exact .head ⟨_, h.1, by simp⟩ (ih h.2 hj)
      · exact .refl
    | bin s g l r ihl ihr =>
      rcases (by simpa [or_assoc] using hj : j ∈ l.slots ∨ j ∈ r.slots ∨ j = s) with hj | hj | rfl
      · exact .head ⟨_, h.1, by simp⟩ (ihl h.2.1 hj)
      · exact .head ⟨_, h.1, by simp⟩ (ihr h.2.2 hj)
      · exact .refl

theorem Holds.mem_leaves_iff {a : α} (h : Holds view t) :
    a ∈ t.erase.leaves ↔ ∃ i, view.Reaches t.slot i ∧ view i = some (.leaf a) := by
  rw [Tree.mem_leaves_erase]
  constructor
  · rintro ⟨s, hs⟩
    exact ⟨s, h.reaches_iff.mpr (Tree.mem_slots.mpr ⟨_, hs, rfl⟩), (h.subtree hs).root⟩
  · rintro ⟨i, hi, ha⟩
    obtain ⟨u, hu, rfl⟩ := Tree.mem_slots.mp (h.reaches_iff.mp hi)
    rw [(h.subtree hu).root] at ha
    cases u with
    | leaf s b =>
      obtain rfl : b = a := by simpa using ha
      exact ⟨s, hu⟩
    | _ => simp at ha

/-- A held term has no cycle through its root: the cycle would unfold the
root to a smaller subtree of itself. -/
theorem Holds.acyclic (h : Holds view t) : ¬ TransGen view.Child t.slot t.slot := by
  have hsub {k : ι} (hk : TransGen view.Child t.slot k) :
      ∃ u ∈ t.subtrees, u.slot = k ∧ u.size < t.size := by
    induction hk with
    | single hc => exact h.child_subtree hc
    | tail _ hc ih =>
      obtain ⟨u, hu, rfl, hus⟩ := ih
      obtain ⟨v, hv, hk, hvs⟩ := (h.subtree hu).child_subtree hc
      exact ⟨v, Tree.subtrees_trans hv hu, hk, hvs.trans hus⟩
  intro hc
  obtain ⟨u, hu, hs, hlt⟩ := hsub hc
  simp [(h.subtree hu).unique h hs] at hlt

/-- A property of the root that children inherit holds of every slot. -/
theorem Holds.forall_slots {P : ι → Prop} (h : Holds view t) (hroot : P t.slot)
    (hstep : ∀ u ∈ t.subtrees, ∀ j, view.Child u.slot j → P u.slot → P j) : ∀ j ∈ t.slots, P j := by
  intro j hj
  have hr := h.reaches_iff.mpr hj
  clear hj
  induction hr with
  | refl => exact hroot
  | tail hr hc ih =>
    obtain ⟨u, hu, rfl⟩ := Tree.mem_slots.mp (h.reaches_iff.mp hr)
    exact hstep u hu _ hc ih

theorem Holds.exists_subtree {shape : Shape ι β υ α} (h : Holds view t) (hi : i ∈ t.slots)
    (hv : view i = some shape) : ∃ u ∈ t.subtrees, u.slot = i ∧ u.shape = shape := by
  obtain ⟨u, hu, rfl⟩ := Tree.mem_slots.mp hi
  exact ⟨u, hu, rfl, by simpa [(h.subtree hu).root] using hv⟩

theorem Holds.view_eq {view' : View ι β υ α} (h : Holds view t) (h' : Holds view' t)
    (hi : i ∈ t.slots) : view i = view' i := by
  obtain ⟨u, hu, rfl⟩ := Tree.mem_slots.mp hi
  rw [(h.subtree hu).root, (h'.subtree hu).root]

theorem Holds.erase_leaf {a : α} (h : Holds view t) (hv : view t.slot = some (.leaf a)) :
    t.erase = .leaf a := by
  rw [h.root] at hv
  cases t <;> simp_all

theorem Holds.erase_un {f : υ} (h : Holds view t) (hv : view t.slot = some (.un f i)) :
    ∃ c, t.erase = .un f c := by
  rw [h.root] at hv
  cases t <;> simp_all

theorem Holds.erase_bin {g : β} (h : Holds view t) (hv : view t.slot = some (.bin g i j)) :
    ∃ l r, t.erase = .bin g l r := by
  rw [h.root] at hv
  cases t <;> simp_all

theorem Holds.exists_parent (h : Holds view t) (hj : j ∈ t.slots)
    (hne : j ≠ t.slot) : ∃ i ∈ t.slots, view.Child i j := by
  have hr := h.reaches_iff.mpr hj
  cases hr with
  | refl => exact absurd rfl hne
  | tail hr hc => exact ⟨_, h.reaches_iff.mp hr, hc⟩

end

-- ---------------------------------------------------------------------------
-- Acyclic stores unfold
-- ---------------------------------------------------------------------------

section
variable {view : View ι β υ α} {root : ι}

/-- No followed link dangles and none leads back, from `root` on. -/
structure View.Unfolds (view : View ι β υ α) (root : ι) : Prop where
  node : ∀ j, view.Reaches root j → (view j).isSome
  acyclic : ∀ j, view.Reaches root j → ¬ TransGen view.Child j j

theorem View.Unfolds.step (h : view.Unfolds root) {j : ι} (hc : view.Child root j) :
    view.Unfolds j :=
  ⟨fun k hk => h.node k (hk.head hc), fun k hk => h.acyclic k (hk.head hc)⟩

/-- The induction is on a bound for the number of slots reached: a child
reaches fewer slots than its parent, which it does not reach. -/
theorem View.Unfolds.exists_holds (h : view.Unfolds root) (slots : Finset ι)
    (hs : ∀ j, view.Reaches root j → j ∈ slots) :
    ∃ t, Holds view t ∧ t.slot = root ∧ t.erase.depth ≤ slots.card := by
  classical
  induction hn : slots.card generalizing root slots with
  | zero =>
    have := hs root .refl
    simp [Finset.card_eq_zero.mp hn] at this
  | succ n ih =>
    have hchild {j : ι} (hc : view.Child root j) :
        ∃ t, Holds view t ∧ t.slot = j ∧ t.erase.depth ≤ n := by
      refine ih (h.step hc) (slots.erase root) (fun k hk => ?_) ?_
      · refine Finset.mem_erase.mpr ⟨?_, hs k (hk.head hc)⟩
        rintro rfl
        exact h.acyclic k .refl (.head' hc hk)
      · rw [Finset.card_erase_of_mem (hs root .refl), hn, Nat.add_sub_cancel]
    obtain ⟨shape, hv⟩ := Option.isSome_iff_exists.mp (h.node root .refl)
    cases shape with
    | leaf a => exact ⟨.leaf root a, hv, rfl, by simp⟩
    | un f c =>
      obtain ⟨t, ht, rfl, hd⟩ := hchild (j := c) ⟨_, hv, by simp⟩
      exact ⟨.un root f t, ⟨hv, ht⟩, rfl, by simpa using hd⟩
    | bin g i j =>
      obtain ⟨l, hl, rfl, hdl⟩ := hchild (j := i) ⟨_, hv, by simp⟩
      obtain ⟨r, hr, rfl, hdr⟩ := hchild (j := j) ⟨_, hv, by simp⟩
      exact ⟨.bin root g l r, ⟨hv, hl, hr⟩, rfl, by simp [hdl, hdr]⟩

theorem Holds.unfolds {t : Tree ι β υ α} (h : Holds view t) : view.Unfolds t.slot := by
  constructor <;> intro j hj <;> obtain ⟨u, hu, rfl⟩ := Tree.mem_slots.mp (h.reaches_iff.mp hj)
  · simp [(h.subtree hu).root]
  · exact (h.subtree hu).acyclic

end

-- ---------------------------------------------------------------------------
-- Stores that hold a tree
-- ---------------------------------------------------------------------------

section
variable [DecidableEq ι] {view : View ι β υ α}

/-- The slots reached from `root` form a tree: no link dangles or leads back,
and every slot but the root is referred to exactly once. -/
structure View.TreeAt (view : View ι β υ α) (root : ι) : Prop extends view.Unfolds root where
  once : ∀ j, view.Reaches root j → j ≠ root → ∃ i shape, view.Reaches root i ∧
    view i = some shape ∧ shape.children.count j = 1 ∧
      ∀ i', view.Reaches root i' → view.Child i' j → i' = i

theorem Holds.nodup_of_treeAt {t : Tree ι β υ α} (h : Holds view t) (ht : view.TreeAt t.slot) :
    t.slots.Nodup := by
  -- every subtree repeats no slot, the smallest first
  suffices hsub : ∀ u ∈ t.subtrees, u.slots.Nodup from hsub t (by simp)
  have hmem {u : Tree ι β υ α} (hu : u ∈ t.subtrees) {j : ι} (hj : j ∈ u.slots) :
      view.Reaches t.slot j := h.reaches_iff.mpr (Tree.slots_subset hu hj)
  have hroot {u : Tree ι β υ α} (hu : u ∈ t.subtrees) {c : Tree ι β υ α} (hc : c ∈ u.subtrees)
      (hchild : view.Child u.slot c.slot) : u.slot ∉ c.slots := by
    intro hm
    have hcu := h.subtree (Tree.subtrees_trans hc hu)
    exact (h.subtree hu).acyclic (.head' hchild (hcu.reaches_iff.mpr hm))
  intro u
  induction u with
  | leaf => simp
  | un s f c ih =>
    intro hu
    have hc : c ∈ (Tree.un s f c).subtrees := by simp
    have hs := hroot hu hc ⟨_, (h.subtree hu).1, by simp⟩
    simp only [Tree.slots, List.nodup_append, List.nodup_singleton, true_and, List.mem_singleton]
    refine ⟨ih (Tree.subtrees_trans hc hu), fun a ha b hb hab => hs ?_⟩
    subst hab hb
    exact ha
  | bin s g l r ihl ihr =>
    intro hu
    have hl : l ∈ (Tree.bin s g l r).subtrees := by simp
    have hr : r ∈ (Tree.bin s g l r).subtrees := by simp
    have hv := (h.subtree hu).1
    have hsl := hroot hu hl ⟨_, hv, by simp⟩
    have hsr := hroot hu hr ⟨_, hv, by simp⟩
    have hru := hmem hu (j := s) (by simp)
    have hdis : ∀ j ∈ l.slots, j ∉ r.slots := by
      refine (h.subtree (Tree.subtrees_trans hl hu)).forall_slots ?_ ?_
      · -- the left child is referred to by `s`, and by nothing below the right child
        intro hm
        have hne : l.slot ≠ t.slot := by
          intro he
          exact (ht.acyclic t.slot .refl) (.tail' hru ⟨_, hv, by simp [he]⟩)
        obtain ⟨i, shape, -, hi, hcount, hone⟩ :=
          ht.once l.slot (hmem hu (by simp)) hne
        have hsi := hone s hru ⟨_, hv, by simp⟩
        subst hsi
        obtain rfl := Option.some.inj (hi.symm.trans hv)
        by_cases hlr : l.slot = r.slot
        · simp [hlr] at hcount
        · obtain ⟨p, hp, hpc⟩ :=
            (h.subtree (Tree.subtrees_trans hr hu)).exists_parent hm hlr
          exact hsr ((hone p (hmem hu (by simp [hp])) hpc) ▸ hp)
      · intro v hvl j hc hnot hm
        have hvr : view.Reaches t.slot v.slot :=
          hmem hu (by simp [Tree.slots_subset hvl (Tree.slot_mem_slots v)])
        have hne : j ≠ t.slot := by
          rintro rfl
          exact ht.acyclic _ .refl (.tail' hvr hc)
        obtain ⟨i, shape, -, -, -, hone⟩ := ht.once j (hmem hu (by simp [hm])) hne
        have hvi := hone v.slot hvr hc
        by_cases hjr : j = r.slot
        · have hsi := hone s hru ⟨_, hv, by simp [hjr]⟩
          exact hsl (hsi.trans hvi.symm ▸ Tree.slots_subset hvl (Tree.slot_mem_slots v))
        · obtain ⟨p, hp, hpc⟩ := (h.subtree (Tree.subtrees_trans hr hu)).exists_parent hm hjr
          have hpi := hone p (hmem hu (by simp [hp])) hpc
          exact hnot (hvi.trans hpi.symm ▸ hp)
    simp only [Tree.slots, List.nodup_append, List.nodup_singleton, true_and, List.mem_singleton]
    refine ⟨⟨ihl (Tree.subtrees_trans hl hu), ihr (Tree.subtrees_trans hr hu), ?_⟩, ?_⟩
    · intro a ha b hb hab
      exact hdis a ha (hab ▸ hb)
    · intro a ha b hb hab
      subst hab hb
      rcases List.mem_append.mp ha with ha | ha
      · exact hsl ha
      · exact hsr ha

/-- What `TreeAt.once` asks of a slot, with the parent given as a subtree. -/
def OnceIn (view : View ι β υ α) (t : Tree ι β υ α) (j : ι) : Prop :=
  ∃ u ∈ t.subtrees, u.shape.children.count j = 1 ∧ ∀ i ∈ t.slots, view.Child i j → i = u.slot

/-- A child `c` of the root passes `OnceIn` on, if only the root refers into
`c` from outside, and to its root only. -/
theorem Holds.onceIn_child {t c : Tree ι β υ α} (h : Holds view t) (hc : c ∈ t.subtrees)
    (hcount : t.shape.children.count c.slot = 1)
    (hsep : ∀ i ∈ t.slots, ∀ j ∈ c.slots, view.Child i j → i ∉ c.slots → i = t.slot ∧ j = c.slot)
    (ih : ∀ j ∈ c.slots, j ≠ c.slot → OnceIn view c j) : ∀ j ∈ c.slots, OnceIn view t j := by
  intro j hj
  by_cases hjc : j = c.slot
  · subst hjc
    refine ⟨t, by simp, hcount, fun i hi hi' => ?_⟩
    by_cases him : i ∈ c.slots
    · exact absurd (.tail' ((h.subtree hc).reaches_iff.mpr him) hi') (h.subtree hc).acyclic
    · exact (hsep i hi _ hj hi' him).1
  · obtain ⟨u, hu, hone, huniq⟩ := ih j hj hjc
    refine ⟨u, Tree.subtrees_trans hu hc, hone, fun i hi hi' => ?_⟩
    by_cases him : i ∈ c.slots
    · exact huniq i him hi'
    · exact absurd (hsep i hi j hj hi' him).2 hjc

theorem Holds.onceIn_of_nodup {t : Tree ι β υ α} (h : Holds view t) (hn : t.slots.Nodup) :
    ∀ j ∈ t.slots, j ≠ t.slot → OnceIn view t j := by
  have hin {v : Tree ι β υ α} (hv : Holds view v) {i j : ι} (hi : i ∈ v.slots)
      (hc : view.Child i j) : j ∈ v.slots :=
    hv.reaches_iff.mp ((hv.reaches_iff.mpr hi).tail hc)
  induction t with
  | leaf s a => intro j hj hne; exact absurd (by simpa using hj) hne
  | un s f c ih =>
    intro j hj hne
    have hjc : j ∈ c.slots := by simpa [show j ≠ s from hne] using hj
    refine h.onceIn_child (by simp) (by simp) ?_ (ih h.2 (Tree.nodup_child hn)) j hjc
    intro i hi k hk hik hic
    obtain rfl : i = s := by simpa [hic] using hi
    exact ⟨rfl, by simpa [View.Child, h.1] using hik⟩
  | bin s g l r ihl ihr =>
    intro j hj hne
    obtain ⟨⟨hnl, hnr, hdis⟩, -⟩ : (l.slots.Nodup ∧ r.slots.Nodup ∧
        ∀ a ∈ l.slots, ∀ b ∈ r.slots, a ≠ b) ∧ _ := by
      have := List.nodup_append.mp hn
      exact ⟨List.nodup_append.mp this.1, this.2⟩
    have hlr : l.slot ≠ r.slot := hdis _ (by simp) _ (by simp)
    have hs {k : ι} (hk : view.Child s k) : k = l.slot ∨ k = r.slot := by
      simpa [View.Child, h.1] using hk
    rcases (by simpa [show j ≠ s from hne] using hj : j ∈ l.slots ∨ j ∈ r.slots) with hjl | hjr
    · refine h.onceIn_child (by simp) (by simp [hlr.symm]) ?_ (ihl h.2.1 hnl) j hjl
      intro i hi k hk hik hil
      rcases (by simpa [hil] using hi : i ∈ r.slots ∨ i = s) with hir | rfl
      · exact absurd rfl (hdis k hk k (hin h.2.2 hir hik))
      · refine ⟨rfl, (hs hik).resolve_right ?_⟩
        rintro rfl
        exact hdis _ hk _ (by simp) rfl
    · refine h.onceIn_child (by simp) (by simp [hlr]) ?_ (ihr h.2.2 hnr) j hjr
      intro i hi k hk hik hir
      rcases (by simpa [hir] using hi : i ∈ l.slots ∨ i = s) with hil | rfl
      · exact absurd rfl (hdis k (hin h.2.1 hil hik) k hk)
      · refine ⟨rfl, (hs hik).resolve_left ?_⟩
        rintro rfl
        exact hdis _ (by simp) _ hk rfl

/-- A held term sits in a tree exactly when it repeats no slot. -/
theorem Holds.treeAt_iff_nodup {t : Tree ι β υ α} (h : Holds view t) :
    view.TreeAt t.slot ↔ t.slots.Nodup := by
  refine ⟨h.nodup_of_treeAt, fun hn => { h.unfolds with once := fun j hj hne => ?_ }⟩
  obtain ⟨u, hu, hcount, huniq⟩ := h.onceIn_of_nodup hn j (h.reaches_iff.mp hj) hne
  exact ⟨u.slot, u.shape, h.reaches_iff.mpr (Tree.mem_slots.mpr ⟨u, hu, rfl⟩),
    (h.subtree hu).root, hcount, fun i hi hc => huniq i (h.reaches_iff.mp hi) hc⟩

end

end Library
