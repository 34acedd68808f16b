import ExprLang.Proofs.Tree.Denotes
import Mathlib.Data.Finset.Card
import Mathlib.Logic.Relation

/-!
# Depths of trees

A node of an arena is the root of a finite tree if every node below it exists and
none is below itself.  Nothing is said of parents, and nodes may be shared.  A way
down from the root comes to no node twice, so it is no longer than there are nodes.

Main definitions:

- Definition {lit}`Arena.IsTree`: roots of finite trees.
- Definition {lit}`Arena.NoDeeper`: trees of no more than so many levels.

Main results:

- Theorem {lit}`Arena.IsTree.noDeeper`: how deep a finite tree is at most.
- Theorem {lit}`Arena.Denotes.isTree`: what stands for a tree is the root of one.
-/

namespace ExprLang

namespace Arena

variable {a : Arena} {x y c : NodeId} {form : Form} {n m : Nat}

/-! ## Nodes below a node -/

/-- A node has a child. -/
def HasChild (a : Arena) (x c : NodeId) : Prop := ∃ form, a.form? x = some form ∧ c ∈ form.children

/-- A node is another one, or somewhere below it. -/
def HasBelow (a : Arena) : NodeId → NodeId → Prop := Relation.ReflTransGen a.HasChild

/-- A node is the root of a finite tree: it exists, like every node below it, and none of these is
below itself. -/
structure IsTree (a : Arena) (x : NodeId) : Prop where
  exists_form : ∀ y, a.HasBelow x y → ∃ form, a.form? y = some form
  acyclic : ∀ y, a.HasBelow x y → ¬ Relation.TransGen a.HasChild y y

namespace IsTree

/-- A child of the root of a finite tree is the root of one. -/
theorem child (h : a.IsTree x) (hc : a.HasChild x c) : a.IsTree c where
  exists_form _ hy := h.exists_form _ (.head hc hy)
  acyclic _ hy := h.acyclic _ (.head hc hy)

/-- A node above roots of finite trees is the root of one. -/
theorem of_children (hf : a.form? x = some form) (h : ∀ c ∈ form.children, a.IsTree c) :
    a.IsTree x := by
  have hchild {c : NodeId} (hc : a.HasChild x c) : a.IsTree c := by
    obtain ⟨form', hf', hmem⟩ := hc
    cases hf.symm.trans hf'
    exact h c hmem
  refine ⟨fun y hy => ?_, fun y hy hcircle => ?_⟩
  · rcases hy.cases_head with rfl | ⟨c, hc, hy⟩
    · exact ⟨form, hf⟩
    · exact (hchild hc).exists_form y hy
  · -- a circle through the root runs through a child of it
    rcases hy.cases_head with rfl | ⟨c, hc, hy⟩
    · obtain ⟨c, hc, hback⟩ := Relation.TransGen.head'_iff.1 hcircle
      exact (hchild hc).acyclic x hback hcircle
    · exact (hchild hc).acyclic y hy hcircle

end IsTree

/-- A node that stands for a tree is the root of a finite tree. -/
theorem Denotes.isTree {tree : Tree} (h : a.Denotes x tree) : a.IsTree x := by
  induction tree using Tree.induct generalizing x with
  | step tree ih =>
    obtain ⟨hform, -, -, hgroups⟩ := h
    refine .of_children hform ?_
    rw [Form.children_eq_flatten]
    have hchildren := forall₂_imp_of_mem (List.rel_flatten hgroups)
      fun c _ child hmem hdenotes => ih child hmem (x := c) hdenotes
    exact forall_of_forall₂ hchildren fun _ _ hc => hc

/-! ## Levels -/

/-- The tree at a node has no more than so many levels. -/
def NoDeeper (a : Arena) : Nat → NodeId → Prop
  | 0, _ => False
  | n + 1, x => ∃ form, a.form? x = some form ∧ ∀ c ∈ form.children, a.NoDeeper n c

/-- On a way down that has come through some nodes, there are no more levels than other nodes. -/
theorem IsTree.noDeeper_of_visited (h : a.IsTree x) {visited : Finset Nat}
    (hrange : visited ⊆ Finset.range a.size)
    (habove : ∀ i ∈ visited, Relation.TransGen a.HasChild ⟨i⟩ x)
    (hn : a.size ≤ visited.card + n) : a.NoDeeper n x := by
  obtain ⟨form, hform⟩ := h.exists_form x .refl
  have hnew : x.index ∉ visited := fun hmem => h.acyclic x .refl (habove _ hmem)
  induction n generalizing x visited form with
  | zero =>
    -- a node that was not visited is left, so not all of them were
    have hlt : visited.card < a.size := by
      rw [← Finset.card_range a.size]
      refine Finset.card_lt_card (Finset.ssubset_iff_of_subset hrange |>.2 ⟨x.index, ?_, hnew⟩)
      exact Finset.mem_range.2 (index_lt_of_form? hform)
    exact absurd hn (Nat.not_le_of_lt hlt)
  | succ n ih =>
    refine ⟨form, hform, fun c hc => ?_⟩
    have hchild : a.HasChild x c := ⟨form, hform, hc⟩
    have htree := h.child hchild
    obtain ⟨form', hform'⟩ := htree.exists_form c .refl
    have habove' : ∀ i ∈ insert x.index visited, Relation.TransGen a.HasChild ⟨i⟩ c := by
      refine Finset.forall_mem_insert _ _ _ |>.2 ⟨.single hchild, fun i hi => ?_⟩
      exact (habove i hi).tail hchild
    refine ih htree (Finset.insert_subset ?_ hrange) habove' ?_ form' hform' ?_
    · exact Finset.mem_range.2 (index_lt_of_form? hform)
    · rw [Finset.card_insert_of_notMem hnew]
      omega
    · exact fun hmem => htree.acyclic c .refl (habove' _ hmem)

/-- A finite tree has no more levels than there are nodes. -/
theorem IsTree.noDeeper (h : a.IsTree x) : a.NoDeeper a.size x :=
  h.noDeeper_of_visited (Finset.empty_subset _) (by simp) (by simp)

/-- A tree that has no more than some levels has no more than more levels. -/
theorem NoDeeper.mono (h : a.NoDeeper n x) (hnm : n ≤ m) : a.NoDeeper m x := by
  induction n generalizing x m with
  | zero => exact h.elim
  | succ n ih =>
    obtain ⟨form, hform, hchildren⟩ := h
    obtain ⟨m, rfl⟩ : ∃ k, m = k + 1 := ⟨m - 1, by omega⟩
    exact ⟨form, hform, fun c hc => ih (hchildren c hc) (Nat.le_of_succ_le_succ hnm)⟩

end Arena

end ExprLang
