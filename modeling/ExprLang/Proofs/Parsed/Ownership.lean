import ExprLang.Proofs.Lookup
import ExprLang.Proofs.Parser.Invariants

/-!
# Parsed trees own their nodes

Rules abandon nodes: the name that is called, the path of an import, all that was
built before an error.  What hangs below a root is a tree all the same.  From the
root each node is reached on one way, in one place of its parent, which is newer
than the node, and every node has a position.

Main definitions:

- Definition {lit}`Arena.OwnedTree`: the nodes at a root make up a tree.

Main results:

- Theorem {lit}`Arena.Reaches.above_unique`: there is one way to a node.
- Theorem {lit}`Parser.tree_owned`: what rules answer with is such a tree.
-/

namespace ExprLang

namespace Arena

variable {a : Arena} {root n : NodeId} {above above' : List NodeId}

/-- The nodes at a root make up a tree: each is reached on one way and named once by the node that
holds it, which is newer and is its recorded parent; each has a position. -/
structure OwnedTree (a : Arena) (root : NodeId) : Prop where
  parent?_root : a.parent? root = none
  above_unique : ∀ above above' n, a.Reaches root above n → a.Reaches root above' n →
    above = above'
  nodup_children : ∀ above n, a.Reaches root above n → (a.children n).Nodup
  index_lt : ∀ above n child, a.Reaches root above n → child ∈ a.children n →
    child.index < n.index
  parent?_child : ∀ above n child, a.Reaches root above n → child ∈ a.children n →
    a.parent? child = some n
  placed : ∀ above n, a.Reaches root above n → ∃ span, a.position? n = some span

/-- A node with children has a form that names them. -/
theorem exists_form?_of_mem_children {child : NodeId} (h : child ∈ a.children n) :
    ∃ form, a.form? n = some form ∧ child ∈ form.children := by
  unfold children at h
  cases hform : a.form? n with
  | none => simp [hform] at h
  | some form => exact ⟨form, rfl, by simpa [hform] using h⟩

/-- In balance, there is one way from a root without a parent to a node. -/
theorem Reaches.above_unique {strict : Prop} (h : a.Reaches root above n)
    (h' : a.Reaches root above' n) (ho : a.Owned strict) (hroot : a.parent? root = none) :
    above = above' := by
  have hchild {id : NodeId} {form : Form} (hform : a.form? id = some form) :
      root ∉ form.children := fun hmem => by
    rw [ho.parent?_of_mem hform hmem] at hroot
    cases hroot
  induction h generalizing above' with
  | root =>
    cases h' with
    | root => rfl
    | child _ hform hmem => exact absurd hmem (hchild hform)
  | child _ hform hmem ih =>
    cases h' with
    | root => exact absurd hmem (hchild hform)
    | child hreach hform' hmem' =>
      have hparent := ho.parent?_of_mem hform hmem
      rw [ho.parent?_of_mem hform' hmem'] at hparent
      cases hparent
      rw [ih hreach]

end Arena

namespace Parser

/-- The rules for sources keep an invariant of arenas. -/
theorem RootRule.keeps (rule : RootRule) {I : Arena → Prop} [Arena.Invariant I] :
    Keeps I rule.parser := by
  have hclosed : Closed fun _ p => Keeps I p := inferInstance
  cases rule with
  | expression min => exact (hclosed.has_expression min).out
  | statement => exact hclosed.has_statement.out
  | compilationUnit => exact hclosed.has_compilationUnit.out
  | entry e => exact hclosed.entry e

/-- The nodes at the root that a rule answers with make up a tree, whatever errors there were. -/
theorem tree_owned {rule : RootRule} {text description : String} {options : ParseOptions}
    {a : Arena} {root : NodeId} (h : rule.tree? text description options = some (a, root)) :
    a.OwnedTree root := by
  obtain ⟨t, tree, hrun, rfl, hdenotes, hwritten, hfree, hmirrors⟩ := RootRule.exists_of_tree? h
  have hkeeps : Keeps Arena.Orderly rule.parser := rule.keeps
  have hordered := hkeeps.keeps (.ofText text description options) .empty
  rw [hrun] at hordered
  have howned : t.arena.Owned True := hordered.owned
  -- a node that is reached stands for a tree, so it exists and is newer than its children
  have hstands {above : List NodeId} {n : NodeId} (hn : t.arena.Reaches root above n) :
      ∃ tree, t.arena.Denotes n tree := by
    obtain ⟨role, tree, hd, -⟩ := (hn.descends hdenotes hwritten hmirrors).denotes
    exact ⟨tree, hd⟩
  refine ⟨hfree.parent?_eq, fun above above' n hn hn' =>
    hn.above_unique hn' howned hfree.parent?_eq, fun above n _ => howned.nodup_children n,
    fun above n child hn hc => ?_, fun above n child _ hc => ?_, fun above n hn => ?_⟩
  · obtain ⟨form, hform, hmem⟩ := Arena.exists_form?_of_mem_children hc
    obtain ⟨tree', hd⟩ := hstands hn
    obtain ⟨-, holder, -⟩ := hd.children hform
    exact holder child hmem
  · obtain ⟨form, hform, hmem⟩ := Arena.exists_form?_of_mem_children hc
    exact howned.parent?_of_mem hform hmem
  · obtain ⟨tree', hd⟩ := hstands hn
    exact hordered.placed n hd.index_lt

/-- A unit after two errors: the name that is called and the name in the broken statement are
abandoned; the call is held by the return. -/
theorem tree_owned_call : ∃ a root,
    RootRule.compilationUnit.tree? "fun f(x) { y +; return f(x) } fun" "" {} = some (a, root) ∧
      a.parent? ⟨4⟩ = some ⟨5⟩ ∧ a.OwnedTree root := by
  have hsome : (RootRule.compilationUnit.tree? "fun f(x) { y +; return f(x) } fun" "" {}).any
      (fun p => p.1.parent? ⟨4⟩ == some ⟨5⟩) = true := by decide +kernel
  obtain ⟨p, htree, hparent⟩ := (Option.any_eq_true _ _).1 hsome
  exact ⟨p.1, p.2, htree, by simpa using hparent, tree_owned htree⟩

end Parser

end ExprLang
