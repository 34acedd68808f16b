import ExprLang.Proofs.Reader.Covers
import ExprLang.Proofs.Tree.Changes

/-!
# Expressions built by hand

Nodes are added to an arena one by one, and a new node takes its children from
wherever they were.  So children never come after their parents, and a node whose
slots are filled all the way down stands for a tree.

Main definitions:

- Definition {lit}`Arena.Allocated`: arenas to which nodes have been added.
- Definition {lit}`Arena.IsExpression`: nodes that are expressions all the way down.

Main results:

- Theorem {lit}`Arena.Allocated.index_le`: children do not come after their parents.
- Theorem {lit}`Arena.IsExpression.exists_denotes`: the tree of an expression.
-/

namespace ExprLang

/-! ## Arenas that nodes are added to -/

namespace Arena

variable {a b : Arena} {id : NodeId}

/-- Children that are taken over one after the other are nodes, and no node gets a new child. -/
theorem of_claimChildren {scope? : Option ScopeId} {children : List NodeId}
    (h : children.foldlM (fun a child => a.claimChild id scope? child) a = .ok b) :
    (∀ child ∈ children, child.index < a.size) ∧ ∀ q, b.children q ⊆ a.children q := by
  induction children generalizing a with
  | nil =>
    cases h
    exact ⟨nofun, fun q => List.Subset.refl _⟩
  | cons child children ih =>
    rw [List.foldlM_cons] at h
    obtain ⟨c, hc, h⟩ := exists_of_bind_eq_ok h
    have hmoved := moved_of_claimChild hc
    obtain ⟨hchildren, hsubset⟩ := ih h
    refine ⟨List.forall_mem_cons.2 ⟨hmoved.index_lt, hmoved.size_eq ▸ hchildren⟩, fun q d hd => ?_⟩
    have hpos := count_pos_iff.2 (hsubset q hd)
    rw [hmoved.count_eq] at hpos
    exact count_pos_iff.1 (by omega)

/-- An arena to which nodes have been added one by one, and nothing else has been done to its
nodes. -/
inductive Allocated : Arena → Prop
  | empty : Allocated empty
  | newScope {a : Arena} {parent : Option ScopeId} (h : Allocated a) :
    Allocated (a.newScope parent).2
  | alloc {a b : Arena} {form : Form} {id : NodeId} (h : Allocated a)
    (ha : a.alloc form = .ok (id, b)) : Allocated b

/-- Children do not come after their parents. -/
theorem Allocated.index_le (h : Allocated a) :
    ∀ id, ∀ child ∈ a.children id, child.index ≤ id.index := by
  induction h with
  | empty =>
    exact fun id child hc => absurd hc (by simp [Arena.children, form?, node?, Arena.empty])
  | newScope h ih => exact ih
  | @alloc a b form new h ha ih =>
    intro id child hc
    obtain ⟨c, hc', he⟩ := exists_of_bind_eq_ok ha
    cases he
    obtain ⟨hsize, hsubset⟩ := of_claimChildren hc'
    have hpushed := hsubset id hc
    have hsize' :
        ({ a with nodes := a.nodes.push { form := form } } : Arena).size = a.size + 1 := by
      simp [size]
    rcases Nat.lt_trichotomy id.index a.size with hlt | heq | hgt
    · refine ih id child ?_
      have hlt : id.index < a.nodes.size := hlt
      simpa [Arena.children, form?, node?, Array.getElem?_push, Nat.ne_of_lt hlt] using hpushed
    · have hform : child ∈ form.children := by
        have heq : id.index = a.nodes.size := heq
        simpa [Arena.children, form?, node?, Array.getElem?_push, heq] using hpushed
      have := hsize child hform
      omega
    · have hnone : ({ a with nodes := a.nodes.push { form := form } } : Arena).form? id = none := by
        rw [form?_eq_none_iff, hsize']
        omega
      simp [Arena.children, hnone] at hpushed

/-! ## Expressions -/

end Arena

/-- The values that need neither quotes nor a fraction. -/
def Literal.Plain : Literal → Prop
  | string _ | float _ | double _ => False
  | value => value.Writable

namespace Arena

/-- A node is an expression, and so are the nodes below it: every slot that has to be filled is
filled, names are names, and what is called without its name is no name. -/
inductive IsExpression (a : Arena) : NodeId → Prop
  | literal {id : NodeId} {value : Literal} (hf : a.form? id = some (.literal value))
    (hv : value.Plain) : IsExpression a id
  | reference {id : NodeId} {name : String} (hf : a.form? id = some (.reference name))
    (hn : IsName name) : IsExpression a id
  | unary {id operand : NodeId} {operator : UnaryOperator}
    (hf : a.form? id = some (.unary operator (some operand))) (ho : IsExpression a operand) :
    IsExpression a id
  | binary {id left right : NodeId} {operator : BinaryOperator}
    (hf : a.form? id = some (.binary (some left) operator (some right)))
    (hl : IsExpression a left) (hr : IsExpression a right) : IsExpression a id
  | assignment {id target value : NodeId} {operator : AssignmentOperator}
    (hf : a.form? id = some (.assignment (some target) operator (some value)))
    (ht : IsExpression a target) (hv : IsExpression a value) : IsExpression a id
  | infixInvocation {id left right : NodeId} {name : String}
    (hf : a.form? id = some (.infixInvocation (some left) name (some right)))
    (hl : IsExpression a left) (hn : IsIdentifier name) (hr : IsExpression a right) :
    IsExpression a id
  | memberAccess {id receiver : NodeId} {member : String}
    (hf : a.form? id = some (.memberAccess (some receiver) member))
    (hr : IsExpression a receiver) (hm : IsName member) : IsExpression a id
  | namedInvocation {id : NodeId} {name : String} {arguments : List NodeId}
    (hf : a.form? id = some (.namedInvocation name arguments)) (hn : IsName name)
    (ha : ∀ argument ∈ arguments, IsExpression a argument) : IsExpression a id
  | anonymousInvocation {id target : NodeId} {arguments : List NodeId}
    (hf : a.form? id = some (.anonymousInvocation (some target) arguments))
    (ht : IsExpression a target) (hr : ∀ name, a.form? target ≠ some (.reference name))
    (ha : ∀ argument ∈ arguments, IsExpression a argument) : IsExpression a id
  | conditional {id condition thenBranch : NodeId} {elseBranch : Option NodeId}
    (hf : a.form? id = some (.conditional (some condition) (some thenBranch) elseBranch))
    (hc : IsExpression a condition) (ht : IsExpression a thenBranch)
    (he : ∀ branch ∈ elseBranch, IsExpression a branch) : IsExpression a id

namespace IsExpression

variable {a : Arena} {id : NodeId}

/-- What holds of an expression whenever it holds of its children holds of every expression. -/
theorem induct {p : NodeId → Prop}
    (step : ∀ id, a.IsExpression id → (∀ child ∈ a.children id, p child) → p id)
    (h : a.IsExpression id) : p id := by
  have hid := h
  induction h with
  | literal hf | reference hf =>
    exact step _ hid (by simp [Arena.children, hf, Form.children, Form.childGroups])
  | unary hf ho iho =>
    refine step _ hid ?_
    simpa [Arena.children, hf, Form.children, Form.childGroups, ChildGroup.children] using iho ho
  | memberAccess hf hr _ ihr =>
    refine step _ hid ?_
    simpa [Arena.children, hf, Form.children, Form.childGroups, ChildGroup.children] using ihr hr
  | binary hf hl hr ihl ihr | assignment hf hl hr ihl ihr
  | infixInvocation hf hl _ hr ihl ihr =>
    refine step _ hid ?_
    simpa [Arena.children, hf, Form.children, Form.childGroups, ChildGroup.children]
      using ⟨ihl hl, ihr hr⟩
  | namedInvocation hf _ ha iha =>
    refine step _ hid ?_
    simpa [Arena.children, hf, Form.children, Form.childGroups, ChildGroup.children]
      using fun argument hargument => iha argument hargument (ha argument hargument)
  | anonymousInvocation hf ht _ ha iht iha =>
    refine step _ hid ?_
    simpa [Arena.children, hf, Form.children, Form.childGroups, ChildGroup.children]
      using ⟨iht ht, fun argument hargument => iha argument hargument (ha argument hargument)⟩
  | conditional hf hc ht he ihc iht ihe =>
    refine step _ hid ?_
    simpa [Arena.children, hf, Form.children, Form.childGroups, ChildGroup.children]
      using ⟨ihc hc, iht ht, fun branch hbranch => ihe branch hbranch (he branch hbranch)⟩

/-- An expression is not its own child. -/
theorem not_mem_children (h : a.IsExpression id) : id ∉ a.children id :=
  induct (p := fun id => id ∉ a.children id) (fun _ _ ih hmem => ih _ hmem hmem) h

end IsExpression

end Arena

/-! ## Trees of expressions -/

/-- A tree that is a plain value, or no value and neither a template nor a pattern, and that opens
no scope. -/
def Tree.IsPlain : Tree → Prop
  | literal value => value.Plain
  | stringTemplate _ | patternArgument _ | compilationUnit .. | block _ | function .. => False
  | _ => True

namespace Tree

variable {tree : Tree}

/-- What follows at each place of a tree follows throughout. -/
theorem All.imp {p q : Tree → Prop} (h : tree.All p) (hpq : ∀ t, p t → q t) : tree.All q := by
  induction h with
  | intro here _ ih => exact .intro (hpq _ here) ih

/-- A plain tree tells itself from others. -/
theorem IsPlain.prints (h : tree.IsPlain) : tree.Prints := by
  cases tree <;> trivial

/-- A plain tree is tidy at its root. -/
theorem IsPlain.isTidy (h : tree.IsPlain) : tree.isTidy = true := by
  cases tree <;> first | rfl | exact h.elim

/-- A plain value is read from its text. -/
theorem IsPlain.legible (h : tree.IsPlain) : ∀ value, tree = literal value → value.Legible := by
  rintro value rfl
  cases value <;> trivial

end Tree

/-- A plain value can be written. -/
theorem Literal.Plain.writable {value : Literal} (h : value.Plain) : value.Writable := by
  cases value <;> first | exact h | exact False.elim h

/-- Nodes that stand for trees of some kind stand for a list of such trees. -/
theorem exists_forall₂ {α β : Type} {r : α → β → Prop} {p : β → Prop} {xs : List α}
    (h : ∀ x ∈ xs, ∃ t, r x t ∧ p t) : ∃ ts, List.Forall₂ r xs ts ∧ ∀ t ∈ ts, p t := by
  induction xs with
  | nil => exact ⟨[], .nil, nofun⟩
  | cons x xs ih =>
    obtain ⟨t, ht, hpt⟩ := h x (List.mem_cons_self ..)
    obtain ⟨ts, hts, hpts⟩ := ih fun y hy => h y (List.mem_cons_of_mem _ hy)
    exact ⟨t :: ts, .cons ht hts, List.forall_mem_cons.2 ⟨hpt, hpts⟩⟩

namespace Arena

/-- An expression stands for a plain tree of the language. -/
theorem IsExpression.exists_denotes {a : Arena} {id : NodeId} (h : a.IsExpression id)
    (hle : ∀ id, ∀ child ∈ a.children id, child.index ≤ id.index) :
    ∃ tree, a.Denotes id tree ∧ Tree.Written .expression tree ∧ tree.All Tree.IsPlain := by
  refine induct (p := fun id => ∃ tree, a.Denotes id tree ∧ Tree.Written .expression tree ∧
    tree.All Tree.IsPlain) (fun id h ih => ?_) h
  have holder {form : Form} (hf : a.form? id = some form) :
      ∀ child ∈ form.children, child.index < id.index := by
    intro child hc
    have hc : child ∈ a.children id := by simpa [Arena.children, hf] using hc
    have hne : child.index ≠ id.index := by
      intro he
      have he : child = id := congrArg NodeId.mk he
      exact h.not_mem_children (he ▸ hc)
    exact Nat.lt_of_le_of_ne (hle id child hc) hne
  have hgroup (child : NodeId) (group : ChildGroup) {form : Form} (hf : a.form? id = some form)
      (hg : group ∈ form.childGroups) (hc : child ∈ group.children) :
      ∃ tree, a.Denotes child tree ∧ Tree.Written .expression tree ∧ tree.All Tree.IsPlain := by
    refine ih child ?_
    simp only [Arena.children, hf, Option.elim_some, Form.children]
    exact List.mem_flatMap.2 ⟨group, hg, hc⟩
  have hsome (child : NodeId) {form : Form} (hf : a.form? id = some form)
      (hg : .slot (some child) ∈ form.childGroups := by simp [Form.childGroups]) :
      ∃ tree, a.Denotes child tree ∧ Tree.Written .expression tree ∧ tree.All Tree.IsPlain :=
    hgroup child (.slot (some child)) hf hg (by simp [ChildGroup.children])
  have hlist (items : List NodeId) {form : Form} (hf : a.form? id = some form)
      (hg : .list items ∈ form.childGroups := by simp [Form.childGroups]) :
      ∃ trees, List.Forall₂ a.Denotes items trees ∧
        ∀ tree ∈ trees, Tree.Written .expression tree ∧ tree.All Tree.IsPlain :=
    exists_forall₂ fun item hitem => hgroup item (.list items) hf hg hitem
  cases h with
  | literal hf hv =>
    exact ⟨.literal _, .intro hf rfl (holder hf) .nil, .literal hv.writable,
      .intro hv (List.forall_mem_nil _)⟩
  | reference hf hn =>
    exact ⟨.reference _, .intro hf rfl (holder hf) .nil, .reference hn,
      .intro trivial (List.forall_mem_nil _)⟩
  | @unary _ operand operator hf =>
    obtain ⟨tree, hd, hw, hp⟩ := hsome operand hf
    exact ⟨.unary operator tree, .intro hf rfl (holder hf) (.cons (.cons hd .nil) .nil), .unary hw,
      .intro trivial (by simpa [Tree.children, Tree.groups] using hp)⟩
  | @binary _ left right operator hf =>
    obtain ⟨l, hdl, hwl, hpl⟩ := hsome left hf
    obtain ⟨r, hdr, hwr, hpr⟩ := hsome right hf
    exact ⟨.binary l operator r,
      .intro hf rfl (holder hf) (.cons (.cons hdl .nil) (.cons (.cons hdr .nil) .nil)),
      .binary hwl hwr, .intro trivial (by simpa [Tree.children, Tree.groups] using ⟨hpl, hpr⟩)⟩
  | @assignment _ target value operator hf =>
    obtain ⟨l, hdl, hwl, hpl⟩ := hsome target hf
    obtain ⟨r, hdr, hwr, hpr⟩ := hsome value hf
    exact ⟨.assignment l operator r,
      .intro hf rfl (holder hf) (.cons (.cons hdl .nil) (.cons (.cons hdr .nil) .nil)),
      .assignment hwl hwr,
      .intro trivial (by simpa [Tree.children, Tree.groups] using ⟨hpl, hpr⟩)⟩
  | @infixInvocation _ left right name hf _ hn =>
    obtain ⟨l, hdl, hwl, hpl⟩ := hsome left hf
    obtain ⟨r, hdr, hwr, hpr⟩ := hsome right hf
    exact ⟨.infixInvocation l name r,
      .intro hf rfl (holder hf) (.cons (.cons hdl .nil) (.cons (.cons hdr .nil) .nil)),
      .infixInvocation hwl hn hwr,
      .intro trivial (by simpa [Tree.children, Tree.groups] using ⟨hpl, hpr⟩)⟩
  | @memberAccess _ receiver member hf _ hm =>
    obtain ⟨tree, hd, hw, hp⟩ := hsome receiver hf
    exact ⟨.memberAccess tree member, .intro hf rfl (holder hf) (.cons (.cons hd .nil) .nil),
      .memberAccess hw hm, .intro trivial (by simpa [Tree.children, Tree.groups] using hp)⟩
  | @namedInvocation _ name arguments hf hn =>
    obtain ⟨trees, hd, hall⟩ := hlist arguments hf
    exact ⟨.namedInvocation name trees, .intro hf rfl (holder hf) (.cons hd .nil),
      .namedInvocation hn fun t ht => (hall t ht).1,
      .intro trivial (by simpa [Tree.children, Tree.groups] using fun t ht => (hall t ht).2)⟩
  | @anonymousInvocation _ target arguments hf ht hr =>
    obtain ⟨tree, hd, hw, hp⟩ := hsome target hf
    obtain ⟨trees, hds, hall⟩ := hlist arguments hf
    have hne (name : String) : tree ≠ .reference name := by
      rintro rfl
      obtain ⟨hform, hbare, -, -⟩ := hd
      rename_i form
      cases form <;> cases hbare
      exact hr name hform
    exact ⟨.anonymousInvocation tree trees,
      .intro hf rfl (holder hf) (.cons (.cons hd .nil) (.cons hds .nil)),
      .anonymousInvocation hw hne fun t ht => (hall t ht).1,
      .intro trivial (by
        simpa [Tree.children, Tree.groups] using ⟨hp, fun t ht => (hall t ht).2⟩)⟩
  | @conditional _ condition thenBranch elseBranch hf hc ht he =>
    obtain ⟨c, hdc, hwc, hpc⟩ := hsome condition hf
    obtain ⟨t, hdt, hwt, hpt⟩ := hsome thenBranch hf
    cases elseBranch with
    | none =>
      exact ⟨.conditional c t none,
        .intro hf rfl (holder hf)
          (.cons (.cons hdc .nil) (.cons (.cons hdt .nil) (.cons .nil .nil))),
        .conditional hwc hwt (by simp),
        .intro trivial (by simpa [Tree.children, Tree.groups] using ⟨hpc, hpt⟩)⟩
    | some elseBranch =>
      obtain ⟨e, hde, hwe, hpe⟩ := hsome elseBranch hf
      refine ⟨.conditional c t (some e),
        .intro hf rfl (holder hf)
          (.cons (.cons hdc .nil) (.cons (.cons hdt .nil) (.cons (.cons hde .nil) .nil))),
        .conditional hwc hwt ?_,
        .intro trivial (by simpa [Tree.children, Tree.groups] using ⟨hpc, hpt, hpe⟩)⟩
      rintro branch ⟨⟩
      exact hwe

end Arena

end ExprLang
