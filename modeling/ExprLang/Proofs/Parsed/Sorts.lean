import ExprLang.Proofs.Lookup
import ExprLang.Proofs.Tree.Changes

/-!
# Parsed trees are well sorted

The fields of a node hold the numbers of any nodes; only the rules see to it that
these are nodes of the right sort.  In a tree that a rule answers with they are, and
nothing that a node needs is missing, also where a rule went on after an error.

Main definitions:

- Definition {lit}`Form.role`: the sort of a form.
- Definitions {lit}`Form.itemRole` and {lit}`Form.mayLack`: what the lists of a form
  hold, and which slots may be empty.
- Definition {lit}`Arena.WellSorted`: the nodes at a root are of the right sorts.

Main results:

- Theorem {lit}`Arena.Denotes.field`: what the fields of a node hold.
- Theorem {lit}`Parser.tree_wellSorted`: what rules answer with is well sorted.
-/

namespace ExprLang

/-! ## Sorts of forms -/

namespace Form

/-- The sort of a form. -/
def role : Form → Role
  | compilationUnit .. => .unit
  | importPath .. => .importPath
  | importEntry .. => .importEntry
  | function .. => .function
  | basicArgument .. | defaultArgument .. | patternArgument .. => .argument
  | localVariable .. | returnStatement .. | expressionStatement .. => .statement
  | literal .. | stringTemplate .. | reference .. | unary .. | binary .. | assignment ..
  | memberAccess .. | namedInvocation .. | anonymousInvocation .. | infixInvocation ..
  | conditional .. | block .. => .expression

/-- The sort of what a list holds: the arguments of a function are its own, those of a call are
expressions. -/
def itemRole : Form → ChildList → Role
  | _, .imports => .importPath
  | _, .declarations => .function
  | _, .entries => .importEntry
  | _, .statements => .statement
  | _, .parts => .expression
  | function .., .arguments => .argument
  | _, .arguments => .expression

/-- Whether a slot may be empty. -/
def mayLack : Form → Slot → Bool
  | conditional .., .elseBranch | localVariable .., .initializer
  | returnStatement .., .value => true
  | _, _ => false

/-- The sort of what each field holds, in source order, and whether the field may be empty. -/
def sorts : Form → List (Role × Bool)
  | compilationUnit .. => [(.importPath, true), (.function, true)]
  | importPath .. => [(.importEntry, true)]
  | block .. => [(.statement, true)]
  | stringTemplate .. | namedInvocation .. => [(.expression, true)]
  | unary .. | memberAccess .. | defaultArgument .. | patternArgument .. | expressionStatement .. =>
    [(.expression, false)]
  | binary .. | assignment .. | infixInvocation .. => [(.expression, false), (.expression, false)]
  | function .. => [(.argument, true), (.expression, false)]
  | anonymousInvocation .. => [(.expression, false), (.expression, true)]
  | conditional .. => [(.expression, false), (.expression, false), (.expression, true)]
  | localVariable .. | returnStatement .. => [(.expression, true)]
  | importEntry .. | literal .. | reference .. | basicArgument .. => []

@[simp] theorem role_bare (form : Form) : form.bare.role = form.role := by
  cases form <;> rfl

@[simp] theorem sorts_bare (form : Form) : form.bare.sorts = form.sorts := by
  cases form <;> rfl

/-- A slot is a field for an expression. -/
theorem mem_zip_of_slot? {form : Form} {name : Slot} {child? : Option NodeId}
    (h : form.slot? name = some child?) :
    ((.expression, form.mayLack name), .slot child?) ∈ form.sorts.zip form.childGroups := by
  cases form <;> cases name <;> simp only [slot?, Option.some.injEq, reduceCtorEq] at h <;>
    subst h <;> simp [sorts, childGroups, mayLack]

/-- A list is a field for what it holds. -/
theorem mem_zip_of_list? {form : Form} {name : ChildList} {items : List NodeId}
    (h : form.list? name = some items) :
    ((form.itemRole name, true), .list items) ∈ form.sorts.zip form.childGroups := by
  cases form <;> cases name <;> simp only [list?, Option.some.injEq, reduceCtorEq] at h <;>
    subst h <;> simp [sorts, childGroups, itemRole]

/-- A child sits in a slot or in a list. -/
theorem slot?_or_list?_of_mem_children {form : Form} {child : NodeId} (h : child ∈ form.children) :
    (∃ name, form.slot? name = some (some child)) ∨
      ∃ name items, form.list? name = some items ∧ child ∈ items := by
  rcases List.mem_append.1 (mem_held.2 h) with h | h
  · obtain ⟨name, -, hname⟩ := List.mem_flatMap.1 h
    exact .inl ⟨name, by simpa [Option.join_eq_some_iff] using hname⟩
  · obtain ⟨name, -, hname⟩ := List.mem_flatMap.1 h
    cases hlist : form.list? name with
    | none => simp [hlist] at hname
    | some items => exact .inr ⟨name, items, hlist, by simpa [hlist] using hname⟩

end Form

/-! ## Sorts of trees -/

/-- A tree has a root of its sort, and its fields hold trees of the sorts of the fields; only a
field that may be empty is. -/
theorem Tree.Written.sorts {role : Role} {tree : Tree} (h : Tree.Written role tree) :
    tree.shape.role = role ∧ List.Forall₂ (fun (sort : Role × Bool) (trees : List Tree) =>
      (∀ child ∈ trees, Tree.Written sort.1 child) ∧ (sort.2 = false → trees ≠ []))
      tree.shape.sorts tree.groups := by
  refine ⟨by cases h <;> rfl, ?_⟩
  cases h <;> simp only [Tree.shape, Tree.groups, Form.sorts, List.forall₂_cons,
    List.forall₂_nil_right_iff, List.mem_singleton, Option.mem_toList, forall_eq, ne_eq,
    List.cons_ne_self, not_false_eq_true, implies_true, false_implies, and_true,
    Bool.true_eq_false] <;> simp_all

namespace Arena

variable {a : Arena} {id root : NodeId} {tree : Tree} {role : Role} {form : Form}

/-- A node is of some sort. -/
def HasRole (a : Arena) (id : NodeId) (role : Role) : Prop :=
  ∃ form, a.form? id = some form ∧ form.role = role

/-- A node is of one sort. -/
theorem HasRole.unique {role' : Role} (h : a.HasRole id role) (h' : a.HasRole id role') :
    role = role' := by
  obtain ⟨form, hform, rfl⟩ := h
  obtain ⟨form', hform', rfl⟩ := h'
  cases hform.symm.trans hform'
  rfl

/-- A node is of the sort of the tree that it stands for. -/
theorem Denotes.hasRole (h : a.Denotes id tree) (hw : Tree.Written role tree) :
    a.HasRole id role := by
  obtain ⟨hform, hbare, -, -⟩ := h
  rename_i form
  exact ⟨form, hform, by rw [← form.role_bare, hbare, hw.sorts.1]⟩

/-- The fields of a node that stands for a tree hold nodes of the sorts of the fields; only a field
that may be empty is. -/
theorem Denotes.field (h : a.Denotes id tree) (hw : Tree.Written role tree)
    (hf : a.form? id = some form) {sort : Role × Bool} {group : ChildGroup}
    (hmem : (sort, group) ∈ form.sorts.zip form.childGroups) :
    (∀ child ∈ group.children, a.HasRole child sort.1) ∧
      (sort.2 = false → group.children ≠ []) := by
  obtain ⟨hbare, -, hgroups⟩ := h.children hf
  have hsorts := hw.sorts.2
  rw [← hbare, Form.sorts_bare] at hsorts
  rw [List.forall₂_map_left_iff] at hgroups
  -- a field and the trees in it are at the same place
  have hboth : List.Forall₂ (fun (sort : Role × Bool) (group : ChildGroup) =>
      (∀ child ∈ group.children, a.HasRole child sort.1) ∧ (sort.2 = false → group.children ≠ []))
      form.sorts form.childGroups := by
    generalize form.sorts = sorts at hsorts
    generalize form.childGroups = childGroups at hgroups
    generalize tree.groups = groups at hsorts hgroups
    induction hsorts generalizing childGroups with
    | nil =>
      cases hgroups
      exact .nil
    | @cons sort trees sorts groups hsort _ ih =>
      cases hgroups with
      | cons hgroup hgroups =>
        refine .cons ⟨?_, fun hneeded hnil => hsort.2 hneeded ?_⟩ (ih _ hgroups)
        · refine forall_of_forall₂ (forall₂_imp_of_mem hgroup fun child _ tree htree hd =>
            (⟨hd, hsort.1 tree htree⟩ : a.Denotes child tree ∧ Tree.Written sort.1 tree)) ?_
          rintro child tree ⟨hd, hw⟩
          exact hd.hasRole hw
        · rw [hnil] at hgroup
          cases hgroup
          rfl
  exact List.forall₂_zip hboth hmem

/-! ## Sorts of nodes -/

/-- The nodes at a root of some sort are of the right sorts, and nothing is missing. -/
structure WellSorted (a : Arena) (role : Role) (root : NodeId) : Prop where
  /-- The root is of its sort. -/
  atRoot : a.HasRole root role
  /-- The lists of a node hold nodes of the sorts of the lists. -/
  items : ∀ above n form name items, a.Reaches root above n → a.form? n = some form →
    form.list? name = some items → ∀ item ∈ items, a.HasRole item (form.itemRole name)
  /-- The slots of a node hold expressions; only the branch for otherwise, the first value of a
  variable and the value of a return may be left out. -/
  slots : ∀ above n form name child?, a.Reaches root above n → a.form? n = some form →
    form.slot? name = some child? → child? = none ∧ form.mayLack name = true ∨
      ∃ child, child? = some child ∧ a.HasRole child .expression
  /-- A call of a name is not a call of an expression. -/
  called : ∀ above n target arguments, a.Reaches root above n →
    a.form? n = some (.anonymousInvocation (some target) arguments) →
    ∀ name, a.form? target ≠ some (.reference name)
  /-- A node that is no expression hangs in a list for its sort. -/
  elsewhere : ∀ above n form child role, a.Reaches root above n → a.form? n = some form →
    child ∈ form.children → a.HasRole child role → role ≠ .expression →
    ∃ name items, form.list? name = some items ∧ child ∈ items ∧ form.itemRole name = role

/-- The slots of a node that stands for a tree. -/
theorem Denotes.slot (h : a.Denotes id tree) (hw : Tree.Written role tree)
    (hf : a.form? id = some form) {name : Slot} {child? : Option NodeId}
    (hslot : form.slot? name = some child?) : child? = none ∧ form.mayLack name = true ∨
      ∃ child, child? = some child ∧ a.HasRole child .expression := by
  obtain ⟨hroles, hfilled⟩ := h.field hw hf (Form.mem_zip_of_slot? hslot)
  cases child? with
  | none =>
    refine .inl ⟨rfl, ?_⟩
    cases hlack : form.mayLack name with
    | true => rfl
    | false => exact absurd rfl (hfilled hlack)
  | some child => exact .inr ⟨child, rfl, hroles child (List.mem_singleton.2 rfl)⟩

/-- The lists of a node that stands for a tree. -/
theorem Denotes.item (h : a.Denotes id tree) (hw : Tree.Written role tree)
    (hf : a.form? id = some form) {name : ChildList} {items : List NodeId}
    (hlist : form.list? name = some items) :
    ∀ item ∈ items, a.HasRole item (form.itemRole name) :=
  (h.field hw hf (Form.mem_zip_of_list? hlist)).1

/-- What is called by a node that stands for a tree, and is a child of it, is no name. -/
theorem Denotes.called_ne (h : a.Denotes id tree) (hw : Tree.Written role tree)
    {target : NodeId} {arguments : List NodeId}
    (hf : a.form? id = some (.anonymousInvocation (some target) arguments)) (name : String) :
    a.form? target ≠ some (.reference name) := by
  obtain ⟨hbare, -, hgroups⟩ := h.children hf
  cases hw <;> try (cases hbare; done)
  rename_i callee trees hcallee hne hall
  simp only [Form.childGroups, Tree.groups, ChildGroup.children, Option.toList_some, List.map_cons,
    List.forall₂_cons] at hgroups
  have hdenotes : a.Denotes target callee := hgroups.1.1
  intro htarget
  obtain ⟨hshape, -⟩ := hdenotes.children htarget
  cases callee <;> first | (cases hshape; done) | exact hne _ rfl

/-- The nodes at a root that stands for a tree are well sorted. -/
theorem Denotes.wellSorted (h : a.Denotes root tree) (hw : Tree.Written role tree)
    (hm : a.Mirrors none root) : a.WellSorted role root := by
  have hstands {above : List NodeId} {n : NodeId} (hn : a.Reaches root above n) :
      ∃ role tree, a.Denotes n tree ∧ Tree.Written role tree := (hn.descends h hw hm).denotes
  refine ⟨h.hasRole hw, fun above n form name items hn hf hlist => ?_,
    fun above n form name child? hn hf hslot => ?_, fun above n target arguments hn hf => ?_,
    fun above n form child role' hn hf hc hrole hne => ?_⟩
  all_goals obtain ⟨role, tree, hd, hw'⟩ := hstands hn
  · exact hd.item hw' hf hlist
  · exact hd.slot hw' hf hslot
  · exact hd.called_ne hw' hf
  · rcases Form.slot?_or_list?_of_mem_children hc with ⟨name, hslot⟩ | ⟨name, items, hlist, hmem⟩
    · rcases hd.slot hw' hf hslot with ⟨hnone, -⟩ | ⟨child', hsome, hexpression⟩
      · cases hnone
      · cases hsome
        exact absurd (hrole.unique hexpression) hne
    · exact ⟨name, items, hlist, hmem, (hd.item hw' hf hlist child hmem).unique hrole⟩

end Arena

/-! ## Parsed trees -/

namespace Parser

/-- The tree that a rule answers with is well sorted, whatever errors there were. -/
theorem tree_wellSorted {rule : RootRule} {text description : String} {options : ParseOptions}
    {a : Arena} {root : NodeId} (h : rule.tree? text description options = some (a, root)) :
    a.WellSorted rule.role root := by
  obtain ⟨t, tree, -, rfl, hdenotes, hwritten, -, hmirrors⟩ := RootRule.exists_of_tree? h
  exact hdenotes.wellSorted hwritten hmirrors

/-- A unit after errors in an import, in a statement and between functions: what is left is a unit
with one function, which has a pattern among its arguments and a call of a call. -/
theorem tree_wellSorted_unit : ∃ a root,
    RootRule.compilationUnit.tree?
        "import 1 fun f(x, (y)) { val; if (x) return; g(x)(y) } fun h" "" {} = some (a, root) ∧
      (a.list root .declarations).toOption.any (·.length == 1) = true ∧
      a.WellSorted .unit root := by
  have hsome : (RootRule.compilationUnit.tree?
      "import 1 fun f(x, (y)) { val; if (x) return; g(x)(y) } fun h" "" {}).any (fun p =>
        (p.1.list p.2 .declarations).toOption.any (·.length == 1)) = true := by decide +kernel
  obtain ⟨p, htree, hone⟩ := (Option.any_eq_true _ _).1 hsome
  exact ⟨p.1, p.2, htree, hone, tree_wellSorted htree⟩

end Parser

end ExprLang
