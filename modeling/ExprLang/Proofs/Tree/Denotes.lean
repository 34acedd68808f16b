import ExprLang.Proofs.Tree.Basic
import ExprLang.Proofs.Tree.Growth
import ExprLang.Tree.Equivalence

/-!
# What nodes stand for

A node of an arena denotes a tree if its form and those of the nodes below it
are those of the tree.  Children come before their parents, so the depth to
which a tree has to be followed is bounded by the number of its root.

Main results:

- Definition {lit}`Arena.Denotes`: the tree that a node stands for.
- Theorem {lit}`Arena.Denotes.definitionName_eq`: the name that a node defines is
  that of its tree.
- Theorem {lit}`Arena.Denotes.equivalentWithin_iff`: nodes are equivalent exactly
  if their trees agree.
-/

namespace ExprLang

/-! ## Fields -/

/-- Whether a group is a field for one child at most. -/
def ChildGroup.isSlot : ChildGroup → Bool
  | .slot _ => true
  | .list _ => false

namespace Form

/-- Which fields are slots does not depend on the children. -/
@[simp] theorem isSlot_childGroups_bare (form : Form) :
    form.bare.childGroups.map ChildGroup.isSlot = form.childGroups.map ChildGroup.isSlot := by
  cases form <;> rfl

/-- The shape of a form does not depend on the children. -/
@[simp] theorem sameShape_bare (f g : Form) : f.bare.sameShape g.bare = f.sameShape g := by
  cases f <;> cases g <;> rfl

/-- Forms of the same shape have the same fields. -/
theorem isSlot_childGroups_eq {f g : Form} (h : f.sameShape g = true) :
    f.childGroups.map ChildGroup.isSlot = g.childGroups.map ChildGroup.isSlot := by
  have hbare (he : f.bare = g.bare) :
      f.childGroups.map ChildGroup.isSlot = g.childGroups.map ChildGroup.isSlot := by
    rw [← isSlot_childGroups_bare, he, isSlot_childGroups_bare]
  cases f with
  | literal x =>
    cases g with
    | literal y => rfl
    | _ => exact hbare (by simpa [sameShape] using h)
  | _ => exact hbare (by simpa [sameShape] using h)

/-- The scope that a form opens is left out of the bare form, but not whether it opens one. -/
@[simp] theorem isSome_scope?_bare (form : Form) :
    form.bare.scope?.isSome = form.scope?.isSome := by
  cases form <;> rfl

/-- The children of a form are those of its fields. -/
theorem children_eq_flatten (form : Form) :
    form.children = (form.childGroups.map ChildGroup.children).flatten := by
  rw [children, List.flatMap_def]

end Form

namespace Arena

/-- Fields of the same kinds agree if their children do. -/
theorem groupsAgree_iff {agree : NodeId → NodeId → Bool} {g h : ChildGroup}
    (hk : g.isSlot = h.isSlot) :
    groupsAgree agree g h = true ↔
      List.Forall₂ (fun x y => agree x y = true) g.children h.children := by
  have hlist (xs ys : List NodeId) : allPairs agree xs ys = true ↔
      List.Forall₂ (fun x y => agree x y = true) xs ys := by
    induction xs generalizing ys with
    | nil => cases ys <;> simp [allPairs]
    | cons x xs ih => cases ys <;> simp [allPairs, ih]
  cases g with
  | slot x =>
    cases h with
    | slot y => cases x <;> cases y <;> simp [groupsAgree, ChildGroup.children]
    | list ys => cases hk
  | list xs =>
    cases h with
    | slot y => cases hk
    | list ys => exact hlist xs ys

/-- Lists of fields of the same kinds agree if the children in each field do. -/
theorem allGroupsAgree_iff {agree : NodeId → NodeId → Bool} {gs hs : List ChildGroup}
    (hk : gs.map ChildGroup.isSlot = hs.map ChildGroup.isSlot) :
    allGroupsAgree agree gs hs = true ↔
      List.Forall₂ (List.Forall₂ fun x y => agree x y = true)
        (gs.map ChildGroup.children) (hs.map ChildGroup.children) := by
  induction gs generalizing hs with
  | nil =>
    cases hs with
    | nil => simp [allGroupsAgree]
    | cons h hs => simp at hk
  | cons g gs ih =>
    cases hs with
    | nil => simp at hk
    | cons h hs =>
      simp only [List.map_cons, List.cons.injEq] at hk
      simp [allGroupsAgree, groupsAgree_iff hk.1, ih hk.2]

/-! ## Trees of nodes -/

/-- A node stands for a tree: its form has the shape of the tree, and its children, which come
before it, stand for the children of the tree. -/
inductive Denotes (a : Arena) : NodeId → Tree → Prop
  | intro {id : NodeId} {form : Form} {tree : Tree} (form? : a.form? id = some form)
    (bare : form.bare = tree.shape) (older : ∀ child ∈ form.children, child.index < id.index)
    (groups : List.Forall₂ (List.Forall₂ (Denotes a))
      (form.childGroups.map ChildGroup.children) tree.groups) : Denotes a id tree

/-- What a relation says of its left side holds of every item on the left. -/
theorem forall_of_forall₂ {α β : Type} {r : α → β → Prop} {p : α → Prop} {xs : List α}
    {ts : List β} (h : List.Forall₂ r xs ts) (hp : ∀ x t, r x t → p x) : ∀ x ∈ xs, p x :=
  ((List.forall₂_and_left xs ts).1 (h.imp fun x t hr => ⟨hp x t hr, hr⟩)).1

/-- What a relation says of its right side holds of every item on the right. -/
theorem forall_right_of_forall₂ {α β : Type} {r : α → β → Prop} {p : β → Prop} {xs : List α}
    {ts : List β} (h : List.Forall₂ r xs ts) (hp : ∀ x t, r x t → p t) : ∀ t ∈ ts, p t :=
  forall_of_forall₂ (r := flip r) h.flip fun t x hr => hp x t hr

/-- A relation between lists can be replaced by another one that their items satisfy. -/
theorem forall₂_imp_of_mem {α β : Type} {r p : α → β → Prop} {xs : List α} {ts : List β}
    (h : List.Forall₂ r xs ts) (hp : ∀ x ∈ xs, ∀ t ∈ ts, r x t → p x t) :
    List.Forall₂ p xs ts := by
  induction h with
  | nil => exact .nil
  | cons hxt _ ih =>
    refine .cons (hp _ (List.mem_cons_self ..) _ (List.mem_cons_self ..) hxt) (ih ?_)
    intro x hx t ht
    exact hp x (List.mem_cons_of_mem _ hx) t (List.mem_cons_of_mem _ ht)

/-- Lists whose items stand for each other are related if what their items stand for is. -/
theorem forall₂_congr_of_forall₂ {α β γ δ : Type} {r : α → β → Prop} {s : γ → δ → Prop}
    {p : α → γ → Prop} {q : β → δ → Prop} {xs : List α} {ts : List β} {ys : List γ}
    {us : List δ} (hx : List.Forall₂ r xs ts) (hy : List.Forall₂ s ys us)
    (h : ∀ x ∈ xs, ∀ t ∈ ts, ∀ y u, r x t → s y u → (p x y ↔ q t u)) :
    List.Forall₂ p xs ys ↔ List.Forall₂ q ts us := by
  induction hx generalizing ys us with
  | nil => cases hy <;> simp
  | cons hxt hx ih =>
    cases hy with
    | nil => simp
    | cons hyu hy =>
      simp only [List.forall₂_cons]
      refine and_congr (h _ (List.mem_cons_self ..) _ (List.mem_cons_self ..) _ _ hxt hyu) ?_
      exact ih hy fun x hx t ht => h x (List.mem_cons_of_mem _ hx) t (List.mem_cons_of_mem _ ht)

namespace Denotes

variable {a b : Arena} {x y id : NodeId} {t u tree : Tree}

/-- A node that stands for a tree exists. -/
theorem index_lt (h : a.Denotes id tree) : id.index < a.size := by
  obtain ⟨hform, -, -, -⟩ := h
  exact index_lt_of_form? hform

/-- An arena that has the same forms stands for the same trees. -/
theorem mono (h : a.Denotes id tree)
    (hab : ∀ id form, a.form? id = some form → b.form? id = some form) :
    b.Denotes id tree := by
  induction tree using Tree.induct generalizing id with
  | step tree ih =>
    obtain ⟨hform, hbare, holder, hgroups⟩ := h
    refine .intro (hab _ _ hform) hbare holder ?_
    refine forall₂_imp_of_mem hgroups fun group _ trees htrees hgroup => ?_
    refine forall₂_imp_of_mem hgroup fun child _ tree htree hchild => ?_
    exact ih tree (Tree.mem_children_of_mem_group htrees htree) hchild

/-- A node that an arena keeps goes on standing for its tree. -/
theorem grows {base : Arena} (h : a.Denotes id tree) (hg : Grows base a b) :
    b.Denotes id tree :=
  h.mono fun _ _ => hg.form?_eq_some

/-- Children stand for the children of the tree. -/
theorem children {form : Form} (h : a.Denotes id tree) (hf : a.form? id = some form) :
    form.bare = tree.shape ∧ (∀ child ∈ form.children, child.index < id.index) ∧
      List.Forall₂ (List.Forall₂ a.Denotes)
        (form.childGroups.map ChildGroup.children) tree.groups := by
  obtain ⟨hform, hbare, holder, hgroups⟩ := h
  cases hf.symm.trans hform
  exact ⟨hbare, holder, hgroups⟩

/-! ## Names -/

/-- A node is a pattern exactly if its tree is one. -/
theorem isPatternArgument_eq (h : a.Denotes id tree) :
    a.isPatternArgument id = tree.isPatternArgument := by
  obtain ⟨hform, hbare, -, -⟩ := h
  unfold Arena.isPatternArgument
  rw [hform]
  rename_i form
  cases form <;> cases tree <;> first | rfl | cases hbare

/-- Nodes hold a pattern exactly if their trees do. -/
theorem any_isPatternArgument_eq {ids : List NodeId} {trees : List Tree}
    (h : List.Forall₂ a.Denotes ids trees) :
    ids.any a.isPatternArgument = trees.any Tree.isPatternArgument := by
  induction h with
  | nil => rfl
  | cons h _ ih => rw [List.any_cons, List.any_cons, ih, h.isPatternArgument_eq]

/-- The name that a node defines is that of its tree. -/
theorem definitionName_eq (h : a.Denotes id tree) :
    a.definitionName id = tree.definedName := by
  obtain ⟨hform, hbare, -, hgroups⟩ := h
  unfold Arena.definitionName
  rw [hform]
  rename_i form
  cases form with
  | function name isInfix arguments returnType body scope =>
    cases tree with
    | function name' isInfix' arguments' returnType' body' =>
      cases hbare
      simp only [Form.childGroups, Tree.groups, List.map_cons, List.forall₂_cons] at hgroups
      have harguments : List.Forall₂ a.Denotes arguments arguments' := hgroups.1
      simp only [Tree.definedName, any_isPatternArgument_eq harguments]
    | _ => cases hbare
  | _ => cases tree <;> first | (cases hbare; done) | (cases hbare; rfl)

/-- The names that nodes define are those of their trees. -/
theorem filterMap_definitionName_eq {ids : List NodeId} {trees : List Tree}
    (h : List.Forall₂ a.Denotes ids trees) :
    ids.filterMap a.definitionName = Tree.definedNames trees := by
  induction h with
  | nil => rfl
  | cons h _ ih =>
    have ih := ih
    simp only [Tree.definedNames] at ih ⊢
    rw [List.filterMap_cons, List.filterMap_cons, h.definitionName_eq, ih]

/-! ## Equivalence -/

/-- Nodes are equivalent to a sufficient depth exactly if their trees agree. -/
theorem equivalentWithin_iff {n : Nat} (hx : a.Denotes x t) (hy : b.Denotes y u)
    (hn : x.index < n) : equivalentWithin a b n x y = true ↔ t.Agrees u := by
  induction n generalizing x y t u with
  | zero => exact absurd hn (Nat.not_lt_zero _)
  | succ n ih =>
    obtain ⟨hxform, hxbare, hxolder, hxgroups⟩ := hx
    obtain ⟨hyform, hybare, -, hygroups⟩ := hy
    rename_i f g
    have hshape : f.sameShape g = t.shape.sameShape u.shape := by
      rw [← hxbare, ← hybare, Form.sameShape_bare]
    have hgroups (hs : f.sameShape g = true) :
        allGroupsAgree (equivalentWithin a b n) f.childGroups g.childGroups = true ↔
          List.Forall₂ (List.Forall₂ Tree.Agrees) t.groups u.groups := by
      rw [allGroupsAgree_iff (Form.isSlot_childGroups_eq hs)]
      refine forall₂_congr_of_forall₂ hxgroups hygroups ?_
      intro group hgroup ts _ group' us hts hus
      refine forall₂_congr_of_forall₂ hts hus ?_
      intro child hchild tree _ child' tree' htree htree'
      refine ih htree htree' ?_
      have hmem : child ∈ f.children := by
        rw [Form.children_eq_flatten]
        exact List.mem_flatten.2 ⟨group, hgroup, hchild⟩
      have := hxolder child hmem
      omega
    simp only [equivalentWithin, hxform, hyform, Bool.and_eq_true]
    constructor
    · intro h
      exact .intro (hshape ▸ h.1) ((hgroups h.1).1 h.2)
    · rintro ⟨hs, hg⟩
      have hs : f.sameShape g = true := hshape.symm ▸ hs
      exact ⟨hs, (hgroups hs).2 hg⟩

/-- Nodes are equivalent exactly if their trees agree. -/
theorem equivalent_iff (hx : a.Denotes x t) (hy : b.Denotes y u) :
    a.equivalent x b y = true ↔ t.Agrees u := by
  refine hx.equivalentWithin_iff hy ?_
  have := hx.index_lt
  omega

end Denotes

end Arena

end ExprLang
