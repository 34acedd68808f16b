import ExprLang.Proofs.Tree.Depth

/-!
# Outlines of trees

The outline of a tree is what is left of it without the numbers of nodes and scopes:
for every node its form, with outlines in place of its children.  Other than a tree
of the grammar an outline may have empty slots anywhere.  Two forms with outlines in
place of the children are the same exactly if they are the same without children
and have the same outlines in each field.

Main definitions:

- Definition {lit}`Outline`: forms with outlines in place of the children.
- Definition {lit}`Arena.outline`: the outline of the tree at a node.

Main results:

- Theorem {lit}`Form.outline_eq_iff`: a form and its fields make up its outline.
- Theorem {lit}`Arena.IsTree.outline_eq`: the outline of a tree is made up of those
  of its children.
-/

namespace ExprLang

/-- A form with outlines in place of its children. -/
inductive Outline where
  | compilationUnit (imports declarations : List Outline)
  | importPath (path : String) (entries : List Outline)
  | importEntry (name : String) (rename : Option String)
  | block (statements : List Outline)
  | literal (value : Literal)
  | stringTemplate (parts : List Outline)
  | reference (name : String)
  | unary (operator : UnaryOperator) (operand : Option Outline)
  | binary (left : Option Outline) (operator : BinaryOperator) (right : Option Outline)
  | assignment (target : Option Outline) (operator : AssignmentOperator)
      (value : Option Outline)
  | memberAccess (receiver : Option Outline) (member : String)
  | function (name : String) (isInfix : Bool) (arguments : List Outline)
      (returnType : Option String) (body : Option Outline)
  | namedInvocation (name : String) (arguments : List Outline)
  | anonymousInvocation (target : Option Outline) (arguments : List Outline)
  | infixInvocation (left : Option Outline) (name : String) (right : Option Outline)
  | basicArgument (name : String) (type : Option String)
  | defaultArgument (name : String) (type : Option String) (default : Option Outline)
  | patternArgument (pattern : Option Outline)
  | conditional (condition thenBranch elseBranch : Option Outline)
  | localVariable (name : String) (isMutable : Bool) (type : Option String)
      (initializer : Option Outline)
  | returnStatement (value : Option Outline)
  | expressionStatement (expression : Option Outline)
deriving Inhabited

/-- The outline of a form, given those of its children. -/
def Form.outline (sub : NodeId → Outline) : Form → Outline
  | compilationUnit imports declarations _ =>
    .compilationUnit (imports.map sub) (declarations.map sub)
  | importPath path entries => .importPath path (entries.map sub)
  | importEntry name rename => .importEntry name rename
  | block statements _ => .block (statements.map sub)
  | literal value => .literal value
  | stringTemplate parts => .stringTemplate (parts.map sub)
  | reference name => .reference name
  | unary operator operand => .unary operator (operand.map sub)
  | binary left operator right => .binary (left.map sub) operator (right.map sub)
  | assignment target operator value => .assignment (target.map sub) operator (value.map sub)
  | memberAccess receiver member => .memberAccess (receiver.map sub) member
  | function name isInfix arguments returnType body _ =>
    .function name isInfix (arguments.map sub) returnType (body.map sub)
  | namedInvocation name arguments => .namedInvocation name (arguments.map sub)
  | anonymousInvocation target arguments =>
    .anonymousInvocation (target.map sub) (arguments.map sub)
  | infixInvocation left name right => .infixInvocation (left.map sub) name (right.map sub)
  | basicArgument name type => .basicArgument name type
  | defaultArgument name type default => .defaultArgument name type (default.map sub)
  | patternArgument pattern => .patternArgument (pattern.map sub)
  | conditional condition thenBranch elseBranch =>
    .conditional (condition.map sub) (thenBranch.map sub) (elseBranch.map sub)
  | localVariable name isMutable type initializer =>
    .localVariable name isMutable type (initializer.map sub)
  | returnStatement value => .returnStatement (value.map sub)
  | expressionStatement expression => .expressionStatement (expression.map sub)

namespace Outline

/-! ## Shapes and fields -/

/-- The form of an outline without its children. -/
def shape : Outline → Form
  | compilationUnit .. => .compilationUnit [] [] ⟨0⟩
  | importPath path _ => .importPath path []
  | importEntry name rename => .importEntry name rename
  | block _ => .block [] ⟨0⟩
  | literal value => .literal value
  | stringTemplate _ => .stringTemplate []
  | reference name => .reference name
  | unary operator _ => .unary operator none
  | binary _ operator _ => .binary none operator none
  | assignment _ operator _ => .assignment none operator none
  | memberAccess _ member => .memberAccess none member
  | function name isInfix _ returnType _ => .function name isInfix [] returnType none ⟨0⟩
  | namedInvocation name _ => .namedInvocation name []
  | anonymousInvocation .. => .anonymousInvocation none []
  | infixInvocation _ name _ => .infixInvocation none name none
  | basicArgument name type => .basicArgument name type
  | defaultArgument name type _ => .defaultArgument name type none
  | patternArgument _ => .patternArgument none
  | conditional .. => .conditional none none none
  | localVariable name isMutable type _ => .localVariable name isMutable type none
  | returnStatement _ => .returnStatement none
  | expressionStatement _ => .expressionStatement none

/-- The outlines in each field, in source order. -/
def groups : Outline → List (List Outline)
  | compilationUnit imports declarations => [imports, declarations]
  | importPath _ entries => [entries]
  | block statements => [statements]
  | stringTemplate parts => [parts]
  | unary _ operand => [operand.toList]
  | binary left _ right => [left.toList, right.toList]
  | assignment target _ value => [target.toList, value.toList]
  | memberAccess receiver _ => [receiver.toList]
  | function _ _ arguments _ body => [arguments, body.toList]
  | namedInvocation _ arguments => [arguments]
  | anonymousInvocation target arguments => [target.toList, arguments]
  | infixInvocation left _ right => [left.toList, right.toList]
  | defaultArgument _ _ default => [default.toList]
  | patternArgument pattern => [pattern.toList]
  | conditional condition thenBranch elseBranch =>
    [condition.toList, thenBranch.toList, elseBranch.toList]
  | localVariable _ _ _ initializer => [initializer.toList]
  | returnStatement value => [value.toList]
  | expressionStatement expression => [expression.toList]
  | importEntry .. | literal .. | reference .. | basicArgument .. => []

/-- A slot is empty or filled as its items say. -/
theorem toList_inj {x y : Option Outline} : x.toList = y.toList ↔ x = y := by
  cases x <;> cases y <;> simp

/-- An outline is made up of its shape and its fields. -/
theorem eq_of_shape {t u : Outline} (hshape : t.shape = u.shape) (hgroups : t.groups = u.groups) :
    t = u := by
  cases t <;> cases u <;> cases hshape <;>
    simp_all only [groups, List.cons.injEq, and_true, toList_inj]

end Outline

/-! ## Outlines of forms -/

/-- Lists are mapped to the same list exactly if their items are mapped to the same, one by one. -/
theorem map_eq_map_iff_forall₂ {α β γ : Type} {p : α → γ} {q : β → γ} {xs : List α}
    {ys : List β} : xs.map p = ys.map q ↔ List.Forall₂ (fun x y => p x = q y) xs ys := by
  rw [← List.forall₂_eq_eq_eq, List.forall₂_map_left_iff, List.forall₂_map_right_iff]

namespace Form

variable {f g form : Form} {sub sub' : NodeId → Outline}

/-- The shape of an outline is the form without its children. -/
@[simp] theorem shape_outline (form : Form) (sub : NodeId → Outline) :
    (form.outline sub).shape = form.bare := by
  cases form <;> rfl

/-- The fields of an outline hold the outlines of what the fields of the form hold. -/
@[simp] theorem groups_outline (form : Form) (sub : NodeId → Outline) :
    (form.outline sub).groups =
      (form.childGroups.map ChildGroup.children).map (List.map sub) := by
  cases form <;> simp [outline, Outline.groups, childGroups, ChildGroup.children,
    Option.toList_map]

/-- The outlines of two forms are equal exactly if the forms are the same without children and the
outlines in each field are. -/
theorem outline_eq_iff : f.outline sub = g.outline sub' ↔
    f.bare = g.bare ∧ List.Forall₂ (List.Forall₂ fun x y => sub x = sub' y)
      (f.childGroups.map ChildGroup.children) (g.childGroups.map ChildGroup.children) := by
  have hfields : (f.outline sub).groups = (g.outline sub').groups ↔
      List.Forall₂ (List.Forall₂ fun x y => sub x = sub' y)
        (f.childGroups.map ChildGroup.children) (g.childGroups.map ChildGroup.children) := by
    simp only [groups_outline, map_eq_map_iff_forall₂]
  rw [← hfields, ← shape_outline f sub, ← shape_outline g sub']
  exact ⟨fun h => ⟨congrArg _ h, congrArg _ h⟩, fun h => Outline.eq_of_shape h.1 h.2⟩

/-- The outline of a form depends on those of its children. -/
theorem outline_congr (h : ∀ c ∈ form.children, sub c = sub' c) :
    form.outline sub = form.outline sub' := by
  refine outline_eq_iff.2 ⟨rfl, List.forall₂_same.2 fun group hg => List.forall₂_same.2 ?_⟩
  intro c hc
  refine h c ?_
  rw [children_eq_flatten]
  exact List.mem_flatten.2 ⟨group, hg, hc⟩

end Form

/-! ## Outlines of nodes -/

namespace Arena

variable {a : Arena} {x : NodeId} {form : Form} {n m : Nat}

/-- The outline of a tree down to a given depth. -/
def outlineWithin (a : Arena) : Nat → NodeId → Outline
  | 0, _ => default
  | n + 1, x => (a.form? x).elim default (Form.outline (a.outlineWithin n))

/-- The outline of the tree at a node.  A tree is no deeper than the number of nodes. -/
def outline (a : Arena) (x : NodeId) : Outline := a.outlineWithin (a.size + 1) x

/-- Below all levels the depth changes nothing. -/
theorem NoDeeper.outlineWithin_eq (hn : a.NoDeeper n x) (hm : a.NoDeeper m x) :
    a.outlineWithin n x = a.outlineWithin m x := by
  induction n generalizing m x with
  | zero => exact hn.elim
  | succ n ih =>
    cases m with
    | zero => exact hm.elim
    | succ m =>
      obtain ⟨form, hform, hchildren⟩ := hn
      obtain ⟨form', hform', hchildren'⟩ := hm
      cases hform.symm.trans hform'
      simp only [outlineWithin, hform, Option.elim_some]
      exact Form.outline_congr fun c hc => ih (hchildren c hc) (hchildren' c hc)

/-- The outline of a finite tree is that of its root, with the outlines of the trees at its
children. -/
theorem IsTree.outline_eq (h : a.IsTree x) (hf : a.form? x = some form) :
    a.outline x = form.outline a.outline := by
  have houtline : a.outline x = form.outline (a.outlineWithin a.size) := by
    rw [outline, outlineWithin, hf]
    rfl
  rw [houtline]
  refine Form.outline_congr fun c hc => ?_
  have hdeep := (h.child ⟨form, hf, hc⟩).noDeeper
  exact hdeep.outlineWithin_eq (hdeep.mono (Nat.le_succ _))

end Arena

end ExprLang
