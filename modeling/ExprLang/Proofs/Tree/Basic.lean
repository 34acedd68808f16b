import ExprLang.Tree.Form
import Mathlib.Data.List.Forall2
import Mathlib.Data.List.Nodup

/-!
# Trees without numbers

A tree is what a node stands for, apart from the numbers of nodes and scopes: a
form with trees in place of the children.  A form that the grammar gives a child
has one.

Main definitions:

- Definition {lit}`Tree.shape` and {lit}`Tree.groups`: a tree as a form without
  children and the trees in each of its fields.
- Definition {lit}`Tree.All`: what holds of every tree inside a tree.
- Definition {lit}`Tree.Agrees`: equivalence of trees.

Main results:

- Theorem {lit}`Tree.induct`: induction over the children of a tree.
- Theorem {lit}`Tree.Agrees.refl`: a tree without a not-a-number agrees with
  itself.
-/

namespace ExprLang

/-- A form with trees in place of its children. -/
inductive Tree where
  | compilationUnit (imports declarations : List Tree)
  | importPath (path : String) (entries : List Tree)
  | importEntry (name : String) (rename : Option String)
  | block (statements : List Tree)
  | literal (value : Literal)
  | stringTemplate (parts : List Tree)
  | reference (name : String)
  | unary (operator : UnaryOperator) (operand : Tree)
  | binary (left : Tree) (operator : BinaryOperator) (right : Tree)
  | assignment (target : Tree) (operator : AssignmentOperator) (value : Tree)
  | memberAccess (receiver : Tree) (member : String)
  | function (name : String) (isInfix : Bool) (arguments : List Tree)
      (returnType : Option String) (body : Tree)
  | namedInvocation (name : String) (arguments : List Tree)
  | anonymousInvocation (target : Tree) (arguments : List Tree)
  | infixInvocation (left : Tree) (name : String) (right : Tree)
  | basicArgument (name : String) (type : Option String)
  | defaultArgument (name : String) (type : Option String) (default : Tree)
  | patternArgument (pattern : Tree)
  | conditional (condition thenBranch : Tree) (elseBranch : Option Tree)
  | localVariable (name : String) (isMutable : Bool) (type : Option String)
      (initializer : Option Tree)
  | returnStatement (value : Option Tree)
  | expressionStatement (expression : Tree)

namespace Tree

/-! ## Fields -/

/-- The form of a tree without its children. -/
def shape : Tree → Form
  | compilationUnit .. => .compilationUnit [] [] ⟨0⟩
  | importPath path _ => .importPath path []
  | importEntry name rename => .importEntry name rename
  | block _ => .block [] ⟨0⟩
  | literal value => .literal value
  | stringTemplate _ => .stringTemplate []
  | reference name => .reference name
  | unary operator _ => .unary operator none
  | binary _ operator _ => .binary none operator none
  | assignment _ operator _ => .assignment none operator none
  | memberAccess _ member => .memberAccess none member
  | function name isInfix _ returnType _ => .function name isInfix [] returnType none ⟨0⟩
  | namedInvocation name _ => .namedInvocation name []
  | anonymousInvocation .. => .anonymousInvocation none []
  | infixInvocation _ name _ => .infixInvocation none name none
  | basicArgument name type => .basicArgument name type
  | defaultArgument name type _ => .defaultArgument name type none
  | patternArgument _ => .patternArgument none
  | conditional .. => .conditional none none none
  | localVariable name isMutable type _ => .localVariable name isMutable type none
  | returnStatement _ => .returnStatement none
  | expressionStatement _ => .expressionStatement none

/-- The trees in each field, in source order. -/
def groups : Tree → List (List Tree)
  | compilationUnit imports declarations => [imports, declarations]
  | importPath _ entries => [entries]
  | block statements => [statements]
  | stringTemplate parts => [parts]
  | unary _ operand => [[operand]]
  | binary left _ right => [[left], [right]]
  | assignment target _ value => [[target], [value]]
  | memberAccess receiver _ => [[receiver]]
  | function _ _ arguments _ body => [arguments, [body]]
  | namedInvocation _ arguments => [arguments]
  | anonymousInvocation target arguments => [[target], arguments]
  | infixInvocation left _ right => [[left], [right]]
  | defaultArgument _ _ default => [[default]]
  | patternArgument pattern => [[pattern]]
  | conditional condition thenBranch elseBranch =>
    [[condition], [thenBranch], elseBranch.toList]
  | localVariable _ _ _ initializer => [initializer.toList]
  | returnStatement value => [value.toList]
  | expressionStatement expression => [[expression]]
  | importEntry .. | literal .. | reference .. | basicArgument .. => []

/-- The children of a tree, in source order. -/
def children (tree : Tree) : List Tree := tree.groups.flatten

/-- A child is smaller than the tree. -/
theorem sizeOf_lt_of_mem_children {tree child : Tree} (h : child ∈ tree.children) :
    sizeOf child < sizeOf tree := by
  have hlist (trees : List Tree) (h : child ∈ trees) : sizeOf child < sizeOf trees :=
    List.sizeOf_lt_of_mem h
  have hoption (tree? : Option Tree) (h : tree? = some child) : sizeOf child < sizeOf tree? := by
    simp [h]
  cases tree <;>
    simp only [children, groups, List.flatten_cons, List.flatten_nil, List.append_nil,
      List.mem_append, List.mem_cons, List.not_mem_nil, or_false, Option.mem_toList] at h
  all_goals try casesm* _ ∨ _
  all_goals first
    | exact h.elim
    | (have hlt := hlist _ ‹_›
       simp
       omega)
    | (have hlt := hoption _ ‹_›
       simp
       omega)
    | (subst_vars
       simp
       try omega)

/-- What holds of a tree whenever it holds of its children holds of every tree. -/
theorem induct {p : Tree → Prop} (step : ∀ tree, (∀ child ∈ tree.children, p child) → p tree)
    (tree : Tree) : p tree :=
  step tree fun child h =>
    have := sizeOf_lt_of_mem_children h
    induct step child
termination_by sizeOf tree

/-- The trees in a field are children. -/
theorem mem_children_of_mem_group {tree child : Tree} {group : List Tree}
    (hg : group ∈ tree.groups) (hc : child ∈ group) : child ∈ tree.children :=
  List.mem_flatten.2 ⟨group, hg, hc⟩

/-! ## Every tree inside a tree -/

/-- Something holds of a tree and of every tree inside it. -/
inductive All (p : Tree → Prop) : Tree → Prop
  | intro {tree : Tree} (here : p tree) (below : ∀ child ∈ tree.children, All p child) :
    All p tree

/-- Something holds throughout a tree if it holds at the root and throughout the children. -/
theorem all_iff {p : Tree → Prop} {tree : Tree} :
    All p tree ↔ p tree ∧ ∀ child ∈ tree.children, All p child := by
  constructor
  · rintro ⟨here, below⟩
    exact ⟨here, below⟩
  · intro h
    exact .intro h.1 h.2

/-! ## Names -/

/-- Whether a tree is a pattern in place of an argument. -/
def isPatternArgument : Tree → Bool
  | patternArgument _ => true
  | _ => false

/-- The name that a tree defines in the scope of what holds it. -/
def definedName : Tree → Option String
  | function name _ arguments _ _ => if arguments.any isPatternArgument then none else some name
  | localVariable name _ _ _ => some name
  | basicArgument name _ => some name
  | defaultArgument name _ _ => some name
  | _ => none

/-- The names that trees define. -/
def definedNames (trees : List Tree) : List String := trees.filterMap definedName

/-- Whether the children of a tree define no name twice in a scope that it opens, and a
function for use between its arguments has two of them. -/
def isTidy : Tree → Bool
  | compilationUnit imports declarations => decide (definedNames (imports ++ declarations)).Nodup
  | block statements => decide (definedNames statements).Nodup
  | function _ isInfix arguments _ body =>
    decide (definedNames (arguments ++ [body])).Nodup && !(isInfix && arguments.length != 2)
  | _ => true

/-- Only a tree that opens a scope can be untidy at its root. -/
theorem isTidy_of_scope? {tree : Tree} (h : tree.shape.scope? = none) : tree.isTidy = true := by
  cases tree <;> first | rfl | cases h

/-- No name is defined twice in a scope of the tree, and functions for use between their
arguments have two of them. -/
abbrev Tidy (tree : Tree) : Prop := tree.All (·.isTidy = true)

/-! ## Equivalence -/

/-- Two trees have the same shape all the way down. -/
inductive Agrees : Tree → Tree → Prop
  | intro {t u : Tree} (shape : t.shape.sameShape u.shape = true)
    (groups : List.Forall₂ (List.Forall₂ Agrees) t.groups u.groups) : Agrees t u

/-- A shape is the same as itself, unless it is a number that differs from itself. -/
def SelfSame (tree : Tree) : Prop := tree.shape.sameShape tree.shape = true

/-- Only a literal can differ from itself. -/
theorem selfSame_of_not_literal {tree : Tree} (h : ∀ value, tree ≠ literal value) :
    tree.SelfSame := by
  cases tree with
  | literal value => exact absurd rfl (h value)
  | _ => simp [SelfSame, shape, Form.sameShape]

/-- A tree agrees with itself if every literal inside it does. -/
theorem Agrees.refl {tree : Tree} (h : tree.All SelfSame) : tree.Agrees tree := by
  induction tree using induct with
  | step tree ih =>
    obtain ⟨here, below⟩ := all_iff.1 h
    refine .intro here (List.forall₂_same.2 fun group hg => List.forall₂_same.2 fun child hc => ?_)
    have hchild := mem_children_of_mem_group hg hc
    exact ih child hchild (below child hchild)

end Tree

end ExprLang
