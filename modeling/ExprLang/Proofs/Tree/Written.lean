import ExprLang.Proofs.Token.Proper
import ExprLang.Proofs.Tree.Basic

/-!
# Trees of the language

A tree of the language has trees of the right sort in every field, names that
are names, and values that can be written.

Main definitions:

- Definition {lit}`Tree.Written`: the trees of each sort.

Main results:

- Theorem {lit}`Tree.Written.selfSame`: trees of the language agree with
  themselves.
-/

namespace ExprLang

/-- Names separated by dots. -/
inductive IsType : String → Prop
  | name {text : String} (h : IsName text) : IsType text
  | dot {path text : String} (hp : IsType path) (h : IsName text) :
    IsType (path ++ "." ++ text)

/-- The sorts of trees. -/
inductive Role where
  | expression | statement | argument | function | importEntry | importPath | unit
deriving DecidableEq, Repr, Inhabited

namespace Tree

/-- A tree of some sort. -/
inductive Written : Role → Tree → Prop
  | literal {value : Literal} (hv : value.Writable) : Written .expression (.literal value)
  | stringTemplate {parts : List Tree} (hp : ∀ part ∈ parts, Written .expression part) :
    Written .expression (.stringTemplate parts)
  | reference {name : String} (hn : IsName name) : Written .expression (.reference name)
  | unary {operator : UnaryOperator} {operand : Tree} (ho : Written .expression operand) :
    Written .expression (.unary operator operand)
  | binary {left right : Tree} {operator : BinaryOperator} (hl : Written .expression left)
    (hr : Written .expression right) : Written .expression (.binary left operator right)
  | assignment {target value : Tree} {operator : AssignmentOperator}
    (ht : Written .expression target) (hv : Written .expression value) :
    Written .expression (.assignment target operator value)
  | memberAccess {receiver : Tree} {member : String} (hr : Written .expression receiver)
    (hm : IsName member) : Written .expression (.memberAccess receiver member)
  | namedInvocation {name : String} {arguments : List Tree} (hn : IsName name)
    (ha : ∀ argument ∈ arguments, Written .expression argument) :
    Written .expression (.namedInvocation name arguments)
  | anonymousInvocation {target : Tree} {arguments : List Tree}
    (ht : Written .expression target) (hr : ∀ name, target ≠ .reference name)
    (ha : ∀ argument ∈ arguments, Written .expression argument) :
    Written .expression (.anonymousInvocation target arguments)
  | infixInvocation {left right : Tree} {name : String} (hl : Written .expression left)
    (hn : IsIdentifier name) (hr : Written .expression right) :
    Written .expression (.infixInvocation left name right)
  | conditional {condition thenBranch : Tree} {elseBranch : Option Tree}
    (hc : Written .expression condition) (ht : Written .expression thenBranch)
    (he : ∀ branch, elseBranch = some branch → Written .expression branch) :
    Written .expression (.conditional condition thenBranch elseBranch)
  | block {statements : List Tree} (hs : ∀ statement ∈ statements, Written .statement statement) :
    Written .expression (.block statements)
  | localVariable {name : String} {isMutable : Bool} {type : Option String}
    {initializer : Option Tree} (hn : IsName name) (ht : ∀ text, type = some text → IsType text)
    (hi : ∀ value, initializer = some value → Written .expression value) :
    Written .statement (.localVariable name isMutable type initializer)
  | returnStatement {value : Option Tree}
    (hv : ∀ tree, value = some tree → Written .expression tree) :
    Written .statement (.returnStatement value)
  | expressionStatement {expression : Tree} (he : Written .expression expression) :
    Written .statement (.expressionStatement expression)
  | basicArgument {name : String} {type : Option String} (hn : IsName name)
    (ht : ∀ text, type = some text → IsType text) :
    Written .argument (.basicArgument name type)
  | defaultArgument {name : String} {type : Option String} {default : Tree} (hn : IsName name)
    (ht : ∀ text, type = some text → IsType text) (hd : Written .expression default) :
    Written .argument (.defaultArgument name type default)
  | patternArgument {pattern : Tree} (hp : Written .expression pattern) :
    Written .argument (.patternArgument pattern)
  | function {name : String} {isInfix : Bool} {arguments : List Tree} {returnType : Option String}
    {body : Tree} (hn : IsName name) (ha : ∀ argument ∈ arguments, Written .argument argument)
    (ht : ∀ text, returnType = some text → IsType text) (hb : Written .expression body) :
    Written .function (.function name isInfix arguments returnType body)
  | importEntry {name : String} {rename : Option String} (hn : IsName name)
    (hr : ∀ text, rename = some text → IsName text) :
    Written .importEntry (.importEntry name rename)
  | importPath {path : String} {entries : List Tree}
    (he : ∀ entry ∈ entries, Written .importEntry entry) :
    Written .importPath (.importPath path entries)
  | compilationUnit {imports declarations : List Tree}
    (hi : ∀ item ∈ imports, Written .importPath item)
    (hd : ∀ item ∈ declarations, Written .function item) :
    Written .unit (.compilationUnit imports declarations)

namespace Written

/-- The children of a tree of the language are trees of the language. -/
theorem exists_of_mem_children {role : Role} {tree child : Tree} (h : Written role tree)
    (hc : child ∈ tree.children) : ∃ role, Written role child := by
  cases h <;>
    simp only [Tree.children, groups, List.flatten_cons, List.flatten_nil, List.append_nil,
      List.mem_append, List.mem_cons, List.not_mem_nil, or_false, Option.mem_toList] at hc
  all_goals try casesm* _ ∨ _
  all_goals try subst hc
  all_goals first
    | exact hc.elim
    | exact ⟨_, by assumption⟩
    | exact ⟨_, by solve_by_elim⟩

/-- A tree of the language is the same as itself. -/
theorem selfSame {role : Role} {tree : Tree} (h : Written role tree) : tree.SelfSame := by
  cases h with
  | literal hv => exact hv.agrees_self
  | _ => exact selfSame_of_not_literal nofun

/-- A tree of the language agrees with itself. -/
theorem agrees_self {role : Role} {tree : Tree} (h : Written role tree) : tree.Agrees tree := by
  refine Agrees.refl ?_
  induction tree using Tree.induct generalizing role with
  | step tree ih =>
    refine .intro h.selfSame fun child hchild => ?_
    obtain ⟨role', hrole⟩ := h.exists_of_mem_children hchild
    exact ih child hchild hrole

end Written

end Tree

end ExprLang
