import ExprLang.Tree.Literal
import ExprLang.Tree.Operator
import ExprLang.Tree.Scope

/-!
# Forms of nodes

The form of a node says what the node is and which nodes are its children.  A
child sits in a slot, which holds at most one node, or in a list; both have
names, by which a child can be addressed from outside.

Main definitions:

- Definition {lit}`Form.childGroups`: the children by field, in source order.
- Definitions {lit}`Form.slot?`, {lit}`Form.setSlot`, {lit}`Form.list?`,
  {lit}`Form.setList`: the fields by name.
- Definition {lit}`Form.release?`: taking a child out.
- Definition {lit}`Form.bare`: a form without its children.
-/

namespace ExprLang

/-! ## Names of fields -/

/-- The name of a field for at most one child. -/
inductive Slot where
  | operand | left | right | target | value | receiver | body | default | pattern
  | condition | thenBranch | elseBranch | initializer | expression
deriving DecidableEq, Repr, Inhabited

namespace Slot

/-- Every slot, in the order in which a child is searched for. -/
def all : List Slot :=
  [operand, left, right, target, value, receiver, body, default, pattern, condition,
    thenBranch, elseBranch, initializer, expression]

/-- The name of a slot in messages. -/
def name : Slot → String
  | operand => "Operand"
  | left => "Left"
  | right => "Right"
  | target => "Target"
  | value => "Value"
  | receiver => "Receiver"
  | body => "Body"
  | default => "Default"
  | pattern => "Pattern"
  | condition => "Condition"
  | thenBranch => "Then"
  | elseBranch => "Else"
  | initializer => "Initializer"
  | expression => "Expression"

/-- The slot with a given name. -/
def ofName? (text : String) : Option Slot :=
  all.find? (·.name == text)

@[simp] theorem mem_all (slot : Slot) : slot ∈ all := by
  cases slot <;> decide

@[simp] theorem ofName?_name (slot : Slot) : ofName? slot.name = some slot := by
  cases slot <;> decide

end Slot

/-- The name of a field for any number of children. -/
inductive ChildList where
  | imports | declarations | entries | statements | parts | arguments
deriving DecidableEq, Repr, Inhabited

namespace ChildList

/-- Every list, in the order in which a child is searched for. -/
def all : List ChildList :=
  [imports, declarations, entries, statements, parts, arguments]

/-- The name of a list in messages. -/
def name : ChildList → String
  | imports => "Imports"
  | declarations => "Declarations"
  | entries => "Entries"
  | statements => "Statements"
  | parts => "Parts"
  | arguments => "Arguments"

/-- The list with a given name. -/
def ofName? (text : String) : Option ChildList :=
  all.find? (·.name == text)

@[simp] theorem mem_all (list : ChildList) : list ∈ all := by
  cases list <;> decide

@[simp] theorem ofName?_name (list : ChildList) : ofName? list.name = some list := by
  cases list <;> decide

end ChildList

/-- Where a child sits in its parent. -/
inductive Place where
  | slot (name : Slot)
  | list (name : ChildList) (index : Nat)
deriving DecidableEq, Repr, Inhabited

/-- A place is written as the field and, in a list, the index. -/
instance : ToString Place where
  toString
    | .slot name => s!"Slot({name.name})"
    | .list name index => s!"List({name.name}, {index})"

/-! ## Forms -/

/-- What a node is, with its children. -/
inductive Form where
  | compilationUnit (imports declarations : List NodeId) (scope : ScopeId)
  | importPath (path : String) (entries : List NodeId)
  | importEntry (name : String) (rename : Option String)
  | block (statements : List NodeId) (scope : ScopeId)
  | literal (value : Literal)
  /-- The parts that are string literals stand for themselves, the others are
  placeholders. -/
  | stringTemplate (parts : List NodeId)
  | reference (name : String)
  | unary (operator : UnaryOperator) (operand : Option NodeId)
  | binary (left : Option NodeId) (operator : BinaryOperator) (right : Option NodeId)
  | assignment (target : Option NodeId) (operator : AssignmentOperator)
      (value : Option NodeId)
  | memberAccess (receiver : Option NodeId) (member : String)
  | function (name : String) (isInfix : Bool) (arguments : List NodeId)
      (returnType : Option String) (body : Option NodeId) (scope : ScopeId)
  | namedInvocation (name : String) (arguments : List NodeId)
  | anonymousInvocation (target : Option NodeId) (arguments : List NodeId)
  | infixInvocation (left : Option NodeId) (name : String) (right : Option NodeId)
  | basicArgument (name : String) (type : Option String)
  | defaultArgument (name : String) (type : Option String) (default : Option NodeId)
  | patternArgument (pattern : Option NodeId)
  | conditional (condition thenBranch elseBranch : Option NodeId)
  | localVariable (name : String) (isMutable : Bool) (type : Option String)
      (initializer : Option NodeId)
  | returnStatement (value : Option NodeId)
  | expressionStatement (expression : Option NodeId)
deriving DecidableEq, Repr, Inhabited

/-- The children in one field. -/
inductive ChildGroup where
  | slot (child : Option NodeId)
  | list (children : List NodeId)
deriving DecidableEq, Repr, Inhabited

/-- The children of a group, in order. -/
def ChildGroup.children : ChildGroup → List NodeId
  | .slot child => child.toList
  | .list children => children

namespace Form

/-- The name of a form in listings. -/
def name : Form → String
  | compilationUnit .. => "CompilationUnit"
  | importPath .. => "Import"
  | importEntry .. => "ImportEntry"
  | block .. => "Block"
  | literal .. => "Literal"
  | stringTemplate .. => "StringTemplate"
  | reference .. => "Reference"
  | unary .. => "UnaryOperation"
  | binary .. => "BinaryOperation"
  | assignment .. => "Assignment"
  | memberAccess .. => "MemberAccess"
  | function .. => "FunctionDeclaration"
  | namedInvocation .. => "NamedInvocation"
  | anonymousInvocation .. => "AnonymousInvocation"
  | infixInvocation .. => "InfixInvocation"
  | basicArgument .. => "BasicArgument"
  | defaultArgument .. => "DefaultArgument"
  | patternArgument .. => "PatternArgument"
  | conditional .. => "Conditional"
  | localVariable .. => "LocalVariable"
  | returnStatement .. => "Return"
  | expressionStatement .. => "ExpressionStatement"

/-! ## Children -/

/-- The children by field, in source order. -/
def childGroups : Form → List ChildGroup
  | compilationUnit imports declarations _ => [.list imports, .list declarations]
  | importPath _ entries => [.list entries]
  | block statements _ => [.list statements]
  | stringTemplate parts => [.list parts]
  | unary _ operand => [.slot operand]
  | binary left _ right => [.slot left, .slot right]
  | assignment target _ value => [.slot target, .slot value]
  | memberAccess receiver _ => [.slot receiver]
  | function _ _ arguments _ body _ => [.list arguments, .slot body]
  | namedInvocation _ arguments => [.list arguments]
  | anonymousInvocation target arguments => [.slot target, .list arguments]
  | infixInvocation left _ right => [.slot left, .slot right]
  | defaultArgument _ _ default => [.slot default]
  | patternArgument pattern => [.slot pattern]
  | conditional condition thenBranch elseBranch =>
    [.slot condition, .slot thenBranch, .slot elseBranch]
  | localVariable _ _ _ initializer => [.slot initializer]
  | returnStatement value => [.slot value]
  | expressionStatement expression => [.slot expression]
  | importEntry .. | literal .. | reference .. | basicArgument .. => []

/-- Every child, in source order. -/
def children (form : Form) : List NodeId :=
  form.childGroups.flatMap ChildGroup.children

/-! ## Fields by name -/

/-- What a slot holds, if the form has it. -/
def slot? : Form → Slot → Option (Option NodeId)
  | unary _ operand, .operand => some operand
  | binary left _ _, .left => some left
  | binary _ _ right, .right => some right
  | infixInvocation left _ _, .left => some left
  | infixInvocation _ _ right, .right => some right
  | assignment target _ _, .target => some target
  | assignment _ _ value, .value => some value
  | anonymousInvocation target _, .target => some target
  | returnStatement value, .value => some value
  | memberAccess receiver _, .receiver => some receiver
  | function _ _ _ _ body _, .body => some body
  | defaultArgument _ _ default, .default => some default
  | patternArgument pattern, .pattern => some pattern
  | conditional condition _ _, .condition => some condition
  | conditional _ thenBranch _, .thenBranch => some thenBranch
  | conditional _ _ elseBranch, .elseBranch => some elseBranch
  | localVariable _ _ _ initializer, .initializer => some initializer
  | expressionStatement expression, .expression => some expression
  | _, _ => none

/-- Puts a child, or none, into a slot; a form without the slot stays as it is. -/
def setSlot (child : Option NodeId) : Form → Slot → Form
  | unary operator _, .operand => unary operator child
  | binary _ operator right, .left => binary child operator right
  | binary left operator _, .right => binary left operator child
  | infixInvocation _ name right, .left => infixInvocation child name right
  | infixInvocation left name _, .right => infixInvocation left name child
  | assignment _ operator value, .target => assignment child operator value
  | assignment target operator _, .value => assignment target operator child
  | anonymousInvocation _ arguments, .target => anonymousInvocation child arguments
  | returnStatement _, .value => returnStatement child
  | memberAccess _ member, .receiver => memberAccess child member
  | function name isInfix arguments returnType _ scope, .body =>
    function name isInfix arguments returnType child scope
  | defaultArgument name type _, .default => defaultArgument name type child
  | patternArgument _, .pattern => patternArgument child
  | conditional _ thenBranch elseBranch, .condition => conditional child thenBranch elseBranch
  | conditional condition _ elseBranch, .thenBranch => conditional condition child elseBranch
  | conditional condition thenBranch _, .elseBranch => conditional condition thenBranch child
  | localVariable name isMutable type _, .initializer =>
    localVariable name isMutable type child
  | expressionStatement _, .expression => expressionStatement child
  | form, _ => form

/-- The children in a list, if the form has it. -/
def list? : Form → ChildList → Option (List NodeId)
  | compilationUnit imports _ _, .imports => some imports
  | compilationUnit _ declarations _, .declarations => some declarations
  | importPath _ entries, .entries => some entries
  | block statements _, .statements => some statements
  | stringTemplate parts, .parts => some parts
  | function _ _ arguments _ _ _, .arguments => some arguments
  | namedInvocation _ arguments, .arguments => some arguments
  | anonymousInvocation _ arguments, .arguments => some arguments
  | _, _ => none

/-- Replaces the children in a list; a form without the list stays as it is. -/
def setList (items : List NodeId) : Form → ChildList → Form
  | compilationUnit _ declarations scope, .imports => compilationUnit items declarations scope
  | compilationUnit imports _ scope, .declarations => compilationUnit imports items scope
  | importPath path _, .entries => importPath path items
  | block _ scope, .statements => block items scope
  | stringTemplate _, .parts => stringTemplate items
  | function name isInfix _ returnType body scope, .arguments =>
    function name isInfix items returnType body scope
  | namedInvocation name _, .arguments => namedInvocation name items
  | anonymousInvocation target _, .arguments => anonymousInvocation target items
  | form, _ => form

/-- A slot holds what was put into it. -/
theorem slot?_setSlot {form : Form} {name : Slot} (child : Option NodeId)
    (h : (form.slot? name).isSome) : (form.setSlot child name).slot? name = some child := by
  cases form <;> cases name <;> first | rfl | exact absurd h (by simp [slot?])

/-- Putting a child into a slot leaves the other slots as they are. -/
theorem slot?_setSlot_of_ne (form : Form) {name other : Slot} (child : Option NodeId)
    (h : other ≠ name) : (form.setSlot child name).slot? other = form.slot? other := by
  cases form <;> cases name <;> first | rfl | (cases other <;> first | rfl | exact absurd rfl h)

/-- Putting a child into a slot leaves the lists as they are. -/
@[simp] theorem list?_setSlot (form : Form) (name : Slot) (child : Option NodeId)
    (other : ChildList) : (form.setSlot child name).list? other = form.list? other := by
  cases form <;> cases name <;> first | rfl | (cases other <;> rfl)

/-- A list holds what it was replaced by. -/
theorem list?_setList {form : Form} {name : ChildList} (items : List NodeId)
    (h : (form.list? name).isSome) : (form.setList items name).list? name = some items := by
  cases form <;> cases name <;> first | rfl | exact absurd h (by simp [list?])

/-- Replacing a list leaves the other lists as they are. -/
theorem list?_setList_of_ne (form : Form) {name other : ChildList} (items : List NodeId)
    (h : other ≠ name) : (form.setList items name).list? other = form.list? other := by
  cases form <;> cases name <;> first | rfl | (cases other <;> first | rfl | exact absurd rfl h)

/-- Replacing a list leaves the slots as they are. -/
@[simp] theorem slot?_setList (form : Form) (name : ChildList) (items : List NodeId)
    (other : Slot) : (form.setList items name).slot? other = form.slot? other := by
  cases form <;> cases name <;> first | rfl | (cases other <;> rfl)

/-- The place where a child is found first: slots come before lists. -/
def placeOf? (form : Form) (child : NodeId) : Option Place :=
  match Slot.all.find? fun name => form.slot? name == some (some child) with
  | some name => some (.slot name)
  | none =>
    ChildList.all.findSome? fun name =>
      ((form.list? name).bind (·.idxOf? child)).map (.list name)

/-- Empties a place. -/
def clear (form : Form) : Place → Form
  | .slot name => form.setSlot none name
  | .list name index => form.setList (((form.list? name).getD []).eraseIdx index) name

/-- Takes a child out of the first place that holds it. -/
def release? (form : Form) (child : NodeId) : Option (Place × Form) :=
  (form.placeOf? child).map fun place => (place, form.clear place)

/-! ## What is left without the children -/

/-- The scope that a form opens, if any. -/
def scope? : Form → Option ScopeId
  | compilationUnit _ _ scope => some scope
  | block _ scope => some scope
  | function _ _ _ _ _ scope => some scope
  | _ => none

@[simp] theorem scope?_setSlot (form : Form) (name : Slot) (child : Option NodeId) :
    (form.setSlot child name).scope? = form.scope? := by
  cases form <;> cases name <;> rfl

@[simp] theorem scope?_setList (form : Form) (name : ChildList) (items : List NodeId) :
    (form.setList items name).scope? = form.scope? := by
  cases form <;> cases name <;> rfl

/-- A form without its children and its scope. -/
def bare : Form → Form
  | compilationUnit .. => compilationUnit [] [] ⟨0⟩
  | importPath path _ => importPath path []
  | block .. => block [] ⟨0⟩
  | stringTemplate _ => stringTemplate []
  | unary operator _ => unary operator none
  | binary _ operator _ => binary none operator none
  | assignment _ operator _ => assignment none operator none
  | memberAccess _ member => memberAccess none member
  | function name isInfix _ returnType _ _ => function name isInfix [] returnType none ⟨0⟩
  | namedInvocation name _ => namedInvocation name []
  | anonymousInvocation .. => anonymousInvocation none []
  | infixInvocation _ name _ => infixInvocation none name none
  | defaultArgument name type _ => defaultArgument name type none
  | patternArgument _ => patternArgument none
  | conditional .. => conditional none none none
  | localVariable name isMutable type _ => localVariable name isMutable type none
  | returnStatement _ => returnStatement none
  | expressionStatement _ => expressionStatement none
  | importEntry name rename => importEntry name rename
  | literal value => literal value
  | reference name => reference name
  | basicArgument name type => basicArgument name type

@[simp] theorem bare_bare (form : Form) : form.bare.bare = form.bare := by
  cases form <;> rfl

@[simp] theorem children_bare (form : Form) : form.bare.children = [] := by
  cases form <;> rfl

@[simp] theorem bare_setSlot (form : Form) (name : Slot) (child : Option NodeId) :
    (form.setSlot child name).bare = form.bare := by
  cases form <;> cases name <;> rfl

@[simp] theorem bare_setList (form : Form) (name : ChildList) (items : List NodeId) :
    (form.setList items name).bare = form.bare := by
  cases form <;> cases name <;> rfl

/-- Whether two forms are the same apart from their children; literals have to be equal as
values. -/
def sameShape : Form → Form → Bool
  | literal x, literal y => x.agrees y
  | f, g => f.bare == g.bare

/-- The literal that a form is, if it is one. -/
def literal? : Form → Option Literal
  | literal value => some value
  | _ => none

end Form

end ExprLang
