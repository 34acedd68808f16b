import ExprLang.Tree.Form

/-!
# Arenas

An arena keeps the nodes of a tree, or of several, by number, with the scopes
they open.  Each node records its parent, and the operations that place a child
keep both directions in step: a node sits in at most one slot or list, and its
parent is the node that holds that field.  A child in a list of a node that
opens a scope is bound there under the name it defines.

Main definitions:

- Definition {lit}`Arena.alloc`: a new node, which takes over its children.
- Definition {lit}`Arena.detach`: taking a node out of its parent.
- Definitions {lit}`Arena.setChild`, {lit}`Arena.pushChild`,
  {lit}`Arena.insertChild`, {lit}`Arena.setListItem`, {lit}`Arena.removeChild`:
  placing children.
-/

namespace ExprLang

/-! ## Nodes -/

/-- A node of an arena. -/
structure Node where
  form : Form
  parent : Option NodeId := none
  position : Option Span := none
  resolvedType : Option String := none
deriving DecidableEq, Repr, Inhabited

/-- A name defined twice in one scope; the first definition stays bound. -/
structure Redefinition where
  name : String
  existing : NodeId
  duplicate : NodeId
deriving DecidableEq, Repr, Inhabited

/-- Nodes by number, and the scopes they open. -/
structure Arena where
  nodes : Array Node := #[]
  scopes : Scopes := {}
  /-- The redefinitions found since they were last taken. -/
  redefinitions : List Redefinition := []
deriving Repr, Inhabited

namespace Arena

/-- The arena without nodes. -/
def empty : Arena := {}

/-- The number of nodes. -/
def size (a : Arena) : Nat := a.nodes.size

/-- Opens a scope inside another one, or inside none. -/
def newScope (a : Arena) (parent : Option ScopeId) : ScopeId × Arena :=
  let (id, scopes) := a.scopes.add parent
  (id, { a with scopes := scopes })

/-! ## Looking at nodes -/

/-- The node with a given number, if there is one. -/
def node? (a : Arena) (id : NodeId) : Option Node := a.nodes[id.index]?

/-- The node with a given number, which has to exist. -/
def node (a : Arena) (id : NodeId) : Except Fault Node :=
  match a.node? id with
  | some node => .ok node
  | none => .error .outOfBounds

/-- An answer about a node, which has to exist. -/
def given (a : Arena) (id : NodeId) (answer : α) : Except Fault α :=
  (fun _ => answer) <$> a.node id

/-- The form of a node, if there is such a node. -/
def form? (a : Arena) (id : NodeId) : Option Form := (a.node? id).map (·.form)

/-- The form of a node, which has to exist. -/
def form (a : Arena) (id : NodeId) : Except Fault Form := (·.form) <$> a.node id

/-- The parent of a node, if it has one. -/
def parent? (a : Arena) (id : NodeId) : Option NodeId := (a.node? id).bind (·.parent)

/-- Where a node came from, if that is known. -/
def position? (a : Arena) (id : NodeId) : Option Span := (a.node? id).bind (·.position)

/-- Where a node, which has to exist, came from, if that is known. -/
def position (a : Arena) (id : NodeId) : Except Fault (Option Span) := (·.position) <$> a.node id

/-- The children of a node, in source order. -/
def children (a : Arena) (id : NodeId) : List NodeId :=
  (a.form? id).elim [] Form.children

/-- What a slot of a node holds. -/
def slot (a : Arena) (id : NodeId) (name : Slot) : Except Fault (Option NodeId) := do
  let form ← a.form id
  match form.slot? name with
  | some child => pure child
  | none => throw (.noSlot form.name name.name)

/-- The children in a list of a node. -/
def list (a : Arena) (id : NodeId) (name : ChildList) : Except Fault (List NodeId) := do
  let form ← a.form id
  match form.list? name with
  | some items => pure items
  | none => throw (.noList form.name name.name)

/-! ## Changing one node -/

/-- Changes a node, which stays as it is if it does not exist. -/
def modify (a : Arena) (id : NodeId) (change : Node → Node) : Arena :=
  { a with nodes := a.nodes.modify id.index change }

/-- Changes the form of a node. -/
def setForm (a : Arena) (id : NodeId) (form : Form) : Arena :=
  a.modify id fun node => { node with form := form }

/-- Changes the recorded parent of a node. -/
def setParent (a : Arena) (id : NodeId) (parent : Option NodeId) : Arena :=
  a.modify id fun node => { node with parent := parent }

@[simp] theorem size_modify (a : Arena) (id : NodeId) (change : Node → Node) :
    (a.modify id change).size = a.size := by
  simp [modify, size]

@[simp] theorem node?_modify_self (a : Arena) (id : NodeId) (change : Node → Node) :
    (a.modify id change).node? id = (a.node? id).map change := by
  simp [modify, node?, Array.getElem?_modify]

/-- Changing a node leaves the others as they are. -/
theorem node?_modify_of_ne (a : Arena) {id other : NodeId} (change : Node → Node)
    (h : other ≠ id) : (a.modify id change).node? other = a.node? other := by
  have h : id.index ≠ other.index := fun e => h (by cases id; cases other; simp_all)
  simp [modify, node?, Array.getElem?_modify, h]

/-- A change that keeps the form of every node changes no form. -/
theorem form?_modify (a : Arena) (id other : NodeId) (change : Node → Node)
    (h : ∀ node, (change node).form = node.form) :
    (a.modify id change).form? other = a.form? other := by
  by_cases hid : other = id
  · subst hid
    simp only [form?, node?_modify_self, Option.map_map, Function.comp_def, h]
  · simp only [form?, node?_modify_of_ne a change hid]

@[simp] theorem form?_setParent (a : Arena) (id other : NodeId) (parent : Option NodeId) :
    (a.setParent id parent).form? other = a.form? other :=
  a.form?_modify id other _ fun _ => rfl

/-- A change that keeps the parent of every node changes no parent. -/
theorem parent?_modify (a : Arena) (id other : NodeId) (change : Node → Node)
    (h : ∀ node, (change node).parent = node.parent) :
    (a.modify id change).parent? other = a.parent? other := by
  by_cases hid : other = id
  · subst hid
    simp only [parent?, node?_modify_self, Option.bind_map, Function.comp_def, h]
  · simp only [parent?, node?_modify_of_ne a change hid]

@[simp] theorem parent?_setForm (a : Arena) (id other : NodeId) (form : Form) :
    (a.setForm id form).parent? other = a.parent? other :=
  a.parent?_modify id other _ fun _ => rfl

/-- Says where a node came from, which can be said once. -/
def setPosition (a : Arena) (id : NodeId) (span : Span) : Except Fault Arena := do
  match (← a.node id).position with
  | some position => throw (.positionTaken id.index position)
  | none => pure (a.modify id fun node => { node with position := some span })

/-- Sets the type of a node. -/
def setResolvedType (a : Arena) (id : NodeId) (type : String) : Except Fault Arena := do
  let _ ← a.node id
  pure (a.modify id fun node => { node with resolvedType := some type })

/-! ## Names -/

/-- Whether a node is a pattern in place of an argument. -/
def isPatternArgument (a : Arena) (id : NodeId) : Bool :=
  match a.form? id with
  | some (.patternArgument _) => true
  | _ => false

/-- The name that a node defines in the scope of its parent.  A function with a pattern
among its arguments is chosen by that and occupies no name. -/
def definitionName (a : Arena) (id : NodeId) : Option String :=
  match a.form? id with
  | some (.function name _ arguments _ _ _) =>
    if arguments.any a.isPatternArgument then none else some name
  | some (.localVariable name _ _ _) => some name
  | some (.basicArgument name _) => some name
  | some (.defaultArgument name _ _) => some name
  | _ => none

/-- Binds the name that a child defines; a name that is taken is noted. -/
def defineChild (a : Arena) (scope : ScopeId) (child : NodeId) : Except Fault Arena := do
  match a.definitionName child with
  | none => pure a
  | some name =>
    match ← a.scopes.define scope name child with
    | .ok scopes => pure { a with scopes := scopes }
    | .error existing =>
      pure { a with redefinitions := a.redefinitions ++ [⟨name, existing, child⟩] }

/-- Removes the binding of the name that a child defines, if it is bound to that child. -/
def undefineChild (a : Arena) (scope : ScopeId) (child : NodeId) : Except Fault Arena := do
  match a.definitionName child with
  | none => pure a
  | some name => pure { a with scopes := (← a.scopes.undefine scope name child).2 }

/-- The redefinitions found since the last call. -/
def takeRedefinitions (a : Arena) : List Redefinition × Arena :=
  (a.redefinitions, { a with redefinitions := [] })

/-! ## Taking children out -/

/-- Takes a child out of the field of `parent` that holds it; its recorded parent stays. -/
def releaseFrom (a : Arena) (parent child : NodeId) : Except Fault (Option Place × Arena) := do
  let form ← a.form parent
  match form.release? child with
  | none => pure (none, a)
  | some (place, form) =>
    let a := a.setForm parent form
    match place, form.scope? with
    | .list _ _, some scope => pure (some place, ← a.undefineChild scope child)
    | _, _ => pure (some place, a)

/-- Takes a node out of its parent and says where it was. -/
def detach (a : Arena) (child : NodeId) : Except Fault (Option Place × Arena) := do
  match (← a.node child).parent with
  | none => pure (none, a)
  | some parent =>
    let (place, a) ← a.releaseFrom parent child
    pure (place, a.setParent child none)

/-- Clears the recorded parent of a node if it is `parent`. -/
def disown (a : Arena) (parent child : NodeId) : Except Fault Arena := do
  if (← a.node child).parent = some parent then pure (a.setParent child none) else pure a

/-- Records `parent` as the parent of a node, which leaves the place it had.  Nothing
happens if it is so already. -/
def adopt (a : Arena) (parent child : NodeId) : Except Fault Arena := do
  if (← a.node child).parent = some parent then pure a
  else
    let (_, a) ← a.detach child
    pure (a.setParent child (some parent))

/-! ## New nodes -/

/-- Takes over one child that the form of the new node `id` names. -/
def claimChild (a : Arena) (id : NodeId) (scope? : Option ScopeId) (child : NodeId) :
    Except Fault Arena := do
  let a ← match (← a.node child).parent with
    | some parent => (·.2) <$> a.releaseFrom parent child
    | none => pure a
  let a := a.setParent child (some id)
  match scope? with
  | some scope => a.defineChild scope child
  | none => pure a

/-- Adds a node, which takes over the children that its form names. -/
def alloc (a : Arena) (form : Form) : Except Fault (NodeId × Arena) := do
  let id : NodeId := ⟨a.nodes.size⟩
  let a := { a with nodes := a.nodes.push { form := form } }
  let a ← form.children.foldlM (fun a child => a.claimChild id form.scope? child) a
  pure (id, a)

/-! ## Placing children -/

/-- Puts a node, or none, into a slot of `parent`; the node that was there is the answer and
has no parent any more. -/
def setChild (a : Arena) (parent : NodeId) (name : Slot) (child : Option NodeId) :
    Except Fault (Option NodeId × Arena) := do
  let current ← a.slot parent name
  if current = child then pure (current, a)
  else
    let a ← match child with
      | some child => (·.2) <$> a.detach child
      | none => pure a
    let a := a.setForm parent ((← a.form parent).setSlot child name)
    let a := match child with
      | some child => a.setParent child (some parent)
      | none => a
    let a ← match current with
      | some previous => a.disown parent previous
      | none => pure a
    pure (current, a)

/-- Records that a child was put into a list of `parent`. -/
def attachToList (a : Arena) (parent child : NodeId) : Except Fault Arena := do
  let a := a.setParent child (some parent)
  match (← a.form parent).scope? with
  | some scope => a.defineChild scope child
  | none => pure a

/-- Puts a node into a list of `parent` at an index, or at the end if the list is shorter
once the node has left its old place. -/
def insertChild (a : Arena) (parent : NodeId) (name : ChildList) (index : Nat)
    (child : NodeId) : Except Fault Arena := do
  let (_, a) ← a.detach child
  let items ← a.list parent name
  let items := items.insertIdx (min index items.length) child
  let a := a.setForm parent ((← a.form parent).setList items name)
  a.attachToList parent child

/-- Puts a node at the end of a list of `parent`. -/
def pushChild (a : Arena) (parent : NodeId) (name : ChildList) (child : NodeId) :
    Except Fault Arena := do
  let (_, a) ← a.detach child
  let items ← a.list parent name
  let a := a.setForm parent ((← a.form parent).setList (items ++ [child]) name)
  a.attachToList parent child

/-- Takes the item at an index out of a list of `parent`. -/
def removeChild (a : Arena) (parent : NodeId) (name : ChildList) (index : Nat) :
    Except Fault (NodeId × Arena) := do
  let items ← a.list parent name
  match items[index]? with
  | none => throw .outOfBounds
  | some child =>
    let form := (← a.form parent).setList (items.eraseIdx index) name
    let a := a.setForm parent form
    let a ← match form.scope? with
      | some scope => a.undefineChild scope child
      | none => pure a
    pure (child, ← a.disown parent child)

/-- Replaces the item at an index of a list of `parent`; the replaced node is the answer and
has no parent any more. -/
def setListItem (a : Arena) (parent : NodeId) (name : ChildList) (index : Nat)
    (child : NodeId) : Except Fault (NodeId × Arena) := do
  match (← a.list parent name)[index]? with
  | none => throw .outOfBounds
  | some previous =>
    if previous = child then pure (child, a)
    else
      let (previous, a) ← a.removeChild parent name index
      pure (previous, ← a.insertChild parent name index child)

end Arena

end ExprLang
