import ExprLang.Fault

/-!
# Scopes

A scope binds names to the nodes that define them and may lie in another scope.
A name is looked up in a scope and then in those around it.  Scopes are kept
together and referred to by number.

Main definitions:

- Definition {lit}`Scopes.find`: looking a name up from the inside out.
- Definition {lit}`Scopes.define`: binding a name that is free in a scope.
- Definition {lit}`Scopes.undefine`: removing a binding to a given node.
-/

namespace ExprLang

/-- The number of a node in its arena. -/
structure NodeId where
  index : Nat
deriving DecidableEq, Repr, Inhabited

/-- A node is referred to by a hash and its number. -/
instance : ToString NodeId where
  toString id := s!"#{id.index}"

/-- The number of a scope. -/
structure ScopeId where
  index : Nat
deriving DecidableEq, Repr, Inhabited

/-! ## One scope -/

/-- The names bound in a scope, and the scope around it. -/
structure Scope where
  bindings : List (String × NodeId)
  parent : Option ScopeId
deriving DecidableEq, Repr, Inhabited

namespace Scope

/-- The number of names bound in a scope. -/
def size (s : Scope) : Nat := s.bindings.length

/-- Whether a scope binds no name. -/
def isEmpty (s : Scope) : Bool := s.bindings.isEmpty

/-- The names bound in a scope, sorted. -/
def names (s : Scope) : List String :=
  (s.bindings.map (·.1)).mergeSort fun a b => decide (a ≤ b)

/-- The node that a name is bound to in a scope. -/
def find? (s : Scope) (name : String) : Option NodeId :=
  s.bindings.lookup name

/-- Binds a name. -/
def insert (s : Scope) (name : String) (node : NodeId) : Scope :=
  { s with bindings := s.bindings ++ [(name, node)] }

/-- Removes the binding of a name. -/
def erase (s : Scope) (name : String) : Scope :=
  { s with bindings := s.bindings.filter (·.1 != name) }

/-- A name that was free is bound. -/
theorem find?_insert_self {s : Scope} {name : String} (node : NodeId)
    (h : s.find? name = none) : (s.insert name node).find? name = some node := by
  simp only [find?] at h
  simp [Scope.insert, find?, List.lookup_append, h]

/-- Binding a name leaves the others as they are. -/
theorem find?_insert_of_ne (s : Scope) {name other : String} (node : NodeId)
    (h : other ≠ name) : (s.insert name node).find? other = s.find? other := by
  have h : (other == name) = false := by simpa using h
  have h : List.lookup other [(name, node)] = none := by rw [List.lookup_cons, h]; rfl
  simp [Scope.insert, find?, List.lookup_append, h]

@[simp] theorem find?_erase_self (s : Scope) (name : String) :
    (s.erase name).find? name = none := by
  simp only [erase, find?, List.lookup_eq_none_iff, List.mem_filter]
  rintro ⟨key, node⟩ ⟨-, h⟩
  have h : key ≠ name := by simpa using h
  simpa using h.symm

/-- Removing a name leaves the others as they are. -/
theorem find?_erase_of_ne (s : Scope) {name other : String} (h : other ≠ name) :
    (s.erase name).find? other = s.find? other := by
  obtain ⟨bindings, parent⟩ := s
  simp only [erase, find?]
  induction bindings with
  | nil => rfl
  | cons binding bindings ih =>
    obtain ⟨key, node⟩ := binding
    by_cases hk : key = name
    · subst hk
      have hk : (other == key) = false := by simpa using h
      simp [List.lookup_cons, hk, ih]
    · simp [hk, List.lookup_cons, ih]

end Scope

/-! ## All scopes of a tree -/

/-- Scopes by number. -/
structure Scopes where
  scopes : Array Scope := #[]
deriving Repr, Inhabited

namespace Scopes

/-- No scopes. -/
def empty : Scopes := {}

/-- The number of scopes. -/
def size (s : Scopes) : Nat := s.scopes.size

/-- Opens a scope inside another one, or inside none. -/
def add (s : Scopes) (parent : Option ScopeId) : ScopeId × Scopes :=
  (⟨s.scopes.size⟩, ⟨s.scopes.push ⟨[], parent⟩⟩)

/-- The scope with a given number. -/
def get (s : Scopes) (id : ScopeId) : Except Fault Scope :=
  match s.scopes[id.index]? with
  | some scope => .ok scope
  | none => .error .outOfBounds

/-- Replaces a scope. -/
def set (s : Scopes) (id : ScopeId) (scope : Scope) : Scopes :=
  ⟨s.scopes.setIfInBounds id.index scope⟩

@[simp] theorem size_add (s : Scopes) (parent : Option ScopeId) :
    (s.add parent).2.size = s.size + 1 := by
  simp [add, size]

@[simp] theorem size_set (s : Scopes) (id : ScopeId) (scope : Scope) :
    (s.set id scope).size = s.size := by
  simp [set, size]

/-- A scope that exists is replaced. -/
theorem get_set_self {s : Scopes} {id : ScopeId} (scope : Scope) (h : id.index < s.size) :
    (s.set id scope).get id = .ok scope := by
  have h : id.index < s.scopes.size := h
  simp [get, set, h]

/-- Replacing a scope leaves the others as they are. -/
theorem get_set_of_ne (s : Scopes) {id other : ScopeId} (scope : Scope) (h : other ≠ id) :
    (s.set id scope).get other = s.get other := by
  have h : id.index ≠ other.index := fun e => h (by cases id; cases other; simp_all)
  simp [get, set, Array.getElem?_setIfInBounds_ne h]

/-- The node that a name is bound to in that very scope. -/
def findLocal (s : Scopes) (id : ScopeId) (name : String) : Except Fault (Option NodeId) := do
  pure ((← s.get id).find? name)

/-- Looks a name up in a scope and at most so many scopes around it. -/
def findWithin (s : Scopes) (name : String) : Nat → ScopeId → Except Fault (Option NodeId)
  | 0, _ => .error .boundExceeded
  | n + 1, id => do
    let scope ← s.get id
    match scope.find? name, scope.parent with
    | some node, _ => pure (some node)
    | none, none => pure none
    | none, some parent => s.findWithin name n parent

/-- Looks a name up in a scope and then in each scope around it.  A chain of scopes
without a circle is no longer than their number. -/
def find (s : Scopes) (id : ScopeId) (name : String) : Except Fault (Option NodeId) :=
  s.findWithin name (s.size + 1) id

/-- Binds a name in a scope.  If that very scope already binds it, nothing changes and the
existing binding is the error. -/
def define (s : Scopes) (id : ScopeId) (name : String) (node : NodeId) :
    Except Fault (Except NodeId Scopes) := do
  let scope ← s.get id
  match scope.find? name with
  | some existing => pure (.error existing)
  | none => pure (.ok (s.set id (scope.insert name node)))

/-- Removes a name from a scope if it is bound to `node` there, and says whether it was. -/
def undefine (s : Scopes) (id : ScopeId) (name : String) (node : NodeId) :
    Except Fault (Bool × Scopes) := do
  let scope ← s.get id
  if scope.find? name = some node then pure (true, s.set id (scope.erase name))
  else pure (false, s)

end Scopes

end ExprLang
