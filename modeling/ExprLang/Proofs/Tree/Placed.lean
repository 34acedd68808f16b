import ExprLang.Proofs.Tree.Ownership

/-!
# Nodes with positions

A parse gives every node a position as soon as the node is there, whatever becomes
of the node later.  So in the arena of a parse every node is where its parent holds
it, and every node has a position.

Main definitions:

- Definition {lit}`Arena.Settles`: what taking over children leaves alone.
- Definition {lit}`Arena.Orderly`: the arena of a parse between two rules.

Main results:

- Theorem {lit}`Arena.Orderly.made`: a new node keeps the arena in order.
-/

namespace ExprLang.Arena

variable {a b c : Arena} {id p child : NodeId} {form : Form}

/-! ## Taking over children -/

/-- The arena `a` becomes `b` without a change to the positions of nodes; redefinitions that are
noted meanwhile are about nodes that exist. -/
structure Settles (a b : Arena) : Prop where
  size_eq : b.size = a.size
  position?_eq : ∀ id, b.position? id = a.position? id
  noted : ∀ r ∈ b.redefinitions, r ∈ a.redefinitions ∨ r.duplicate.index < a.size

/-- A change that keeps the position of every node changes no position. -/
theorem position?_modify (a : Arena) (id other : NodeId) (change : Node → Node)
    (h : ∀ node, (change node).position = node.position) :
    (a.modify id change).position? other = a.position? other := by
  by_cases hid : other = id
  · subst hid
    simp only [position?, node?_modify_self, Option.bind_map, Function.comp_def, h]
  · simp only [position?, node?_modify_of_ne a change hid]

namespace Settles

/-- Nothing has to change. -/
theorem refl (a : Arena) : a.Settles a := ⟨rfl, fun _ => rfl, fun _ hr => .inl hr⟩

/-- Changes in steps. -/
theorem trans (h : a.Settles b) (h' : b.Settles c) : a.Settles c where
  size_eq := h'.size_eq.trans h.size_eq
  position?_eq id := (h'.position?_eq id).trans (h.position?_eq id)
  noted r hr := by
    rcases h'.noted r hr with hr | hlt
    · exact h.noted r hr
    · exact .inr (h.size_eq ▸ hlt)

/-- A change of one node that keeps its position. -/
theorem modify (a : Arena) (id : NodeId) (change : Node → Node)
    (h : ∀ node, (change node).position = node.position) : a.Settles (a.modify id change) :=
  ⟨a.size_modify .., fun other => a.position?_modify id other change h, fun _ hr => .inl hr⟩

/-- Arenas with the same nodes and redefinitions. -/
theorem of_sameNodes (h : SameNodes a b) (hr : b.redefinitions = a.redefinitions) :
    a.Settles b :=
  ⟨h.size_eq, fun id => by simp [position?, node?, h.nodes_eq], fun r hmem => .inl (hr ▸ hmem)⟩

/-- Binding the name of a child. -/
theorem defineChild {scope : ScopeId} (hc : child.index < a.size)
    (h : a.defineChild scope child = .ok b) : a.Settles b := by
  unfold Arena.defineChild at h
  split at h
  · cases h
    exact .refl a
  · obtain ⟨result, -, h⟩ := exists_of_bind_eq_ok h
    cases result with
    | ok scopes =>
      cases h
      exact .of_sameNodes ⟨rfl⟩ rfl
    | error existing =>
      cases h
      refine ⟨rfl, fun _ => rfl, fun r hr => ?_⟩
      rcases List.mem_append.1 hr with hr | hr
      · exact .inl hr
      · rw [List.mem_singleton.1 hr]
        exact .inr hc

/-- Removing the binding of the name of a child. -/
theorem undefineChild {scope : ScopeId} (h : a.undefineChild scope child = .ok b) :
    a.Settles b := by
  refine .of_sameNodes (sameNodes_of_undefineChild h) ?_
  unfold Arena.undefineChild at h
  split at h
  · cases h
    rfl
  · obtain ⟨result, -, h⟩ := exists_of_bind_eq_ok h
    cases h
    rfl

/-- Taking a child out of what holds it. -/
theorem releaseFrom {place : Option Place} (h : a.releaseFrom p child = .ok (place, b)) :
    a.Settles b := by
  obtain ⟨form, -, ⟨-, rfl⟩ | ⟨place', form', -, h⟩⟩ := exists_of_releaseFrom h
  · exact .refl b
  · have hform : a.Settles (a.setForm p form') := .modify a p _ fun _ => rfl
    obtain ⟨_, _, _, -, -, hundefine⟩ | ⟨-, rfl⟩ := h
    · exact hform.trans (.undefineChild hundefine)
    · exact hform

/-- A new node takes over one child. -/
theorem claimChild {scope? : Option ScopeId} (h : a.claimChild id scope? child = .ok b) :
    a.Settles b := by
  obtain ⟨hlt, b', hrelease, hb⟩ := exists_of_claimChild h
  have hreleased : a.Settles b' := by
    rcases hrelease with ⟨p, place, -, hrelease⟩ | ⟨-, rfl⟩
    · exact .releaseFrom hrelease
    · exact .refl b'
  have hparent : a.Settles (b'.setParent child (some id)) :=
    hreleased.trans (.modify b' child _ fun _ => rfl)
  cases scope? with
  | none =>
    cases hb
    exact hparent
  | some scope => exact hparent.trans (.defineChild (hparent.size_eq ▸ hlt) hb)

/-- A new node takes over its children one by one. -/
theorem claimAll {scope? : Option ScopeId} {children : List NodeId}
    (h : children.foldlM (fun a child => a.claimChild id scope? child) a = .ok b) :
    a.Settles b :=
  rel_of_claimAll .refl .trans (fun _ _ => claimChild) h

end Settles

/-! ## New nodes -/

/-- The new node has no position, and the others keep theirs. -/
theorem position?_push (a : Arena) (form : Form) (q : NodeId) :
    (a.push form).position? q = a.position? q := by
  by_cases hq : q = a.next
  · subst hq
    simp [position?, node?, push, next]
  · have hne : q.index ≠ a.nodes.size := fun e => hq (by cases q; simp_all [next])
    simp [position?, node?, push, Array.getElem?_push, hne]

/-- A new node is the next one; once it has taken over its children the arena has one node more,
and the older nodes are where they were. -/
theorem settles_of_alloc (h : a.alloc form = .ok (id, b)) :
    id = a.next ∧ (a.push form).Settles b := by
  obtain ⟨b', hclaim, h⟩ := exists_of_bind_eq_ok h
  cases h
  exact ⟨rfl, .claimAll hclaim⟩

@[simp] theorem size_push (a : Arena) (form : Form) : (a.push form).size = a.size + 1 :=
  Array.size_push ..

/-- What giving a node its position does. -/
theorem eq_of_setPosition {span : Span} (h : a.setPosition id span = .ok b) :
    id.index < a.size ∧
      b = a.modify id fun node => { node with position := some span } := by
  obtain ⟨node, hnode, h⟩ := exists_of_bind_eq_ok h
  refine ⟨index_lt_of_node hnode, ?_⟩
  split at h
  · cases h
  · cases h
    rfl

/-! ## Arenas of parses -/

/-- Every node is where its parent holds it and nowhere else, every node has a position, and what
is noted as a redefinition is about nodes. -/
structure Orderly (a : Arena) : Prop where
  owned : a.Owned True
  placed : ∀ id : NodeId, id.index < a.size → ∃ span, a.position? id = some span
  noted : ∀ r ∈ a.redefinitions, r.duplicate.index < a.size

namespace Orderly

/-- A parse starts in order. -/
theorem empty : Arena.empty.Orderly :=
  ⟨owned_empty, fun _ hid => absurd hid (Nat.not_lt_zero _), nofun⟩

/-- Scopes do not matter. -/
theorem newScope (h : a.Orderly) (parent : Option ScopeId) : (a.newScope parent).2.Orderly :=
  ⟨h.owned.of_sameNodes ⟨rfl⟩, h.placed, h.noted⟩

/-- Redefinitions can be taken. -/
theorem takeRedefinitions (h : a.Orderly) : a.takeRedefinitions.2.Orderly :=
  ⟨h.owned.of_sameNodes ⟨rfl⟩, h.placed, nofun⟩

/-- A new node with a position keeps the arena in order. -/
theorem made {span : Span} (h : a.Orderly) (halloc : a.alloc form = .ok (id, b))
    (hset : b.setPosition id span = .ok c) : c.Orderly ∧ id = a.next ∧ c.size = a.size + 1 := by
  obtain ⟨rfl, hsettles⟩ := settles_of_alloc halloc
  obtain ⟨hlt, rfl⟩ := eq_of_setPosition hset
  have hsize : b.size = a.size + 1 := hsettles.size_eq.trans (size_push ..)
  refine ⟨⟨(h.owned.alloc halloc).modify _ (fun _ => rfl) fun _ => rfl, fun q hq => ?_, ?_⟩, rfl,
    (size_modify ..).trans hsize⟩
  · rw [size_modify] at hq
    by_cases hnew : q = a.next
    · subst hnew
      have hnode : b.node? a.next = some b.nodes[a.next.index] := Array.getElem?_eq_getElem hlt
      exact ⟨span, by simp [position?, hnode]⟩
    · have hold : q.index < a.size := by
        rw [hsize] at hq
        refine Nat.lt_of_le_of_ne (Nat.le_of_lt_succ hq) fun e => hnew ?_
        cases q
        exact congrArg _ e
      obtain ⟨old, hposition⟩ := h.placed q hold
      refine ⟨old, ?_⟩
      have hkept := (hsettles.position?_eq q).trans (a.position?_push form q)
      rw [position?] at hkept ⊢
      rw [b.node?_modify_of_ne _ hnew, hkept, hposition]
  · intro r hr
    rw [size_modify, hsize]
    rcases hsettles.noted r hr with hr | hr
    · exact Nat.lt_succ_of_lt (h.noted r hr)
    · rwa [size_push] at hr

end Orderly

end ExprLang.Arena
