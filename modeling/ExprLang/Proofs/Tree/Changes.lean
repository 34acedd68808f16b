import ExprLang.Proofs.Tree.Growth
import Mathlib.Data.List.Perm.Basic

/-!
# Changes of arenas

What the operations on an arena do to the children and to the recorded parents
of its nodes.  A child may be named by several fields; what matters is how often
each node holds it.

Main definitions:

- Definition {lit}`Form.held`: what the slots and the lists of a form hold.
- Definition {lit}`Arena.count`: how often a node holds a child.
- Definition {lit}`Arena.Moved`: a child leaves its place.

Main results:

- Theorem {lit}`Form.count_held`: the slots and lists hold the children.
- Theorem {lit}`Form.count_children_release?`: taking a child out.
- Theorems {lit}`Arena.moved_of_detach` and {lit}`Arena.moved_of_claimChild`: the
  operations by which a child leaves its place.
-/

namespace ExprLang

/-- What comes first in a sequence that succeeds has succeeded. -/
theorem exists_of_bind_eq_ok {ε α β : Type} {x : Except ε α} {f : α → Except ε β} {b : β}
    (h : x >>= f = .ok b) : ∃ a, x = .ok a ∧ f a = .ok b := by
  cases x with
  | error => cases h
  | ok a => exact ⟨a, rfl, h⟩

/-- What is answered in other words has succeeded. -/
theorem exists_of_map_eq_ok {ε α β : Type} {x : Except ε α} {f : α → β} {b : β}
    (h : f <$> x = .ok b) : ∃ a, x = .ok a ∧ f a = b := by
  cases x with
  | error => cases h
  | ok a => exact ⟨a, rfl, Except.ok.inj h⟩

/-! ## Fields of forms -/

namespace Form

/-- What the slots of a form hold, then what its lists hold. -/
def held (form : Form) : List NodeId :=
  Slot.all.flatMap (fun name => (form.slot? name).join.toList) ++
    ChildList.all.flatMap fun name => (form.list? name).getD []

/-- The slots and lists hold the children, each as often as it is one. -/
@[simp] theorem count_held (form : Form) (c : NodeId) :
    form.held.count c = form.children.count c := by
  cases form <;>
    simp [held, Slot.all, ChildList.all, slot?, list?, children, childGroups, ChildGroup.children,
      List.count_append, Nat.add_comm]

/-- The slots and lists hold the children. -/
@[simp] theorem mem_held {form : Form} {c : NodeId} : c ∈ form.held ↔ c ∈ form.children := by
  rw [← List.count_pos_iff, count_held, List.count_pos_iff]

/-- What a slot holds is a child. -/
theorem mem_children_of_slot? {form : Form} {name : Slot} {c : NodeId}
    (h : form.slot? name = some (some c)) : c ∈ form.children := by
  rw [← mem_held]
  exact List.mem_append_left _ (List.mem_flatMap.2 ⟨name, name.mem_all, by simp [h]⟩)

/-- What a list holds is a child. -/
theorem mem_children_of_list? {form : Form} {name : ChildList} {items : List NodeId} {c : NodeId}
    (h : form.list? name = some items) (hc : c ∈ items) : c ∈ form.children := by
  rw [← mem_held]
  exact List.mem_append_right _ (List.mem_flatMap.2 ⟨name, name.mem_all, by simpa [h] using hc⟩)

/-- A child put into a slot takes the place of the one that was there. -/
theorem count_children_setSlot {form : Form} {name : Slot} {old : Option NodeId}
    (h : form.slot? name = some old) (child : Option NodeId) (c : NodeId) :
    (form.setSlot child name).children.count c + old.toList.count c =
      form.children.count c + child.toList.count c := by
  cases form <;> cases name <;> simp only [slot?, Option.some.injEq, reduceCtorEq] at h <;>
    subst h <;>
    simp only [setSlot, children, childGroups, ChildGroup.children, List.flatMap_cons,
      List.flatMap_nil, List.count_append, List.count_nil] <;>
    omega

/-- The items of a list take the place of the old ones. -/
theorem count_children_setList {form : Form} {name : ChildList} {old : List NodeId}
    (h : form.list? name = some old) (items : List NodeId) (c : NodeId) :
    (form.setList items name).children.count c + old.count c =
      form.children.count c + items.count c := by
  cases form <;> cases name <;> simp only [list?, Option.some.injEq, reduceCtorEq] at h <;>
    subst h <;>
    simp only [setList, children, childGroups, ChildGroup.children, List.flatMap_cons,
      List.flatMap_nil, List.count_append, List.count_nil] <;>
    omega

/-- A child is found in a slot that holds it. -/
theorem slot?_of_placeOf? {form : Form} {c : NodeId} {name : Slot}
    (h : form.placeOf? c = some (.slot name)) : form.slot? name = some (some c) := by
  unfold placeOf? at h
  split at h
  · rename_i name' hfind
    cases h
    simpa using List.find?_some hfind
  · obtain ⟨list, -, hlist⟩ := List.exists_of_findSome?_eq_some h
    obtain ⟨i, -, hi⟩ := Option.map_eq_some_iff.1 hlist
    cases hi

/-- A child is found at its first index in a list. -/
theorem list?_of_placeOf? {form : Form} {c : NodeId} {name : ChildList} {i : Nat}
    (h : form.placeOf? c = some (.list name i)) :
    ∃ items, form.list? name = some items ∧ items.idxOf? c = some i := by
  unfold placeOf? at h
  split at h
  · cases h
  · obtain ⟨list, -, hlist⟩ := List.exists_of_findSome?_eq_some h
    obtain ⟨j, hj, he⟩ := Option.map_eq_some_iff.1 hlist
    cases he
    exact Option.bind_eq_some_iff.1 hj

/-- A child that is not found is none. -/
theorem not_mem_children_of_placeOf? {form : Form} {c : NodeId} (h : form.placeOf? c = none) :
    c ∉ form.children := by
  unfold placeOf? at h
  split at h
  · cases h
  · rename_i hslot
    rw [← mem_held]
    intro hmem
    rcases List.mem_append.1 hmem with hmem | hmem
    · obtain ⟨name, hname, hc⟩ := List.mem_flatMap.1 hmem
      have hne := List.find?_eq_none.1 hslot name hname
      have hc : form.slot? name = some (some c) := by simpa [Option.join_eq_some_iff] using hc
      simp [hc] at hne
    · obtain ⟨name, hname, hc⟩ := List.mem_flatMap.1 hmem
      have hne := List.findSome?_eq_none_iff.1 h name hname
      cases hlist : form.list? name with
      | none => simp [hlist] at hc
      | some items =>
        have hc : c ∈ items := by simpa [hlist] using hc
        have hne : items.idxOf? c = none := by simpa [hlist] using hne
        exact List.idxOf?_eq_none_iff.1 hne hc

/-- Erasing an item removes it once. -/
theorem count_eraseIdx {items : List NodeId} {c : NodeId} {i : Nat}
    (h : items[i]? = some c) (d : NodeId) :
    (items.eraseIdx i).count d + [c].count d = items.count d := by
  obtain ⟨hi, rfl⟩ := List.getElem?_eq_some_iff.1 h
  calc (items.eraseIdx i).count d + [items[i]].count d
      = ([items[i]] ++ items.eraseIdx i).count d := by rw [List.count_append, Nat.add_comm]
    _ = items.count d := (List.getElem_cons_eraseIdx_perm hi).count_eq d

/-- Taking a child out leaves the slots with other children as they are. -/
theorem slot?_of_release? {form form' : Form} {c : NodeId} {place : Place} {name : Slot}
    {old : Option NodeId} (h : form.release? c = some (place, form'))
    (hs : form.slot? name = some old) (hne : old ≠ some c) : form'.slot? name = some old := by
  obtain ⟨place', hplace, he⟩ := Option.map_eq_some_iff.1 h
  cases he
  cases place with
  | slot name' =>
    have hslot := slot?_of_placeOf? hplace
    have hname : name ≠ name' := by
      rintro rfl
      exact hne (Option.some.inj (hs.symm.trans hslot))
    exact (slot?_setSlot_of_ne form none hname).trans hs
  | list name' i => exact (slot?_setList ..).trans hs

/-- Taking a child out removes it once. -/
theorem count_children_release? {form form' : Form} {c : NodeId} {place : Place}
    (h : form.release? c = some (place, form')) (d : NodeId) :
    form'.children.count d + [c].count d = form.children.count d := by
  obtain ⟨place', hplace, he⟩ := Option.map_eq_some_iff.1 h
  cases he
  cases place with
  | slot name => exact count_children_setSlot (slot?_of_placeOf? hplace) none d
  | list name i =>
    obtain ⟨items, hitems, hi⟩ := list?_of_placeOf? hplace
    obtain ⟨hlt, hitem, -⟩ := List.idxOf?_eq_some_iff.1 hi
    have hcount := count_children_setList hitems (items.eraseIdx i) d
    have herase := count_eraseIdx (List.getElem?_eq_some_iff.2 ⟨hlt, hitem⟩) d
    simp only [clear, hitems, Option.getD_some]
    omega

end Form

/-! ## Single changes -/

namespace Arena

variable {a b : Arena} {id p q c d : NodeId} {form form' : Form}

/-- A node that can be asked for exists. -/
theorem node?_of_node {node : Node} (h : a.node id = .ok node) : a.node? id = some node := by
  unfold Arena.node at h
  split at h
  · cases h
    assumption
  · cases h

/-- A node that can be asked for has a number in range. -/
theorem index_lt_of_node {node : Node} (h : a.node id = .ok node) : id.index < a.size :=
  index_lt_of_form? (show a.form? id = some node.form by simp [form?, node?_of_node h])

/-- The parent of a node that can be asked for. -/
theorem parent?_of_node {node : Node} (h : a.node id = .ok node) : a.parent? id = node.parent := by
  simp [parent?, node?_of_node h]

/-- A form that can be asked for is that of a node. -/
theorem form?_of_form (h : a.form id = .ok form) : a.form? id = some form := by
  obtain ⟨node, hnode, rfl⟩ := exists_of_map_eq_ok h
  simp [form?, node?_of_node hnode]

/-- A position that can be asked for is that of a node. -/
theorem position?_of_position {position : Option Span} (h : a.position id = .ok position) :
    a.position? id = position := by
  obtain ⟨node, hnode, rfl⟩ := exists_of_map_eq_ok h
  simp [position?, node?_of_node hnode]

/-- A node with a parent exists. -/
theorem index_lt_of_parent? (h : a.parent? id = some p) : id.index < a.size := by
  obtain ⟨node, hnode, -⟩ := Option.bind_eq_some_iff.1 h
  exact index_lt_of_form? (show a.form? id = some node.form by simp [form?, hnode])

/-- How often a node holds a child. -/
def count (a : Arena) (p c : NodeId) : Nat := (a.children p).count c

/-- A node holds its children. -/
theorem count_pos_iff : 0 < a.count p c ↔ c ∈ a.children p := List.count_pos_iff

/-- The children of a node with a known form. -/
theorem count_of_form? (h : a.form? p = some form) (c : NodeId) :
    a.count p c = form.children.count c := by
  simp [count, children, h]

/-- A node that does not exist holds no child. -/
theorem count_eq_zero_of_form? (h : a.form? p = none) (c : NodeId) : a.count p c = 0 := by
  simp [count, children, h]

/-- Arenas with the same nodes. -/
structure SameNodes (a b : Arena) : Prop where
  nodes_eq : b.nodes = a.nodes

namespace SameNodes

variable (h : SameNodes a b)

include h

theorem size_eq : b.size = a.size := by simp [size, h.nodes_eq]

theorem form?_eq (id : NodeId) : b.form? id = a.form? id := by
  simp [form?, node?, h.nodes_eq]

theorem parent?_eq (id : NodeId) : b.parent? id = a.parent? id := by
  simp [parent?, node?, h.nodes_eq]

theorem count_eq (p c : NodeId) : b.count p c = a.count p c := by
  simp [count, children, h.form?_eq]

end SameNodes

/-- Binding a name changes no node. -/
theorem sameNodes_of_defineChild {scope : ScopeId} (h : a.defineChild scope c = .ok b) :
    SameNodes a b := by
  unfold defineChild at h
  split at h
  · cases h
    exact ⟨rfl⟩
  · obtain ⟨result, -, h⟩ := exists_of_bind_eq_ok h
    cases result <;> cases h <;> exact ⟨rfl⟩

/-- Removing a binding changes no node. -/
theorem sameNodes_of_undefineChild {scope : ScopeId} (h : a.undefineChild scope c = .ok b) :
    SameNodes a b := by
  unfold undefineChild at h
  split at h
  · cases h
    exact ⟨rfl⟩
  · obtain ⟨result, -, h⟩ := exists_of_bind_eq_ok h
    cases h
    exact ⟨rfl⟩

@[simp] theorem size_setForm (a : Arena) (id : NodeId) (form : Form) :
    (a.setForm id form).size = a.size := a.size_modify ..

@[simp] theorem size_setParent (a : Arena) (id : NodeId) (parent : Option NodeId) :
    (a.setParent id parent).size = a.size := a.size_modify ..

/-- A node has the form that it was given. -/
theorem form?_setForm_self (h : a.form? id = some form) (form' : Form) :
    (a.setForm id form').form? id = some form' := by
  obtain ⟨node, hnode, -⟩ := Option.map_eq_some_iff.1 h
  simp [form?, setForm, hnode]

/-- The other nodes keep their forms. -/
theorem form?_setForm_of_ne (h : q ≠ id) (form' : Form) :
    (a.setForm id form').form? q = a.form? q := by
  simp [form?, setForm, a.node?_modify_of_ne _ h]

/-- A node holds the children of the form that it was given. -/
theorem count_setForm (h : a.form? id = some form) (form' : Form) (q c : NodeId) :
    (a.setForm id form').count q c =
      if q = id then form'.children.count c else a.count q c := by
  split
  · rename_i hq
    subst hq
    exact count_of_form? (form?_setForm_self h form') c
  · rename_i hq
    simp [count, children, form?_setForm_of_ne hq form']

@[simp] theorem count_setParent (a : Arena) (id : NodeId) (parent : Option NodeId) (q c : NodeId) :
    (a.setParent id parent).count q c = a.count q c := by
  simp [count, children]

/-- A node has the parent that it was given, and the others keep theirs. -/
theorem parent?_setParent (h : id.index < a.size) (parent : Option NodeId) (d : NodeId) :
    (a.setParent id parent).parent? d = if d = id then parent else a.parent? d := by
  split
  · rename_i hd
    subst hd
    have hnode : a.node? d = some a.nodes[d.index] := Array.getElem?_eq_getElem h
    simp [parent?, setParent, hnode]
  · rename_i hd
    simp [parent?, setParent, a.node?_modify_of_ne _ hd]

/-! ## Children that leave their places -/

/-- A node has been taken out of the first place where its parent holds it and has got the parent
that is given. -/
structure Moved (a : Arena) (c : NodeId) (parent : Option NodeId) (b : Arena) : Prop where
  index_lt : c.index < a.size
  size_eq : b.size = a.size
  parent?_eq : ∀ d, b.parent? d = if d = c then parent else a.parent? d
  count_eq : ∀ q d, b.count q d = a.count q d - if a.parent? c = some q then [c].count d else 0

/-- What taking a child out of what holds it does, step by step. -/
theorem exists_of_releaseFrom {place : Option Place} (h : a.releaseFrom p c = .ok (place, b)) :
    ∃ form, a.form? p = some form ∧ (form.release? c = none ∧ b = a ∨
      ∃ place' form', form.release? c = some (place', form') ∧
        ((∃ name i scope, place' = .list name i ∧ form.scope? = some scope ∧
          (a.setForm p form').undefineChild scope c = .ok b) ∨
        ((∃ name, place' = .slot name) ∨ form.scope? = none) ∧ b = a.setForm p form')) := by
  obtain ⟨form, hform, h⟩ := exists_of_bind_eq_ok h
  refine ⟨form, form?_of_form hform, ?_⟩
  split at h
  · cases h
    exact .inl ⟨‹_›, rfl⟩
  · rename_i place' form' hrelease
    refine .inr ⟨place', form', hrelease, ?_⟩
    obtain ⟨place'', -, he⟩ := Option.map_eq_some_iff.1 hrelease
    cases he
    have hscope : (form.clear place').scope? = form.scope? := by
      cases place' <;> simp [Form.clear]
    cases place' with
    | slot name =>
      cases h
      exact .inr ⟨.inl ⟨name, rfl⟩, rfl⟩
    | list name i =>
      dsimp only at h
      rw [hscope] at h
      cases hs : form.scope? with
      | none =>
        rw [hs] at h
        cases h
        exact .inr ⟨.inr rfl, rfl⟩
      | some scope =>
        rw [hs] at h
        obtain ⟨b', hb', h⟩ := exists_of_bind_eq_ok h
        cases h
        exact .inl ⟨name, i, scope, rfl, rfl, hb'⟩

/-- A child that is taken out of what holds it. -/
theorem of_releaseFrom {place : Option Place} (h : a.releaseFrom p c = .ok (place, b)) :
    b.size = a.size ∧ (∀ d, b.parent? d = a.parent? d) ∧
      ∀ q d, b.count q d = a.count q d - if q = p then [c].count d else 0 := by
  obtain ⟨form, hform, ⟨hnone, rfl⟩ | ⟨place', form', hrelease, h⟩⟩ := exists_of_releaseFrom h
  · refine ⟨rfl, fun _ => rfl, fun q d => ?_⟩
    have hmem : c ∉ form.children :=
      Form.not_mem_children_of_placeOf? (Option.map_eq_none_iff.1 hnone)
    by_cases hq : q = p
    · subst hq
      by_cases hd : c = d
      · subst hd
        simp [count_of_form? hform, List.count_eq_zero.2 hmem]
      · simp [hd]
    · simp [hq]
  · have hsame : SameNodes (a.setForm p form') b := by
      obtain ⟨_, _, _, -, -, hundefine⟩ | ⟨-, rfl⟩ := h
      · exact sameNodes_of_undefineChild hundefine
      · exact ⟨rfl⟩
    refine ⟨hsame.size_eq.trans (size_setForm ..), fun d => by simp [hsame.parent?_eq],
      fun q d => ?_⟩
    have hcount := Form.count_children_release? hrelease d
    rw [hsame.count_eq, count_setForm hform]
    by_cases hq : q = p
    · subst hq
      rw [count_of_form? hform]
      simp only [if_true]
      omega
    · simp [hq]

/-- A node that leaves the place it has and gets another parent. -/
theorem moved_of_release {parent : Option NodeId}
    (hc : c.index < a.size)
    (h : (∃ p place, a.parent? c = some p ∧ a.releaseFrom p c = .ok (place, b)) ∨
      a.parent? c = none ∧ b = a) : Moved a c parent (b.setParent c parent) := by
  obtain ⟨hsize, hparent, hcount⟩ : b.size = a.size ∧ (∀ d, b.parent? d = a.parent? d) ∧
      ∀ q d, b.count q d = a.count q d - if a.parent? c = some q then [c].count d else 0 := by
    rcases h with ⟨p, place, hp, hrelease⟩ | ⟨hnone, rfl⟩
    · obtain ⟨hsize, hparent, hcount⟩ := of_releaseFrom hrelease
      refine ⟨hsize, hparent, fun q d => ?_⟩
      simpa [hp, eq_comm] using hcount q d
    · exact ⟨rfl, fun _ => rfl, fun q d => by simp [hnone]⟩
  refine ⟨hc, (size_setParent ..).trans hsize, fun d => ?_, fun q d => ?_⟩
  · rw [parent?_setParent (hsize ▸ hc), hparent]
  · rw [count_setParent, hcount]

/-- What taking a node out of its parent does, step by step. -/
theorem exists_of_detach {place : Option Place} (h : a.detach c = .ok (place, b)) :
    c.index < a.size ∧ (a.parent? c = none ∧ b = a ∨ ∃ p b', a.parent? c = some p ∧
      a.releaseFrom p c = .ok (place, b') ∧ b = b'.setParent c none) := by
  obtain ⟨node, hnode, h⟩ := exists_of_bind_eq_ok h
  have hparent := parent?_of_node hnode
  refine ⟨index_lt_of_node hnode, ?_⟩
  split at h
  · rename_i hnone
    cases h
    exact .inl ⟨hparent.trans hnone, rfl⟩
  · rename_i p hp
    obtain ⟨⟨place', b'⟩, hrelease, h⟩ := exists_of_bind_eq_ok h
    cases h
    exact .inr ⟨p, b', hparent.trans hp, hrelease, rfl⟩

/-- A node that is taken out of its parent. -/
theorem moved_of_detach {place : Option Place} (h : a.detach c = .ok (place, b)) :
    Moved a c none b := by
  obtain ⟨hlt, ⟨hnone, rfl⟩ | ⟨p, b', hp, hrelease, rfl⟩⟩ := exists_of_detach h
  · refine ⟨hlt, rfl, fun d => ?_, fun q d => by simp [hnone]⟩
    by_cases hd : d = c
    · simp [hd, hnone]
    · simp [hd]
  · exact moved_of_release hlt (.inl ⟨p, place, hp, hrelease⟩)

/-- What taking over a child does, step by step. -/
theorem exists_of_claimChild {scope? : Option ScopeId} (h : a.claimChild id scope? c = .ok b) :
    c.index < a.size ∧ ∃ b',
      ((∃ p place, a.parent? c = some p ∧ a.releaseFrom p c = .ok (place, b')) ∨
        a.parent? c = none ∧ b' = a) ∧
      scope?.elim (b = b'.setParent c (some id))
        fun scope => (b'.setParent c (some id)).defineChild scope c = .ok b := by
  obtain ⟨node, hnode, h⟩ := exists_of_bind_eq_ok h
  have hparent := parent?_of_node hnode
  refine ⟨index_lt_of_node hnode, ?_⟩
  cases hp : node.parent with
  | none =>
    rw [hp] at h hparent
    refine ⟨a, .inr ⟨hparent, rfl⟩, ?_⟩
    cases scope? with
    | none => exact (Except.ok.inj h).symm
    | some scope => exact h
  | some p =>
    rw [hp] at h hparent
    obtain ⟨b', hb', h⟩ := exists_of_bind_eq_ok h
    obtain ⟨⟨place, b''⟩, hrelease, rfl⟩ := exists_of_map_eq_ok hb'
    refine ⟨b'', .inl ⟨p, place, hparent, hrelease⟩, ?_⟩
    cases scope? with
    | none => exact (Except.ok.inj h).symm
    | some scope => exact h

/-- A child that a new node takes over. -/
theorem moved_of_claimChild {scope? : Option ScopeId} (h : a.claimChild id scope? c = .ok b) :
    Moved a c (some id) b := by
  obtain ⟨hlt, b', hrelease, hb⟩ := exists_of_claimChild h
  have hmoved : Moved a c (some id) (b'.setParent c (some id)) := moved_of_release hlt hrelease
  cases scope? with
  | none =>
    cases hb
    exact hmoved
  | some scope =>
    have hsame := sameNodes_of_defineChild hb
    exact ⟨hmoved.index_lt, hsame.size_eq.trans hmoved.size_eq,
      fun d => (hsame.parent?_eq d).trans (hmoved.parent?_eq d),
      fun q d => (hsame.count_eq q d).trans (hmoved.count_eq q d)⟩

/-- Where children are taken over one by one, what relates an arena to the one after each of them
relates the first arena to the last one. -/
theorem rel_of_claimAll {R : Arena → Arena → Prop} {scope? : Option ScopeId}
    {children : List NodeId} (hrefl : ∀ a, R a a) (htrans : ∀ {a b c}, R a b → R b c → R a c)
    (hstep : ∀ {a b}, ∀ c ∈ children, a.claimChild id scope? c = .ok b → R a b)
    (h : children.foldlM (fun a child => a.claimChild id scope? child) a = .ok b) : R a b := by
  induction children generalizing a with
  | nil =>
    cases h
    exact hrefl _
  | cons child children ih =>
    rw [List.foldlM_cons] at h
    obtain ⟨a', hclaim, h⟩ := exists_of_bind_eq_ok h
    exact htrans (hstep child (List.mem_cons_self ..) hclaim)
      (ih (fun c hc => hstep c (List.mem_cons_of_mem _ hc)) h)

end Arena

end ExprLang
