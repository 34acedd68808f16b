import ExprLang.Proofs.Tree.Ownership

/-!
# What operations leave alone

An operation that puts a node in place or takes one out concerns that node, the
node whose place it takes, the slot that is left and the slot that is filled.  The
other nodes keep their parents, the other slots what they hold, lists the order of
their other items, and every node what is not about children and parents.

Each operation releases, overwrites and records parents in an order of its own.
All of these are changes of one node, and what one change leaves alone is left
alone by any number of them.

Main definitions:

- Definition {lit}`Node.fixed`: what a node is apart from its children and parent.
- Definition {lit}`Arena.Keeps`: what is left alone from one arena to another.
- Definitions {lit}`Edit.concerns`, {lit}`Edit.Leaves` and {lit}`Edit.Fills`: what
  an operation does not leave alone.

Main results:

- Theorems {lit}`Arena.Keeps.setSlot` and {lit}`Arena.Keeps.setList`: single
  changes.
- Theorem {lit}`Arena.Keeps.of_run`: operations that put nodes in place.
- Theorem {lit}`Edit.run_leaves_alone`: the same where each node is where it is
  recorded to be.
-/

namespace ExprLang

/-- What a node is apart from its children and its parent: its form without the children, the
scope that it opens, its position and its type. -/
def Node.fixed (node : Node) : Form × Option ScopeId × Option Span × Option String :=
  (node.form.bare, node.form.scope?, node.position, node.resolvedType)

/-! ## Fields of nodes -/

namespace Arena

variable {a b : Arena} {id p q c d : NodeId} {form form' : Form} {touched : List NodeId}
  {fields : NodeId → Slot → Prop} {items items' : List NodeId} {i : Nat}

/-- What a slot of a node holds, if there is such a slot. -/
def slot? (a : Arena) (id : NodeId) (name : Slot) : Option (Option NodeId) :=
  (a.form? id).bind (·.slot? name)

/-- The children in a list of a node, if there is such a list. -/
def list? (a : Arena) (id : NodeId) (name : ChildList) : Option (List NodeId) :=
  (a.form? id).bind (·.list? name)

/-- The slots of a node are those of its form. -/
theorem slot?_of_form? (h : a.form? p = some form) (name : Slot) :
    a.slot? p name = form.slot? name := by rw [slot?, h, Option.bind_some]

/-- The lists of a node are those of its form. -/
theorem list?_of_form? (h : a.form? p = some form) (name : ChildList) :
    a.list? p name = form.list? name := by rw [list?, h, Option.bind_some]

/-- A slot that can be asked for is there. -/
theorem slot?_of_slot {name : Slot} {child : Option NodeId} (h : a.slot p name = .ok child) :
    a.slot? p name = some child := by
  obtain ⟨form, hform, hslot⟩ := exists_form_of_slot h
  rw [slot?_of_form? hform, hslot]

/-- A list that can be asked for is there. -/
theorem list?_of_list {name : ChildList} (h : a.list p name = .ok items) :
    a.list? p name = some items := by
  obtain ⟨form, hform, hlist⟩ := exists_form_of_list h
  rw [list?_of_form? hform, hlist]

end Arena

/-! ## Operations that put nodes in place -/

namespace Edit

/-- Whether an operation puts a node in place or takes one out, and does nothing else. -/
def isPlacement : Edit → Bool
  | detach _ | setChild .. | pushChild .. | insertChild .. | setListItem .. | removeChild .. => true
  | newScope _ | alloc _ | adopt .. | setPosition .. | setResolvedType .. => false

/-- The node that an operation puts in place, or takes out wherever it is. -/
def moved? : Edit → Option NodeId
  | detach child => some child
  | setChild _ _ child => child
  | pushChild _ _ child => some child
  | insertChild _ _ _ child => some child
  | setListItem _ _ _ child => some child
  | _ => none

/-- The node whose place an operation gives to another one or to none. -/
def displaced? (a : Arena) : Edit → Option NodeId
  | setChild parent name _ => (a.slot? parent name).join
  | setListItem parent name index _ => (a.list? parent name).bind (·[index]?)
  | removeChild parent name index => (a.list? parent name).bind (·[index]?)
  | _ => none

/-- The nodes that an operation moves or displaces. -/
def concerns (a : Arena) (e : Edit) : List NodeId := e.moved?.toList ++ (e.displaced? a).toList

/-- The slot that holds the node which an operation moves, at the node that is recorded to be its
parent. -/
def Leaves (a : Arena) (e : Edit) (q : NodeId) (name : Slot) : Prop :=
  ∃ c, e.moved? = some c ∧ a.parent? c = some q ∧ a.slot? q name = some (some c)

/-- The slot that an operation fills or empties by its name. -/
def Fills (e : Edit) (q : NodeId) (name : Slot) : Prop := ∃ child, e = setChild q name child

end Edit

namespace Arena

variable {a b : Arena} {id p q c d : NodeId} {form form' : Form} {touched : List NodeId}
  {fields : NodeId → Slot → Prop} {items items' : List NodeId} {i : Nat}

/-! ## Single changes -/

/-- All is left alone but the parents and the places of some nodes and what is in some slots. -/
structure Keeps (touched : List NodeId) (fields : NodeId → Slot → Prop) (a b : Arena) : Prop where
  fixed_eq : ∀ q, (b.node? q).map Node.fixed = (a.node? q).map Node.fixed
  parent?_eq : ∀ d, d ∉ touched → b.parent? d = a.parent? d
  slot?_eq : ∀ q name, ¬ fields q name → b.slot? q name = a.slot? q name
  list?_eq : ∀ q name, (b.list? q name).map (List.filter (· ∉ touched)) =
    (a.list? q name).map (List.filter (· ∉ touched))

/-- An item that does not count can be taken out of a list. -/
theorem filter_eraseIdx (hi : items[i]? = some c) (hc : c ∈ touched) :
    (items.eraseIdx i).filter (· ∉ touched) = items.filter (· ∉ touched) := by
  obtain ⟨hlt, rfl⟩ := List.getElem?_eq_some_iff.1 hi
  calc (items.eraseIdx i).filter (· ∉ touched)
      = (items.take i ++ items[i] :: items.drop (i + 1)).filter (· ∉ touched) := by
        rw [List.eraseIdx_eq_take_drop_succ, List.filter_append, List.filter_append,
          List.filter_cons_of_neg (by simpa using hc)]
    _ = items.filter (· ∉ touched) := by rw [List.getElem_cons_drop, List.take_append_drop]

/-- An item that does not count can be put into a list. -/
theorem filter_insertIdx (hi : i ≤ items.length) (hc : c ∈ touched) :
    (items.insertIdx i c).filter (· ∉ touched) = items.filter (· ∉ touched) := by
  have hget : (items.insertIdx i c)[i]? = some c := by
    rw [List.getElem?_insertIdx_self, if_pos hi]
  have herase := filter_eraseIdx hget hc
  rw [List.eraseIdx_insertIdx_self] at herase
  exact herase.symm

namespace Keeps

/-- Nothing need change. -/
theorem refl (a : Arena) : Keeps touched fields a a :=
  ⟨fun _ => rfl, fun _ _ => rfl, fun _ _ _ => rfl, fun _ _ => rfl⟩

/-- What two changes leave alone is left alone by both. -/
theorem trans {e : Arena} (h : Keeps touched fields a b) (h' : Keeps touched fields b e) :
    Keeps touched fields a e where
  fixed_eq q := (h'.fixed_eq q).trans (h.fixed_eq q)
  parent?_eq d hd := (h'.parent?_eq d hd).trans (h.parent?_eq d hd)
  slot?_eq q name hn := (h'.slot?_eq q name hn).trans (h.slot?_eq q name hn)
  list?_eq q name := (h'.list?_eq q name).trans (h.list?_eq q name)

/-- Arenas with the same nodes. -/
theorem of_sameNodes (h : SameNodes a b) : Keeps touched fields a b where
  fixed_eq q := by rw [node?, h.nodes_eq, node?]
  parent?_eq d _ := h.parent?_eq d
  slot?_eq q name _ := by rw [slot?, h.form?_eq, slot?]
  list?_eq q name := by rw [list?, h.form?_eq, list?]

/-- The parent of a node that does not count. -/
theorem setParent (hc : c ∈ touched) (parent : Option NodeId) :
    Keeps touched fields a (a.setParent c parent) where
  fixed_eq q := by
    by_cases hq : q = c
    · subst hq
      simp only [Arena.setParent, node?_modify_self, Option.map_map]
      rfl
    · rw [Arena.setParent, node?_modify_of_ne a _ hq]
  parent?_eq d hd := by
    have hne : d ≠ c := by
      rintro rfl
      exact hd hc
    rw [parent?, Arena.setParent, node?_modify_of_ne a _ hne, parent?]
  slot?_eq q name _ := by rw [slot?, form?_setParent, slot?]
  list?_eq q name := by rw [list?, form?_setParent, list?]

/-- The children of a form are not what a node is apart from them. -/
theorem fixed_setForm (hf : a.form? p = some form) (hb : form'.bare = form.bare)
    (hs : form'.scope? = form.scope?) (q : NodeId) :
    ((a.setForm p form').node? q).map Node.fixed = (a.node? q).map Node.fixed := by
  by_cases hq : q = p
  · subst hq
    obtain ⟨node, hnode, rfl⟩ := Option.map_eq_some_iff.1 hf
    simp [setForm, hnode, Node.fixed, hb, hs]
  · rw [setForm, node?_modify_of_ne a _ hq]

/-- A slot that does not count. -/
theorem setSlot {name : Slot} (hf : a.form? p = some form) (hp : fields p name)
    (child : Option NodeId) : Keeps touched fields a (a.setForm p (form.setSlot child name)) where
  fixed_eq := fixed_setForm hf (form.bare_setSlot name child) (form.scope?_setSlot name child)
  parent?_eq d _ := parent?_setForm ..
  slot?_eq q other hn := by
    by_cases hq : q = p
    · subst hq
      have hne : other ≠ name := by
        rintro rfl
        exact hn hp
      rw [slot?_of_form? (form?_setForm_self hf _), slot?_of_form? hf]
      exact form.slot?_setSlot_of_ne child hne
    · rw [slot?, form?_setForm_of_ne hq, slot?]
  list?_eq q other := by
    by_cases hq : q = p
    · subst hq
      rw [list?_of_form? (form?_setForm_self hf _), list?_of_form? hf, Form.list?_setSlot]
    · rw [list?, form?_setForm_of_ne hq, list?]

/-- A list whose items are the same in the same order, apart from those that do not count. -/
theorem setList {name : ChildList} (hf : a.form? p = some form)
    (hl : form.list? name = some items)
    (hi : items'.filter (· ∉ touched) = items.filter (· ∉ touched)) :
    Keeps touched fields a (a.setForm p (form.setList items' name)) where
  fixed_eq := fixed_setForm hf (form.bare_setList name items') (form.scope?_setList name items')
  parent?_eq d _ := parent?_setForm ..
  slot?_eq q other _ := by
    by_cases hq : q = p
    · subst hq
      rw [slot?_of_form? (form?_setForm_self hf _), slot?_of_form? hf, Form.slot?_setList]
    · rw [slot?, form?_setForm_of_ne hq, slot?]
  list?_eq q other := by
    by_cases hq : q = p
    · subst hq
      rw [list?_of_form? (form?_setForm_self hf _), list?_of_form? hf]
      by_cases hname : other = name
      · subst hname
        rw [Form.list?_setList items' (by simp [hl]), hl, Option.map_some, Option.map_some, hi]
      · rw [form.list?_setList_of_ne items' hname]
    · rw [list?, form?_setForm_of_ne hq, list?]

/-! ## Operations -/

/-- A child that is taken out of what holds it. -/
theorem releaseFrom {place : Option Place} (hc : c ∈ touched)
    (hs : ∀ q name, a.slot? q name = some (some c) → fields q name)
    (h : a.releaseFrom p c = .ok (place, b)) : Keeps touched fields a b := by
  obtain ⟨form, hform, ⟨-, rfl⟩ | ⟨place', form', hrelease, h⟩⟩ := exists_of_releaseFrom h
  · exact .refl b
  obtain ⟨place'', hplace, he⟩ := Option.map_eq_some_iff.1 hrelease
  cases he
  have hclear : Keeps touched fields a (a.setForm p (form.clear place')) := by
    cases place' with
    | slot name =>
      have hslot := Form.slot?_of_placeOf? hplace
      exact .setSlot hform (hs p name ((slot?_of_form? hform name).trans hslot)) none
    | list name i =>
      obtain ⟨items, hitems, hi⟩ := Form.list?_of_placeOf? hplace
      obtain ⟨hlt, hitem, -⟩ := List.idxOf?_eq_some_iff.1 hi
      have hfilter := filter_eraseIdx (List.getElem?_eq_some_iff.2 ⟨hlt, hitem⟩) hc
      rw [Form.clear, hitems, Option.getD_some]
      exact .setList hform hitems hfilter
  rcases h with ⟨_, _, _, -, -, hundefine⟩ | ⟨-, rfl⟩
  · exact hclear.trans (.of_sameNodes (sameNodes_of_undefineChild hundefine))
  · exact hclear

/-- A node that is taken out of its parent. -/
theorem detach {place : Option Place} (hc : c ∈ touched)
    (hs : ∀ q name, a.slot? q name = some (some c) → fields q name)
    (h : a.detach c = .ok (place, b)) : Keeps touched fields a b := by
  obtain ⟨-, ⟨-, rfl⟩ | ⟨p, b', -, hrelease, rfl⟩⟩ := exists_of_detach h
  · exact .refl b
  · exact (Keeps.releaseFrom hc hs hrelease).trans (.setParent hc none)

/-- A node whose recorded parent is cleared. -/
theorem disown (hc : c ∈ touched) (h : a.disown p c = .ok b) : Keeps touched fields a b := by
  obtain ⟨node, -, h⟩ := exists_of_bind_eq_ok h
  split at h
  · cases h
    exact .setParent hc none
  · cases h
    exact .refl a

/-- A node that is put into a list. -/
theorem attached {name : ChildList} (hc : c ∈ touched) (hf : a.form? p = some form)
    (hl : form.list? name = some items)
    (hi : items'.filter (· ∉ touched) = items.filter (· ∉ touched))
    (h : (a.setForm p (form.setList items' name)).attachToList p c = .ok b) :
    Keeps touched fields a b := by
  refine (Keeps.setList hf hl hi).trans ((Keeps.setParent hc (some p)).trans ?_)
  obtain ⟨form', -, h⟩ := exists_of_bind_eq_ok h
  split at h
  · exact .of_sameNodes (sameNodes_of_defineChild h)
  · cases h
    exact .refl _

/-- A node that is put into a list at an index. -/
theorem insertChild {name : ChildList} (hc : c ∈ touched)
    (hs : ∀ q name, a.slot? q name = some (some c) → fields q name)
    (h : a.insertChild p name i c = .ok b) : Keeps touched fields a b := by
  obtain ⟨place, a', items, form, hdetach, hf, hl, h⟩ := exists_of_insertChild h
  exact (Keeps.detach hc hs hdetach).trans
    (.attached hc hf hl (filter_insertIdx (Nat.min_le_right ..) hc) h)

/-- A node that is put at the end of a list. -/
theorem pushChild {name : ChildList} (hc : c ∈ touched)
    (hs : ∀ q name, a.slot? q name = some (some c) → fields q name)
    (h : a.pushChild p name c = .ok b) : Keeps touched fields a b := by
  obtain ⟨place, a', items, form, hdetach, hf, hl, h⟩ := exists_of_pushChild h
  exact (Keeps.detach hc hs hdetach).trans (.attached hc hf hl (by simp [hc]) h)

/-- A node that is taken out of a list. -/
theorem removeChild {name : ChildList} (hc : c ∈ touched)
    (h : a.removeChild p name i = .ok (c, b)) : Keeps touched fields a b := by
  obtain ⟨items, form, a', hform, hlist, hitem, hsame, hdisown⟩ := sameNodes_of_removeChild h
  have herase : Keeps touched fields a (a.setForm p (form.setList (items.eraseIdx i) name)) :=
    .setList hform hlist (filter_eraseIdx hitem hc)
  exact herase.trans ((Keeps.of_sameNodes hsame).trans (.disown hc hdisown))

/-- A node that takes the place of an item of a list. -/
theorem setListItem {name : ChildList} (hc : c ∈ touched) (hd : d ∈ touched)
    (hs : ∀ q name, a.slot? q name = some (some c) → fields q name)
    (h : a.setListItem p name i c = .ok (d, b)) : Keeps touched fields a b := by
  obtain ⟨-, ⟨-, rfl⟩ | ⟨-, a', hremove, hinsert⟩⟩ := exists_of_setListItem h
  · exact .refl _
  -- taking the item out changes no slot, so the other node is where it was
  have hremoved : Keeps touched (fun _ _ => False) a a' := .removeChild hd hremove
  refine (Keeps.removeChild hd hremove).trans (.insertChild hc (fun q name hq => ?_) hinsert)
  exact hs q name ((hremoved.slot?_eq q name id).symm.trans hq)

/-- A node, or none, that is put into a slot. -/
theorem setChild {name : Slot} {child old : Option NodeId} (hc : ∀ c, child = some c → c ∈ touched)
    (hd : ∀ d, a.slot? p name = some (some d) → d ∈ touched)
    (hs : ∀ c, child = some c → ∀ q name, a.slot? q name = some (some c) → fields q name)
    (hp : fields p name) (h : a.setChild p name child = .ok (old, b)) :
    Keeps touched fields a b := by
  by_cases hne : old = child
  · subst hne
    rw [eq_of_setChild h]
    exact .refl a
  obtain ⟨a', a'', form, ha', hslot, hform, ha'', hdisown⟩ := exists_of_setChild h hne
  have hleft : Keeps touched fields a a' := by
    cases child with
    | none =>
      cases ha'
      exact .refl a
    | some c =>
      obtain ⟨place, hdetach⟩ := ha'
      exact .detach (hc c rfl) (hs c rfl) hdetach
  have hset : Keeps touched fields a' (a'.setForm p (form.setSlot child name)) :=
    .setSlot hform hp child
  have hfilled : Keeps touched fields a a'' := by
    cases child with
    | none =>
      cases ha''
      exact hleft.trans hset
    | some c =>
      cases ha''
      exact hleft.trans (hset.trans (.setParent (hc c rfl) (some p)))
  cases old with
  | none =>
    cases hdisown
    exact hfilled
  | some d => exact hfilled.trans (.disown (hd d (slot?_of_slot hslot)) hdisown)

end Keeps

/-! ## What operations concern -/

/-- The item that is taken out of a list is the answer. -/
theorem list?_of_removeChild {name : ChildList} (h : a.removeChild p name i = .ok (d, b)) :
    (a.list? p name).bind (·[i]?) = some d := by
  obtain ⟨items, form, -, hform, hlist, hitem, -⟩ := exists_of_removeChild h
  rw [list?_of_form? hform, hlist]
  exact hitem

/-- The item that is replaced is the answer. -/
theorem list?_of_setListItem {name : ChildList} (h : a.setListItem p name i c = .ok (d, b)) :
    (a.list? p name).bind (·[i]?) = some d := by
  obtain ⟨⟨form, items, hform, hlist, hitem⟩, -⟩ := exists_of_setListItem h
  rw [list?_of_form? hform, hlist]
  exact hitem

/-- An operation that puts a node in place concerns the node that it moves, the one that it
displaces, and the slots that hold the one or are filled. -/
theorem Keeps.of_run {e : Edit} (hplace : e.isPlacement = true) (h : e.run a = .ok b)
    (hs : ∀ c, e.moved? = some c → ∀ q name, a.slot? q name = some (some c) → fields q name)
    (hfill : ∀ q name, e.Fills q name → fields q name) : Keeps (e.concerns a) fields a b := by
  cases e with
  | detach child =>
    obtain ⟨⟨place, b'⟩, hb, rfl⟩ := exists_of_map_eq_ok h
    exact .detach (by simp [Edit.concerns, Edit.moved?]) (hs child rfl) hb
  | setChild parent name child =>
    obtain ⟨⟨old, b'⟩, hb, rfl⟩ := exists_of_map_eq_ok h
    refine .setChild (fun c hc => ?_) (fun d hd => ?_) hs (hfill parent name ⟨child, rfl⟩) hb
    · have hmoved : (Edit.setChild parent name child).moved? = some c := hc
      simp [Edit.concerns, hmoved]
    · simp [Edit.concerns, Edit.displaced?, hd]
  | pushChild parent name child =>
    exact .pushChild (by simp [Edit.concerns, Edit.moved?]) (hs child rfl) h
  | insertChild parent name index child =>
    exact .insertChild (by simp [Edit.concerns, Edit.moved?]) (hs child rfl) h
  | setListItem parent name index child =>
    obtain ⟨⟨old, b'⟩, hb, rfl⟩ := exists_of_map_eq_ok h
    have hdisplaced := list?_of_setListItem hb
    refine .setListItem ?_ ?_ (hs child rfl) hb
    · simp [Edit.concerns, Edit.moved?]
    · simp [Edit.concerns, Edit.displaced?, hdisplaced]
  | removeChild parent name index =>
    obtain ⟨⟨old, b'⟩, hb, rfl⟩ := exists_of_map_eq_ok h
    have hdisplaced := list?_of_removeChild hb
    exact .removeChild (by simp [Edit.concerns, Edit.displaced?, hdisplaced]) hb
  | newScope | alloc | adopt | setPosition | setResolvedType => cases hplace

end Arena

/-- Where each node is where it is recorded to be, an operation that puts a node in place leaves
alone the parents of all other nodes than the one that it moves and the one that it displaces, all
slots but the one that is left and the one that is filled, the order of all other items of lists,
and what nodes are apart from their children and parents. -/
theorem Edit.run_leaves_alone {strict : Prop} {a b : Arena} {e : Edit} (h : a.Owned strict)
    (hplace : e.isPlacement = true) (hb : e.run a = .ok b) :
    (∀ d, d ∉ e.concerns a → b.parent? d = a.parent? d) ∧
      (∀ q name, ¬ e.Leaves a q name → ¬ e.Fills q name → b.slot? q name = a.slot? q name) ∧
      (∀ q name, (b.list? q name).map (List.filter (· ∉ e.concerns a)) =
        (a.list? q name).map (List.filter (· ∉ e.concerns a))) ∧
      ∀ q, (b.node? q).map Node.fixed = (a.node? q).map Node.fixed := by
  have hkeeps :
      Arena.Keeps (e.concerns a) (fun q name => e.Leaves a q name ∨ e.Fills q name) a b := by
    refine .of_run hplace hb (fun c hc q name hslot => .inl ⟨c, hc, ?_, hslot⟩) fun _ _ => .inr
    -- what a slot holds has the node with that slot as its parent
    obtain ⟨form, hform, hslot⟩ := Option.bind_eq_some_iff.1 hslot
    exact h.parent?_of_mem hform (Form.mem_children_of_slot? hslot)
  refine ⟨hkeeps.parent?_eq, fun q name hleft hfilled => ?_, hkeeps.list?_eq, hkeeps.fixed_eq⟩
  exact hkeeps.slot?_eq q name fun he => he.elim hleft hfilled

/-- The left operand of a sum takes the place of the first argument of a call: the right operand
stays, and so does the second argument. -/
theorem Edit.run_leaves_alone_call : ∃ a b,
    runAll [.alloc (.literal (.int 1)), .alloc (.reference "x"), .alloc (.reference "y"),
      .alloc (.reference "z"), .alloc (.binary (some ⟨0⟩) .plus (some ⟨1⟩)),
      .alloc (.namedInvocation "f" [⟨2⟩, ⟨3⟩])] .empty = .ok a ∧
    (setListItem ⟨5⟩ .arguments 0 ⟨0⟩).run a = .ok b ∧
    (setListItem ⟨5⟩ .arguments 0 ⟨0⟩).concerns a = [⟨0⟩, ⟨2⟩] ∧
    (∀ d, d ∉ [(⟨0⟩ : NodeId), ⟨2⟩] → b.parent? d = a.parent? d) ∧
    b.slot? ⟨4⟩ .right = a.slot? ⟨4⟩ .right ∧
    (b.list? ⟨5⟩ .arguments).map (List.filter (· ∉ [(⟨0⟩ : NodeId), ⟨2⟩])) = some [⟨3⟩] ∧
    (b.node? ⟨4⟩).map Node.fixed = (a.node? ⟨4⟩).map Node.fixed := by
  refine ⟨_, _, rfl, rfl, rfl, ?_⟩
  have howned : Arena.Owned True _ := Arena.owned_empty.runAll (fun _ => by decide)
    (show runAll [.alloc (.literal (.int 1)), .alloc (.reference "x"), .alloc (.reference "y"),
      .alloc (.reference "z"), .alloc (.binary (some ⟨0⟩) .plus (some ⟨1⟩)),
      .alloc (.namedInvocation "f" [⟨2⟩, ⟨3⟩])] .empty = .ok _ from rfl)
  obtain ⟨hparent, hslot, hlist, hfixed⟩ :=
    run_leaves_alone (e := setListItem ⟨5⟩ .arguments 0 ⟨0⟩) howned rfl rfl
  refine ⟨hparent, hslot ⟨4⟩ .right ?_ ?_, hlist ⟨5⟩ .arguments, hfixed ⟨4⟩⟩
  · rintro ⟨c, hc, -, hslot⟩
    cases hc
    cases hslot
  · rintro ⟨child, hchild⟩
    cases hchild

end ExprLang
