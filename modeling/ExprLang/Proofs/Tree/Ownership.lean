import ExprLang.Proofs.Tree.Changes

/-!
# Ownership

Whatever is done to an arena that was empty at first, a node sits in at most one
slot or list of all nodes, and what holds it is its recorded parent.  Only
{lit}`Arena.adopt` records a parent that does not hold the node.

The operations differ in the order in which they release a child, overwrite a
field and record parents.  What carries over is a balance: a node holds a child
as often as the child records it as its parent, apart from what a node that is
being made still has to take over.

Main definitions:

- Definition {lit}`Edit`: one operation on an arena.
- Definition {lit}`Arena.Balanced`: children and recorded parents agree.

Main results:

- Theorem {lit}`Arena.Balanced.edit`: every operation keeps the balance.
- Theorem {lit}`Edit.nodup_held_of_runAll`: what any operations on the empty
  arena lead to.
-/

namespace ExprLang

/-! ## Operations -/

/-- One operation on an arena. -/
inductive Edit where
  | newScope (parent : Option ScopeId)
  | alloc (form : Form)
  | adopt (parent child : NodeId)
  | detach (child : NodeId)
  | setChild (parent : NodeId) (name : Slot) (child : Option NodeId)
  | pushChild (parent : NodeId) (name : ChildList) (child : NodeId)
  | insertChild (parent : NodeId) (name : ChildList) (index : Nat) (child : NodeId)
  | setListItem (parent : NodeId) (name : ChildList) (index : Nat) (child : NodeId)
  | removeChild (parent : NodeId) (name : ChildList) (index : Nat)
  | setPosition (id : NodeId) (span : Span)
  | setResolvedType (id : NodeId) (type : String)
deriving DecidableEq, Repr, Inhabited

namespace Edit

/-- Does an operation to an arena. -/
def run (a : Arena) : Edit → Except Fault Arena
  | newScope parent => pure (a.newScope parent).2
  | alloc form => (·.2) <$> a.alloc form
  | adopt parent child => a.adopt parent child
  | detach child => (·.2) <$> a.detach child
  | setChild parent name child => (·.2) <$> a.setChild parent name child
  | pushChild parent name child => a.pushChild parent name child
  | insertChild parent name index child => a.insertChild parent name index child
  | setListItem parent name index child => (·.2) <$> a.setListItem parent name index child
  | removeChild parent name index => (·.2) <$> a.removeChild parent name index
  | setPosition id span => a.setPosition id span
  | setResolvedType id type => a.setResolvedType id type

/-- Does one operation after the other. -/
def runAll (edits : List Edit) (a : Arena) : Except Fault Arena :=
  edits.foldlM run a

/-- Whether an operation is the one that only records a parent. -/
def isAdopt : Edit → Bool
  | adopt .. => true
  | _ => false

end Edit

namespace Arena

variable {a b : Arena} {id p q c d : NodeId} {form form' : Form} {strict : Prop}
  {pending : NodeId → NodeId → Nat}

/-! ## The balance -/

/-- How often a node has to hold a child. -/
def owns (a : Arena) (p c : NodeId) : Nat := if a.parent? c = some p then 1 else 0

/-- No node holds a child more often than the child records it as its parent, apart from what is
pending; in the strict sense no node holds it less often either. -/
structure Balanced (strict : Prop) (pending : NodeId → NodeId → Nat) (a : Arena) : Prop where
  le : ∀ p c, a.count p c ≤ pending p c + a.owns p c
  ge : strict → ∀ p c, pending p c + a.owns p c ≤ a.count p c

/-- Every node is where it is recorded to be, and nowhere else. -/
abbrev Owned (strict : Prop) (a : Arena) : Prop := a.Balanced strict fun _ _ => 0

/-- The empty arena is in balance. -/
theorem owned_empty : empty.Owned strict :=
  ⟨fun _ _ => Nat.le_refl 0, fun _ _ _ => Nat.le_refl 0⟩

/-- A recorded parent is one. -/
theorem owns_eq_one (h : a.parent? c = some p) : a.owns p c = 1 := if_pos h

/-- Another node than the recorded parent has nothing to hold. -/
theorem owns_eq_zero (h : a.parent? c ≠ some p) : a.owns p c = 0 := if_neg h

namespace Balanced

/-- What is held by a node in balance has it as its parent. -/
theorem parent?_eq (h : a.Owned strict) (hc : 0 < a.count p c) : a.parent? c = some p := by
  by_contra hne
  have hle := h.le p c
  rw [owns_eq_zero hne] at hle
  omega

/-- In balance, a child has one parent. -/
theorem parent?_of_mem (h : a.Owned strict) (hf : a.form? p = some form)
    (hc : c ∈ form.children) : a.parent? c = some p := by
  refine h.parent?_eq ?_
  rw [count_of_form? hf]
  exact List.count_pos_iff.2 hc

/-- A node without a parent is held by none. -/
theorem count_eq_zero (h : a.Owned strict) (hc : a.parent? c = none) (q : NodeId) :
    a.count q c = 0 := by
  have hle := h.le q c
  rw [owns_eq_zero (by simp [hc])] at hle
  omega

/-- In balance, no node names a child twice. -/
theorem nodup_children (h : a.Owned strict) (p : NodeId) :
    (a.children p).Nodup := by
  refine List.nodup_iff_count_le_one.2 fun c => ?_
  have hle := h.le p c
  unfold count owns at hle
  split at hle <;> omega

/-- The balance is about children and parents only. -/
theorem congr (h : a.Balanced strict pending) (hc : ∀ q d, b.count q d = a.count q d)
    (hp : ∀ d, b.parent? d = a.parent? d) : b.Balanced strict pending := by
  have howns (q d : NodeId) : b.owns q d = a.owns q d := by rw [owns, owns, hp]
  exact ⟨fun q d => by simpa only [hc, howns] using h.le q d,
    fun hs q d => by simpa only [hc, howns] using h.ge hs q d⟩

/-- What is pending may be said in other words. -/
theorem congr_pending {pending' : NodeId → NodeId → Nat} (h : a.Balanced strict pending)
    (he : ∀ q d, pending q d = pending' q d) : a.Balanced strict pending' :=
  ⟨fun q d => he q d ▸ h.le q d, fun hs q d => he q d ▸ h.ge hs q d⟩

/-- Arenas with the same nodes are in balance together. -/
theorem of_sameNodes (h : a.Balanced strict pending) (hs : SameNodes a b) :
    b.Balanced strict pending :=
  h.congr hs.count_eq hs.parent?_eq

/-- A node that leaves its place for a parent that waited for it. -/
theorem moved {parent : Option NodeId} {pending' : NodeId → NodeId → Nat}
    (h : a.Balanced strict pending) (hm : Moved a c parent b)
    (hpending : ∀ q d, pending q d = pending' q d + if d = c ∧ parent = some q then 1 else 0) :
    b.Balanced strict pending' := by
  have hcount (q d : NodeId) :
      b.count q d = a.count q d - if d = c then a.owns q d else 0 := by
    rw [hm.count_eq]
    by_cases hd : d = c
    · subst hd
      simp [owns]
    · simp [hd, Ne.symm hd]
  have howns (q d : NodeId) :
      b.owns q d = if d = c then if parent = some q then 1 else 0 else a.owns q d := by
    rw [owns, hm.parent?_eq]
    by_cases hd : d = c <;> simp [hd, owns]
  refine ⟨fun q d => ?_, fun hs q d => ?_⟩
  · have hle := h.le q d
    rw [hpending] at hle
    rw [hcount, howns]
    by_cases hd : d = c <;>
      simp only [hd, true_and, false_and, if_true, if_false] at hle ⊢ <;> omega
  · have hge := h.ge hs q d
    rw [hpending] at hge
    rw [hcount, howns]
    by_cases hd : d = c <;>
      simp only [hd, true_and, false_and, if_true, if_false] at hge ⊢ <;> omega

/-- A node that is taken out of its parent. -/
theorem detached {place : Option Place} (h : a.Owned strict) (hd : a.detach c = .ok (place, b)) :
    b.Owned strict ∧ b.parent? c = none := by
  have hm := moved_of_detach hd
  exact ⟨h.moved hm fun q d => by simp, by simp [hm.parent?_eq]⟩

/-- A node takes the place of another one, or one of them is none. -/
theorem exchange {old new : Option NodeId} (h : a.Owned strict) (p : NodeId) (hne : old ≠ new)
    (hnew : ∀ c, new = some c → a.parent? c = none)
    (hcount : ∀ q d, b.count q d + (if q = p ∧ old = some d then 1 else 0) =
      a.count q d + if q = p ∧ new = some d then 1 else 0)
    (hparent : ∀ d, b.parent? d =
      if new = some d then some p else if old = some d then none else a.parent? d) :
    b.Owned strict := by
  suffices hboth : ∀ q d, b.count q d ≤ b.owns q d ∧ (strict → b.owns q d ≤ b.count q d) by
    exact ⟨fun q d => by simpa using (hboth q d).1, fun hs q d => by simpa using (hboth q d).2 hs⟩
  intro q d
  have hc := hcount q d
  have hp := hparent d
  by_cases hd : new = some d
  · -- the node that comes in was held by none
    have hold : old ≠ some d := fun e => hne (e.trans hd.symm)
    have hzero := h.count_eq_zero (hnew d hd) q
    rw [if_pos hd] at hp
    simp only [hd, hold, and_true, and_false, if_false, hzero] at hc
    by_cases hq : q = p
    · subst hq
      rw [owns_eq_one hp]
      simp only [if_true] at hc
      omega
    · rw [owns_eq_zero (by simpa [hp] using Ne.symm hq)]
      simp only [hq, if_false] at hc
      omega
  rw [if_neg hd] at hp
  by_cases hold : old = some d
  · -- the node that goes was held by `p` only
    rw [if_pos hold] at hp
    simp only [hd, hold, and_true, and_false, if_false] at hc
    have hheld : 0 < a.count p d := by
      have hcp := hcount p d
      simp only [hd, hold, and_self, and_false, if_true, if_false] at hcp
      omega
    have hparent := h.parent?_eq hheld
    have hle := h.le q d
    rw [owns_eq_zero (by simp [hp])]
    by_cases hq : q = p
    · subst hq
      rw [owns_eq_one hparent] at hle
      simp only [if_true] at hc
      omega
    · rw [owns_eq_zero (by simpa [hparent] using Ne.symm hq)] at hle
      simp only [hq, if_false] at hc
      omega
  · -- the others stay where they are
    rw [if_neg hold] at hp
    simp only [hd, hold, and_false, if_false, Nat.add_zero] at hc
    have howns : b.owns q d = a.owns q d := by rw [owns, owns, hp]
    have hle := h.le q d
    have hge (hs : strict) := h.ge hs q d
    rw [hc, howns]
    simp only [Nat.zero_add] at hle hge
    exact ⟨hle, hge⟩

end Balanced

/-! ## New nodes -/

/-- The number of the next node. -/
def next (a : Arena) : NodeId := ⟨a.nodes.size⟩

/-- A new node without a parent. -/
def push (a : Arena) (form : Form) : Arena := { a with nodes := a.nodes.push { form := form } }

/-- The new node has its form, and the others keep theirs. -/
theorem form?_push (a : Arena) (form : Form) (q : NodeId) :
    (a.push form).form? q = if q = a.next then some form else a.form? q := by
  by_cases hq : q = a.next
  · subst hq
    simp [form?, node?, push, next]
  · have hne : q.index ≠ a.nodes.size := fun e => hq (by cases q; simp_all [next])
    simp [form?, node?, push, Array.getElem?_push, hq, hne]

/-- The new node has no parent, and the others keep theirs. -/
theorem parent?_push (a : Arena) (form : Form) (q : NodeId) :
    (a.push form).parent? q = a.parent? q := by
  by_cases hq : q = a.next
  · subst hq
    simp [parent?, node?, push, next]
  · have hne : q.index ≠ a.nodes.size := fun e => hq (by cases q; simp_all [next])
    simp [parent?, node?, push, Array.getElem?_push, hne]

/-- What a new node still has to take over. -/
def toClaim (id : NodeId) (children : List NodeId) (q d : NodeId) : Nat :=
  if q = id then children.count d else 0

/-- A new node has all its children still to take over. -/
theorem Balanced.push (h : a.Owned strict) (form : Form) :
    (a.push form).Balanced strict (toClaim a.next form.children) := by
  have hnone : a.form? a.next = none := (a.form?_eq_none_iff _).2 (Nat.le_refl _)
  have hcount (q d : NodeId) : (a.push form).count q d =
      toClaim a.next form.children q d + a.count q d := by
    by_cases hq : q = a.next
    · subst hq
      simp [toClaim, count, children, form?_push, hnone]
    · simp [toClaim, count, children, form?_push, hq]
  have howns (q d : NodeId) : (a.push form).owns q d = a.owns q d := by
    rw [owns, owns, parent?_push]
  refine ⟨fun q d => ?_, fun hs q d => ?_⟩
  · have hle := h.le q d
    rw [hcount, howns]
    omega
  · have hge := h.ge hs q d
    rw [hcount, howns]
    omega

/-- A new node takes over one child. -/
theorem Balanced.claimChild {scope? : Option ScopeId} {rest : List NodeId}
    (h : a.Balanced strict (toClaim id (c :: rest))) (hb : a.claimChild id scope? c = .ok b) :
    b.Balanced strict (toClaim id rest) := by
  refine h.moved (moved_of_claimChild hb) fun q d => ?_
  by_cases hq : q = id
  · subst hq
    by_cases hd : d = c
    · simp [toClaim, hd]
    · simp [toClaim, hd, Ne.symm hd]
  · simp [toClaim, hq, Ne.symm hq]

/-- A new node takes over its children one by one. -/
theorem Balanced.claimAll {scope? : Option ScopeId} {children : List NodeId}
    (h : a.Balanced strict (toClaim id children))
    (hb : children.foldlM (fun a child => a.claimChild id scope? child) a = .ok b) :
    b.Owned strict := by
  induction children generalizing a with
  | nil =>
    cases hb
    exact h.congr_pending fun q d => by simp [toClaim]
  | cons c children ih =>
    rw [List.foldlM_cons] at hb
    obtain ⟨a', hclaim, hb⟩ := exists_of_bind_eq_ok hb
    exact ih (h.claimChild hclaim) hb

/-- A new node owns the children that its form names. -/
theorem Balanced.alloc (h : a.Owned strict) (hb : a.alloc form = .ok (id, b)) :
    b.Owned strict := by
  obtain ⟨b', hclaim, hb⟩ := exists_of_bind_eq_ok hb
  cases hb
  exact (h.push form).claimAll hclaim

/-! ## Placing children -/

/-- Clearing a recorded parent changes no children. -/
theorem of_disown (h : a.disown p c = .ok b) : (∀ q d, b.count q d = a.count q d) ∧
    ∀ d, b.parent? d = if a.parent? c = some p ∧ d = c then none else a.parent? d := by
  obtain ⟨node, hnode, h⟩ := exists_of_bind_eq_ok h
  have hparent := parent?_of_node hnode
  split at h
  · rename_i hp
    cases h
    refine ⟨fun q d => count_setParent .., fun d => ?_⟩
    rw [parent?_setParent (index_lt_of_node hnode)]
    simp [hparent, hp]
  · rename_i hp
    cases h
    exact ⟨fun _ _ => rfl, fun d => by simp [hparent, hp]⟩

/-- A parent that is the recorded one is cleared. -/
theorem eq_of_disown (h : a.disown p c = .ok b) (hp : a.parent? c = some p) :
    b = a.setParent c none := by
  obtain ⟨node, hnode, h⟩ := exists_of_bind_eq_ok h
  rw [if_pos ((parent?_of_node hnode).symm.trans hp)] at h
  exact (Except.ok.inj h).symm

/-- The fields of a node that can be asked for by name. -/
theorem exists_form_of_slot {name : Slot} {child : Option NodeId} (h : a.slot p name = .ok child) :
    ∃ form, a.form? p = some form ∧ form.slot? name = some child := by
  obtain ⟨form, hform, h⟩ := exists_of_bind_eq_ok h
  refine ⟨form, form?_of_form hform, ?_⟩
  split at h
  · cases h
    assumption
  · cases h

/-- The lists of a node that can be asked for by name. -/
theorem exists_form_of_list {name : ChildList} {items : List NodeId}
    (h : a.list p name = .ok items) :
    ∃ form, a.form? p = some form ∧ form.list? name = some items := by
  obtain ⟨form, hform, h⟩ := exists_of_bind_eq_ok h
  refine ⟨form, form?_of_form hform, ?_⟩
  split at h
  · cases h
    assumption
  · cases h

/-- What is done with a list of a node and with its form. -/
theorem exists_of_list_bind {name : ChildList} {f : List NodeId → Form → Except Fault Arena}
    (h : (a.list p name >>= fun items => a.form p >>= fun form => f items form) = .ok b) :
    ∃ items form, a.form? p = some form ∧ form.list? name = some items ∧
      f items form = .ok b := by
  obtain ⟨items, hl, h⟩ := exists_of_bind_eq_ok h
  obtain ⟨form, hf, h⟩ := exists_of_bind_eq_ok h
  obtain ⟨form', hform, hlist⟩ := exists_form_of_list hl
  cases hform.symm.trans (form?_of_form hf)
  exact ⟨items, form, hform, hlist, h⟩

/-- What is held after a field of a node has been changed. -/
theorem count_setForm_add (h : a.form? p = some form) (form' : Form) (old new : Option NodeId)
    (hc : ∀ d, form'.children.count d + old.toList.count d =
      form.children.count d + new.toList.count d) (q d : NodeId) :
    (a.setForm p form').count q d + (if q = p ∧ old = some d then 1 else 0) =
      a.count q d + if q = p ∧ new = some d then 1 else 0 := by
  rw [count_setForm h]
  by_cases hq : q = p
  · subst hq
    have hd := hc d
    rw [count_of_form? h]
    cases old <;> cases new <;> simp_all [List.count_singleton]
  · simp [hq]

/-- A child put into a list is recorded to be there. -/
theorem of_attachToList (h : a.attachToList p c = .ok b) (hlt : c.index < a.size) :
    (∀ q d, b.count q d = a.count q d) ∧
      ∀ d, b.parent? d = if d = c then some p else a.parent? d := by
  obtain ⟨form, -, h⟩ := exists_of_bind_eq_ok h
  have hparent := parent?_setParent hlt (some p)
  split at h
  · have hsame := sameNodes_of_defineChild h
    exact ⟨fun q d => (hsame.count_eq q d).trans (count_setParent ..),
      fun d => (hsame.parent?_eq d).trans (hparent d)⟩
  · cases h
    exact ⟨fun q d => count_setParent .., hparent⟩

/-- What taking an item out of a list does, step by step. -/
theorem exists_of_removeChild {name : ChildList} {i : Nat}
    (h : a.removeChild p name i = .ok (c, b)) : ∃ items form a',
      a.form? p = some form ∧ form.list? name = some items ∧ items[i]? = some c ∧
      form.scope?.elim (a' = a.setForm p (form.setList (items.eraseIdx i) name)) (fun scope =>
        (a.setForm p (form.setList (items.eraseIdx i) name)).undefineChild scope c = .ok a') ∧
      a'.disown p c = .ok b := by
  obtain ⟨items, hl, h⟩ := exists_of_bind_eq_ok h
  obtain ⟨form, hform, hlist⟩ := exists_form_of_list hl
  split at h
  · cases h
  rename_i child hchild
  obtain ⟨form', hf, h⟩ := exists_of_bind_eq_ok h
  cases hform.symm.trans (form?_of_form hf)
  simp only [Form.scope?_setList] at h
  cases hscope : form.scope? with
  | none =>
    rw [hscope] at h
    obtain ⟨a', ha', h⟩ := exists_of_bind_eq_ok h
    obtain ⟨b', hb', h⟩ := exists_of_bind_eq_ok h
    cases h
    exact ⟨items, form, a', hform, hlist, hchild, by rw [hscope]; exact (Except.ok.inj ha').symm,
      hb'⟩
  | some scope =>
    rw [hscope] at h
    obtain ⟨a', ha', h⟩ := exists_of_bind_eq_ok h
    obtain ⟨b', hb', h⟩ := exists_of_bind_eq_ok h
    cases h
    exact ⟨items, form, a', hform, hlist, hchild, by rw [hscope]; exact ha', hb'⟩

/-- Taking an item out of a list changes the list and clears the recorded parent of the item. -/
theorem sameNodes_of_removeChild {name : ChildList} {i : Nat}
    (h : a.removeChild p name i = .ok (c, b)) : ∃ items form a',
      a.form? p = some form ∧ form.list? name = some items ∧ items[i]? = some c ∧
      SameNodes (a.setForm p (form.setList (items.eraseIdx i) name)) a' ∧
      a'.disown p c = .ok b := by
  obtain ⟨items, form, a', hform, hlist, hitem, hundefine, hdisown⟩ := exists_of_removeChild h
  refine ⟨items, form, a', hform, hlist, hitem, ?_, hdisown⟩
  cases hs : form.scope? with
  | none =>
    rw [hs] at hundefine
    cases hundefine
    exact ⟨rfl⟩
  | some t =>
    rw [hs] at hundefine
    exact sameNodes_of_undefineChild hundefine

/-- What putting a node into a list at an index does, step by step. -/
theorem exists_of_insertChild {name : ChildList} {i : Nat} (h : a.insertChild p name i c = .ok b) :
    ∃ place a' items form, a.detach c = .ok (place, a') ∧ a'.form? p = some form ∧
      form.list? name = some items ∧
      (a'.setForm p (form.setList (items.insertIdx (min i items.length) c) name)).attachToList p c =
        .ok b := by
  obtain ⟨⟨place, a'⟩, hdetach, h⟩ := exists_of_bind_eq_ok h
  obtain ⟨items, form, hform, hlist, h⟩ := exists_of_list_bind h
  exact ⟨place, a', items, form, hdetach, hform, hlist, h⟩

/-- What putting a node at the end of a list does, step by step. -/
theorem exists_of_pushChild {name : ChildList} (h : a.pushChild p name c = .ok b) :
    ∃ place a' items form, a.detach c = .ok (place, a') ∧ a'.form? p = some form ∧
      form.list? name = some items ∧
      (a'.setForm p (form.setList (items ++ [c]) name)).attachToList p c = .ok b := by
  obtain ⟨⟨place, a'⟩, hdetach, h⟩ := exists_of_bind_eq_ok h
  obtain ⟨items, form, hform, hlist, h⟩ := exists_of_list_bind h
  exact ⟨place, a', items, form, hdetach, hform, hlist, h⟩

/-- What putting a node at the place of an item of a list does: nothing if it is the item, else the
item is taken out and the node is put in at the same index. -/
theorem exists_of_setListItem {name : ChildList} {i : Nat}
    (h : a.setListItem p name i c = .ok (d, b)) :
    (∃ form items, a.form? p = some form ∧ form.list? name = some items ∧ items[i]? = some d) ∧
      (d = c ∧ b = a ∨ d ≠ c ∧ ∃ a', a.removeChild p name i = .ok (d, a') ∧
        a'.insertChild p name i c = .ok b) := by
  obtain ⟨items, hl, h⟩ := exists_of_bind_eq_ok h
  obtain ⟨form, hform, hlist⟩ := exists_form_of_list hl
  split at h
  · cases h
  rename_i item hitem
  split at h
  · rename_i he
    cases h
    exact ⟨⟨form, items, hform, hlist, he ▸ hitem⟩, .inl ⟨rfl, rfl⟩⟩
  · rename_i hne
    obtain ⟨⟨previous, a'⟩, hremove, h⟩ := exists_of_bind_eq_ok h
    obtain ⟨b', hinsert, h⟩ := exists_of_bind_eq_ok h
    cases h
    obtain ⟨items', form', -, hform', hlist', hitem', -⟩ := exists_of_removeChild hremove
    cases hform.symm.trans hform'
    cases hlist.symm.trans hlist'
    cases hitem.symm.trans hitem'
    exact ⟨⟨form, items, hform, hlist, hitem⟩, .inr ⟨hne, a', hremove, hinsert⟩⟩

/-- A slot that holds what is put into it stays as it is. -/
theorem eq_of_setChild {name : Slot} {child : Option NodeId}
    (h : a.setChild p name child = .ok (child, b)) : b = a := by
  obtain ⟨current, hslot, h⟩ := exists_of_bind_eq_ok h
  split at h
  · cases h
    rfl
  · rename_i hne
    cases child with
    | none =>
      obtain ⟨a', ha', h⟩ := exists_of_bind_eq_ok h
      obtain ⟨form, hf, h⟩ := exists_of_bind_eq_ok h
      cases current with
      | none => exact absurd rfl hne
      | some previous =>
        obtain ⟨b', hb', h⟩ := exists_of_bind_eq_ok h
        cases h
    | some c =>
      obtain ⟨a', ha', h⟩ := exists_of_bind_eq_ok h
      obtain ⟨form, hf, h⟩ := exists_of_bind_eq_ok h
      cases current with
      | none => cases h
      | some previous =>
        obtain ⟨b', hb', h⟩ := exists_of_bind_eq_ok h
        cases h
        exact absurd rfl hne

/-- What putting a node into a slot does, step by step. -/
theorem exists_of_setChild {name : Slot} {child old : Option NodeId}
    (h : a.setChild p name child = .ok (old, b)) (hne : old ≠ child) : ∃ a' a'' form,
      child.elim (a' = a) (fun c => ∃ place, a.detach c = .ok (place, a')) ∧
      a.slot p name = .ok old ∧ a'.form? p = some form ∧
      a'' = child.elim (a'.setForm p (form.setSlot child name))
        (fun c => (a'.setForm p (form.setSlot child name)).setParent c (some p)) ∧
      old.elim (b = a'') fun previous => a''.disown p previous = .ok b := by
  obtain ⟨current, hslot, h⟩ := exists_of_bind_eq_ok h
  split at h
  · cases h
    contradiction
  · cases child with
    | none =>
      obtain ⟨a', ha', h⟩ := exists_of_bind_eq_ok h
      obtain ⟨form, hf, h⟩ := exists_of_bind_eq_ok h
      cases ha'
      cases current with
      | none =>
        cases h
        exact ⟨a, _, form, rfl, hslot, form?_of_form hf, rfl, rfl⟩
      | some previous =>
        obtain ⟨b', hb', h⟩ := exists_of_bind_eq_ok h
        cases h
        exact ⟨a, _, form, rfl, hslot, form?_of_form hf, rfl, hb'⟩
    | some c =>
      obtain ⟨a', ha', h⟩ := exists_of_bind_eq_ok h
      obtain ⟨form, hf, h⟩ := exists_of_bind_eq_ok h
      obtain ⟨⟨place, a''⟩, hdetach, rfl⟩ := exists_of_map_eq_ok ha'
      cases current with
      | none =>
        cases h
        exact ⟨a'', _, form, ⟨place, hdetach⟩, hslot, form?_of_form hf, rfl, rfl⟩
      | some previous =>
        obtain ⟨b', hb', h⟩ := exists_of_bind_eq_ok h
        cases h
        exact ⟨a'', _, form, ⟨place, hdetach⟩, hslot, form?_of_form hf, rfl, hb'⟩

/-- A child that leaves a node leaves the slots with other children as they are. -/
theorem slot?_of_detach {name : Slot} {old : Option NodeId} {place : Option Place}
    (h : a.detach c = .ok (place, b)) (hf : a.form? p = some form)
    (hs : form.slot? name = some old) (hne : old ≠ some c) :
    ∃ form', b.form? p = some form' ∧ form'.slot? name = some old := by
  obtain ⟨-, ⟨-, rfl⟩ | ⟨q, b', -, hrelease, rfl⟩⟩ := exists_of_detach h
  · exact ⟨form, hf, hs⟩
  simp only [form?_setParent]
  obtain ⟨form', hform, ⟨hnone, rfl⟩ | ⟨place', form'', hclear, h⟩⟩ :=
    exists_of_releaseFrom hrelease
  · exact ⟨form, hf, hs⟩
  have hsame : SameNodes (a.setForm q form'') b' := by
    obtain ⟨_, _, _, -, -, hundefine⟩ | ⟨-, rfl⟩ := h
    · exact sameNodes_of_undefineChild hundefine
    · exact ⟨rfl⟩
  rw [hsame.form?_eq]
  by_cases hpq : p = q
  · subst hpq
    cases hf.symm.trans hform
    exact ⟨form'', form?_setForm_self hform form'', Form.slot?_of_release? hclear hs hne⟩
  · exact ⟨form, (form?_setForm_of_ne hpq form'').trans hf, hs⟩

namespace Balanced

/-- A node that has no place is put into a list. -/
theorem inserted {name : ChildList} {items items' : List NodeId} (h : a.Owned strict)
    (hlt : c.index < a.size) (hc : a.parent? c = none) (hf : a.form? p = some form)
    (hl : form.list? name = some items)
    (hitems : ∀ d, items'.count d = items.count d + [c].count d)
    (hb : (a.setForm p (form.setList items' name)).attachToList p c = .ok b) :
    b.Owned strict := by
  obtain ⟨hcount, hparent⟩ := of_attachToList hb (by simpa using hlt)
  have hset := count_setForm_add hf (form.setList items' name) none (some c) fun d => by
    have hd := Form.count_children_setList hl items' d
    have hi := hitems d
    simp only [Option.toList_none, Option.toList_some, List.count_nil]
    omega
  refine h.exchange p (by simp) (fun d hd => Option.some.inj hd ▸ hc)
    (fun q d => (hcount q d).symm ▸ hset q d) fun d => ?_
  rw [hparent, parent?_setForm]
  simp [eq_comm]

/-- A node that is put into a list at an index. -/
theorem insertChild {name : ChildList} {i : Nat} (h : a.Owned strict)
    (hb : a.insertChild p name i c = .ok b) : b.Owned strict := by
  obtain ⟨place, a', items, form, hdetach, hf, hl, hb⟩ := exists_of_insertChild hb
  obtain ⟨h', hnone⟩ := h.detached hdetach
  have hmoved := moved_of_detach hdetach
  refine h'.inserted (hmoved.size_eq ▸ hmoved.index_lt) hnone hf hl (fun d => ?_) hb
  have hperm := List.perm_insertIdx c items (Nat.min_le_right i items.length)
  rw [hperm.count_eq d, ← List.singleton_append, List.count_append, Nat.add_comm]

/-- A node that is put at the end of a list. -/
theorem pushChild {name : ChildList} (h : a.Owned strict) (hb : a.pushChild p name c = .ok b) :
    b.Owned strict := by
  obtain ⟨place, a', items, form, hdetach, hf, hl, hb⟩ := exists_of_pushChild hb
  obtain ⟨h', hnone⟩ := h.detached hdetach
  have hmoved := moved_of_detach hdetach
  exact h'.inserted (hmoved.size_eq ▸ hmoved.index_lt) hnone hf hl
    (fun d => List.count_append ..) hb

/-- A node that is taken out of a list. -/
theorem removeChild {name : ChildList} {i : Nat} (h : a.Owned strict)
    (hb : a.removeChild p name i = .ok (c, b)) : b.Owned strict := by
  obtain ⟨items, form, a', hform, hlist, hitem, hsame, hdisown⟩ := sameNodes_of_removeChild hb
  obtain ⟨hcount, hparent⟩ := of_disown hdisown
  have hset := count_setForm_add hform (form.setList (items.eraseIdx i) name) (some c) none
      fun d => by
    have hd := Form.count_children_setList hlist (items.eraseIdx i) d
    have hi := Form.count_eraseIdx hitem d
    simp only [Option.toList_none, Option.toList_some, List.count_nil]
    omega
  have hheld : a.parent? c = some p :=
    h.parent?_of_mem hform (Form.mem_children_of_list? hlist (List.mem_of_getElem? hitem))
  refine h.exchange p (by simp) (fun d hd => by cases hd)
    (fun q d => ((hcount q d).trans (hsame.count_eq q d)).symm ▸ hset q d) fun d => ?_
  rw [hparent, hsame.parent?_eq, hsame.parent?_eq, parent?_setForm, parent?_setForm]
  simp [hheld, eq_comm]

/-- A node that takes the place of an item of a list. -/
theorem setListItem {name : ChildList} {i : Nat} (h : a.Owned strict)
    (hb : a.setListItem p name i c = .ok (d, b)) : b.Owned strict := by
  obtain ⟨-, ⟨-, rfl⟩ | ⟨-, a', hremove, hinsert⟩⟩ := exists_of_setListItem hb
  · exact h
  exact (h.removeChild hremove).insertChild hinsert

/-- What is there after a node, or none, was put into a slot: the node that comes in has left its
place, and the slot was as it is found then. -/
theorem exists_of_setChild {name : Slot} {child old : Option NodeId} (h : a.Owned strict)
    (hb : a.setChild p name child = .ok (old, b)) (hne : old ≠ child) : ∃ a' form,
      child.elim (a' = a) (fun c => ∃ place, a.detach c = .ok (place, a')) ∧ a'.Owned strict ∧
      (∀ c, child = some c → a'.parent? c = none) ∧
      a'.form? p = some form ∧ form.slot? name = some old ∧ b.scopes = a'.scopes ∧
      (∀ q, b.form? q = (a'.setForm p (form.setSlot child name)).form? q) ∧
      ∀ d, b.parent? d =
        if child = some d then some p else if old = some d then none else a'.parent? d := by
  obtain ⟨a', a'', form, ha', hslot, hform, ha'', hdisown⟩ := Arena.exists_of_setChild hb hne
  obtain ⟨form', hform', hslot'⟩ := exists_form_of_slot hslot
  have hfree : a'.Owned strict ∧ (∀ c, child = some c → c.index < a'.size ∧ a'.parent? c = none) ∧
      form.slot? name = some old := by
    cases child with
    | none =>
      cases ha'
      cases hform.symm.trans hform'
      exact ⟨h, by simp, hslot'⟩
    | some c =>
      obtain ⟨place, hdetach⟩ := ha'
      obtain ⟨hb', hnone⟩ := h.detached hdetach
      have hmoved := moved_of_detach hdetach
      obtain ⟨form'', hform'', hslot''⟩ := slot?_of_detach hdetach hform' hslot' hne
      cases hform.symm.trans hform''
      refine ⟨hb', fun d hd => ?_, hslot''⟩
      cases hd
      exact ⟨hmoved.size_eq ▸ hmoved.index_lt, hnone⟩
  obtain ⟨hown, hnew, hslot''⟩ := hfree
  have hplaced : a''.scopes = a'.scopes ∧
      (∀ q, a''.form? q = (a'.setForm p (form.setSlot child name)).form? q) ∧
      ∀ d, a''.parent? d = if child = some d then some p else a'.parent? d := by
    cases child with
    | none =>
      cases ha''
      exact ⟨rfl, fun _ => rfl, fun d => by simp⟩
    | some c =>
      cases ha''
      refine ⟨rfl, fun q => form?_setParent .., fun d => ?_⟩
      rw [Option.elim_some, parent?_setParent (by simpa using (hnew c rfl).1), parent?_setForm]
      simp [eq_comm]
  obtain ⟨hscopes, hforms, hparents⟩ := hplaced
  refine ⟨a', form, ha', hown, fun c hc => (hnew c hc).2, hform, hslot'', ?_⟩
  cases old with
  | none =>
    cases hdisown
    exact ⟨hscopes, hforms, fun d => by simp [hparents]⟩
  | some previous =>
    have hheld : a''.parent? previous = some p := by
      rw [hparents, if_neg fun e => hne e.symm]
      exact hown.parent?_of_mem hform (Form.mem_children_of_slot? hslot'')
    rw [eq_of_disown hdisown hheld]
    refine ⟨hscopes, fun q => (form?_setParent ..).trans (hforms q), fun d => ?_⟩
    rw [parent?_setParent (index_lt_of_parent? hheld), hparents]
    by_cases hd : d = previous
    · subst hd
      simp [hne.symm]
    · simp [hd, Ne.symm hd]

/-- A node, or none, that is put into a slot. -/
theorem setChild {name : Slot} {child old : Option NodeId} (h : a.Owned strict)
    (hb : a.setChild p name child = .ok (old, b)) : b.Owned strict := by
  by_cases hne : old = child
  · subst hne
    rw [eq_of_setChild hb]
    exact h
  obtain ⟨a', form, -, hown, hnew, hform, hslot, -, hforms, hparents⟩ :=
    h.exists_of_setChild hb hne
  refine hown.exchange p hne hnew (fun q d => ?_) hparents
  rw [count, children, hforms]
  exact count_setForm_add hform (form.setSlot child name) old child
    (Form.count_children_setSlot hslot child) q d

/-- A node for which a parent is recorded: the parent need not hold it. -/
theorem adopt (h : a.Owned False) (hb : a.adopt p c = .ok b) : b.Owned False := by
  obtain ⟨node, hnode, hb⟩ := exists_of_bind_eq_ok hb
  split at hb
  · cases hb
    exact h
  obtain ⟨⟨place, a'⟩, hdetach, hb⟩ := exists_of_bind_eq_ok hb
  cases hb
  obtain ⟨h', hnone⟩ := h.detached hdetach
  have hmoved := moved_of_detach hdetach
  refine ⟨fun q d => ?_, False.elim⟩
  have hparent := parent?_setParent (hmoved.size_eq ▸ hmoved.index_lt) (some p) d
  rw [count_setParent]
  by_cases hd : d = c
  · subst hd
    simp [h'.count_eq_zero hnone]
  · have howns : (a'.setParent c (some p)).owns q d = a'.owns q d := by
      rw [owns, owns, hparent, if_neg hd]
    rw [howns]
    exact h'.le q d

/-- A change of a node that keeps its form and its parent. -/
theorem modify (h : a.Owned strict) (change : Node → Node)
    (hf : ∀ node, (change node).form = node.form)
    (hp : ∀ node, (change node).parent = node.parent) : (a.modify id change).Owned strict :=
  h.congr (fun q d => by simp [count, Arena.children, a.form?_modify id q change hf])
    fun d => a.parent?_modify id d change hp

/-- Every operation keeps the balance; only recording a parent keeps it in the weak sense
only. -/
theorem edit {e : Edit} (h : a.Owned strict) (hadopt : strict → e.isAdopt = false)
    (hb : e.run a = .ok b) : b.Owned strict := by
  cases e with
  | newScope parent =>
    cases hb
    exact h.of_sameNodes ⟨rfl⟩
  | alloc form =>
    obtain ⟨⟨id, b'⟩, hb', rfl⟩ := exists_of_map_eq_ok hb
    exact h.alloc hb'
  | adopt parent child =>
    have hweak : a.Owned False := ⟨h.le, False.elim⟩
    exact ⟨(hweak.adopt hb).le, fun hs => by cases hadopt hs⟩
  | detach child =>
    obtain ⟨⟨place, b'⟩, hb', rfl⟩ := exists_of_map_eq_ok hb
    exact (h.detached hb').1
  | setChild parent name child =>
    obtain ⟨⟨old, b'⟩, hb', rfl⟩ := exists_of_map_eq_ok hb
    exact h.setChild hb'
  | pushChild parent name child => exact h.pushChild hb
  | insertChild parent name index child => exact h.insertChild hb
  | setListItem parent name index child =>
    obtain ⟨⟨old, b'⟩, hb', rfl⟩ := exists_of_map_eq_ok hb
    exact h.setListItem hb'
  | removeChild parent name index =>
    obtain ⟨⟨old, b'⟩, hb', rfl⟩ := exists_of_map_eq_ok hb
    exact h.removeChild hb'
  | setPosition id span =>
    obtain ⟨node, -, hb⟩ := exists_of_bind_eq_ok hb
    split at hb
    · cases hb
    · cases hb
      exact h.modify _ (fun _ => rfl) fun _ => rfl
  | setResolvedType id type =>
    obtain ⟨node, -, hb⟩ := exists_of_bind_eq_ok hb
    cases hb
    exact h.modify _ (fun _ => rfl) fun _ => rfl

/-- So do any operations one after the other. -/
theorem runAll {edits : List Edit} (h : a.Owned strict)
    (hadopt : strict → ∀ e ∈ edits, e.isAdopt = false) (hb : Edit.runAll edits a = .ok b) :
    b.Owned strict := by
  induction edits generalizing a with
  | nil =>
    cases hb
    exact h
  | cons e edits ih =>
    rw [Edit.runAll, List.foldlM_cons] at hb
    obtain ⟨a', ha', hb⟩ := exists_of_bind_eq_ok hb
    exact ih (h.edit (fun hs => hadopt hs e (List.mem_cons_self ..)) ha')
      (fun hs e he => hadopt hs e (List.mem_cons_of_mem _ he)) hb

/-! ## All fields of all nodes -/

/-- In balance, no child is named twice by the fields of all nodes. -/
theorem nodup_held (h : a.Owned strict) : (a.nodes.toList.flatMap (·.form.held)).Nodup := by
  have hform (i : Nat) (hi : i < a.nodes.toList.length) :
      a.form? ⟨i⟩ = some a.nodes.toList[i].form := by
    have hi' : i < a.nodes.size := by simpa using hi
    simp [form?, node?, hi']
  refine List.nodup_flatMap.2 ⟨fun node hnode => ?_, ?_⟩
  · obtain ⟨i, hi, rfl⟩ := List.getElem_of_mem hnode
    refine List.nodup_iff_count_le_one.2 fun c => ?_
    have hle := h.le ⟨i⟩ c
    rw [count_of_form? (hform i hi)] at hle
    rw [Form.count_held]
    unfold owns at hle
    split at hle <;> omega
  · refine List.pairwise_iff_getElem.2 fun i j hi hj hij c hci hcj => ?_
    have hparent (k : Nat) (hk : k < a.nodes.toList.length)
        (hc : c ∈ a.nodes.toList[k].form.held) : a.parent? c = some ⟨k⟩ := by
      refine h.parent?_eq ?_
      rw [count_of_form? (hform k hk)]
      exact List.count_pos_iff.2 (Form.mem_held.1 hc)
    have hsame := (hparent i hi hci).symm.trans (hparent j hj hcj)
    cases hsame
    exact absurd hij (Nat.lt_irrefl i)

end Balanced

end Arena

/-- Whatever was done to the empty arena without a fault, no node occurs twice in the slots and
lists of all nodes, and a node that occurs in one has the node with that field as its recorded
parent.  If parents were never recorded on their own, a node occurs in its recorded parent. -/
theorem Edit.nodup_held_of_runAll {edits : List Edit} {a : Arena}
    (h : runAll edits .empty = .ok a) :
    (a.nodes.toList.flatMap (·.form.held)).Nodup ∧
      (∀ p form c, a.form? p = some form → c ∈ form.held → a.parent? c = some p) ∧
      ((∀ e ∈ edits, e.isAdopt = false) → ∀ p c, a.parent? c = some p →
        ∃ form, a.form? p = some form ∧ c ∈ form.held) := by
  have hweak : a.Owned False := Arena.owned_empty.runAll False.elim h
  refine ⟨hweak.nodup_held, fun p form c hform hc => ?_, fun hadopt p c hp => ?_⟩
  · refine hweak.parent?_eq ?_
    rw [Arena.count_of_form? hform]
    exact List.count_pos_iff.2 (Form.mem_held.1 hc)
  · have hstrict : a.Owned True := Arena.owned_empty.runAll (fun _ => hadopt) h
    have hge := hstrict.ge trivial p c
    rw [Arena.owns_eq_one hp] at hge
    cases hform : a.form? p with
    | none =>
      rw [Arena.count_eq_zero_of_form? hform] at hge
      omega
    | some form =>
      rw [Arena.count_of_form? hform] at hge
      exact ⟨form, rfl, Form.mem_held.2 (List.count_pos_iff.1 (by omega))⟩

/-- A number named twice by a sum ends up on the right of it, a name takes the free place, and a
call takes over the name, which it names twice, and then the number. -/
theorem Edit.nodup_held_of_runAll_call : ∃ a,
    runAll [.alloc (.literal (.int 1)), .alloc (.binary (some ⟨0⟩) .plus (some ⟨0⟩)),
      .alloc (.reference "x"), .setChild ⟨1⟩ .left (some ⟨2⟩),
      .alloc (.namedInvocation "f" [⟨2⟩, ⟨2⟩]), .insertChild ⟨3⟩ .arguments 0 ⟨0⟩] .empty = .ok a ∧
    (a.nodes.toList.flatMap (·.form.held)).Nodup ∧
      (∀ p form c, a.form? p = some form → c ∈ form.held → a.parent? c = some p) ∧
      ∀ p c, a.parent? c = some p → ∃ form, a.form? p = some form ∧ c ∈ form.held :=
  have h := nodup_held_of_runAll (show runAll [.alloc (.literal (.int 1)),
    .alloc (.binary (some ⟨0⟩) .plus (some ⟨0⟩)), .alloc (.reference "x"),
    .setChild ⟨1⟩ .left (some ⟨2⟩), .alloc (.namedInvocation "f" [⟨2⟩, ⟨2⟩]),
    .insertChild ⟨3⟩ .arguments 0 ⟨0⟩] .empty = .ok _ from rfl)
  ⟨_, rfl, h.1, h.2.1, h.2.2 (by decide)⟩

end ExprLang
