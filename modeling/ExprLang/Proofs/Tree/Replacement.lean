import ExprLang.Proofs.Tree.Ancestors
import ExprLang.Proofs.Tree.Frames
import ExprLang.Proofs.Tree.Undoing

/-!
# Replacing an item of a list

A node that replaces an item of a list leaves the place that it had, which may be
in the same list.  The item is taken out first, then the node, and then the node
is put in at the index of the item.  That is the place of the item, unless the node
was before the item in the same list: then the items between have moved up, and the
node ends up behind the item that followed.

Main definitions:

- Definition {lit}`Arena.replaced`: a list with a node in the place of an item.
- Definition {lit}`Arena.behindNext`: a list with a node one place further down.
- Definition {lit}`Arena.Closed`: recorded parents and scopes are there.

Main results:

- Theorem {lit}`Arena.insertIdx_filter`: where the index of the item leads to.
- Theorem {lit}`Arena.Closed.exists_setListItem`: replacing an item meets no fault.
- Theorem {lit}`Arena.setListItem_eq_replaced_iff`: when the node takes the place of
  the item.
- Theorem {lit}`Arena.exists_setListItem_ne_replaced`: a node that does not.
-/

namespace ExprLang.Arena

variable {a a' b : Arena} {p c d old q : NodeId} {form : Form} {name : ChildList} {t : ScopeId}
  {items before after : List NodeId} {i : Nat} {strict : Prop} {touched : List NodeId}
  {fields : NodeId → Slot → Prop} {place : Option Place}

/-! ## Lists -/

/-- A list with a node in the place of an item, and nowhere else. -/
def replaced (items : List NodeId) (i : Nat) (c : NodeId) : List NodeId :=
  (items.take i).filter (· ≠ c) ++ c :: (items.drop (i + 1)).filter (· ≠ c)

/-- A list with a node behind the item that follows a place, and no item in the place. -/
def behindNext (items : List NodeId) (i : Nat) (c : NodeId) : List NodeId :=
  (items.take i).filter (· ≠ c) ++ ((items.drop (i + 1)).take 1 ++ c :: items.drop (i + 2))

/-- An item put in behind the first part of a list. -/
theorem insertIdx_length_append (before after : List NodeId) (c : NodeId) :
    (before ++ after).insertIdx before.length c = before ++ c :: after := by
  induction before with
  | nil => rfl
  | cons d before ih => simpa using ih

/-- A list without an item that is not in it. -/
theorem filter_ne_of_not_mem (h : c ∉ items) : items.filter (· ≠ c) = items := by
  refine List.filter_eq_self.2 fun d hd => ?_
  simp only [ne_eq, decide_not, Bool.not_eq_eq_eq_not, Bool.not_true, decide_eq_false_iff_not]
  rintro rfl
  exact h hd

/-- A list without one of its items is one shorter. -/
theorem length_filter_ne (h : items.Nodup) (hc : c ∈ items) :
    (items.filter (· ≠ c)).length + 1 = items.length := by
  obtain ⟨before, after, rfl⟩ := List.append_of_mem hc
  obtain ⟨hbefore, hafter⟩ : c ∉ before ∧ c ∉ after := by
    simpa using (List.nodup_middle.1 h).notMem
  rw [List.filter_append, List.filter_cons_of_neg (by simp), filter_ne_of_not_mem hbefore,
    filter_ne_of_not_mem hafter, List.length_append, List.length_append, List.length_cons]
  omega

/-- A node put in at the index of an item that was taken out, after it has been taken out itself,
is in the place of the item unless it was before it.  Then it is behind the item that followed. -/
theorem insertIdx_filter (h : (before ++ after).Nodup) :
    ((before ++ after).filter (· ≠ c)).insertIdx
        (min before.length ((before ++ after).filter (· ≠ c)).length) c =
      if c ∈ before then before.filter (· ≠ c) ++ (after.take 1 ++ c :: after.drop 1)
      else before.filter (· ≠ c) ++ c :: after.filter (· ≠ c) := by
  obtain ⟨hbefore, -, hdisjoint⟩ := List.nodup_append.1 h
  rw [List.filter_append]
  split
  · rename_i hc
    -- one item less stands before the place, so the index is that of the item behind the next
    have hlength := length_filter_ne hbefore hc
    have hindex : min before.length (before.filter (· ≠ c) ++ after).length =
        (before.filter (· ≠ c) ++ after.take 1).length := by
      simp only [List.length_append, List.length_take]
      omega
    have hsplit : before.filter (· ≠ c) ++ after =
        before.filter (· ≠ c) ++ after.take 1 ++ after.drop 1 := by
      rw [List.append_assoc, List.take_append_drop]
    rw [filter_ne_of_not_mem fun hmem => hdisjoint c hc c hmem rfl, hindex, hsplit,
      insertIdx_length_append, List.append_assoc]
  · rename_i hc
    rw [filter_ne_of_not_mem hc, Nat.min_eq_left (by simp), insertIdx_length_append]

/-- One place further down is the same place at the end of a list only. -/
theorem behindNext_eq_replaced_iff (h : items.Nodup) (hi : i < items.length)
    (hc : c ∈ items.take i) : behindNext items i c = replaced items i c ↔ i + 1 = items.length := by
  have hafter : c ∉ items.drop (i + 1) := fun hmem =>
    List.disjoint_take_drop h (Nat.le_succ i) hc hmem
  rw [behindNext, replaced, filter_ne_of_not_mem hafter, List.append_cancel_left_eq]
  cases hdrop : items.drop (i + 1) with
  | nil =>
    have hlast : items.length ≤ i + 1 := List.drop_eq_nil_iff.1 hdrop
    have hnone : items.drop (i + 2) = [] := List.drop_eq_nil_iff.2 (by omega)
    simp only [hnone, List.take_nil, List.nil_append, true_iff]
    omega
  | cons next rest =>
    have hne : next ≠ c := by
      rintro rfl
      exact hafter (hdrop ▸ List.mem_cons_self ..)
    have hlonger : i + 1 ≠ items.length := by
      intro he
      rw [he, List.drop_length] at hdrop
      cases hdrop
    simp [hne, hlonger]

/-! ## Lists of nodes after an operation -/

/-- A list that is there can be asked for. -/
theorem list_of_list? (h : a.list? p name = some items) : a.list p name = .ok items := by
  obtain ⟨form, hform, hlist⟩ := Option.bind_eq_some_iff.1 h
  exact list_of_form? hform hlist

/-- Clearing a recorded parent changes no form and no scope. -/
theorem form?_of_disown (h : a.disown p c = .ok b) :
    (∀ q, b.form? q = a.form? q) ∧ b.scopes = a.scopes := by
  obtain ⟨node, -, h⟩ := exists_of_bind_eq_ok h
  split at h
  · cases h
    exact ⟨fun q => form?_setParent .., rfl⟩
  · cases h
    exact ⟨fun _ => rfl, rfl⟩

/-- Recording that a child was put into a list changes no form. -/
theorem form?_of_attachToList (h : a.attachToList p c = .ok b) (q : NodeId) :
    b.form? q = a.form? q := by
  obtain ⟨form, -, h⟩ := exists_of_bind_eq_ok h
  split at h
  · exact ((sameNodes_of_defineChild h).form?_eq q).trans (form?_setParent ..)
  · cases h
    exact form?_setParent ..

/-- The list that an item was taken out of. -/
theorem list?_removeChild (hl : a.list? p name = some items)
    (h : a.removeChild p name i = .ok (old, b)) : b.list? p name = some (items.eraseIdx i) := by
  obtain ⟨items', form, a', hform, hlist, -, hsame, hdisown⟩ := sameNodes_of_removeChild h
  cases (list?_of_form? hform name ▸ hl).symm.trans hlist
  have hform' : b.form? p = some (form.setList (items.eraseIdx i) name) := by
    rw [(form?_of_disown hdisown).1, hsame.form?_eq, form?_setForm_self hform]
  rw [list?_of_form? hform', Form.list?_setList _ (by simp [hlist])]

/-- An item that was taken out of a list has no parent. -/
theorem parent?_removeChild (h : a.Owned strict) (hb : a.removeChild p name i = .ok (old, b)) :
    b.parent? old = none := by
  obtain ⟨items, form, a', hform, hlist, hitem, hsame, hdisown⟩ := sameNodes_of_removeChild hb
  have hheld : a.parent? old = some p :=
    h.parent?_of_mem hform (Form.mem_children_of_list? hlist (List.mem_of_getElem? hitem))
  rw [(of_disown hdisown).2, hsame.parent?_eq, parent?_setForm, hheld, if_pos ⟨rfl, rfl⟩]

/-- The list that a node was put into, after it had left its place. -/
theorem list?_insertChild (h : a.insertChild p name i c = .ok b) : ∃ place a' items,
    a.detach c = .ok (place, a') ∧ a'.list? p name = some items ∧
      b.list? p name = some (items.insertIdx (min i items.length) c) := by
  obtain ⟨place, a', items, form, hdetach, hform, hlist, h⟩ := exists_of_insertChild h
  refine ⟨place, a', items, hdetach, (list?_of_form? hform name).trans hlist, ?_⟩
  have hform' : b.form? p =
      some (form.setList (items.insertIdx (min i items.length) c) name) := by
    rw [form?_of_attachToList h, form?_setForm_self hform]
  rw [list?_of_form? hform', Form.list?_setList _ (by simp [hlist])]

/-- A list of a node, after a node has left its place: what is left of it. -/
theorem list?_detach (h : a.Owned strict) (hl : a.list? p name = some items)
    (hd : a.detach c = .ok (place, b)) : b.list? p name = some (items.filter (· ≠ c)) := by
  obtain ⟨hb, hnone⟩ := h.detached hd
  have hkeeps : Keeps [c] (fun _ _ => True) a b :=
    .detach (List.mem_singleton_self c) (fun _ _ _ => trivial) hd
  have hsame := hkeeps.list?_eq p name
  simp only [List.mem_singleton] at hsame
  rw [hl, Option.map_some] at hsame
  obtain ⟨items', hitems', hfilter⟩ := Option.map_eq_some_iff.1 hsame
  obtain ⟨form, hform, hlist⟩ := Option.bind_eq_some_iff.1 hitems'
  -- a node without a parent is in no list
  have hnot : c ∉ items' := by
    intro hmem
    have hcount := hb.count_eq_zero hnone p
    rw [count_of_form? hform, List.count_eq_zero] at hcount
    exact hcount (Form.mem_children_of_list? hlist hmem)
  rw [hitems', ← hfilter, filter_ne_of_not_mem hnot]

/-- Where each node is where it is recorded to be, no list names a node twice. -/
theorem nodup_list (h : a.Owned strict) (hl : a.list? p name = some items) : items.Nodup := by
  obtain ⟨form, hform, hlist⟩ := Option.bind_eq_some_iff.1 hl
  refine List.nodup_iff_count_le_one.2 fun d => ?_
  have hchildren : (a.children p).count d ≤ 1 :=
    List.nodup_iff_count_le_one.1 (h.nodup_children p) d
  have hcount := Form.count_children_setList hlist [] d
  rw [List.count_nil, Nat.add_zero] at hcount
  rw [children, hform, Option.elim_some] at hchildren
  omega

/-! ## Operations that meet no fault -/

/-- The parents that nodes record and the scopes that nodes open are there. -/
structure Closed (a : Arena) : Prop where
  parent_lt : ∀ c p, a.parent? c = some p → p.index < a.size
  scope_lt : ∀ p form t, a.form? p = some form → form.scope? = some t → t.index < a.scopes.size

/-- What leaves nodes alone adds none and loses none. -/
theorem Keeps.size_eq (h : Keeps touched fields a b) : b.size = a.size := by
  have hnone (q : NodeId) : b.size ≤ q.index ↔ a.size ≤ q.index := by
    rw [← form?_eq_none_iff, ← form?_eq_none_iff, form?, form?, Option.map_eq_none_iff,
      Option.map_eq_none_iff]
    have hq := h.fixed_eq q
    cases hb : b.node? q <;> cases ha : a.node? q <;> simp [hb, ha] at hq ⊢
  exact le_antisymm ((hnone ⟨a.size⟩).2 le_rfl) ((hnone ⟨b.size⟩).1 le_rfl)

/-- What leaves nodes alone leaves them their scopes. -/
theorem Keeps.exists_form (h : Keeps touched fields a b) (hf : b.form? q = some form) :
    ∃ form', a.form? q = some form' ∧ form'.scope? = form.scope? := by
  obtain ⟨node, hnode, rfl⟩ := Option.map_eq_some_iff.1 hf
  have hq := h.fixed_eq q
  rw [hnode] at hq
  obtain ⟨node', hnode', hfixed⟩ := Option.map_eq_some_iff.1 hq.symm
  exact ⟨node'.form, by rw [form?, hnode', Option.map_some], congrArg (·.2.1) hfixed⟩

/-- A child can be unbound in a scope that is there. -/
theorem exists_undefineChild (h : t.index < a.scopes.size) (c : NodeId) :
    ∃ b, a.undefineChild t c = .ok b := by
  unfold undefineChild
  cases hname : a.definitionName c with
  | none => exact ⟨a, rfl⟩
  | some x =>
    obtain ⟨result, hundefine⟩ := Scopes.exists_undefine h x c
    simp [hundefine, bind, Except.bind, pure, Except.pure]

/-- The recorded parent of a node that is there can be cleared. -/
theorem exists_disown (h : c.index < a.size) (p : NodeId) : ∃ b, a.disown p c = .ok b := by
  obtain ⟨node, hnode, -⟩ := exists_node h
  rw [disown, hnode]
  by_cases hp : node.parent = some p <;> simp [bind, Except.bind, pure, Except.pure, hp]

namespace Closed

/-- Parents that get lost and nodes that are left alone lead to nothing that is not there. -/
theorem of_keeps (h : a.Closed) (hloose : Loosened a b) (hkeeps : Keeps touched fields a b)
    (hscopes : b.scopes.size = a.scopes.size) : b.Closed where
  parent_lt c p hp := by
    rcases hloose c with he | he
    · rw [hkeeps.size_eq]
      exact h.parent_lt c p (he ▸ hp)
    · simp [he] at hp
  scope_lt p form t hf ht := by
    obtain ⟨form', hform', hscope⟩ := hkeeps.exists_form hf
    rw [hscopes]
    exact h.scope_lt p form' t hform' (hscope.trans ht)

/-- A child can be taken out of a node that is there. -/
theorem exists_releaseFrom (h : a.Closed) (hp : p.index < a.size) (c : NodeId) :
    ∃ place b, a.releaseFrom p c = .ok (place, b) ∧ b.scopes.size = a.scopes.size := by
  obtain ⟨form, hform⟩ : ∃ form, a.form? p = some form := by
    refine Option.ne_none_iff_exists'.1 fun hnone => ?_
    exact absurd ((a.form?_eq_none_iff p).1 hnone) (Nat.not_le_of_lt hp)
  rw [releaseFrom, form_of_form? hform]
  cases hrelease : form.release? c with
  | none => exact ⟨none, a, by simp [bind, Except.bind, hrelease, pure, Except.pure], rfl⟩
  | some released =>
    obtain ⟨place, form'⟩ := released
    cases place with
    | slot slot =>
      exact ⟨some (.slot slot), a.setForm p form',
        by simp [bind, Except.bind, hrelease, pure, Except.pure], rfl⟩
    | list name i =>
      cases hs : form'.scope? with
      | none =>
        exact ⟨some (.list name i), a.setForm p form',
          by simp [bind, Except.bind, hrelease, hs, pure, Except.pure], rfl⟩
      | some t =>
        obtain ⟨place', hplace, he⟩ := Option.map_eq_some_iff.1 hrelease
        cases he
        have ht : t.index < a.scopes.size :=
          h.scope_lt p form t hform ((Form.scope?_setList ..).symm.trans hs)
        obtain ⟨b, hb⟩ := exists_undefineChild (a := a.setForm p (form.clear (.list name i))) ht c
        exact ⟨some (.list name i), b,
          by simp [bind, Except.bind, hrelease, hs, hb, pure, Except.pure],
          (scopes_of_undefineChild hb).1⟩

/-- A node that is there can be taken out of its parent. -/
theorem exists_detach (h : a.Closed) (hc : c.index < a.size) :
    ∃ place b, a.detach c = .ok (place, b) ∧ b.Closed := by
  obtain ⟨node, hnode, hparent⟩ := exists_node hc
  suffices hdetach : ∃ place b, a.detach c = .ok (place, b) ∧ b.scopes.size = a.scopes.size by
    obtain ⟨place, b, hd, hscopes⟩ := hdetach
    have hkeeps : Keeps [c] (fun _ _ => True) a b :=
      .detach (List.mem_singleton_self c) (fun _ _ _ => trivial) hd
    exact ⟨place, b, hd, h.of_keeps (.of_moved (moved_of_detach hd)) hkeeps hscopes⟩
  cases hp : a.parent? c with
  | none => exact ⟨none, a, detach_of_parent? hc hp, rfl⟩
  | some p =>
    obtain ⟨place, b, hrelease, hscopes⟩ := h.exists_releaseFrom (h.parent_lt c p hp) c
    refine ⟨place, b.setParent c none, ?_, hscopes⟩
    rw [detach, hnode]
    simp [bind, Except.bind, hparent, hp, hrelease, pure, Except.pure]

/-- An item can be taken out of a list. -/
theorem exists_removeChild (h : a.Closed) (hown : a.Owned strict) (hl : a.list? p name = some items)
    (hi : items[i]? = some old) : ∃ b, a.removeChild p name i = .ok (old, b) ∧ b.Closed := by
  obtain ⟨form, hform, hlist⟩ := Option.bind_eq_some_iff.1 hl
  have hheld : a.parent? old = some p :=
    hown.parent?_of_mem hform (Form.mem_children_of_list? hlist (List.mem_of_getElem? hi))
  suffices hremove : ∃ b, a.removeChild p name i = .ok (old, b) ∧
      b.scopes.size = a.scopes.size by
    obtain ⟨b, hr, hscopes⟩ := hremove
    have hkeeps : Keeps [old] (fun _ _ => True) a b :=
      .removeChild (List.mem_singleton_self old) hr
    exact ⟨b, hr, h.of_keeps (.of_removeChild hr) hkeeps hscopes⟩
  have hlt : old.index < a.size := index_lt_of_parent? hheld
  rw [removeChild, list_of_form? hform hlist, form_of_form? hform]
  cases hs : form.scope? with
  | none =>
    obtain ⟨b, hb⟩ := exists_disown (a := a.setForm p (form.setList (items.eraseIdx i) name))
      (by rwa [size_setForm]) p
    refine ⟨b, by simp [bind, Except.bind, hi, hs, hb, pure, Except.pure], ?_⟩
    rw [(form?_of_disown hb).2]
    rfl
  | some t =>
    obtain ⟨a', ha'⟩ := exists_undefineChild
      (a := a.setForm p (form.setList (items.eraseIdx i) name)) (h.scope_lt p form t hform hs) old
    obtain ⟨b, hb⟩ := exists_disown (a := a')
      (by rwa [(sameNodes_of_undefineChild ha').size_eq, size_setForm]) p
    refine ⟨b, by simp [bind, Except.bind, hi, hs, ha', hb, pure, Except.pure], ?_⟩
    rw [(form?_of_disown hb).2]
    exact (scopes_of_undefineChild ha').1

/-- A node that is there can take the place of an item of a list. -/
theorem exists_setListItem (h : a.Closed) (hown : a.Owned strict)
    (hl : a.list p name = .ok items) (hi : items[i]? = some old) (hc : c.index < a.size) :
    ∃ b, a.setListItem p name i c = .ok (old, b) := by
  by_cases hne : old = c
  · exact ⟨a, by simp [setListItem, hl, hi, hne, bind, Except.bind, pure, Except.pure]⟩
  obtain ⟨a', hremove, hclosed⟩ := h.exists_removeChild hown (list?_of_list hl) hi
  have hkeeps : Keeps [old] (fun _ _ => True) a a' :=
    .removeChild (List.mem_singleton_self old) hremove
  obtain ⟨place, a'', hdetach, hclosed'⟩ := hclosed.exists_detach (c := c) (by rwa [hkeeps.size_eq])
  have hlist := list?_detach (hown.removeChild hremove)
    (list?_removeChild (list?_of_list hl) hremove) hdetach
  obtain ⟨form, hform, hlist⟩ := Option.bind_eq_some_iff.1 hlist
  obtain ⟨b, hinsert, -⟩ := exists_insertChild (i := i) hdetach hform hlist
    fun t x ht _ => hclosed'.scope_lt p form t hform ht
  exact ⟨b, by simp [setListItem, hl, hi, hne, hremove, hinsert, bind, Except.bind, pure,
    Except.pure]⟩

end Closed

/-! ## Where the node ends up -/

/-- The list after a node was put at the place of an item, step by step. -/
theorem list?_setListItem (h : a.Owned strict) (hl : a.list? p name = some items)
    (hi : items[i]? = some old) (hne : c ≠ old) {result : NodeId}
    (hb : a.setListItem p name i c = .ok (result, b)) : result = old ∧ b.parent? old = none ∧
      b.list? p name = some
        (if c ∈ items.take i then behindNext items i c else replaced items i c) := by
  have hplace := list?_of_setListItem hb
  rw [hl, Option.bind_some, hi] at hplace
  cases hplace
  obtain ⟨-, ⟨rfl, -⟩ | ⟨-, a', hremove, hinsert⟩⟩ := exists_of_setListItem hb
  · exact absurd rfl hne
  have hkeeps : Keeps [c] (fun _ _ => True) a' b :=
    .insertChild (List.mem_singleton_self c) (fun _ _ _ => trivial) hinsert
  refine ⟨rfl, ?_, ?_⟩
  · rw [hkeeps.parent?_eq old (by simpa using Ne.symm hne), parent?_removeChild h hremove]
  obtain ⟨place, a'', items', hdetach, hlist, hput⟩ := list?_insertChild hinsert
  have hleft := list?_detach (h.removeChild hremove) (list?_removeChild hl hremove) hdetach
  cases hleft.symm.trans hlist
  have hlength : (items.take i).length = i :=
    List.length_take_of_le (List.getElem?_eq_some_iff.1 hi).1.le
  have hnodup := (nodup_list h hl).sublist (List.eraseIdx_sublist items i)
  rw [List.eraseIdx_eq_take_drop_succ] at hput hnodup
  have hindex := insertIdx_filter (c := c) hnodup
  rw [hlength, List.drop_drop] at hindex
  rw [hput, hindex, behindNext, replaced]

/-- Replacing an item of a list by another node meets no fault where recorded parents and scopes are
there.  The answer is the item, which has no parent then.  The node is in the place of the item
exactly if it was not before it in the list or nothing was behind it; otherwise it is one place
further down. -/
theorem setListItem_eq_replaced_iff (h : a.Owned strict) (hl : a.list p name = .ok items)
    (hi : items[i]? = some old) (hne : c ≠ old) (hc : c.index < a.size) :
    (a.Closed → ∃ b, a.setListItem p name i c = .ok (old, b)) ∧
    ∀ result b, a.setListItem p name i c = .ok (result, b) →
      result = old ∧ b.parent? old = none ∧ ∃ items', b.list p name = .ok items' ∧
        items' = (if c ∈ items.take i then behindNext items i c else replaced items i c) ∧
        (items' = replaced items i c ↔ (c ∈ items.take i → i + 1 = items.length)) := by
  refine ⟨fun hclosed => hclosed.exists_setListItem h hl hi hc, fun result b hb => ?_⟩
  obtain ⟨rfl, hparent, hlist⟩ := list?_setListItem h (list?_of_list hl) hi hne hb
  refine ⟨rfl, hparent, _, list_of_list? hlist, rfl, ?_⟩
  by_cases hbefore : c ∈ items.take i
  · rw [if_pos hbefore, behindNext_eq_replaced_iff (nodup_list h (list?_of_list hl))
      (List.getElem?_eq_some_iff.1 hi).1 hbefore]
    simp [hbefore]
  · simp [hbefore]

/-- The second of three arguments is replaced by the third. -/
theorem setListItem_eq_replaced_iff_call :
    let a : Arena :=
      { nodes := #[{ form := .reference "x", parent := some ⟨3⟩ },
          { form := .reference "y", parent := some ⟨3⟩ },
          { form := .reference "z", parent := some ⟨3⟩ },
          { form := .namedInvocation "f" [⟨0⟩, ⟨1⟩, ⟨2⟩] }] }
    ∃ b, a.setListItem ⟨3⟩ .arguments 1 ⟨2⟩ = .ok (⟨1⟩, b) ∧ b.parent? ⟨1⟩ = none ∧
      b.list ⟨3⟩ .arguments = .ok [⟨0⟩, ⟨2⟩] := by
  intro a
  have howned : a.Owned True := owned_empty.runAll (fun _ => by decide)
    (show Edit.runAll [.alloc (.reference "x"), .alloc (.reference "y"), .alloc (.reference "z"),
      .alloc (.namedInvocation "f" [⟨0⟩, ⟨1⟩, ⟨2⟩])] .empty = .ok a from rfl)
  have hclosed : a.Closed := by
    refine ⟨fun c p hp => ?_, fun p form t hf ht => ?_⟩
    · obtain ⟨node, hnode, hparent⟩ := Option.bind_eq_some_iff.1 hp
      have hall : ∀ node ∈ a.nodes, node.parent.all (·.index < a.size) := by decide
      exact of_decide_eq_true (by simpa [hparent] using hall node (Array.mem_of_getElem? hnode))
    · obtain ⟨node, hnode, rfl⟩ := Option.map_eq_some_iff.1 hf
      have hall : ∀ node ∈ a.nodes, node.form.scope? = none := by decide
      simp [hall node (Array.mem_of_getElem? hnode)] at ht
  have hlist : a.list ⟨3⟩ .arguments = .ok [⟨0⟩, ⟨1⟩, ⟨2⟩] := rfl
  obtain ⟨hexists, hresult⟩ := setListItem_eq_replaced_iff (c := ⟨2⟩) (i := 1) howned hlist rfl
    (by decide) (by decide)
  obtain ⟨b, hb⟩ := hexists hclosed
  obtain ⟨-, hparent, items', hlist, rfl, -⟩ := hresult _ b hb
  exact ⟨b, hb, hparent, hlist⟩

/-- The second of three arguments is replaced by the first, which ends up behind the third. -/
theorem exists_setListItem_ne_replaced : ∃ a b,
    Edit.runAll [.alloc (.reference "x"), .alloc (.reference "y"), .alloc (.reference "z"),
      .alloc (.namedInvocation "f" [⟨0⟩, ⟨1⟩, ⟨2⟩])] .empty = .ok a ∧ a.Owned True ∧
    a.list ⟨3⟩ .arguments = .ok [⟨0⟩, ⟨1⟩, ⟨2⟩] ∧ ¬ a.IsAbove ⟨0⟩ ⟨3⟩ ∧
    a.setListItem ⟨3⟩ .arguments 1 ⟨0⟩ = .ok (⟨1⟩, b) ∧
    b.list ⟨3⟩ .arguments = .ok [⟨2⟩, ⟨0⟩] ∧ replaced [⟨0⟩, ⟨1⟩, ⟨2⟩] 1 ⟨0⟩ = [⟨0⟩, ⟨2⟩] := by
  refine ⟨_, _, rfl, ?_, rfl, by decide, rfl, rfl, rfl⟩
  exact owned_empty.runAll (fun _ => by decide) (show Edit.runAll [.alloc (.reference "x"),
    .alloc (.reference "y"), .alloc (.reference "z"),
    .alloc (.namedInvocation "f" [⟨0⟩, ⟨1⟩, ⟨2⟩])] .empty = .ok _ from rfl)

end ExprLang.Arena
