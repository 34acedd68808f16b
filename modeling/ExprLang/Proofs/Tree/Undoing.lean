import ExprLang.Proofs.Tree.Bindings
import ExprLang.Proofs.Tree.Visibility

/-!
# Putting a node back

A node that was taken out of its place can be put back there: the slot or the list
at the index that were the answer.  After that every node is what it was.  The
place that a form is searched for by child and the fields that are filled by name
have to agree for that, for every form and every field.

Putting the node back meets no fault.  What could be one is the scope of the list,
and the node was just unbound in it if the node defines a name.

Main definitions:

- Definition {lit}`Form.fill`: puts a child into a place.

Main results:

- Theorem {lit}`Form.fill_clear`: a place that was emptied is filled again.
- Theorem {lit}`Arena.nodes_eq_of_detach`: a node that is put back.
-/

namespace ExprLang

/-! ## Places that are emptied and filled -/

namespace Form

variable {form : Form} {c : NodeId}

/-- What a slot was filled with last is in it. -/
theorem setSlot_setSlot (form : Form) (name : Slot) (old new : Option NodeId) :
    (form.setSlot old name).setSlot new name = form.setSlot new name := by
  cases form <;> cases name <;> rfl

/-- A slot may be filled with what it holds. -/
theorem setSlot_of_slot? {name : Slot} {child : Option NodeId} (h : form.slot? name = some child) :
    form.setSlot child name = form := by
  cases form <;> cases name <;> cases h <;> rfl

/-- What a list was replaced by last is there. -/
theorem setList_setList (form : Form) (name : ChildList) (old new : List NodeId) :
    (form.setList old name).setList new name = form.setList new name := by
  cases form <;> cases name <;> rfl

/-- A list may be replaced by itself. -/
theorem setList_of_list? {name : ChildList} {items : List NodeId}
    (h : form.list? name = some items) : form.setList items name = form := by
  cases form <;> cases name <;> cases h <;> rfl

/-- Puts a child into a place. -/
def fill (form : Form) (c : NodeId) : Place → Form
  | .slot name => form.setSlot (some c) name
  | .list name i =>
    let items := (form.list? name).getD []
    form.setList (items.insertIdx (min i items.length) c) name

/-- A child that was taken out of the place where it was found is put back there. -/
theorem fill_clear {place : Place} (h : form.placeOf? c = some place) :
    (form.clear place).fill c place = form := by
  cases place with
  | slot name =>
    rw [clear, fill, setSlot_setSlot, setSlot_of_slot? (slot?_of_placeOf? h)]
  | list name i =>
    obtain ⟨items, hitems, hi⟩ := list?_of_placeOf? h
    obtain ⟨hlt, hitem, -⟩ := List.idxOf?_eq_some_iff.1 hi
    have hmin : min i (items.eraseIdx i).length = i := by
      rw [List.length_eraseIdx_of_lt hlt]
      omega
    have hback : (items.eraseIdx i).insertIdx i c = items := by
      rw [← hitem]
      exact List.insertIdx_eraseIdx_getElem hlt
    have hlist : (form.setList (items.eraseIdx i) name).list? name = some (items.eraseIdx i) :=
      list?_setList _ (by simp [hitems])
    simp only [clear, fill, hitems, Option.getD_some, hlist, hmin, hback, setList_setList]
    exact setList_of_list? hitems

end Form

namespace Arena

variable {a a' b : Arena} {p c q : NodeId} {form form' : Form} {t : ScopeId} {x : String}
  {name : ChildList} {items : List NodeId} {i : Nat}

/-! ## Operations that meet no fault -/

/-- A node with a known form can be asked for it. -/
theorem form_of_form? (h : a.form? p = some form) : a.form p = .ok form := by
  obtain ⟨node, hnode, rfl⟩ := Option.map_eq_some_iff.1 h
  rw [Arena.form, Arena.node, hnode]
  rfl

/-- A node with a number in range can be asked for. -/
theorem exists_node (h : c.index < a.size) :
    ∃ node, a.node c = .ok node ∧ node.parent = a.parent? c := by
  have hnode : a.node? c = some a.nodes[c.index] := Array.getElem?_eq_getElem h
  exact ⟨a.nodes[c.index], by rw [Arena.node, hnode], by rw [parent?, hnode, Option.bind_some]⟩

/-- A slot of a node with a known form. -/
theorem slot_of_form? {name : Slot} {child : Option NodeId} (h : a.form? p = some form)
    (hs : form.slot? name = some child) : a.slot p name = .ok child := by
  rw [slot, form_of_form? h]
  simp [bind, Except.bind, hs, pure, Except.pure]

/-- A list of a node with a known form. -/
theorem list_of_form? (h : a.form? p = some form)
    (hl : form.list? name = some items) : a.list p name = .ok items := by
  rw [list, form_of_form? h]
  simp [bind, Except.bind, hl, pure, Except.pure]

/-- A node without a parent is taken out of nothing. -/
theorem detach_of_parent? (hlt : c.index < a.size) (h : a.parent? c = none) :
    a.detach c = .ok (none, a) := by
  obtain ⟨node, hnode, hparent⟩ := exists_node hlt
  rw [detach, hnode]
  simp [bind, Except.bind, hparent, h, pure, Except.pure]

/-- A node without a parent is put into an empty slot. -/
theorem setChild_of_slot? {name : Slot} (hd : a.detach c = .ok (none, a))
    (hf : a.form? p = some form) (hs : form.slot? name = some none) :
    a.setChild p name (some c) =
      .ok (none, (a.setForm p (form.setSlot (some c) name)).setParent c (some p)) := by
  rw [setChild, slot_of_form? hf hs]
  simp [bind, Except.bind, hd, Functor.map, Except.map, form_of_form? hf, pure, Except.pure]

/-- A child can be bound in a scope that is there. -/
theorem exists_defineChild (h : ∀ x, a.definitionName c = some x → t.index < a.scopes.size) :
    ∃ b, a.defineChild t c = .ok b := by
  unfold defineChild
  cases hname : a.definitionName c with
  | none => exact ⟨a, rfl⟩
  | some x =>
    obtain ⟨result, hdefine⟩ := Scopes.exists_define (h x hname) x c
    cases result <;> simp [hdefine, bind, Except.bind, pure, Except.pure]

/-- A child can only be unbound in a scope that is there, and no scope gets lost. -/
theorem scopes_of_undefineChild (h : a.undefineChild t c = .ok b) :
    b.scopes.size = a.scopes.size ∧
      ∀ x, a.definitionName c = some x → t.index < a.scopes.size := by
  unfold undefineChild at h
  split at h
  · rename_i hnone
    cases h
    exact ⟨rfl, fun x hx => by simp [hnone] at hx⟩
  · obtain ⟨⟨found, scopes⟩, hundefine, h⟩ := exists_of_bind_eq_ok h
    cases h
    obtain ⟨scope, hget, hundefine⟩ := exists_of_bind_eq_ok hundefine
    refine ⟨?_, fun _ _ => index_lt_of_get hget⟩
    split at hundefine <;> cases hundefine
    · exact Scopes.size_set ..
    · rfl

/-- A node that was put into a list can be bound, if the scope of the list is there. -/
theorem exists_attachToList (hf : a.form? p = some form)
    (hs : ∀ t x, form.scope? = some t → a.definitionName c = some x → t.index < a.scopes.size) :
    ∃ b, a.attachToList p c = .ok b ∧ SameNodes (a.setParent c (some p)) b := by
  have hform : (a.setParent c (some p)).form p = .ok form :=
    form_of_form? ((form?_setParent ..).trans hf)
  have hname : (a.setParent c (some p)).definitionName c = a.definitionName c :=
    definitionName_of_form? (fun q => form?_setParent ..) c
  rw [attachToList, hform]
  cases hscope : form.scope? with
  | none => exact ⟨_, by simp [bind, Except.bind, hscope, pure, Except.pure], ⟨rfl⟩⟩
  | some t =>
    obtain ⟨b, hb⟩ := exists_defineChild (a := a.setParent c (some p)) (c := c) (t := t)
      fun x hx => hs t x hscope (hname ▸ hx)
    exact ⟨b, by simpa [bind, Except.bind, hscope] using hb, sameNodes_of_defineChild hb⟩

/-- A node that can be taken out of its parent can be put into a list, if the scope of the list is
there. -/
theorem exists_insertChild {place : Option Place} (hd : a.detach c = .ok (place, a'))
    (hf : a'.form? p = some form) (hl : form.list? name = some items)
    (hs : ∀ t x, form.scope? = some t →
      (a'.setForm p (form.fill c (.list name i))).definitionName c = some x →
        t.index < a'.scopes.size) :
    ∃ b, a.insertChild p name i c = .ok b ∧
      SameNodes ((a'.setForm p (form.fill c (.list name i))).setParent c (some p)) b := by
  have hfill : form.fill c (.list name i) =
      form.setList (items.insertIdx (min i items.length) c) name := by
    simp [Form.fill, hl]
  rw [hfill] at hs ⊢
  obtain ⟨b, hb, hsame⟩ := exists_attachToList (c := c) (form?_setForm_self hf
    (form.setList (items.insertIdx (min i items.length) c) name)) fun t x ht hx =>
      hs t x ((form.scope?_setList ..).symm.trans ht) hx
  refine ⟨b, ?_, hsame⟩
  rw [insertChild, hd]
  simpa [bind, Except.bind, list_of_form? hf hl, form_of_form? hf] using hb

/-! ## A node that is put back -/

/-- The place that a child was taken out of is where it is found. -/
theorem placeOf?_of_releaseFrom {place : Option Place} (h : a.releaseFrom p c = .ok (place, b))
    (hf : a.form? p = some form) : form.placeOf? c = place := by
  obtain ⟨form', hform, h⟩ := exists_of_bind_eq_ok h
  cases hf.symm.trans (form?_of_form hform)
  split at h
  · rename_i hnone
    cases h
    exact Option.map_eq_none_iff.1 hnone
  · rename_i place' form' hrelease
    obtain ⟨place'', hplace, he⟩ := Option.map_eq_some_iff.1 hrelease
    cases he
    split at h
    · obtain ⟨b', -, h⟩ := exists_of_bind_eq_ok h
      cases h
      exact hplace
    · cases h
      exact hplace

/-- A changed node, or another one. -/
theorem node?_modify (a : Arena) (id m : NodeId) (change : Node → Node) :
    (a.modify id change).node? m = if m = id then (a.node? m).map change else a.node? m := by
  split
  · rename_i hm
    subst hm
    exact node?_modify_self ..
  · rename_i hm
    exact a.node?_modify_of_ne change hm

/-- A node that got another form, and one that lost its parent, are what they were when both are put
back. -/
theorem nodes_setForm_setParent (hf : a.form? p = some form) (hp : a.parent? c = some q)
    (h : SameNodes (a.setForm p form') b) :
    (((b.setParent c none).setForm p form).setParent c (some q)).nodes = a.nodes := by
  obtain ⟨nodep, hnodep, rfl⟩ := Option.map_eq_some_iff.1 hf
  obtain ⟨nodec, hnodec, hq⟩ := Option.bind_eq_some_iff.1 hp
  have hb (m : NodeId) : b.node? m = (a.setForm p form').node? m := by
    rw [node?, h.nodes_eq, node?]
  have hnode (m : NodeId) :
      (((b.setParent c none).setForm p nodep.form).setParent c (some q)).node? m = a.node? m := by
    simp only [setParent, setForm, node?_modify, hb]
    by_cases hmc : m = c
    · subst hmc
      by_cases hmp : m = p
      · subst hmp
        cases hnodep.symm.trans hnodec
        simp [hnodep, ← hq]
      · simp [hmp, hnodec, ← hq]
    · by_cases hmp : m = p
      · subst hmp
        simp [hmc, hnodep]
      · simp [hmc, hmp]
  exact Array.ext_getElem? fun i => hnode ⟨i⟩

/-- What is there after a node was taken out of a place: the place is empty, and where it is in a
list the scope of the list is there if the node defines a name. -/
theorem exists_of_detach_place {place : Place} (hp : a.parent? c = some p)
    (hd : a.detach c = .ok (some place, a')) : ∃ form b, a.form? p = some form ∧
      form.placeOf? c = some place ∧ SameNodes (a.setForm p (form.clear place)) b ∧
      a' = b.setParent c none ∧ ∀ name i t x, place = .list name i → form.scope? = some t →
        a.definitionName c = some x → t.index < a'.scopes.size := by
  obtain ⟨hlt, ⟨hnone, -⟩ | ⟨p', b, hp', hrelease, rfl⟩⟩ := exists_of_detach hd
  · simp [hnone] at hp
  cases hp.symm.trans hp'
  obtain ⟨form, hform, hcases⟩ := exists_of_releaseFrom hrelease
  have hplace := placeOf?_of_releaseFrom hrelease hform
  refine ⟨form, b, hform, hplace, ?_⟩
  rw [Form.release?, hplace, Option.map_some] at hcases
  rcases hcases with ⟨hnone, -⟩ | ⟨place', form', hclear, hb⟩
  · cases hnone
  cases hclear
  rcases hb with ⟨name, i, scope, rfl, hscope, hundefine⟩ | ⟨hplain, rfl⟩
  · refine ⟨sameNodes_of_undefineChild hundefine, rfl, ?_⟩
    intro name' i' t x _ ht hx
    cases hscope.symm.trans ht
    obtain ⟨hsize, hthere⟩ := scopes_of_undefineChild hundefine
    -- the node is not among its own arguments any more, which takes no name from it
    have hname : (a.setForm p (form.clear (.list name i))).definitionName c = some x :=
      definitionName_setForm hform (Form.bare_clear _) hx fun _ q hq =>
        .inl (Form.arguments_clear_subset _ hq)
    exact hsize ▸ hthere x hname
  · refine ⟨⟨rfl⟩, rfl, ?_⟩
    rintro name i t x rfl ht -
    rcases hplain with ⟨name', hname'⟩ | hscope
    · cases hname'
    · simp [hscope] at ht

/-- A node that was taken out of a slot is put back there, or out of a list, at the index.  Every
node is what it was then. -/
theorem nodes_eq_of_detach {place : Place} (hp : a.parent? c = some p)
    (hd : a.detach c = .ok (some place, a')) :
    (∀ name, place = .slot name →
      ∃ b, a'.setChild p name (some c) = .ok (none, b) ∧ b.nodes = a.nodes) ∧
    ∀ name i, place = .list name i →
      ∃ b, a'.insertChild p name i c = .ok b ∧ b.nodes = a.nodes := by
  obtain ⟨form, b, hform, hplace, hsame, rfl, hscope⟩ := exists_of_detach_place hp hd
  have hcleared : (b.setParent c none).form? p = some (form.clear place) := by
    rw [form?_setParent, hsame.form?_eq, form?_setForm_self hform]
  have hlt : c.index < b.size := by
    rw [hsame.size_eq, size_setForm]
    exact index_lt_of_parent? hp
  have hdetach : (b.setParent c none).detach c = .ok (none, b.setParent c none) := by
    refine detach_of_parent? (by rwa [size_setParent]) ?_
    rw [parent?_setParent hlt, if_pos rfl]
  have hback : ((((b.setParent c none).setForm p ((form.clear place).fill c place)).setParent c
      (some p))).nodes = a.nodes := by
    rw [Form.fill_clear hplace]
    exact nodes_setForm_setParent hform hp hsame
  constructor
  · rintro name rfl
    have hempty : (form.clear (.slot name)).slot? name = some none :=
      Form.slot?_setSlot none (by simp [Form.slot?_of_placeOf? hplace])
    exact ⟨_, setChild_of_slot? hdetach hcleared hempty, hback⟩
  · rintro name i rfl
    obtain ⟨items, hitems, -⟩ := Form.list?_of_placeOf? hplace
    have hlist : (form.clear (.list name i)).list? name = some (items.eraseIdx i) := by
      rw [Form.clear, hitems, Option.getD_some, Form.list?_setList _ (by simp [hitems])]
    obtain ⟨b', hb', hsame'⟩ := exists_insertChild (i := i) hdetach hcleared hlist
      fun t x ht hx => by
      refine hscope name i t x rfl ((Form.scope?_setList ..).symm.trans ht) ?_
      rw [← hx, Form.fill_clear hplace]
      refine (definitionName_of_form? (fun q => ?_) c).symm
      by_cases hq : q = p
      · subst hq
        rw [form?_setForm_self hcleared, hform]
      · rw [form?_setForm_of_ne hq, form?_setParent, hsame.form?_eq, form?_setForm_of_ne hq]
    exact ⟨b', hb', hsame'.nodes_eq.trans hback⟩

/-- The first argument and the body of a function are taken out, each on its own, and put back. -/
theorem nodes_eq_of_detach_function :
    let a : Arena :=
      { nodes := #[{ form := .basicArgument "x" none, parent := some ⟨3⟩ },
          { form := .basicArgument "y" none, parent := some ⟨3⟩ },
          { form := .reference "x", parent := some ⟨3⟩ },
          { form := .function "f" false [⟨0⟩, ⟨1⟩] none (some ⟨2⟩) ⟨0⟩ }],
        scopes := ⟨#[⟨[("x", ⟨0⟩), ("y", ⟨1⟩)], none⟩]⟩ }
    ∃ a₀ a₂ b₀ b₂, a.detach ⟨0⟩ = .ok (some (.list .arguments 0), a₀) ∧
      a₀.insertChild ⟨3⟩ .arguments 0 ⟨0⟩ = .ok b₀ ∧ b₀.nodes = a.nodes ∧
      a.detach ⟨2⟩ = .ok (some (.slot .body), a₂) ∧
      a₂.setChild ⟨3⟩ .body (some ⟨2⟩) = .ok (none, b₂) ∧ b₂.nodes = a.nodes := by
  intro a
  have hlist : ∃ a₀, a.detach ⟨0⟩ = .ok (some (.list .arguments 0), a₀) := ⟨_, rfl⟩
  have hslot : ∃ a₂, a.detach ⟨2⟩ = .ok (some (.slot .body), a₂) := ⟨_, rfl⟩
  obtain ⟨a₀, h₀⟩ := hlist
  obtain ⟨a₂, h₂⟩ := hslot
  obtain ⟨b₀, hb₀, hn₀⟩ := (nodes_eq_of_detach (p := ⟨3⟩) rfl h₀).2 .arguments 0 rfl
  obtain ⟨b₂, hb₂, hn₂⟩ := (nodes_eq_of_detach (p := ⟨3⟩) rfl h₂).1 .body rfl
  exact ⟨a₀, a₂, b₀, b₂, h₀, hb₀, hn₀, h₂, hb₂, hn₂⟩

end Arena

end ExprLang
