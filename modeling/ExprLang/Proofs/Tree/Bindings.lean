import ExprLang.Proofs.Tree.Ownership

/-!
# Bindings of children

The scope of a node binds names to children in its lists.  A binding is made when
a child is put there and removed when it is taken out, under the name that the
child defines at that time.  The two names differ if a function has got a pattern
among its arguments in between, and nothing is removed when a child is taken out
of a slot.  Apart from these two cases no binding outlives its child.

Main definitions:

- Definition {lit}`Arena.Binds`: a scope binds a name to a node.
- Definition {lit}`Arena.BindsItems`: what is bound is in a list of the node that
  opens the scope.
- Definition {lit}`Edit.isSteady`: an operation of neither kind.

Main results:

- Theorem {lit}`Arena.BindsItems.edit`: such operations keep bindings current.
- Theorem {lit}`Edit.mem_children_of_binds`: what such operations on the empty
  arena lead to.
- Theorem {lit}`Edit.exists_binds_of_not_mem_children`: a binding that outlives its
  child.
-/

namespace ExprLang

/-! ## Items of lists -/

namespace Form

variable {form form' : Form} {c n : NodeId} {name : ChildList} {items items' : List NodeId}

/-- A node is in a list of a form. -/
def Lists (form : Form) (n : NodeId) : Prop :=
  ∃ name items, form.list? name = some items ∧ n ∈ items

/-- The name that a form defines where no pattern prevents it. -/
def plainName? : Form → Option String
  | function name .. => some name
  | localVariable name .. => some name
  | basicArgument name _ => some name
  | defaultArgument name .. => some name
  | _ => none

/-- The items in the list of arguments, if there is such a list. -/
def arguments (form : Form) : List NodeId := (form.list? .arguments).getD []

/-- What is in a list is a child. -/
theorem Lists.mem_children (h : form.Lists n) : n ∈ form.children := by
  obtain ⟨name, items, hl, hn⟩ := h
  exact mem_children_of_list? hl hn

/-- A child is in a slot or in a list. -/
theorem slot?_or_lists_of_mem_children (h : n ∈ form.children) :
    (∃ name, form.slot? name = some (some n)) ∨ form.Lists n := by
  rw [← mem_held] at h
  rcases List.mem_append.1 h with h | h
  · obtain ⟨name, -, hn⟩ := List.mem_flatMap.1 h
    exact .inl ⟨name, by simpa [Option.join_eq_some_iff] using hn⟩
  · obtain ⟨name, -, hn⟩ := List.mem_flatMap.1 h
    cases hl : form.list? name with
    | none => simp [hl] at hn
    | some items => exact .inr ⟨name, items, hl, by simpa [hl] using hn⟩

/-- A slot changes no list. -/
theorem lists_setSlot (slot : Slot) (child : Option NodeId) :
    (form.setSlot child slot).Lists n ↔ form.Lists n := by
  simp [Lists]

/-- A list that keeps an item keeps it in the form. -/
theorem Lists.setList (h : form.Lists n) (hl : form.list? name = some items)
    (hn : n ∈ items → n ∈ items') : (form.setList items' name).Lists n := by
  obtain ⟨other, items'', ho, hmem⟩ := h
  by_cases hname : other = name
  · subst hname
    cases hl.symm.trans ho
    exact ⟨other, items', list?_setList items' (by simp [hl]), hn hmem⟩
  · exact ⟨other, items'', (list?_setList_of_ne form items' hname).trans ho, hmem⟩

/-- Items other than the one that is erased stay. -/
theorem mem_eraseIdx_of_ne {i : Nat} (hi : items[i]? = some c) (hne : n ≠ c) (hn : n ∈ items) :
    n ∈ items.eraseIdx i := by
  have hcount := count_eraseIdx hi n
  have hpos := List.count_pos_iff.2 hn
  have hzero : [c].count n = 0 := List.count_eq_zero.2 (by simpa using hne)
  exact List.count_pos_iff.1 (by omega)

/-- Taking a child out leaves the other items where they are. -/
theorem Lists.release? {place : Place} (h : form.Lists n)
    (hr : form.release? c = some (place, form')) (hne : n ≠ c) : form'.Lists n := by
  obtain ⟨place', hplace, he⟩ := Option.map_eq_some_iff.1 hr
  cases he
  cases place with
  | slot name => exact (lists_setSlot name none).2 h
  | list name i =>
    obtain ⟨items, hl, hi⟩ := list?_of_placeOf? hplace
    obtain ⟨hlt, hitem, -⟩ := List.idxOf?_eq_some_iff.1 hi
    simp only [clear, hl, Option.getD_some]
    exact h.setList hl (mem_eraseIdx_of_ne (List.getElem?_eq_some_iff.2 ⟨hlt, hitem⟩) hne)

/-- Taking a child out fills no slot. -/
theorem slot?_of_slot?_clear {place : Place} {name : Slot}
    (h : (form.clear place).slot? name = some (some n)) : form.slot? name = some (some n) := by
  cases place with
  | slot name' =>
    by_cases hname : name = name'
    · subst hname
      by_cases hs : (form.slot? name).isSome
      · rw [clear, slot?_setSlot none hs] at h
        cases h
      · have hsame : form.setSlot none name = form := by
          cases form <;> cases name <;> first | rfl | exact absurd rfl hs
        rwa [clear, hsame] at h
    · rwa [clear, slot?_setSlot_of_ne form none hname] at h
  | list name' i => rwa [clear, slot?_setList] at h

/-- The plain name is not about children. -/
theorem plainName?_congr (h : form'.bare = form.bare) : form'.plainName? = form.plainName? := by
  cases form <;> cases form' <;> simp_all [bare, plainName?]

/-- Taking a child out keeps what the form is apart from its children. -/
theorem bare_clear (place : Place) : (form.clear place).bare = form.bare := by
  cases place <;> simp [clear]

/-- Taking a child out puts no argument in. -/
theorem arguments_clear_subset (place : Place) : (form.clear place).arguments ⊆ form.arguments := by
  cases place with
  | slot name => simp [clear, arguments]
  | list name i =>
    by_cases hname : .arguments = name
    · subst hname
      cases hl : form.list? .arguments with
      | none =>
        have hsame : (form.setList [] .arguments).list? .arguments = none := by
          cases form <;> simp_all [list?, Form.setList]
        simp [clear, arguments, hl, hsame]
      | some items =>
        simp only [clear, arguments, hl, Option.getD_some,
          list?_setList (items.eraseIdx i) (by simp [hl] : (form.list? .arguments).isSome)]
        exact (List.eraseIdx_sublist items i).subset
    · simp [clear, arguments, list?_setList_of_ne form _ hname]

end Form

namespace Arena

variable {a b : Arena} {id p q c d n : NodeId} {form form' : Form} {t u : ScopeId} {x : String}

/-! ## Names -/

/-- The name of a node, by its form and its arguments. -/
theorem definitionName_eq (h : a.form? n = some form) : a.definitionName n =
    if form.arguments.any a.isPatternArgument then none else form.plainName? := by
  unfold definitionName
  rw [h]
  cases form <;> simp [Form.arguments, Form.list?, Form.plainName?]

/-- Only a node that exists defines a name. -/
theorem exists_form?_of_definitionName (h : a.definitionName n = some x) :
    ∃ form, a.form? n = some form ∧ form.plainName? = some x ∧
      form.arguments.any a.isPatternArgument = false := by
  cases hf : a.form? n with
  | none => simp [definitionName, hf] at h
  | some form =>
    rw [definitionName_eq hf] at h
    split at h
    · cases h
    · rename_i hany
      exact ⟨form, rfl, h, by simpa using hany⟩

/-- Whether a node is a pattern is not about its children. -/
theorem isPatternArgument_setForm (h : a.form? p = some form) (hb : form'.bare = form.bare)
    (q : NodeId) : (a.setForm p form').isPatternArgument q = a.isPatternArgument q := by
  by_cases hq : q = p
  · subst hq
    unfold isPatternArgument
    rw [form?_setForm_self h, h]
    cases form <;> cases form' <;> simp_all [Form.bare]
  · exact isPatternArgument_congr (form?_setForm_of_ne hq form')

/-- A node keeps its name if it gets no pattern as an argument. -/
theorem definitionName_setForm (h : a.form? p = some form) (hb : form'.bare = form.bare)
    (hn : a.definitionName n = some x)
    (hargs : n = p → ∀ q ∈ form'.arguments, q ∈ form.arguments ∨ a.isPatternArgument q = false) :
    (a.setForm p form').definitionName n = some x := by
  obtain ⟨formn, hf, hname, hany⟩ := exists_form?_of_definitionName hn
  rw [List.any_eq_false] at hany
  by_cases hnp : n = p
  · subst hnp
    cases h.symm.trans hf
    rw [definitionName_eq (form?_setForm_self h form'), if_neg, Form.plainName?_congr hb, hname]
    rw [Bool.not_eq_true, List.any_eq_false]
    intro q hq
    rw [isPatternArgument_setForm h hb]
    rcases hargs rfl q hq with hq | hq
    · exact hany q hq
    · simp [hq]
  · rw [definitionName_eq ((form?_setForm_of_ne hnp form').trans hf), if_neg, hname]
    rw [Bool.not_eq_true, List.any_eq_false]
    intro q hq
    rw [isPatternArgument_setForm h hb]
    exact hany q hq

/-- Names are about forms only. -/
theorem definitionName_of_form? (h : ∀ q, b.form? q = a.form? q) (n : NodeId) :
    b.definitionName n = a.definitionName n :=
  definitionName_congr (h n) fun child _ => h child

/-! ## Bindings -/

/-- A scope binds a name to a node. -/
def Binds (a : Arena) (t : ScopeId) (x : String) (n : NodeId) : Prop :=
  ∃ scope, a.scopes.get t = .ok scope ∧ scope.find? x = some n

/-- What is bound is a child in a list of the node that opens the scope, under the name that it
defines. -/
def BindsItems (a : Arena) : Prop :=
  ∀ t x n, a.Binds t x n → ∃ p form, a.form? p = some form ∧ form.scope? = some t ∧
    form.Lists n ∧ a.parent? n = some p ∧ a.definitionName n = some x

/-- A node has children with a name in its lists only. -/
def NamesInLists (a : Arena) (id : NodeId) : Prop :=
  ∀ form name d, a.form? id = some form → form.slot? name = some (some d) →
    (a.form? d).bind Form.plainName? = none

/-- Bindings are about scopes only. -/
theorem Binds.congr (h : b.scopes = a.scopes) (hb : b.Binds t x n) : a.Binds t x n := by
  unfold Binds at hb ⊢
  rwa [h] at hb

/-- A child whose binding is removed is not bound any more under its name, and nothing is bound
that was not. -/
theorem of_undefineChild (h : a.undefineChild t c = .ok b) (hb : b.Binds u x n) :
    a.Binds u x n ∧ ¬(u = t ∧ n = c ∧ a.definitionName c = some x) := by
  unfold undefineChild at h
  split at h
  · rename_i hnone
    cases h
    refine ⟨hb, ?_⟩
    rintro ⟨-, -, hx⟩
    simp [hnone] at hx
  rename_i name hname
  obtain ⟨⟨found, scopes⟩, hundefine, h⟩ := exists_of_bind_eq_ok h
  cases h
  obtain ⟨scope, hscope, hundefine⟩ := exists_of_bind_eq_ok hundefine
  obtain ⟨scope', hget, hfind⟩ := hb
  split at hundefine
  · cases hundefine
    by_cases hu : u = t
    · subst hu
      rw [get_set_of_get hscope] at hget
      cases hget
      by_cases hx : x = name
      · subst hx
        simp at hfind
      · rw [Scope.find?_erase_of_ne _ hx] at hfind
        refine ⟨⟨scope, hscope, hfind⟩, ?_⟩
        rintro ⟨-, -, he⟩
        exact hx (Option.some.inj (he.symm.trans hname))
    · rw [Scopes.get_set_of_ne _ _ hu] at hget
      exact ⟨⟨scope', hget, hfind⟩, fun he => hu he.1⟩
  · rename_i hne
    cases hundefine
    refine ⟨⟨scope', hget, hfind⟩, ?_⟩
    rintro ⟨rfl, rfl, hx⟩
    cases hscope.symm.trans hget
    cases hname.symm.trans hx
    exact hne hfind

/-- A child is bound under its name, and nothing else is bound that was not. -/
theorem of_defineChild (h : a.defineChild t c = .ok b) (hb : b.Binds u x n) :
    a.Binds u x n ∨ u = t ∧ n = c ∧ a.definitionName c = some x := by
  unfold defineChild at h
  split at h
  · cases h
    exact .inl hb
  rename_i name hname
  obtain ⟨result, hdefine, h⟩ := exists_of_bind_eq_ok h
  obtain ⟨scope, hscope, hdefine⟩ := exists_of_bind_eq_ok hdefine
  split at hdefine
  · cases hdefine
    cases h
    exact .inl hb
  · rename_i hfree
    cases hdefine
    cases h
    obtain ⟨scope', hget, hfind⟩ := hb
    by_cases hu : u = t
    · subst hu
      rw [get_set_of_get hscope] at hget
      cases hget
      by_cases hx : x = name
      · subst hx
        rw [Scope.find?_insert_self _ hfree] at hfind
        cases hfind
        exact .inr ⟨rfl, rfl, hname⟩
      · rw [Scope.find?_insert_of_ne _ _ hx] at hfind
        exact .inl ⟨scope, hscope, hfind⟩
    · rw [Scopes.get_set_of_ne _ _ hu] at hget
      exact .inl ⟨scope', hget, hfind⟩

/-! ## Children that leave -/

/-- The forms of nodes have only lost children, and scopes have only lost bindings. -/
structure Shrunk (a b : Arena) : Prop where
  size_eq : b.size = a.size
  form : ∀ q form', b.form? q = some form' → ∃ form, a.form? q = some form ∧
    form'.bare = form.bare ∧ form'.scope? = form.scope? ∧
    ∀ name c, form'.slot? name = some (some c) → form.slot? name = some (some c)
  binds : ∀ t x n, b.Binds t x n → a.Binds t x n

namespace Shrunk

/-- Nothing need be lost. -/
theorem refl (a : Arena) : Shrunk a a :=
  ⟨rfl, fun _ form h => ⟨form, h, rfl, rfl, fun _ _ => id⟩, fun _ _ _ => id⟩

/-- What is lost is lost. -/
theorem trans {c : Arena} (h : Shrunk a b) (h' : Shrunk b c) : Shrunk a c := by
  refine ⟨h'.size_eq.trans h.size_eq, fun q form'' hq => ?_, fun t x n ht => ?_⟩
  · obtain ⟨form', hq', hbare', hscope', hslot'⟩ := h'.form q form'' hq
    obtain ⟨form, hq, hbare, hscope, hslot⟩ := h.form q form' hq'
    exact ⟨form, hq, hbare'.trans hbare, hscope'.trans hscope,
      fun name c hc => hslot name c (hslot' name c hc)⟩
  · exact h.binds t x n (h'.binds t x n ht)

/-- Recording a parent loses nothing. -/
theorem setParent (a : Arena) (c : NodeId) (parent : Option NodeId) :
    Shrunk a (a.setParent c parent) :=
  ⟨size_setParent .., fun q form h => ⟨form, by simpa using h, rfl, rfl, fun _ _ => id⟩,
    fun _ _ _ => Binds.congr rfl⟩

/-- A form that has lost children. -/
theorem setForm (h : a.form? p = some form) (hb : form'.bare = form.bare)
    (hscope : form'.scope? = form.scope?)
    (hs : ∀ name c, form'.slot? name = some (some c) → form.slot? name = some (some c)) :
    Shrunk a (a.setForm p form') := by
  refine ⟨size_setForm .., fun q form'' hq => ?_, fun _ _ _ => Binds.congr rfl⟩
  by_cases hqp : q = p
  · subst hqp
    cases (form?_setForm_self h form').symm.trans hq
    exact ⟨form, h, hb, hscope, hs⟩
  · exact ⟨form'', (form?_setForm_of_ne hqp form').symm.trans hq, rfl, rfl, fun _ _ => id⟩

/-- Removing a binding loses no child. -/
theorem undefineChild (h : a.undefineChild t c = .ok b) : Shrunk a b :=
  have hsame := sameNodes_of_undefineChild h
  ⟨hsame.size_eq,
    fun q form hq => ⟨form, (hsame.form?_eq q).symm.trans hq, rfl, rfl, fun _ _ => id⟩,
    fun _ _ _ hb => (of_undefineChild h hb).1⟩

variable (h : Shrunk a b)

include h

/-- The kinds of nodes are what they were. -/
theorem form?_cases (q : NodeId) : a.form? q = none ∧ b.form? q = none ∨
    ∃ form form', a.form? q = some form ∧ b.form? q = some form' ∧ form'.bare = form.bare := by
  cases hb : b.form? q with
  | none =>
    refine .inl ⟨?_, rfl⟩
    rw [form?_eq_none_iff, ← h.size_eq, ← form?_eq_none_iff]
    exact hb
  | some form' =>
    obtain ⟨form, ha, hbare, -⟩ := h.form q form' hb
    exact .inr ⟨form, form', ha, rfl, hbare⟩

/-- The names that nodes define where no pattern prevents it are what they were. -/
theorem plainName?_eq (q : NodeId) :
    (b.form? q).bind Form.plainName? = (a.form? q).bind Form.plainName? := by
  obtain ⟨ha, hb⟩ | ⟨form, form', ha, hb, hbare⟩ := h.form?_cases q
  · rw [ha, hb]
  · rw [ha, hb]
    exact Form.plainName?_congr hbare

/-- Patterns are what they were. -/
theorem isPatternArgument_eq (q : NodeId) : b.isPatternArgument q = a.isPatternArgument q := by
  unfold isPatternArgument
  obtain ⟨ha, hb⟩ | ⟨form, form', ha, hb, hbare⟩ := h.form?_cases q
  · rw [ha, hb]
  · rw [ha, hb]
    cases form <;> cases form' <;> simp_all [Form.bare]

end Shrunk

/-- The binding of a child that leaves a list is removed if the list is that of a scope. -/
theorem of_unbind (hb : form.scope?.elim (b = a) fun t => a.undefineChild t c = .ok b) :
    SameNodes a b ∧ Shrunk a b ∧ ∀ u x n, b.Binds u x n → a.Binds u x n ∧
      ¬(form.scope? = some u ∧ n = c ∧ a.definitionName c = some x) := by
  cases hs : form.scope? with
  | none =>
    rw [hs] at hb
    cases hb
    exact ⟨⟨rfl⟩, .refl a, fun u x n h => ⟨h, fun he => by cases he.1⟩⟩
  | some t =>
    rw [hs] at hb
    refine ⟨sameNodes_of_undefineChild hb, .undefineChild hb, fun u x n h => ?_⟩
    obtain ⟨ha, hne⟩ := of_undefineChild hb h
    refine ⟨ha, ?_⟩
    rintro ⟨hu, hn, hx⟩
    exact hne ⟨(Option.some.inj hu).symm, hn, hx⟩

namespace BindsItems

/-- A child leaves a list of its parent together with its binding. -/
theorem unlist (h : a.BindsItems) (hform : a.form? p = some form)
    (hbare : form'.bare = form.bare) (hscope : form'.scope? = form.scope?)
    (hargs : form'.arguments ⊆ form.arguments)
    (hlists : ∀ n, n ≠ c → form.Lists n → form'.Lists n) (hp : a.parent? c = some p)
    (parent : Option NodeId)
    (hb : form.scope?.elim (b = a.setForm p form')
      fun t => (a.setForm p form').undefineChild t c = .ok b) :
    (b.setParent c parent).BindsItems := by
  obtain ⟨hsame, -, hbinds⟩ := of_unbind hb
  intro u x n hn
  obtain ⟨hn, hgone⟩ := hbinds u x n (hn.congr rfl)
  obtain ⟨q, formq, hq, hscopeq, hlist, hparent, hname⟩ := h u x n (hn.congr rfl)
  have hkept : (a.setForm p form').definitionName n = some x :=
    definitionName_setForm hform hbare hname fun _ q hq => .inl (hargs hq)
  have hne : n ≠ c := by
    rintro rfl
    cases hp.symm.trans hparent
    cases hform.symm.trans hq
    exact hgone ⟨hscopeq, rfl, hkept⟩
  have hkept' : (b.setParent c parent).definitionName n = some x := by
    rw [definitionName_of_form? (a := a.setForm p form') fun q => by simp [hsame.form?_eq]]
    exact hkept
  have hparent' : (b.setParent c parent).parent? n = some q := by
    rw [parent?, setParent, b.node?_modify_of_ne _ hne]
    exact (hsame.parent?_eq n).trans (by simpa using hparent)
  by_cases hqp : q = p
  · subst hqp
    cases hform.symm.trans hq
    refine ⟨q, form', ?_, hscope.trans hscopeq, hlists n hne hlist, hparent', hkept'⟩
    rw [form?_setParent, hsame.form?_eq, form?_setForm_self hform]
  · refine ⟨q, formq, ?_, hscopeq, hlist, hparent', hkept'⟩
    rw [form?_setParent, hsame.form?_eq, form?_setForm_of_ne hqp, hq]

/-- A child that is in no list of the node that loses it takes no binding along. -/
theorem unslot (h : a.BindsItems) {name : Slot} (hform : a.form? p = some form)
    (hp : a.parent? c = some p) (parent : Option NodeId)
    (hc : parent = some p ∨ ¬ form.Lists c) :
    ((a.setForm p (form.setSlot none name)).setParent c parent).BindsItems := by
  intro u x n hn
  obtain ⟨q, formq, hq, hscopeq, hlist, hparent, hname⟩ := h u x n (hn.congr rfl)
  have hargs : (form.setSlot none name).arguments = form.arguments := by simp [Form.arguments]
  have hkept : (a.setForm p (form.setSlot none name)).definitionName n = some x :=
    definitionName_setForm hform (by simp) hname fun _ q hq => .inl (hargs ▸ hq)
  have hkept' : ((a.setForm p (form.setSlot none name)).setParent c parent).definitionName n =
      some x := by
    rw [definitionName_of_form? (a := a.setForm p (form.setSlot none name)) fun q => by simp]
    exact hkept
  have hparent' : ((a.setForm p (form.setSlot none name)).setParent c parent).parent? n =
      some q := by
    by_cases hne : n = c
    · subst hne
      cases hp.symm.trans hparent
      cases hform.symm.trans hq
      rw [parent?_setParent (by simpa using index_lt_of_parent? hp), if_pos rfl]
      exact hc.resolve_right fun hnot => hnot hlist
    · rw [parent?, setParent, node?_modify_of_ne _ _ hne]
      exact (parent?_setForm ..).trans hparent
  by_cases hqp : q = p
  · subst hqp
    cases hform.symm.trans hq
    refine ⟨q, form.setSlot none name, ?_, (form.scope?_setSlot ..).trans hscopeq,
      (form.lists_setSlot name none).2 hlist, hparent', hkept'⟩
    rw [form?_setParent, form?_setForm_self hform]
  · refine ⟨q, formq, ?_, hscopeq, hlist, hparent', hkept'⟩
    rw [form?_setParent, form?_setForm_of_ne hqp, hq]

/-- A child without a parent is not bound. -/
theorem parent?_of_binds (h : a.BindsItems) (hb : a.Binds t x n) : a.parent? n ≠ none := by
  obtain ⟨p, form, -, -, -, hp, -⟩ := h t x n hb
  simp [hp]

/-- A node that is not bound may get any parent. -/
theorem setParent (h : a.BindsItems) (hc : ∀ t x, ¬ a.Binds t x c) (parent : Option NodeId) :
    (a.setParent c parent).BindsItems := by
  intro u x n hn
  have hn := hn.congr (a := a) rfl
  obtain ⟨q, form, hq, hscope, hlist, hparent, hname⟩ := h u x n hn
  have hne : n ≠ c := by
    rintro rfl
    exact hc u x hn
  refine ⟨q, form, by simpa using hq, hscope, hlist, ?_, ?_⟩
  · rw [parent?, Arena.setParent, a.node?_modify_of_ne _ hne]
    exact hparent
  · rw [definitionName_of_form? fun q => form?_setParent ..]
    exact hname

/-- A child that leaves its place, and gets a parent that may be the one that it had. -/
theorem release {place : Option Place} (h : a.BindsItems) (hp : a.parent? c = some p)
    (parent : Option NodeId) (hone : parent = some p ∨ a.count p c ≤ 1)
    (hb : a.releaseFrom p c = .ok (place, b)) :
    (b.setParent c parent).BindsItems ∧ Shrunk a (b.setParent c parent) := by
  obtain ⟨form, hform, ⟨hnone, rfl⟩ | ⟨place', form', hrelease, hb⟩⟩ := exists_of_releaseFrom hb
  · -- the recorded parent does not hold the child, so the child is not bound
    refine ⟨h.setParent (fun t x hbinds => ?_) parent, .setParent ..⟩
    obtain ⟨q, formq, hq, -, hlist, hparent, -⟩ := h t x c hbinds
    cases hp.symm.trans hparent
    cases hform.symm.trans hq
    exact Form.not_mem_children_of_placeOf? (Option.map_eq_none_iff.1 hnone) hlist.mem_children
  obtain ⟨place'', hplace, he⟩ := Option.map_eq_some_iff.1 hrelease
  cases he
  have hbare : (form.clear place').bare = form.bare := Form.bare_clear place'
  have hscope : (form.clear place').scope? = form.scope? := by cases place' <;> simp [Form.clear]
  have hset : Shrunk a (a.setForm p (form.clear place')) :=
    .setForm hform hbare hscope fun _ _ => Form.slot?_of_slot?_clear
  have hlists (n : NodeId) (hne : n ≠ c) (hl : form.Lists n) : (form.clear place').Lists n :=
    hl.release? hrelease hne
  rcases hb with ⟨name, i, t, rfl, hs, hundefine⟩ | ⟨hplain, rfl⟩
  · refine ⟨h.unlist hform hbare hscope (Form.arguments_clear_subset _) hlists hp parent ?_,
      (hset.trans (.undefineChild hundefine)).trans (.setParent ..)⟩
    rw [hs]
    exact hundefine
  · refine ⟨?_, hset.trans (.setParent ..)⟩
    rcases hplain with ⟨name, rfl⟩ | hs
    · refine h.unslot hform hp parent (hone.imp_right fun hle hlist => ?_)
      have hcount := Form.count_children_release? hrelease c
      have hpos := List.count_pos_iff.2 ((form.lists_setSlot name none).2 hlist).mem_children
      rw [count_of_form? hform] at hle
      simp only [Form.clear, List.count_singleton_self] at hcount
      omega
    · refine h.unlist hform hbare hscope (Form.arguments_clear_subset _) hlists hp parent ?_
      rw [hs]
      rfl

/-- A node that is taken out of its parent. -/
theorem detach {place : Option Place} (h : a.BindsItems) (hown : a.Owned True)
    (hb : a.detach c = .ok (place, b)) : b.BindsItems ∧ Shrunk a b := by
  obtain ⟨-, ⟨-, rfl⟩ | ⟨p, b', hp, hrelease, rfl⟩⟩ := exists_of_detach hb
  · exact ⟨h, .refl _⟩
  · have hle := hown.le p c
    rw [owns_eq_one hp] at hle
    exact h.release hp none (.inr hle) hrelease

/-- A node that is taken out of a list. -/
theorem removeChild {name : ChildList} {i : Nat} (h : a.BindsItems) (hown : a.Owned True)
    (hb : a.removeChild p name i = .ok (c, b)) : b.BindsItems ∧ Shrunk a b := by
  obtain ⟨items, form, a', hform, hlist, hitem, hundefine, hdisown⟩ := exists_of_removeChild hb
  have hp : a.parent? c = some p :=
    hown.parent?_of_mem hform (Form.mem_children_of_list? hlist (List.mem_of_getElem? hitem))
  obtain ⟨hsame, hshrunk, -⟩ := of_unbind hundefine
  have hp' : a'.parent? c = some p := (hsame.parent?_eq c).trans ((parent?_setForm ..).trans hp)
  rw [eq_of_disown hdisown hp']
  have hargs : (form.setList (items.eraseIdx i) name).arguments ⊆ form.arguments := by
    have hsub := form.arguments_clear_subset (.list name i)
    rwa [Form.clear, hlist] at hsub
  refine ⟨h.unlist hform (by simp) (by simp) hargs (fun n hne hl => ?_) hp none hundefine, ?_⟩
  · exact hl.setList hlist (Form.mem_eraseIdx_of_ne hitem hne)
  · exact (Shrunk.setForm hform (by simp) (by simp) fun _ _ hs => by simpa using hs).trans
      (hshrunk.trans (.setParent ..))

/-! ## Children that are placed -/

/-- A node is put into a list and is bound there.  A pattern must not become an argument of a
function that is bound. -/
theorem inserted {name : ChildList} {items items' : List NodeId} (h : a.BindsItems)
    (hlt : c.index < a.size) (hc : a.parent? c = none) (hform : a.form? p = some form)
    (hlist : form.list? name = some items) (hkeep : ∀ n ∈ items, n ∈ items')
    (hnew : ∀ n ∈ items', n ∈ items ∨ n = c) (hmem : c ∈ items')
    (hpattern : a.isPatternArgument c = true → ∀ t x, ¬ a.Binds t x p)
    (hb : (a.setForm p (form.setList items' name)).attachToList p c = .ok b) :
    b.BindsItems := by
  have hplaced : ((a.setForm p (form.setList items' name)).setParent c (some p)).form? p =
      some (form.setList items' name) := by rw [form?_setParent, form?_setForm_self hform]
  have hscope : (form.setList items' name).scope? = form.scope? := form.scope?_setList ..
  -- what is bound is what was, or the new child
  have hbinds : SameNodes ((a.setForm p (form.setList items' name)).setParent c (some p)) b ∧
      ∀ u x n, b.Binds u x n → a.Binds u x n ∨ form.scope? = some u ∧ n = c ∧
        ((a.setForm p (form.setList items' name)).setParent c (some p)).definitionName c =
          some x := by
    obtain ⟨form'', hform'', hb⟩ := exists_of_bind_eq_ok hb
    cases hplaced.symm.trans (form?_of_form hform'')
    rw [hscope] at hb
    cases hs : form.scope? with
    | none =>
      rw [hs] at hb
      cases hb
      exact ⟨⟨rfl⟩, fun u x n hn => .inl (hn.congr rfl)⟩
    | some t =>
      rw [hs] at hb
      refine ⟨sameNodes_of_defineChild hb, fun u x n hn => ?_⟩
      rcases of_defineChild hb hn with hn | ⟨rfl, hn, hx⟩
      · exact .inl (hn.congr rfl)
      · exact .inr ⟨rfl, hn, hx⟩
  obtain ⟨hsame, hbinds⟩ := hbinds
  have hparent (d : NodeId) : b.parent? d = if d = c then some p else a.parent? d := by
    rw [hsame.parent?_eq, parent?_setParent (by simpa using hlt), parent?_setForm]
  have hname (d : NodeId) : b.definitionName d =
      (a.setForm p (form.setList items' name)).definitionName d :=
    definitionName_of_form? (fun q => by simp [hsame.form?_eq]) d
  have hformp : b.form? p = some (form.setList items' name) := (hsame.form?_eq p).trans hplaced
  intro u x n hn
  rcases hbinds u x n hn with hn | ⟨hs, rfl, hx⟩
  · obtain ⟨q, formq, hq, hscopeq, hlistq, hparentq, hnameq⟩ := h u x n hn
    have hne : n ≠ c := by
      rintro rfl
      simp [hc] at hparentq
    have hkept : b.definitionName n = some x := by
      rw [hname]
      refine definitionName_setForm hform (by simp) hnameq fun hnp q hq => ?_
      subst hnp
      by_cases hargs : .arguments = name
      · subst hargs
        rw [Form.arguments, Form.list?_setList items' (by simp [hlist]), Option.getD_some] at hq
        rcases hnew q hq with hq | rfl
        · exact .inl (by simpa [Form.arguments, hlist] using hq)
        · refine .inr (Bool.eq_false_iff.2 fun hpat => ?_)
          exact hpattern hpat u x hn
      · rw [Form.arguments, Form.list?_setList_of_ne form _ hargs] at hq
        exact .inl hq
    have hparentn : b.parent? n = some q := by rw [hparent, if_neg hne, hparentq]
    by_cases hqp : q = p
    · subst hqp
      cases hform.symm.trans hq
      exact ⟨q, _, hformp, hscope.trans hscopeq, hlistq.setList hlist (hkeep n), hparentn, hkept⟩
    · refine ⟨q, formq, ?_, hscopeq, hlistq, hparentn, hkept⟩
      rw [hsame.form?_eq, form?_setParent, form?_setForm_of_ne hqp, hq]
  · refine ⟨p, _, hformp, hscope.trans hs,
      ⟨name, items', Form.list?_setList items' (by simp [hlist]), hmem⟩, ?_, ?_⟩
    · rw [hparent, if_pos rfl]
    · rw [definitionName_of_form? hsame.form?_eq, hx]

/-- A node that is put into a list at an index. -/
theorem insertChild {name : ChildList} {i : Nat} (h : a.BindsItems) (hown : a.Owned True)
    (hpattern : a.isPatternArgument c = true → ∀ t x, ¬ a.Binds t x p)
    (hb : a.insertChild p name i c = .ok b) : b.BindsItems := by
  obtain ⟨place, a', items, form, hdetach, hf, hl, hb⟩ := exists_of_insertChild hb
  obtain ⟨h', hshrunk⟩ := h.detach hown hdetach
  have hmoved := moved_of_detach hdetach
  have hmem (n : NodeId) : n ∈ items.insertIdx (min i items.length) c ↔ n = c ∨ n ∈ items :=
    List.mem_insertIdx (Nat.min_le_right ..)
  refine h'.inserted (hmoved.size_eq ▸ hmoved.index_lt) (hown.detached hdetach).2 hf hl
    (fun n hn => (hmem n).2 (.inr hn)) (fun n hn => ((hmem n).1 hn).symm)
    ((hmem c).2 (.inl rfl)) (fun hpat t x hn => ?_) hb
  rw [hshrunk.isPatternArgument_eq] at hpat
  exact hpattern hpat t x (hshrunk.binds t x p hn)

/-- A node that is put at the end of a list. -/
theorem pushChild {name : ChildList} (h : a.BindsItems) (hown : a.Owned True)
    (hpattern : a.isPatternArgument c = true → ∀ t x, ¬ a.Binds t x p)
    (hb : a.pushChild p name c = .ok b) : b.BindsItems := by
  obtain ⟨place, a', items, form, hdetach, hf, hl, hb⟩ := exists_of_pushChild hb
  obtain ⟨h', hshrunk⟩ := h.detach hown hdetach
  have hmoved := moved_of_detach hdetach
  refine h'.inserted (hmoved.size_eq ▸ hmoved.index_lt) (hown.detached hdetach).2 hf hl
    (fun n hn => List.mem_append_left _ hn) (fun n hn => by simpa using hn) (by simp)
    (fun hpat t x hn => ?_) hb
  rw [hshrunk.isPatternArgument_eq] at hpat
  exact hpattern hpat t x (hshrunk.binds t x p hn)

/-- A node that takes the place of an item of a list. -/
theorem setListItem {name : ChildList} {i : Nat} (h : a.BindsItems) (hown : a.Owned True)
    (hpattern : a.isPatternArgument c = true → ∀ t x, ¬ a.Binds t x p)
    (hb : a.setListItem p name i c = .ok (d, b)) : b.BindsItems := by
  obtain ⟨-, ⟨-, rfl⟩ | ⟨-, a', hremove, hinsert⟩⟩ := exists_of_setListItem hb
  · exact h
  obtain ⟨h', hshrunk⟩ := h.removeChild hown hremove
  refine h'.insertChild (hown.removeChild hremove) (fun hpat t x hn => ?_) hinsert
  rw [hshrunk.isPatternArgument_eq] at hpat
  exact hpattern hpat t x (hshrunk.binds t x p hn)

/-- A node, or none, that is put into a slot. -/
theorem setChild {name : Slot} {child old : Option NodeId} (h : a.BindsItems)
    (hown : a.Owned True) (hb : a.setChild p name child = .ok (old, b)) : b.BindsItems := by
  by_cases hne : old = child
  · subst hne
    rw [eq_of_setChild hb]
    exact h
  obtain ⟨a', form, ha', hown', hnew, hform, hslot, hscopes, hforms, hparents⟩ :=
    hown.exists_of_setChild hb hne
  have h' : a'.BindsItems := by
    cases child with
    | none =>
      cases ha'
      exact h
    | some c =>
      obtain ⟨place, hdetach⟩ := ha'
      exact (h.detach hown hdetach).1
  intro u x n hn
  obtain ⟨q, formq, hq, hscopeq, hlist, hparent, hname⟩ := h' u x n (hn.congr hscopes)
  have hin : child ≠ some n := by
    intro hc
    simp [hnew n hc] at hparent
  -- what leaves the slot is in no list, so it is not bound
  have hout : old ≠ some n := by
    rintro rfl
    have hheld := hown'.parent?_of_mem hform (Form.mem_children_of_slot? hslot)
    cases hparent.symm.trans hheld
    cases hform.symm.trans hq
    have hle := hown'.le p n
    rw [owns_eq_one hparent, count_of_form? hform] at hle
    have hcount := Form.count_children_setSlot hslot none n
    have hpos := List.count_pos_iff.2 ((form.lists_setSlot name none).2 hlist).mem_children
    simp only [Option.toList_none, Option.toList_some, List.count_singleton_self,
      List.count_nil] at hcount
    omega
  have hkept : b.definitionName n = some x := by
    rw [definitionName_of_form? hforms]
    refine definitionName_setForm hform (by simp) hname fun _ q hq => .inl ?_
    simpa [Form.arguments] using hq
  have hparent' : b.parent? n = some q := by rw [hparents, if_neg hin, if_neg hout, hparent]
  by_cases hqp : q = p
  · subst hqp
    cases hform.symm.trans hq
    exact ⟨q, _, (hforms q).trans (form?_setForm_self hform _),
      (form.scope?_setSlot ..).trans hscopeq, (form.lists_setSlot name child).2 hlist, hparent',
      hkept⟩
  · exact ⟨q, formq, (hforms q).trans ((form?_setForm_of_ne hqp _).trans hq), hscopeq, hlist,
      hparent', hkept⟩

/-! ## New nodes -/

/-- A new node binds nothing yet. -/
theorem push (h : a.BindsItems) (hown : a.Owned True) (form : Form) :
    (a.push form).BindsItems := by
  have hnone : a.form? a.next = none := (a.form?_eq_none_iff _).2 (Nat.le_refl _)
  have hold {q : NodeId} (hlt : q.index < a.size) : (a.push form).form? q = a.form? q := by
    rw [form?_push, if_neg]
    rintro rfl
    exact Nat.lt_irrefl _ hlt
  intro u x n hn
  obtain ⟨q, formq, hq, hscope, hlist, hparent, hname⟩ := h u x n (hn.congr rfl)
  refine ⟨q, formq, (hold (index_lt_of_form? hq)).trans hq, hscope, hlist,
    (parent?_push ..).trans hparent, ?_⟩
  obtain ⟨formn, hform, -⟩ := exists_form?_of_definitionName hname
  rw [definitionName_congr (hold (index_lt_of_form? hform)) fun d hd => ?_]
  · exact hname
  · -- the arguments of a function that exists are there
    refine hold (index_lt_of_parent? (hown.parent?_eq (p := n) ?_))
    exact count_pos_iff.2 hd

/-- A new node takes over one child.  It may only find a child with a name in its lists. -/
theorem claimChild {scope? : Option ScopeId} {rest : List NodeId} (h : a.BindsItems)
    (hbal : a.Balanced True (toClaim id (c :: rest))) (hform : a.form? id = some form)
    (hscope : form.scope? = scope?) (hslots : scope? = none ∨ a.NamesInLists id)
    (hb : a.claimChild id scope? c = .ok b) :
    b.BindsItems ∧ (∃ form', b.form? id = some form' ∧ form'.scope? = scope?) ∧
      (scope? = none ∨ b.NamesInLists id) := by
  obtain ⟨hlt, a', hrelease, hb'⟩ := exists_of_claimChild hb
  obtain ⟨hitems, hshrunk⟩ : (a'.setParent c (some id)).BindsItems ∧
      Shrunk a (a'.setParent c (some id)) := by
    obtain ⟨p, place, hp, hrelease⟩ | ⟨hnone, rfl⟩ := hrelease
    · refine h.release hp (some id) ?_ hrelease
      by_cases hpid : p = id
      · exact .inl (congrArg some hpid.symm)
      · have hle := hbal.le p c
        rw [owns_eq_one hp, toClaim, if_neg hpid] at hle
        exact .inr hle
    · exact ⟨h.setParent (fun t x hn => h.parent?_of_binds hn hnone) _, .setParent ..⟩
  have hsame : SameNodes (a'.setParent c (some id)) b := by
    cases scope? with
    | none =>
      cases hb'
      exact ⟨rfl⟩
    | some t => exact sameNodes_of_defineChild hb'
  have hsome : ∃ form', b.form? id = some form' := by
    cases hf : b.form? id with
    | some form' => exact ⟨form', rfl⟩
    | none =>
      rw [form?_eq_none_iff, hsame.size_eq, hshrunk.size_eq, ← form?_eq_none_iff, hform] at hf
      cases hf
  obtain ⟨form', hform'⟩ := hsome
  have hform'' := (hsame.form?_eq id).symm.trans hform'
  obtain ⟨form₀, hform₀, -, hscope', hslot⟩ := hshrunk.form id form' hform''
  cases hform.symm.trans hform₀
  have hscope' : form'.scope? = scope? := hscope'.trans hscope
  have hslots' : scope? = none ∨ b.NamesInLists id := by
    refine hslots.imp_right fun hs form'' name d hf hd => ?_
    cases hform'.symm.trans hf
    rw [hsame.form?_eq, hshrunk.plainName?_eq]
    exact hs form name d hform (hslot name d hd)
  refine ⟨?_, ⟨form', hform', hscope'⟩, hslots'⟩
  cases scope? with
  | none =>
    cases hb'
    exact hitems
  | some t =>
    intro u x n hn
    rcases of_defineChild hb' hn with hn | ⟨rfl, rfl, hx⟩
    · obtain ⟨q, formq, hq, hscopeq, hlist, hparent, hname⟩ := hitems u x n hn
      exact ⟨q, formq, (hsame.form?_eq q).trans hq, hscopeq, hlist,
        (hsame.parent?_eq n).trans hparent, (definitionName_of_form? hsame.form?_eq n).trans hname⟩
    · have hparent : b.parent? n = some id := by
        rw [(moved_of_claimChild hb).parent?_eq, if_pos rfl]
      have hname : b.definitionName n = some x :=
        (definitionName_of_form? hsame.form?_eq n).trans hx
      refine ⟨id, form', hform', hscope', ?_, hparent, hname⟩
      -- the new node holds the child, and a slot could only hold one without a name
      have hmem : n ∈ form'.children := by
        have hge := (hbal.claimChild hb).ge trivial id n
        rw [owns_eq_one hparent, count_of_form? hform'] at hge
        exact List.count_pos_iff.1 (by omega)
      refine (Form.slot?_or_lists_of_mem_children hmem).resolve_left ?_
      rintro ⟨name, hd⟩
      have hnone := hslots'.resolve_left (by simp) form' name n hform' hd
      obtain ⟨formn, hformn, hplain, -⟩ := exists_form?_of_definitionName hname
      simp [hformn, hplain] at hnone

/-- A new node takes over its children one by one. -/
theorem claimAll {scope? : Option ScopeId} {rest : List NodeId} (h : a.BindsItems)
    (hbal : a.Balanced True (toClaim id rest)) (hform : a.form? id = some form)
    (hscope : form.scope? = scope?) (hslots : scope? = none ∨ a.NamesInLists id)
    (hb : rest.foldlM (fun a child => a.claimChild id scope? child) a = .ok b) :
    b.BindsItems := by
  induction rest generalizing a form with
  | nil =>
    cases hb
    exact h
  | cons c rest ih =>
    rw [List.foldlM_cons] at hb
    obtain ⟨a', hclaim, hb⟩ := exists_of_bind_eq_ok hb
    obtain ⟨h', ⟨form', hform', hscope'⟩, hslots'⟩ := h.claimChild hbal hform hscope hslots hclaim
    exact ih h' (hbal.claimChild hclaim) hform' hscope' hslots' hb

/-- A new node that has its children with a name in lists binds what it holds. -/
theorem alloc (h : a.BindsItems) (hown : a.Owned True)
    (hslots : form.scope? = none ∨ (a.push form).NamesInLists a.next)
    (hb : a.alloc form = .ok (id, b)) : b.BindsItems := by
  obtain ⟨b', hclaim, hb⟩ := exists_of_bind_eq_ok hb
  cases hb
  refine (h.push hown form).claimAll (hown.push form) ?_ rfl hslots hclaim
  rw [form?_push, if_pos rfl]

/-- A new scope binds nothing. -/
theorem newScope (h : a.BindsItems) (parent : Option ScopeId) :
    (a.newScope parent).2.BindsItems := by
  intro u x n hn
  obtain ⟨scope, hget, hfind⟩ := hn
  by_cases hu : u = (a.newScope parent).1
  · subst hu
    cases (a.get_newScope parent).symm.trans hget
    simp [Scope.find?] at hfind
  · have hne : u.index ≠ a.scopes.scopes.size := fun e =>
      hu (by cases u; simp_all [Arena.newScope, Scopes.add])
    refine h u x n ⟨scope, ?_, hfind⟩
    rw [← hget]
    simp [Arena.newScope, Scopes.add, Scopes.get, Array.getElem?_push, hne]

/-- A change of a node that keeps its form and its parent. -/
theorem modify (h : a.BindsItems) (change : Node → Node)
    (hf : ∀ node, (change node).form = node.form)
    (hp : ∀ node, (change node).parent = node.parent) : (a.modify id change).BindsItems := by
  intro u x n hn
  obtain ⟨q, form, hq, hscope, hlist, hparent, hname⟩ := h u x n (hn.congr rfl)
  refine ⟨q, form, (a.form?_modify id q change hf).trans hq, hscope, hlist,
    (a.parent?_modify id n change hp).trans hparent, ?_⟩
  exact (definitionName_of_form? (fun d => a.form?_modify id d change hf) n).trans hname

end BindsItems

end Arena

/-! ## Operations that keep bindings current -/

namespace Edit

variable {a b : Arena}

/-- Whether all that a form holds in slots is without a name. -/
def isPlaced (a : Arena) (form : Form) : Bool :=
  Slot.all.all fun name =>
    (((form.slot? name).join.bind a.form?).bind Form.plainName?).isNone

/-- Whether an operation leaves all bindings current: a node that opens a scope is made without a
named child in a slot, no function with a parent gets a pattern among its arguments, and no parent
is recorded on its own. -/
def isSteady (a : Arena) : Edit → Bool
  | adopt .. => false
  | alloc form => form.scope?.isNone || isPlaced (a.push form) form
  | pushChild parent _ child => keepsName a parent child
  | insertChild parent _ _ child => keepsName a parent child
  | setListItem parent _ _ child => keepsName a parent child
  | _ => true
where
  /-- Whether a node that has a parent keeps its name if it gets a child. -/
  keepsName (a : Arena) (parent child : NodeId) : Bool :=
    !a.isPatternArgument child || (a.definitionName parent).isNone || (a.parent? parent).isNone

/-- Whether operations that are done one after the other leave all bindings current. -/
def allSteady (a : Arena) : List Edit → Bool
  | [] => true
  | e :: edits => e.isSteady a &&
    match e.run a with
    | .ok b => allSteady b edits
    | .error _ => true

/-- What is held in slots is without a name. -/
theorem namesInLists_of_isPlaced {id : NodeId} {form : Form} (hf : a.form? id = some form)
    (h : isPlaced a form = true) : a.NamesInLists id := by
  intro form' name d hf' hd
  cases hf.symm.trans hf'
  have hname := List.all_eq_true.1 h name (Slot.mem_all name)
  simpa [hd] using hname

/-- A node that is bound gets no pattern. -/
theorem not_binds_of_keepsName {p c : NodeId} (h : a.BindsItems)
    (hk : isSteady.keepsName a p c = true) (hpat : a.isPatternArgument c = true) (t : ScopeId)
    (x : String) : ¬ a.Binds t x p := by
  intro hb
  obtain ⟨q, -, -, -, -, hparent, hname⟩ := h t x p hb
  simp [isSteady.keepsName, hpat, hparent, hname] at hk

end Edit

namespace Arena.BindsItems

variable {a b : Arena} {edits : List Edit}

/-- A steady operation keeps bindings current. -/
theorem edit {e : Edit} (h : a.BindsItems) (hown : a.Owned True) (hs : e.isSteady a = true)
    (hb : e.run a = .ok b) : b.BindsItems := by
  cases e with
  | newScope parent =>
    cases hb
    exact h.newScope parent
  | alloc form =>
    obtain ⟨⟨id, b'⟩, hb', rfl⟩ := exists_of_map_eq_ok hb
    refine h.alloc hown ?_ hb'
    rw [Edit.isSteady, Bool.or_eq_true, Option.isNone_iff_eq_none] at hs
    refine hs.imp_right fun hp => Edit.namesInLists_of_isPlaced ?_ hp
    rw [form?_push, if_pos rfl]
  | adopt parent child => cases hs
  | detach child =>
    obtain ⟨⟨place, b'⟩, hb', rfl⟩ := exists_of_map_eq_ok hb
    exact (h.detach hown hb').1
  | setChild parent name child =>
    obtain ⟨⟨old, b'⟩, hb', rfl⟩ := exists_of_map_eq_ok hb
    exact h.setChild hown hb'
  | pushChild parent name child => exact h.pushChild hown (Edit.not_binds_of_keepsName h hs) hb
  | insertChild parent name index child =>
    exact h.insertChild hown (Edit.not_binds_of_keepsName h hs) hb
  | setListItem parent name index child =>
    obtain ⟨⟨old, b'⟩, hb', rfl⟩ := exists_of_map_eq_ok hb
    exact h.setListItem hown (Edit.not_binds_of_keepsName h hs) hb'
  | removeChild parent name index =>
    obtain ⟨⟨old, b'⟩, hb', rfl⟩ := exists_of_map_eq_ok hb
    exact (h.removeChild hown hb').1
  | setPosition id span =>
    obtain ⟨node, -, hb⟩ := exists_of_bind_eq_ok hb
    split at hb
    · cases hb
    · cases hb
      exact h.modify _ (fun _ => rfl) fun _ => rfl
  | setResolvedType id type =>
    obtain ⟨node, -, hb⟩ := exists_of_bind_eq_ok hb
    cases hb
    exact h.modify _ (fun _ => rfl) fun _ => rfl

/-- So do steady operations one after the other. -/
theorem runAll (h : a.BindsItems) (hown : a.Owned True) (hs : Edit.allSteady a edits = true)
    (hb : Edit.runAll edits a = .ok b) : b.BindsItems := by
  induction edits generalizing a with
  | nil =>
    cases hb
    exact h
  | cons e edits ih =>
    rw [Edit.runAll, List.foldlM_cons] at hb
    obtain ⟨a', ha', hb⟩ := exists_of_bind_eq_ok hb
    rw [Edit.allSteady, Bool.and_eq_true, ha'] at hs
    have hadopt : e.isAdopt = false := by
      cases e <;> first | rfl | cases hs.1
    exact ih (h.edit hown hs.1 ha') (hown.edit (fun _ => hadopt) ha') hs.2 hb

end Arena.BindsItems

/-- Two nodes with the same scope are one node if no scope is named twice. -/
theorem Arena.eq_of_scope?_eq {a : Arena} {p q : NodeId} {form form' : Form} {t : ScopeId}
    (h : (a.nodes.toList.filterMap (·.form.scope?)).Nodup) (hp : a.form? p = some form)
    (hq : a.form? q = some form') (ht : form.scope? = some t) (ht' : form'.scope? = some t) :
    p = q := by
  have hnode (r : NodeId) (form : Form) (hr : a.form? r = some form) :
      ∃ hlt : r.index < a.nodes.toList.length, a.nodes.toList[r.index].form = form := by
    obtain ⟨node, hn, rfl⟩ := Option.map_eq_some_iff.1 hr
    obtain ⟨hlt, rfl⟩ := Array.getElem?_eq_some_iff.1 hn
    exact ⟨by simpa using hlt, by simp⟩
  obtain ⟨hi, rfl⟩ := hnode p form hp
  obtain ⟨hj, rfl⟩ := hnode q form' hq
  rw [List.nodup_iff_pairwise_ne, List.pairwise_filterMap, List.pairwise_iff_getElem] at h
  rcases Nat.lt_trichotomy p.index q.index with hlt | he | hlt
  · exact absurd rfl (h _ _ hi hj hlt t ht t ht')
  · cases p
    cases q
    exact congrArg _ he
  · exact absurd rfl (h _ _ hj hi hlt t ht' t ht)

/-- After steady operations on the empty arena, what the scope of a node binds is a child of that
node and defines the name that is bound, if no two nodes have the same scope. -/
theorem Edit.mem_children_of_binds {edits : List Edit} {a : Arena} {p n : NodeId} {form : Form}
    {t : ScopeId} {x : String} (h : runAll edits .empty = .ok a)
    (hs : allSteady .empty edits = true)
    (hone : (a.nodes.toList.filterMap (·.form.scope?)).Nodup) (hp : a.form? p = some form)
    (ht : form.scope? = some t) (hb : a.Binds t x n) :
    n ∈ form.children ∧ a.parent? n = some p ∧ a.definitionName n = some x := by
  have hitems : a.BindsItems := by
    refine Arena.BindsItems.runAll (fun t x n hb => ?_) Arena.owned_empty hs h
    obtain ⟨scope, hget, -⟩ := hb
    cases hget
  obtain ⟨q, form', hq, hscope, hlist, hparent, hname⟩ := hitems t x n hb
  cases Arena.eq_of_scope?_eq hone hp hq ht hscope
  cases hp.symm.trans hq
  exact ⟨hlist.mem_children, hparent, hname⟩

/-- A variable that takes the place of another one in a block is what the block binds. -/
theorem Edit.mem_children_of_binds_block : ∃ a form,
    runAll [.newScope none, .alloc (.localVariable "x" false none none),
      .alloc (.block [⟨0⟩] ⟨0⟩), .alloc (.localVariable "y" false none none),
      .setListItem ⟨1⟩ .statements 0 ⟨2⟩] .empty = .ok a ∧
    a.form? ⟨1⟩ = some form ∧ a.Binds ⟨0⟩ "y" ⟨2⟩ ∧
    ⟨2⟩ ∈ form.children ∧ a.parent? ⟨2⟩ = some ⟨1⟩ ∧ a.definitionName ⟨2⟩ = some "y" :=
  have hb := ⟨_, rfl, rfl⟩
  ⟨_, _, rfl, rfl, hb, mem_children_of_binds (show runAll [.newScope none,
    .alloc (.localVariable "x" false none none), .alloc (.block [⟨0⟩] ⟨0⟩),
    .alloc (.localVariable "y" false none none), .setListItem ⟨1⟩ .statements 0 ⟨2⟩] .empty =
      .ok _ from rfl) rfl (by decide) rfl rfl hb⟩

/-- A function that has got a pattern as an argument since it was bound leaves its binding behind
when it is taken out of its block. -/
theorem Edit.exists_binds_of_not_mem_children : ∃ a form,
    runAll [.newScope none, .newScope (some ⟨0⟩), .alloc (.function "f" false [] none none ⟨1⟩),
      .alloc (.block [⟨0⟩] ⟨0⟩), .alloc (.patternArgument none),
      .pushChild ⟨0⟩ .arguments ⟨2⟩, .detach ⟨0⟩] .empty = .ok a ∧
    (a.nodes.toList.filterMap (·.form.scope?)).Nodup ∧
    a.form? ⟨1⟩ = some form ∧ form.scope? = some ⟨0⟩ ∧ a.Binds ⟨0⟩ "f" ⟨0⟩ ∧
    ⟨0⟩ ∉ form.children :=
  ⟨_, _, rfl, by decide, rfl, rfl, ⟨_, rfl, rfl⟩, by decide⟩

end ExprLang
