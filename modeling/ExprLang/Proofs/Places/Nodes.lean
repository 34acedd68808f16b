import ExprLang.Proofs.Places.Spans
import ExprLang.Proofs.Tree.Placed

/-!
# Nodes inside each other

The children of a node lie inside its span, one behind another.  What a parse does to an
arena keeps that: positions do not change once they are given, and a node that exists may
lose children to new nodes but gets none.  Units are apart; their imports and their
functions are kept in two lists, so their children need not be in order.

Main definitions:

- Definition {lit}`Arena.Row`: nodes one behind another between two offsets.
- Definition {lit}`Arena.Nests`: every position is genuine, and children lie inside.
- Definition {lit}`Arena.Covers`: what that says of the children of one node.

Main results:

- Theorem {lit}`Arena.Nests.made`: a new node whose children lie inside its span.
- Theorem {lit}`Arena.Row.covers`: nodes in a row are inside a span, in order and apart.
-/

namespace ExprLang

namespace Form

/-- Whether a form is that of a unit. -/
def isUnit : Form → Bool
  | compilationUnit .. => true
  | _ => false

/-- What a unit loses does not matter. -/
theorem isUnit_clear (form : Form) (place : Place) : (form.clear place).isUnit = form.isUnit := by
  cases place with
  | slot name => cases form <;> cases name <;> rfl
  | list name i => cases form <;> cases name <;> rfl

/-- What is left of the children is in the same order. -/
theorem children_clear_sublist (form : Form) (place : Place) :
    (form.clear place).children.Sublist form.children := by
  cases place with
  | slot name =>
    cases form <;> cases name <;> first
      | exact .refl _
      | simp [clear, setSlot, children, childGroups, ChildGroup.children]
  | list name i =>
    have herase (items rest : List NodeId) :
        (items.eraseIdx i ++ rest).Sublist (items ++ rest) :=
      (List.eraseIdx_sublist items i).append_right rest
    cases form <;> cases name <;> first
      | exact .refl _
      | exact herase ..
      | exact (herase ..).append_left _

end Form

namespace Arena

variable {a b c : Arena} {id : NodeId} {ids others : List NodeId} {form : Form} {span : Span}
  {text : String} {lo mid hi : Nat}

/-! ## Rows -/

/-- Nodes lie one behind another between two offsets, and none of them is empty. -/
inductive Row (a : Arena) : Nat → List NodeId → Nat → Prop
  | nil {lo hi : Nat} (h : lo ≤ hi) : Row a lo [] hi
  | cons {lo hi : Nat} {id : NodeId} {ids : List NodeId} {span : Span}
    (hspan : a.position? id = some span) (hlo : lo ≤ span.start.offset)
    (hlt : span.start.offset < span.stop.offset) (hrest : Row a span.stop.offset ids hi) :
    Row a lo (id :: ids) hi

/-- Positions that are given stay. -/
def Places (a b : Arena) : Prop :=
  ∀ id span, a.position? id = some span → b.position? id = some span

namespace Row

/-- The offsets of a row are in order. -/
theorem le (h : a.Row lo ids hi) : lo ≤ hi := by
  induction h with
  | nil h => exact h
  | cons _ hlo hlt _ ih => omega

/-- A row may start earlier. -/
theorem mono_left {lo' : Nat} (h : a.Row lo ids hi) (hle : lo' ≤ lo) : a.Row lo' ids hi := by
  cases h with
  | nil h => exact .nil (Nat.le_trans hle h)
  | cons hspan hlo hlt hrest => exact .cons hspan (Nat.le_trans hle hlo) hlt hrest

/-- A row may end later. -/
theorem mono_right {hi' : Nat} (h : a.Row lo ids hi) (hle : hi ≤ hi') : a.Row lo ids hi' := by
  induction h with
  | nil h => exact .nil (Nat.le_trans h hle)
  | cons hspan hlo hlt _ ih => exact .cons hspan hlo hlt (ih hle)

/-- One row behind another. -/
theorem append (h : a.Row lo ids mid) (h' : a.Row mid others hi) :
    a.Row lo (ids ++ others) hi := by
  induction h with
  | nil hle => exact h'.mono_left hle
  | cons hspan hlo hlt _ ih => exact .cons hspan hlo hlt (ih h')

/-- A row from which nodes are missing. -/
theorem sublist (h : a.Row lo ids hi) (hsub : others.Sublist ids) : a.Row lo others hi := by
  induction h generalizing others with
  | nil hle =>
    cases hsub
    exact .nil hle
  | cons hspan hlo hlt hrest ih =>
    cases hsub with
    | cons _ hsub => exact (ih hsub).mono_left (by omega)
    | cons_cons _ hsub => exact .cons hspan hlo hlt (ih hsub)

/-- A row stays where positions stay. -/
theorem places (h : a.Row lo ids hi) (hp : a.Places b) : b.Row lo ids hi := by
  induction h with
  | nil hle => exact .nil hle
  | cons hspan hlo hlt _ ih => exact .cons (hp _ _ hspan) hlo hlt ih

/-- A row of one node. -/
theorem singleton (hspan : a.position? id = some span) (hlo : lo ≤ span.start.offset)
    (hlt : span.start.offset < span.stop.offset) (hhi : span.stop.offset ≤ hi) :
    a.Row lo [id] hi :=
  .cons hspan hlo hlt (.nil hhi)

/-- The span of the node in a row of one. -/
theorem exists_span (h : a.Row lo [id] hi) : ∃ span, a.position? id = some span ∧
    lo ≤ span.start.offset ∧ span.start.offset < span.stop.offset ∧ span.stop.offset ≤ hi := by
  cases h with
  | cons hspan hlo hlt hrest => exact ⟨_, hspan, hlo, hlt, hrest.le⟩

/-- The span of a node in a row. -/
theorem exists_span_of_mem (h : a.Row lo ids hi) (hid : id ∈ ids) : ∃ span,
    a.position? id = some span ∧ lo ≤ span.start.offset ∧
      span.start.offset < span.stop.offset ∧ span.stop.offset ≤ hi :=
  (h.sublist (List.singleton_sublist.2 hid)).exists_span

/-- No node of a row starts before the first one. -/
theorem start_le_of_head? (h : a.Row lo ids hi) {first : NodeId} {range : Span}
    (hfirst : ids.head? = some first) (hspan : a.position? first = some span) (hid : id ∈ ids)
    (hrange : a.position? id = some range) : span.start.offset ≤ range.start.offset := by
  cases h with
  | nil => cases hid
  | cons hfound _ hlt hrest =>
    cases hfirst
    cases hfound.symm.trans hspan
    rcases List.mem_cons.1 hid with rfl | hid
    · cases hspan.symm.trans hrange
      exact Nat.le_refl _
    · obtain ⟨found, hfound, hlo, -⟩ := hrest.exists_span_of_mem hid
      cases hfound.symm.trans hrange
      omega

end Row

/-! ## Positions of children -/

/-- A form goes with a span: unless it is that of a unit, the span is not empty and the children
lie in it in a row. -/
def Suits (a : Arena) (form : Form) (span : Span) : Prop :=
  form.isUnit = false →
    span.start.offset < span.stop.offset ∧ a.Row span.start.offset form.children span.stop.offset

/-- A form that has fewer children goes with the same span. -/
theorem Suits.of_sublist {old : Form} (h : a.Suits old span) (hunit : form.isUnit = old.isUnit)
    (hsub : form.children.Sublist old.children) (hp : a.Places b) : b.Suits form span := by
  intro hform
  obtain ⟨hlt, hrow⟩ := h (hunit ▸ hform)
  exact ⟨hlt, (hrow.sublist hsub).places hp⟩

/-- Every position is one of the text, and every node has one that goes with its form. -/
structure Nests (text : String) (a : Arena) : Prop where
  genuine : ∀ id span, a.position? id = some span → span.Genuine text
  suits : ∀ id form, a.form? id = some form →
    ∃ span, a.position? id = some span ∧ a.Suits form span

/-- There are no nodes to begin with. -/
theorem nests_empty (text : String) : Arena.empty.Nests text := ⟨nofun, nofun⟩

/-- What is true of the nodes of an arena is true of the same nodes. -/
theorem Nests.of_nodes_eq (h : a.Nests text) (hn : b.nodes = a.nodes) : b.Nests text := by
  have hposition (id : NodeId) : b.position? id = a.position? id := by
    simp only [position?, node?, hn]
  have hform (id : NodeId) : b.form? id = a.form? id := by simp only [form?, node?, hn]
  refine ⟨fun id span hspan => h.genuine id span (hposition id ▸ hspan), fun id form hf => ?_⟩
  obtain ⟨span, hspan, hsuits⟩ := h.suits id form (hform id ▸ hf)
  exact ⟨span, (hposition id).trans hspan,
    hsuits.of_sublist rfl (.refl _) fun other _ ho => (hposition other).trans ho⟩

/-! ## Taking over children -/

/-- Nodes are what they were, but for children that they have lost. -/
def Thins (a b : Arena) : Prop :=
  ∀ id form, b.form? id = some form → ∃ old, a.form? id = some old ∧ form.isUnit = old.isUnit ∧
    form.children.Sublist old.children

namespace Thins

/-- Nothing has to be lost. -/
theorem of_form?_eq (h : ∀ id, b.form? id = a.form? id) : a.Thins b :=
  fun id form hform => ⟨form, (h id).symm.trans hform, rfl, .refl _⟩

/-- What is lost is lost. -/
theorem trans (h : a.Thins b) (h' : b.Thins c) : a.Thins c := by
  intro id form hform
  obtain ⟨middle, hmiddle, hunit, hsub⟩ := h' id form hform
  obtain ⟨old, hold, hunit', hsub'⟩ := h id middle hmiddle
  exact ⟨old, hold, hunit.trans hunit', hsub.trans hsub'⟩

/-- A child is taken out of what holds it. -/
theorem releaseFrom {p child : NodeId} {place : Option Place}
    (h : a.releaseFrom p child = .ok (place, b)) : a.Thins b := by
  obtain ⟨form, hform, ⟨-, rfl⟩ | ⟨place', form', hrelease, h⟩⟩ := exists_of_releaseFrom h
  · exact .of_form?_eq fun _ => rfl
  obtain ⟨place'', -, he⟩ := Option.map_eq_some_iff.1 hrelease
  cases he
  have hset : a.Thins (a.setForm p (form.clear place')) := by
    intro q new hnew
    by_cases hq : q = p
    · subst hq
      cases (form?_setForm_self hform _).symm.trans hnew
      exact ⟨form, hform, form.isUnit_clear place', form.children_clear_sublist place'⟩
    · exact ⟨new, (form?_setForm_of_ne hq _).symm.trans hnew, rfl, .refl _⟩
  obtain ⟨_, _, _, -, -, hundefine⟩ | ⟨-, rfl⟩ := h
  · exact hset.trans (.of_form?_eq (sameNodes_of_undefineChild hundefine).form?_eq)
  · exact hset

/-- A new node takes over one child. -/
theorem claimChild {scope? : Option ScopeId} {child : NodeId}
    (h : a.claimChild id scope? child = .ok b) : a.Thins b := by
  obtain ⟨-, b', hrelease, hb⟩ := exists_of_claimChild h
  have hreleased : a.Thins b' := by
    rcases hrelease with ⟨p, place, -, hrelease⟩ | ⟨-, rfl⟩
    · exact .releaseFrom hrelease
    · exact .of_form?_eq fun _ => rfl
  have hparent : a.Thins (b'.setParent child (some id)) :=
    hreleased.trans (.of_form?_eq fun _ => form?_setParent ..)
  cases scope? with
  | none =>
    cases hb
    exact hparent
  | some scope => exact hparent.trans (.of_form?_eq (sameNodes_of_defineChild hb).form?_eq)

/-- A new node takes over its children one by one. -/
theorem claimAll {scope? : Option ScopeId} {children : List NodeId}
    (h : children.foldlM (fun a child => a.claimChild id scope? child) a = .ok b) :
    a.Thins b :=
  rel_of_claimAll (fun _ => .of_form?_eq fun _ => rfl) .trans (fun _ _ => claimChild) h

end Thins

/-! ## Keeping children -/

/-- What a child is taken over from is its parent; the other nodes keep their forms. -/
theorem form?_of_claimChild {p child : NodeId} {scope? : Option ScopeId}
    (h : a.claimChild id scope? child = .ok b) (hp : a.parent? child ≠ some p) :
    b.form? p = a.form? p := by
  obtain ⟨-, b', hrelease, hb⟩ := exists_of_claimChild h
  have hreleased : b'.form? p = a.form? p := by
    obtain ⟨q, place, hq, hrelease⟩ | ⟨-, rfl⟩ := hrelease
    · have hne : p ≠ q := fun he => hp (he ▸ hq)
      obtain ⟨form, -, ⟨-, rfl⟩ | ⟨place', form', -, h⟩⟩ := exists_of_releaseFrom hrelease
      · rfl
      · obtain ⟨_, _, _, -, -, hundefine⟩ | ⟨-, rfl⟩ := h
        · exact ((sameNodes_of_undefineChild hundefine).form?_eq p).trans
            (form?_setForm_of_ne hne _)
        · exact form?_setForm_of_ne hne _
    · rfl
  have hparent : (b'.setParent child (some id)).form? p = a.form? p :=
    (form?_setParent ..).trans hreleased
  cases scope? with
  | none =>
    cases hb
    exact hparent
  | some scope => exact ((sameNodes_of_defineChild hb).form?_eq p).trans hparent

/-- A node that holds none of the children to start with keeps its form while they are taken over
one by one. -/
theorem form?_of_claimAll {p : NodeId} {scope? : Option ScopeId} {children : List NodeId}
    (h : children.foldlM (fun a child => a.claimChild id scope? child) a = .ok b)
    (hnodup : children.Nodup) (hp : ∀ child ∈ children, a.parent? child ≠ some p) :
    b.form? p = a.form? p := by
  induction children generalizing a with
  | nil =>
    cases h
    rfl
  | cons child children ih =>
    rw [List.foldlM_cons] at h
    obtain ⟨a', hclaim, h⟩ := exists_of_bind_eq_ok h
    obtain ⟨hnew, hnodup⟩ := List.nodup_cons.1 hnodup
    refine (ih h hnodup fun other hother => ?_).trans
      (form?_of_claimChild hclaim (hp child (List.mem_cons_self ..)))
    -- only the child that was taken over has another parent now
    have hne : other ≠ child := fun he => hnew (he ▸ hother)
    rw [(moved_of_claimChild hclaim).parent?_eq, if_neg hne]
    exact hp other (List.mem_cons_of_mem _ hother)

/-- The next node is the parent of none. -/
theorem Balanced.parent?_ne_next (h : a.Owned True) (child : NodeId) :
    a.parent? child ≠ some a.next := by
  intro hparent
  have hge := h.ge trivial a.next child
  have hnone : a.form? a.next = none := (a.form?_eq_none_iff _).2 (Nat.le_refl _)
  rw [owns_eq_one hparent, count, children, hnone] at hge
  exact absurd hge (by simp)

/-- A new node over different children keeps all of them. -/
theorem form?_of_alloc (h : a.Owned True) (hnodup : form.children.Nodup)
    (halloc : a.alloc form = .ok (id, b)) : b.form? id = some form := by
  obtain ⟨b', hclaim, hb⟩ := exists_of_bind_eq_ok halloc
  cases hb
  refine (form?_of_claimAll hclaim hnodup fun child _ => ?_).trans
    ((a.form?_push form a.next).trans (if_pos rfl))
  exact (a.parent?_push form child).symm ▸ h.parent?_ne_next child

/-! ## New nodes -/

/-- A node with a position exists. -/
theorem index_lt_of_position? (h : a.position? id = some span) : id.index < a.size := by
  obtain ⟨node, hnode, -⟩ := Option.bind_eq_some_iff.1 h
  exact (Array.getElem?_eq_some_iff.1 hnode).1

/-- A new node with a position: it has that position, the older ones keep theirs, and every node
has the children it had or fewer. -/
theorem placed_of_alloc (halloc : a.alloc form = .ok (id, b))
    (hset : b.setPosition id span = .ok c) :
    id = a.next ∧ c.position? id = some span ∧ (∀ q, q ≠ id → c.position? q = a.position? q) ∧
      (a.push form).Thins c := by
  obtain ⟨rfl, hsettles⟩ := settles_of_alloc halloc
  obtain ⟨hlt, rfl⟩ := eq_of_setPosition hset
  obtain ⟨b', hclaim, hb⟩ := exists_of_bind_eq_ok halloc
  cases hb
  refine ⟨rfl, ?_, fun q hq => ?_, (Thins.claimAll hclaim).trans (.of_form?_eq fun q => ?_)⟩
  · have hnode : b.node? a.next = some b.nodes[a.next.index] := Array.getElem?_eq_getElem hlt
    simp [position?, hnode]
  · have hkept := (hsettles.position?_eq q).trans (a.position?_push form q)
    rw [position?] at hkept ⊢
    rw [b.node?_modify_of_ne _ hq, hkept, position?]
  · exact b.form?_modify a.next q _ fun _ => rfl

/-- A new node over different children keeps all of them when it gets its position. -/
theorem form?_of_made (h : a.Owned True) (hnodup : form.children.Nodup)
    (halloc : a.alloc form = .ok (id, b)) (hset : b.setPosition id span = .ok c) :
    c.form? id = some form := by
  obtain ⟨-, rfl⟩ := eq_of_setPosition hset
  exact (b.form?_modify id id (fun node => { node with position := some span })
    fun _ => rfl).trans (form?_of_alloc h hnodup halloc)

/-- A new node whose position goes with its form leaves everything in its place. -/
theorem Nests.made (h : a.Nests text) (hgenuine : span.Genuine text) (hsuits : a.Suits form span)
    (halloc : a.alloc form = .ok (id, b)) (hset : b.setPosition id span = .ok c) :
    c.Nests text ∧ a.Places c ∧ c.position? id = some span := by
  obtain ⟨rfl, hnew, hold, hthins⟩ := placed_of_alloc halloc hset
  have hplaces : a.Places c := by
    intro q old hq
    have hne : q ≠ a.next := by
      rintro rfl
      exact Nat.lt_irrefl _ (index_lt_of_position? hq)
    rw [hold q hne, hq]
  refine ⟨⟨fun q found hq => ?_, fun q form' hq => ?_⟩, hplaces, hnew⟩
  · by_cases hne : q = a.next
    · subst hne
      cases hnew.symm.trans hq
      exact hgenuine
    · exact h.genuine q found ((hold q hne).symm.trans hq)
  · obtain ⟨old, hform, hunit, hsub⟩ := hthins q form' hq
    rw [a.form?_push] at hform
    split at hform
    · rename_i hne
      subst hne
      cases hform
      exact ⟨span, hnew, hsuits.of_sublist hunit hsub hplaces⟩
    · rename_i hne
      obtain ⟨range, hrange, hsuits'⟩ := h.suits q old hform
      exact ⟨range, (hold q hne).trans hrange, hsuits'.of_sublist hunit hsub hplaces⟩

/-! ## Children of one node -/

/-- Some nodes have spans inside the span, none of which is empty, and each of which ends before
the next one starts. -/
def Covers (a : Arena) (span : Span) (ids : List NodeId) : Prop :=
  ∃ spans : List Span, ids.map a.position? = spans.map some ∧
    (∀ s ∈ spans, span.start.NotAfter s.start ∧ s.start.offset < s.stop.offset ∧
      s.stop.NotAfter span.stop) ∧
    spans.IsChain fun s t => s.stop.NotAfter t.start

/-- Nodes in a row are inside a span, in order and apart from each other. -/
theorem Row.covers (h : a.Row lo ids hi) (ha : a.Nests text) {span : Span}
    (hspan : span.Genuine text) (hlo : span.start.offset ≤ lo) (hhi : hi ≤ span.stop.offset) :
    a.Covers span ids := by
  suffices hrow : ∃ spans : List Span, ids.map a.position? = spans.map some ∧
      (∀ s ∈ spans, s.Genuine text ∧ lo ≤ s.start.offset ∧ s.start.offset < s.stop.offset ∧
        s.stop.offset ≤ hi) ∧ spans.IsChain fun s t => s.stop.NotAfter t.start by
    obtain ⟨spans, hmap, hall, hchain⟩ := hrow
    refine ⟨spans, hmap, fun s hs => ?_, hchain⟩
    obtain ⟨hs, hstart, hlt, hstop⟩ := hall s hs
    exact ⟨hspan.start.notAfter hs.start (Nat.le_trans hlo hstart), hlt,
      hs.stop.notAfter hspan.stop (Nat.le_trans hstop hhi)⟩
  clear hlo hhi hspan
  induction h with
  | nil => exact ⟨[], rfl, nofun, .nil⟩
  | @cons lo hi id ids first hfirst hlo hlt hrest ih =>
    obtain ⟨spans, hmap, hall, hchain⟩ := ih
    have hgenuine := ha.genuine id first hfirst
    refine ⟨first :: spans, by rw [List.map_cons, hfirst, hmap, List.map_cons], ?_, ?_⟩
    · intro s hs
      rcases List.mem_cons.1 hs with rfl | hs
      · exact ⟨hgenuine, hlo, hlt, hrest.le⟩
      · obtain ⟨hs, hstart, hmore⟩ := hall s hs
        exact ⟨hs, by omega, hmore⟩
    · refine List.isChain_cons.2 ⟨fun next hnext => ?_, hchain⟩
      obtain ⟨hs, hstart, -⟩ := hall next (List.mem_of_mem_head? hnext)
      exact hgenuine.stop.notAfter hs.start hstart

end Arena

end ExprLang
