import ExprLang.Proofs.Tree.Denotes

/-!
# Scopes of nodes

The scopes that nodes open mirror the tree: the parent of a scope is the scope
around it, and a scope binds each name to the first child of its node that
defines it.

Main definitions:

- Definition {lit}`Arena.ScopesApart`: no two nodes open the same scope.
- Definition {lit}`Arena.Mirrors`: the scopes below a node mirror the tree.

Main results:

- Theorem {lit}`Arena.Mirrors.mono`: an arena that keeps forms and scopes goes on
  mirroring.
- Theorems {lit}`Arena.Made.apart` and {lit}`Arena.Made.mirrors`: a new node over
  nodes whose scopes mirror the tree.
-/

namespace ExprLang.Arena

variable {a b base : Arena} {id p q : NodeId} {form : Form} {outer : Option ScopeId}
  {t : ScopeId}

/-! ## Scopes apart -/

/-- The scope that a node opens. -/
def scopeOf? (a : Arena) (id : NodeId) : Option ScopeId := (a.form? id).bind Form.scope?

/-- The scope of a node is that of its form. -/
theorem scopeOf?_of_form? (h : a.form? id = some form) : a.scopeOf? id = form.scope? := by
  rw [scopeOf?, h, Option.bind_some]

/-- What opens a scope is a node. -/
theorem exists_form?_of_scopeOf? (h : a.scopeOf? id = some t) :
    ∃ form, a.form? id = some form ∧ form.scope? = some t :=
  Option.bind_eq_some_iff.1 h

/-- No two nodes open the same scope, and the scopes that nodes open exist. -/
structure ScopesApart (a : Arena) : Prop where
  index_lt : ∀ p t, a.scopeOf? p = some t → t.index < a.scopes.size
  eq_of_scopeOf? : ∀ p q t, a.scopeOf? p = some t → a.scopeOf? q = some t → p = q

/-- In the empty arena no node opens a scope. -/
theorem scopesApart_empty : empty.ScopesApart := by
  constructor
  · intro p t h
    cases h
  · intro p q t h
    cases h

/-- A scope that can be looked up exists. -/
theorem index_lt_of_get {s : Scopes} {scope : Scope} (h : s.get t = .ok scope) :
    t.index < s.size := by
  unfold Scopes.get at h
  split at h
  · rename_i found
    exact (Array.getElem?_eq_some_iff.1 found).1
  · cases h

/-- The scopes of older nodes are what they were, and the new node opens that of its form. -/
theorem Made.scopeOf?_eq (h : a.Made form b) (p : NodeId) :
    b.scopeOf? p = if p = ⟨a.size⟩ then form.scope? else a.scopeOf? p := by
  by_cases hp : p = ⟨a.size⟩
  · rw [if_pos hp, hp]
    exact scopeOf?_of_form? h.form?_new
  · rw [if_neg hp]
    by_cases hlt : p.index < a.size
    · rw [scopeOf?, h.form?_eq p hlt, scopeOf?]
    · have hle : b.size ≤ p.index := by
        rw [h.size_eq]
        exact Nat.lt_of_le_of_ne (Nat.le_of_not_lt hlt) fun e =>
          hp (by cases p; exact congrArg _ e.symm)
      rw [scopeOf?, (b.form?_eq_none_iff p).2 hle, scopeOf?,
        (a.form?_eq_none_iff p).2 (Nat.le_of_not_lt hlt)]

/-- A new node that opens a scope of its own. -/
theorem Made.apart (h : a.Made form b) (ha : a.ScopesApart)
    (hnew : ∀ t, form.scope? = some t → t.index < a.scopes.size ∧ ∀ p, a.scopeOf? p ≠ some t) :
    b.ScopesApart := by
  refine ⟨fun p t hp => ?_, fun p q t hp hq => ?_⟩
  · rw [h.scopeOf?_eq] at hp
    rw [h.scopeCount_eq]
    split at hp
    · exact (hnew t hp).1
    · exact ha.index_lt p t hp
  · rw [h.scopeOf?_eq] at hp hq
    split at hp <;> split at hq
    · rename_i hp' hq'
      exact hp'.trans hq'.symm
    · exact absurd hq ((hnew t hp).2 q)
    · exact absurd hp ((hnew t hq).2 p)
    · exact ha.eq_of_scopeOf? p q t hp hq

/-! ## Scopes that mirror a tree -/

/-- The scopes below a node mirror the tree, where `outer` is the scope around the node. -/
inductive Mirrors (a : Arena) : Option ScopeId → NodeId → Prop
  | intro {outer : Option ScopeId} {id : NodeId} {form : Form} (form? : a.form? id = some form)
    (scope : ∀ t, form.scope? = some t → ∃ scope, a.scopes.get t = .ok scope ∧
      scope.parent = outer ∧ ∀ name, scope.find? name = a.firstNamed? form.children name)
    (children : ∀ child ∈ form.children, Mirrors a (form.scope?.or outer) child) :
    Mirrors a outer id

namespace Mirrors

/-- The children of a node below which scopes mirror the tree exist. -/
theorem index_lt_of_mem_children {child : NodeId} (h : a.Mirrors outer id)
    (hc : child ∈ a.children id) : child.index < a.size := by
  obtain ⟨hform, -, hchildren⟩ := h
  rw [Arena.children, hform, Option.elim_some] at hc
  obtain ⟨hform', -, -⟩ := hchildren child hc
  exact index_lt_of_form? hform'

/-- An arena that keeps the forms of nodes and the scopes that nodes open. -/
theorem mono (h : a.Mirrors outer id)
    (hform : ∀ id form, a.form? id = some form → b.form? id = some form)
    (hscope : ∀ id t scope, a.scopeOf? id = some t → a.scopes.get t = .ok scope →
      b.scopes.get t = .ok scope) : b.Mirrors outer id := by
  have hsame (c : NodeId) (hc : c.index < a.size) : b.form? c = a.form? c := by
    cases hf : a.form? c with
    | some form => exact hform c form hf
    | none => exact absurd hc (Nat.not_lt_of_le ((a.form?_eq_none_iff c).1 hf))
  induction h with
  | intro hf hs hchildren ih =>
    refine .intro (hform _ _ hf) (fun t ht => ?_) ih
    obtain ⟨scope, hget, hparent, hfind⟩ := hs t ht
    refine ⟨scope, hscope _ t scope ((scopeOf?_of_form? hf).trans ht) hget, hparent, fun name => ?_⟩
    rw [hfind]
    refine (firstNamed?_congr (fun c hc => ?_) name).symm
    have hmirrors := hchildren c hc
    have hlt : c.index < a.size := by
      obtain ⟨hform', -, -⟩ := hmirrors
      exact index_lt_of_form? hform'
    exact definitionName_congr (hsame c hlt) fun d hd =>
      hsame d (hmirrors.index_lt_of_mem_children hd)

/-- An arena that grows goes on mirroring. -/
theorem grows (h : a.Mirrors outer id) (hg : Grows a a b) : b.Mirrors outer id :=
  h.mono (fun _ _ => hg.form?_eq_some) fun _ _ _ _ hget =>
    (hg.scope_eq _ (index_lt_of_get hget)).trans hget

end Mirrors

/-- A new node over nodes whose scopes mirror the tree.  The scope that it opens must be empty and
must not be that of another node. -/
theorem Made.mirrors (h : a.Made form b)
    (hnew : ∀ t, form.scope? = some t → a.scopes.get t = .ok ⟨[], outer⟩ ∧
      ∀ p, a.scopeOf? p ≠ some t)
    (hchildren : ∀ child ∈ form.children, a.Mirrors (form.scope?.or outer) child) :
    b.Mirrors outer ⟨a.size⟩ := by
  refine .intro h.form?_new (fun t ht => ?_) fun child hchild => ?_
  · obtain ⟨scope, hget, hempty, hfind⟩ := h.bound t ht
    refine ⟨scope, hget, ?_, hfind⟩
    have hsame := hempty.symm.trans (hnew t ht).1
    exact (Scope.mk.inj (Except.ok.inj hsame)).2
  · refine (hchildren child hchild).mono (fun p form hp => ?_) fun p t scope hp hget => ?_
    · exact (h.form?_eq p (index_lt_of_form? hp)).trans hp
    · refine (h.scope_eq t fun ht => ?_).trans hget
      exact (hnew t ht).2 p hp

end ExprLang.Arena
