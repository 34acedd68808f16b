import ExprLang.Proofs.Parser.Entry
import Mathlib.Data.List.Perm.Subperm

/-!
# Looking up names

The scopes of a parsed tree mirror it, whether or not there were errors.  No two
nodes open the same scope, the scope around the scope of a node is that of the
nearest node above it that opens one, and looking up a name finds what a walk
from the node to the root finds: the first item of a list that defines the name,
at the nearest node that has one.

Main definitions:

- Definition {lit}`Arena.Reaches`: the nodes of a tree, with the nodes above them.
- Definition {lit}`Arena.Lineage`: a walk towards the root along which scopes are
  inside each other.
- Definition {lit}`Arena.LexicallyScoped`: scopes mirror the tree at a root, and
  looking up a name follows the tree.

Main results:

- Theorem {lit}`Arena.Reaches.descends`: every walk to the root of a tree is one.
- Theorem {lit}`Arena.Lineage.find_eq`: looking a name up follows such a walk.
- Theorem {lit}`Parser.scopes_mirror_tree`: the scopes of a parsed tree.
-/

namespace ExprLang

/-! ## Items of lists -/

/-- The nodes in a field that is a list. -/
def ChildGroup.items : ChildGroup → List NodeId
  | .slot _ => []
  | .list items => items

/-- The nodes in the lists of a form. -/
def Form.items (form : Form) : List NodeId := form.childGroups.flatMap ChildGroup.items

namespace Tree

variable {role : Role} {tree : Tree}

/-- Only statements, arguments and functions define names. -/
theorem Written.definedName_eq_none (h : Written role tree) (hs : role ≠ .statement)
    (ha : role ≠ .argument) (hf : role ≠ .function) : tree.definedName = none := by
  cases h <;> first | rfl | contradiction

/-- Names are defined in lists only, and by the children of trees that open a scope only. -/
theorem Written.nameless (h : Written role tree) :
    List.Forall₂ (fun group trees => group.isSlot = true ∨ tree.shape.scope? = none →
      ∀ child ∈ trees, child.definedName = none) tree.shape.childGroups tree.groups := by
  have hexpression {child : Tree} (hc : Written .expression child) : child.definedName = none :=
    hc.definedName_eq_none (by decide) (by decide) (by decide)
  have hentry {child : Tree} (hc : Written .importEntry child) : child.definedName = none :=
    hc.definedName_eq_none (by decide) (by decide) (by decide)
  cases h <;>
    simp only [shape, groups, Form.childGroups, List.forall₂_cons, List.forall₂_nil_left_iff,
      and_true, Form.scope?, ChildGroup.isSlot, Bool.false_eq_true, reduceCtorEq, or_true, or_false,
      false_implies, forall_const, List.mem_singleton, forall_eq, Option.mem_toList]
  all_goals try and_intros
  all_goals first
    | trivial
    | exact hexpression (by assumption)
    | exact fun child hc => hexpression (by solve_by_elim)
    | exact fun child hc => hentry (by solve_by_elim)

end Tree

namespace Arena

variable {a : Arena} {id root n : NodeId} {above path : List NodeId} {form : Form} {role : Role}
  {tree : Tree} {name : String}

/-- The first node in the lists of a node that defines a name. -/
def firstItem? (a : Arena) (name : String) (id : NodeId) : Option NodeId :=
  (a.form? id).bind fun form => a.firstNamed? form.items name

/-- Nodes that define no name are passed over. -/
theorem firstNamed?_eq_none {nodes : List NodeId}
    (h : ∀ node ∈ nodes, a.definitionName node = none) (name : String) :
    a.firstNamed? nodes name = none := by
  rw [firstNamed?, List.find?_eq_none]
  intro node hnode
  simp [h node hnode]

/-- Where the children in slots define no names, the first child with a name is in a list; and there
is none if those in lists define no names either. -/
theorem firstNamed?_flatMap {groups : List ChildGroup} {plain : Prop}
    (h : ∀ group ∈ groups, group.isSlot = true ∨ plain →
      ∀ child ∈ group.children, a.definitionName child = none) (name : String) :
    a.firstNamed? (groups.flatMap ChildGroup.children) name =
        a.firstNamed? (groups.flatMap ChildGroup.items) name ∧
      (plain → a.firstNamed? (groups.flatMap ChildGroup.items) name = none) := by
  induction groups with
  | nil => exact ⟨rfl, fun _ => rfl⟩
  | cons group groups ih =>
    obtain ⟨heq, hnone⟩ := ih fun g hg => h g (List.mem_cons_of_mem _ hg)
    have hgroup := h group (List.mem_cons_self ..)
    rw [firstNamed?, firstNamed?] at heq
    rw [firstNamed?] at hnone
    simp only [List.flatMap_cons, firstNamed?, List.find?_append, heq]
    cases group with
    | slot child =>
      have hslot := firstNamed?_eq_none (hgroup (.inl rfl)) name
      rw [firstNamed?] at hslot
      rw [hslot]
      exact ⟨rfl, hnone⟩
    | list items =>
      refine ⟨rfl, fun hp => ?_⟩
      have hlist := firstNamed?_eq_none (hgroup (.inr hp)) name
      rw [firstNamed?] at hlist
      show (List.find? _ items).or _ = none
      rw [show List.find? _ items = none from hlist, hnone hp]
      rfl

/-- Lists of pairs of a kind that are of another kind too. -/
theorem forall₂_and {α β : Type} {r s : α → β → Prop} {xs : List α} {ts : List β}
    (h : List.Forall₂ r xs ts) (h' : List.Forall₂ s xs ts) :
    List.Forall₂ (fun x t => r x t ∧ s x t) xs ts := by
  induction h with
  | nil => exact .nil
  | cons hx _ ih =>
    cases h' with
    | cons hx' h' => exact .cons ⟨hx, hx'⟩ (ih h')

/-- A node that stands for a tree of the language finds the names of its children in its lists, and
finds none there if it opens no scope. -/
theorem Denotes.firstNamed?_children (h : a.Denotes id tree) (hw : Tree.Written role tree)
    (hf : a.form? id = some form) (name : String) :
    a.firstNamed? form.children name = a.firstItem? name id ∧
      (form.scope? = none → a.firstItem? name id = none) := by
  obtain ⟨hbare, -, hgroups⟩ := h.children hf
  have hitem : a.firstItem? name id = a.firstNamed? form.items name := by
    rw [firstItem?, hf, Option.bind_some]
  have hscope : tree.shape.scope? = none ↔ form.scope? = none := by
    rw [← hbare, ← Option.not_isSome_iff_eq_none, Form.isSome_scope?_bare,
      Option.not_isSome_iff_eq_none]
  have hslots : List.Forall₂ (fun flag trees => flag = true ∨ form.scope? = none →
      ∀ child ∈ trees, child.definedName = none)
      (form.childGroups.map ChildGroup.isSlot) tree.groups := by
    rw [← Form.isSlot_childGroups_bare, hbare, List.forall₂_map_left_iff, ← hscope]
    exact hw.nameless
  rw [hitem]
  refine firstNamed?_flatMap (fun group hgroup hplain child hchild => ?_) name
  rw [List.forall₂_map_left_iff] at hgroups hslots
  refine forall_of_forall₂ (forall₂_and hgroups hslots) (p := fun group =>
    group.isSlot = true ∨ form.scope? = none →
      ∀ child ∈ group.children, a.definitionName child = none) ?_ group hgroup hplain child hchild
  rintro group trees ⟨hkept, hnameless⟩ hplain
  refine forall_of_forall₂ (forall₂_imp_of_mem hkept fun child _ tree htree hd =>
    (⟨hd, hnameless hplain tree htree⟩ : a.Denotes child tree ∧ tree.definedName = none)) ?_
  rintro child tree ⟨hd, hnone⟩
  rw [hd.definitionName_eq, hnone]

/-! ## Walks to the root -/

/-- The nodes of the tree at a root, each with the nodes above it, the nearest first. -/
inductive Reaches (a : Arena) (root : NodeId) : List NodeId → NodeId → Prop
  | root : Reaches a root [] root
  | child {above : List NodeId} {id child : NodeId} {form : Form} (h : Reaches a root above id)
    (form? : a.form? id = some form) (mem : child ∈ form.children) :
    Reaches a root (id :: above) child

/-- Nodes whose scopes are inside each other, the innermost first.  A scope binds the first items
with a name of its node; a node without a scope has no items with a name. -/
inductive Lineage (a : Arena) : List NodeId → Prop
  | nil : Lineage a []
  | cons {id : NodeId} {above : List NodeId}
    (scope : ∀ t, a.scopeOf? id = some t → ∃ scope, a.scopes.get t = .ok scope ∧
      scope.parent = above.findSome? a.scopeOf? ∧ ∀ name, scope.find? name = a.firstItem? name id)
    (plain : a.scopeOf? id = none → ∀ name, a.firstItem? name id = none)
    (rest : Lineage a above) : Lineage a (id :: above)

/-- A node that stands for a tree comes before the nodes above it. -/
theorem Lineage.of_denotes (h : a.Denotes id tree) (hw : Tree.Written role tree)
    (hm : a.Mirrors (path.findSome? a.scopeOf?) id) (hpath : a.Lineage path) :
    a.Lineage (id :: path) := by
  obtain ⟨hform, hscope, -⟩ := hm
  rename_i form
  refine .cons (fun t ht => ?_) (fun hnone name => ?_) hpath
  · rw [scopeOf?_of_form? hform] at ht
    obtain ⟨scope, hget, hparent, hfind⟩ := hscope t ht
    refine ⟨scope, hget, hparent, fun name => ?_⟩
    rw [hfind, (h.firstNamed?_children hw hform name).1]
  · rw [scopeOf?_of_form? hform] at hnone
    exact (h.firstNamed?_children hw hform name).2 hnone

/-- What is known of a node with the nodes above it. -/
structure Descends (a : Arena) (above : List NodeId) (n : NodeId) : Prop where
  denotes : ∃ role tree, a.Denotes n tree ∧ Tree.Written role tree
  mirrors : a.Mirrors (above.findSome? a.scopeOf?) n
  lineage : a.Lineage (n :: above)
  ordered : (n :: above).Pairwise (·.index < ·.index)

/-- In a tree whose scopes mirror it every walk goes to the root. -/
theorem Reaches.descends (h : a.Reaches root above n) (hd : a.Denotes root tree)
    (hw : Tree.Written role tree) (hm : a.Mirrors none root) : a.Descends above n := by
  induction h with
  | root => exact ⟨⟨role, tree, hd, hw⟩, hm, .of_denotes hd hw hm .nil, List.pairwise_singleton ..⟩
  | @child above id child form _ hform hmem ih =>
    obtain ⟨⟨role', tree', hd', hw'⟩, hm', hlineage, hordered⟩ := ih
    obtain ⟨-, holder, hgroups⟩ := hd'.children hform
    have hchild : a.Mirrors ((id :: above).findSome? a.scopeOf?) child := by
      obtain ⟨hform', -, hchildren⟩ := hm'
      cases hform.symm.trans hform'
      have hc := hchildren child hmem
      rw [List.findSome?_cons, scopeOf?_of_form? hform]
      cases hs : form.scope? <;> simpa [hs] using hc
    have hdenotes : ∃ role tree, a.Denotes child tree ∧ Tree.Written role tree := by
      rw [Form.children_eq_flatten] at hmem
      refine forall_of_forall₂ (p := fun child => ∃ role tree, a.Denotes child tree ∧
        Tree.Written role tree) (forall₂_imp_of_mem (List.rel_flatten hgroups)
        fun child _ tree htree hd => (⟨hd, htree⟩ : a.Denotes child tree ∧ tree ∈ tree'.children))
        ?_ child hmem
      rintro child tree ⟨hd, htree⟩
      obtain ⟨role, hw⟩ := hw'.exists_of_mem_children htree
      exact ⟨role, tree, hd, hw⟩
    obtain ⟨role'', tree'', hd'', hw''⟩ := hdenotes
    refine ⟨⟨role'', tree'', hd'', hw''⟩, hchild, .of_denotes hd'' hw'' hchild hlineage, ?_⟩
    refine List.pairwise_cons.2 ⟨fun other ho => ?_, hordered⟩
    have hlt := holder child hmem
    rcases List.mem_cons.1 ho with rfl | ho
    · exact hlt
    · exact Nat.lt_trans hlt ((List.pairwise_cons.1 hordered).1 other ho)

/-- The scopes of the nodes at a root mirror the tree. -/
structure LexicallyScoped (a : Arena) (root : NodeId) : Prop where
  /-- No two nodes of the tree open the same scope. -/
  eq_of_scopeOf? : ∀ above above' p q t, a.Reaches root above p → a.Reaches root above' q →
    a.scopeOf? p = some t → a.scopeOf? q = some t → p = q
  /-- The scope around that of a node is the one of the nearest node above it that opens one. -/
  parent_eq : ∀ above n t, a.Reaches root above n → a.scopeOf? n = some t →
    ∃ scope, a.scopes.get t = .ok scope ∧ scope.parent = above.findSome? a.scopeOf?
  /-- Looking a name up in the scope of a node finds the first item that defines the name at the
  nearest node, from that node upwards, that has such an item. -/
  find_eq : ∀ above n t, a.Reaches root above n → a.scopeOf? n = some t →
    ∀ name, a.scopes.find t name = .ok ((n :: above).findSome? (a.firstItem? name))

/-! ## Looking up -/

namespace Lineage

/-- Where no node opens a scope nothing is found. -/
theorem findSome?_eq_none (h : a.Lineage path) (hnone : path.findSome? a.scopeOf? = none)
    (name : String) : path.findSome? (a.firstItem? name) = none := by
  induction h with
  | nil => rfl
  | cons _ hplain _ ih =>
    rw [List.findSome?_cons] at hnone
    split at hnone
    · cases hnone
    · rename_i hs
      rw [List.findSome?_cons, hplain hs name]
      exact ih hnone

/-- Looking a name up goes from scope to scope and finds the first item with that name. -/
theorem findWithin_eq (h : a.Lineage path) (name : String) {t : ScopeId} {bound : Nat}
    (ht : path.findSome? a.scopeOf? = some t)
    (hbound : (path.filterMap a.scopeOf?).length ≤ bound) :
    a.scopes.findWithin name bound t = .ok (path.findSome? (a.firstItem? name)) := by
  induction h generalizing t bound with
  | nil => cases ht
  | @cons id rest hscope hplain hrest ih =>
    rw [List.findSome?_cons] at ht
    cases hs : a.scopeOf? id with
    | none =>
      rw [hs] at ht
      rw [List.filterMap_cons, hs] at hbound
      rw [List.findSome?_cons, hplain hs name]
      exact ih ht hbound
    | some s =>
      rw [hs] at ht
      rw [List.filterMap_cons, hs, List.length_cons] at hbound
      cases ht
      obtain ⟨scope, hget, hparent, hfind⟩ := hscope t hs
      cases bound with
      | zero => exact absurd hbound (Nat.not_succ_le_zero _)
      | succ bound =>
        rw [List.findSome?_cons, ← hfind]
        cases hn : scope.find? name with
        | some node => simp only [Scopes.findWithin, hget, hn, bind, Except.bind]; rfl
        | none =>
          cases hp : rest.findSome? a.scopeOf? with
          | none =>
            rw [hp] at hparent
            rw [hrest.findSome?_eq_none hp name]
            simp only [Scopes.findWithin, hget, hn, hparent, bind, Except.bind]
            rfl
          | some parent =>
            rw [hp] at hparent
            simp only [Scopes.findWithin, hget, hn, hparent, bind, Except.bind]
            exact ih hp (Nat.le_of_succ_le_succ hbound)

/-- Scopes that different nodes open are no more than there are. -/
theorem length_filterMap_le (hapart : a.ScopesApart)
    (hordered : path.Pairwise (·.index < ·.index)) :
    (path.filterMap a.scopeOf?).length ≤ a.scopes.size := by
  have hnodup : ((path.filterMap a.scopeOf?).map ScopeId.index).Nodup := by
    rw [List.nodup_iff_pairwise_ne, List.pairwise_map, List.pairwise_filterMap]
    refine hordered.imp fun {p q} hlt t ht u hu he => ?_
    have hsame : t = u := by
      cases t
      cases u
      exact congrArg _ he
    subst hsame
    cases hapart.eq_of_scopeOf? p q t ht hu
    exact Nat.lt_irrefl _ hlt
  have hsubset : (path.filterMap a.scopeOf?).map ScopeId.index ⊆ List.range a.scopes.size := by
    intro i hi
    obtain ⟨t, ht, rfl⟩ := List.mem_map.1 hi
    obtain ⟨p, -, hp⟩ := List.mem_filterMap.1 ht
    exact List.mem_range.2 (hapart.index_lt p t hp)
  simpa using (List.Nodup.subperm hnodup hsubset).length_le

/-- Looking a name up in the scope of a node follows the walk from that node to the root. -/
theorem find_eq (h : a.Lineage (n :: above)) (hapart : a.ScopesApart)
    (hordered : (n :: above).Pairwise (·.index < ·.index)) {t : ScopeId}
    (ht : a.scopeOf? n = some t) (name : String) :
    a.scopes.find t name = .ok ((n :: above).findSome? (a.firstItem? name)) := by
  refine h.findWithin_eq name ?_ (Nat.le_succ_of_le (length_filterMap_le hapart hordered))
  rw [List.findSome?_cons, ht]

end Lineage

end Arena

/-! ## Parsed trees -/

namespace Parser

/-- A rule that answers with the root of a tree. -/
inductive RootRule where
  | expression (min : Precedence)
  | statement
  | compilationUnit
  /-- The rule for a whole source. -/
  | entry (e : Entry)
deriving DecidableEq, Repr

namespace RootRule

/-- The parser of a rule. -/
def parser : RootRule → Parser NodeId
  | expression min => Parser.expression min
  | statement => Parser.statement
  | compilationUnit => Parser.compilationUnit
  | entry e => Parser.entry e

/-- The arena and the root with which a rule answers for a source. -/
def tree? (rule : RootRule) (text description : String) (options : ParseOptions) :
    Option (Arena × NodeId) :=
  match rule.parser (.ofText text description options) with
  | .ok root s => some (s.arena, root)
  | .error _ _ => none

/-- The sort of the trees that a rule builds. -/
def role : RootRule → Role
  | expression _ => .expression
  | statement => .statement
  | compilationUnit => .unit
  | entry e => e.role

/-- What such a rule answers with stands for a tree of its sort, whose scopes mirror it. -/
theorem builds (rule : RootRule) {s : ParserState} (hs : s.Valid) :
    rule.parser.Ensures s
      (fun id t => ParserState.Leads s.arena s t ∧ ∃ tree, Built s.arena t rule.role id tree)
      fun _ _ => True := by
  have hgives {role : Role} {p : Parser NodeId} {r : Reader Tree} (h : Gives role p r s) :
      p.Ensures s (fun id t => ParserState.Leads s.arena s t ∧ ∃ tree, Built s.arena t role id tree)
        fun _ _ => True :=
    Ensures.mono h (fun _ _ ⟨hl, tree, hbuilt, _⟩ => ⟨hl, tree, hbuilt⟩) fun _ _ _ => trivial
  have huses {role : Role} {p : Parser NodeId} {r : Reader Tree} (h : Uses role p r s) :
      Gives role p r s := h.mono fun _ _ _ _ h => h.1
  cases rule with
  | expression min => exact hgives (huses (expression_simulates min hs))
  | statement => exact hgives (huses (statement_simulates hs))
  | compilationUnit => exact hgives (compilationUnit_simulates hs)
  | entry e => exact hgives (entry_simulates e hs)

/-- What such a rule answers with stands for a tree, whose scopes mirror it. -/
theorem built (rule : RootRule) {s : ParserState} (hs : s.Valid) :
    ∃ role, rule.parser.Ensures s
      (fun id t => ParserState.Leads s.arena s t ∧ ∃ tree, Built s.arena t role id tree)
      fun _ _ => True :=
  ⟨rule.role, rule.builds hs⟩

/-- A rule answers for a source with a free node that stands for a tree of its sort, with which the
scopes agree. -/
theorem exists_of_tree? {rule : RootRule} {text description : String} {options : ParseOptions}
    {a : Arena} {root : NodeId} (h : rule.tree? text description options = some (a, root)) :
    ∃ t tree, rule.parser (.ofText text description options) = .ok root t ∧ t.arena = a ∧
      a.Denotes root tree ∧ Tree.Written rule.role tree ∧ a.Free root ∧ a.Mirrors none root := by
  have hs : (ParserState.ofText text description options).Valid := ParserState.valid_ofText
  unfold tree? at h
  split at h
  · rename_i id t hrun
    cases h
    obtain ⟨hl, tree, hkept, hwritten⟩ := Ensures.of_eq_ok (rule.builds hs) hrun
    have hmirrors := hkept.mirrors
    rw [hl.scopes] at hmirrors
    exact ⟨t, tree, hrun, rfl, hkept.denotes, hwritten, hkept.free, hmirrors⟩
  · cases h

end RootRule

/-- The tree that a rule answers with is lexically scoped, whatever errors there were. -/
theorem scopes_mirror_tree {rule : RootRule} {text description : String} {options : ParseOptions}
    {a : Arena} {root : NodeId} (h : rule.tree? text description options = some (a, root)) :
    a.LexicallyScoped root := by
  have hs : (ParserState.ofText text description options).Valid := ParserState.valid_ofText
  obtain ⟨role, hbuilt⟩ := rule.built hs
  unfold RootRule.tree? at h
  split at h
  · rename_i id t hrun
    cases h
    obtain ⟨hl, tree, hkept, hwritten⟩ := Ensures.of_eq_ok hbuilt hrun
    have hmirrors : t.arena.Mirrors none root := by
      have hm := hkept.mirrors
      rwa [hl.scopes] at hm
    refine ⟨fun _ _ p q s _ _ => hl.valid.apart.eq_of_scopeOf? p q s, fun above n s hn hscope => ?_,
      fun above n s hn hscope => ?_⟩
    · have hd := hn.descends hkept.denotes hwritten hmirrors
      cases hd.lineage with
      | cons hscopes _ _ =>
        obtain ⟨scope, hget, hparent, -⟩ := hscopes s hscope
        exact ⟨scope, hget, hparent⟩
    · have hd := hn.descends hkept.denotes hwritten hmirrors
      exact hd.lineage.find_eq hl.valid.apart hd.ordered hscope
  · cases h

/-- A block inside another one, after a statement with an error: its scope has no variable, so that
the one of the outer block is found. -/
theorem scopes_mirror_tree_block : ∃ a root,
    (RootRule.expression .lowest).tree? "{val x=1;val;{x}}" "" {} = some (a, root) ∧
      a.scopes.find ⟨1⟩ "x" = .ok (some ⟨1⟩) ∧ a.LexicallyScoped root := by
  have hsome : ((RootRule.expression .lowest).tree? "{val x=1;val;{x}}" "" {}).any (fun p =>
      (p.1.scopes.find ⟨1⟩ "x").toOption == some (some ⟨1⟩)) = true := by decide +kernel
  obtain ⟨p, htree, hfind⟩ := (Option.any_eq_true _ _).1 hsome
  refine ⟨p.1, p.2, htree, ?_, scopes_mirror_tree htree⟩
  cases hp : p.1.scopes.find ⟨1⟩ "x" with
  | error f => simp [hp, Except.toOption] at hfind
  | ok found => simpa [hp, Except.toOption] using hfind

end Parser

end ExprLang
