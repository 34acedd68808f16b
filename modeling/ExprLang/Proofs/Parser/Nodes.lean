import ExprLang.Proofs.Parser.Primitives
import ExprLang.Proofs.Reader.Rules
import ExprLang.Proofs.Tree.Written

/-!
# Nodes and trees

A rule that builds a node does what a reader does that answers with a tree.  The
node is free, newer than everything that was there when the rule began, and
stands for the tree; the tree is tidy if no error has been recorded.  The scopes
below the node mirror the tree; the innermost open scope is around them.

Main definitions:

- Definition {lit}`Parser.Kept`: a node and the tree it stands for.
- Definition {lit}`Parser.Built`: a node and its tree, which is of some sort.

Main results:

- Theorem {lit}`Parser.Simulates.make`: building a node without a scope.
- Theorem {lit}`Parser.Simulates.makeTidied`: building a node with a scope and
  reporting the redefinitions.
- Theorem {lit}`Parser.Simulates.inScope`: rules inside a new scope.
-/

namespace ExprLang.Parser

open ParserState

variable {base base' : Arena} {s t u : ParserState} {id : NodeId} {tree : Tree}

/-! ## Kept nodes -/

/-- A free node that is not part of `base` stands for a tree, which is tidy if no error has been
recorded; the innermost open scope is around the scopes below it. -/
structure Kept (base : Arena) (t : ParserState) (id : NodeId) (tree : Tree) : Prop where
  denotes : t.arena.Denotes id tree
  free : t.arena.Free id
  fresh : base.size ≤ id.index
  tidy : t.NoErrors → tree.Tidy
  mirrors : t.arena.Mirrors t.scopes.head? id

namespace Kept

/-- A kept node exists. -/
theorem index_lt (h : Kept base t id tree) : id.index < t.arena.size := h.denotes.index_lt

/-- A kept node is still kept after what another rule does. -/
theorem later (h : Kept base t id tree) (hl : Leads t.arena t u) : Kept base u id tree where
  denotes := h.denotes.grows hl.grows
  free := h.free.mono hl.grows h.index_lt
  fresh := h.fresh
  tidy hu := h.tidy (hl.noErrors hu)
  mirrors := hl.scopes ▸ h.mirrors.grows hl.grows

/-- What is newer than more is newer than less. -/
theorem weaken (h : Kept base' t id tree) (hb : base'.Holds base) : Kept base t id tree :=
  { h with fresh := Nat.le_trans hb.size_le h.fresh }

/-- The form of a kept node, which is that of its tree apart from the children. -/
theorem exists_formOf (h : Kept base t id tree) :
    ∃ form, formOf id t = .ok form t ∧ form.bare = tree.shape := by
  obtain ⟨hform, hbare, -, -⟩ := h.denotes
  obtain ⟨node, hnode, rfl⟩ := Option.map_eq_some_iff.1 hform
  refine ⟨node.form, ?_, hbare⟩
  have hok : t.arena.form id = .ok node.form := by
    rw [Arena.form, Arena.node, hnode]
    rfl
  unfold formOf
  refine (bind_eq_of_eq_ok (p := get) (a := t) (t := t) rfl).trans ?_
  rw [hok]
  rfl

end Kept

/-- Kept nodes in the order in which they were built. -/
structure KeptAll (base : Arena) (t : ParserState) (ids : List NodeId) (trees : List Tree) :
    Prop where
  kept : List.Forall₂ (Kept base t) ids trees
  ordered : ids.Pairwise (·.index < ·.index)

namespace KeptAll

variable {ids : List NodeId} {trees : List Tree}

/-- No nodes. -/
theorem nil (base : Arena) (t : ParserState) : KeptAll base t [] [] := ⟨.nil, .nil⟩

/-- Kept nodes are still kept after what another rule does. -/
theorem later (h : KeptAll base t ids trees) (hl : Leads t.arena t u) :
    KeptAll base u ids trees :=
  ⟨h.kept.imp fun _ _ hk => hk.later hl, h.ordered⟩

/-- What is newer than more is newer than less. -/
theorem weaken (h : KeptAll base' t ids trees) (hb : base'.Holds base) :
    KeptAll base t ids trees :=
  ⟨h.kept.imp fun _ _ hk => hk.weaken hb, h.ordered⟩

/-- Kept nodes exist. -/
theorem index_lt (h : KeptAll base t ids trees) (hid : id ∈ ids) : id.index < t.arena.size := by
  obtain ⟨hkept, -⟩ := h
  exact Arena.forall_of_forall₂ hkept (fun _ _ hk => hk.index_lt) id hid

/-- A single node. -/
theorem singleton (h : Kept base t id tree) : KeptAll base t [id] [tree] :=
  ⟨.cons h .nil, List.pairwise_singleton ..⟩

/-- Nodes that are built later come last. -/
theorem append_all {ids' : List NodeId} {trees' : List Tree} (h : KeptAll base t ids trees)
    (hl : Leads t.arena t u) (h' : KeptAll t.arena u ids' trees') (hb : t.arena.Holds base) :
    KeptAll base u (ids ++ ids') (trees ++ trees') := by
  refine ⟨List.rel_append (h.later hl).kept (h'.weaken hb).kept, ?_⟩
  rw [List.pairwise_append]
  refine ⟨h.ordered, h'.ordered, fun x hx y hy => ?_⟩
  have hfresh := Arena.forall_of_forall₂ h'.kept (fun _ _ hk => hk.fresh) y hy
  exact Nat.lt_of_lt_of_le (h.index_lt hx) hfresh

/-- A node that is built later comes last. -/
theorem append (h : KeptAll base t ids trees) (hl : Leads t.arena t u)
    (hk : Kept t.arena u id tree) (hb : t.arena.Holds base) :
    KeptAll base u (ids ++ [id]) (trees ++ [tree]) :=
  h.append_all hl (.singleton hk) hb

/-- Nodes in the order in which they were built are different from each other. -/
theorem nodup (h : KeptAll base t ids trees) : ids.Nodup := by
  refine h.ordered.imp fun {x y} hlt he => ?_
  subst he
  exact Nat.lt_irrefl _ hlt

end KeptAll

/-- A node that stands for a tree of some sort. -/
structure Built (base : Arena) (t : ParserState) (role : Role) (id : NodeId) (tree : Tree) :
    Prop where
  kept : Kept base t id tree
  written : Tree.Written role tree

/-- Nodes that stand for trees of some sort, in the order in which they were built. -/
structure BuiltAll (base : Arena) (t : ParserState) (role : Role) (ids : List NodeId)
    (trees : List Tree) : Prop where
  kept : KeptAll base t ids trees
  written : ∀ tree ∈ trees, Tree.Written role tree

namespace BuiltAll

variable {role : Role} {ids : List NodeId} {trees : List Tree}

/-- No nodes. -/
theorem nil (base : Arena) (t : ParserState) (role : Role) : BuiltAll base t role [] [] :=
  ⟨.nil base t, nofun⟩

/-- Nodes stand for the same trees after what another rule does. -/
theorem later (h : BuiltAll base t role ids trees) (hl : Leads t.arena t u) :
    BuiltAll base u role ids trees :=
  { h with kept := h.kept.later hl }

/-- What is newer than more is newer than less. -/
theorem weaken (h : BuiltAll base' t role ids trees) (hb : base'.Holds base) :
    BuiltAll base t role ids trees :=
  { h with kept := h.kept.weaken hb }

/-- One more node. -/
theorem append (h : BuiltAll base t role ids trees) (hl : Leads t.arena t u)
    (hbuilt : Built t.arena u role id tree) (hb : t.arena.Holds base) :
    BuiltAll base u role (ids ++ [id]) (trees ++ [tree]) := by
  refine ⟨h.kept.append hl hbuilt.kept hb, fun other ho => ?_⟩
  rcases List.mem_append.1 ho with ho | ho
  · exact h.written other ho
  · rw [List.mem_singleton.1 ho]
    exact hbuilt.written

/-- The nodes and one more that may be missing. -/
theorem append_toList {id? : Option NodeId} {tree? : Option Tree}
    {R : NodeId → Tree → ParserState → Prop} {n : Nat} (h : BuiltAll base t role ids trees)
    (hl : Leads t.arena t u) (hsync : Simulates.SyncRel R n id? tree? u)
    (hrel : ∀ id tree, R id tree u → Built t.arena u role id tree) (hb : t.arena.Holds base) :
    BuiltAll base u role (ids ++ id?.toList) (trees ++ tree?.toList) := by
  match id?, tree? with
  | some id, some tree => exact h.append hl (hrel id tree hsync) hb
  | none, none =>
    rw [Option.toList_none, Option.toList_none, List.append_nil, List.append_nil]
    exact h.later hl
  | some _, none => exact hsync.elim
  | none, some _ => exact hsync.elim

end BuiltAll

/-- A rule that builds nodes of some sort does what a reader does. -/
abbrev Gives (role : Role) (p : Parser NodeId) (r : Reader Tree) (s : ParserState) : Prop :=
  p.Simulates s.arena r s fun id tree t => Built s.arena t role id tree

/-- So does a rule that uses up a word. -/
abbrev Uses (role : Role) (p : Parser NodeId) (r : Reader Tree) (s : ParserState) : Prop :=
  p.Simulates s.arena r s fun id tree t =>
    Built s.arena t role id tree ∧ t.remaining < s.remaining

/-- A rule and a reader for sources of fewer than `n` words. -/
def Within (role : Role) (n : Nat) (p : Parser NodeId) (r : Reader Tree) : Prop :=
  ∀ s, s.Valid → s.remaining < n → Uses role p r s

/-- A rule and a reader for the expressions in a source of fewer than `n` words. -/
def Expressions (n : Nat) (e : ExpressionRule) (e' : ExpressionReader) : Prop :=
  ∀ min, Within .expression n (e min) (e' min)

/-! ## New nodes -/

/-- A scope that is not part of `base`, binds no name yet and is not that of any node; the innermost
open scope is around it. -/
structure Opened (base : Arena) (t : ParserState) (scope : ScopeId) : Prop where
  fresh : base.scopes.size ≤ scope.index
  empty : t.arena.scopes.get scope = .ok ⟨[], t.scopes.head?⟩
  unowned : ∀ id, t.arena.scopeOf? id ≠ some scope

/-- A scope stays empty whatever rules do inside others. -/
theorem Opened.later {scope : ScopeId} (h : Opened base t scope) (hl : Leads t.arena t u) :
    Opened base u scope := by
  have hlt := Arena.index_lt_of_get h.empty
  refine ⟨h.fresh, ?_, fun id hid => ?_⟩
  · rw [hl.grows.scope_eq scope hlt, hl.scopes, h.empty]
  · obtain ⟨form, hform, hscope⟩ := Arena.exists_form?_of_scopeOf? hid
    by_cases hold : id.index < t.arena.size
    · rw [hl.grows.form?_eq id hold] at hform
      exact h.unowned id ((Arena.scopeOf?_of_form? hform).trans hscope)
    · have hnew := hl.grows.scope_new id form scope (Nat.le_of_not_lt hold) hform hscope
      exact absurd hlt (Nat.not_lt_of_le hnew)

/-- The nodes that a form names as its children stand for the children of a tree. -/
structure Shows (base : Arena) (s : ParserState) (form : Form) (tree : Tree) : Prop where
  bare : form.bare = tree.shape
  groups : List.Forall₂ (List.Forall₂ (Kept base s))
    (form.childGroups.map ChildGroup.children) tree.groups
  nodup : form.children.Nodup

/-- What a form shows stays whatever other rules do. -/
theorem Shows.later {form : Form} (h : Shows base s form tree) (hl : Leads s.arena s t) :
    Shows base t form tree :=
  { h with groups := h.groups.imp fun _ _ hg => hg.imp fun _ _ hk => hk.later hl }

/-- A form with one list of children, which are kept. -/
theorem Shows.of_list {form : Form} {ids : List NodeId} {trees : List Tree}
    (hbare : form.bare = tree.shape) (hf : form.childGroups = [.list ids])
    (ht : tree.groups = [trees]) (h : KeptAll base s ids trees) : Shows base s form tree := by
  refine ⟨hbare, ?_, ?_⟩
  · rw [hf, ht]
    exact .cons h.kept .nil
  · simpa [Form.children, hf, ChildGroup.children] using h.nodup

/-- What has become of a state when a node has been built. -/
structure Makes (base : Arena) (s : ParserState) (form : Form) (tree : Tree)
    (t : ParserState) : Prop where
  options : t.options = s.options
  scopes : t.scopes = s.scopes
  report : t.report = s.report
  tape : t.tape = s.tape
  grows : Arena.Grows base s.arena t.arena
  denotes : t.arena.Denotes ⟨s.arena.size⟩ tree
  free : t.arena.Free ⟨s.arena.size⟩
  mirrors : t.arena.Mirrors s.scopes.head? ⟨s.arena.size⟩
  apart : t.arena.ScopesApart
  redefinitions : t.arena.redefinitions = [] ↔
    form.scope? = none ∨ (Tree.definedNames tree.children).Nodup
  noted : ∀ r ∈ t.arena.redefinitions, r.duplicate.index < t.arena.size

/-- A node can be built over nodes that are kept while its scope is open, if it has one. -/
theorem exists_makes {form : Form} {inner : List ScopeId} (span : Span) (hs : s.Valid)
    (hb : s.arena.Holds base) (h : Shows base { s with scopes := inner } form tree)
    (hinner : inner.head? = form.scope?.or s.scopes.head?)
    (hscope : ∀ scope, form.scope? = some scope → Opened base s scope) :
    ∃ t, make form span s = .ok ⟨s.arena.size⟩ t ∧ Makes base s form tree t := by
  have hkept : List.Forall₂ (Kept base { s with scopes := inner }) form.children tree.children := by
    rw [Form.children_eq_flatten]
    exact List.rel_flatten h.groups
  obtain ⟨b, c, halloc, hset, hmade⟩ := Arena.exists_made span
    (Arena.forall_of_forall₂ hkept fun _ _ hk => hk.free) h.nodup
    (fun scope he => ⟨_, (hscope scope he).empty⟩) hs.redefinitions
  have hgrows : Arena.Grows base s.arena c := hmade.grows hb
    (Arena.forall_of_forall₂ hkept fun _ _ hk => hk.fresh) fun scope he => (hscope scope he).fresh
  have hform (id : NodeId) (form : Form) (hf : s.arena.form? id = some form) :
      c.form? id = some form := hgrows.form?_eq_some hf
  have hgroups : List.Forall₂ (List.Forall₂ c.Denotes)
      (form.childGroups.map ChildGroup.children) tree.groups :=
    h.groups.imp fun _ _ hg => hg.imp fun _ _ hk => hk.denotes.mono hform
  have hrun : make form span s = .ok ⟨s.arena.size⟩ { s with arena := c } := by
    unfold make
    refine (bind_eq_of_eq_ok (p := get) (a := s) (t := s) rfl).trans ?_
    refine (bind_eq_of_eq_ok (p := lift (s.arena.alloc form)) (t := s) (a := (⟨s.arena.size⟩, b))
      ?_).trans ?_
    · rw [halloc]
      rfl
    · refine (bind_eq_of_eq_ok (p := lift (b.setPosition ⟨s.arena.size⟩ span)) (t := s) (a := c)
        ?_).trans rfl
      rw [hset]
      rfl
  refine ⟨_, hrun, rfl, rfl, rfl, rfl, hgrows, ?_, ?_, ?_, ?_, ?_,
    fun _ => hmade.index_duplicate_lt⟩
  · refine .intro hmade.form?_new h.bare ?_ hgroups
    exact Arena.forall_of_forall₂ hkept fun _ _ hk => hk.index_lt
  · refine ⟨?_, hmade.parent?_new⟩
    show s.arena.size < c.size
    rw [hmade.size_eq]
    exact Nat.lt_succ_self _
  · refine hmade.mirrors (fun scope he => ⟨(hscope scope he).empty, (hscope scope he).unowned⟩) ?_
    rw [← hinner]
    exact Arena.forall_of_forall₂ hkept fun _ _ hk => hk.mirrors
  · exact hmade.apart hs.apart fun scope he =>
      ⟨Arena.index_lt_of_get (hscope scope he).empty, (hscope scope he).unowned⟩
  · have hnames : form.children.filterMap c.definitionName = Tree.definedNames tree.children := by
      rw [Form.children_eq_flatten]
      exact Arena.Denotes.filterMap_definitionName_eq (List.rel_flatten hgroups)
    rw [← hnames]
    exact hmade.redefinitions_eq_nil_iff

/-- A tree is tidy throughout if its root is and its children are kept. -/
theorem tidy_of_kept {ids : List NodeId} (hroot : tree.isTidy = true)
    (h : List.Forall₂ (Kept base s) ids tree.children) (hs : s.NoErrors) : tree.Tidy :=
  .intro hroot (Arena.forall_right_of_forall₂ h fun _ _ hk => hk.tidy hs)

/-- The children of a form are kept. -/
theorem Shows.children {form : Form} (h : Shows base s form tree) :
    List.Forall₂ (Kept base s) form.children tree.children := by
  rw [Form.children_eq_flatten]
  exact List.rel_flatten h.groups

/-- What holds of a state when a node has been built holds of the next state too. -/
theorem Makes.leads {form : Form} (h : Makes base s form tree t) (hs : s.Valid)
    (hr : t.arena.redefinitions = []) : Leads base s t := by
  refine ⟨h.options, h.scopes, h.grows, ?_, ?_, ?_, hr, h.apart⟩
  · rw [h.tape]
    exact .refl _
  · unfold NoErrors
    rw [h.report]
    exact id
  · rw [h.tape]
    exact hs.regular

/-- Building a node that opens no scope. -/
theorem Simulates.make {form : Form} {span : Span} (hs : s.Valid) (hb : s.arena.Holds base)
    (h : Shows base s form tree) (hscope : form.scope? = none) :
    (Parser.make form span).Simulates base (Pure.pure tree) s
      fun id tree' t => tree' = tree ∧ Kept base t id tree ∧ t.remaining = s.remaining := by
  have hshows : Shows base { s with scopes := s.scopes } form tree := h
  obtain ⟨t, hrun, hmakes⟩ := exists_makes span hs hb hshows
    (by rw [hscope, Option.none_or]) fun scope he => by
      rw [hscope] at he
      cases he
  have hlead : Leads base s t := hmakes.leads hs (hmakes.redefinitions.2 (.inl hscope))
  have hroot : tree.isTidy = true := by
    refine Tree.isTidy_of_scope? (Option.not_isSome_iff_eq_none.1 ?_)
    rw [← h.bare, Form.isSome_scope?_bare, hscope]
    exact Bool.false_ne_true
  refine ensures_of_eq_ok hrun ⟨hlead, tree, ⟨rfl, ?_, ?_⟩, fun _ => ⟨true, ?_, ?_⟩⟩
  · refine ⟨hmakes.denotes, hmakes.free, hb.size_le, fun ht => ?_, ?_⟩
    · exact tidy_of_kept hroot h.children (hlead.noErrors ht)
    · rw [hmakes.scopes]
      exact hmakes.mirrors
  · unfold remaining
    rw [hmakes.tape]
  · rw [show t.spot = s.spot from congrArg Tape.spot hmakes.tape]
    rfl
  · simp [NoErrors, hmakes.report]

/-- A form without a scope that shows a tree of some sort. -/
structure Formed (base : Arena) (s : ParserState) (role : Role) (form : Form) (tree : Tree) :
    Prop where
  shows : Shows base s form tree
  written : Tree.Written role tree
  scope?_eq : form.scope? = none

/-- Building a node for a tree of the language. -/
theorem Simulates.build {role : Role} {form : Form} {span : Span} (hs : s.Valid)
    (hb : s.arena.Holds base) (h : Formed base s role form tree) :
    (Parser.make form span).Simulates base (Pure.pure tree) s
      fun id tree t => Built base t role id tree ∧ t.remaining = s.remaining := by
  refine (make hs hb h.shows h.scope?_eq).mono fun id tree' t _ hk => ?_
  obtain ⟨rfl, hkept, hrem⟩ := hk
  exact ⟨⟨hkept, h.written⟩, hrem⟩

/-! ## Redefinitions -/

/-- Reporting a redefinition records an error about the node that repeats the name. -/
theorem record_redefinition_eq {redefinition : Redefinition}
    (h : redefinition.duplicate.index < s.arena.size) :
    (do
      let span ← spanOf redefinition.duplicate
      record (← errorAt .semantic span (.redefinition redefinition.name)) : Parser Unit) s =
        .ok () (s.recorded ⟨s.report.source, .error, .semantic,
          (s.arena.position? redefinition.duplicate).getD Span.zero,
          (Complaint.redefinition redefinition.name).message⟩) :=
  (bind_eq_of_eq_ok (spanOf_eq h)).trans rfl

/-- Reporting redefinitions records an error for each. -/
theorem reportRedefinitions_eq (s : ParserState)
    (hnodes : ∀ r ∈ s.arena.redefinitions, r.duplicate.index < s.arena.size) :
    ∃ report, reportRedefinitions s =
        .ok () { s with arena := { s.arena with redefinitions := [] }, report := report } ∧
      (report.errors = [] ↔ s.report.errors = [] ∧ s.arena.redefinitions = []) := by
  have hloop : ∀ (found : List Redefinition) (s : ParserState),
      (∀ r ∈ found, r.duplicate.index < s.arena.size) → ∃ report,
      (found.forM fun redefinition => do
        let span ← spanOf redefinition.duplicate
        record (← errorAt .semantic span (.redefinition redefinition.name)) : Parser Unit) s =
          .ok () { s with report := report } ∧
      (report.errors = [] ↔ s.report.errors = [] ∧ found = []) := by
    intro found
    induction found with
    | nil => intro s _; exact ⟨s.report, rfl, by simp⟩
    | cons redefinition found ih =>
      intro s hnodes
      obtain ⟨hnode, hnodes⟩ := List.forall_mem_cons.1 hnodes
      obtain ⟨report, hrun, herrors⟩ := ih (s.recorded _) hnodes
      refine ⟨report, (bind_eq_of_eq_ok (record_redefinition_eq hnode)).trans hrun, ?_⟩
      have hne := Simulates.errors_recordIn_ne_nil s.report (d := ⟨s.report.source, .error,
        .semantic, (s.arena.position? redefinition.duplicate).getD Span.zero,
        (Complaint.redefinition redefinition.name).message⟩) rfl
      exact herrors.trans (by simp [ParserState.recorded, hne])
  obtain ⟨report, hrun, herrors⟩ :=
    hloop s.arena.redefinitions { s with arena := { s.arena with redefinitions := [] } } hnodes
  exact ⟨report, hrun, herrors⟩

/-- Building a node that opens a scope, and reporting the names that are defined twice in it.  The
reader has found an error before if `before` is false. -/
theorem Simulates.makeTidied {form : Form} {span : Span} {before : Bool} {s₀ : ParserState}
    {scope : ScopeId} (hl : Leads base s₀ s) (hspot : s.spot = s₀.spot)
    (herrors : s.NoErrors ↔ s₀.NoErrors ∧ before = true) (hb : s.arena.Holds base)
    (h : Shows base { s with scopes := scope :: s.scopes } form tree)
    (hscope : form.scope? = some scope) (hopened : Opened base s scope)
    (htidy : tree.isTidy = (decide (Tree.definedNames tree.children).Nodup && before)) :
    (do
      let id ← Parser.make form span
      reportRedefinitions
      return id : Parser NodeId).Ensures s
      (fun id t => Leads base s₀ t ∧ ∃ tree', (tree' = tree ∧ Kept base t id tree ∧
        t.remaining = s₀.remaining) ∧ (s₀.Lenient → ∃ clean,
          Reader.tidied tree s₀.spot = ⟨some tree', clean, t.spot⟩ ∧
            (t.NoErrors ↔ s₀.NoErrors ∧ clean = true)))
      fun _ _ => False := by
  have hs := hl.valid
  obtain ⟨t, hrun, hmakes⟩ := exists_makes span hs hb h (by rw [hscope]; rfl) fun scope' he => by
    rw [hscope] at he
    cases he
    exact hopened
  obtain ⟨report, hreport, hreported⟩ := reportRedefinitions_eq t hmakes.noted
  let u : ParserState := { t with arena := { t.arena with redefinitions := [] }, report := report }
  have hnodup : t.arena.redefinitions = [] ↔ (Tree.definedNames tree.children).Nodup := by
    rw [hmakes.redefinitions]
    constructor
    · rintro (hnone | hnodup)
      · rw [hscope] at hnone
        cases hnone
      · exact hnodup
    · exact .inr
  have hclean : u.NoErrors ↔ s₀.NoErrors ∧ tree.isTidy = true := by
    have hu : u.NoErrors ↔ s.NoErrors ∧ (Tree.definedNames tree.children).Nodup := by
      rw [← hnodup]
      unfold NoErrors
      rw [← hmakes.report]
      exact hreported
    rw [hu, herrors, htidy, Bool.and_eq_true, decide_eq_true_eq, and_assoc,
      and_comm (a := before = true)]
  have hlead : Leads base s₀ u := by
    refine ⟨?_, ?_, ?_, ?_, fun hu => (hclean.1 hu).1, ?_, rfl, ?_⟩
    · exact hmakes.options.trans hl.options
    · exact hmakes.scopes.trans hl.scopes
    · have hg := hl.grows.trans hmakes.grows
      exact ⟨hg.size_le, hg.node?_eq, hg.form?_eq, hg.scopeCount_le, hg.scope_eq, hg.scope_new⟩
    · show s₀.tape.Moves t.tape
      rw [hmakes.tape]
      exact hl.moves
    · show t.tape.Regular
      rw [hmakes.tape]
      exact hs.regular
    · exact ⟨hmakes.apart.index_lt, hmakes.apart.eq_of_scopeOf?⟩
  have hmirrors : u.arena.Mirrors t.scopes.head? ⟨s.arena.size⟩ := by
    rw [hmakes.scopes]
    exact hmakes.mirrors.mono (fun _ _ => id) fun _ _ _ _ => id
  have hu : u.spot = s₀.spot := (congrArg Tape.spot hmakes.tape).trans hspot
  refine Ensures.bind (ensures_of_eq_ok hrun (And.intro rfl rfl))
    (M := fun id v => id = ⟨s.arena.size⟩ ∧ v = t) ?_
  rintro _ _ ⟨rfl, rfl⟩
  refine Ensures.bind (ensures_of_eq_ok hreport rfl) (M := fun _ v => v = u) ?_
  rintro _ _ rfl
  refine Ensures.pure ⟨hlead, tree, ⟨rfl, ?_, ?_⟩, fun _ => ⟨tree.isTidy, ?_, hclean⟩⟩
  · refine ⟨hmakes.denotes.mono fun _ _ => id, ⟨hmakes.free.1, hmakes.free.2⟩, hb.size_le,
      fun hnone => ?_, hmirrors⟩
    have hboth := hclean.1 hnone
    refine tidy_of_kept hboth.2 h.children (herrors.2 ⟨hboth.1, ?_⟩)
    rw [htidy, Bool.and_eq_true] at hboth
    exact hboth.2.2
  · exact congrArg (fun p : Spot => p.words.length) hu
  · rw [hu]
    simp [Reader.tidied, Reader.require, Reader.bind_apply, Reading.andThen, Reader.pure_apply]

/-- Building a node for a tree of the language that opens a scope. -/
theorem Simulates.buildTidied {role : Role} {form : Form} {span : Span} {scope : ScopeId}
    (hs : s.Valid) (hb : s.arena.Holds base)
    (h : Shows base { s with scopes := scope :: s.scopes } form tree)
    (hwritten : Tree.Written role tree) (hscope : form.scope? = some scope)
    (hopened : Opened base s scope)
    (htidy : tree.isTidy = decide (Tree.definedNames tree.children).Nodup) :
    (do
      let id ← Parser.make form span
      reportRedefinitions
      return id : Parser NodeId).Simulates base (Reader.tidied tree) s
      fun id tree t => Built base t role id tree ∧ t.remaining = s.remaining := by
  have hholds : s.NoErrors → true = true := fun _ => rfl
  refine Ensures.mono (makeTidied (.refl hs) rfl (and_iff_left_of_imp hholds).symm hb h hscope
    hopened (by rw [htidy, Bool.and_true])) ?_ fun _ _ h => h.elim
  rintro id t ⟨hl, _, ⟨rfl, hkept, hrem⟩, hc⟩
  exact ⟨hl, _, ⟨⟨hkept, hwritten⟩, hrem⟩, hc⟩

/-! ## Scopes -/

/-- Rules inside a new scope do what they do anywhere; afterwards the scope is still empty, and
what they have done holds while it is open. -/
theorem Simulates.inScope {α β : Type} {p : Parser α} {r : Reader β}
    {R : α → β → ParserState → Prop} (hs : s.Valid)
    (hp : ∀ u, u.Valid → u.arena.Holds s.arena → u.remaining = s.remaining →
      p.Simulates u.arena r u R) :
    (Parser.inScope p).Simulates s.arena r s fun x b t =>
      Opened s.arena t x.1 ∧ R x.2 b { t with scopes := x.1 :: t.scopes } := by
  let scope : ScopeId := (s.arena.newScope s.scopes.head?).1
  let u : ParserState := { s with
    arena := (s.arena.newScope s.scopes.head?).2
    scopes := scope :: s.scopes }
  have hgrows := s.arena.grows_newScope s.scopes.head?
  have hu : u.Valid := by
    refine ⟨hs.regular, hs.redefinitions, fun p t hp => ?_, hs.apart.eq_of_scopeOf?⟩
    exact Nat.lt_of_lt_of_le (hs.apart.index_lt p t hp) hgrows.scopeCount_le
  -- the state in which the scope is not open, so that the one around it is the innermost
  let outside : ParserState := { u with scopes := s.scopes }
  have hopened : Opened s.arena outside scope := by
    refine ⟨Nat.le_refl _, s.arena.get_newScope s.scopes.head?, fun id hid => ?_⟩
    exact absurd (hs.apart.index_lt id scope hid) (Nat.lt_irrefl _)
  have hleads (t : ParserState) (hl : Leads u.arena u t) :
      Leads s.arena s { t with scopes := s.scopes } :=
    ⟨hl.options, rfl, hgrows.trans (hl.grows.weaken hgrows.holds), hl.moves, hl.noErrors,
      ⟨hl.valid.regular, hl.valid.redefinitions, hl.valid.apart⟩⟩
  refine Ensures.bind (ensures_of_eq_ok (p := openScope) (a := scope) (t := u) rfl
    (And.intro rfl rfl)) (M := fun x t => x = scope ∧ t = u) ?_
  rintro _ _ ⟨rfl, rfl⟩
  have hrun : p.Ensures u
      (fun a t => Leads u.arena u t ∧ ∃ b, R a b t ∧ (u.Lenient → ∃ clean,
        r u.spot = ⟨some b, clean, t.spot⟩ ∧ (t.NoErrors ↔ u.NoErrors ∧ clean = true)))
      fun d t => Leads u.arena u t ∧ d.isError = true ∧
        (u.Lenient → ∃ clean, r u.spot = ⟨none, clean, t.spot⟩) := hp u hu hgrows.holds rfl
  refine Ensures.bind (Ensures.attempt hrun (P := fun result t => Leads u.arena u t ∧
    Attempted r u R result t)) ?_
  rintro result t ⟨hl, h⟩
  have htail : t.scopes.tail = s.scopes := by
    rw [hl.scopes]
    rfl
  refine Ensures.bind (ensures_of_eq_ok (p := closeScope) (a := ())
    (t := { t with scopes := s.scopes }) (by rw [← htail]; rfl) rfl)
    (M := fun _ v => v = { t with scopes := s.scopes }) ?_
  rintro _ _ rfl
  cases result with
  | ok a =>
    obtain ⟨b, hb, hc⟩ := h
    refine Ensures.pure ⟨hleads t hl, b, ⟨hopened.later (hl.inside s.scopes), ?_⟩, hc⟩
    have hsame : ({ t with scopes := scope :: s.scopes } : ParserState) = t := by
      rw [show scope :: s.scopes = t.scopes from hl.scopes.symm]
    show R a b { t with scopes := scope :: s.scopes }
    rw [hsame]
    exact hb
  | error d => exact Ensures.fail ⟨hleads t hl, h⟩

end ExprLang.Parser
