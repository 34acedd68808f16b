import ExprLang.Proofs.Errors.States

/-!
# Nodes in hand

Names are defined twice among the nodes that a rule has in hand when it builds the
node that holds them.  No error is about the stretch of a node in hand that defines
a name, and no two of these have the same stretch; so the errors about names that
are defined twice repeat no error.

While there is no error of grammar, what rules have in hand is all that is free, but
for names that are called and paths of imports.

Main definitions:

- Definition {lit}`ParserState.Carries`: nodes in hand.
- Definition {lit}`ParserState.Rests`: a parse between two rules, with nodes in
  hand.
- Definition {lit}`Arena.Builds`: what has become of an arena when a node has been
  built.

Main results:

- Theorem {lit}`ParserState.Carries.append`: nodes in hand after another rule.
- Theorem {lit}`ParserState.Carries.exists_builds`: a new node over nodes in hand.
- Theorems {lit}`ParserState.Carries.built` and {lit}`ParserState.Advances.built`: that node is in
  hand, and the errors that it gives rise to are told.
- Theorem {lit}`Parser.reportRedefinitions_of_apart`: the errors that are recorded.
-/

namespace ExprLang

variable {text : String} {base base' : Arena} {lo lo' : Nat} {ids ids' : List NodeId}
  {due : List Diagnostic}

namespace ParserState

variable {s t : ParserState} {d : Diagnostic}

/-! ## Hands -/

/-- A node that defines a name, with its span. -/
def Defines (s : ParserState) (id : NodeId) (span : Span) : Prop :=
  s.arena.definitionName id ≠ none ∧ s.arena.position? id = some span

/-- Rules have these nodes in hand: they are free, they are no part of `base`, and while there is no
error of grammar they are all that is, but for nodes that give rise to nothing.  Those of them that
define names lie behind the offset `lo`, apart from each other, and no error is about them. -/
structure Carries (base : Arena) (lo : Nat) (s : ParserState) (ids : List NodeId) : Prop where
  holds : s.arena.Holds base
  le : lo ≤ s.ahead
  free : ∀ id ∈ ids, s.arena.Free id
  fresh : ∀ id ∈ ids, base.size ≤ id.index
  nodup : ids.Nodup
  adopted : (∀ e ∈ s.report.errors, e.topic ≠ .grammar) → ∀ id form, base.size ≤ id.index →
    s.arena.parent? id = none → s.arena.form? id = some form → form.isLeaf = false → id ∈ ids
  named : ∀ id ∈ ids, ∀ span, s.Defines id span → lo ≤ span.start.offset ∧
    span.start.offset < s.reached ∧ ∀ e ∈ s.report.errors, e.span ≠ span
  apart : ids.Pairwise fun p q => ∀ span, s.Defines p span → ¬ s.Defines q span

namespace Carries

/-- At first there is nothing in hand. -/
theorem nil (s : ParserState) : Carries s.arena s.ahead s [] :=
  ⟨.refl _, Nat.le_refl _, nofun, nofun, .nil, fun _ _ _ hid _ hform _ =>
    absurd (Arena.index_lt_of_form? hform) (Nat.not_lt_of_le hid), nofun, .nil⟩

/-- Nodes in hand are older than what is built next. -/
theorem index_lt (h : Carries base lo s ids) {id : NodeId} (hid : id ∈ ids) :
    id.index < s.arena.size := (h.free id hid).exists_node

/-- The order of nodes in hand does not matter. -/
theorem perm (h : Carries base lo s ids) (hp : ids.Perm ids') : Carries base lo s ids' where
  holds := h.holds
  le := h.le
  free id hid := h.free id (hp.mem_iff.2 hid)
  fresh id hid := h.fresh id (hp.mem_iff.2 hid)
  nodup := hp.nodup_iff.1 h.nodup
  adopted hg id form hid hparent hform hleaf :=
    hp.mem_iff.1 (h.adopted hg id form hid hparent hform hleaf)
  named id hid := h.named id (hp.mem_iff.2 hid)
  apart := (hp.pairwise_iff fun {_ _} hpq span hq hp => hpq span hp hq).1 h.apart

/-- What lies behind an offset lies behind a smaller one. -/
theorem mono (h : Carries base lo s ids) (hle : lo' ≤ lo) : Carries base lo' s ids :=
  { h with
    le := Nat.le_trans hle h.le
    named := fun id hid span hspan =>
      ⟨Nat.le_trans hle (h.named id hid span hspan).1, (h.named id hid span hspan).2⟩ }

/-- What is no part of an arena is no part of one with the same nodes and no more scopes. -/
theorem rebase (h : Carries base lo s ids) (hb : base.Holds base')
    (hsize : base.size = base'.size) : Carries base' lo s ids :=
  { h with
    holds := h.holds.trans hb
    fresh := fun id hid => hsize ▸ h.fresh id hid
    adopted := fun hg id form hid => h.adopted hg id form (hsize ▸ hid) }

/-- Open scopes do not matter. -/
theorem inside (h : Carries base lo s ids) (scopes : List ScopeId) :
    Carries base lo { s with scopes := scopes } ids :=
  ⟨h.holds, h.le, h.free, h.fresh, h.nodup, h.adopted, h.named, h.apart⟩

/-- A node that gives rise to nothing need not be kept in hand. -/
theorem drop {id : NodeId} {form : Form} (h : Carries base lo s (id :: ids))
    (hform : s.arena.form? id = some form) (hleaf : form.isLeaf = true) :
    Carries base lo s ids where
  holds := h.holds
  le := h.le
  free other ho := h.free other (List.mem_cons_of_mem _ ho)
  fresh other ho := h.fresh other (List.mem_cons_of_mem _ ho)
  nodup := (List.nodup_cons.1 h.nodup).2
  adopted hg other form' ho hparent hform' hleaf' := by
    rcases List.mem_cons.1 (h.adopted hg other form' ho hparent hform' hleaf') with rfl | hmem
    · cases hform.symm.trans hform'
      rw [hleaf] at hleaf'
      cases hleaf'
    · exact hmem
  named other ho := h.named other (List.mem_cons_of_mem _ ho)
  apart := (List.pairwise_cons.1 h.apart).2

/-- After an error of grammar what was built meanwhile can be dropped. -/
theorem lost (hl : Advances text s.arena s.ahead s t) (hwrong : t.Wrong) :
    Carries s.arena s.ahead t [] := by
  refine ⟨hl.grows.holds, hl.ahead_le, nofun, nofun, .nil, fun hnone => ?_, nofun, .nil⟩
  obtain ⟨e, he, htopic⟩ := hwrong
  exact absurd htopic (hnone e he)

/-- What is in hand after another rule: what was, and what the rule has built. -/
theorem append (h : Carries base lo s ids) (hs : s.Settled text)
    (hl : Advances text s.arena s.ahead s t) (h' : Carries s.arena s.ahead t ids') :
    Carries base lo t (ids ++ ids') := by
  have hold {id : NodeId} (hid : id ∈ ids) {span : Span} (hspan : t.Defines id span) :
      s.Defines id span := by
    have hlt := h.index_lt hid
    exact ⟨hl.grows.definitionName_eq hs.ordered hlt ▸ hspan.1,
      Arena.position?_eq_of_places hl.places (hs.orderly.placed id hlt) ▸ hspan.2⟩
  have hbehind {id : NodeId} (hid : id ∈ ids) {span : Span} (hspan : t.Defines id span) :
      span.start.offset < s.ahead :=
    Nat.lt_of_lt_of_le (h.named id hid span (hold hid hspan)).2.1 hs.reached_le_ahead
  refine ⟨hl.grows.holds.trans h.holds, Nat.le_trans h.le hl.ahead_le, fun id hid => ?_,
    fun id hid => ?_, ?_, fun hg id form hid hparent hform hleaf => ?_,
    fun id hid span hspan => ?_, ?_⟩
  · rcases List.mem_append.1 hid with hid | hid
    · exact (h.free id hid).mono hl.grows (h.index_lt hid)
    · exact h'.free id hid
  · rcases List.mem_append.1 hid with hid | hid
    · exact h.fresh id hid
    · exact Nat.le_trans h.holds.size_le (h'.fresh id hid)
  · refine List.nodup_append'.2 ⟨h.nodup, h'.nodup, fun id hid hid' => ?_⟩
    exact absurd (h.index_lt hid) (Nat.not_lt_of_le (h'.fresh id hid'))
  · rw [List.mem_append]
    by_cases hlt : id.index < s.arena.size
    · rw [hl.grows.parent?_eq hlt] at hparent
      rw [hl.grows.form?_eq id hlt] at hform
      exact .inl (h.adopted (fun e he => hg e (hl.subset he)) id form hid hparent hform hleaf)
    · exact .inr (h'.adopted hg id form (Nat.le_of_not_lt hlt) hparent hform hleaf)
  · rcases List.mem_append.1 hid with hid | hid
    · obtain ⟨hlo, hlt, hne⟩ := h.named id hid span (hold hid hspan)
      refine ⟨hlo, Nat.lt_of_lt_of_le hlt hl.reached_le, fun e he hsame => ?_⟩
      rcases hl.since e he with hmem | hge
      · exact hne e hmem hsame
      · rw [hsame] at hge
        exact absurd (hbehind hid hspan) (Nat.not_lt_of_le hge)
    · obtain ⟨hlo, hmore⟩ := h'.named id hid span hspan
      exact ⟨Nat.le_trans h.le hlo, hmore⟩
  · refine List.pairwise_append.2 ⟨h.apart.imp_of_mem fun {p q} hp hq hpq span hp' hq' =>
      hpq span (hold hp hp') (hold hq hq'), h'.apart, fun p hp q hq span hp' hq' => ?_⟩
    exact absurd (hbehind hp hp') (Nat.not_lt_of_le (h'.named q hq span hq').1)

/-- Consuming a token changes nothing in hand. -/
theorem advanced (h : Carries base lo s ids) (hs : s.Accounts text due) :
    Carries base lo s.advanced ids :=
  { h with
    le := Nat.le_trans h.le hs.ahead_le
    named := fun id hid span hspan => by
      obtain ⟨hlo, hlt, hne⟩ := h.named id hid span hspan
      exact ⟨hlo, Nat.lt_of_lt_of_le hlt (Nat.le_trans hs.reached_le_ahead hs.ahead_le_reached),
        hne⟩ }

/-- An error that is recorded changes nothing in hand if it is not about what defines a name. -/
theorem recorded (h : Carries base lo s ids) (hd : d.isError = true)
    (hne : ∀ id ∈ ids, ∀ span, s.Defines id span → d.span ≠ span) :
    Carries base lo (s.recorded d) ids :=
  { h with
    adopted := fun hg => h.adopted fun e he => hg e (errors_subset_recorded hd he)
    named := fun id hid span hspan => by
      obtain ⟨hlo, hlt, hold⟩ := h.named id hid span hspan
      refine ⟨hlo, hlt, fun e he => ?_⟩
      rcases mem_errors_recorded hd he with he | rfl
      · exact hold e he
      · exact hne id hid span hspan }

end Carries

/-- A parse between two rules with nodes in hand, all of whose errors lie before the next token. -/
structure Rests (text : String) (base : Arena) (lo : Nat) (s : ParserState) (ids : List NodeId) :
    Prop where
  settled : s.Settled text
  clear : s.Clear
  carries : Carries base lo s ids

namespace Rests

/-- With nothing in hand. -/
theorem nil (hs : s.Settled text) (h : s.Clear) : Rests text s.arena s.ahead s [] :=
  ⟨hs, h, .nil s⟩

/-- Behind the first token of a rule, which may be one that an error is about. -/
theorem start (hs : s.Settled text) (h : s.Near) (hkind : s.tape.peek.kind ≠ .endOfFile) :
    Rests text s.arena s.ahead s.advanced [] :=
  ⟨hs.advanced, h.advanced hs hkind, (Carries.nil s).advanced hs⟩

/-- What lies behind an offset lies behind a smaller one. -/
theorem mono (h : Rests text base lo s ids) (hle : lo' ≤ lo) : Rests text base lo' s ids :=
  { h with carries := h.carries.mono hle }

/-- Consuming a token. -/
theorem advanced (h : Rests text base lo s ids) : Rests text base lo s.advanced ids :=
  ⟨h.settled.advanced, h.clear.advanced h.settled, h.carries.advanced h.settled⟩

/-- Recording a warning. -/
theorem warned (h : Rests text base lo s ids) (hd : d.isError = false) :
    Rests text base lo { s with report := s.report.record d } ids := by
  have herrors : (s.report.record d).errors = s.report.errors := by simp [hd]
  refine ⟨h.settled.warned hd, fun e he => h.clear e (herrors ▸ he), { h.carries with
    adopted := fun hg => h.carries.adopted fun e he => hg e (herrors ▸ he)
    named := fun id hid span hspan => ?_ }⟩
  obtain ⟨hlo, hlt, hne⟩ := h.carries.named id hid span hspan
  exact ⟨hlo, hlt, fun e he => hne e (herrors ▸ he)⟩

/-- Recording an error of grammar about a token that has been consumed. -/
theorem complained (h : Rests text base lo s ids) (hkind : s.tape.peek.kind ≠ .endOfFile)
    (hd : d.isError = true) (htopic : d.topic = .grammar) (hspan : d.span = s.tape.peek.span) :
    Advances text base s.ahead s.advanced (s.advanced.recorded d) ∧
      Rests text base lo (s.advanced.recorded d) ids := by
  have hstart : d.span.start.offset = s.ahead := by rw [hspan]; rfl
  have hnew : ∀ e ∈ s.report.errors, e.Apart d := fun e he =>
    Diagnostic.apart_of_span_ne fun hsame => by
      have hlt := h.clear e he
      rw [hsame, hstart] at hlt
      exact Nat.lt_irrefl _ hlt
  have herrors : (s.advanced.recorded d).report.errors = s.report.errors ++ [d] :=
    Parser.errors_recordIn_of_apart hd hnew
  have hl : Advances text base s.ahead s.advanced (s.advanced.recorded d) :=
    .recorded h.settled.advanced hd htopic (Nat.le_of_eq hstart.symm) hnew
  refine ⟨hl, hl.settled, fun e he => ?_, (h.carries.advanced h.settled).recorded hd
    fun id hid span hfound hsame => ?_⟩
  · rw [herrors] at he
    rcases List.mem_append.1 he with he | he
    · exact h.clear.advanced h.settled e he
    · rw [List.mem_singleton.1 he, hstart]
      exact h.settled.ahead_lt hkind
  · have hlt := (h.carries.named id hid span hfound).2.1
    rw [← hsame, hstart] at hlt
    exact absurd hlt (Nat.not_lt_of_le h.settled.reached_le_ahead)

end Rests

/-- A scope that is not part of `base` and binds no name yet. -/
def Opens (base : Arena) (s : ParserState) (scope : ScopeId) : Prop :=
  base.scopes.size ≤ scope.index ∧ ∃ parent, s.arena.scopes.get scope = .ok ⟨[], parent⟩

end ParserState

open ParserState

variable {s t : ParserState}

/-! ## New nodes -/

/-- What has become of the arena `a` when a node with a form and a position has been built. -/
structure Arena.Builds (base a : Arena) (form : Form) (span : Span) (b : Arena) : Prop where
  made : a.Made form b
  grows : Arena.Grows base a b
  places : a.Places b
  position?_new : b.position? ⟨a.size⟩ = some span
  orderly : b.Orderly
  ordered : b.Ordered

/-- Building a node adds the errors that it gives rise to. -/
theorem Arena.Builds.flatMap_semanticErrors {a b : Arena} {form : Form} {span : Span}
    (h : base.Builds a form span b) (ho : a.Orderly) (ha : a.Ordered) (source : String)
    (tokens : List Token) :
    (List.range b.size).flatMap (fun i => b.semanticErrors source tokens ⟨i⟩) =
      (List.range a.size).flatMap (fun i => a.semanticErrors source tokens ⟨i⟩) ++
        b.semanticErrors source tokens ⟨a.size⟩ := by
  rw [h.made.size_eq, List.range_succ, List.flatMap_append]
  congr 1
  · exact List.flatMap_congr fun i hi =>
      semanticErrors_eq h.grows h.places ha ho (List.mem_range.1 hi)
  · exact List.flatMap_singleton ..

/-- A node can be built over nodes in hand. -/
theorem ParserState.Carries.exists_builds {form : Form} (h : Carries base lo s ids)
    (hs : s.Accounts text due) (span : Span) (hperm : form.children.Perm ids)
    (hscope : ∀ scope, form.scope? = some scope → Opens base s scope) :
    ∃ b, Parser.make form span s = .ok ⟨s.arena.size⟩ { s with arena := b } ∧
      base.Builds s.arena form span b := by
  have hmem {id : NodeId} (hid : id ∈ form.children) : id ∈ ids := hperm.mem_iff.1 hid
  obtain ⟨b, c, halloc, hset, hmade⟩ := Arena.exists_made span (fun id hid => h.free id (hmem hid))
    (hperm.nodup_iff.2 h.nodup) (fun scope he => (hscope scope he).2) hs.redefinitions
  obtain ⟨-, hposition, hold, -⟩ := Arena.placed_of_alloc halloc hset
  refine ⟨c, ?_, hmade, hmade.grows h.holds (fun id hid => h.fresh id (hmem hid))
    (fun scope he => (hscope scope he).1), fun id span hid => ?_, hposition,
    (hs.orderly.made halloc hset).1, fun id form' hform child hchild => ?_⟩
  · show (Parser.lift (s.arena.alloc form) >>= fun made =>
      Parser.lift (made.2.setPosition made.1 span) >>= fun arena =>
        (modify fun s => { s with arena := arena }) >>= fun _ => pure made.1 : Parser NodeId) s = _
    rw [halloc]
    refine (Parser.bind_eq_of_eq_ok (a := ((⟨s.arena.size⟩ : NodeId), b)) (t := s) rfl).trans ?_
    dsimp only
    rw [hset]
    rfl
  · have hne : id ≠ ⟨s.arena.size⟩ := by
      rintro rfl
      exact Nat.lt_irrefl _ (Arena.index_lt_of_position? hid)
    rw [hold id hne, hid]
  · have hlt := Arena.index_lt_of_form? hform
    rw [hmade.size_eq] at hlt
    by_cases hnew : id.index < s.arena.size
    · exact hs.ordered id form' (hmade.form?_eq id hnew ▸ hform) child hchild
    · have hid : id = ⟨s.arena.size⟩ := by
        cases id
        exact congrArg _ (Nat.le_antisymm (Nat.le_of_lt_succ hlt) (Nat.le_of_not_lt hnew))
      subst hid
      cases hmade.form?_new.symm.trans hform
      exact h.index_lt (hmem hchild)

/-- A node that has been built is in hand instead of its children. -/
theorem ParserState.Carries.built {form : Form} {span : Span} {b : Arena} {report : Report}
    (h : Carries base lo s ids) (hb : base.Builds s.arena form span b)
    (hperm : form.children.Perm ids) (hle : lo' ≤ lo) (hsubset : s.report.errors ⊆ report.errors)
    (hspan : form.mayDefine = true → lo' ≤ span.start.offset ∧ span.start.offset < s.reached ∧
      ∀ e ∈ report.errors, e.span ≠ span) :
    Carries base lo' { s with arena := { b with redefinitions := [] }, report := report }
      [⟨s.arena.size⟩] := by
  refine ⟨⟨Nat.le_trans h.holds.size_le hb.grows.size_le,
    Nat.le_trans h.holds.scopeCount_le hb.grows.scopeCount_le⟩, Nat.le_trans hle h.le,
    fun id hid => ?_, fun id hid => ?_, List.nodup_singleton _,
    fun hg id form' hid hparent hform hleaf => ?_, fun id hid found hfound => ?_,
    List.pairwise_singleton ..⟩
  · rw [List.mem_singleton.1 hid]
    refine ⟨?_, hb.made.parent?_new⟩
    show s.arena.size < b.size
    rw [hb.made.size_eq]
    exact Nat.lt_succ_self _
  · rw [List.mem_singleton.1 hid]
    exact h.holds.size_le
  · -- a child has the new node as its parent, and other nodes are what they were
    have hparent : b.parent? id = none := hparent
    have hform : b.form? id = some form' := hform
    have hlt := Arena.index_lt_of_form? hform
    rw [hb.made.size_eq] at hlt
    by_contra hnew
    have hold : id.index < s.arena.size := by
      refine Nat.lt_of_le_of_ne (Nat.le_of_lt_succ hlt) fun he => hnew (List.mem_singleton.2 ?_)
      cases id
      exact congrArg _ he
    have hchild : id ∉ form.children := fun hmem => by
      have howner : b.parent? id = some ⟨s.arena.size⟩ :=
        hb.orderly.owned.parent?_of_mem hb.made.form?_new hmem
      rw [howner] at hparent
      cases hparent
    have hnode := hb.made.node?_eq id hold hchild
    refine hchild (hperm.mem_iff.2 (h.adopted (fun e he => hg e (hsubset he)) id form' hid ?_ ?_
      hleaf))
    · rw [← hparent, Arena.parent?, Arena.parent?, hnode]
    · rw [← hform, Arena.form?, Arena.form?, hnode]
  · obtain ⟨hname, hposition⟩ := hfound
    rw [List.mem_singleton.1 hid] at hname hposition
    cases hb.position?_new.symm.trans hposition
    cases hmay : form.mayDefine with
    | true => exact hspan hmay
    | false => exact absurd (Arena.definitionName_eq_none hb.made.form?_new hmay) hname

/-- A parse goes on when it has built a node and recorded the errors that the node gives rise to,
as far as they were not due. -/
theorem ParserState.Advances.built {form : Form} {span : Span} {b : Arena} {report : Report}
    {new : List Diagnostic} (hs : s.Accounts text due) (hb : base.Builds s.arena form span b)
    (hdue : b.semanticErrors s.report.source (tokenize text) ⟨s.arena.size⟩ = due ++ new)
    (hsource : report.source = s.report.source) (herrors : report.errors = s.report.errors ++ new)
    (htopic : ∀ e ∈ new, e.topic = .semantic) (hle : ∀ e ∈ new, lo ≤ e.span.start.offset)
    (hapart : (s.report.errors ++ new).Pairwise Diagnostic.Apart) :
    Advances text base lo s
      { s with arena := { b with redefinitions := [] }, report := report } where
  settled := by
    refine ⟨hs.place, hb.orderly.takeRedefinitions, hb.ordered, rfl, herrors ▸ hapart, ?_⟩
    have hkept (i : Nat) : Arena.semanticErrors { b with redefinitions := [] } report.source
        (tokenize text) ⟨i⟩ = b.semanticErrors s.report.source (tokenize text) ⟨i⟩ := by
      rw [hsource]
      exact Arena.semanticErrors_congr rfl
    have hnew : new.filter (·.topic == .semantic) = new :=
      List.filter_eq_self.2 fun e he => by rw [htopic e he]; rfl
    show report.errors.filter _ = (List.range b.size).flatMap (fun i =>
      Arena.semanticErrors { b with redefinitions := [] } report.source (tokenize text) ⟨i⟩) ++ []
    simp only [hkept]
    rw [herrors, List.filter_append, hs.told, hnew, List.append_nil, List.append_assoc, ← hdue,
      hb.flatMap_semanticErrors hs.orderly hs.ordered]
  reached_le := Nat.le_refl _
  ahead_le := Nat.le_refl _
  places := hb.places
  grows := ⟨hb.grows.size_le, hb.grows.node?_eq, hb.grows.form?_eq, hb.grows.scopeCount_le,
    hb.grows.scope_eq, hb.grows.scope_new⟩
  subset := herrors ▸ List.subset_append_left ..
  since e he := (List.mem_append.1 (herrors ▸ he)).imp_right (hle e)
  source_eq := hsource

/-! ## Names that are defined twice -/

/-- The second node of two that define a name is one in hand, and the error is about it. -/
theorem ParserState.Carries.exists_defines {form : Form} {span : Span} {b : Arena}
    {r : Redefinition} (h : Carries base lo s ids) (hs : s.Accounts text due)
    (hb : base.Builds s.arena form span b) (hperm : form.children.Perm ids)
    (hr : r ∈ b.repeats form.children) (source : String) :
    r.duplicate ∈ ids ∧ s.Defines r.duplicate (r.error source b).span := by
  obtain ⟨hchild, hname⟩ := Arena.of_mem_repeatsAfter hr
  have hid := hperm.mem_iff.1 hchild
  have hlt := h.index_lt hid
  obtain ⟨found, hfound⟩ := hs.orderly.placed _ hlt
  refine ⟨hid, ?_, ?_⟩
  · rw [← hb.grows.definitionName_eq hs.ordered hlt, hname]
    exact Option.some_ne_none _
  · show s.arena.position? r.duplicate = some ((b.position? r.duplicate).getD Span.zero)
    rw [hb.places _ _ hfound, hfound, Option.getD_some]

/-- The errors about names that are defined twice among nodes in hand are apart from each other and
from those that there are. -/
theorem ParserState.Carries.pairwise_repeats {form : Form} {span : Span} {b : Arena}
    (h : Carries base lo s ids) (hs : s.Accounts text due) (hb : base.Builds s.arena form span b)
    (hperm : form.children.Perm ids) (source : String) :
    (s.report.errors ++ (b.repeats form.children).map (·.error source b)).Pairwise
      Diagnostic.Apart := by
  have hdefines {r : Redefinition} (hr : r ∈ b.repeats form.children) :=
    h.exists_defines hs hb hperm hr source
  have hchildren : form.children.Pairwise fun p q =>
      ∀ span, s.Defines p span → ¬ s.Defines q span :=
    (h.perm hperm.symm).apart
  have hduplicates := hchildren.sublist (Arena.repeatsAfter_sublist b [] form.children)
  rw [List.pairwise_map] at hduplicates
  refine List.pairwise_append.2 ⟨hs.apart, List.pairwise_map.2 ?_, fun e he d hd => ?_⟩
  · refine hduplicates.imp_of_mem fun {p q} hp hq hpq => Diagnostic.apart_of_span_ne fun he => ?_
    exact hpq _ (hdefines hp).2 (he ▸ (hdefines hq).2)
  · obtain ⟨r, hr, rfl⟩ := List.mem_map.1 hd
    obtain ⟨hid, hfound⟩ := hdefines hr
    exact Diagnostic.apart_of_span_ne ((h.named _ hid _ hfound).2.2 e he)

/-- One error is recorded for each of some redefinitions if these errors are apart from each other
and from those that there are. -/
theorem Parser.forM_record_of_apart (found : List Redefinition) (s : ParserState)
    (hnodes : ∀ r ∈ found, r.duplicate.index < s.arena.size)
    (happart : (s.report.errors ++ found.map (·.error s.report.source s.arena)).Pairwise
      Diagnostic.Apart) :
    ∃ report, (found.forM fun redefinition => do
        let span ← spanOf redefinition.duplicate
        record (← errorAt .semantic span (.redefinition redefinition.name)) : Parser Unit) s =
          .ok () { s with report := report } ∧
      report.source = s.report.source ∧
      report.errors = s.report.errors ++ found.map (·.error s.report.source s.arena) := by
  induction found generalizing s with
  | nil => exact ⟨s.report, rfl, rfl, (List.append_nil _).symm⟩
  | cons redefinition found ih =>
    let d := redefinition.error s.report.source s.arena
    have herrors : (recordIn s.report d).errors = s.report.errors ++ [d] :=
      errors_recordIn_of_apart rfl fun e he =>
        (List.pairwise_append.1 happart).2.2 e he d (List.mem_cons_self ..)
    have hsource : (recordIn s.report d).source = s.report.source := source_recordIn ..
    obtain ⟨hnode, hnodes⟩ := List.forall_mem_cons.1 hnodes
    obtain ⟨report, hrun, hsame, hreport⟩ := ih { s with report := recordIn s.report d } hnodes (by
      rw [herrors, hsource, List.append_assoc]
      exact happart)
    refine ⟨report, (bind_eq_of_eq_ok (record_redefinition_eq hnode)).trans hrun,
      hsame.trans hsource, ?_⟩
    rw [hreport, herrors, hsource, List.append_assoc]
    rfl

/-- Reporting redefinitions records an error for each if these errors are apart from each other and
from those that there are. -/
theorem Parser.reportRedefinitions_of_apart (s : ParserState)
    (hnodes : ∀ r ∈ s.arena.redefinitions, r.duplicate.index < s.arena.size)
    (happart : (s.report.errors ++ s.arena.redefinitions.map
      (·.error s.report.source s.arena)).Pairwise Diagnostic.Apart) :
    ∃ report, reportRedefinitions s =
        .ok () { s with arena := { s.arena with redefinitions := [] }, report := report } ∧
      report.source = s.report.source ∧ report.errors = s.report.errors ++
        s.arena.redefinitions.map (·.error s.report.source s.arena) :=
  forM_record_of_apart s.arena.redefinitions
    { s with arena := { s.arena with redefinitions := [] } } hnodes happart

end ExprLang
