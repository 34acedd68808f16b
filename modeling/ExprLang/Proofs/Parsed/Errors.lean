import ExprLang.Proofs.Errors.Units
import ExprLang.Proofs.Parsed.Positions
import ExprLang.Proofs.Tree.Walks

/-!
# Errors of what is parsed

Whatever a source is, no error that is handed back repeats another one.  If the source
follows the grammar, the errors about its meaning are those that the nodes of its tree
give rise to, no more and no less, and the scopes bind names to what defines them first.

Main results:

- Theorem {lit}`parse_errors_apart`: errors are apart from each other.
- Theorem {lit}`compilationUnit_semanticErrors`: errors about the meaning of a unit.
-/

namespace ExprLang

variable {text : String}

/-! ## Trees without errors of grammar -/

/-- Lists that have the same members among those that count have the same results. -/
theorem perm_flatMap_of_mem_iff {α β : Type} [DecidableEq β] {xs ys : List α} {f : α → List β}
    (hxs : xs.Nodup) (hys : ys.Nodup) (h : ∀ x, f x ≠ [] → (x ∈ xs ↔ x ∈ ys)) :
    (xs.flatMap f).Perm (ys.flatMap f) := by
  have hfilter (xs : List α) : xs.flatMap f = (xs.filter (f · ≠ [])).flatMap f := by
    induction xs with
    | nil => rfl
    | cons x xs ih =>
      by_cases hx : f x = []
      · simp [hx, ih]
      · simp [hx, ih]
  rw [hfilter xs, hfilter ys]
  refine List.Perm.flatMap_right f ((List.perm_ext_iff_of_nodup (hxs.filter _) (hys.filter _)).2
    fun x => ?_)
  simp only [List.mem_filter, decide_eq_true_eq]
  exact and_congr_left (h x)

namespace Arena

variable {a : Arena} {root n : NodeId} {k : Nat}

/-- The node that is recorded as a parent holds its child. -/
theorem Balanced.exists_holder {p : NodeId} (h : a.Owned True) (hp : a.parent? n = some p) :
    ∃ form, a.form? p = some form ∧ n ∈ form.children := by
  have hge := h.ge trivial p n
  rw [owns_eq_one hp] at hge
  have hmem : n ∈ a.children p := count_pos_iff.1 (by omega)
  unfold children at hmem
  cases hform : a.form? p with
  | none => simp [hform] at hmem
  | some form => exact ⟨form, rfl, by simpa [hform] using hmem⟩

/-- Where children are older than the nodes that hold them, there is no circle. -/
theorem Ordered.acyclic (h : a.Ordered) (hown : a.Owned True) : a.Acyclic := by
  -- by induction on the number of nodes that are not older
  have hroom (room : Nat) : ∀ n : NodeId, a.size ≤ n.index + room → a.Rooted n := by
    induction room with
    | zero =>
      intro n hn
      refine .top (Option.eq_none_iff_forall_ne_some.2 fun p hp => ?_)
      exact absurd (index_lt_of_parent? hp) (Nat.not_lt_of_le hn)
    | succ room ih =>
      intro n hn
      cases hp : a.parent? n with
      | none => exact .top hp
      | some p =>
        obtain ⟨form, hform, hmem⟩ := hown.exists_holder hp
        have hlt := h p form hform n hmem
        exact .link hp (ih p (by omega))
  exact fun n => hroom a.size n (Nat.le_add_left ..)

/-- A node from which parent links lead to the root is in the tree at the root. -/
theorem exists_reaches (hown : a.Owned True) (h : a.ancestor? k n = some root) :
    ∃ above, a.Reaches root above n := by
  induction k generalizing n with
  | zero =>
    cases h
    exact ⟨[], .root⟩
  | succ k ih =>
    obtain ⟨p, hp, h⟩ := Option.bind_eq_some_iff.1 h
    obtain ⟨above, habove⟩ := ih h
    obtain ⟨form, hform, hmem⟩ := hown.exists_holder hp
    exact ⟨p :: above, .child habove hform hmem⟩

/-- The nodes of a walk are in the tree at its root, each visited once. -/
theorem Ordered.walk (h : a.Ordered) (hown : a.Owned True) (root : NodeId) :
    ((a.walk root).map Prod.fst).Nodup ∧
      ∀ n, n ∈ (a.walk root).map Prod.fst ↔ ∃ k, a.ancestor? k n = some root := by
  have hacyclic := h.acyclic hown
  have hwalk := hacyclic.preorder_walk hown root
  refine ⟨hwalk.nodup hacyclic hown (List.nodup_singleton root) fun id hid id' hid' k => ?_,
    fun n => ⟨fun hn => ?_, fun ⟨k, hk⟩ => ?_⟩⟩
  · rw [List.mem_singleton.1 hid, List.mem_singleton.1 hid']
    exact (hacyclic root).ancestor?_ne k
  · obtain ⟨visit, hvisit, rfl⟩ := List.mem_map.1 hn
    obtain ⟨id, hid, -, hup⟩ := hwalk.exists_ancestor? hown hvisit
    exact ⟨_, List.mem_singleton.1 hid ▸ hup⟩
  · exact List.mem_map.2 ⟨_, hwalk.mem hown (List.mem_singleton_self root) hk, rfl⟩

end Arena

namespace ParserState

variable {s : ParserState} {lo : Nat} {root id : NodeId} {form : Form}

/-- If there is no error of grammar and a root is all that there is in hand, every node that has
children or opens a scope is in the tree at the root. -/
theorem Carries.exists_ancestor? (h : Carries .empty lo s [root]) (hs : s.Settled text)
    (hnone : ∀ e ∈ s.report.errors, e.topic ≠ .grammar) (hform : s.arena.form? id = some form)
    (hleaf : form.isLeaf = false) : ∃ k, s.arena.ancestor? k id = some root := by
  have hown := hs.orderly.owned
  obtain ⟨k, top, htop, hparent⟩ := (hs.ordered.acyclic hown id).exists_top
  have hfound : ∃ form, s.arena.form? top = some form ∧ form.isLeaf = false := by
    cases k with
    | zero =>
      cases htop
      exact ⟨form, hform, hleaf⟩
    | succ k =>
      rw [Arena.ancestor?_succ'] at htop
      obtain ⟨child, -, hp⟩ := Option.bind_eq_some_iff.1 htop
      obtain ⟨form, hform, hmem⟩ := hown.exists_holder hp
      refine ⟨form, hform, ?_⟩
      rw [Form.isLeaf, List.isEmpty_eq_false_iff.2 (List.ne_nil_of_mem hmem)]
      rfl
  obtain ⟨form, hform, hleaf⟩ := hfound
  have hroot := h.adopted hnone top form (Nat.zero_le _) hparent hform hleaf
  exact ⟨k, List.mem_singleton.1 hroot ▸ htop⟩

/-- If there is no error of grammar and a root is all that there is in hand, the errors about the
meaning of the text are those that the nodes of the tree at the root give rise to. -/
theorem Carries.perm_semanticErrors (h : Carries .empty lo s [root]) (hs : s.Settled text)
    (hnone : ∀ e ∈ s.report.errors, e.topic ≠ .grammar) :
    (s.report.errors.filter (·.topic == .semantic)).Perm
      ((s.arena.walk root).flatMap fun visit =>
        s.arena.semanticErrors s.report.source (tokenize text) visit.1) := by
  obtain ⟨hnodup, hmem⟩ := hs.ordered.walk hs.orderly.owned root
  rw [hs.told, List.append_nil, ← List.flatMap_map Prod.fst, ← List.flatMap_map NodeId.mk]
  refine perm_flatMap_of_mem_iff ?_ hnodup fun id hid => ?_
  · refine (List.nodup_range).map fun i j he => ?_
    exact congrArg NodeId.index he
  · -- what gives rise to an error opens a scope
    have hfound : ∃ form, s.arena.form? id = some form ∧ form.scope? ≠ none := by
      cases hform : s.arena.form? id with
      | none => exact absurd (by rw [Arena.semanticErrors, hform]; rfl) hid
      | some form => exact ⟨form, rfl, fun he => hid (Arena.semanticErrors_of_scope? hform he)⟩
    obtain ⟨form, hform, hscope⟩ := hfound
    have hlt := Arena.index_lt_of_form? hform
    have hleaf : form.isLeaf = false := by
      rw [Form.isLeaf, Option.isNone_eq_false_iff.2 (Option.ne_none_iff_isSome.1 hscope),
        Bool.and_false]
    exact iff_of_true (List.mem_map.2 ⟨id.index, List.mem_range.2 hlt, rfl⟩)
      ((hmem id).2 (h.exists_ancestor? hs hnone hform hleaf))

end ParserState

/-! ## Answers -/

namespace Parser

open ParserState

variable {s t : ParserState} {root : NodeId}

/-- With a tree all errors of the parse are handed back. -/
theorem errors_finish_ok (s : ParserState) (root : NodeId) :
    (handedBack (finish s (.ok root))).errors = s.report.errors := by
  cases herrors : s.report.hasErrors with
  | false => rw [finish_of_not_hasErrors herrors, handedBack]
  | true => rw [finish_of_hasErrors herrors, handedBack]

/-- The parse of a text starts before all errors. -/
theorem clear_ofText (text description : String) (options : ParseOptions) :
    (ofText text description options).Clear := nofun

/-- A rule that has ended with a root has answered with that. -/
theorem RootRule.tree?_of_run {rule : RootRule} {description : String} {options : ParseOptions}
    (h : rule.parser.run (.ofText text description options) = .ok (.ok root, t)) :
    rule.tree? text description options = some (t.arena, root) := by
  unfold tree?
  rw [run_eq_ok_ok.1 h]

/-- In the tree that a rule answers with, a scope binds the names of the items of its node, each to
the first item that defines it. -/
theorem RootRule.findLocal_eq {rule : RootRule} {description : String} {options : ParseOptions}
    {a : Arena} (h : rule.tree? text description options = some (a, root)) {above : List NodeId}
    {id : NodeId} (hid : a.Reaches root above id) {scope : ScopeId}
    (hscope : a.scopeOf? id = some scope) (name : String) :
    a.scopes.findLocal scope name = .ok (a.firstItem? name id) := by
  obtain ⟨t, tree, -, -, hdenotes, hwritten, -, hmirrors⟩ := exists_of_tree? h
  cases (hid.descends hdenotes hwritten hmirrors).lineage with
  | cons hscopes _ _ =>
    obtain ⟨bound, hget, -, hfind⟩ := hscopes scope hscope
    rw [Scopes.findLocal, hget, ← hfind]
    rfl

end Parser

/-- No two errors that are handed back for a source, whatever it is parsed as and under whatever
options, have the same span and the same message. -/
theorem parse_errors_apart (e : Entry) (options : ParseOptions) (source : Source) :
    ∃ answer, parse e options source = .ok answer ∧
      (handedBack answer).errors.Pairwise fun d d' =>
        ¬(d.span = d'.span ∧ d.message = d'.message) := by
  cases hcontent : source.content with
  | error message =>
    refine ⟨_, by rw [parse, hcontent]; rfl, ?_⟩
    exact List.pairwise_singleton ..
  | ok text =>
    obtain ⟨result, t, hrun⟩ := Parser.exists_entry_run e options source.description text
    obtain ⟨hl, -, hraises⟩ := (Parser.reports_entry (ParserState.settled_ofText ..)
      (Parser.clear_ofText _ _ _) e).of_run hrun
    refine ⟨_, by rw [parse, hcontent]; exact parseText_of_run hrun, ?_⟩
    cases result with
    | ok root =>
      rw [Parser.errors_finish_ok]
      exact hl.settled.apart
    | error d => exact (hraises d rfl).apart_recordIn hl.settled.apart

/-- Each of three blocks lacks its closing brace, which is reported once. -/
example : ((parseText .unit {} "" "fun f() \x7b\x7b\x7b").toOption.map fun answer =>
    (handedBack answer).errors.length) = some 1 := by
  decide +kernel

/-- If the parse of a unit under the default options records no error of grammar, it ends with a
root, and the errors about the meaning of the source are those that the nodes of the tree at that
root give rise to: one for each child in a list of a node with a scope that defines a name which an
earlier one defines, and one for each function for use between its arguments that has not two of
them.  Each scope of the tree binds a name to the first of these children that defines it. -/
theorem compilationUnit_semanticErrors (description text : String) : ∃ result t,
    Parser.compilationUnit.run (.ofText text description {}) = .ok (result, t) ∧
      parse .unit {} (.text description text) = .ok (Parser.finish t result) ∧
      ((∀ d ∈ (handedBack (Parser.finish t result)).errors, d.topic ≠ .grammar) →
        ∃ root, result = .ok root ∧
          ((handedBack (Parser.finish t result)).errors.filter (·.topic == .semantic)).Perm
            ((t.arena.walk root).flatMap fun visit =>
              t.arena.semanticErrors description (tokenize text) visit.1) ∧
          ∀ visit ∈ t.arena.walk root, ∀ scope, t.arena.scopeOf? visit.1 = some scope →
            ∀ name, t.arena.scopes.findLocal scope name =
              .ok (t.arena.firstItem? name visit.1)) := by
  obtain ⟨result, t, hrun⟩ := Parser.exists_entry_run .unit {} description text
  refine ⟨result, t, hrun, parseText_of_run hrun, fun hnone => ?_⟩
  obtain ⟨hl, hroot, hraises⟩ := (Parser.reports_compilationUnit
    (ParserState.settled_ofText text description {}) (Parser.clear_ofText _ _ _)).of_run hrun
  cases result with
  | error d =>
    obtain ⟨e, he, htopic⟩ := (hraises d rfl).wrong_recorded
    exact absurd htopic (hnone e he)
  | ok root =>
    rw [Parser.errors_finish_ok] at hnone ⊢
    have hperm := (hroot root rfl).perm_semanticErrors hl.settled hnone
    rw [hl.source_eq] at hperm
    refine ⟨root, rfl, hperm, fun visit hvisit scope hscope name => ?_⟩
    have hown := hl.settled.orderly.owned
    obtain ⟨k, hk⟩ := ((hl.settled.ordered.walk hown root).2 visit.1).1
      (List.mem_map_of_mem hvisit)
    obtain ⟨above, habove⟩ := Arena.exists_reaches hown hk
    have htree : Parser.RootRule.compilationUnit.tree? text description {} = some (t.arena, root) :=
      Parser.RootRule.tree?_of_run hrun
    exact Parser.RootRule.findLocal_eq htree habove hscope name

/-- A function for use between its arguments has three of them with one name, and a function after
it has its name; there the same variable is declared twice. -/
theorem compilationUnit_semanticErrors_functions : ∃ root t,
    Parser.compilationUnit.run
        (.ofText "infix fun f(x, x, x) = 1; fun f() \x7b val a; val a \x7d" "" {}) =
      .ok (.ok root, t) ∧
    (t.report.errors.filter (·.topic == .semantic)).length = 5 ∧
    (t.report.errors.filter (·.topic == .semantic)).Perm
      ((t.arena.walk root).flatMap fun visit => t.arena.semanticErrors ""
        (tokenize "infix fun f(x, x, x) = 1; fun f() \x7b val a; val a \x7d") visit.1) := by
  obtain ⟨answer, hanswer, hcheck⟩ := exists_parseText_of_any .unit {}
    "infix fun f(x, x, x) = 1; fun f() \x7b val a; val a \x7d"
    (fun r => decide ((r.errors.filter (·.topic == .semantic)).length = 5) &&
      r.errors.all (·.topic != .grammar)) (by decide +kernel)
  obtain ⟨result, t, hrun, hparse, hall⟩ := compilationUnit_semanticErrors ""
    "infix fun f(x, x, x) = 1; fun f() \x7b val a; val a \x7d"
  cases hanswer.symm.trans hparse
  obtain ⟨hcount, hnone⟩ := Bool.and_eq_true_iff.1 hcheck
  obtain ⟨root, rfl, hperm, -⟩ := hall fun d hd =>
    bne_iff_ne.1 (List.all_eq_true.1 hnone d hd)
  rw [Parser.errors_finish_ok] at hcount hperm
  exact ⟨root, t, hrun, of_decide_eq_true hcount, hperm⟩

end ExprLang
