import ExprLang.Proofs.Reader.Sources
import ExprLang.Proofs.Tree.Built

/-!
# Round trips

The text of a parsed tree parses to an equivalent tree exactly if the text tells
the tree from all others.  It does not where a placeholder of a template is a
string literal, where a template has no other placeholder, and where a pattern is
a name.

Main results:

- Theorem {lit}`parseText_render_iff`: texts of trees that come from a parse.
- Theorem {lit}`exists_parseText_render`: texts of expressions built by hand.
-/

namespace ExprLang

namespace Arena.Denotes

variable {a : Arena} {id : NodeId} {tree : Tree}

/-- The values in a tree are those of nodes. -/
theorem legible (h : a.Denotes id tree)
    (hl : ∀ id value, a.form? id = some (.literal value) → value.Legible) : tree.Legible := by
  induction tree using Tree.induct generalizing id with
  | step tree ih =>
    obtain ⟨hform, hbare, -, hgroups⟩ := h
    rename_i form
    refine Tree.all_iff.2 ⟨?_, fun child hc => ?_⟩
    · rintro value rfl
      cases form <;> cases hbare
      exact hl id value hform
    · obtain ⟨group, hg, hmem⟩ := List.mem_flatten.1 hc
      refine forall_right_of_forall₂ (p := fun group => ∀ t ∈ group, t ∈ tree.children →
        t.Legible) hgroups (fun ids group hids => ?_) group hg child hmem hc
      exact forall_right_of_forall₂ hids fun id t ht hchild => ih t hchild ht

end Arena.Denotes

/-! ## Texts that are parsed -/

/-- What a text is parsed to. -/
def parsed? (e : Entry) (text : String) : Option Parsed :=
  (parseText e {} "" text).toOption.bind Except.toOption

/-- What there is has been parsed without errors. -/
theorem parseText_of_parsed? {e : Entry} {text : String} {p : Parsed}
    (h : parsed? e text = some p) : parseText e {} "" text = .ok (.ok p) := by
  obtain ⟨result, hresult, hp⟩ := Option.bind_eq_some_iff.1 h
  cases hparse : parseText e {} "" text with
  | error fault =>
    rw [hparse] at hresult
    cases hresult
  | ok result' =>
    rw [hparse] at hresult
    cases hresult
    cases result with
    | error report => cases hp
    | ok q =>
      cases hp
      rfl

/-- What is parsed without errors is there. -/
theorem parsed?_of_parseText {e : Entry} {text : String} {p : Parsed}
    (h : parseText e {} "" text = .ok (.ok p)) : parsed? e text = some p := by
  rw [parsed?, h]
  rfl

/-- Whether a node is no number that its text is not read as. -/
def Form.isLegible : Form → Bool
  | .literal value => decide value.Legible
  | _ => true

/-- Whether all numbers in an arena are read from their texts. -/
def Arena.allLegible (a : Arena) : Bool :=
  a.nodes.toList.all (·.form.isLegible)

/-- The numbers of an arena are those of its nodes. -/
theorem Arena.legible_of_allLegible {a : Arena} (hl : a.allLegible = true) {id : NodeId}
    {value : Literal} (h : a.form? id = some (.literal value)) : value.Legible := by
  obtain ⟨node, hnode, hform⟩ := Option.map_eq_some_iff.1 h
  have hmem : node ∈ a.nodes.toList := by
    rw [Array.mem_toList_iff]
    exact Array.mem_of_getElem? hnode
  have hlegible := List.all_eq_true.1 hl node hmem
  rw [hform] at hlegible
  exact of_decide_eq_true hlegible

/-! ## Parsed trees -/

/-- The text of a tree of the language parses to an equivalent tree exactly if it tells the tree
from all others. -/
theorem exists_parseText_render_iff {e : Entry} {a : Arena} {root : NodeId} {tree : Tree}
    (hd : a.Denotes root tree) (hw : Tree.Written e.role tree) (ht : tree.Tidy)
    (hl : tree.Legible) (description : String) :
    (∃ q, parseText e {} description (a.render root) = .ok (.ok q) ∧
      q.arena.equivalent q.root a root = true) ↔ tree.Printable := by
  obtain ⟨clean, rest, hread, hclean⟩ := Reader.read_chars hw hl
  rw [← hd.toList_render] at hread
  constructor
  · rintro ⟨q, hparse, hequivalent⟩
    obtain ⟨tree', rest', hread', hdenotes, -, -⟩ := exists_read_of_parseText hparse
    rw [hread] at hread'
    cases hread'
    exact Tree.printable_of_agrees ((hdenotes.equivalent_iff hd).1 hequivalent)
  · intro hp
    rw [Tree.reparsed_eq_of_printable hp] at hread hclean
    cases hclean ht
    obtain ⟨q, hparse, hdenotes⟩ := parseText_of_read description hread
    exact ⟨q, hparse, (hdenotes.equivalent_iff hd).2 hw.agrees_self⟩

/-- The text of a source that parses without errors parses to an equivalent tree exactly if it
tells the tree from all others, provided that the numbers with a fraction in it are read from
their texts. -/
theorem parseText_render_iff {e : Entry} {description text : String} {p : Parsed}
    (h : parseText e {} description text = .ok (.ok p))
    (hl : ∀ id value, p.arena.form? id = some (.literal value) → value.Legible) :
    ∃ tree, p.arena.Denotes p.root tree ∧
      ((∃ q, parseText e {} description (p.arena.render p.root) = .ok (.ok q) ∧
        q.arena.equivalent q.root p.arena p.root = true) ↔ tree.Printable) := by
  obtain ⟨tree, -, -, hdenotes, hwritten, htidy⟩ := exists_read_of_parseText h
  exact ⟨tree, hdenotes,
    exists_parseText_render_iff hdenotes hwritten htidy (hdenotes.legible hl) description⟩

/-- The text of a sum with a fraction is read as a sum. -/
theorem parseText_render_iff_sum : ∃ p,
    parseText .expression {} "" "1.5f + x" = .ok (.ok p) ∧
      (∀ id value, p.arena.form? id = some (.literal value) → value.Legible) ∧
      ∃ tree, p.arena.Denotes p.root tree ∧
        ((∃ q, parseText .expression {} "" (p.arena.render p.root) = .ok (.ok q) ∧
          q.arena.equivalent q.root p.arena p.root = true) ↔ tree.Printable) := by
  have hall : (parsed? .expression "1.5f + x").any (·.arena.allLegible) = true := by
    decide +kernel
  obtain ⟨p, hp, hl⟩ := (Option.any_eq_true _ _).1 hall
  have hparse := parseText_of_parsed? hp
  exact ⟨p, hparse, fun _ _ => Arena.legible_of_allLegible hl,
    parseText_render_iff hparse fun _ _ => Arena.legible_of_allLegible hl⟩

/-- A string as a placeholder becomes part of the text around it. -/
theorem not_exists_parseText_render_of_string_placeholder : ∃ p,
    parseText .expression {} "" "\"a\\\x7b\"s\"\x7db\"" = .ok (.ok p) ∧
      ¬ ∃ q, parseText .expression {} "" (p.arena.render p.root) = .ok (.ok q) ∧
        q.arena.equivalent q.root p.arena p.root = true := by
  have hagain : (parsed? .expression "\"a\\\x7b\"s\"\x7db\"").any (fun p =>
      (parsed? .expression (p.arena.render p.root)).all fun q =>
        !q.arena.equivalent q.root p.arena p.root) = true := by decide +kernel
  obtain ⟨p, hp, hall⟩ := (Option.any_eq_true _ _).1 hagain
  refine ⟨p, parseText_of_parsed? hp, ?_⟩
  rintro ⟨q, hq, hequivalent⟩
  rw [parsed?_of_parseText hq, Option.all_some, hequivalent] at hall
  cases hall

/-! ## Trees built by hand -/

/-- The text of an expression built by hand parses to an equivalent expression. -/
theorem exists_parseText_render {a : Arena} {id : NodeId} (ha : a.Allocated)
    (hid : a.IsExpression id) (description : String) :
    ∃ q, parseText .expression {} description (a.render id) = .ok (.ok q) ∧
      q.arena.equivalent q.root a id = true := by
  obtain ⟨tree, hdenotes, hwritten, hplain⟩ := hid.exists_denotes ha.index_le
  exact (exists_parseText_render_iff (e := .expression) hdenotes hwritten
    (hplain.imp fun _ h => h.isTidy) (hplain.imp fun _ h => h.legible) description).2
      (hplain.imp fun _ h => h.prints)

/-- A member of a negative number is called. -/
theorem exists_parseText_render_call : ∃ a id, Arena.Allocated a ∧ a.IsExpression id ∧
    ∃ q, parseText .expression {} "" (a.render id) = .ok (.ok q) ∧
      q.arena.equivalent q.root a id = true := by
  let number (parent : Option NodeId) : Node := ⟨.literal (.int (-1)), parent, none, none⟩
  let member (parent : Option NodeId) : Node :=
    ⟨.memberAccess (some ⟨0⟩) "f", parent, none, none⟩
  let name (parent : Option NodeId) : Node := ⟨.reference "x", parent, none, none⟩
  let call (parent : Option NodeId) : Node :=
    ⟨.anonymousInvocation (some ⟨1⟩) [⟨2⟩], parent, none, none⟩
  have h₀ : Arena.Allocated ⟨#[number none], {}, []⟩ :=
    .alloc .empty (show Arena.alloc _ (number none).form = .ok (⟨0⟩, _) from rfl)
  have h₁ : Arena.Allocated ⟨#[number (some ⟨1⟩), member none], {}, []⟩ :=
    .alloc h₀ (show Arena.alloc _ (member none).form = .ok (⟨1⟩, _) from rfl)
  have h₂ : Arena.Allocated ⟨#[number (some ⟨1⟩), member none, name none], {}, []⟩ :=
    .alloc h₁ (show Arena.alloc _ (name none).form = .ok (⟨2⟩, _) from rfl)
  have h₃ : Arena.Allocated
      ⟨#[number (some ⟨1⟩), member (some ⟨3⟩), name (some ⟨3⟩), call none], {}, []⟩ :=
    .alloc h₂ (show Arena.alloc _ (call none).form = .ok (⟨3⟩, _) from rfl)
  have hnumber : Arena.IsExpression
      ⟨#[number (some ⟨1⟩), member (some ⟨3⟩), name (some ⟨3⟩), call none], {}, []⟩ ⟨0⟩ :=
    .literal (show _ = some (Form.literal (.int (-1))) from rfl) ⟨by decide, by decide⟩
  have hcall := Arena.IsExpression.anonymousInvocation
    (show Arena.form? _ ⟨3⟩ = _ from rfl)
    (.memberAccess rfl hnumber ⟨by decide, by decide⟩) nofun
    (List.forall_mem_singleton.2 (.reference rfl ⟨by decide, by decide⟩))
  exact ⟨_, ⟨3⟩, h₃, hcall, exists_parseText_render h₃ hcall ""⟩

end ExprLang
