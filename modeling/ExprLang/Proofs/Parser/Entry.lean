import ExprLang.Parser.Entry
import ExprLang.Proofs.Lexer.Tokens
import ExprLang.Proofs.Parser.Declarations

/-!
# Sources, parsed and read

What a source is parsed to depends on its words: the parse ends in a tree
exactly if the reader ends in one without an error.

Main definitions:

- Definition {lit}`Reader.entry`: the readers of whole sources.

Main results:

- Theorem {lit}`parseText_of_read`: a source that is read without errors.
- Theorem {lit}`exists_read_of_parseText`: a source that parses without errors.
-/

namespace ExprLang

/-! ## The start of a parse -/

namespace ParserState

variable {text description : String} {options : ParseOptions}

/-- The first state of a parse is one between two rules. -/
theorem valid_ofText : (ofText text description options).Valid :=
  ⟨Tape.regular_ofText text, rfl, Arena.scopesApart_empty⟩

/-- A parse starts before the first word. -/
theorem spot_ofText : (ofText text description options).spot = .start (sourceWords text.toList) :=
  Tape.spot_ofText text

/-- A parse starts without errors. -/
theorem noErrors_ofText : (ofText text description options).NoErrors := rfl

end ParserState

/-! ## Entries -/

/-- What an entry reads. -/
def Entry.role : Entry → Role
  | .unit => .unit
  | .expression => .expression
  | .statement => .statement

namespace Reader

/-- The end of the source after what a reader reads. -/
def toEnd (r : Reader Tree) : Reader Tree := do
  let tree ← r
  let _ ← expectKind .endOfFile
  return tree

/-- The reader for an entry. -/
def entry : Entry → Reader Tree
  | .unit => compilationUnit
  | .expression => toEnd (expression .lowest)
  | .statement => toEnd statement

end Reader

namespace Parser

open ParserState

variable {s : ParserState}

/-- The rule for an entry does what its reader does. -/
theorem entry_simulates (e : Entry) (hs : s.Valid) :
    Gives e.role (entry e) (Reader.entry e) s := by
  have hend {role : Role} {p : Parser NodeId} {r : Reader Tree} (h : Uses role p r s) :
      Gives role (do let root ← p; expectEnd; return root) (Reader.toEnd r) s := by
    refine .bind h fun id tree t hl hbuilt => ?_
    refine .of_eq (q := expectKind .endOfFile >>= fun _ => pure id)
      (m := Reader.expectKind .endOfFile >>= fun _ => pure tree) ?_ rfl ?_
    · unfold expectEnd
      rw [bind_assoc]
      rfl
    · refine .bind_expectKind hl.valid fun _ => ?_
      have hl' : Leads t.arena t t.advanced := .advanced hl.valid
      exact .pure hl'.valid ⟨hbuilt.1.kept.later hl', hbuilt.1.written⟩
  cases e with
  | unit => exact compilationUnit_simulates hs
  | expression => exact hend (expression_simulates .lowest hs)
  | statement => exact hend (statement_simulates hs)

/-- The parse of a text comes back with a node or a diagnostic. -/
theorem exists_entry_run (e : Entry) (o : ParseOptions) (description text : String) :
    ∃ result t, (entry e).run (.ofText text description o) = .ok (result, t) := by
  have h := entry_simulates e (show (ofText text description o).Valid from valid_ofText)
  rcases Ensures.exists_run h with ⟨id, t, hrun, -⟩ | ⟨d, t, hrun, -⟩
  · exact ⟨.ok id, t, hrun⟩
  · exact ⟨.error d, t, hrun⟩

end Parser

/-! ## Parses that go on after errors -/

section

variable {e : Entry} {description text : String}

/-- How a parse ends, and how the reader ends. -/
theorem exists_run (e : Entry) (description text : String) :
    (∃ id t tree clean rest,
      (Parser.entry e).run (.ofText text description {}) = .ok (.ok id, t) ∧
        Reader.entry e (.start (sourceWords text.toList)) = ⟨some tree, clean, rest⟩ ∧
        (t.NoErrors ↔ clean = true) ∧ t.arena.Denotes id tree ∧ Tree.Written e.role tree ∧
        (t.NoErrors → tree.Tidy)) ∨
      ∃ d t clean rest,
        (Parser.entry e).run (.ofText text description {}) = .ok (.error d, t) ∧
          Reader.entry e (.start (sourceWords text.toList)) = ⟨none, clean, rest⟩ := by
  have h := Parser.entry_simulates e
    (show (ParserState.ofText text description {}).Valid from ParserState.valid_ofText)
  rcases Parser.Ensures.exists_run h with
    ⟨id, t, hrun, -, tree, hbuilt, hread⟩ | ⟨d, t, hrun, -, -, hread⟩
  · obtain ⟨clean, hread, hclean⟩ := hread rfl
    rw [ParserState.spot_ofText] at hread
    refine .inl ⟨id, t, tree, clean, t.spot, hrun, hread, ?_, hbuilt.kept.denotes,
      hbuilt.written, hbuilt.kept.tidy⟩
    rw [hclean, and_iff_right ParserState.noErrors_ofText]
  · obtain ⟨clean, hread⟩ := hread rfl
    rw [ParserState.spot_ofText] at hread
    exact .inr ⟨d, t, clean, t.spot, hrun, hread⟩

/-- A source that is read without errors parses to a node for what is read. -/
theorem parseText_of_read {tree : Tree} {rest : Spot} (description : String)
    (h : Reader.entry e (.start (sourceWords text.toList)) = ⟨some tree, true, rest⟩) :
    ∃ p, parseText e {} description text = .ok (.ok p) ∧ p.arena.Denotes p.root tree := by
  rcases exists_run e description text with
    ⟨id, t, tree', clean, rest', hrun, hread, hclean, hdenotes, -⟩ | ⟨d, t, clean, rest', -, hread⟩
  · rw [h] at hread
    cases hread
    have herrors : t.report.hasErrors = false :=
      t.report.hasErrors_eq_false_iff.2 (hclean.2 rfl)
    refine ⟨⟨t.arena, id, t.report⟩, ?_, hdenotes⟩
    simp [parseText, hrun, bind, Except.bind, Parser.finish, herrors, pure, Except.pure]
  · rw [h] at hread
    cases hread

/-- A source that parses without errors is read without errors, and its root stands for what is
read. -/
theorem exists_read_of_parseText {p : Parsed}
    (h : parseText e {} description text = .ok (.ok p)) :
    ∃ tree rest, Reader.entry e (.start (sourceWords text.toList)) = ⟨some tree, true, rest⟩ ∧
      p.arena.Denotes p.root tree ∧ Tree.Written e.role tree ∧ tree.Tidy := by
  rcases exists_run e description text with
    ⟨id, t, tree, clean, rest, hrun, hread, hclean, hdenotes, hwritten, htidy⟩ |
      ⟨d, t, clean, rest, hrun, -⟩
  · simp only [parseText, hrun, bind, Except.bind, Parser.finish, pure, Except.pure] at h
    cases herrors : t.report.hasErrors with
    | true => rw [herrors, if_pos rfl] at h; cases h
    | false =>
      rw [herrors, if_neg Bool.false_ne_true] at h
      cases h
      have hno : t.NoErrors := t.report.hasErrors_eq_false_iff.1 herrors
      obtain rfl := hclean.1 hno
      exact ⟨tree, rest, hread, hdenotes, hwritten, htidy hno⟩
  · simp only [parseText, hrun, bind, Except.bind, Parser.finish, pure, Except.pure] at h
    cases h

end

end ExprLang
