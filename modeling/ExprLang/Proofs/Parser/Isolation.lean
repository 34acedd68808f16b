import ExprLang.Proofs.Lexer.Nesting
import ExprLang.Proofs.Parser.Entry
import ExprLang.Proofs.Reader.Isolation
import ExprLang.Proofs.Tree.Written

/-!
# Recovery isolates declarations

Whatever stands before an import or a function, it is parsed as if it stood alone:
its node and those of all that follows are equivalent to the ones that the rest of
the text alone gives.  What stands before has to close what it opens, and must not
end in the word that a function may begin with.

Main definitions:

- Definition {lit}`Arena.EndLike`: nodes end with some that are equivalent to others.

Main results:

- Theorem {lit}`unit_ends_with_suffix`: a unit ends with the items of a suffix of its
  text that begins with a declaration.
-/

namespace ExprLang

/-- Some nodes of one arena end with as many as there are of another arena, each of them equivalent
to its counterpart. -/
def Arena.EndLike (a b : Arena) (ids others : List NodeId) : Prop :=
  ∃ first last, ids = first ++ last ∧
    List.Forall₂ (fun id other => a.equivalent id b other = true) last others

/-- The words of a text are not the end of the source. -/
theorem kind_ne_of_mem_sourceWords {text : String} {w : Word} (h : w ∈ sourceWords text.toList) :
    w.kind ≠ .endOfFile := by
  have hwords := Lexer.map_word_tokens (.ofText reference text)
  rw [show sourceWords text.toList = (tokenize text).map Token.word from hwords.symm] at h
  obtain ⟨token, htoken, rfl⟩ := List.mem_map.1 h
  exact (proper_of_mem_tokenize htoken).kind_ne

/-- A parse that goes on after every error ends in a unit for what the words hold. -/
theorem exists_run_of_holds {text : String} {items : TreeItems} (description : String)
    (h : Reader.Holds (.start (sourceWords text.toList)) items) :
    ∃ root s imports declarations scope,
      Parser.compilationUnit.run (.ofText text description {}) = .ok (.ok root, s) ∧
        s.arena.form? root = some (.compilationUnit imports declarations scope) ∧
        List.Forall₂ s.arena.Denotes imports items.imports ∧
        List.Forall₂ s.arena.Denotes declarations items.declarations ∧
        Tree.Written .unit (.compilationUnit items.imports items.declarations) := by
  obtain ⟨clean, rest, hread⟩ := Reader.exists_compilationUnit h
  rcases exists_run .unit description text with
    ⟨root, s, tree, clean', rest', hrun, hread', -, hdenotes, hwritten, -⟩ |
      ⟨d, s, clean', rest', -, hread'⟩
  · rw [show Reader.entry .unit = Reader.compilationUnit from rfl, hread] at hread'
    cases hread'
    obtain ⟨hform, hbare, -, hgroups⟩ := hdenotes
    rename_i form
    cases form with
    | compilationUnit imports declarations scope =>
      simp only [Form.childGroups, Tree.groups, List.map_cons, List.map_nil, List.forall₂_cons,
        ChildGroup.children] at hgroups
      exact ⟨root, s, imports, declarations, scope, hrun, hform, hgroups.1, hgroups.2.1, hwritten⟩
    | _ => cases hbare
  · rw [show Reader.entry .unit = Reader.compilationUnit from rfl, hread] at hread'
    cases hread'

/-- Nodes for trees end with nodes that are equivalent to nodes for the last of the trees. -/
theorem Arena.endLike_of_forall₂ {a b : Arena} {ids others : List NodeId} {first last : List Tree}
    (h : List.Forall₂ a.Denotes ids (first ++ last)) (h' : List.Forall₂ b.Denotes others last)
    (hself : ∀ tree ∈ last, tree.Agrees tree) : a.EndLike b ids others := by
  have hback := List.forall₂_drop_append ids first last h
  refine ⟨ids.take first.length, ids.drop first.length, (List.take_append_drop ..).symm, ?_⟩
  refine (forall₂_congr_of_forall₂ hback h' ?_).2 (List.forall₂_same.2 hself)
  intro id _ tree _ other tree' hid hother
  exact hid.equivalent_iff hother

/-- A unit ends with the items of a suffix of its text.  Let the suffix begin with a token
{lit}`fun` or {lit}`import` such that the lexer is in no state but the first one before it, every
opening brace before it is closed before it, and the token before it is not {lit}`infix`.  Then a
parse of the whole text that goes on after every error ends in a unit, so does a parse of the suffix
alone, and the imports and declarations of the whole end with nodes that are, one by one, equivalent
to the imports and declarations of the suffix. -/
theorem unit_ends_with_suffix {front suffix : String} {before : List Token} {l after : Lexer}
    {token : Token} (hgives : (Lexer.ofText reference (front ++ suffix)).Gives before l)
    (hnext : l.next = (some token, after))
    (hstart : token.span.start.offset = front.utf8ByteSize)
    (hkind : token.kind = .wordFun ∨ token.kind = .wordImport) (hdepth : l.depth = 1)
    (hbraces : openBraces (before.map Token.kind) = 0)
    (hlast : ∀ t ∈ before.getLast?, t.kind ≠ .wordInfix) (description description' : String) :
    ∃ root s imports declarations scope root' s' imports' declarations' scope',
      Parser.compilationUnit.run (.ofText (front ++ suffix) description {}) = .ok (.ok root, s) ∧
        s.arena.form? root = some (.compilationUnit imports declarations scope) ∧
        Parser.compilationUnit.run (.ofText suffix description' {}) = .ok (.ok root', s') ∧
        s'.arena.form? root' = some (.compilationUnit imports' declarations' scope') ∧
        s.arena.EndLike s'.arena imports imports' ∧
        s.arena.EndLike s'.arena declarations declarations' := by
  obtain ⟨hrun, hstack⟩ := hgives.run?_eq_nil hdepth hbraces
  obtain ⟨hwords, hhead⟩ := hgives.sourceWords_append hstack hnext hstart
  have hbegins : BeginsDeclaration (sourceWords suffix.toList) := by
    obtain ⟨ws, hws⟩ := List.head?_eq_some_iff.1 hhead
    refine ⟨_, ws, hws, ?_⟩
    rcases hkind with hk | hk <;> (rw [Token.kind_word, hk]; rfl)
  have hbefore : Before (sourceWords suffix.toList) []
      (Spot.start (sourceWords (front ++ suffix).toList)).words := by
    refine ⟨before.map Token.word, [], hwords, ?_, List.nil_sublist _, ?_⟩
    · rw [List.map_map]
      exact hrun
    · intro w hw
      rw [List.getLast?_map] at hw
      obtain ⟨t, ht, rfl⟩ := Option.map_eq_some_iff.1 hw
      exact hlast t ht
  obtain ⟨items, hitems⟩ := Reader.exists_holds (.start (sourceWords suffix.toList))
  obtain ⟨first, hfirst⟩ := Reader.exists_holds_append hbegins hbefore
    (fun w hw => kind_ne_of_mem_sourceWords hw) hitems
  obtain ⟨root, s, imports, declarations, scope, hparse, hform, himports, hdeclarations, -⟩ :=
    exists_run_of_holds description hfirst
  obtain ⟨root', s', imports', declarations', scope', hparse', hform', himports', hdeclarations',
    hwritten⟩ := exists_run_of_holds description' hitems
  obtain ⟨hi, hd⟩ : (∀ item ∈ items.imports, Tree.Written .importPath item) ∧
      ∀ item ∈ items.declarations, Tree.Written .function item := by
    cases hwritten with
    | compilationUnit hi hd => exact ⟨hi, hd⟩
  refine ⟨root, s, imports, declarations, scope, root', s', imports', declarations', scope', hparse,
    hform, hparse', hform', ?_, ?_⟩
  · exact Arena.endLike_of_forall₂ himports himports' fun tree ht => (hi tree ht).agrees_self
  · exact Arena.endLike_of_forall₂ hdeclarations hdeclarations'
      fun tree ht => (hd tree ht).agrees_self

/-- A function after a string with an empty placeholder, where no string may stand. -/
theorem unit_ends_with_suffix_string :
    ∃ front suffix before l after token, front = "\"\\\x7b\x7d\" " ∧ suffix = "fun f() \x7b\x7d" ∧
      (Lexer.ofText reference (front ++ suffix)).Gives before l ∧
        l.next = (some token, after) ∧ token.span.start.offset = front.utf8ByteSize ∧
        token.kind = .wordFun ∧ l.depth = 1 ∧ openBraces (before.map Token.kind) = 0 ∧
        (∀ t ∈ before.getLast?, t.kind ≠ .wordInfix) ∧
        ∃ root s imports declarations scope root' s' imports' declarations' scope',
          Parser.compilationUnit.run (.ofText (front ++ suffix) "" {}) = .ok (.ok root, s) ∧
            s.arena.form? root = some (.compilationUnit imports declarations scope) ∧
            Parser.compilationUnit.run (.ofText suffix "" {}) = .ok (.ok root', s') ∧
            s'.arena.form? root' = some (.compilationUnit imports' declarations' scope') ∧
            s.arena.EndLike s'.arena imports imports' ∧
            s.arena.EndLike s'.arena declarations declarations' := by
  have hcall {l m : Lexer} {tokens : List Token} (token : Token) (_ : l.Gives tokens m)
      (hfirst : m.next.1 = some token) : m.next = (some token, m.next.2) :=
    Prod.ext hfirst rfl
  have hstart := Lexer.Gives.nil
    (l := Lexer.ofText reference ("\"\\\x7b\x7d\" " ++ "fun f() \x7b\x7d"))
  have hquote := hstart.snoc (hcall ⟨.stringStart, "\"", ⟨⟨0, 0, 0⟩, ⟨0, 1, 1⟩⟩⟩ hstart
    (by decide +kernel))
  have hopen := hquote.snoc (hcall ⟨.templateStart, "\\\x7b", ⟨⟨0, 1, 1⟩, ⟨0, 3, 3⟩⟩⟩ hquote
    (by decide +kernel))
  have hclose := hopen.snoc (hcall ⟨.templateEnd, "\x7d", ⟨⟨0, 3, 3⟩, ⟨0, 4, 4⟩⟩⟩ hopen
    (by decide +kernel))
  have hgives := hclose.snoc (hcall ⟨.stringEnd, "\"", ⟨⟨0, 4, 4⟩, ⟨0, 5, 5⟩⟩⟩ hclose
    (by decide +kernel))
  have hnext := hcall ⟨.wordFun, "fun", ⟨⟨0, 6, 6⟩, ⟨0, 9, 9⟩⟩⟩ hgives (by decide +kernel)
  have hdepth : (Lexer.ofText reference
      ("\"\\\x7b\x7d\" " ++ "fun f() \x7b\x7d")).next.2.next.2.next.2.next.2.depth = 1 := by
    decide +kernel
  exact ⟨_, _, _, _, _, _, rfl, rfl, hgives, hnext, by decide, rfl, hdepth, by decide, by decide,
    unit_ends_with_suffix hgives hnext (by decide) (.inl rfl) hdepth (by decide) (by decide) "" ""⟩

end ExprLang
