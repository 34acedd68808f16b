import ExprLang.Proofs.Reader.Declarations

/-!
# Reading sources

A source that consists of the words of a tree is read as what the text of the
tree is read as, from the first word to the end.

Main results:

- Theorem {lit}`Reader.reads_entry`: the words of a tree.
- Theorem {lit}`Reader.read_chars`: the text of a tree.
-/

namespace ExprLang

namespace Reader

open ExprLang.Tree

variable {p : Prop} {tree : Tree} {rest : List Word}

/-! ## Units -/

/-- An item of a unit. -/
def IsItem (p : Prop) (tree : Tree) : Prop :=
  Readable p .importPath tree ∨ Readable p .function tree

/-- An item of a unit begins with the keyword of an import or of a function. -/
theorem exists_first_item (h : IsItem p tree) :
    ∃ w ws, tree.words = w :: ws ∧
      (w.kind = .wordImport ∨ w.kind = .wordFun ∨ w.kind = .wordInfix) := by
  rcases h with h | h
  · obtain ⟨hwritten, -, -⟩ := h
    cases hwritten with
    | importPath => exact ⟨_, _, by rw [words], .inl rfl⟩
  · obtain ⟨hwritten, -, -⟩ := h
    cases hwritten with
    | @function name isInfix =>
      rw [words_function, headWords]
      cases isInfix with
      | true => exact ⟨_, _, rfl, .inr (.inr rfl)⟩
      | false => exact ⟨_, _, rfl, .inr (.inl rfl)⟩

/-- An import or a function. -/
theorem reads_topLevel {E : ExpressionReader} {n : Nat} (hE : Covers E n) (h : IsItem p tree)
    (hn : tree.words.length < n) :
    Reads p (topLevel E) (tree.words ++ rest) tree.reparsed rest := by
  rcases h with h | h
  · have hread : Reads p (importRule E) (tree.words ++ rest) tree.reparsed rest :=
      reads_import h.written
    obtain ⟨hwritten, -, -⟩ := h
    cases hwritten with
    | importPath =>
      rw [words] at hread ⊢
      exact .bind .peek hread
  · have hread : Reads p (Reader.function E) (tree.words ++ rest) tree.reparsed rest :=
      hE.reads_function h hn
    obtain ⟨hwritten, -, -⟩ := h
    cases hwritten with
    | @function name isInfix =>
      rw [words_function, headWords] at hread ⊢
      cases isInfix <;> exact .bind .peek hread

/-- The items of a unit. -/
theorem reads_items {trees : List Tree} (h : ∀ tree ∈ trees, IsItem p tree) (items : TreeItems)
    {n : Nat} (hn : (trees.map words).flatten.length < n) :
    Reads p (loop unitStep n items) (trees.map words).flatten
      ((trees.map reparsed).foldl .push items) [] := by
  induction trees generalizing items n with
  | nil => exact .loop_end hn (.bind (.check _) (.pure _))
  | cons tree trees ih =>
    have htree := h tree (List.mem_cons_self ..)
    obtain ⟨w, ws, hwords, hfirst⟩ := exists_first_item htree
    rw [List.map_cons, List.flatten_cons] at hn ⊢
    have hend : (Expectation.kind .endOfFile).accepts
        (nextKind (tree.words ++ (trees.map words).flatten)) = false := by
      rw [hwords, List.cons_append, nextKind_cons]
      rcases hfirst with hk | hk | hk <;> rw [hk] <;> rfl
    have hitem : Reads p (do topLevel (expressionWithin (← bound)))
        (tree.words ++ (trees.map words).flatten) tree.reparsed (trees.map words).flatten := by
      refine .bind_bound fun m hm => reads_topLevel (covers_expressionWithin m) htree ?_
      rw [List.length_append] at hm
      omega
    refine .loop_next hn (.bind (.check _) ?_) ?_ fun m hm =>
      ih (fun other ho => h other (List.mem_cons_of_mem _ ho)) (items.push tree.reparsed) hm
    · rw [hend]
      exact .bind (hitem.synchronized _) (.pure _)
    · simp only [hwords, List.length_append, List.length_cons]
      omega

/-- Imports and functions are put in order. -/
theorem foldl_push {imports declarations : List Tree}
    (hi : ∀ item ∈ imports, Written .importPath item)
    (hd : ∀ item ∈ declarations, Written .function item) :
    ((imports ++ declarations).map reparsed).foldl TreeItems.push ⟨[], []⟩ =
      ⟨imports.map reparsed, declarations.map reparsed⟩ := by
  have hfunctions (items : TreeItems) : (declarations.map reparsed).foldl TreeItems.push items =
      ⟨items.imports, items.declarations ++ declarations.map reparsed⟩ := by
    induction declarations generalizing items with
    | nil => simp
    | cons item declarations ih =>
      cases hd item (List.mem_cons_self ..) with
      | function =>
        rw [List.map_cons, List.foldl_cons, ih fun other ho => hd other (List.mem_cons_of_mem _ ho),
          reparsed]
        simp [TreeItems.push]
  have himports (items : TreeItems) : (imports.map reparsed).foldl TreeItems.push items =
      ⟨items.imports ++ imports.map reparsed, items.declarations⟩ := by
    induction imports generalizing items with
    | nil => simp
    | cons item imports ih =>
      cases hi item (List.mem_cons_self ..) with
      | importPath =>
        rw [List.map_cons, List.foldl_cons, ih fun other ho => hi other (List.mem_cons_of_mem _ ho),
          reparsed]
        simp [TreeItems.push]
  rw [List.map_append, List.foldl_append, himports, hfunctions]
  rfl

/-- A whole unit. -/
theorem reads_compilationUnit (h : Readable p .unit tree) :
    Reads p compilationUnit tree.words tree.reparsed [] := by
  obtain ⟨hwritten, -, -⟩ := id h
  cases hwritten with
  | @compilationUnit imports declarations hi hd =>
    have hitems : ∀ tree ∈ imports ++ declarations, IsItem p tree := by
      intro tree hmem
      rcases List.mem_append.1 hmem with hmem | hmem
      · exact .inl (h.child (hi tree hmem) (by simp [children, groups, hmem]))
      · exact .inr (h.child (hd tree hmem) (by simp [children, groups, hmem]))
    have htidy (hp : p) : (Tree.compilationUnit (imports.map reparsed)
        (declarations.map reparsed)).isTidy = true := by
      have hall := (all_iff.1 (h.tidy hp)).1
      rwa [reparsed] at hall
    have hread : Reads p unitItems ((imports ++ declarations).map words).flatten
        ⟨imports.map reparsed, declarations.map reparsed⟩ [] := by
      rw [← foldl_push hi hd]
      exact .bind_bound fun _ hn => reads_items hitems _ hn
    rw [words, reparsed, ← List.map_append]
    exact .bind hread (.bind (.require htidy) (.pure _))

/-! ## Entries -/

/-- The end of the source. -/
theorem reads_toEnd {r : Reader Tree} {ws : List Word} (h : Reads p r ws tree []) :
    Reads p (toEnd r) ws tree [] := by
  have hend : Reads p (expectKind .endOfFile) [] .endOfFile [] :=
    .bind (.check _) fun flag => ⟨true, flag, rfl, fun _ => rfl⟩
  exact .bind h (.bind hend (.pure _))

/-- The words of a tree. -/
theorem reads_entry {e : Entry} (h : Readable p e.role tree) :
    Reads p (entry e) tree.words tree.reparsed [] := by
  cases e with
  | unit => exact reads_compilationUnit h
  | expression =>
    refine reads_toEnd (.bind_bound fun n hn => ?_)
    have hread : Reads p (expressionWithin n .lowest) (tree.words ++ []) tree.reparsed [] :=
      (covers_expressionWithin n).reads_words nofun h hn ⟨rfl, nofun⟩
    rwa [List.append_nil] at hread
  | statement =>
    refine reads_toEnd (.bind_bound fun n hn => ?_)
    have hread : Reads p (statementRule (expressionWithin n)) (tree.words ++ []) tree.reparsed [] :=
      (covers_expressionWithin n).reads_statement h (Nat.le_of_lt hn)
    rwa [List.append_nil] at hread

/-- The text of a tree is read as far as it tells the tree, without errors if what it is read as
is tidy. -/
theorem read_chars {e : Entry} (h : Written e.role tree) (hl : tree.Legible) :
    ∃ clean rest, entry e (.start (sourceWords tree.chars)) = ⟨some tree.reparsed, clean, rest⟩ ∧
      (tree.reparsed.Tidy → clean = true) := by
  rw [h.lexes.sourceWords_eq]
  obtain ⟨clean, flag, hread, hclean⟩ :=
    reads_entry (p := tree.reparsed.Tidy) ⟨h, hl, id⟩ false
  exact ⟨clean, ⟨[], flag⟩, hread, hclean⟩

end Reader

end ExprLang
