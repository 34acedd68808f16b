import ExprLang.Proofs.Reader.Covers

/-!
# Reading statements

Statements end with a semicolon, so whatever follows them does not matter.  A
block is read if the reader for expressions covers what is in it.

Main results:

- Theorem {lit}`Reader.Covers.reads_statement`: a statement.
- Theorem {lit}`Reader.Covers.reads_block`: a block.
-/

namespace ExprLang

namespace Reader

open ExprLang.Tree

variable {E : ExpressionReader} {n : Nat} {p : Prop} {tree : Tree} {ws rest : List Word}

/-! ## Pieces -/

/-- The semicolon that ends a statement. -/
theorem reads_terminator : Reads p terminator (.mark .semicolon :: rest) () rest :=
  .bind (.skipKind rfl) (.pure _)

/-- An expression after a word of some kind. -/
theorem reads_optionalExpression {r : Reader Tree} {kind : TokenKind} {w : Word}
    (hw : w.kind = kind) (h : Reads p r ws tree rest) :
    Reads p (optionalExpression r kind) (w :: ws) (some tree) rest :=
  .bind (.skipKind hw) (h.map some)

/-- No expression where there is no word of some kind. -/
theorem reads_optionalExpression_of_ne {r : Reader Tree} {kind : TokenKind}
    (h : nextKind rest ≠ kind) : Reads p (optionalExpression r kind) rest none rest :=
  .bind (.skipKind_of_ne h) (.pure _)

namespace Covers

variable (hE : Covers E n)
include hE

/-- An expression without parentheses around it. -/
theorem reads_words {min : Precedence} (hmin : min ≠ .postfixCall)
    (h : Readable p .expression tree) (hn : tree.words.length < n)
    (hs : Stops tree.isLoose (nextKind rest)) :
    Reads p (E min) (tree.words ++ rest) tree.reparsed rest :=
  hE (.words hmin) h hn hs

/-- An expression before a semicolon. -/
theorem reads_before_semicolon (h : Readable p .expression tree) (hn : tree.words.length < n) :
    Reads p (E .lowest) (tree.words ++ .mark .semicolon :: rest) tree.reparsed
      (.mark .semicolon :: rest) :=
  hE.reads_words nofun h hn ⟨rfl, nofun⟩

/-! ## Statements -/

/-- A variable. -/
theorem reads_localVariable {name : String} {isMutable : Bool} {type : Option String}
    {initializer : Option Tree} (hname : IsName name)
    (htype : ∀ text, type = some text → IsType text)
    (hvalue : ∀ value, initializer = some value →
      Readable p .expression value ∧ value.words.length < n) :
    Reads p (statementRule E) ((Tree.localVariable name isMutable type initializer).words ++ rest)
      (Tree.localVariable name isMutable type initializer).reparsed rest := by
  have hkeyword : ((Word.ofText (if isMutable then "var" else "val")).kind == .wordVar) =
      isMutable := by
    cases isMutable <;> rfl
  have hread {mid : List Word} {initializer' : Option Tree}
      (hdot : nextKind mid ≠ .dot) (hcolon : nextKind mid ≠ .colon)
      (h : Reads p (optionalExpression (E .lowest) .assign) mid initializer'
        (.mark .semicolon :: rest)) :
      Reads p (statementRule E) (Word.ofText (if isMutable then "var" else "val") ::
        Word.ofText name :: (typeWords type ++ mid))
        (.localVariable name isMutable type initializer') rest := by
    refine .bind (.bind .peek ?_) (.bind reads_terminator (.pure _))
    have hbody : Reads p (Reader.localVariable E)
        (Word.ofText (if isMutable then "var" else "val") ::
          Word.ofText name :: (typeWords type ++ mid))
        (.localVariable name isMutable type initializer') (.mark .semicolon :: rest) := by
      refine .bind .advance (.bind (reads_name hname) (.bind
        (reads_optionalType htype hdot hcolon) (.bind h ?_)))
      rw [hkeyword]
      exact .pure _
    cases isMutable <;> exact hbody
  cases initializer with
  | none =>
    rw [words, reparsed]
    simp only [List.cons_append, List.append_assoc, List.nil_append]
    exact hread (nextKind_cons_ne (by decide)) (nextKind_cons_ne (by decide))
      (reads_optionalExpression_of_ne (nextKind_cons_ne (by decide)))
  | some value =>
    obtain ⟨hreadable, hn⟩ := hvalue value rfl
    rw [words, reparsed]
    simp only [List.cons_append, List.append_assoc, List.nil_append]
    exact hread (nextKind_cons_ne (by decide)) (nextKind_cons_ne (by decide))
      (reads_optionalExpression rfl (hE.reads_before_semicolon hreadable hn))

/-- A return. -/
theorem reads_returnStatement {value : Option Tree}
    (hvalue : ∀ tree, value = some tree →
      Readable p .expression tree ∧ tree.words.length < n) :
    Reads p (statementRule E) ((Tree.returnStatement value).words ++ rest)
      (Tree.returnStatement value).reparsed rest := by
  cases value with
  | none =>
    rw [words, reparsed]
    exact .bind (.bind .peek (.bind .advance (.bind (.check _) (.pure _))))
      (.bind reads_terminator (.pure _))
  | some tree =>
    obtain ⟨hreadable, hn⟩ := hvalue tree rfl
    obtain ⟨w, ws, hwords, hfirst⟩ := hreadable.written.exists_first
    rw [words, reparsed]
    simp only [List.cons_append, List.append_assoc, List.nil_append]
    refine .bind (.bind .peek (.bind .advance (.bind (.check _) ?_)))
      (.bind reads_terminator (.pure _))
    have hother : (Expectation.anyOf [.semicolon, .rightBrace, .endOfFile]).accepts
        (nextKind (tree.words ++ .mark .semicolon :: rest)) = false := by
      rw [hwords, List.cons_append, nextKind_cons]
      have hstart := hfirst.start
      cases hk : w.kind <;> rw [hk] at hstart <;> first
        | rfl
        | cases hstart
    rw [hother]
    exact .bind (hE.reads_before_semicolon hreadable hn) (.pure _)

/-- A statement. -/
theorem reads_statement (h : Readable p .statement tree) (hn : tree.words.length ≤ n) :
    Reads p (statementRule E) (tree.words ++ rest) tree.reparsed rest := by
  obtain ⟨hwritten, -, -⟩ := id h
  cases hwritten with
  | localVariable hname htype hinitializer =>
    refine hE.reads_localVariable hname htype fun value hvalue => ⟨?_, ?_⟩
    · exact h.child (hinitializer value hvalue) (by simp [children, groups, hvalue])
    · subst hvalue
      rw [words] at hn
      simp only [List.length_cons, List.length_append] at hn
      omega
  | returnStatement hvalue =>
    refine hE.reads_returnStatement fun value hv => ⟨?_, ?_⟩
    · exact h.child (hvalue value hv) (by simp [children, groups, hv])
    · subst hv
      rw [words] at hn
      simp only [List.length_cons, List.length_append] at hn
      omega
  | @expressionStatement expression he =>
    have hreadable : Readable p .expression expression :=
      h.child he (by simp [children, groups])
    obtain ⟨w, ws, hwords, hfirst⟩ := he.exists_first
    have hlength : expression.words.length < n := by
      rw [words] at hn
      simp only [List.length_append, List.length_singleton] at hn
      omega
    have hread : Reads p (E .lowest) (expression.words ++ .mark .semicolon :: rest)
        expression.reparsed (.mark .semicolon :: rest) :=
      hE.reads_before_semicolon hreadable hlength
    rw [words, reparsed, List.append_assoc, List.singleton_append]
    refine .bind ?_ (.bind reads_terminator (.pure _))
    rw [hwords, List.cons_append] at hread ⊢
    refine .bind .peek ?_
    have hstart := hfirst.start
    cases hk : w.kind <;> rw [hk] at hstart <;> first
      | (cases hstart; done)
      | exact .bind hread (.pure _)

/-! ## Blocks -/

omit hE in
/-- A statement begins with a word that does not end a block. -/
theorem exists_first_statement (h : Written .statement tree) :
    ∃ w ws, tree.words = w :: ws ∧
      (Expectation.anyOf [.rightBrace, .endOfFile]).accepts w.kind = false := by
  cases h with
  | @localVariable name isMutable type initializer _ _ _ =>
    cases initializer <;> cases isMutable <;> (rw [words]; exact ⟨_, _, rfl, rfl⟩)
  | @returnStatement value _ => cases value <;> (rw [words]; exact ⟨_, _, rfl, rfl⟩)
  | expressionStatement he =>
    obtain ⟨w, ws, hwords, hfirst⟩ := he.exists_first
    rw [words, hwords]
    refine ⟨w, _, rfl, ?_⟩
    have hstart := hfirst.start
    cases hk : w.kind <;> rw [hk] at hstart <;> first
      | rfl
      | cases hstart

/-- The statements of a block. -/
theorem reads_blockStatements {statements : List Tree} {w : Word} (hw : w.kind = .rightBrace)
    (h : ∀ tree ∈ statements, Readable p .statement tree ∧ tree.words.length ≤ n)
    (done : List Tree) {m : Nat}
    (hm : ((statements.map words).flatten ++ w :: rest).length < m) :
    Reads p (loop (blockStep E) m done) ((statements.map words).flatten ++ w :: rest)
      (done ++ statements.map reparsed) (w :: rest) := by
  induction statements generalizing done m with
  | nil =>
    simp only [List.map_nil, List.flatten_nil, List.nil_append, List.append_nil] at hm ⊢
    refine .loop_end hm (.bind (.check _) ?_)
    rw [nextKind_cons, hw]
    exact .pure _
  | cons tree statements ih =>
    obtain ⟨hreadable, hn⟩ := h tree (List.mem_cons_self ..)
    obtain ⟨v, vs, hwords, hfirst⟩ := exists_first_statement hreadable.written
    rw [List.map_cons, List.flatten_cons, List.append_assoc] at hm ⊢
    have hstep : Reads p (blockStep E done)
        (tree.words ++ ((statements.map words).flatten ++ w :: rest))
        (.inl (done ++ [tree.reparsed])) ((statements.map words).flatten ++ w :: rest) := by
      refine .bind (.check _) ?_
      have hnext : nextKind (tree.words ++ ((statements.map words).flatten ++ w :: rest)) =
          v.kind := by
        rw [hwords]
        rfl
      rw [hnext, hfirst]
      exact .bind ((hE.reads_statement hreadable hn).synchronized _) (.pure _)
    refine .loop_next hm hstep ?_ fun m hm => ?_
    · simp only [hwords, List.length_append, List.length_cons]
      omega
    · have hrest := ih (fun other ho => h other (List.mem_cons_of_mem _ ho))
        (done ++ [tree.reparsed]) hm
      rwa [List.append_assoc] at hrest

/-- A block after its opening brace. -/
theorem reads_block {statements : List Tree} (h : Readable p .expression (.block statements))
    (hn : (Tree.block statements).words.length ≤ n) :
    Reads p (Reader.block E) ((statements.map words).flatten ++ .mark .rightBrace :: rest)
      (Tree.block statements).reparsed rest := by
  obtain ⟨hwritten, -, -⟩ := id h
  cases hwritten with
  | block hs =>
    have hstatements : ∀ tree ∈ statements,
        Readable p .statement tree ∧ tree.words.length ≤ n := by
      intro tree hmem
      refine ⟨h.child (hs tree hmem) (by simpa [children, groups] using hmem), ?_⟩
      have hsublist := List.sublist_flatten_of_mem (List.mem_map_of_mem (f := words) hmem)
      have hlength := hsublist.length_le
      rw [words, bracedWords] at hn
      simp only [List.length_cons, List.length_append] at hn
      omega
    have htidy (hp : p) : (Tree.block (statements.map reparsed)).isTidy = true := by
      have hall := (all_iff.1 (h.tidy hp)).1
      rwa [reparsed] at hall
    rw [reparsed]
    have hread : Reads p (blockStatements E)
        ((statements.map words).flatten ++ .mark .rightBrace :: rest)
        (statements.map reparsed) (.mark .rightBrace :: rest) :=
      .bind_bound fun m hm => hE.reads_blockStatements rfl hstatements [] hm
    exact .bind hread (.bind (.expectKind rfl) (.bind (.require htidy) (.pure _)))

end Covers

end Reader

end ExprLang
