import ExprLang.Proofs.Reader.Covers
import ExprLang.Proofs.Reader.Erasure

/-!
# Rules without a semicolon

Each rule reads the same with and without a semicolon behind a closing brace, as long
as the expressions in it do.  Where the semicolon is next no rule begins, and only the
end of a statement or of an import takes it.

Main definitions:

- Definition {lit}`Reader.Pair`: readers for expressions, one for each source.

Main results:

- Theorem {lit}`Reader.matches_terminator`: the end of a statement.
- Theorem {lit}`Reader.pair_expressionWithin`: expressions.
-/

namespace ExprLang.Reader

variable {semicolon : Word} {back : List Word} {n : Nat} {p p' : Spot} {E E' : ExpressionReader}
  {α β : Type} {r r' : Reader α} {left : α → Nat} {last : β → Nat}

/-! ## Where the semicolon is next -/

/-- A reader that reads nothing without an error where a semicolon is next. -/
def Refuses (r : Reader α) : Prop :=
  ∀ p, p.peek.kind = .semicolon → ∀ a q, r p ≠ ⟨some a, true, q⟩

theorem Refuses.bind {f : α → Reader β} (h : Refuses r) : Refuses (r >>= f) := by
  intro p hp b q hb
  obtain ⟨a, m, hr, -⟩ := exists_of_bind hb
  exact h p hp a m hr

theorem refuses_fail : Refuses (fail : Reader α) :=
  fun p hp a q h => by cases h

theorem refuses_name : Refuses name := by
  intro p hp a q h
  rw [name, expect_apply, hp] at h
  cases h

/-- A look at the next word comes first. -/
theorem refuses_of_peek {f : Word → Reader β}
    (h : ∀ p, p.peek.kind = .semicolon → ∀ b q, f p.peek p ≠ ⟨some b, true, q⟩) :
    Refuses (peek >>= f) := by
  intro p hp b q hb
  obtain ⟨a, m, hpeek, hf⟩ := exists_of_bind hb
  cases hpeek
  exact h p hp b q hf

/-- Where the first reader refuses a semicolon only aligned places count. -/
theorem MatchesAt.of_refuses (hr : Refuses r) (h : Erasable semicolon back)
    (hp : Beside semicolon back p p')
    (hs : Aligned semicolon back p p' → MatchesAt semicolon back r r' left p p') :
    MatchesAt semicolon back r r' left p p' := by
  cases hp with
  | aligned hp => exact hs hp
  | here => exact .of_fails (hr _ h.kind_eq)

/-- The next word is passed over before what both readers read. -/
theorem MatchesAt.advance_then {f f' : Word → Reader β} (hp : Aligned semicolon back p p')
    (hend : p.peek.kind ≠ .endOfFile) (hn : p'.words.length < n)
    (hf : Matches semicolon back n (f p.peek) (f' p.peek)) (hlast : ∀ b, p'.words.length ≤ last b) :
    MatchesAt semicolon back (advance >>= f) (advance >>= f') last p p' := by
  have hwords := words_eq_cons (p := p') (by rwa [hp.peek_eq])
  have hlt : p'.advance.words.length < p'.words.length := by
    rw [hwords]
    exact Nat.lt_succ_self _
  refine .bind_advance hp ((hf _ _ hp.advance (by omega)).mono fun b => ?_)
  exact Nat.le_trans hlt (hlast b)

/-- What is left after a step that used up a word. -/
theorem le_stepLeft (p : Spot) (x : α ⊕ β) : p.words.length ≤ stepLeft p x := by
  cases x with
  | inl a => exact Nat.le_refl _
  | inr b => exact Nat.le_succ _

/-! ## Two readers for expressions -/

/-- Readers for expressions in a source with a semicolon behind a closing brace and in the source
without it. -/
structure Pair (semicolon : Word) (back : List Word) (n : Nat) (E E' : ExpressionReader) :
    Prop where
  /-- Both read the same, and at least one word. -/
  reads (min : Precedence) (p p' : Spot) (hp : Beside semicolon back p p')
    (hn : p'.words.length < n) :
    MatchesAt semicolon back (E min) (E' min) (fun _ => p'.words.length) p p'
  refuses (min : Precedence) : Refuses (E min)

theorem Pair.matches (hE : Pair semicolon back n E E') (min : Precedence) :
    Matches semicolon back n (E min) (E' min) :=
  fun p p' hp hn => (hE.reads min p p' hp hn).mono fun _ => Nat.le_succ _

section

variable (h : Erasable semicolon back) (hE : Pair semicolon back n E E')
include h

/-! ## Strings -/

omit h in
theorem matches_literal (kind : TokenKind) (text : String) :
    Matches semicolon back n (literal kind text) (literal kind text) := by
  unfold literal
  split
  · exact matches_pure _
  · exact matches_fail

include hE in
/-- A placeholder after its opening brace. -/
theorem matches_placeholder (draft : StringDraft) :
    Matches semicolon back n (placeholder E draft) (placeholder E' draft) := by
  have hend : Matches semicolon back n (checkKind .stringEnd) (checkKind .stringEnd) :=
    matches_check h rfl fun kind hk => by cases kind <;> first | rfl | cases hk
  exact ((hE.matches .lowest).synchronized _).bind fun _ => (matches_skipKind h (by decide)
    rfl).bind fun _ => .ite (matches_pure _) (hend.bind fun _ => .ite (matches_pure _) matches_fail)

include hE in
/-- One word of a string. -/
theorem matchesAt_stringStep (draft : StringDraft) (hp : Beside semicolon back p p')
    (hn : p'.words.length < n) :
    MatchesAt semicolon back (stringStep E draft) (stringStep E' draft) (stepLeft p') p p' := by
  refine .of_refuses (refuses_of_peek fun p hp b q hb => ?_) h hp fun hp => .bind_peek hp ?_
  · rw [hp] at hb
    cases hb
  · have hnext {f f' : Word → Reader (StringDraft ⊕ StringDraft)}
        (hend : p.peek.kind ≠ .endOfFile)
        (hf : Matches semicolon back n (f p.peek) (f' p.peek)) :
        MatchesAt semicolon back (advance >>= f) (advance >>= f') (stepLeft p') p p' :=
      .advance_then hp hend hn hf fun x => le_stepLeft p' x
    cases hk : p.peek.kind with
    | stringContent => exact hnext (by simp [hk]) (matches_pure _)
    | stringEscape =>
      refine hnext (by simp [hk]) ?_
      split
      · exact matches_pure _
      · exact (matches_require false).bind fun _ => matches_pure _
    | templateStart =>
      exact hnext (by simp [hk]) ((matches_placeholder h hE draft).bind fun _ => matches_pure _)
    | stringEnd => exact hnext (by simp [hk]) (matches_pure _)
    | unexpectedCharacter =>
      exact hnext (by simp [hk]) ((matches_require false).bind fun _ => matches_pure _)
    | _ => exact .of_fails fun _ _ hb => by cases hb

include hE in
/-- A string after its opening quote. -/
theorem matches_string : Matches semicolon back n (string E) (string E') := by
  have hread := (matches_loop (fun draft _ _ hp hn => matchesAt_stringStep h hE draft hp hn)
    StringDraft.empty).bind fun draft => matches_pure draft.finish
  unfold string
  simpa only [bind_assoc] using hread

/-! ## Lists -/

omit h in
/-- Where a semicolon is next no item is read and the list does not end. -/
theorem refuses_listStep {closing : TokenKind} (hclosing : closing ≠ .semicolon)
    {item : Reader Tree} (hitem : Refuses item) (items : List Tree) :
    Refuses (listStep closing item items) := by
  intro p hp x q hx
  obtain ⟨found, m, hcheck, hstep⟩ := exists_of_bind hx
  rw [checkKind, check_apply, hp, Expectation.accepts_kind,
    beq_eq_false_iff_ne.2 hclosing] at hcheck
  cases hcheck
  exact hitem.bind p hp x q hstep

/-- One more item of a list, or the end of the list before a closing word. -/
theorem matchesAt_listStep {closing : TokenKind} (hclosing : closing ≠ .semicolon)
    {item item' : Reader Tree} (hrefuses : Refuses item)
    (hitem : Matches semicolon back n item item') (items : List Tree)
    (hp : Beside semicolon back p p') (hn : p'.words.length < n) :
    MatchesAt semicolon back (listStep closing item items) (listStep closing item' items)
      (stepLeft p') p p' := by
  refine .of_refuses (refuses_listStep hclosing hrefuses items) h hp fun hp => .bind_check hp ?_
  split
  · exact matchesAt_pure _ (.aligned hp) (Nat.lt_succ_self _)
  · refine (hitem p p' (.aligned hp) hn).bind fun tree q q' _ hq hlt => ?_
    have hcomma := matchesAt_skipKind_of_not_followsEnd h hq
      (show TokenKind.comma ≠ .semicolon by decide) rfl
    refine hcomma.bind fun more m m' _ hm hless => ?_
    cases more with
    | true => exact matchesAt_pure _ hm (Nat.lt_of_lt_of_le hless (Nat.le_of_lt_succ hlt))
    | false => exact matchesAt_pure _ hm (Nat.lt_of_lt_of_le hless hlt)

/-- The items of a list. -/
theorem matches_list {closing : TokenKind} (hclosing : closing ≠ .semicolon)
    {item item' : Reader Tree} (hrefuses : Refuses item)
    (hitem : Matches semicolon back n item item') :
    Matches semicolon back n (bound >>= fun k => loop (listStep closing item) k [])
      (bound >>= fun k => loop (listStep closing item') k []) :=
  matches_loop (fun items _ _ hp hn =>
    matchesAt_listStep h hclosing hrefuses hitem items hp hn) []

/-- Items separated by commas, up to a closing parenthesis. -/
theorem matches_argumentList {item item' : Reader Tree} (hrefuses : Refuses item)
    (hitem : Matches semicolon back n item item') :
    Matches semicolon back n (argumentList item) (argumentList item') := by
  have hkind : TokenKind.rightParen ≠ .semicolon := by decide
  have hread := (matches_list h hkind hrefuses hitem).bind fun arguments =>
    (matches_expectKind h hkind).bind fun _ => matches_pure arguments
  rw [bind_assoc, bind_assoc] at hread
  exact hread

/-! ## Types -/

/-- One more part of a type after a dot, or the end of the type. -/
theorem matchesAt_typeStep (path : String) (hp : Beside semicolon back p p')
    (hn : p'.words.length < n) :
    MatchesAt semicolon back (typeStep path) (typeStep path) (stepLeft p') p p' := by
  have hdot := matchesAt_skipKind_of_not_followsEnd h hp
    (show TokenKind.dot ≠ .semicolon by decide) rfl
  refine hdot.bind fun found q q' _ hq hlt => ?_
  cases found with
  | true =>
    have hlt : q'.words.length < p'.words.length := hlt
    refine (((matches_name h).bind fun w => matches_pure _) q q' hq
      (Nat.lt_trans hlt hn)).mono fun x => ?_
    exact Nat.le_trans hlt (le_stepLeft p' x)
  | false => exact matchesAt_pure _ hq hlt

/-- Names separated by dots. -/
theorem matches_typeName : Matches semicolon back n typeName typeName :=
  (matches_name h).bind fun w =>
    matches_loop (fun path _ _ hp hn => matchesAt_typeStep h path hp hn) w.text

/-- A colon and a type, or nothing. -/
theorem matches_optionalType : Matches semicolon back n optionalType optionalType :=
  (matches_skipKind h (by decide) rfl).bind fun _ =>
    .ite ((matches_typeName h).bind fun _ => matches_pure _) (matches_pure _)

/-! ## Statements -/

omit h in
/-- A semicolon is needed unless a brace closes a block before or behind. -/
theorem terminator_apply (p : Spot) :
    terminator p = if p.peek.kind = .semicolon then ⟨some (), true, p.advance⟩
      else if p.afterBrace || p.peek.kind == .rightBrace || p.peek.kind == .endOfFile then
        ⟨some (), true, p⟩
      else ⟨none, true, p⟩ := by
  unfold terminator
  by_cases hk : p.peek.kind = .semicolon
  · rw [bind_apply_of_clean (by rw [skipKind_apply, if_pos hk.symm]), if_pos hk]
    rfl
  · rw [bind_apply_of_clean (by rw [skipKind_apply, if_neg (Ne.symm hk)]), if_neg hk,
      if_neg Bool.false_ne_true, bind_apply_of_clean (show afterBrace p = ⟨_, true, p⟩ from rfl),
      bind_apply_of_clean (show peek p = ⟨some p.peek, true, p⟩ from rfl)]
    have hexpect : expectKind .semicolon p = ⟨none, true, p⟩ := by
      rw [expectKind, expect_apply, if_neg (by simpa using Ne.symm hk)]
    split
    · rfl
    · exact bind_apply_of_none hexpect

/-- The semicolon that ends a statement, where it is needed. -/
theorem matches_terminator : Matches semicolon back n terminator terminator := by
  intro p p' hp hn a q hread
  rw [terminator_apply] at hread ⊢
  cases hp with
  | here =>
    rw [Spot.peek_cons, if_pos h.kind_eq] at hread
    cases hread
    refine ⟨⟨back, !back.isEmpty⟩, ?_, .aligned h.aligned_advance, Nat.lt_succ_self _⟩
    rw [if_neg (h.kind_ne _)]
    cases back <;> rfl
  | aligned hp =>
    rw [hp.peek_eq]
    split at hread
    · rename_i hk
      cases hread
      rw [if_pos hk]
      exact ⟨_, rfl, hp.advance, length_words_advance_lt p'⟩
    · rename_i hk
      rw [if_neg hk]
      split at hread
      · rename_i hend
        cases hread
        refine ⟨_, if_pos ?_, .aligned hp, Nat.lt_succ_self _⟩
        simp only [Bool.or_eq_true] at hend ⊢
        exact hend.imp_left (Or.imp_left hp.afterBrace_of_afterBrace)
      · cases hread

/-- An expression after a word of some kind, if there is such a word. -/
theorem matches_optionalExpression {e e' : Reader Tree} (he : Matches semicolon back n e e')
    {kind : TokenKind} (hk : kind ≠ .semicolon) (hf : kind.followsEnd = false) :
    Matches semicolon back n (optionalExpression e kind) (optionalExpression e' kind) :=
  (matches_skipKind h hk hf).bind fun _ => .ite (he.map some) (matches_pure none)

include hE in
/-- A variable, after a look at its keyword. -/
theorem matchesAt_localVariable (hp : Aligned semicolon back p p')
    (hend : p.peek.kind ≠ .endOfFile) (hn : p'.words.length < n) :
    MatchesAt semicolon back (localVariable E) (localVariable E') (fun _ => p'.words.length)
      p p' :=
  .advance_then hp hend hn ((matches_name h).bind fun _ => (matches_optionalType h).bind fun _ =>
    (matches_optionalExpression h (hE.matches .lowest) (by decide) rfl).bind fun _ =>
      matches_pure _) fun _ => Nat.le_refl _

include hE in
omit h in
/-- A return, after a look at its keyword. -/
theorem matchesAt_returnStatement (hp : Aligned semicolon back p p')
    (hk : p.peek.kind = .wordReturn) (hn : p'.words.length < n) :
    MatchesAt semicolon back (returnStatement E) (returnStatement E') (fun _ => p'.words.length)
      p p' := by
  have hwords := words_eq_cons (p := p') (by rw [hp.peek_eq, hk]; decide)
  have hlt : p'.advance.words.length < p'.words.length := by
    rw [hwords]
    exact Nat.lt_succ_self _
  -- behind the keyword the places are aligned, so a value follows in both sources or in neither
  have hp' := hp.aligned_advance (by rw [hk]; decide)
  refine .bind_advance hp (.bind_check hp' ?_)
  split
  · exact matchesAt_pure _ (.aligned hp') hlt
  · have hread := (hE.matches .lowest).bind fun value =>
      matches_pure (Tree.returnStatement (some value))
    exact (hread _ _ (.aligned hp') (Nat.lt_trans hlt hn)).mono fun _ => hlt

omit h in
theorem refuses_statementBody (hE : ∀ min, Refuses (E min)) : Refuses (statementBody E) := by
  refine refuses_of_peek fun p hp tree q hread => ?_
  rw [hp] at hread
  exact (hE .lowest).bind p hp tree q hread

include hE in
/-- A statement without the semicolon that ends it. -/
theorem matchesAt_statementBody (hp : Beside semicolon back p p') (hn : p'.words.length < n) :
    MatchesAt semicolon back (statementBody E) (statementBody E') (fun _ => p'.words.length)
      p p' := by
  refine .of_refuses (refuses_statementBody hE.refuses) h hp fun hp => .bind_peek hp ?_
  cases hk : p.peek.kind with
  | wordVal => exact matchesAt_localVariable h hE hp (by simp [hk]) hn
  | wordVar => exact matchesAt_localVariable h hE hp (by simp [hk]) hn
  | wordReturn => exact matchesAt_returnStatement hE hp hk hn
  | _ =>
    exact (hE.reads .lowest p p' (.aligned hp) hn).bind fun _ _ _ _ hq hlt =>
      matchesAt_pure _ hq hlt

include hE in
/-- A statement. -/
theorem matchesAt_statementRule (hp : Beside semicolon back p p') (hn : p'.words.length < n) :
    MatchesAt semicolon back (statementRule E) (statementRule E') (fun _ => p'.words.length)
      p p' := by
  refine (matchesAt_statementBody h hE hp hn).bind fun tree q q' _ hq hlt => ?_
  have hread : Matches semicolon back n (terminator >>= fun _ => pure tree)
      (terminator >>= fun _ => pure tree) := (matches_terminator h).bind fun _ => matches_pure tree
  exact (hread q q' hq (Nat.lt_trans hlt hn)).mono fun _ => hlt

omit h in
theorem refuses_synchronized (hr : Refuses r) (stop : Expectation) :
    Refuses (synchronized stop r) := by
  intro p hp value q h
  rcases hread : r p with ⟨_ | a, clean, m⟩
  · simp only [synchronized, hread] at h
    cases h
  · simp only [synchronized, hread, Reading.mk.injEq] at h
    obtain ⟨-, rfl, rfl⟩ := h
    exact hr p hp a m hread

omit h in
/-- Where a semicolon is next a block does not end. -/
theorem refuses_blockStep (hE : ∀ min, Refuses (E min)) (statements : List Tree) :
    Refuses (blockStep E statements) := by
  intro p hp x q hx
  obtain ⟨found, m, hcheck, hstep⟩ := exists_of_bind hx
  rw [check_apply, hp] at hcheck
  cases hcheck
  have hstatement : Refuses (synchronized (.either (.category [.statementStart])
      (.kind .rightBrace)) (statementRule E)) :=
    refuses_synchronized (refuses_statementBody hE).bind _
  exact hstatement.bind p hp x q hstep

include hE in
/-- One more statement of a block, or the end of the statements. -/
theorem matchesAt_blockStep (statements : List Tree) (hp : Beside semicolon back p p')
    (hn : p'.words.length < n) :
    MatchesAt semicolon back (blockStep E statements) (blockStep E' statements) (stepLeft p')
      p p' := by
  refine .of_refuses (refuses_blockStep hE.refuses statements) h hp fun hp => .bind_check hp ?_
  split
  · exact matchesAt_pure _ (.aligned hp) (Nat.lt_succ_self _)
  · exact ((matchesAt_statementRule h hE (.aligned hp) hn).synchronized _).bind
      fun statement q q' _ hq hlt => matchesAt_pure _ hq hlt

omit h in
/-- Finds an error unless a tree is tidy at its root. -/
theorem matches_tidied (tree : Tree) :
    Matches semicolon back n (tidied tree) (tidied tree) :=
  (matches_require _).bind fun _ => matches_pure tree

include hE in
/-- A block after its opening brace. -/
theorem matches_block : Matches semicolon back n (block E) (block E') := by
  have hstatements : Matches semicolon back n (blockStatements E) (blockStatements E') :=
    matches_loop (fun statements _ _ hp hn => matchesAt_blockStep h hE statements hp hn) []
  exact hstatements.bind fun statements => (matches_expectKind h (by decide)).bind fun _ =>
    matches_tidied _

/-! ## Starts of expressions -/

omit h in
/-- At aligned places a number follows that a minus sign belongs to, or at neither. -/
theorem exists_negativeNumberFollows (hp : Aligned semicolon back p p') :
    ∃ found, negativeNumberFollows p = ⟨some found, true, p⟩ ∧
      negativeNumberFollows p' = ⟨some found, true, p'⟩ ∧
        (found = true → p.peek.kind ≠ .endOfFile) := by
  let follows (v w : Word) : Bool := v.kind.isNumber && !(w.kind == .dot || w.kind == .leftParen)
  have hsame : follows p'.peek (p'.lookAhead 1) = follows p.peek (p.lookAhead 1) :=
    hp.test_eq fun v w hk => by simp only [follows, hk]; rfl
  refine ⟨follows p.peek (p.lookAhead 1), rfl, ?_, fun hfollows hk => ?_⟩
  · rw [← hsame]
    rfl
  · simp only [follows, hk] at hfollows
    cases hfollows

include hE in
omit h in
/-- A unary operation after its operator. -/
theorem matchesAt_unary (kind : TokenKind) (hp : Aligned semicolon back p p')
    (hn : p'.words.length < n) :
    MatchesAt semicolon back (unary E kind) (unary E' kind) (fun _ => p'.words.length + 1)
      p p' := by
  unfold unary
  split
  · exact matches_fail p p' (.aligned hp) hn
  · rename_i operator _
    obtain ⟨found, hfound, hfound', hend⟩ := exists_negativeNumberFollows hp
    refine .bind_clean hfound hfound' ?_
    split
    · rename_i hnumber
      exact .advance_then hp (hend (Bool.and_eq_true_iff.1 hnumber).2) hn (matches_literal _ _)
        fun _ => Nat.le_succ _
    · exact ((hE.matches .unary).bind fun _ => matches_pure _) p p' (.aligned hp) hn

include hE in
/-- A conditional after its keyword. -/
theorem matches_conditional : Matches semicolon back n (conditional E) (conditional E') :=
  (matches_expectKind h (by decide)).bind fun _ => (hE.matches .lowest).bind fun _ =>
    (matches_expectKind h (by decide)).bind fun _ => (hE.matches .lowest).bind fun _ =>
      (matches_optionalExpression h (hE.matches .lowest) (by decide) rfl).bind fun _ =>
        matches_pure _

include hE in
/-- An expression in parentheses. -/
theorem matches_group : Matches semicolon back n (group E) (group E') :=
  (hE.matches .lowest).bind fun inside => (matches_expectKind h (by decide)).bind fun _ =>
    matches_pure inside

include hE in
/-- What a word begins. -/
theorem matchesAt_start (word : Word) (rule : StartRule) (hp : Aligned semicolon back p p')
    (hn : p'.words.length < n) :
    MatchesAt semicolon back (start E word rule) (start E' word rule)
      (fun _ => p'.words.length + 1) p p' := by
  cases rule with
  | literal => exact matches_literal word.kind word.text p p' (.aligned hp) hn
  | reference => exact matches_pure (Tree.reference word.text) p p' (.aligned hp) hn
  | string => exact matches_string h hE p p' (.aligned hp) hn
  | group => exact matches_group h hE p p' (.aligned hp) hn
  | unary => exact matchesAt_unary hE word.kind hp hn
  | conditional => exact matches_conditional h hE p p' (.aligned hp) hn
  | block => exact matches_block h hE p p' (.aligned hp) hn

/-! ## Continuations of expressions -/

include hE in
/-- What a word makes of the expression before it. -/
theorem matches_extend (leftTree : Tree) (word : Word) (rule : ContinueRule) :
    Matches semicolon back n (extend E leftTree word rule) (extend E' leftTree word rule) := by
  cases rule with
  | binary =>
    show Matches semicolon back n (binary E leftTree word.kind) (binary E' leftTree word.kind)
    unfold binary
    split
    · exact (hE.matches _).bind fun _ => matches_pure _
    · exact matches_fail
  | assignment =>
    show Matches semicolon back n (assignment E leftTree word.kind)
      (assignment E' leftTree word.kind)
    unfold assignment
    split
    · exact matches_fail
    · exact (hE.matches _).bind fun _ => matches_pure _
  | infixCall => exact (hE.matches _).bind fun _ => matches_pure _
  | member => exact (matches_name h).bind fun _ => matches_pure _
  | invocation =>
    exact (matches_argumentList h (hE.refuses .lowest) (hE.matches .lowest)).bind fun _ =>
      matches_pure _

include hE in
/-- One more continuation of an expression, or its end.  The word behind the semicolon does not go
on with an expression. -/
theorem matchesAt_expressionStep (min : Precedence) (leftTree : Tree)
    (hp : Beside semicolon back p p') (hn : p'.words.length < n) :
    MatchesAt semicolon back (expressionStep E min leftTree) (expressionStep E' min leftTree)
      (stepLeft p') p p' := by
  cases hp with
  | here =>
    have hstop (E : ExpressionReader) (p : Spot) (hk : ContinueRule.ofKind? p.peek.kind = none) :
        expressionStep E min leftTree p = ⟨some (.inr leftTree), true, p⟩ := by
      have hnone : Parser.continuation? min p.peek.kind = none := by
        rw [Parser.continuation?, hk]
        rfl
      unfold expressionStep
      rw [bind_apply_of_clean (show peek p = ⟨some p.peek, true, p⟩ from rfl), hnone]
      rfl
    intro x q hread
    rw [hstop E _ (by rw [Spot.peek_cons, h.kind_eq]; rfl)] at hread
    cases hread
    exact ⟨_, hstop E' _ h.ends, .here, Nat.lt_succ_self _⟩
  | aligned hp =>
    refine .bind_peek hp ?_
    split
    · exact matchesAt_pure _ (.aligned hp) (Nat.lt_succ_self _)
    · rename_i rule hrule
      have hend : p.peek.kind ≠ .endOfFile := by
        intro hk
        rw [hk] at hrule
        cases min <;> cases hrule
      exact .advance_then hp hend hn ((matches_extend h hE leftTree p.peek rule).bind fun _ =>
        matches_pure _) fun x => le_stepLeft p' x

/-! ## Expressions -/

omit h in
theorem refuses_expressionRule (min : Precedence) : Refuses (expressionRule E min) := by
  refine refuses_of_peek fun p hp tree q hread => ?_
  rw [hp] at hread
  cases hread

include hE in
/-- An expression, given the readers for smaller ones. -/
theorem matchesAt_expressionRule (min : Precedence) (hp : Beside semicolon back p p')
    (hn : p'.words.length < n + 1) :
    MatchesAt semicolon back (expressionRule E min) (expressionRule E' min)
      (fun _ => p'.words.length) p p' := by
  refine .of_refuses (refuses_expressionRule min) h hp fun hp => .bind_peek hp ?_
  split
  · exact .of_fails fun _ _ hread => by cases hread
  · rename_i rule hrule
    have hkind : p.peek.kind ≠ .rightBrace ∧ p.peek.kind ≠ .endOfFile := by
      constructor <;> intro hk <;> rw [hk] at hrule <;> cases hrule
    have hp' := hp.aligned_advance hkind.1
    have hwords := words_eq_cons (p := p') (by rw [hp.peek_eq]; exact hkind.2)
    have hlt : p'.advance.words.length < p'.words.length := by
      rw [hwords]
      exact Nat.lt_succ_self _
    refine .bind_advance hp ?_
    refine (matchesAt_start h hE p.peek rule hp' (by omega)).bind fun tree q q' _ hq hless => ?_
    have hloop := matches_loop
      (fun leftTree _ _ hp hn => matchesAt_expressionStep h hE min leftTree hp hn) tree
    exact (hloop q q' hq (by omega)).mono fun _ => by omega

/-- Expressions in which expressions nest no deeper than bounds, the second of which suffices for
the words to come. -/
theorem pair_expressionWithin (k n : Nat) :
    Pair semicolon back n (expressionWithin k) (expressionWithin n) := by
  have hrefuses (k : Nat) (min : Precedence) : Refuses (expressionWithin k min) := by
    cases k with
    | zero => exact refuses_fail
    | succ k => exact refuses_expressionRule min
  induction n generalizing k with
  | zero => exact ⟨fun min p p' hp hn => absurd hn (Nat.not_lt_zero _), hrefuses k⟩
  | succ n ih =>
    refine ⟨fun min p p' hp hn => ?_, hrefuses k⟩
    cases k with
    | zero => exact .of_fails fun _ _ hread => by cases hread
    | succ k => exact matchesAt_expressionRule h (ih k) min hp hn

end

end ExprLang.Reader
