import ExprLang.Proofs.Parser.Entry
import ExprLang.Proofs.Reader.Terminators

/-!
# Sources without a semicolon

What holds for the rules of expressions and statements holds for imports and functions
too, and for whole sources: without a semicolon behind a closing brace a source is
read as the same tree.

Main results:

- Theorems {lit}`Reader.matchesAt_importRule` and {lit}`Reader.matchesAt_function`:
  imports and functions.
- Theorem {lit}`Reader.matches_entry`: whole sources.
-/

namespace ExprLang.Reader

variable {semicolon : Word} {back : List Word} {n : Nat} {p p' q : Spot} {E E' : ExpressionReader}

/-! ## Imports -/

/-- Kinds of names. -/
theorem ne_of_accepts_name {kind : TokenKind}
    (hk : (Expectation.category [.name]).accepts kind = true) :
    kind ≠ .semicolon ∧ kind ≠ .rightBrace ∧ kind ≠ .endOfFile := by
  cases kind <;> first | (cases hk; done) | decide

theorem refuses_importEntry : Refuses importEntry :=
  refuses_name.bind

/-- Behind a word that is no closing brace. -/
theorem afterBrace_advance (hk : p.peek.kind ≠ .rightBrace) (hend : p.peek.kind ≠ .endOfFile) :
    p.advance.afterBrace = false := by
  obtain ⟨_ | ⟨w, ws⟩, flag⟩ := p
  · exact absurd rfl hend
  · have hne : (w.kind == .rightBrace) = false := beq_eq_false_iff_ne.2 hk
    simp [Spot.advance, hne]

/-- The last word of a string is its closing quote. -/
theorem afterBrace_of_stringStep {draft draft' : StringDraft}
    (hread : stringStep E draft p = ⟨some (.inr draft'), true, q⟩) : q.afterBrace = false := by
  rw [stringStep, bind_apply_of_clean (show peek p = ⟨some p.peek, true, p⟩ from rfl)] at hread
  cases hk : p.peek.kind with
  | stringEnd =>
    rw [hk] at hread
    cases hread
    exact afterBrace_advance (by simp [hk]) (by simp [hk])
  | stringEscape =>
    rw [hk] at hread
    obtain ⟨w, m, -, hnext⟩ := exists_of_bind hread
    cases hu : Text.unescape? p.peek.text.toList <;> rw [hu] at hnext <;> cases hnext
  | templateStart =>
    rw [hk] at hread
    obtain ⟨w, m, -, hnext⟩ := exists_of_bind hread
    obtain ⟨part, m', -, hend⟩ := exists_of_bind hnext
    cases hend
  | _ =>
    rw [hk] at hread
    cases hread

/-- The last word of a string is its closing quote. -/
theorem afterBrace_of_string {tree : Tree} (hread : string E p = ⟨some tree, true, q⟩) :
    q.afterBrace = false := by
  have hloop (k : Nat) (draft draft' : StringDraft) (p q : Spot)
      (hloop : loop (stringStep E) k draft p = ⟨some draft', true, q⟩) : q.afterBrace = false := by
    induction k generalizing draft p with
    | zero => cases hloop
    | succ k ih =>
      obtain ⟨x, m, hstep, hrest⟩ := exists_of_bind hloop
      cases x with
      | inl draft => exact ih draft m hrest
      | inr draft =>
        cases hrest
        exact afterBrace_of_stringStep hstep
  obtain ⟨k, m, hbound, hread⟩ := exists_of_bind hread
  obtain ⟨draft, m, hread, hend⟩ := exists_of_bind hread
  cases hend
  exact hloop _ _ _ _ _ hread

section

variable (h : Erasable semicolon back) (hE : Pair semicolon back n E E')
include h

/-- An imported name.  A name is no closing brace, so the semicolon does not come between it and
what follows. -/
theorem matches_importEntry : Matches semicolon back n importEntry importEntry := by
  intro p p' hp hn
  refine .bind_expect h (fun _ => ne_of_accepts_name) hp fun hp' hlt => ?_
  have hrename : MatchesAt semicolon back optionalRename optionalRename
      (fun _ => p'.words.length) p.advance p'.advance := by
    refine (matchesAt_skipKind hp' (by decide)).bind fun found q q' _ hq hless => ?_
    have hle : q'.words.length < p'.words.length := by
      have := skipLeft_le p'.advance found
      omega
    cases found with
    | true =>
      have hname := (matches_name h).bind fun w => matches_pure (n := n) (some w.text)
      exact (hname q q' hq (Nat.lt_trans hle hn)).mono fun _ => hle
    | false => exact matchesAt_pure _ hq hle
  exact hrename.bind fun _ _ _ _ hq hless => matchesAt_pure _ hq (Nat.lt_succ_of_lt hless)

/-- The imported names in braces, if there are braces. -/
theorem matchesAt_importEntries (hp : Aligned semicolon back p p') (hn : p'.words.length < n) :
    MatchesAt semicolon back importEntries importEntries (fun _ => p'.words.length + 1) p p' := by
  have haccept := accept?_apply (.kind .leftBrace) p
  have haccept' := accept?_apply (.kind .leftBrace) p'
  rw [hp.peek_eq] at haccept'
  by_cases hk : (Expectation.kind .leftBrace).accepts p.peek.kind = true
  · rw [if_pos hk] at haccept haccept'
    have hwords := words_eq_cons (p := p') (by
      rw [hp.peek_eq]
      intro hend
      rw [hend] at hk
      cases hk)
    have hlt : p'.advance.words.length < p'.words.length := by
      rw [hwords]
      exact Nat.lt_succ_self _
    refine .bind_clean haccept haccept' ?_
    have hentries := (matches_list h (show TokenKind.rightBrace ≠ .semicolon by decide)
      refuses_importEntry (matches_importEntry h (n := n))).bind fun entries =>
        (matches_expectKind h (show TokenKind.rightBrace ≠ .semicolon by decide)).bind fun _ =>
          matches_pure entries
    rw [bind_assoc] at hentries
    exact (hentries _ _ hp.advance (Nat.lt_trans hlt hn)).mono fun _ => by omega
  · rw [if_neg hk] at haccept haccept'
    exact .bind_clean haccept haccept' (matchesAt_pure _ (.aligned hp) (Nat.lt_succ_self _))

include hE in
/-- The path of an import. -/
theorem matches_importPath : Matches semicolon back n (importPath E) (importPath E') := by
  refine (matches_expectKind h (by decide)).bind fun _ => (matches_string h hE).bind fun tree => ?_
  split
  · exact matches_pure _
  · exact matches_fail

omit h in
/-- The path of an import ends with a quote. -/
theorem afterBrace_of_importPath {path : String}
    (hread : importPath E p = ⟨some path, true, q⟩) : q.afterBrace = false := by
  obtain ⟨w, m, -, hread⟩ := exists_of_bind hread
  obtain ⟨tree, m', hstring, hend⟩ := exists_of_bind hread
  split at hend
  · cases hend
    exact afterBrace_of_string hstring
  · cases hend

/-- A semicolon that may be there or not. -/
theorem matches_optionalSemicolon {α : Type} {r r' : Reader α}
    (hr : Matches semicolon back n r r') :
    Matches semicolon back n (skipKind .semicolon >>= fun _ => r)
      (skipKind .semicolon >>= fun _ => r') := by
  intro p p' hp hn
  cases hp with
  | aligned hp =>
    refine (matchesAt_skipKind hp (by decide)).bind fun found q q' _ hq hlt => ?_
    have hle := skipLeft_le p' found
    exact (hr q q' hq (by omega)).mono fun _ => by omega
  | here =>
    intro a q hread
    have hskip := (skipKind_apply .semicolon ⟨semicolon :: back, true⟩).trans
      (if_pos h.kind_eq.symm)
    have hskip' := (skipKind_apply .semicolon ⟨back, !back.isEmpty⟩).trans
      (if_neg (Ne.symm (h.kind_ne _)))
    rw [bind_apply_of_clean hskip] at hread
    obtain ⟨q', hread', hq⟩ := hr _ _ (.aligned h.aligned_advance) hn a q hread
    exact ⟨q', by rw [bind_apply_of_clean hskip', hread'], hq⟩

include hE in
/-- An import. -/
theorem matchesAt_importRule (hp : Beside semicolon back p p') (hn : p'.words.length < n) :
    MatchesAt semicolon back (importRule E) (importRule E') (fun _ => p'.words.length) p p' := by
  have hkeyword (kind : TokenKind) (hk : (Expectation.kind .wordImport).accepts kind = true) :
      kind ≠ .semicolon ∧ kind ≠ .rightBrace ∧ kind ≠ .endOfFile := by
    rw [← eq_of_beq hk]
    decide
  refine .bind_expect h hkeyword hp fun hp' hlt => ?_
  refine (matches_importPath h hE _ _ (.aligned hp') (by omega)).bind
    fun path q q' hpath hq hless => ?_
  have hq := hq.aligned_of_not_afterBrace (afterBrace_of_importPath hpath)
  refine (matchesAt_importEntries h hq (n := n) (by omega)).bind fun entries m m' _ hm hle => ?_
  refine (matches_optionalSemicolon h (matches_pure (Tree.importPath path entries)) m m' hm
    (by omega)).mono fun _ => by omega

/-! ## Functions -/

omit h in
theorem refuses_argument (hE : ∀ min, Refuses (E min)) : Refuses (argument E) := by
  intro p hp tree q hread
  obtain ⟨found, m, hfollows, hread⟩ := exists_of_bind hread
  have hname : namedArgumentFollows p = ⟨some ((Expectation.category [.name]).accepts p.peek.kind &&
      (Expectation.anyOf [.colon, .assign, .comma, .rightParen]).accepts (p.lookAhead 1).kind),
      true, p⟩ := rfl
  rw [hp] at hname
  cases hname.symm.trans hfollows
  exact (hE .lowest).bind p hp tree q hread

include hE in
/-- An argument of a function. -/
theorem matches_argument : Matches semicolon back n (argument E) (argument E') := by
  intro p p' hp hn
  refine .of_refuses (refuses_argument hE.refuses) h hp fun hp => ?_
  have hnamed : Matches semicolon back n (namedArgument E) (namedArgument E') := by
    refine (matches_name h).bind fun name => (matches_optionalType h).bind fun type =>
      (matches_optionalExpression h (hE.matches .assignment) (by decide) rfl).bind fun default => ?_
    cases default with
    | none => exact matches_pure _
    | some default => exact matches_pure _
  have hpattern := (hE.matches .lowest).bind fun pattern =>
    matches_pure (Tree.patternArgument pattern)
  let follows (v w : Word) : Bool := (Expectation.category [.name]).accepts v.kind &&
    (Expectation.anyOf [.colon, .assign, .comma, .rightParen]).accepts w.kind
  have hsame : follows p'.peek (p'.lookAhead 1) = follows p.peek (p.lookAhead 1) :=
    hp.test_eq fun v w hk => by simp only [follows, hk]; rfl
  have hfollows' : namedArgumentFollows p' =
      ⟨some (follows p.peek (p.lookAhead 1)), true, p'⟩ := by
    rw [← hsame]
    rfl
  refine .bind_clean rfl hfollows' ?_
  split
  · exact hnamed p p' (.aligned hp) hn
  · exact hpattern p p' (.aligned hp) hn

include hE in
/-- The body of a function. -/
theorem matches_functionBody : Matches semicolon back n (functionBody E) (functionBody E') := by
  intro p p' hp hn
  refine .of_refuses (refuses_of_peek fun p hp tree q hread => ?_) h hp fun hp => .bind_peek hp ?_
  · rw [hp] at hread
    cases hread
  · cases hk : p.peek.kind with
    | leftBrace =>
      exact .advance_then hp (by simp [hk]) hn (matches_block h hE) fun _ => Nat.le_succ _
    | assign =>
      exact .advance_then hp (by simp [hk]) hn ((hE.matches .lowest).bind fun body =>
        (matches_terminator h).bind fun _ => matches_pure body) fun _ => Nat.le_succ _
    | _ => exact .of_fails fun _ _ hread => by cases hread

include hE in
/-- What is left of a function after the word that makes it one for use between arguments. -/
theorem matchesAt_functionFrom (isInfix : Bool) (hp : Beside semicolon back p p')
    (hn : p'.words.length < n) :
    MatchesAt semicolon back (functionFrom E isInfix) (functionFrom E' isInfix)
      (fun _ => p'.words.length) p p' := by
  have hkeyword (kind : TokenKind) (hk : (Expectation.kind .wordFun).accepts kind = true) :
      kind ≠ .semicolon ∧ kind ≠ .rightBrace ∧ kind ≠ .endOfFile := by
    rw [← eq_of_beq hk]
    decide
  have hrest : Matches semicolon back n (functionRest E) (functionRest E') :=
    (matches_expectKind h (by decide)).bind fun _ =>
      (matches_argumentList h (refuses_argument hE.refuses) (matches_argument h hE)).bind
        fun _ => (matches_optionalType h).bind fun _ => (matches_functionBody h hE).bind
          fun _ => matches_pure _
  refine .bind_expect h hkeyword hp fun hp' hlt => ?_
  have hread := (matches_name h (n := n)).bind fun name => hrest.bind fun rest =>
    matches_tidied (Tree.function name.text isInfix rest.1 rest.2.1 rest.2.2)
  exact (hread _ _ (.aligned hp') (by omega)).mono fun _ => by omega

include hE in
/-- A function. -/
theorem matchesAt_function (hp : Aligned semicolon back p p') (hn : p'.words.length < n) :
    MatchesAt semicolon back (function E) (function E') (fun _ => p'.words.length) p p' := by
  refine (matchesAt_skipKind hp (by decide)).bind fun isInfix q q' _ hq hlt => ?_
  have hle := skipLeft_le p' isInfix
  exact (matchesAt_functionFrom h hE isInfix hq (by omega)).mono fun _ => by omega

/-! ## Units -/

omit h in
theorem refuses_topLevel : Refuses (topLevel E) := by
  refine refuses_of_peek fun p hp tree q hread => ?_
  rw [hp] at hread
  cases hread

include hE in
/-- An import or a function. -/
theorem matchesAt_topLevel (hp : Beside semicolon back p p') (hn : p'.words.length < n) :
    MatchesAt semicolon back (topLevel E) (topLevel E') (fun _ => p'.words.length) p p' := by
  refine .of_refuses refuses_topLevel h hp fun hp => .bind_peek hp ?_
  cases hk : p.peek.kind with
  | wordImport => exact matchesAt_importRule h hE (.aligned hp) hn
  | wordFun => exact matchesAt_function h hE hp hn
  | wordInfix => exact matchesAt_function h hE hp hn
  | _ => exact .of_fails fun _ _ hread => by cases hread

omit h in
/-- Where a semicolon is next a unit does not end. -/
theorem refuses_unitStep (items : TreeItems) : Refuses (unitStep items) := by
  intro p hp x q hx
  obtain ⟨found, m, hcheck, hstep⟩ := exists_of_bind hx
  rw [checkKind, check_apply, hp] at hcheck
  cases hcheck
  have hitem : Refuses (bound >>= fun k => topLevel (expressionWithin k)) := by
    intro p hp tree q hread
    obtain ⟨k, m, hbound, hread⟩ := exists_of_bind hread
    cases hbound
    exact refuses_topLevel p hp tree q hread
  exact (refuses_synchronized hitem _).bind p hp x q hstep

/-- One more item of a unit, or its end. -/
theorem matchesAt_unitStep (items : TreeItems) (hp : Beside semicolon back p p') :
    MatchesAt semicolon back (unitStep items) (unitStep items) (stepLeft p') p p' := by
  refine .of_refuses (refuses_unitStep items) h hp fun hp => .bind_check hp ?_
  split
  · exact matchesAt_pure _ (.aligned hp) (Nat.lt_succ_self _)
  · have hitem : MatchesAt semicolon back (bound >>= fun k => topLevel (expressionWithin k))
        (bound >>= fun k => topLevel (expressionWithin k)) (fun _ => p'.words.length) p p' :=
      .bind_bound (matchesAt_topLevel h (pair_expressionWithin h _ _) (.aligned hp)
        (Nat.lt_succ_self _))
    exact (hitem.synchronized _).bind fun item q q' _ hq hlt => matchesAt_pure _ hq hlt

/-- A whole unit. -/
theorem matches_compilationUnit : Matches semicolon back n compilationUnit compilationUnit := by
  have hitems : Matches semicolon back n unitItems unitItems :=
    matches_loop (fun items _ _ hp _ => matchesAt_unitStep h items hp) ⟨[], []⟩
  exact hitems.bind fun items => matches_tidied _

/-! ## Sources -/

/-- A source up to its end. -/
theorem matches_toEnd {r : Reader Tree} (hr : Matches semicolon back n r r) :
    Matches semicolon back n (toEnd r) (toEnd r) :=
  hr.bind fun tree => (matches_expectKind h (by decide)).bind fun _ => matches_pure tree

/-- A whole source. -/
theorem matches_entry (e : Entry) : Matches semicolon back n (entry e) (entry e) := by
  cases e with
  | unit => exact matches_compilationUnit h
  | expression =>
    refine matches_toEnd h fun p p' hp hn => .bind_bound ?_
    exact (pair_expressionWithin h _ _).matches .lowest p p' hp (Nat.lt_succ_self _)
  | statement =>
    refine matches_toEnd h fun p p' hp hn => .bind_bound ?_
    exact (matchesAt_statementRule h (pair_expressionWithin h _ _) hp (Nat.lt_succ_self _)).mono
      fun _ => Nat.le_succ _

end

end ExprLang.Reader
