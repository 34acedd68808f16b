import ExprLang.Parser.Precedence
import ExprLang.Proofs.Grammar.Derivations
import ExprLang.Proofs.Reader.Basic

/-!
# Words that begin with a phrase

The grammar in the form in which words are read: a phrase takes up some words and
leaves the others.

Main definitions:

- Definition {lit}`Phrase.Begins`: some words begin with a phrase.
- Definition {lit}`Precedence.phrase`: what is read that binds more strongly than a
  precedence.

Main results:

- Theorem {lit}`Phrase.Begins.operation`: operators between expressions.
- Theorem {lit}`Phrase.Begins.call`: calls.
- Theorem {lit}`StartRule.isFor_of_ofKind?`,
  {lit}`ContinueRule.isFor_of_ofKind?`: which words the rules of the parser are for.
-/

namespace ExprLang

/-- Some words begin with what a nonterminal derives, and the others follow. -/
def Phrase.Begins (p : Phrase) (ws rest : List Word) : Prop :=
  ∃ used, ws = used ++ rest ∧ Derives p (used.map Word.kind)

namespace Phrase.Begins

variable {p : Phrase} {v w : Word} {ws mid last rest : List Word}

/-! ## Operands -/

/-- A literal. -/
theorem literal (hw : w.kind.isLiteral = true) : base.Begins (w :: rest) rest :=
  ⟨[w], rfl, .literal hw⟩

/-- A name. -/
theorem reference (hw : w.kind.isReference = true) : base.Begins (w :: rest) rest :=
  ⟨[w], rfl, .reference hw⟩

/-- An operand without suffixes. -/
theorem operand (h : base.Begins ws rest) : Phrase.operand.Begins ws rest := by
  obtain ⟨used, hws, hused⟩ := h
  refine ⟨used, hws, ?_⟩
  rw [← List.append_nil (used.map Word.kind)]
  exact .suffixed hused .noSuffix

/-- An expression without operators. -/
theorem expression (h : Phrase.operand.Begins ws rest) : Phrase.expression.Begins ws rest := by
  obtain ⟨used, hws, hused⟩ := h
  exact ⟨used, hws, .operand hused⟩

/-- An operator before an operand. -/
theorem unary (hw : w.kind = .minus ∨ w.kind = .not) (h : Phrase.operand.Begins ws rest) :
    Phrase.operand.Begins (w :: ws) rest := by
  obtain ⟨used, rfl, hused⟩ := h
  exact ⟨w :: used, rfl, .unary hw hused⟩

/-- An expression in parentheses. -/
theorem group (hv : v.kind = .leftParen) (h : Phrase.expression.Begins ws (w :: rest))
    (hw : w.kind = .rightParen) : base.Begins (v :: ws) rest := by
  obtain ⟨used, rfl, hused⟩ := h
  refine ⟨v :: (used ++ [w]), by simp, ?_⟩
  rw [List.map_cons, List.map_append, List.map_singleton, hv, hw]
  exact .group hused

section Conditional

variable {keyword opening closing : Word}

/-- A conditional with one branch. -/
theorem conditional (hk : keyword.kind = .wordIf) (ho : opening.kind = .leftParen)
    (h : Phrase.expression.Begins ws (closing :: mid)) (hc : closing.kind = .rightParen)
    (h' : Phrase.expression.Begins mid rest) :
    base.Begins (keyword :: opening :: ws) rest := by
  obtain ⟨used, rfl, hused⟩ := h
  obtain ⟨used', rfl, hused'⟩ := h'
  refine ⟨keyword :: opening :: (used ++ closing :: used'), by simp, ?_⟩
  simp only [List.map_cons, List.map_append, hk, ho, hc]
  exact .conditional hused hused'

/-- A conditional with two branches. -/
theorem conditionalElse (hk : keyword.kind = .wordIf) (ho : opening.kind = .leftParen)
    (h : Phrase.expression.Begins ws (closing :: mid)) (hc : closing.kind = .rightParen)
    (h' : Phrase.expression.Begins mid (w :: last)) (hw : w.kind = .wordElse)
    (h'' : Phrase.expression.Begins last rest) :
    base.Begins (keyword :: opening :: ws) rest := by
  obtain ⟨used, rfl, hused⟩ := h
  obtain ⟨used', rfl, hused'⟩ := h'
  obtain ⟨used'', rfl, hused''⟩ := h''
  refine ⟨keyword :: opening :: (used ++ closing :: (used' ++ w :: used'')), by simp, ?_⟩
  simp only [List.map_cons, List.map_append, hk, ho, hc, hw]
  exact .conditionalElse hused hused' hused''

end Conditional

/-! ## Arguments -/

/-- No arguments. -/
theorem noArguments : arguments.Begins rest rest :=
  ⟨[], rfl, .noArguments⟩

/-- One argument. -/
theorem argument (h : Phrase.expression.Begins ws rest) : arguments.Begins ws rest := by
  obtain ⟨used, hws, hused⟩ := h
  exact ⟨used, hws, .argument hused⟩

/-- An argument before others. -/
theorem moreArguments (h : Phrase.expression.Begins ws (w :: mid)) (hw : w.kind = .comma)
    (h' : arguments.Begins mid rest) : arguments.Begins ws rest := by
  obtain ⟨used, rfl, hused⟩ := h
  obtain ⟨used', rfl, hused'⟩ := h'
  refine ⟨used ++ w :: used', by simp, ?_⟩
  rw [List.map_append, List.map_cons, hw]
  exact .moreArguments hused hused'

/-! ## What goes on with an expression -/

/-- Suffixes go on with an expression and with an operand. -/
theorem append_suffixes (h : p.Begins ws mid) (hp : p = .expression ∨ p = .operand)
    (h' : suffixes.Begins mid rest) : p.Begins ws rest := by
  obtain ⟨used, rfl, hused⟩ := h
  obtain ⟨used', rfl, hused'⟩ := h'
  refine ⟨used ++ used', by simp, ?_⟩
  rw [List.map_append]
  exact hused.append_suffixes hused' (hp.imp_right .inl)

/-- The access to a member. -/
theorem member (hv : v.kind = .dot) (hw : w.kind.isReference = true) :
    suffixes.Begins (v :: w :: rest) rest := by
  refine ⟨[v, w], rfl, ?_⟩
  rw [List.map_cons, hv]
  exact .member hw .noSuffix

/-- A call. -/
theorem call (hv : v.kind = .leftParen) (h : arguments.Begins ws (w :: rest))
    (hw : w.kind = .rightParen) : suffixes.Begins (v :: ws) rest := by
  obtain ⟨used, rfl, hused⟩ := h
  refine ⟨v :: (used ++ [w]), by simp, ?_⟩
  rw [List.map_cons, List.map_append, List.map_singleton, hv, hw]
  exact .call hused .noSuffix

/-- An operator and an expression behind another expression. -/
theorem operation (h : Phrase.expression.Begins ws (w :: mid))
    (hw : w.kind.isInfixOperator = true) (h' : Phrase.expression.Begins mid rest) :
    Phrase.expression.Begins ws rest := by
  obtain ⟨used, rfl, hused⟩ := h
  obtain ⟨used', rfl, hused'⟩ := h'
  refine ⟨used ++ w :: used', by simp, ?_⟩
  rw [List.map_append, List.map_cons]
  exact hused.append_operation hw hused'

end Phrase.Begins

/-! ## The rules of the parser -/

/-- What is read that binds more strongly than a precedence: only operands bind as strongly as
what comes behind an operator before an operand. -/
def Precedence.phrase (min : Precedence) : Phrase :=
  if Precedence.unary.rank ≤ min.rank then .operand else .expression

/-- Below the operators before an operand there are expressions. -/
theorem Precedence.phrase_of_lt {min : Precedence} (h : min.rank < Precedence.unary.rank) :
    min.phrase = .expression :=
  if_neg (Nat.not_le_of_lt h)

/-- There are expressions and operands. -/
theorem Precedence.phrase_cases (min : Precedence) :
    min.phrase = .expression ∨ min.phrase = .operand := by
  unfold Precedence.phrase
  split
  · exact .inr rfl
  · exact .inl rfl

/-- An operand is what is read in any place. -/
theorem Phrase.Begins.phrase {ws rest : List Word} (h : Phrase.operand.Begins ws rest)
    (min : Precedence) : min.phrase.Begins ws rest := by
  rcases min.phrase_cases with hmin | hmin
  · exact hmin ▸ h.expression
  · exact hmin ▸ h

/-- The words that a rule at the start of an expression is for. -/
def StartRule.IsFor : StartRule → TokenKind → Prop
  | .literal, kind => kind.isLiteral = true
  | .reference, kind => kind.isReference = true
  | .string, kind => kind = .stringStart
  | .group, kind => kind = .leftParen
  | .unary, kind => kind = .minus ∨ kind = .not
  | .conditional, kind => kind = .wordIf
  | .block, kind => kind = .leftBrace

/-- A rule is used for words that it is for. -/
theorem StartRule.isFor_of_ofKind? {kind : TokenKind} {rule : StartRule}
    (h : ofKind? kind = some rule) : rule.IsFor kind := by
  cases kind <;> cases h <;> simp [IsFor, TokenKind.isLiteral, TokenKind.isReference]

/-- The words that a rule behind an expression is for, and how strongly they bind to it. -/
def ContinueRule.IsFor (rule : ContinueRule) (kind : TokenKind) (precedence : Precedence) : Prop :=
  match rule with
  | .binary | .assignment | .infixCall =>
    kind.isInfixOperator = true ∧ precedence.rank < Precedence.unary.rank
  | .member => kind = .dot
  | .invocation => kind = .leftParen

/-- A rule is used for words that it is for. -/
theorem ContinueRule.isFor_of_ofKind? {kind : TokenKind} {rule : ContinueRule}
    {precedence : Precedence} (h : ofKind? kind = some (rule, precedence)) :
    rule.IsFor kind precedence := by
  cases kind <;> cases h <;> first | rfl | exact ⟨rfl, by decide⟩

end ExprLang
