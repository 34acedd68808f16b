import ExprLang.Tree.Operator

/-!
# Precedence

How strongly the parts of an expression bind, and what a token means at the
start of an expression and after one.

Main definitions:

- Definition {lit}`StartRule.ofKind?`: what can begin an expression.
- Definition {lit}`ContinueRule.ofKind?`: what can continue one.
-/

namespace ExprLang

/-- How strongly something binds, the weakest first. -/
inductive Precedence where
  | lowest | assignment | disjunction | conjunction | equality | comparison | infixCall
  | additive | multiplicative | unary | postfixCall
deriving DecidableEq, Repr, Inhabited

namespace Precedence

/-- Every precedence, the weakest first. -/
def all : List Precedence :=
  [lowest, assignment, disjunction, conjunction, equality, comparison, infixCall, additive,
    multiplicative, unary, postfixCall]

/-- The rank of a precedence. -/
def rank : Precedence → Nat
  | lowest => 0
  | assignment => 1
  | disjunction => 2
  | conjunction => 3
  | equality => 4
  | comparison => 5
  | infixCall => 6
  | additive => 7
  | multiplicative => 8
  | unary => 9
  | postfixCall => 10

/-- Precedences of the same rank are the same. -/
theorem rank_injective {p q : Precedence} (h : p.rank = q.rank) : p = q := by
  cases p <;> cases q <;> first | rfl | exact absurd h (by decide)

end Precedence

/-! ## The start of an expression -/

/-- What a token means at the start of an expression. -/
inductive StartRule where
  | literal
  | reference
  | string
  | group
  | unary
  | conditional
  | block
deriving DecidableEq, Repr, Inhabited

/-- What a kind of token means at the start of an expression, if it can stand there. -/
def StartRule.ofKind? : TokenKind → Option StartRule
  | .intLiteral | .longLiteral | .floatLiteral | .doubleLiteral | .symbolLiteral
  | .wordTrue | .wordFalse => some .literal
  | .identifier | .wordAs | .wordInfix => some .reference
  | .stringStart => some .string
  | .leftParen => some .group
  | .minus | .not => some .unary
  | .wordIf => some .conditional
  | .leftBrace => some .block
  | _ => none

/-! ## The rest of an expression -/

/-- What a token means after an expression. -/
inductive ContinueRule where
  | binary
  | assignment
  /-- A name between two expressions. -/
  | infixCall
  | member
  | invocation
deriving DecidableEq, Repr, Inhabited

namespace ContinueRule

/-- What a kind of token means after an expression, if it can stand there, and how strongly
it binds to that expression. -/
def ofKind? : TokenKind → Option (ContinueRule × Precedence)
  | .or => some (binary, .disjunction)
  | .and => some (binary, .conjunction)
  | .equal | .notEqual => some (binary, .equality)
  | .less | .lessEqual | .greater | .greaterEqual => some (binary, .comparison)
  | .plus | .minus => some (binary, .additive)
  | .times | .divide | .remainder => some (binary, .multiplicative)
  | .assign | .plusAssign | .minusAssign | .timesAssign | .divideAssign
  | .remainderAssign => some (assignment, .assignment)
  | .identifier => some (infixCall, .infixCall)
  | .dot => some (member, .postfixCall)
  | .leftParen => some (invocation, .postfixCall)
  | _ => none

/-- The kinds that are listed as binary operators are those of the binary operators. -/
theorem exists_binaryOperator {kind : TokenKind} {precedence : Precedence}
    (h : ofKind? kind = some (binary, precedence)) :
    ∃ operator, BinaryOperator.ofKind? kind = some operator := by
  cases kind <;> first | exact ⟨_, rfl⟩ | simp [ofKind?] at h

/-- The kinds that are listed as assignments are those of the assignment operators. -/
theorem exists_assignmentOperator {kind : TokenKind} {precedence : Precedence}
    (h : ofKind? kind = some (assignment, precedence)) :
    ∃ operator, AssignmentOperator.ofKind? kind = some operator := by
  cases kind <;> first | exact ⟨_, rfl⟩ | simp [ofKind?] at h

end ContinueRule

/-- The kinds that are listed as unary operators are those of the unary operators. -/
theorem StartRule.exists_unaryOperator {kind : TokenKind} (h : ofKind? kind = some unary) :
    ∃ operator, UnaryOperator.ofKind? kind = some operator := by
  cases kind <;> first | exact ⟨_, rfl⟩ | simp [ofKind?] at h

end ExprLang
