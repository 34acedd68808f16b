import ExprLang.Tree.Operator

/-!
# The grammar of expressions

Which sequences of tokens are expressions without strings and blocks.  The grammar
says nothing of how strongly operators bind, nor which conditional an `else` belongs
to, so most expressions can be derived in several ways.

Main definitions:

- Definition {lit}`Derives`: what the nonterminals of the grammar derive.

Main results:

- Theorem {lit}`Derives.append_suffixes`: suffixes go on with any expression.
- Theorem {lit}`Derives.append_operation`: so do operators and expressions after them.
-/

namespace ExprLang

namespace TokenKind

/-- Whether a token is a literal. -/
def isLiteral : TokenKind → Bool
  | intLiteral | longLiteral | floatLiteral | doubleLiteral | symbolLiteral | wordTrue
  | wordFalse => true
  | _ => false

/-- Whether a token is a name; two keywords are names in expressions. -/
def isReference : TokenKind → Bool
  | identifier | wordAs | wordInfix => true
  | _ => false

/-- Whether a token can stand between two operands: an operator, or the name of a call that is
written between its arguments. -/
def isInfixOperator (kind : TokenKind) : Bool :=
  (BinaryOperator.ofKind? kind).isSome || (AssignmentOperator.ofKind? kind).isSome ||
    kind == identifier

end TokenKind

/-- The nonterminals of the grammar. -/
inductive Phrase where
  /-- `E = O (I O)*` -/
  | expression
  /-- `O = ('-' | '!') O | B S*` -/
  | operand
  /-- `B = literal | name | '(' E ')' | 'if' '(' E ')' E ('else' E)?` -/
  | base
  /-- `S*`, where `S = '.' name | '(' A ')'` -/
  | suffixes
  /-- `A = (E (',' E)* ','?)?` -/
  | arguments
deriving DecidableEq, Repr

/-- The kinds of the tokens that a nonterminal derives. -/
inductive Derives : Phrase → List TokenKind → Prop
  | operand {ks : List TokenKind} (h : Derives .operand ks) : Derives .expression ks
  | operation {ks ls : List TokenKind} {k : TokenKind} (h : Derives .operand ks)
    (hk : k.isInfixOperator = true) (h' : Derives .expression ls) :
    Derives .expression (ks ++ k :: ls)
  | unary {ks : List TokenKind} {k : TokenKind} (hk : k = .minus ∨ k = .not)
    (h : Derives .operand ks) : Derives .operand (k :: ks)
  | suffixed {ks ls : List TokenKind} (h : Derives .base ks) (h' : Derives .suffixes ls) :
    Derives .operand (ks ++ ls)
  | literal {k : TokenKind} (hk : k.isLiteral = true) : Derives .base [k]
  | reference {k : TokenKind} (hk : k.isReference = true) : Derives .base [k]
  | group {ks : List TokenKind} (h : Derives .expression ks) :
    Derives .base (.leftParen :: (ks ++ [.rightParen]))
  | conditional {ks ls : List TokenKind} (h : Derives .expression ks)
    (h' : Derives .expression ls) :
    Derives .base (.wordIf :: .leftParen :: (ks ++ .rightParen :: ls))
  | conditionalElse {ks ls ms : List TokenKind} (h : Derives .expression ks)
    (h' : Derives .expression ls) (h'' : Derives .expression ms) :
    Derives .base (.wordIf :: .leftParen :: (ks ++ .rightParen :: (ls ++ .wordElse :: ms)))
  | noSuffix : Derives .suffixes []
  | member {ks : List TokenKind} {k : TokenKind} (hk : k.isReference = true)
    (h : Derives .suffixes ks) : Derives .suffixes (.dot :: k :: ks)
  | call {ks ls : List TokenKind} (h : Derives .arguments ks) (h' : Derives .suffixes ls) :
    Derives .suffixes (.leftParen :: (ks ++ .rightParen :: ls))
  | noArguments : Derives .arguments []
  | argument {ks : List TokenKind} (h : Derives .expression ks) : Derives .arguments ks
  | moreArguments {ks ls : List TokenKind} (h : Derives .expression ks)
    (h' : Derives .arguments ls) : Derives .arguments (ks ++ .comma :: ls)

namespace Derives

variable {p : Phrase} {ks ls : List TokenKind} {k : TokenKind}

/-- Suffixes go on with whatever ends in an operand. -/
theorem append_suffixes (h : Derives p ks) (h' : Derives .suffixes ls) :
    (p = .expression ∨ p = .operand ∨ p = .suffixes) → Derives p (ks ++ ls) := by
  induction h with
  | operand _ ih => exact fun _ => .operand (ih (.inr (.inl rfl)))
  | operation h hk _ _ ih =>
    intro _
    rw [List.append_assoc, List.cons_append]
    exact .operation h hk (ih (.inl rfl))
  | unary hk _ ih => exact fun _ => .unary hk (ih (.inr (.inl rfl)))
  | suffixed h _ _ ih =>
    intro _
    rw [List.append_assoc]
    exact .suffixed h (ih (.inr (.inr rfl)))
  | noSuffix => exact fun _ => h'
  | member hk _ ih => exact fun _ => .member hk (ih (.inr (.inr rfl)))
  | call h _ _ ih =>
    intro _
    rw [List.cons_append, List.append_assoc, List.cons_append]
    exact .call h (ih (.inr (.inr rfl)))
  | _ => rintro (hp | hp | hp) <;> cases hp

/-- An operator and an expression go on with an expression. -/
theorem append_operation (h : Derives .expression ks) (hk : k.isInfixOperator = true)
    (h' : Derives .expression ls) : Derives .expression (ks ++ k :: ls) := by
  generalize hp : Phrase.expression = p at h
  induction h with
  | operand h => exact .operation h hk h'
  | operation h hk' _ _ ih =>
    rw [List.append_assoc, List.cons_append]
    exact .operation h hk' (ih rfl)
  | _ => cases hp

end Derives

end ExprLang
