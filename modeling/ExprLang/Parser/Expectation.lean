import ExprLang.Token.Kind

/-!
# Expectations

What the parser can ask the next token to be.

Main definitions:

- Definition {lit}`Expectation.accepts`: whether a token fits.
- Definition {lit}`Expectation.describe`: how an expectation reads in messages.
-/

namespace ExprLang

/-- A condition on the kind of a token. -/
inductive Expectation where
  /-- Exactly this kind. -/
  | kind (wanted : TokenKind)
  /-- One of some categories. -/
  | category (categories : List Category)
  /-- One of some kinds. -/
  | anyOf (kinds : List TokenKind)
  /-- One of two expectations. -/
  | either (first second : Expectation)
deriving DecidableEq, Repr, Inhabited

namespace Expectation

/-- Whether tokens of some kind fit. -/
def accepts : Expectation → TokenKind → Bool
  | .kind wanted, k => wanted == k
  | .category categories, k => k.isAnyOf categories
  | .anyOf kinds, k => kinds.contains k
  | .either first second, k => first.accepts k || second.accepts k

@[simp] theorem accepts_kind (wanted k : TokenKind) :
    (kind wanted).accepts k = (wanted == k) := rfl

@[simp] theorem accepts_either (first second : Expectation) (k : TokenKind) :
    (either first second).accepts k = (first.accepts k || second.accepts k) := rfl

/-- How an expectation reads in messages. -/
def describe : Expectation → String
  | .kind wanted => wanted.describe
  | .category categories => Category.describe categories
  | .anyOf kinds => String.intercalate " or " (kinds.map TokenKind.describe)
  | .either first second => s!"{first.describe} or {second.describe}"

end Expectation

end ExprLang
