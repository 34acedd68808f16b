import ExprLang.Lexer.Grammar

/-!
# Lexers

A lexer runs a grammar over a text.  At each place the first rule of the current
state that matches decides what becomes of the text there; where none does, one
character becomes a token for input outside the language.  So the lexer always
moves on and covers the whole text.

Main definitions:

- Definition {lit}`Lexer.step?`: one match.
- Definition {lit}`Lexer.next`: the next token.
- Definition {lit}`Lexer.tokens`: all tokens of a text.
-/

namespace ExprLang

/-- A grammar at work on a text. -/
structure Lexer where
  grammar : Grammar
  cursor : Cursor
  stack : StateStack
deriving Inhabited

namespace Lexer

/-- The lexer at the start of a text. -/
def ofText (grammar : Grammar) (text : String) : Lexer :=
  ⟨grammar, .ofText text, .ofRoot grammar.initial⟩

/-- The name of the current state. -/
def stateName (l : Lexer) : String :=
  l.grammar.stateName l.stack.current

/-- The number of active states. -/
def depth (l : Lexer) : Nat := l.stack.depth

/-- The token that a lexeme becomes. -/
def tokenOf (kind : TokenKind) (lexeme : Lexeme) : Token :=
  ⟨kind, String.ofList lexeme.text, lexeme.span⟩

/-- One match: the token it becomes, if any, and the lexer after it.  There is none at the
end of the text. -/
def step? (l : Lexer) : Option (Option Token × Lexer) :=
  match l.cursor.rest with
  | [] => none
  | c :: rest =>
    match l.grammar.firstMatch? l.stack.current l.cursor with
    | some (action, lexeme, after) =>
      let (kind?, stack) := action.run lexeme.text l.stack
      some (kind?.map (tokenOf · lexeme), { l with cursor := after, stack := stack })
    | none =>
      let (lexeme, after) := l.cursor.take [c] rest
      some (some (tokenOf .unexpectedCharacter lexeme), { l with cursor := after })

@[simp] theorem step?_of_rest_nil {l : Lexer} (h : l.cursor.rest = []) : l.step? = none := by
  simp [step?, h]

/-- While text is left the lexer moves on. -/
theorem isSome_step? {l : Lexer} (h : l.cursor.rest ≠ []) : l.step?.isSome := by
  unfold step?
  split
  · contradiction
  · split <;> rfl

/-- The next token within a number of matches, and the lexer after it. -/
def nextWithin : Nat → Lexer → Option Token × Lexer
  | 0, l => (none, l)
  | n + 1, l =>
    match l.step? with
    | none => (none, l)
    | some (none, after) => nextWithin n after
    | some (some token, after) => (some token, after)

/-- The next token, if any, and the lexer after it.  Every match uses up a character. -/
def next (l : Lexer) : Option Token × Lexer :=
  nextWithin l.cursor.rest.length l

/-- The tokens within a number of matches. -/
def tokensWithin : Nat → Lexer → List Token
  | 0, _ => []
  | n + 1, l =>
    match l.step? with
    | none => []
    | some (none, after) => tokensWithin n after
    | some (some token, after) => token :: tokensWithin n after

/-- All tokens that are still to come. -/
def tokens (l : Lexer) : List Token :=
  tokensWithin l.cursor.rest.length l

end Lexer

end ExprLang
