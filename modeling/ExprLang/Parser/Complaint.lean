import ExprLang.Token.Basic
import ExprLang.Tree.Literal

/-!
# What the parser complains about

Every problem that the parser reports, and its wording.

Main definitions:

- Definition {lit}`Complaint.message`: the wording of each problem.
-/

namespace ExprLang

/-- A problem that the parser reports. -/
inductive Complaint where
  /-- Something else was expected in place of a token. -/
  | unexpected (expected : String) (found : Token)
  /-- A token writes no value. -/
  | badLiteral (error : LiteralError)
  /-- A backslash with what follows it stands for no character. -/
  | badEscape (text : String)
  /-- A character of a string is outside the language. -/
  | badCharacter (text : String)
  /-- A string has no end. -/
  | openString
  /-- The path of an import contains a placeholder. -/
  | pathWithPlaceholder
  /-- An import lists no names. -/
  | emptyImport
  /-- An imported name is renamed to itself. -/
  | redundantRename (name rename : String)
  /-- A name is defined twice in a scope. -/
  | redefinition (name : String)
  /-- A function for use between its arguments has not two of them. -/
  | infixArity (name : String)

/-- The wording of a complaint.  A token that is no part of the language has a message of its
own, whatever was expected. -/
def Complaint.message : Complaint → String
  | .unexpected expected found =>
    (found.kind.unexpectedMessage? found.text).getD
      s!"expected {expected}, but found {found.describe}"
  | .badLiteral error => error.message
  | .badEscape text => s!"invalid escape sequence `{text}`"
  | .badCharacter text =>
    (TokenKind.unexpectedCharacter.unexpectedMessage? text).getD "unexpected character"
  | .openString => "unterminated string literal"
  | .pathWithPlaceholder => "import path cannot contain interpolation"
  | .emptyImport => "empty import list"
  | .redundantRename name rename =>
    s!"redundant alias: `{name}` is already called `{rename}`"
  | .redefinition name => s!"`{name}` is already defined in this scope"
  | .infixArity name => s!"infix function `{name}` must declare exactly two arguments"

end ExprLang
