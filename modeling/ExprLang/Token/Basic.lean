import ExprLang.Position
import ExprLang.Text.Quoted
import ExprLang.Token.Kind

/-!
# Tokens

A token is a piece of a source text with its kind and its place.  One that
stands for a character outside the language carries a message of its own.

Main definitions:

- Definition {lit}`Token.endOfFile`: the token at the end of a source.
- Definition {lit}`TokenKind.unexpectedMessage?`: the message of a token that is
  no part of the language.
-/

namespace ExprLang

/-- A piece of a source text. -/
structure Token where
  kind : TokenKind
  text : String
  span : Span
deriving DecidableEq, Repr, Inhabited

namespace Token

/-- The token that ends a source whose last token ends at `point`. -/
def endOfFile (point : Point) : Token :=
  ⟨.endOfFile, "", point.toSpan⟩

/-- A token is written as its text. -/
instance : ToString Token where
  toString t := if t.kind = .endOfFile then "end of file" else t.text

/-- How a token reads in messages: its text in backquotes. -/
def describe (t : Token) : String :=
  if t.kind = .endOfFile then "end of file" else s!"`{t.text}`"

end Token

/-! ## Characters outside the language -/

/-- The names of the ASCII characters that are apt to stand outside the language. -/
def characterNames : List (Char × String) :=
  [('!', "EXCLAMATION MARK"), ('"', "QUOTATION MARK"), ('#', "NUMBER SIGN"),
    ('$', "DOLLAR SIGN"), ('&', "AMPERSAND"), ('\'', "APOSTROPHE"), ('?', "QUESTION MARK"),
    ('@', "COMMERCIAL AT"), ('[', "LEFT SQUARE BRACKET"), ('\\', "REVERSE SOLIDUS"),
    (']', "RIGHT SQUARE BRACKET"), ('^', "CIRCUMFLEX ACCENT"), ('\x60', "GRAVE ACCENT"),
    ('|', "VERTICAL LINE"), ('~', "TILDE"), ('\t', "CHARACTER TABULATION"),
    ('\x00', "NULL")]

/-- The number of a character in at least four hexadecimal digits, and its name if it is
listed. -/
def characterName (c : Char) : String :=
  let digits := (Text.hexDigits c.toNat).map Char.toUpper
  let code := "U+" ++ String.ofList (List.replicate (4 - digits.length) '0' ++ digits)
  match characterNames.lookup c with
  | some name => s!"{code} {name}"
  | none => code

/-- The message of a token whose kind is no part of the language; it names the first
character of the text. -/
def TokenKind.unexpectedMessage? (kind : TokenKind) (text : String) : Option String :=
  if kind = .unexpectedCharacter then
    let c := text.toList.headD '\x00'
    some s!"unexpected character `{String.ofList (Text.spell c)}` ({characterName c})"
  else none

end ExprLang
