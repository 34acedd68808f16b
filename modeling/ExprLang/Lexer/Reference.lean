import ExprLang.Lexer.Basic

/-!
# The lexical grammar of the language

The language has four lexical states: code, the body of a string, the code of a
placeholder in a string, and braces inside a placeholder.  Braces inside a
placeholder have to balance before a closing brace can end it.

Main definitions:

- Definition {lit}`reference`: the grammar.
- Definition {lit}`tokenize`: the tokens of a source text.
-/

namespace ExprLang

namespace Reference

/-! ## Fragments of code -/

/-- A digit, then digits and underscores. -/
def digits : Fragment :=
  .pattern (.seq (.one ⟨false, [('0', '9')]⟩)
    (.many ⟨false, [('0', '9'), ('_', '_')]⟩ true))

/-- A point and digits. -/
def fraction : Fragment :=
  .both (.literal ['.']) digits

/-- A power of ten. -/
def exponent : Fragment :=
  .both (.pattern (.seq (.one (.ofList ['e', 'E'])) (.optional (.one (.ofList ['+', '-']))))) digits

/-- A letter or underscore, then letters, digits and underscores. -/
def identifier : Fragment :=
  .pattern (.seq (.one ⟨false, [('A', 'Z'), ('a', 'z'), ('_', '_')]⟩)
    (.many ⟨false, [('A', 'Z'), ('a', 'z'), ('0', '9'), ('_', '_')]⟩ true))

/-- A number with a fraction and possibly a power of ten. -/
def withFraction : Fragment :=
  .sequence [digits, fraction, .optional exponent]

/-- A number marked as of the small format. -/
def floatNumber : Fragment :=
  .both (.either withFraction (.both digits (.optional exponent)))
    (.pattern (.one (.ofList ['f', 'F'])))

/-- A number with a fraction or a power of ten. -/
def doubleNumber : Fragment :=
  .either withFraction (.both digits exponent)

/-- An integer marked as long. -/
def longNumber : Fragment :=
  .both digits (.pattern (.one (.ofList ['l', 'L'])))

/-- Spaces, tabs and line ends. -/
def blanks : Fragment :=
  .pattern (.many1 (.ofList [' ', '\t', '\r', '\n']))

/-- Two slashes and the rest of the line. -/
def lineComment : Fragment :=
  .pattern (.seq (.seq (.one (.only '/')) (.one (.only '/'))) (.many (.except ['\n']) true))

/-- From a slash and a star to the first star and slash. -/
def blockComment : Fragment :=
  .pattern (.seq (.seq (.seq (.seq (.one (.only '/')) (.one (.only '*'))) (.many .any false))
    (.one (.only '*'))) (.one (.only '/')))

/-- One character. -/
def anyCharacter : Fragment :=
  .pattern (.one .any)

/-! ## Fragments of strings -/

/-- A backslash, `u` and four hexadecimal digits. -/
def numberEscape : Fragment :=
  .pattern (.seq (.seq (.one (.only '\\')) (.one (.only 'u')))
    (.times (.one ⟨false, [('0', '9'), ('a', 'f'), ('A', 'F')]⟩) 4))

/-- A backslash and a character that it changes. -/
def namedEscape : Fragment :=
  .pattern (.seq (.one (.only '\\')) (.one (.ofList ['n', 't', 'r', '0', '\\', '"', '\''])))

/-- Characters that stand for themselves in a string. -/
def content : Fragment :=
  .pattern (.many1 (.except ['"', '\\']))

/-! ## States -/

/-- The state of ordinary code. -/
def code : StateId := ⟨0⟩

/-- The state of the body of a string. -/
def string : StateId := ⟨1⟩

/-- The state of the code of a placeholder. -/
def template : StateId := ⟨2⟩

/-- The state inside braces inside a placeholder. -/
def brace : StateId := ⟨3⟩

/-- The rules of code. -/
def codeRules : List Rule :=
  [⟨blanks, .skip⟩, ⟨lineComment, .skip⟩, ⟨blockComment, .skip⟩,
    ⟨.literal ['"'], .push .stringStart string⟩,
    ⟨floatNumber, .emit .floatLiteral⟩, ⟨doubleNumber, .emit .doubleLiteral⟩,
    ⟨longNumber, .emit .longLiteral⟩, ⟨digits, .emit .intLiteral⟩,
    ⟨.both (.literal ['\'']) identifier, .emit .symbolLiteral⟩, ⟨identifier, .emitWord⟩]
    ++ TokenKind.operators.map (fun (text, kind) => ⟨.literal text.toList, .emit kind⟩)
    ++ [⟨anyCharacter, .emit .unexpectedCharacter⟩]

/-- The rules of the body of a string. -/
def stringRules : List Rule :=
  [⟨.literal ['\\', '\x7b'], .push .templateStart template⟩,
    ⟨numberEscape, .emit .stringEscape⟩, ⟨namedEscape, .emit .stringEscape⟩,
    ⟨content, .emit .stringContent⟩, ⟨.literal ['"'], .pop .stringEnd⟩,
    ⟨anyCharacter, .emit .unexpectedCharacter⟩]

/-- The rules of braces in a placeholder: a closing brace becomes `closing`. -/
def braceRules (closing : TokenKind) : List Rule :=
  [⟨.literal ['\x7d'], .pop closing⟩, ⟨.literal ['\x7b'], .push .leftBrace brace⟩]

end Reference

/-- The lexical grammar of the language. -/
def reference : Grammar where
  states :=
    [⟨"code", Reference.codeRules, []⟩, ⟨"string", Reference.stringRules, []⟩,
      ⟨"template", Reference.braceRules .templateEnd, [Reference.code]⟩,
      ⟨"brace", Reference.braceRules .rightBrace, [Reference.code]⟩]
  initial := Reference.code

/-- The tokens of a source text. -/
def tokenize (text : String) : List Token :=
  (Lexer.ofText reference text).tokens

end ExprLang
