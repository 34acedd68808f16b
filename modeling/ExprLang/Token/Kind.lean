import ExprLang.Token.Category

/-!
# Kinds of tokens

The kinds of tokens with their names, their spellings where these are fixed,
their categories, and their wording in messages.

Main definitions:

- Definition {lit}`TokenKind.operators` and {lit}`TokenKind.keywords`: the fixed
  spellings.
- Definition {lit}`TokenKind.ofWord`: the kind of a word of the language.
- Definition {lit}`TokenKind.categories`: what tokens of a kind can do.
-/

namespace ExprLang

/-- The kind of a token. -/
inductive TokenKind where
  | leftParen | rightParen | leftBrace | rightBrace | comma | semicolon | colon | dot
  | assign | plusAssign | minusAssign | timesAssign | divideAssign | remainderAssign
  | plus | minus | times | divide | remainder
  | equal | notEqual | less | lessEqual | greater | greaterEqual
  | and | or | not
  | intLiteral | longLiteral | floatLiteral | doubleLiteral | symbolLiteral | wordTrue | wordFalse
  | stringStart | stringContent | stringEscape | templateStart | templateEnd | stringEnd
  | identifier
  | wordImport | wordFun | wordVal | wordVar | wordIf | wordElse | wordReturn
  | wordAs | wordInfix
  | unexpectedCharacter | endOfFile
deriving DecidableEq, Repr, Inhabited

namespace TokenKind

/-- Every kind. -/
def all : List TokenKind :=
  [leftParen, rightParen, leftBrace, rightBrace, comma, semicolon, colon, dot, assign,
    plusAssign, minusAssign, timesAssign, divideAssign, remainderAssign, plus, minus,
    times, divide, remainder, equal, notEqual, less, lessEqual, greater, greaterEqual,
    and, or, not, intLiteral, longLiteral, floatLiteral, doubleLiteral, symbolLiteral,
    wordTrue, wordFalse, stringStart, stringContent, stringEscape, templateStart,
    templateEnd, stringEnd, identifier, wordImport, wordFun, wordVal, wordVar, wordIf,
    wordElse, wordReturn, wordAs, wordInfix, unexpectedCharacter, endOfFile]

/-- The name of a kind in listings. -/
def name : TokenKind → String
  | leftParen => "LeftParen"
  | rightParen => "RightParen"
  | leftBrace => "LeftBrace"
  | rightBrace => "RightBrace"
  | comma => "Comma"
  | semicolon => "Semicolon"
  | colon => "Colon"
  | dot => "Dot"
  | assign => "Assign"
  | plusAssign => "PlusAssign"
  | minusAssign => "MinusAssign"
  | timesAssign => "TimesAssign"
  | divideAssign => "DivideAssign"
  | remainderAssign => "RemainderAssign"
  | plus => "Plus"
  | minus => "Minus"
  | times => "Times"
  | divide => "Divide"
  | remainder => "Remainder"
  | equal => "Equal"
  | notEqual => "NotEqual"
  | less => "Less"
  | lessEqual => "LessEqual"
  | greater => "Greater"
  | greaterEqual => "GreaterEqual"
  | and => "And"
  | or => "Or"
  | not => "Not"
  | intLiteral => "IntLiteral"
  | longLiteral => "LongLiteral"
  | floatLiteral => "FloatLiteral"
  | doubleLiteral => "DoubleLiteral"
  | symbolLiteral => "SymbolLiteral"
  | wordTrue => "True"
  | wordFalse => "False"
  | stringStart => "StringStart"
  | stringContent => "StringContent"
  | stringEscape => "StringEscape"
  | templateStart => "TemplateStart"
  | templateEnd => "TemplateEnd"
  | stringEnd => "StringEnd"
  | identifier => "Identifier"
  | wordImport => "Import"
  | wordFun => "Fun"
  | wordVal => "Val"
  | wordVar => "Var"
  | wordIf => "If"
  | wordElse => "Else"
  | wordReturn => "Return"
  | wordAs => "As"
  | wordInfix => "Infix"
  | unexpectedCharacter => "UnexpectedCharacter"
  | endOfFile => "EndOfFile"

/-- The kind with a given name. -/
def ofName? (text : String) : Option TokenKind :=
  all.find? (·.name == text)

@[simp] theorem ofName?_name (kind : TokenKind) : ofName? kind.name = some kind := by
  cases kind <;> decide

/-! ## Spellings -/

/-- The operators and separators, a longer one before those it begins with. -/
def operators : List (String × TokenKind) :=
  [("==", equal), ("!=", notEqual), ("<=", lessEqual), (">=", greaterEqual), ("&&", and),
    ("||", or), ("+=", plusAssign), ("-=", minusAssign), ("*=", timesAssign),
    ("/=", divideAssign), ("%=", remainderAssign), ("=", assign), ("<", less),
    (">", greater), ("+", plus), ("-", minus), ("*", times), ("/", divide),
    ("%", remainder), ("!", not), ("(", leftParen), (")", rightParen),
    ("\x7b", leftBrace), ("\x7d", rightBrace), (",", comma), (";", semicolon),
    (":", colon), (".", dot)]

/-- The keywords, those that are so in some places only last. -/
def keywords : List (String × TokenKind) :=
  [("import", wordImport), ("fun", wordFun), ("val", wordVal), ("var", wordVar),
    ("if", wordIf), ("else", wordElse), ("return", wordReturn), ("true", wordTrue),
    ("false", wordFalse), ("as", wordAs), ("infix", wordInfix)]

/-- Every fixed spelling with its kind. -/
def fixedSpellings : List (String × TokenKind) :=
  operators ++ keywords

/-- The keyword that is spelled `text`. -/
def keyword? (text : String) : Option TokenKind :=
  keywords.lookup text

/-- The kind of a word: a keyword or else an identifier. -/
def ofWord (text : String) : TokenKind :=
  (keyword? text).getD identifier

/-! ## Categories -/

/-- What tokens of a kind can do. -/
def categories : TokenKind → List Category
  | leftParen | rightParen | leftBrace | rightBrace | comma | semicolon | colon | dot =>
    [.separator]
  | assign | plusAssign | minusAssign | timesAssign | divideAssign | remainderAssign =>
    [.assignment, .operator]
  | plus | minus | times | divide | remainder | equal | notEqual | less | lessEqual
  | greater | greaterEqual | and | or | not => [.operator]
  | intLiteral | longLiteral | floatLiteral | doubleLiteral | symbolLiteral => [.literal]
  | wordTrue | wordFalse => [.literal, .keyword]
  | stringStart | stringContent | stringEscape | templateStart => [.string]
  | templateEnd | stringEnd => [.string, .stringPartEnd]
  | identifier => [.name]
  | wordImport | wordFun => [.keyword, .declarationStart]
  | wordVal | wordVar | wordReturn | wordIf => [.keyword, .statementStart]
  | wordElse => [.keyword]
  | wordAs => [.softKeyword, .name]
  | wordInfix => [.softKeyword, .name, .declarationStart]
  | unexpectedCharacter => [.invalid]
  | endOfFile => [.finish]

/-- Whether tokens of the kind belong to a category. -/
def isA (kind : TokenKind) (category : Category) : Bool :=
  kind.categories.contains category

/-- Whether tokens of the kind belong to one of several categories. -/
def isAnyOf (kind : TokenKind) (categories : List Category) : Bool :=
  categories.any kind.isA

/-! ## Wording -/

/-- How a kind reads in messages: its spelling in backquotes if it has one. -/
def describe : TokenKind → String
  | leftParen => "`(`"
  | rightParen => "`)`"
  | leftBrace => "`\x7b`"
  | rightBrace => "`\x7d`"
  | comma => "`,`"
  | semicolon => "`;`"
  | colon => "`:`"
  | dot => "`.`"
  | assign => "`=`"
  | plusAssign => "`+=`"
  | minusAssign => "`-=`"
  | timesAssign => "`*=`"
  | divideAssign => "`/=`"
  | remainderAssign => "`%=`"
  | plus => "`+`"
  | minus => "`-`"
  | times => "`*`"
  | divide => "`/`"
  | remainder => "`%`"
  | equal => "`==`"
  | notEqual => "`!=`"
  | less => "`<`"
  | lessEqual => "`<=`"
  | greater => "`>`"
  | greaterEqual => "`>=`"
  | and => "`&&`"
  | or => "`||`"
  | not => "`!`"
  | intLiteral => "integer"
  | longLiteral => "long integer"
  | floatLiteral => "float"
  | doubleLiteral => "double"
  | symbolLiteral => "symbol"
  | wordTrue => "`true`"
  | wordFalse => "`false`"
  | stringStart => "`\"`"
  | stringContent => "string content"
  | stringEscape => "escape sequence"
  | templateStart => "`\\\x7b`"
  | templateEnd => "`\x7d`"
  | stringEnd => "`\"`"
  | identifier => "identifier"
  | wordImport => "`import`"
  | wordFun => "`fun`"
  | wordVal => "`val`"
  | wordVar => "`var`"
  | wordIf => "`if`"
  | wordElse => "`else`"
  | wordReturn => "`return`"
  | wordAs => "`as`"
  | wordInfix => "`infix`"
  | unexpectedCharacter => "unexpected character"
  | endOfFile => "end of file"

instance : ToString TokenKind where
  toString := describe

end TokenKind

end ExprLang
