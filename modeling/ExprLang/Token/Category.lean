/-!
# Categories of tokens

A category says what tokens of some kind can do: stand for a name, begin a
statement, end a part of a string.  The parser asks for a category wherever it
does not need the exact kind.

Main definitions:

- Definition {lit}`Category.describe`: how a set of categories reads in messages.
-/

namespace ExprLang

/-- What a token can do. -/
inductive Category where
  | separator
  | assignment
  | operator
  | literal
  /-- Part of a string literal. -/
  | string
  /-- Can stand where a name is expected. -/
  | name
  | keyword
  /-- A keyword in some places only. -/
  | softKeyword
  /-- Can begin a top-level declaration. -/
  | declarationStart
  /-- Can begin a statement. -/
  | statementStart
  /-- Ends a part of a string literal. -/
  | stringPartEnd
  /-- Stands for input that is no token. -/
  | invalid
  | finish
deriving DecidableEq, Repr

namespace Category

/-- Every category, in the order of their numbers. -/
def all : List Category :=
  [separator, assignment, operator, literal, string, name, keyword, softKeyword,
    declarationStart, statementStart, stringPartEnd, invalid, finish]

/-- How a category reads in messages. -/
def label : Category → String
  | separator => "separator"
  | assignment => "assignment operator"
  | operator => "operator"
  | literal => "literal"
  | string => "string"
  | name => "identifier"
  | keyword => "keyword"
  | softKeyword => "soft keyword"
  | declarationStart => "declaration"
  | statementStart => "statement"
  | stringPartEnd => "end of string part"
  | invalid => "invalid input"
  | finish => "end of file"

/-- The order in which the categories of a set are named: names and values come
first. -/
def namingOrder : List Category :=
  [name, literal, assignment, operator, separator, string, keyword, softKeyword,
    declarationStart, statementStart, stringPartEnd, invalid, finish]

/-- How a set of categories reads in messages. -/
def describe (categories : List Category) : String :=
  match namingOrder.filter (categories.contains ·) with
  | [] => "nothing"
  | named => String.intercalate " or " (named.map label)

end Category

end ExprLang
