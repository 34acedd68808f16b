import ExprLang.Parser.Imports

/-!
# Parsing declarations and units

A unit is a sequence of imports and functions, each of them a synchronization
point.  A function has its arguments in a scope of its own; an argument is a
name with an optional type and default, or else a pattern for the value of the
caller.

Main definitions:

- Definition {lit}`Parser.functionRule`: a function.
- Definition {lit}`Parser.compilationUnit`: a whole unit.
-/

namespace ExprLang.Parser

/-! ## Arguments -/

/-- Whether a name follows that is an argument of its own, and not the start of a pattern. -/
def namedArgumentFollows : Parser Bool := do
  let isName ← check (.category [.name])
  let next := (← lookAhead 1).kind
  return isName && (Expectation.anyOf [.colon, .assign, .comma, .rightParen]).accepts next

/-- A pattern for the value of the caller. -/
def patternArgument (expression : ExpressionRule) : Parser NodeId := do
  let pattern ← expression .lowest
  make (.patternArgument (some pattern)) (← spanOf pattern)

/-- A name with an optional type and default. -/
def namedArgument (expression : ExpressionRule) : Parser NodeId := do
  let name ← name
  let type ← optionalType
  let form := match ← optionalExpression (expression .assignment) .assign with
    | some default => .defaultArgument name.text type (some default)
    | none => .basicArgument name.text type
  make form (← spanFrom name.span)

/-- An argument of a function. -/
def argument (expression : ExpressionRule) : Parser NodeId := do
  if ← namedArgumentFollows then namedArgument expression else patternArgument expression

/-! ## Functions -/

/-- The body of a function: a block, or an expression after an equals sign. -/
def functionBody (expression : ExpressionRule) : Parser NodeId := do
  match (← peek).kind with
  | .leftBrace =>
    let brace ← advance
    blockRule expression brace
  | .assign =>
    let _ ← advance
    let body ← expression .lowest
    terminator
    return body
  | _ => fail (← unexpected "`\x7b` or `=`")

/-- The arguments, the type of the result, and the body of a function. -/
def functionRest (expression : ExpressionRule) :
    Parser (List NodeId × Option String × NodeId) := do
  let _ ← expectKind .leftParen
  let arguments ← argumentList (argument expression)
  let returnType ← optionalType
  let body ← functionBody expression
  return (arguments, returnType, body)

/-- A function. -/
def functionRule (expression : ExpressionRule) : Parser NodeId := do
  let start := (← peek).span
  let isInfix ← skipKind .wordInfix
  let _ ← expectKind .wordFun
  let name ← name
  let (scope, arguments, returnType, body) ← inScope (functionRest expression)
  if isInfix && arguments.length != 2 then
    record (← errorAt .semantic name.span (.infixArity name.text))
  let span ← spanFrom start
  let function ← make (.function name.text isInfix arguments returnType (some body) scope) span
  reportRedefinitions
  return function

/-! ## Units -/

/-- An import or a function. -/
def topLevel (expression : ExpressionRule) : Parser NodeId := do
  match (← peek).kind with
  | .wordImport => importRule expression
  | .wordFun | .wordInfix => functionRule expression
  | _ => fail (← unexpected "`import` or `fun`")

/-- What a unit holds, in two lists. -/
structure UnitItems where
  imports : List NodeId
  declarations : List NodeId
deriving DecidableEq, Repr, Inhabited

/-- Adds an item to the list it belongs to. -/
def UnitItems.push (items : UnitItems) (id : NodeId) : Form → UnitItems
  | .importPath .. => { items with imports := items.imports ++ [id] }
  | _ => { items with declarations := items.declarations ++ [id] }

/-- One more item of a unit, or its end. -/
def unitStep (items : UnitItems) : Parser (UnitItems ⊕ UnitItems) := do
  if ← checkKind .endOfFile then return .inr items
  let item ← synchronized (.category [.declarationStart]) do
    topLevel (expressionWithin (← bound))
  match item with
  | none => return .inl items
  | some id => return .inl (items.push id (← formOf id))

/-- The stretch of a unit: from its first import, or else its first declaration, to the last
token consumed. -/
def unitSpan (items : UnitItems) : Parser Span := do
  match items.imports.head?.or items.declarations.head? with
  | some first => spanFrom (← spanOf first)
  | none => return (← peek).span

/-- A whole unit. -/
def compilationUnit : Parser NodeId := do
  let (scope, items) ← inScope do loop unitStep (← bound) ⟨[], []⟩
  let span ← unitSpan items
  let unit ← make (.compilationUnit items.imports items.declarations scope) span
  reportRedefinitions
  return unit

end ExprLang.Parser
