import ExprLang.Parser.Strings

/-!
# Parsing statements and blocks

A block is a sequence of statements in braces with a scope of its own; each of
its statements is a synchronization point.  The semicolon after a statement may
be left out behind a closing brace, before one, and at the end of the source.

Main definitions:

- Definition {lit}`Parser.statementRule`: a statement.
- Definition {lit}`Parser.blockRule`: a block after its opening brace.
-/

namespace ExprLang.Parser

/-! ## Types -/

/-- One more part of a type after a dot, or the end of the type. -/
def typeStep (path : String) : Parser (String ⊕ String) := do
  if ← skipKind .dot then return .inl (path ++ "." ++ (← name).text) else return .inr path

/-- Names separated by dots. -/
def typeName : Parser String := do
  let first ← name
  loop typeStep (← bound) first.text

/-- A colon and a type, or nothing. -/
def optionalType : Parser (Option String) := do
  if ← skipKind .colon then return some (← typeName) else return none

/-! ## Statements -/

/-- The semicolon that ends a statement, where it is needed. -/
def terminator : Parser Unit := do
  if ← skipKind .semicolon then return ()
  let tape := (← get).tape
  let afterBrace := tape.consumed.head?.any (·.kind == .rightBrace)
  if afterBrace || tape.peek.kind == .rightBrace || tape.peek.kind == .endOfFile then return ()
  let _ ← expectKind .semicolon

/-- An expression after a token of some kind, if there is such a token. -/
def optionalExpression (expression : Parser NodeId) (kind : TokenKind) :
    Parser (Option NodeId) := do
  if ← skipKind kind then some <$> expression else pure none

/-- A variable, after a look at its keyword. -/
def variableForm (expression : ExpressionRule) : Parser Form := do
  let keyword ← advance
  let name ← name
  let type ← optionalType
  let initializer ← optionalExpression (expression .lowest) .assign
  return .localVariable name.text (keyword.kind == .wordVar) type initializer

/-- A return, after a look at its keyword. -/
def returnForm (expression : ExpressionRule) : Parser Form := do
  let _ ← advance
  if ← check (.anyOf [.semicolon, .rightBrace, .endOfFile]) then return .returnStatement none
  return .returnStatement (some (← expression .lowest))

/-- A statement without the semicolon that ends it. -/
def statementForm (expression : ExpressionRule) : Parser Form := do
  match (← peek).kind with
  | .wordVal | .wordVar => variableForm expression
  | .wordReturn => returnForm expression
  | _ => return .expressionStatement (some (← expression .lowest))

/-- A statement. -/
def statementRule (expression : ExpressionRule) : Parser NodeId := do
  let start := (← peek).span
  let form ← statementForm expression
  terminator
  make form (← spanFrom start)

/-! ## Blocks -/

/-- One more statement of a block, or the end of the statements. -/
def blockStep (expression : ExpressionRule) (statements : List NodeId) :
    Parser (List NodeId ⊕ List NodeId) := do
  if ← check (.anyOf [.rightBrace, .endOfFile]) then return .inr statements
  let statement ← synchronized (.either (.category [.statementStart]) (.kind .rightBrace))
    (statementRule expression)
  return .inl (statements ++ statement.toList)

/-- The statements of a block. -/
def blockStatements (expression : ExpressionRule) : Parser (List NodeId) := do
  loop (blockStep expression) (← bound) []

/-- A block after its opening brace `start`. -/
def blockRule (expression : ExpressionRule) (start : Token) : Parser NodeId := do
  let (scope, statements) ← inScope (blockStatements expression)
  let _ ← expectKind .rightBrace
  let block ← make (.block statements scope) (← spanFrom start.span)
  reportRedefinitions
  return block

end ExprLang.Parser
