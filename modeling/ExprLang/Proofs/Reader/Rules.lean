import ExprLang.Parser.Expression
import ExprLang.Proofs.Reader.Basic
import ExprLang.Proofs.Tree.Basic

/-!
# Readers for the language

The rules of the parser, one by one, as readers that answer with trees.

Main definitions:

- Definition {lit}`Reader.expression`: an expression.
- Definition {lit}`Reader.statement`: a statement.
- Definition {lit}`Reader.compilationUnit`: a whole unit.
-/

namespace ExprLang

/-- The reader for expressions that bind more strongly than some precedence. -/
abbrev ExpressionReader := Precedence → Reader Tree

/-- A call of what precedes its arguments.  A name that is called is not a child of the call. -/
def Tree.call (target : Tree) (arguments : List Tree) : Tree :=
  match target with
  | .reference name => .namedInvocation name arguments
  | _ => .anonymousInvocation target arguments

/-- A string under way: the parts before the present text, the text if there is any, and
whether there was a placeholder. -/
structure StringDraft where
  parts : List Tree
  text : Option (List Char)
  interpolated : Bool

namespace StringDraft

/-- The start of a string. -/
def empty : StringDraft := ⟨[], none, false⟩

/-- Adds text. -/
def push (d : StringDraft) (cs : List Char) : StringDraft :=
  { d with text := some (d.text.getD [] ++ cs) }

/-- The parts with the present text, if there is any, as the last one. -/
def flush (d : StringDraft) : StringDraft :=
  { d with
    parts := d.parts ++ (d.text.map fun cs => Tree.literal (.string (String.ofList cs))).toList
    text := none }

/-- The string that has been read. -/
def finish (d : StringDraft) : Tree :=
  if d.interpolated then .stringTemplate d.flush.parts
  else .literal (.string (String.ofList (d.text.getD [])))

end StringDraft

namespace Reader

/-! ## Strings -/

/-- A placeholder after its opening brace. -/
def placeholder (expression : ExpressionReader) (draft : StringDraft) : Reader StringDraft := do
  let draft := { draft with interpolated := true }.flush
  let part ← synchronized (.category [.stringPartEnd]) (expression .lowest)
  let draft := { draft with parts := draft.parts ++ part.toList }
  if ← skipKind .templateEnd then return draft
  if ← checkKind .stringEnd then return draft
  fail

/-- One word of a string: the string goes on or ends. -/
def stringStep (expression : ExpressionReader) (draft : StringDraft) :
    Reader (StringDraft ⊕ StringDraft) := do
  let word ← peek
  match word.kind with
  | .stringContent =>
    let _ ← advance
    return .inl (draft.push word.text.toList)
  | .stringEscape =>
    let _ ← advance
    match Text.unescape? word.text.toList with
    | some c => return .inl (draft.push [c])
    | none =>
      require false
      return .inl draft
  | .templateStart =>
    let _ ← advance
    return .inl (← placeholder expression draft)
  | .stringEnd =>
    let _ ← advance
    return .inr draft
  | .unexpectedCharacter =>
    let _ ← advance
    require false
    return .inl draft
  | _ => fail

/-- A string after its opening quote. -/
def string (expression : ExpressionReader) : Reader Tree := do
  let draft ← loop (stringStep expression) (← bound) .empty
  return draft.finish

/-! ## Types -/

/-- One more part of a type after a dot, or the end of the type. -/
def typeStep (path : String) : Reader (String ⊕ String) := do
  if ← skipKind .dot then return .inl (path ++ "." ++ (← name).text) else return .inr path

/-- Names separated by dots. -/
def typeName : Reader String := do
  let first ← name
  loop typeStep (← bound) first.text

/-- A colon and a type, or nothing. -/
def optionalType : Reader (Option String) := do
  if ← skipKind .colon then return some (← typeName) else return none

/-! ## Statements -/

/-- Whether the last word was a closing brace and others are to come. -/
def afterBrace : Reader Bool := fun p => ⟨some p.afterBrace, true, p⟩

/-- The semicolon that ends a statement, where it is needed. -/
def terminator : Reader Unit := do
  if ← skipKind .semicolon then return ()
  let afterBrace ← afterBrace
  let next ← peek
  if afterBrace || next.kind == .rightBrace || next.kind == .endOfFile then return ()
  let _ ← expectKind .semicolon

/-- An expression after a word of some kind, if there is such a word. -/
def optionalExpression (expression : Reader Tree) (kind : TokenKind) : Reader (Option Tree) := do
  if ← skipKind kind then some <$> expression else pure none

/-- A variable, after a look at its keyword. -/
def localVariable (expression : ExpressionReader) : Reader Tree := do
  let keyword ← advance
  let name ← name
  let type ← optionalType
  let initializer ← optionalExpression (expression .lowest) .assign
  return .localVariable name.text (keyword.kind == .wordVar) type initializer

/-- A return, after a look at its keyword. -/
def returnStatement (expression : ExpressionReader) : Reader Tree := do
  let _ ← advance
  if ← check (.anyOf [.semicolon, .rightBrace, .endOfFile]) then return .returnStatement none
  return .returnStatement (some (← expression .lowest))

/-- A statement without the semicolon that ends it. -/
def statementBody (expression : ExpressionReader) : Reader Tree := do
  match (← peek).kind with
  | .wordVal | .wordVar => localVariable expression
  | .wordReturn => returnStatement expression
  | _ => return .expressionStatement (← expression .lowest)

/-- A statement. -/
def statementRule (expression : ExpressionReader) : Reader Tree := do
  let tree ← statementBody expression
  terminator
  return tree

/-- One more statement of a block, or the end of the statements. -/
def blockStep (expression : ExpressionReader) (statements : List Tree) :
    Reader (List Tree ⊕ List Tree) := do
  if ← check (.anyOf [.rightBrace, .endOfFile]) then return .inr statements
  let statement ← synchronized (.either (.category [.statementStart]) (.kind .rightBrace))
    (statementRule expression)
  return .inl (statements ++ statement.toList)

/-- Finds an error unless a tree is tidy at its root. -/
def tidied (tree : Tree) : Reader Tree := do
  require tree.isTidy
  return tree

/-- The statements of a block. -/
def blockStatements (expression : ExpressionReader) : Reader (List Tree) := do
  loop (blockStep expression) (← bound) []

/-- A block after its opening brace. -/
def block (expression : ExpressionReader) : Reader Tree := do
  let statements ← blockStatements expression
  let _ ← expectKind .rightBrace
  tidied (.block statements)

/-! ## Starts of expressions -/

/-- A literal. -/
def literal (kind : TokenKind) (text : String) : Reader Tree :=
  match Literal.ofToken kind text with
  | .ok (.ok value) => return .literal value
  | _ => fail

/-- An expression in parentheses. -/
def group (expression : ExpressionReader) : Reader Tree := do
  let inside ← expression .lowest
  let _ ← expectKind .rightParen
  return inside

/-- Whether a number follows that a minus sign belongs to. -/
def negativeNumberFollows : Reader Bool := do
  let number ← check (.anyOf [.intLiteral, .longLiteral, .floatLiteral, .doubleLiteral])
  let next := (← lookAhead 1).kind
  return number && !(next == .dot || next == .leftParen)

/-- A unary operation after its operator. -/
def unary (expression : ExpressionReader) (kind : TokenKind) : Reader Tree := do
  match UnaryOperator.ofKind? kind with
  | none => fail
  | some operator =>
    if operator == .negate && (← negativeNumberFollows) then
      let number ← advance
      literal number.kind ("-" ++ number.text)
    else return .unary operator (← expression .unary)

/-- A conditional after its keyword. -/
def conditional (expression : ExpressionReader) : Reader Tree := do
  let _ ← expectKind .leftParen
  let condition ← expression .lowest
  let _ ← expectKind .rightParen
  let thenBranch ← expression .lowest
  let elseBranch ← optionalExpression (expression .lowest) .wordElse
  return .conditional condition thenBranch elseBranch

/-- What a word begins. -/
def start (expression : ExpressionReader) (word : Word) : StartRule → Reader Tree
  | .literal => literal word.kind word.text
  | .reference => return .reference word.text
  | .string => string expression
  | .group => group expression
  | .unary => unary expression word.kind
  | .conditional => conditional expression
  | .block => block expression

/-! ## Continuations of expressions -/

/-- One more argument of a call, or the end of the arguments. -/
def argumentStep (item : Reader Tree) (arguments : List Tree) :
    Reader (List Tree ⊕ List Tree) := do
  if ← checkKind .rightParen then return .inr arguments
  let arguments := arguments ++ [← item]
  if ← skipKind .comma then return .inl arguments else return .inr arguments

/-- Items separated by commas, up to a closing parenthesis. -/
def argumentList (item : Reader Tree) : Reader (List Tree) := do
  let arguments ← loop (argumentStep item) (← bound) []
  let _ ← expectKind .rightParen
  return arguments

/-- A call. -/
def invocation (expression : ExpressionReader) (target : Tree) : Reader Tree := do
  let arguments ← argumentList (expression .lowest)
  return target.call arguments

/-- A binary operation after its operator. -/
def binary (expression : ExpressionReader) (left : Tree) (kind : TokenKind) : Reader Tree :=
  match BinaryOperator.ofKind? kind, ContinueRule.ofKind? kind with
  | some operator, some (_, precedence) => do return .binary left operator (← expression precedence)
  | _, _ => fail

/-- An assignment after its operator. -/
def assignment (expression : ExpressionReader) (target : Tree) (kind : TokenKind) :
    Reader Tree :=
  match AssignmentOperator.ofKind? kind with
  | none => fail
  | some operator => do return .assignment target operator (← expression .lowest)

/-- A call that is written between its arguments, after its name. -/
def infixCall (expression : ExpressionReader) (left : Tree) (name : String) : Reader Tree := do
  return .infixInvocation left name (← expression .infixCall)

/-- The access to a member after the dot. -/
def member (receiver : Tree) : Reader Tree := do
  return .memberAccess receiver (← name).text

/-- What a word makes of the expression before it. -/
def extend (expression : ExpressionReader) (left : Tree) (word : Word) :
    ContinueRule → Reader Tree
  | .binary => binary expression left word.kind
  | .assignment => assignment expression left word.kind
  | .infixCall => infixCall expression left word.text
  | .member => member left
  | .invocation => invocation expression left

/-! ## Expressions -/

/-- One more continuation of an expression, or its end. -/
def expressionStep (expression : ExpressionReader) (min : Precedence) (left : Tree) :
    Reader (Tree ⊕ Tree) := do
  match Parser.continuation? min (← peek).kind with
  | none => return .inr left
  | some rule =>
    let word ← advance
    return .inl (← extend expression left word rule)

/-- An expression of everything that binds more strongly than `min`, given the reader for
smaller expressions. -/
def expressionRule (expression : ExpressionReader) (min : Precedence) : Reader Tree := do
  match StartRule.ofKind? (← peek).kind with
  | none => fail
  | some rule =>
    let word ← advance
    let left ← start expression word rule
    loop (expressionStep expression min) (← bound) left

/-- An expression in which expressions nest no deeper than a bound. -/
def expressionWithin : Nat → ExpressionReader
  | 0 => fun _ => fail
  | n + 1 => expressionRule (expressionWithin n)

/-- An expression of everything that binds more strongly than `min`. -/
def expression (min : Precedence) : Reader Tree := do
  expressionWithin (← bound) min

/-- A statement. -/
def statement : Reader Tree := do
  statementRule (expressionWithin (← bound))

/-! ## Imports -/

/-- The other name that an imported name is given, if any. -/
def optionalRename : Reader (Option String) := do
  if ← skipKind .wordAs then return some (← name).text else return none

/-- An imported name. -/
def importEntry : Reader Tree := do
  let imported ← name
  let rename ← optionalRename
  return .importEntry imported.text rename

/-- One more imported name, or the end of the names. -/
def importStep (entries : List Tree) : Reader (List Tree ⊕ List Tree) := do
  if ← checkKind .rightBrace then return .inr entries
  let entries := entries ++ [← importEntry]
  if ← skipKind .comma then return .inl entries else return .inr entries

/-- The imported names in braces, if there are braces. -/
def importEntries : Reader (List Tree) := do
  match ← accept? (.kind .leftBrace) with
  | none => return []
  | some _ =>
    let entries ← loop importStep (← bound) []
    let _ ← expectKind .rightBrace
    return entries

/-- The path of an import. -/
def importPath (expression : ExpressionReader) : Reader String := do
  let _ ← expectKind .stringStart
  match ← string expression with
  | .literal (.string path) => return path
  | _ => fail

/-- An import. -/
def importRule (expression : ExpressionReader) : Reader Tree := do
  let _ ← expectKind .wordImport
  let path ← importPath expression
  let entries ← importEntries
  let _ ← skipKind .semicolon
  return .importPath path entries

/-! ## Functions -/

/-- Whether a name follows that is an argument of its own. -/
def namedArgumentFollows : Reader Bool := do
  let isName ← check (.category [.name])
  let next := (← lookAhead 1).kind
  return isName && (Expectation.anyOf [.colon, .assign, .comma, .rightParen]).accepts next

/-- A name with an optional type and default. -/
def namedArgument (expression : ExpressionReader) : Reader Tree := do
  let name ← name
  let type ← optionalType
  match ← optionalExpression (expression .assignment) .assign with
  | some default => return .defaultArgument name.text type default
  | none => return .basicArgument name.text type

/-- An argument of a function. -/
def argument (expression : ExpressionReader) : Reader Tree := do
  if ← namedArgumentFollows then namedArgument expression
  else return .patternArgument (← expression .lowest)

/-- The body of a function: a block, or an expression after an equals sign. -/
def functionBody (expression : ExpressionReader) : Reader Tree := do
  match (← peek).kind with
  | .leftBrace =>
    let _ ← advance
    block expression
  | .assign =>
    let _ ← advance
    let body ← expression .lowest
    terminator
    return body
  | _ => fail

/-- The arguments, the type of the result, and the body of a function. -/
def functionRest (expression : ExpressionReader) :
    Reader (List Tree × Option String × Tree) := do
  let _ ← expectKind .leftParen
  let arguments ← argumentList (argument expression)
  let returnType ← optionalType
  let body ← functionBody expression
  return (arguments, returnType, body)

/-- What is left of a function after the word that makes it one for use between arguments. -/
def functionFrom (expression : ExpressionReader) (isInfix : Bool) : Reader Tree := do
  let _ ← expectKind .wordFun
  let name ← name
  let (arguments, returnType, body) ← functionRest expression
  tidied (.function name.text isInfix arguments returnType body)

/-- A function. -/
def function (expression : ExpressionReader) : Reader Tree := do
  let isInfix ← skipKind .wordInfix
  functionFrom expression isInfix

/-! ## Units -/

/-- An import or a function. -/
def topLevel (expression : ExpressionReader) : Reader Tree := do
  match (← peek).kind with
  | .wordImport => importRule expression
  | .wordFun | .wordInfix => function expression
  | _ => fail

end Reader

/-- What a unit holds, in two lists. -/
structure TreeItems where
  imports : List Tree
  declarations : List Tree

/-- Adds an item to the list it belongs to. -/
def TreeItems.push (items : TreeItems) : Tree → TreeItems
  | .importPath path entries =>
    { items with imports := items.imports ++ [.importPath path entries] }
  | tree => { items with declarations := items.declarations ++ [tree] }

namespace Reader

/-- One more item of a unit, or its end. -/
def unitStep (items : TreeItems) : Reader (TreeItems ⊕ TreeItems) := do
  if ← checkKind .endOfFile then return .inr items
  let item ← synchronized (.category [.declarationStart]) do
    topLevel (expressionWithin (← bound))
  return .inl (item.elim items items.push)

/-- The items of a unit. -/
def unitItems : Reader TreeItems := do
  loop unitStep (← bound) ⟨[], []⟩

/-- A whole unit. -/
def compilationUnit : Reader Tree := do
  let items ← unitItems
  tidied (.compilationUnit items.imports items.declarations)

end Reader

end ExprLang
