import ExprLang.Parser.Statements

/-!
# Parsing expressions

An expression is what its first token begins, continued by every rule that binds
more strongly than what surrounds it.  The rules are given the rule for smaller
expressions; {lit}`Parser.expressionWithin` ties the knot within a bound on how
deep expressions nest.

Main definitions:

- Definition {lit}`Parser.expression`: an expression.
- Definition {lit}`Parser.statement`: a statement.
-/

namespace ExprLang.Parser

/-! ## Starts of expressions -/

/-- A literal. -/
def literalRule (kind : TokenKind) (text : String) (span : Span) : Parser NodeId := do
  match ← lift (Literal.ofToken kind text) with
  | .ok value => make (.literal value) span
  | .error error => failAt span (.badLiteral error)

/-- An expression in parentheses, which leave no node behind. -/
def groupRule (expression : ExpressionRule) : Parser NodeId := do
  let inside ← expression .lowest
  let _ ← expectKind .rightParen
  return inside

/-- Whether a number follows that a minus sign belongs to: a call or a member binds a number
first. -/
def negativeNumberFollows : Parser Bool := do
  let number ← check (.anyOf [.intLiteral, .longLiteral, .floatLiteral, .doubleLiteral])
  let next := (← lookAhead 1).kind
  return number && !(next == .dot || next == .leftParen)

/-- A unary operation after its operator. -/
def unaryRule (expression : ExpressionRule) (start : Token) : Parser NodeId := do
  match UnaryOperator.ofKind? start.kind with
  | none => fault (.notInRule start.kind "a unary operator")
  | some operator =>
    if operator == .negate && (← negativeNumberFollows) then
      let number ← advance
      literalRule number.kind ("-" ++ number.text) (start.span.through number.span)
    else
      let operand ← expression .unary
      make (.unary operator (some operand)) (start.span.through (← spanOf operand))

/-- A conditional after its keyword. -/
def conditionalRule (expression : ExpressionRule) (start : Token) : Parser NodeId := do
  let _ ← expectKind .leftParen
  let condition ← expression .lowest
  let _ ← expectKind .rightParen
  let thenBranch ← expression .lowest
  let elseBranch ← optionalExpression (expression .lowest) .wordElse
  make (.conditional (some condition) (some thenBranch) elseBranch) (← spanFrom start.span)

/-- What a token begins. -/
def startRule (expression : ExpressionRule) (token : Token) : StartRule → Parser NodeId
  | .literal => literalRule token.kind token.text token.span
  | .reference => make (.reference token.text) token.span
  | .string => stringRule expression token
  | .group => groupRule expression
  | .unary => unaryRule expression token
  | .conditional => conditionalRule expression token
  | .block => blockRule expression token

/-! ## Continuations of expressions -/

/-- One more argument of a call, or the end of the arguments. -/
def argumentStep (item : Parser NodeId) (arguments : List NodeId) :
    Parser (List NodeId ⊕ List NodeId) := do
  if ← checkKind .rightParen then return .inr arguments
  let arguments := arguments ++ [← item]
  if ← skipKind .comma then return .inl arguments else return .inr arguments

/-- Items separated by commas, up to a closing parenthesis; a comma may end them. -/
def argumentList (item : Parser NodeId) : Parser (List NodeId) := do
  let arguments ← loop (argumentStep item) (← bound) []
  let _ ← expectKind .rightParen
  return arguments

/-- A call.  A name that is called is not a child of the call. -/
def invocationRule (expression : ExpressionRule) (target : NodeId) : Parser NodeId := do
  let arguments ← argumentList (expression .lowest)
  let span ← spanFrom (← spanOf target)
  match ← formOf target with
  | .reference name => make (.namedInvocation name arguments) span
  | _ => make (.anonymousInvocation (some target) arguments) span

/-- The stretch from one node to another. -/
def spanAcross (first last : NodeId) : Parser Span := do
  return (← spanOf first).through (← spanOf last)

/-- A binary operation after its operator, which leaves operators of its own strength to what
follows it. -/
def binaryRule (expression : ExpressionRule) (left : NodeId) (token : Token) : Parser NodeId := do
  match BinaryOperator.ofKind? token.kind, ContinueRule.ofKind? token.kind with
  | some operator, some (_, precedence) =>
    let right ← expression precedence
    make (.binary (some left) operator (some right)) (← spanAcross left right)
  | _, _ => fault (.notInRule token.kind "a binary operator")

/-- An assignment after its operator; it takes in all that follows. -/
def assignmentRule (expression : ExpressionRule) (target : NodeId) (token : Token) :
    Parser NodeId := do
  match AssignmentOperator.ofKind? token.kind with
  | none => fault (.notInRule token.kind "an assignment")
  | some operator =>
    let value ← expression .lowest
    make (.assignment (some target) operator (some value)) (← spanAcross target value)

/-- A call that is written between its arguments, after its name. -/
def infixCallRule (expression : ExpressionRule) (left : NodeId) (token : Token) :
    Parser NodeId := do
  let right ← expression .infixCall
  make (.infixInvocation (some left) token.text (some right)) (← spanAcross left right)

/-- The access to a member after the dot. -/
def memberRule (receiver : NodeId) : Parser NodeId := do
  let member ← name
  make (.memberAccess (some receiver) member.text) ((← spanOf receiver).through member.span)

/-- What a token makes of the expression before it. -/
def continueRule (expression : ExpressionRule) (left : NodeId) (token : Token) :
    ContinueRule → Parser NodeId
  | .binary => binaryRule expression left token
  | .assignment => assignmentRule expression left token
  | .infixCall => infixCallRule expression left token
  | .member => memberRule left
  | .invocation => invocationRule expression left

/-! ## Expressions -/

/-- The rule by which an expression goes on with a token, if it binds more strongly than
`min`. -/
def continuation? (min : Precedence) (kind : TokenKind) : Option ContinueRule :=
  ((ContinueRule.ofKind? kind).filter fun (_, precedence) => min.rank < precedence.rank).map (·.1)

/-- One more continuation of an expression, or its end. -/
def expressionStep (expression : ExpressionRule) (min : Precedence) (left : NodeId) :
    Parser (NodeId ⊕ NodeId) := do
  match continuation? min (← peek).kind with
  | none => return .inr left
  | some rule =>
    let token ← advance
    return .inl (← continueRule expression left token rule)

/-- An expression of everything that binds more strongly than `min`, given the rule for smaller
expressions.  Nothing is consumed if the next token begins no expression. -/
def expressionRule (expression : ExpressionRule) (min : Precedence) : Parser NodeId := do
  let token ← advance
  match StartRule.ofKind? token.kind with
  | none =>
    giveBack
    fail (← unexpected "expression")
  | some rule =>
    let left ← startRule expression token rule
    loop (expressionStep expression min) (← bound) left

/-- An expression in which expressions nest no deeper than a bound. -/
def expressionWithin : Nat → ExpressionRule
  | 0 => fun _ => fault .boundExceeded
  | n + 1 => expressionRule (expressionWithin n)

/-- An expression of everything that binds more strongly than `min`.  A token is used up between
an expression and one inside it. -/
def expression (min : Precedence) : Parser NodeId := do
  expressionWithin (← bound) min

/-- A statement. -/
def statement : Parser NodeId := do
  statementRule (expressionWithin (← bound))

end ExprLang.Parser
