import ExprLang.Tree.Arena

/-!
# Source text of trees

A tree is written as source text that reads back as an equivalent tree.  Binary
operations are parenthesized throughout; other children are parenthesized where
they would take in what follows them.

Main definitions:

- Definition {lit}`Form.source`: the text of a node, given that of its children.
- Definition {lit}`Arena.render`: the text of a tree.
-/

namespace ExprLang

namespace Form

/-- Whether a form, followed by more text of its parent, needs parentheses: a conditional
would take in what follows, and a minus sign would apply to it. -/
def isLoose : Form → Bool
  | conditional .. => true
  | literal value => value.isNegative
  | _ => false

/-- Whether a form is a number. -/
def isNumber (form : Form) : Bool :=
  form.literal?.elim false Literal.isNumber

/-- The text of a string literal that is part of a template, if the form is one. -/
def stringText? : Form → Option String
  | literal (.string text) => some text
  | _ => none

/-- Whether a form is a block. -/
def isBlock : Form → Bool
  | block .. => true
  | _ => false

end Form

/-! ## Pieces -/

/-- A colon and a type, if there is one. -/
def typeSuffix (type : Option String) : String :=
  type.elim "" fun t => s!": {t}"

/-- Texts in braces, or an empty pair of braces. -/
def braced (texts : List String) : String :=
  if texts.isEmpty then "\x7b \x7d"
  else "\x7b " ++ String.intercalate " " texts ++ " \x7d"

/-- Texts in parentheses, separated by commas. -/
def parenthesized (texts : List String) : String :=
  "(" ++ String.intercalate ", " texts ++ ")"

/-- The text of a node.  The form of a child is looked up by `form?` and its text is given by
`text`. -/
def Form.source (form? : NodeId → Option Form) (text : NodeId → String) : Form → String
  | .compilationUnit imports declarations _ =>
    String.intercalate "\n" ((imports ++ declarations).map text)
  | .importPath path entries =>
    let start := s!"import \"{Text.escapeString path}\""
    if entries.isEmpty then start ++ ";"
    else start ++ " \x7b " ++ String.intercalate ", " (entries.map text) ++ " \x7d;"
  | .importEntry name none => name
  | .importEntry name (some rename) => s!"{name} as {rename}"
  | .block statements _ => braced (statements.map text)
  | .literal value => toString value
  | .stringTemplate parts => "\"" ++ String.join (parts.map part) ++ "\""
  | .reference name => name
  | .unary operator operand =>
    if isNumberAt operand then s!"({operator.symbol}({slot operand}))"
    else s!"({operator.symbol}{slot operand})"
  | .binary left operator right => s!"({operand left} {operator.symbol} {slot right})"
  | .assignment target operator value =>
    s!"({operand target} {operator.symbol} {slot value})"
  | .memberAccess receiver member => s!"{operand receiver}.{member}"
  | .function name isInfix arguments returnType body _ =>
    let start := (if isInfix then "infix fun " else "fun ") ++ name
      ++ parenthesized (arguments.map text) ++ typeSuffix returnType
    if (body.bind form?).elim true Form.isBlock then s!"{start} {slot body}"
    else s!"{start} = {slot body};"
  | .namedInvocation name arguments => name ++ parenthesized (arguments.map text)
  | .anonymousInvocation target arguments =>
    operand target ++ parenthesized (arguments.map text)
  | .infixInvocation left name right => s!"({operand left} {name} {slot right})"
  | .basicArgument name type => name ++ typeSuffix type
  | .defaultArgument name type default => s!"{name}{typeSuffix type} = {slot default}"
  | .patternArgument pattern => slot pattern
  | .conditional condition thenBranch none => s!"if ({slot condition}) {slot thenBranch}"
  | .conditional condition thenBranch (some elseBranch) =>
    s!"if ({slot condition}) {operand thenBranch} else {text elseBranch}"
  | .localVariable name isMutable type initializer =>
    let start := (if isMutable then "var " else "val ") ++ name ++ typeSuffix type
    match initializer with
    | some value => s!"{start} = {text value};"
    | none => start ++ ";"
  | .returnStatement none => "return;"
  | .returnStatement (some value) => s!"return {text value};"
  | .expressionStatement expression => s!"{slot expression};"
where
  /-- The text of a child, or nothing. -/
  slot (child : Option NodeId) : String :=
    child.elim "" text
  /-- The text of a child that is followed by more of its parent. -/
  operand (child : Option NodeId) : String :=
    if (child.bind form?).elim false Form.isLoose then s!"({slot child})" else slot child
  /-- Whether a child is a number. -/
  isNumberAt (child : Option NodeId) : Bool :=
    (child.bind form?).elim false Form.isNumber
  /-- The text of a part of a template: string text as it is, or a placeholder. -/
  part (child : NodeId) : String :=
    match (form? child).bind Form.stringText? with
    | some content => Text.escapeString content
    | none => "\\\x7b" ++ text child ++ "\x7d"

namespace Arena

/-- The source text of a tree down to a given depth. -/
def renderWithin (a : Arena) : Nat → NodeId → String
  | 0, _ => ""
  | n + 1, id => (a.form? id).elim "" (Form.source a.form? (a.renderWithin n))

/-- The source text of the tree at a node.  A tree is no deeper than the number of nodes. -/
def render (a : Arena) (id : NodeId) : String :=
  a.renderWithin (a.size + 1) id

end Arena

end ExprLang
