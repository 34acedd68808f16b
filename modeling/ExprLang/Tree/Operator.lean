import ExprLang.Token.Kind

/-!
# Operators

The operators of expressions with their names, their symbols and the tokens they
are written with.
-/

namespace ExprLang

/-! ## Operators between two expressions -/

/-- An operator that computes a value from two. -/
inductive BinaryOperator where
  | plus | minus | times | divide | remainder
  | equal | notEqual | less | lessEqual | greater | greaterEqual
  | and | or
deriving DecidableEq, Repr, Inhabited

namespace BinaryOperator

/-- Every binary operator. -/
def all : List BinaryOperator :=
  [plus, minus, times, divide, remainder, equal, notEqual, less, lessEqual, greater,
    greaterEqual, and, or]

/-- The kind of token that writes an operator. -/
def kind : BinaryOperator → TokenKind
  | plus => .plus
  | minus => .minus
  | times => .times
  | divide => .divide
  | remainder => .remainder
  | equal => .equal
  | notEqual => .notEqual
  | less => .less
  | lessEqual => .lessEqual
  | greater => .greater
  | greaterEqual => .greaterEqual
  | and => .and
  | or => .or

/-- The operator that a kind of token writes. -/
def ofKind? (kind : TokenKind) : Option BinaryOperator :=
  all.find? (·.kind == kind)

@[simp] theorem ofKind?_kind (operator : BinaryOperator) :
    ofKind? operator.kind = some operator := by
  cases operator <;> rfl

/-- The name of an operator in listings. -/
def name (operator : BinaryOperator) : String :=
  operator.kind.name

/-- The operator with a given name. -/
def ofName? (text : String) : Option BinaryOperator :=
  all.find? (·.name == text)

/-- How an operator is written. -/
def symbol : BinaryOperator → String
  | plus => "+"
  | minus => "-"
  | times => "*"
  | divide => "/"
  | remainder => "%"
  | equal => "=="
  | notEqual => "!="
  | less => "<"
  | lessEqual => "<="
  | greater => ">"
  | greaterEqual => ">="
  | and => "&&"
  | or => "||"

end BinaryOperator

/-! ## Operators before an expression -/

/-- An operator that computes a value from one. -/
inductive UnaryOperator where
  | negate | not
deriving DecidableEq, Repr, Inhabited

namespace UnaryOperator

/-- Every unary operator. -/
def all : List UnaryOperator := [negate, not]

/-- The kind of token that writes an operator. -/
def kind : UnaryOperator → TokenKind
  | negate => .minus
  | not => .not

/-- The operator that a kind of token writes before an expression. -/
def ofKind? (kind : TokenKind) : Option UnaryOperator :=
  all.find? (·.kind == kind)

@[simp] theorem ofKind?_kind (operator : UnaryOperator) :
    ofKind? operator.kind = some operator := by
  cases operator <;> rfl

/-- The name of an operator in listings. -/
def name : UnaryOperator → String
  | negate => "Negate"
  | not => "Not"

/-- The operator with a given name. -/
def ofName? (text : String) : Option UnaryOperator :=
  all.find? (·.name == text)

/-- How an operator is written. -/
def symbol : UnaryOperator → String
  | negate => "-"
  | not => "!"

end UnaryOperator

/-! ## Assignments -/

/-- An operator that changes its left side. -/
inductive AssignmentOperator where
  | assign | plusAssign | minusAssign | timesAssign | divideAssign | remainderAssign
deriving DecidableEq, Repr, Inhabited

namespace AssignmentOperator

/-- Every assignment operator. -/
def all : List AssignmentOperator :=
  [assign, plusAssign, minusAssign, timesAssign, divideAssign, remainderAssign]

/-- The kind of token that writes an operator. -/
def kind : AssignmentOperator → TokenKind
  | assign => .assign
  | plusAssign => .plusAssign
  | minusAssign => .minusAssign
  | timesAssign => .timesAssign
  | divideAssign => .divideAssign
  | remainderAssign => .remainderAssign

/-- The operator that a kind of token writes. -/
def ofKind? (kind : TokenKind) : Option AssignmentOperator :=
  all.find? (·.kind == kind)

@[simp] theorem ofKind?_kind (operator : AssignmentOperator) :
    ofKind? operator.kind = some operator := by
  cases operator <;> rfl

/-- The name of an operator in listings. -/
def name (operator : AssignmentOperator) : String :=
  operator.kind.name

/-- The operator with a given name. -/
def ofName? (text : String) : Option AssignmentOperator :=
  all.find? (·.name == text)

/-- How an operator is written. -/
def symbol : AssignmentOperator → String
  | assign => "="
  | plusAssign => "+="
  | minusAssign => "-="
  | timesAssign => "*="
  | divideAssign => "/="
  | remainderAssign => "%="

end AssignmentOperator

end ExprLang
