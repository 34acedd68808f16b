import ExprLang.Lexer.Fragment
import ExprLang.Token.Basic

/-!
# Lexical grammars

A lexical grammar has states, each with rules that are tried in order and with
further states whose rules are tried after its own.  A rule says what becomes of
a match: a token, nothing, or a token and a change of state.  States are entered
and left on a stack whose root stays.

Main definitions:

- Definition {lit}`Grammar.rules`: all rules that apply in a state, in order.
- Definition {lit}`Grammar.firstMatch?`: the rule that applies at a cursor.
-/

namespace ExprLang

/-- The number of a state in its grammar. -/
structure StateId where
  index : Nat
deriving DecidableEq, Repr, Inhabited

/-! ## The stack of states -/

/-- The active states: the root, which is never left, and those entered since, the
innermost first. -/
structure StateStack where
  root : StateId
  entered : List StateId
deriving DecidableEq, Repr, Inhabited

namespace StateStack

/-- The stack of the root alone. -/
def ofRoot (root : StateId) : StateStack := ⟨root, []⟩

/-- The innermost state. -/
def current (s : StateStack) : StateId := s.entered.headD s.root

/-- The number of active states. -/
def depth (s : StateStack) : Nat := s.entered.length + 1

/-- Enters a state. -/
def push (s : StateStack) (state : StateId) : StateStack :=
  { s with entered := state :: s.entered }

/-- Leaves the innermost state, unless it is the root. -/
def pop (s : StateStack) : StateStack :=
  { s with entered := s.entered.tail }

@[simp] theorem current_push (s : StateStack) (state : StateId) :
    (s.push state).current = state := rfl

@[simp] theorem depth_push (s : StateStack) (state : StateId) :
    (s.push state).depth = s.depth + 1 := rfl

@[simp] theorem pop_push (s : StateStack) (state : StateId) : (s.push state).pop = s := rfl

/-- The root is never left. -/
@[simp] theorem pop_ofRoot (root : StateId) : (ofRoot root).pop = ofRoot root := rfl

end StateStack

/-! ## Rules -/

/-- What becomes of a match. -/
inductive Action where
  /-- It is dropped. -/
  | skip
  /-- It becomes a token. -/
  | emit (kind : TokenKind)
  /-- It becomes a keyword or an identifier. -/
  | emitWord
  /-- It becomes a token, and a state is entered. -/
  | push (kind : TokenKind) (state : StateId)
  /-- It becomes a token, and the innermost state is left. -/
  | pop (kind : TokenKind)
deriving DecidableEq, Repr, Inhabited

/-- The kind of token that a match becomes, if any, and the states after it. -/
def Action.run (text : List Char) (stack : StateStack) : Action → Option TokenKind × StateStack
  | .skip => (none, stack)
  | .emit kind => (some kind, stack)
  | .emitWord => (some (.ofWord (String.ofList text)), stack)
  | .push kind state => (some kind, stack.push state)
  | .pop kind => (some kind, stack.pop)

/-- A fragment and what becomes of its matches. -/
structure Rule where
  fragment : Fragment
  action : Action
deriving Inhabited

/-! ## Grammars -/

/-- A state of a grammar: its rules, and the states to fall back on. -/
structure LexerState where
  name : String
  rules : List Rule
  fallbacks : List StateId
deriving Inhabited

/-- A lexical grammar. -/
structure Grammar where
  states : List LexerState
  initial : StateId
deriving Inhabited

namespace Grammar

/-- The state with a given number. -/
def state? (g : Grammar) (id : StateId) : Option LexerState :=
  g.states[id.index]?

/-- The name of a state. -/
def stateName (g : Grammar) (id : StateId) : String :=
  (g.state? id).elim "" (·.name)

/-- The rules of a state and then those of its fallbacks, to a given depth. -/
def rulesWithin (g : Grammar) : Nat → StateId → List Rule
  | 0, _ => []
  | n + 1, id =>
    match g.state? id with
    | none => []
    | some s => s.rules ++ s.fallbacks.flatMap (g.rulesWithin n)

/-- Every rule that applies in a state, in order.  Where fallbacks run in no circle no
chain of them is longer than the number of states. -/
def rules (g : Grammar) (id : StateId) : List Rule :=
  g.rulesWithin g.states.length id

end Grammar

/-- The first rule with a match that is not empty. -/
def firstMatch? : List Rule → Cursor → Option (Action × Lexeme × Cursor)
  | [], _ => none
  | rule :: rules, c =>
    match rule.fragment.match? c with
    | none => firstMatch? rules c
    | some (lexeme, after) =>
      if lexeme.span.isEmpty then firstMatch? rules c else some (rule.action, lexeme, after)

/-- A rule applies only where its match is not empty. -/
theorem isEmpty_eq_false_of_firstMatch? {rules : List Rule} {c after : Cursor}
    {action : Action} {lexeme : Lexeme}
    (h : firstMatch? rules c = some (action, lexeme, after)) :
    lexeme.span.isEmpty = false := by
  induction rules with
  | nil => simp [firstMatch?] at h
  | cons rule rules ih =>
    simp only [firstMatch?] at h
    split at h
    · exact ih h
    · split at h
      · exact ih h
      · simp_all

/-- The rule of a state that applies at a cursor. -/
def Grammar.firstMatch? (g : Grammar) (id : StateId) (c : Cursor) :
    Option (Action × Lexeme × Cursor) :=
  ExprLang.firstMatch? (g.rules id) c

end ExprLang
