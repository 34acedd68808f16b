import ExprLang.Diagnostic.Basic
import ExprLang.Lexer.Reference
import ExprLang.Parser.Complaint
import ExprLang.Parser.Expectation
import ExprLang.Token.Tape
import ExprLang.Tree.Arena

/-!
# Parsers

A parser works on a tape of tokens, builds nodes in an arena, and collects
diagnostics.  It ends with a value, or it stops: either with a diagnostic, which
a synchronization point may take up, or with a fault, which nothing takes up.
What was built and recorded before a stop stays.

Main definitions:

- Definition {lit}`Parser`: what rules are made of.
- Definitions {lit}`Parser.check`, {lit}`Parser.accept?` and {lit}`Parser.expect`:
  asking for the next token.
- Definition {lit}`Parser.record`: reporting an error.
- Definition {lit}`Parser.make`: building a node.
- Definition {lit}`Parser.loop`: repetition within a bound.
-/

namespace ExprLang

/-! ## State -/

/-- What a parse may do. -/
structure ParseOptions where
  /-- Go on after errors of grammar. -/
  recover : Bool := true
  /-- Give up once this many errors are recorded. -/
  maxErrors : Option Nat := none
deriving DecidableEq, Repr, Inhabited

/-- A parse under way. -/
structure ParserState where
  tape : Tape
  arena : Arena
  report : Report
  /-- The open scopes, the innermost first. -/
  scopes : List ScopeId
  options : ParseOptions
deriving Inhabited

/-- The start of a parse. -/
def ParserState.ofText (text description : String) (options : ParseOptions) : ParserState where
  tape := .ofTokens (tokenize text)
  arena := .empty
  report := .empty description
  scopes := []
  options := options

/-- Why a parser stops. -/
inductive Stop where
  | failed (d : Diagnostic)
  | fault (f : Fault)
deriving DecidableEq, Repr

/-- A computation on a parse under way that ends with a value or stops. -/
abbrev Parser (α : Type) := EStateM Stop ParserState α

namespace Parser

/-! ## Stopping -/

/-- Stops with a diagnostic. -/
def fail (d : Diagnostic) : Parser α := throw (.failed d)

/-- Stops with a fault. -/
def fault (f : Fault) : Parser α := throw (.fault f)

/-- Answers what a computation answers, or stops with its fault. -/
def lift (result : Except Fault α) : Parser α :=
  match result with
  | .ok a => pure a
  | .error f => fault f

/-- Runs a parser and hands out a diagnostic with which it stops. -/
def attempt (p : Parser α) : Parser (Except Diagnostic α) := fun s =>
  match p s with
  | .ok a s => .ok (.ok a) s
  | .error (.failed d) s => .ok (.error d) s
  | .error (.fault f) s => .error (.fault f) s

@[simp] theorem attempt_pure (a : α) (s : ParserState) :
    attempt (pure a) s = .ok (.ok a) s := rfl

@[simp] theorem attempt_fail (d : Diagnostic) (s : ParserState) :
    attempt (fail d : Parser α) s = .ok (.error d) s := rfl

@[simp] theorem attempt_fault (f : Fault) (s : ParserState) :
    attempt (fault f : Parser α) s = .error (.fault f) s := rfl

/-- A value is handed out exactly if the parser ends with it. -/
theorem attempt_eq_ok_ok {p : Parser α} {s t : ParserState} {a : α} :
    attempt p s = .ok (.ok a) t ↔ p s = .ok a t := by
  unfold attempt
  split <;> simp_all

/-- A diagnostic is handed out exactly if the parser stops with it. -/
theorem attempt_eq_ok_error {p : Parser α} {s t : ParserState} {d : Diagnostic} :
    attempt p s = .ok (.error d) t ↔ p s = .error (.failed d) t := by
  unfold attempt
  split <;> simp_all

/-- A fault is not handed out: it stops the attempt exactly if it stops the parser. -/
theorem attempt_eq_error_fault {p : Parser α} {s t : ParserState} {f : Fault} :
    attempt p s = .error (.fault f) t ↔ p s = .error (.fault f) t := by
  unfold attempt
  split <;> simp_all

/-- Runs a parser to the end. -/
def run (p : Parser α) (s : ParserState) : Except Fault (Except Diagnostic α × ParserState) :=
  match p s with
  | .ok a s => .ok (.ok a, s)
  | .error (.failed d) s => .ok (.error d, s)
  | .error (.fault f) _ => .error f

/-- A run comes back with a value exactly if the parser ends with it. -/
theorem run_eq_ok_ok {p : Parser α} {s t : ParserState} {a : α} :
    p.run s = .ok (.ok a, t) ↔ p s = .ok a t := by
  unfold run
  split <;> simp_all

/-- A run comes back with a diagnostic exactly if the parser stops with it. -/
theorem run_eq_ok_error {p : Parser α} {s t : ParserState} {d : Diagnostic} :
    p.run s = .ok (.error d, t) ↔ p s = .error (.failed d) t := by
  unfold run
  split <;> simp_all

/-! ## Repetition -/

/-- Repeats `step` until it ends with a value, at most so many times. -/
def loop (step : α → Parser (α ⊕ β)) : Nat → α → Parser β
  | 0, _ => fault .boundExceeded
  | n + 1, a => do
    match ← step a with
    | .inl a => loop step n a
    | .inr b => pure b

/-- A bound for repetitions that use up a token each: the tokens still to come and one. -/
def bound : Parser Nat := do
  return (← get).tape.pending.length + 1

/-! ## Tokens -/

/-- The token `n` places ahead. -/
def lookAhead (n : Nat) : Parser Token := do
  return (← get).tape.lookAhead n

/-- The next token. -/
def peek : Parser Token := lookAhead 0

/-- Consumes the next token. -/
def advance : Parser Token :=
  modifyGet fun s => let (token, tape) := s.tape.advance; (token, { s with tape := tape })

/-- Gives the last consumed token back. -/
def giveBack : Parser Unit := do
  let tape ← lift (← get).tape.giveBack
  modify fun s => { s with tape := tape }

/-- The last consumed token. -/
def previous : Parser Token := do
  lift (← get).tape.previous

/-! ## Diagnostics -/

/-- An error about a stretch of the source. -/
def errorAt (topic : Topic) (span : Span) (complaint : Complaint) : Parser Diagnostic := do
  return ⟨(← get).report.source, .error, topic, span, complaint.message⟩

/-- Stops with an error of grammar. -/
def failAt (span : Span) (complaint : Complaint) : Parser α := do
  fail (← errorAt .grammar span complaint)

/-- Records a warning. -/
def warnAt (span : Span) (complaint : Complaint) : Parser Unit :=
  modify fun s =>
    { s with report :=
      s.report.record ⟨s.report.source, .warning, .grammar, span, complaint.message⟩ }

/-- Adds an error to a report, unless the last error says the same of the same span. -/
def recordIn (r : Report) (d : Diagnostic) : Report :=
  match r.errors.getLast? with
  | some last => if last.span = d.span ∧ last.message = d.message then r else r.record d
  | none => r.record d

/-- Records an error. -/
def record (d : Diagnostic) : Parser Unit :=
  modify fun s => { s with report := recordIn s.report d }

/-- Whether as many errors are recorded as the options allow. -/
def limitReached : Parser Bool := do
  let s ← get
  return s.options.maxErrors.elim false fun limit => decide (limit ≤ s.report.errorCount)

/-- The error that the next token is not what was expected. -/
def unexpected (expected : String) : Parser Diagnostic := do
  let token ← peek
  errorAt .grammar token.span (.unexpected expected token)

/-! ## Asking for tokens -/

/-- Whether the next token fits. -/
def check (e : Expectation) : Parser Bool := do
  return e.accepts (← peek).kind

/-- Whether the next token is of some kind. -/
def checkKind (kind : TokenKind) : Parser Bool := check (.kind kind)

/-- Consumes the next token if it fits. -/
def accept? (e : Expectation) : Parser (Option Token) := do
  if ← check e then return some (← advance) else return none

/-- Consumes the next token if it is of some kind, and says whether it was. -/
def skipKind (kind : TokenKind) : Parser Bool := do
  return (← accept? (.kind kind)).isSome

/-- Consumes the next token, which has to fit. -/
def expect (e : Expectation) : Parser Token := do
  if ← check e then advance else fail (← unexpected e.describe)

/-- Consumes the next token, which has to be of some kind. -/
def expectKind (kind : TokenKind) : Parser Token := expect (.kind kind)

/-- Consumes a name; keywords that are so in some places only are names too. -/
def name : Parser Token := expect (.category [.name])

/-- Fails unless all tokens are consumed. -/
def expectEnd : Parser Unit := do
  let _ ← expectKind .endOfFile

/-! ## Nodes -/

/-- Builds a node at a stretch of the source. -/
def make (form : Form) (span : Span) : Parser NodeId := do
  let (id, arena) ← lift ((← get).arena.alloc form)
  let arena ← lift (arena.setPosition id span)
  modify fun s => { s with arena := arena }
  return id

/-- The form of a node. -/
def formOf (id : NodeId) : Parser Form := do
  lift ((← get).arena.form id)

/-- Where a node came from. -/
def spanOf (id : NodeId) : Parser Span := do
  return (← lift ((← get).arena.position id)).getD Span.zero

/-- From the start of a span to the end of the last consumed token. -/
def spanFrom (start : Span) : Parser Span := do
  return start.through (← previous).span

/-! ## Scopes -/

/-- Opens a scope inside the innermost open one. -/
def openScope : Parser ScopeId :=
  modifyGet fun s =>
    let (id, arena) := s.arena.newScope s.scopes.head?
    (id, { s with arena := arena, scopes := id :: s.scopes })

/-- Closes the innermost open scope. -/
def closeScope : Parser Unit :=
  modify fun s => { s with scopes := s.scopes.tail }

/-- Runs a parser inside a new scope, which is closed however the parser ends. -/
def inScope (body : Parser α) : Parser (ScopeId × α) := do
  let scope ← openScope
  let result ← attempt body
  closeScope
  match result with
  | .ok a => return (scope, a)
  | .error d => fail d

/-- Records an error for every redefinition that the arena has found. -/
def reportRedefinitions : Parser Unit := do
  let found ← modifyGet fun s =>
    let (found, arena) := s.arena.takeRedefinitions
    (found, { s with arena := arena })
  found.forM fun redefinition => do
    let span ← spanOf redefinition.duplicate
    record (← errorAt .semantic span (.redefinition redefinition.name))

end Parser

end ExprLang
