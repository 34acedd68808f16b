import ExprLang.Parser.Declarations
import ExprLang.Source

/-!
# Parsing sources

A source is parsed as a unit, as one expression or as one statement.  The answer
is a tree with the warnings of the parse, or every diagnostic if there is an
error among them.

Main definitions:

- Definition {lit}`Parser.finish`: the answer of a parse.
- Definition {lit}`parse`: parsing a source.
-/

namespace ExprLang

/-- What a source is parsed as. -/
inductive Entry where
  | unit | expression | statement
deriving DecidableEq, Repr, Inhabited

/-- A tree, with the warnings of its parse. -/
structure Parsed where
  arena : Arena
  root : NodeId
  warnings : Report
deriving Inhabited

namespace Parser

/-- The rule for an entry; an expression or a statement has to span the whole source. -/
def entry : Entry → Parser NodeId
  | .unit => compilationUnit
  | .expression => do
    let root ← expression .lowest
    expectEnd
    return root
  | .statement => do
    let root ← statement
    expectEnd
    return root

/-- The answer of a parse that ended with a node or a diagnostic. -/
def finish (s : ParserState) : Except Diagnostic NodeId → Except Report Parsed
  | .ok root => if s.report.hasErrors then .error s.report else .ok ⟨s.arena, root, s.report⟩
  | .error d => .error (recordIn s.report d)

end Parser

/-- Parses a text that comes from somewhere. -/
def parseText (entry : Entry) (options : ParseOptions) (description text : String) :
    Except Fault (Except Report Parsed) := do
  let (result, s) ← (Parser.entry entry).run (.ofText text description options)
  pure (Parser.finish s result)

/-- Parses a source. -/
def parse (entry : Entry) (options : ParseOptions) (source : Source) :
    Except Fault (Except Report Parsed) :=
  match source.content with
  | .error message => pure (.error (.single (.unreadable source.description message)))
  | .ok text => parseText entry options source.description text

end ExprLang
