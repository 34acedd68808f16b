import ExprLang.CommandLine
import ExprLang.Decimal.Binary
import ExprLang.Decimal.Numeral
import ExprLang.Decimal.Shortest
import ExprLang.Diagnostic.Basic
import ExprLang.Diagnostic.Snippet
import ExprLang.Fault
import ExprLang.Lexer.Basic
import ExprLang.Lexer.Cursor
import ExprLang.Lexer.Fragment
import ExprLang.Lexer.Grammar
import ExprLang.Lexer.Pattern
import ExprLang.Lexer.Reference
import ExprLang.Main
import ExprLang.Parser.Basic
import ExprLang.Parser.Complaint
import ExprLang.Parser.Declarations
import ExprLang.Parser.Entry
import ExprLang.Parser.Expectation
import ExprLang.Parser.Expression
import ExprLang.Parser.Imports
import ExprLang.Parser.Precedence
import ExprLang.Parser.Recovery
import ExprLang.Parser.Statements
import ExprLang.Parser.Strings
import ExprLang.Position
import ExprLang.Proofs.Errors.Hands
import ExprLang.Proofs.Errors.Nodes
import ExprLang.Proofs.Errors.Placeholders
import ExprLang.Proofs.Errors.Rules
import ExprLang.Proofs.Errors.Runs
import ExprLang.Proofs.Errors.States
import ExprLang.Proofs.Errors.Units
import ExprLang.Proofs.Grammar.Beginnings
import ExprLang.Proofs.Grammar.Derivations
import ExprLang.Proofs.Grammar.Scanning
import ExprLang.Proofs.Layout.Rules
import ExprLang.Proofs.Layout.Runs
import ExprLang.Proofs.Layout.States
import ExprLang.Proofs.Layout.Texts
import ExprLang.Proofs.Layout.Units
import ExprLang.Proofs.Layout.Values
import ExprLang.Proofs.Lexer.Blanks
import ExprLang.Proofs.Lexer.Cuts
import ExprLang.Proofs.Lexer.Endings
import ExprLang.Proofs.Lexer.Erasure
import ExprLang.Proofs.Lexer.Fallbacks
import ExprLang.Proofs.Lexer.Locality
import ExprLang.Proofs.Lexer.Matching
import ExprLang.Proofs.Lexer.Nesting
import ExprLang.Proofs.Lexer.Numbers
import ExprLang.Proofs.Lexer.Numerals
import ExprLang.Proofs.Lexer.Quotes
import ExprLang.Proofs.Lexer.Runs
import ExprLang.Proofs.Lexer.Safety
import ExprLang.Proofs.Lexer.Shapes
import ExprLang.Proofs.Lexer.Soundness
import ExprLang.Proofs.Lexer.Spelling
import ExprLang.Proofs.Lexer.Split
import ExprLang.Proofs.Lexer.States
import ExprLang.Proofs.Lexer.Tokens
import ExprLang.Proofs.Lexer.Trivia
import ExprLang.Proofs.Lexer.Words
import ExprLang.Proofs.Lookup
import ExprLang.Proofs.Parsed.Consumption
import ExprLang.Proofs.Parsed.Errors
import ExprLang.Proofs.Parsed.Extents
import ExprLang.Proofs.Parsed.Grammar
import ExprLang.Proofs.Parsed.Integers
import ExprLang.Proofs.Parsed.Operators
import ExprLang.Proofs.Parsed.Ownership
import ExprLang.Proofs.Parsed.Positions
import ExprLang.Proofs.Parsed.Snippets
import ExprLang.Proofs.Parsed.Sorts
import ExprLang.Proofs.Parsed.Strings
import ExprLang.Proofs.Parsed.Terminators
import ExprLang.Proofs.Parser.Calls
import ExprLang.Proofs.Parser.Declarations
import ExprLang.Proofs.Parser.Ensures
import ExprLang.Proofs.Parser.Entry
import ExprLang.Proofs.Parser.Expression
import ExprLang.Proofs.Parser.Imports
import ExprLang.Proofs.Parser.Invariants
import ExprLang.Proofs.Parser.Isolation
import ExprLang.Proofs.Parser.Limits
import ExprLang.Proofs.Parser.Nodes
import ExprLang.Proofs.Parser.Options
import ExprLang.Proofs.Parser.Primitives
import ExprLang.Proofs.Parser.Rules
import ExprLang.Proofs.Parser.Simulation
import ExprLang.Proofs.Parser.Statements
import ExprLang.Proofs.Parser.Strings
import ExprLang.Proofs.Places.Nodes
import ExprLang.Proofs.Places.Rules
import ExprLang.Proofs.Places.Runs
import ExprLang.Proofs.Places.Spans
import ExprLang.Proofs.Places.Units
import ExprLang.Proofs.Reader.Basic
import ExprLang.Proofs.Reader.Brackets
import ExprLang.Proofs.Reader.Covers
import ExprLang.Proofs.Reader.Declarations
import ExprLang.Proofs.Reader.Enclosures
import ExprLang.Proofs.Reader.Erasure
import ExprLang.Proofs.Reader.Expressions
import ExprLang.Proofs.Reader.Followers
import ExprLang.Proofs.Reader.Isolation
import ExprLang.Proofs.Reader.Operators
import ExprLang.Proofs.Reader.Phrases
import ExprLang.Proofs.Reader.Pieces
import ExprLang.Proofs.Reader.Reads
import ExprLang.Proofs.Reader.Rules
import ExprLang.Proofs.Reader.Sources
import ExprLang.Proofs.Reader.Statements
import ExprLang.Proofs.Reader.Tape
import ExprLang.Proofs.Reader.Terminators
import ExprLang.Proofs.Reader.Unterminated
import ExprLang.Proofs.Reader.Verdicts
import ExprLang.Proofs.RoundTrip
import ExprLang.Proofs.Token.Integers
import ExprLang.Proofs.Token.Negation
import ExprLang.Proofs.Token.Nesting
import ExprLang.Proofs.Token.Proper
import ExprLang.Proofs.Token.Skipping
import ExprLang.Proofs.Token.Stream
import ExprLang.Proofs.Tree.Ancestors
import ExprLang.Proofs.Tree.Basic
import ExprLang.Proofs.Tree.Bindings
import ExprLang.Proofs.Tree.Built
import ExprLang.Proofs.Tree.Changes
import ExprLang.Proofs.Tree.Denotes
import ExprLang.Proofs.Tree.Depth
import ExprLang.Proofs.Tree.Equivalence
import ExprLang.Proofs.Tree.Frames
import ExprLang.Proofs.Tree.Growth
import ExprLang.Proofs.Tree.Operators
import ExprLang.Proofs.Tree.Outline
import ExprLang.Proofs.Tree.Ownership
import ExprLang.Proofs.Tree.Placed
import ExprLang.Proofs.Tree.Reparsed
import ExprLang.Proofs.Tree.Replacement
import ExprLang.Proofs.Tree.Scoping
import ExprLang.Proofs.Tree.Source
import ExprLang.Proofs.Tree.Values
import ExprLang.Proofs.Tree.Visibility
import ExprLang.Proofs.Tree.Visits
import ExprLang.Proofs.Tree.Walks
import ExprLang.Proofs.Tree.Words
import ExprLang.Proofs.Tree.Written
import ExprLang.Source
import ExprLang.Text.Escape
import ExprLang.Text.Lines
import ExprLang.Text.Quoted
import ExprLang.Text.Spacing
import ExprLang.Text.Unprinted
import ExprLang.Token.Basic
import ExprLang.Token.Category
import ExprLang.Token.Kind
import ExprLang.Token.Stream
import ExprLang.Token.Tape
import ExprLang.Tree.Arena
import ExprLang.Tree.Equivalence
import ExprLang.Tree.Form
import ExprLang.Tree.Listing
import ExprLang.Tree.Literal
import ExprLang.Tree.Operator
import ExprLang.Tree.Render
import ExprLang.Tree.Scope
import ExprLang.Tree.Walk
