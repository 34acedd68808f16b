import ExprLang.Fault
import ExprLang.Token.Basic

/-!
# Token tapes

A tape is a position in the sequence of tokens of a source.  The sequence is the
tokens followed by endlessly many tokens for the end of the source, which stand
where the last token ends.  One can look ahead on a tape, move forward, and give
tokens back.

Main definitions:

- Definition {lit}`Tape.lookAhead`: a token ahead of the position.
- Definition {lit}`Tape.advance` and {lit}`Tape.giveBack`: moving by one token.
-/

namespace ExprLang

/-- A position in a sequence of tokens. -/
structure Tape where
  /-- What has been consumed, the last token first. -/
  consumed : List Token
  /-- What is still to come, before the endless end of the source. -/
  pending : List Token
  /-- Where the last token of the source ends. -/
  finish : Point
deriving DecidableEq, Repr, Inhabited

namespace Tape

/-- The start of the sequence for some tokens. -/
def ofTokens (tokens : List Token) : Tape :=
  ⟨[], tokens, tokens.getLast?.elim Point.zero (·.span.stop)⟩

/-- The token `n` places ahead. -/
def lookAhead (t : Tape) (n : Nat) : Token :=
  t.pending.getD n (.endOfFile t.finish)

/-- The next token. -/
def peek (t : Tape) : Token := t.lookAhead 0

/-- Whether the next token is the end of the source. -/
def isAtEnd (t : Tape) : Bool := t.peek.kind == .endOfFile

/-- Consumes the next token. -/
def advance (t : Tape) : Token × Tape :=
  (t.peek, { t with consumed := t.peek :: t.consumed, pending := t.pending.tail })

/-- Gives the last consumed token back. -/
def giveBack (t : Tape) : Except Fault Tape :=
  match t.consumed with
  | [] => .error .nothingToGiveBack
  | token :: consumed => .ok { t with consumed := consumed, pending := token :: t.pending }

/-- The last consumed token. -/
def previous (t : Tape) : Except Fault Token :=
  match t.consumed with
  | [] => .error .nothingConsumed
  | token :: _ => .ok token

/-- Whether a token has been consumed. -/
def hasPrevious (t : Tape) : Bool := !t.consumed.isEmpty

/-- The number of tokens consumed and not given back. -/
def consumedCount (t : Tape) : Nat := t.consumed.length

/-! ## Moving -/

@[simp] theorem lookAhead_zero (t : Tape) : t.lookAhead 0 = t.peek := rfl

@[simp] theorem advance_token (t : Tape) : t.advance.1 = t.peek := rfl

@[simp] theorem consumed_advance (t : Tape) :
    t.advance.2.consumed = t.peek :: t.consumed := rfl

@[simp] theorem pending_advance (t : Tape) : t.advance.2.pending = t.pending.tail := rfl

@[simp] theorem consumedCount_advance (t : Tape) :
    t.advance.2.consumedCount = t.consumedCount + 1 := rfl

@[simp] theorem previous_advance (t : Tape) : t.advance.2.previous = .ok t.peek := rfl

/-- Moving forward by one token brings every other token nearer by one. -/
theorem lookAhead_advance (t : Tape) (n : Nat) :
    t.advance.2.lookAhead n = t.lookAhead (n + 1) := by
  cases h : t.pending <;> simp [lookAhead, advance, h]

/-- Giving back undoes moving forward. -/
theorem giveBack_advance (t : Tape) (h : t.pending ≠ []) : t.advance.2.giveBack = .ok t := by
  obtain ⟨consumed, pending, finish⟩ := t
  cases pending with
  | nil => exact absurd rfl h
  | cons token pending => rfl

end Tape

end ExprLang
