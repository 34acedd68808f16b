import ExprLang.Position
import ExprLang.Text.Quoted
import ExprLang.Token.Kind

/-!
# Faults

A fault is a broken promise of the caller: an operation was asked for something
that its contract rules out.  Faults are not errors of a source text, which are
reported as diagnostics; an operation that can meet one answers in
{lit}`Except Fault`.

Main definitions:

- Definition {lit}`Fault.message`: the wording of each fault.
-/

namespace ExprLang

/-- What can be wrong with a call. -/
inductive Fault where
  /-- A cursor was moved past the end of its text. -/
  | pastEnd (point : Point)
  /-- A token was given back although none was consumed. -/
  | nothingToGiveBack
  /-- The last consumed token was asked for although none was consumed. -/
  | nothingConsumed
  /-- A node, which already has a position, was given another one. -/
  | positionTaken (node : Nat) (position : Span)
  /-- A node has no slot of that name. -/
  | noSlot (form slot : String)
  /-- A node has no child list of that name. -/
  | noList (form list : String)
  /-- A node, a scope or an item of a list does not exist. -/
  | outOfBounds
  /-- The suffix of a numeral is longer than the numeral. -/
  | suffixTooLong
  /-- The suffix of a numeral begins inside a character. -/
  | suffixInsideCharacter (index : Nat) (c : Char) (start : Nat)
  /-- A kind of token is listed for a rule that knows nothing of it. -/
  | notInRule (kind : TokenKind) (role : String)
  /-- A bounded computation was given too small a bound. -/
  | boundExceeded
deriving DecidableEq, Repr

/-- The wording of a fault. -/
def Fault.message : Fault → String
  | .pastEnd point => s!"scanner advanced past the end of input at {point}"
  | .nothingToGiveBack => "unconsume called before any token was consumed"
  | .nothingConsumed => "previous called before any token was consumed"
  | .positionTaken node position =>
    s!"position of node #{node} is already set to {position}"
  | .noSlot form slot => s!"{form} has no `{slot}` slot"
  | .noList form list => s!"{form} has no `{list}` list"
  | .outOfBounds => "index out of bounds"
  | .suffixTooLong => "attempt to subtract with overflow"
  | .suffixInsideCharacter index c start =>
    s!"end byte index {index} is not a char boundary; it is inside {Text.quoteSingle c} "
      ++ s!"(bytes {start}..{start + c.utf8Size} of string)"
  | .notInRule kind role =>
    s!"internal error: entered unreachable code: {kind.name} registered as {role}"
  | .boundExceeded => "bound exceeded"

end ExprLang
