import ExprLang.Parser.Basic

/-!
# Recovery from errors

A synchronization point takes up an error of grammar: the error is recorded and
tokens are skipped until the parse can go on.  Skipping ends behind a semicolon,
before a token where the parse may go on, or at the end of the source; braces
that are opened on the way are skipped as a whole.

Main definitions:

- Definition {lit}`Tape.skip`: skipping tokens.
- Definition {lit}`Parser.synchronized`: a synchronization point.
-/

namespace ExprLang

/-- Skips tokens within a bound.  `mayStop` says whether a token has been used up, `depth`
counts the open braces. -/
def Tape.skipWithin (stop : Expectation) : Nat → Bool → Nat → Tape → Tape
  | 0, _, _, t => t
  | n + 1, mayStop, depth, t =>
    let kind := t.peek.kind
    if mayStop && (kind == .endOfFile || (depth == 0 && stop.accepts kind)) then t
    else
      let after := t.advance.2
      match kind with
      | .endOfFile => after
      | .semicolon => if depth = 0 then after else skipWithin stop n true depth after
      | .leftBrace => skipWithin stop n true (depth + 1) after
      | .rightBrace => skipWithin stop n true (depth - 1) after
      | _ => skipWithin stop n true depth after

/-- Skips tokens after an error.  Unless tokens were consumed since `mark` were, at least one
is skipped. -/
def Tape.skip (t : Tape) (stop : Expectation) (mark : Nat) : Tape :=
  t.skipWithin stop (t.pending.length + 1) (decide (mark < t.consumedCount)) 0

/-- Skipping gives no token back. -/
theorem Tape.consumedCount_le_skipWithin (t : Tape) (stop : Expectation) (n : Nat)
    (mayStop : Bool) (depth : Nat) :
    t.consumedCount ≤ (t.skipWithin stop n mayStop depth).consumedCount := by
  induction n generalizing mayStop depth t with
  | zero => exact Nat.le_refl _
  | succ n ih =>
    have step : t.consumedCount ≤ t.advance.2.consumedCount := Nat.le_succ _
    have next (b : Bool) (k : Nat) := Nat.le_trans step (ih t.advance.2 b k)
    simp only [skipWithin]
    repeat' split
    all_goals first | exact Nat.le_refl _ | exact step | exact next ..

/-- After skipping, tokens were consumed since `mark` were. -/
theorem Tape.lt_consumedCount_skip (t : Tape) (stop : Expectation) {mark : Nat}
    (h : mark ≤ t.consumedCount) : mark < (t.skip stop mark).consumedCount := by
  by_cases hm : mark < t.consumedCount
  · exact Nat.lt_of_lt_of_le hm (consumedCount_le_skipWithin ..)
  · have step : t.consumedCount < t.advance.2.consumedCount := Nat.lt_succ_self _
    have next (n : Nat) (b : Bool) (k : Nat) :=
      Nat.lt_of_lt_of_le step (t.advance.2.consumedCount_le_skipWithin stop n b k)
    refine Nat.lt_of_le_of_lt h ?_
    simp only [skip, hm, decide_false, skipWithin, Bool.false_and, Bool.false_eq_true, if_false]
    repeat' split
    all_goals first | exact step | exact next ..

namespace Parser

/-- Skips tokens after an error of what began when `mark` tokens were consumed. -/
def skip (stop : Expectation) (mark : Nat) : Parser Unit :=
  modify fun s => { s with tape := s.tape.skip stop mark }

/-- Takes up the error of what began when `mark` tokens were consumed.  The error stands if
recovery is off or as many errors are recorded as the options allow. -/
def recoverFrom (d : Diagnostic) (stop : Expectation) (mark : Nat) : Parser Unit := do
  if !(← get).options.recover then fail d
  record d
  if ← limitReached then fail d
  skip stop mark

/-- Runs a parser as a synchronization point: after an error of grammar there is no value and
the parse goes on at `stop`. -/
def synchronized (stop : Expectation) (p : Parser α) : Parser (Option α) := do
  let mark := (← get).tape.consumedCount
  match ← attempt p with
  | .ok a => return some a
  | .error d =>
    recoverFrom d stop mark
    return none

end Parser

end ExprLang
