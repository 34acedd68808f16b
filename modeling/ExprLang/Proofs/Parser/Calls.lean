import ExprLang.Proofs.Lexer.Safety
import ExprLang.Proofs.Parser.Entry

/-!
# Calls from outside

A caller may run the rules of a parser one after another, in any order and with
any options, whatever the source is: every call comes back, with a value or with
a diagnostic, and never with a fault.

Main definitions:

- Definition {lit}`Parser.Call`: what a caller may ask for.
- Definition {lit}`Parser.runCalls`: calls one after another.

Main results:

- Theorem {lit}`Parser.Call.simulates`: every call does what a reader does.
- Theorem {lit}`Parser.every_call_returns`: no sequence of calls meets a fault.
-/

namespace ExprLang.Parser

open ParserState

/-- What a caller may ask a parser for. -/
inductive Call where
  | expression (min : Precedence)
  | statement
  | compilationUnit
  /-- Another call as a synchronization point. -/
  | synchronized (stop : Expectation) (body : Call)
  | check (e : Expectation)
  | accept (e : Expectation)
  | expect (e : Expectation)
  | unexpected (expected : String)
  | expectEnd
deriving DecidableEq, Repr

namespace Call

/-- Carries out a call. -/
def run : Call → Parser Unit
  | expression min => do
    let _ ← Parser.expression min
    return ()
  | statement => do
    let _ ← Parser.statement
    return ()
  | compilationUnit => do
    let _ ← Parser.compilationUnit
    return ()
  | synchronized stop body => do
    let _ ← Parser.synchronized stop body.run
    return ()
  | check e => do
    let _ ← Parser.check e
    return ()
  | accept e => do
    let _ ← Parser.accept? e
    return ()
  | expect e => do
    let _ ← Parser.expect e
    return ()
  | unexpected expected => do
    let _ ← Parser.unexpected expected
    return ()
  | expectEnd => Parser.expectEnd

/-- Every call does what some reader does. -/
theorem simulates (call : Call) :
    ∃ r : Reader Unit, ∀ s : ParserState, s.Valid →
      call.run.Simulates s.arena r s fun _ _ _ => True := by
  induction call with
  | expression min =>
    exact ⟨Reader.expression min >>= fun _ => pure (), fun s hs =>
      .bind (expression_simulates min hs) fun _ _ _ hl _ => .pure hl.valid trivial⟩
  | statement =>
    exact ⟨Reader.statement >>= fun _ => pure (), fun s hs =>
      .bind (statement_simulates hs) fun _ _ _ hl _ => .pure hl.valid trivial⟩
  | compilationUnit =>
    exact ⟨Reader.compilationUnit >>= fun _ => pure (), fun s hs =>
      .bind (compilationUnit_simulates hs) fun _ _ _ hl _ => .pure hl.valid trivial⟩
  | synchronized stop body ih =>
    obtain ⟨r, hr⟩ := ih
    exact ⟨Reader.synchronized stop r >>= fun _ => pure (), fun s hs =>
      .bind (.synchronized stop hs (hr s hs)) fun _ _ _ hl _ => .pure hl.valid trivial⟩
  | check e =>
    exact ⟨Reader.check e >>= fun _ => pure (), fun s hs => .bind_check hs (.pure hs trivial)⟩
  | accept e =>
    exact ⟨Reader.accept? e >>= fun _ => pure (), fun s hs => .bind_accept? hs
      (fun _ => .pure hs.advanced trivial)
      fun _ => .pure hs trivial⟩
  | expect e =>
    exact ⟨Reader.expect e >>= fun _ => pure (), fun s hs => .bind_expect hs
      fun _ => .pure hs.advanced trivial⟩
  | unexpected expected =>
    exact ⟨pure (), fun s hs =>
      .bind_left_look hs (unexpected_eq s expected) (.pure hs trivial)⟩
  | expectEnd =>
    exact ⟨Reader.expectKind .endOfFile >>= fun _ => pure (), fun s hs =>
      .bind_expectKind hs fun _ => .pure hs.advanced trivial⟩

/-- Between calls a call comes back, with a value or with a diagnostic, and again between
calls. -/
theorem exists_run (call : Call) {s : ParserState} (hs : s.Valid) :
    ∃ result t, call.run.run s = .ok (result, t) ∧ t.Valid := by
  obtain ⟨r, hr⟩ := call.simulates
  rcases Ensures.exists_run (hr s hs) with ⟨a, t, hrun, hl, -⟩ | ⟨d, t, hrun, hl, -⟩
  · exact ⟨.ok a, t, hrun, hl.valid⟩
  · exact ⟨.error d, t, hrun, hl.valid⟩

end Call

/-- Carries out calls one after another, whether they end with a value or with a diagnostic. -/
def runCalls : List Call → ParserState → Except Fault (List (Except Diagnostic Unit) × ParserState)
  | [], s => pure ([], s)
  | call :: calls, s => do
    let (result, s) ← call.run.run s
    let (results, s) ← runCalls calls s
    return (result :: results, s)

/-- Between calls any calls come back. -/
theorem exists_runCalls (calls : List Call) {s : ParserState} (hs : s.Valid) :
    ∃ results t, runCalls calls s = .ok (results, t) ∧ results.length = calls.length ∧
      t.Valid := by
  induction calls generalizing s with
  | nil => exact ⟨[], s, rfl, rfl, hs⟩
  | cons call calls ih =>
    obtain ⟨result, t, hcall, ht⟩ := call.exists_run hs
    obtain ⟨results, u, hcalls, hlength, hu⟩ := ih ht
    refine ⟨result :: results, u, ?_, congrArg (· + 1) hlength, hu⟩
    simp [runCalls, hcall, hcalls, bind, Except.bind, pure, Except.pure]

/-- Whatever the source and the options are, every call of any sequence of calls comes back, with
a value or with a diagnostic, and none meets a fault; and wherever the lexer gets in the source,
nothing that it may try goes wrong. -/
theorem every_call_returns (text description : String) (options : ParseOptions)
    (calls : List Call) :
    (∃ results t, runCalls calls (.ofText text description options) = .ok (results, t) ∧
      results.length = calls.length) ∧
      ∀ l, Lexer.Reaches (.ofText reference text) l → l.Safe := by
  obtain ⟨results, t, hcalls, hlength, -⟩ := exists_runCalls calls
    (show (ofText text description options).Valid from valid_ofText)
  exact ⟨⟨results, t, hcalls, hlength⟩, fun _ => Lexer.safe_of_reaches⟩

end ExprLang.Parser
