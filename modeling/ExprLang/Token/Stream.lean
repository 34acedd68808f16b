import ExprLang.Fault
import ExprLang.Lexer.Basic

/-!
# Token streams

A stream is a buffered view of a lexer.  Tokens are pulled on demand, kept while
they are only looked at, and can be given back.  Once the lexer has come to the
end of its text, tokens for the end of the source are made in its place; they
stand where the last token ends.

Main definitions:

- Definition {lit}`TokenStream.lookAhead`: a token ahead, pulled if need be.
- Definition {lit}`TokenStream.advance` and {lit}`TokenStream.giveBack`: moving by
  one token.
-/

namespace ExprLang

/-- A buffered view of a lexer. -/
structure TokenStream where
  lexer : Lexer
  /-- Tokens that were pulled and not consumed or were given back, the next one first. -/
  pending : List Token
  /-- What has been consumed, the last token first. -/
  consumed : List Token
  /-- Where the last token that the lexer gave ends. -/
  finish : Point
deriving Inhabited

namespace TokenStream

/-- The stream over the tokens of a lexer. -/
def ofLexer (lexer : Lexer) : TokenStream :=
  ⟨lexer, [], [], .zero⟩

/-- The next token of the lexer, or one for the end of the source. -/
def pull (s : TokenStream) : Token × TokenStream :=
  match s.lexer.next with
  | (some token, lexer) => (token, { s with lexer := lexer, finish := token.span.stop })
  | (none, lexer) => (.endOfFile s.finish, { s with lexer := lexer })

/-- The stream with one more token pending. -/
def pulled (s : TokenStream) : TokenStream :=
  let (token, after) := s.pull
  { after with pending := after.pending ++ [token] }

/-- Pulling leaves what is pending and what was consumed. -/
theorem pull_buffers (s : TokenStream) :
    s.pull.2.pending = s.pending ∧ s.pull.2.consumed = s.consumed := by
  unfold pull
  split <;> exact ⟨rfl, rfl⟩

@[simp] theorem length_pending_pulled (s : TokenStream) :
    s.pulled.pending.length = s.pending.length + 1 := by
  simp [pulled, s.pull_buffers.1]

/-- The stream with more than `n` tokens pending. -/
def fill (s : TokenStream) (n : Nat) : TokenStream :=
  if s.pending.length ≤ n then s.pulled.fill n else s
termination_by n + 1 - s.pending.length
decreasing_by
  rw [length_pending_pulled]
  omega

/-- There is a pending token `n` places ahead once there are enough. -/
theorem lt_length_fill (s : TokenStream) (n : Nat) : n < (s.fill n).pending.length := by
  fun_induction fill s n with
  | case1 s _ ih => exact ih
  | case2 s h => omega

/-- The token `n` places ahead. -/
def lookAhead (s : TokenStream) (n : Nat) : Token × TokenStream :=
  ((s.fill n).pending.get ⟨n, s.lt_length_fill n⟩, s.fill n)

/-- The next token. -/
def peek (s : TokenStream) : Token × TokenStream := s.lookAhead 0

/-- Whether the next token is the end of the source. -/
def isAtEnd (s : TokenStream) : Bool × TokenStream :=
  let (token, after) := s.peek
  (token.kind == .endOfFile, after)

/-- Consumes the next token. -/
def advance (s : TokenStream) : Token × TokenStream :=
  let (token, after) :=
    match s.pending with
    | token :: pending => (token, { s with pending := pending })
    | [] => s.pull
  (token, { after with consumed := token :: after.consumed })

/-- Gives the last consumed token back. -/
def giveBack (s : TokenStream) : Except Fault TokenStream :=
  match s.consumed with
  | [] => .error .nothingToGiveBack
  | token :: consumed => .ok { s with consumed := consumed, pending := token :: s.pending }

/-- The last consumed token. -/
def previous (s : TokenStream) : Except Fault Token :=
  match s.consumed with
  | [] => .error .nothingConsumed
  | token :: _ => .ok token

/-- Whether a token has been consumed. -/
def hasPrevious (s : TokenStream) : Bool := !s.consumed.isEmpty

/-- The number of tokens consumed and not given back. -/
def consumedCount (s : TokenStream) : Nat := s.consumed.length

end TokenStream

end ExprLang
