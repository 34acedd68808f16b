import ExprLang.Parser.Expectation
import ExprLang.Token.Basic

/-!
# Readers

A reader does what a parser does in a parse that goes on after every error, but
on words instead of tokens: it knows nothing of places, messages, arenas and
scopes.  It answers with a value or none, says whether any error was found on
the way, and goes on where the parser goes on.

Main definitions:

- Definition {lit}`Reader`: a computation on the words still to come.
- Definition {lit}`Reader.synchronized`: a synchronization point.
- Definition {lit}`Reader.loop`: repetition within a bound.
-/

namespace ExprLang

/-! ## Words -/

/-- A token without its place. -/
structure Word where
  kind : TokenKind
  text : String
deriving DecidableEq, Repr, Inhabited

/-- The word that stands for the end of the source. -/
def Word.endOfFile : Word := ⟨.endOfFile, ""⟩

/-- The word of a token. -/
def Token.word (t : Token) : Word := ⟨t.kind, t.text⟩

@[simp] theorem Token.kind_word (t : Token) : t.word.kind = t.kind := rfl

@[simp] theorem Token.text_word (t : Token) : t.word.text = t.text := rfl

/-- A place among the words of a source. -/
structure Spot where
  /-- The words still to come, up to the end of the source. -/
  words : List Word
  /-- Whether there are words to come and the word before them is a closing brace. -/
  afterBrace : Bool
deriving DecidableEq, Repr, Inhabited

namespace Spot

/-- The place before the first word. -/
def start (words : List Word) : Spot := ⟨words, false⟩

/-- The word `n` places ahead. -/
def lookAhead (p : Spot) (n : Nat) : Word := p.words.getD n .endOfFile

/-- The next word. -/
def peek (p : Spot) : Word := p.lookAhead 0

/-- The place after the next word. -/
def advance (p : Spot) : Spot :=
  match p.words with
  | [] => p
  | w :: ws => ⟨ws, !ws.isEmpty && w.kind == .rightBrace⟩

@[simp] theorem words_start (words : List Word) : (start words).words = words := rfl

@[simp] theorem peek_cons (w : Word) (ws : List Word) (b : Bool) : peek ⟨w :: ws, b⟩ = w := rfl

@[simp] theorem peek_nil (b : Bool) : peek ⟨[], b⟩ = .endOfFile := rfl

@[simp] theorem words_advance (p : Spot) : p.advance.words = p.words.tail := by
  unfold advance
  split <;> simp [*]

/-- Skips words after an error.  `mayStop` says whether a word has been used up, `depth` counts
the open braces. -/
def skipWords (stop : Expectation) : Bool → Nat → List Word → Bool → Spot
  | _, _, [], _ => ⟨[], false⟩
  | mayStop, depth, w :: ws, afterBrace =>
    if mayStop && depth == 0 && stop.accepts w.kind then ⟨w :: ws, afterBrace⟩
    else
      let after := !ws.isEmpty && w.kind == .rightBrace
      match w.kind with
      | .semicolon => if depth = 0 then ⟨ws, after⟩ else skipWords stop true depth ws after
      | .leftBrace => skipWords stop true (depth + 1) ws after
      | .rightBrace => skipWords stop true (depth - 1) ws after
      | _ => skipWords stop true depth ws after

/-- Skips words after an error of what began when `mark` words were to come; one at least, if
there are as many still. -/
def skip (p : Spot) (stop : Expectation) (mark : Nat) : Spot :=
  skipWords stop (decide (p.words.length < mark)) 0 p.words p.afterBrace

end Spot

/-! ## Readings -/

/-- What a reader ends in. -/
structure Reading (α : Type) where
  /-- The value, unless the reader stops. -/
  value : Option α
  /-- Whether no error was found and gone past. -/
  clean : Bool
  /-- The place that was reached. -/
  rest : Spot
deriving DecidableEq, Repr

/-- Goes on from an outcome, unless it has no value. -/
def Reading.andThen (o : Reading α) (f : α → Spot → Reading β) : Reading β :=
  match o with
  | ⟨none, clean, p⟩ => ⟨none, clean, p⟩
  | ⟨some a, clean, p⟩ => { f a p with clean := clean && (f a p).clean }

/-- A computation on the words still to come. -/
def Reader (α : Type) := Spot → Reading α

namespace Reader

instance : Monad Reader where
  pure a p := ⟨some a, true, p⟩
  bind r f p := (r p).andThen f

theorem pure_apply (a : α) (p : Spot) : (pure a : Reader α) p = ⟨some a, true, p⟩ := rfl

theorem bind_apply (r : Reader α) (f : α → Reader β) (p : Spot) :
    (r >>= f) p = (r p).andThen f := rfl

/-- In a sequence the second reader starts where the first one ends. -/
theorem bind_apply_of_some {r : Reader α} {f : α → Reader β} {p q : Spot} {a : α} {clean : Bool}
    (h : r p = ⟨some a, clean, q⟩) :
    (r >>= f) p = { f a q with clean := clean && (f a q).clean } := by
  rw [bind_apply, h]
  rfl

/-- A sequence stops where its first reader stops. -/
theorem bind_apply_of_none {r : Reader α} {f : α → Reader β} {p q : Spot} {clean : Bool}
    (h : r p = ⟨none, clean, q⟩) : (r >>= f) p = ⟨none, clean, q⟩ := by
  rw [bind_apply, h]
  rfl

/-- Readers in sequence may be grouped in any way. -/
theorem bind_assoc (r : Reader α) (f : α → Reader β) (g : β → Reader γ) :
    (r >>= f) >>= g = r >>= fun a => f a >>= g := by
  funext p
  simp only [bind_apply]
  rcases r p with ⟨_ | a, clean, q⟩
  · rfl
  · simp only [Reading.andThen, bind_apply]
    rcases f a q with ⟨_ | b, clean', q'⟩
    · rfl
    · simp only [Bool.and_assoc]

/-- Stops. -/
def fail : Reader α := fun p => ⟨none, true, p⟩

/-- Finds an error unless something holds, and goes on. -/
def require (holds : Bool) : Reader Unit := fun p => ⟨some (), holds, p⟩

/-! ## Reading words -/

/-- The word `n` places ahead. -/
def lookAhead (n : Nat) : Reader Word := fun p => ⟨some (p.lookAhead n), true, p⟩

/-- The next word. -/
def peek : Reader Word := lookAhead 0

/-- Consumes the next word. -/
def advance : Reader Word := fun p => ⟨some p.peek, true, p.advance⟩

/-- Whether the next word fits. -/
def check (e : Expectation) : Reader Bool := do
  return e.accepts (← peek).kind

/-- Whether the next word is of some kind. -/
def checkKind (kind : TokenKind) : Reader Bool := check (.kind kind)

/-- Consumes the next word if it fits. -/
def accept? (e : Expectation) : Reader (Option Word) := do
  if ← check e then return some (← advance) else return none

/-- Consumes the next word if it is of some kind, and says whether it was. -/
def skipKind (kind : TokenKind) : Reader Bool := do
  return (← accept? (.kind kind)).isSome

/-- Consumes the next word, which has to fit. -/
def expect (e : Expectation) : Reader Word := do
  if ← check e then advance else fail

/-- Consumes the next word, which has to be of some kind. -/
def expectKind (kind : TokenKind) : Reader Word := expect (.kind kind)

/-- Consumes a name. -/
def name : Reader Word := expect (.category [.name])

/-- A look at the next word. -/
theorem check_apply (e : Expectation) (p : Spot) :
    check e p = ⟨some (e.accepts p.peek.kind), true, p⟩ := rfl

/-- A word that fits is consumed. -/
theorem accept?_apply (e : Expectation) (p : Spot) :
    accept? e p = if e.accepts p.peek.kind = true then ⟨some (some p.peek), true, p.advance⟩
      else ⟨some none, true, p⟩ := by
  unfold accept?
  rw [bind_apply_of_some (check_apply e p)]
  cases h : e.accepts p.peek.kind <;> rfl

/-- A word of some kind is consumed. -/
theorem skipKind_apply (kind : TokenKind) (p : Spot) :
    skipKind kind p = if kind = p.peek.kind then ⟨some true, true, p.advance⟩
      else ⟨some false, true, p⟩ := by
  have h := accept?_apply (.kind kind) p
  simp only [Expectation.accepts_kind, beq_iff_eq] at h
  unfold skipKind
  by_cases hk : kind = p.peek.kind
  · rw [if_pos hk] at h ⊢
    rw [bind_apply_of_some h]
    rfl
  · rw [if_neg hk] at h ⊢
    rw [bind_apply_of_some h]
    rfl

/-- A word that has to fit is consumed if it does. -/
theorem expect_apply (e : Expectation) (p : Spot) :
    expect e p = if e.accepts p.peek.kind = true then ⟨some p.peek, true, p.advance⟩
      else ⟨none, true, p⟩ := by
  unfold expect
  rw [bind_apply_of_some (check_apply e p)]
  cases h : e.accepts p.peek.kind <;> rfl

/-! ## Repetition -/

/-- Repeats `step` until it ends with a value, at most so many times. -/
def loop (step : α → Reader (α ⊕ β)) : Nat → α → Reader β
  | 0, _ => fail
  | n + 1, a => do
    match ← step a with
    | .inl a => loop step n a
    | .inr b => pure b

/-- A bound for repetitions that use up a word each. -/
def bound : Reader Nat := fun p => ⟨some (p.words.length + 1), true, p⟩

/-! ## Recovery -/

/-- Runs a reader as a synchronization point: where it stops there is no value and the next
reader starts at `stop`. -/
def synchronized (stop : Expectation) (r : Reader α) : Reader (Option α) := fun p =>
  match r p with
  | ⟨some a, clean, q⟩ => ⟨some (some a), clean, q⟩
  | ⟨none, _, q⟩ => ⟨some none, false, q.skip stop p.words.length⟩

end Reader

end ExprLang
