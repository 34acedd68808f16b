import ExprLang.Fault
import ExprLang.Lexer.Pattern

/-!
# Cursors over a source text

A cursor is what is left of a text together with the point reached in it.  It is
a plain value: keeping one is enough to return to it later.

Main definitions:

- Definition {lit}`Cursor.take`: moving over a beginning of what is left.
- Definition {lit}`Cursor.consumeSegment?`, {lit}`Cursor.consumeFound?` and
  {lit}`Cursor.consumePattern?`: moving over a beginning that a test, a search or a
  pattern accepts.
-/

namespace ExprLang

/-- A piece of text with its place. -/
structure Lexeme where
  span : Span
  text : List Char
deriving DecidableEq, Repr, Inhabited

namespace Lexeme

/-- The lexeme of no characters at a point. -/
def empty (p : Point) : Lexeme := ⟨p.toSpan, []⟩

/-- Two lexemes that follow each other, as one. -/
def append (a b : Lexeme) : Lexeme := ⟨a.span.through b.span, a.text ++ b.text⟩

end Lexeme

/-- What is left of a text and the point reached in it. -/
structure Cursor where
  rest : List Char
  point : Point
deriving DecidableEq, Repr, Inhabited

namespace Cursor

/-- The cursor at the start of a text. -/
def ofText (text : String) : Cursor := ⟨text.toList, Point.zero⟩

/-- Whether anything is left. -/
def hasMore (c : Cursor) : Bool := !c.rest.isEmpty

/-- The next character. -/
def peek? (c : Cursor) : Option Char := c.rest.head?

/-- Moves over `text`, which begins what is left, to the remaining `rest`. -/
def take (c : Cursor) (text rest : List Char) : Lexeme × Cursor :=
  let point := c.point.advance text
  (⟨⟨c.point, point⟩, text⟩, ⟨rest, point⟩)

@[simp] theorem take_text (c : Cursor) (text rest : List Char) :
    (c.take text rest).1.text = text := rfl

@[simp] theorem take_span (c : Cursor) (text rest : List Char) :
    (c.take text rest).1.span = ⟨c.point, c.point.advance text⟩ := rfl

@[simp] theorem take_rest (c : Cursor) (text rest : List Char) :
    (c.take text rest).2.rest = rest := rfl

@[simp] theorem take_point (c : Cursor) (text rest : List Char) :
    (c.take text rest).2.point = c.point.advance text := rfl

/-- Moves over `n` characters; there have to be that many. -/
def advance (c : Cursor) : Nat → Except Fault Cursor
  | 0 => .ok c
  | n + 1 =>
    match c.rest with
    | [] => .error (.pastEnd c.point)
    | x :: rest => advance ⟨rest, c.point.next x⟩ n

/-- The first `n` characters of a text and the others, if there are that many. -/
def splitExactly? : Nat → List Char → Option (List Char × List Char)
  | 0, cs => some ([], cs)
  | _ + 1, [] => none
  | n + 1, c :: cs => (splitExactly? n cs).map fun (text, rest) => (c :: text, rest)

/-- Nothing is lost where a text is split. -/
theorem append_of_splitExactly? {n : Nat} {cs text rest : List Char}
    (h : splitExactly? n cs = some (text, rest)) : text ++ rest = cs ∧ text.length = n := by
  induction n generalizing cs text with
  | zero => simp_all [splitExactly?]
  | succ n ih =>
    cases cs with
    | nil => simp [splitExactly?] at h
    | cons c cs =>
      simp only [splitExactly?, Option.map_eq_some_iff, Prod.mk.injEq] at h
      obtain ⟨⟨front, back⟩, hs, rfl, rfl⟩ := h
      obtain ⟨ha, hl⟩ := ih hs
      simp [ha, hl]

/-- Moves over the next `n` characters if there are that many and `accepts` holds of
them. -/
def consumeSegment? (c : Cursor) (n : Nat) (accepts : List Char → Bool) :
    Option (Lexeme × Cursor) :=
  match splitExactly? n c.rest with
  | some (text, rest) => if accepts text then some (c.take text rest) else none
  | none => none

/-- Moves over what a search through what is left finds, if that stands at the cursor.  A search
gives the place of its leftmost match and the number of characters of the match. -/
def consumeFound? (c : Cursor) (find? : List Char → Option (Nat × Nat)) :
    Option (Lexeme × Cursor) :=
  match find? c.rest with
  | some (0, n) => c.consumeSegment? n fun _ => true
  | _ => none

/-- Moves over the preferred match of a pattern at the cursor. -/
def consumePattern? (c : Cursor) (p : Pattern) : Option (Lexeme × Cursor) :=
  (p.matchStart? c.rest).map fun (text, rest) => c.take text rest

end Cursor

end ExprLang
