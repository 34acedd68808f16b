import ExprLang.Lexer.Cursor

/-!
# Fragments

A fragment describes a piece of text to be moved over.  Fragments are built from
fixed texts, patterns and searches by sequence, choice and repetition.  Matching one is
atomic: either it yields the lexeme and the cursor behind it, or nothing.

Main definitions:

- Definition {lit}`Fragment.match?`: moving over a fragment.
-/

namespace ExprLang

/-- A description of a piece of text. -/
inductive Fragment where
  /-- Exactly this text. -/
  | literal (text : List Char)
  /-- The preferred match of a pattern. -/
  | pattern (p : Pattern)
  /-- What a search through the text finds, where that stands at its start.  This admits the
  expressions of any engine; it gives the place of the leftmost match and its length. -/
  | search (find? : List Char → Option (Nat × Nat))
  /-- One fragment after another. -/
  | both (first second : Fragment)
  /-- The first fragment that matches. -/
  | either (first second : Fragment)
  /-- A fragment as often as it matches, possibly never. -/
  | zeroOrMore (item : Fragment)
  /-- A fragment as often as it matches, at least once. -/
  | oneOrMore (item : Fragment)
deriving Inhabited

namespace Fragment

/-- A fragment or nothing. -/
def optional (item : Fragment) : Fragment :=
  .either item (.literal [])

/-- Fragments one after another, grouped to the left; no fragments match nothing. -/
def sequence : List Fragment → Fragment
  | [] => .literal []
  | first :: others => others.foldl .both first

/-- Extends `sofar` by matches of `item` until there is none or an empty one.  The first
argument bounds the number of matches: one character is used up by each. -/
def repeatFrom (item : Cursor → Option (Lexeme × Cursor)) :
    List Char → Lexeme → Cursor → Lexeme × Cursor
  | [], sofar, c => (sofar, c)
  | _ :: bound, sofar, c =>
    match item c with
    | none => (sofar, c)
    | some (next, after) =>
      if next.span.isEmpty then (sofar, after)
      else repeatFrom item bound (sofar.append next) after

/-- Moves over a fragment at the cursor. -/
def match? : Fragment → Cursor → Option (Lexeme × Cursor)
  | .literal text, c => c.consumeSegment? text.length (· == text)
  | .pattern p, c => c.consumePattern? p
  | .search find?, c => c.consumeFound? find?
  | .both first second, c =>
    match first.match? c with
    | none => none
    | some (a, middle) =>
      match second.match? middle with
      | none => none
      | some (b, after) => some (a.append b, after)
  | .either first second, c => (first.match? c).or (second.match? c)
  | .zeroOrMore item, c => some (repeatFrom item.match? c.rest (.empty c.point) c)
  | .oneOrMore item, c =>
    match item.match? c with
    | none => none
    | some (first, after) => some (repeatFrom item.match? after.rest first after)

/-- An optional fragment always matches. -/
theorem isSome_match?_optional (item : Fragment) (c : Cursor) :
    ((optional item).match? c).isSome := by
  simp [optional, match?, Cursor.consumeSegment?, Cursor.splitExactly?]

end Fragment

end ExprLang
