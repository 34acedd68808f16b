/-!
# Positions in a source text

A {lit}`Point` names a place between two characters of a text and a {lit}`Span`
the stretch between two points.  Lines and columns are counted in characters,
offsets in bytes, all of them from zero; they are written from one.

Main definitions:

- Definition {lit}`Point.advance`: the point reached by walking over characters.
  A point of a text is genuine when it is reached from {lit}`Point.zero` by
  walking over a prefix of that text.
- Definition {lit}`Span.through`: the stretch from the start of one span to the
  end of another.
-/

namespace ExprLang

/-! ## Points -/

/-- A place in a source text: line and column in characters, offset in bytes. -/
structure Point where
  line : Nat
  column : Nat
  offset : Nat
deriving DecidableEq, Repr, Inhabited

namespace Point

/-- The start of every text. -/
def zero : Point := ⟨0, 0, 0⟩

/-- The point after the character `c`: a newline starts the next line. -/
def next (p : Point) (c : Char) : Point :=
  if c = '\n' then ⟨p.line + 1, 0, p.offset + c.utf8Size⟩
  else ⟨p.line, p.column + 1, p.offset + c.utf8Size⟩

/-- The point after all of `cs`. -/
def advance (p : Point) (cs : List Char) : Point :=
  cs.foldl next p

/-- Points are ordered by line, then column; the offset takes no part. -/
def compare (p q : Point) : Ordering :=
  (Ord.compare p.line q.line).then (Ord.compare p.column q.column)

/-- Points are written from one, as `line:column`. -/
instance : ToString Point where
  toString p := s!"{p.line + 1}:{p.column + 1}"

@[simp] theorem next_newline (p : Point) :
    p.next '\n' = ⟨p.line + 1, 0, p.offset + 1⟩ := rfl

/-- Any character but a newline stays on its line. -/
theorem next_of_ne (p : Point) {c : Char} (h : c ≠ '\n') :
    p.next c = ⟨p.line, p.column + 1, p.offset + c.utf8Size⟩ := by
  simp [next, h]

@[simp] theorem next_offset (p : Point) (c : Char) :
    (p.next c).offset = p.offset + c.utf8Size := by
  unfold next
  split <;> rfl

@[simp] theorem advance_nil (p : Point) : p.advance [] = p := rfl

@[simp] theorem advance_cons (p : Point) (c : Char) (cs : List Char) :
    p.advance (c :: cs) = (p.next c).advance cs := rfl

@[simp] theorem advance_append (p : Point) (xs ys : List Char) :
    p.advance (xs ++ ys) = (p.advance xs).advance ys := by
  simp [advance, List.foldl_append]

/-- The offset counts the bytes of what was walked over. -/
theorem advance_offset (p : Point) (cs : List Char) :
    (p.advance cs).offset = p.offset + cs.foldr (fun c n => c.utf8Size + n) 0 := by
  induction cs generalizing p with
  | nil => simp
  | cons c cs ih => simp [ih, Nat.add_assoc]

end Point

/-! ## Spans -/

/-- The stretch of text between two points. -/
structure Span where
  start : Point
  stop : Point
deriving DecidableEq, Repr, Inhabited

/-- The empty span at a point. -/
def Point.toSpan (p : Point) : Span := ⟨p, p⟩

namespace Span

/-- The empty span at the start of a text. -/
def zero : Span := Point.zero.toSpan

/-- How many lines the span touches. -/
def lineCount (s : Span) : Nat :=
  s.stop.line - s.start.line + 1

/-- The length of the span in bytes. -/
def byteLength (s : Span) : Nat :=
  s.stop.offset - s.start.offset

/-- A span is empty when it covers no byte. -/
def isEmpty (s : Span) : Bool :=
  s.byteLength == 0

/-- From the start of one span to the end of another. -/
def through (s t : Span) : Span :=
  ⟨s.start, t.stop⟩

/-- Spans are ordered by their starts, then by their ends. -/
def compare (s t : Span) : Ordering :=
  (s.start.compare t.start).then (s.stop.compare t.stop)

/-- A span is written as the point where it starts. -/
instance : ToString Span where
  toString s := toString s.start

@[simp] theorem through_start (s t : Span) : (s.through t).start = s.start := rfl

@[simp] theorem through_stop (s t : Span) : (s.through t).stop = t.stop := rfl

end Span

end ExprLang
