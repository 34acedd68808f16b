/-!
# The lines of a text

A line ends at a newline, or at a carriage return followed by one; a text that
ends in a newline has no empty line after it.

Main definitions:

- Definition {lit}`Text.lines`: the lines without what ends them.
-/

namespace ExprLang.Text

/-- Splits off the first line: its characters, and what follows if a newline ended it. -/
def firstLine : List Char → List Char × Option (List Char)
  | [] => ([], none)
  | '\n' :: cs => ([], some cs)
  | '\r' :: '\n' :: cs => ([], some cs)
  | c :: cs => let (line, rest) := firstLine cs; (c :: line, rest)

/-- A line that nothing ends is the whole text. -/
theorem firstLine_none {cs line : List Char} (h : firstLine cs = (line, none)) : line = cs := by
  fun_induction firstLine cs generalizing line <;> simp_all

/-- The lines of a text; the first argument bounds their number. -/
def linesWithin : Nat → List Char → List (List Char)
  | 0, _ => []
  | _ + 1, [] => []
  | n + 1, cs =>
    match firstLine cs with
    | (line, none) => [line]
    | (line, some rest) => line :: linesWithin n rest

/-- The lines of a text, without their ends. -/
def lines (cs : List Char) : List (List Char) :=
  linesWithin cs.length cs

@[simp] theorem lines_nil : lines [] = [] := rfl

end ExprLang.Text
