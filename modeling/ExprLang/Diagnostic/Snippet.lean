import ExprLang.Diagnostic.Basic
import ExprLang.Text.Lines
import ExprLang.Text.Spacing

/-!
# Diagnostics with the text they are about

On a terminal a diagnostic is followed by the line of the text where it begins,
underlined from there on.  Parts of it can be styled.

Main definitions:

- Definition {lit}`Diagnostic.snippet`: a diagnostic with its line.
- Definition {lit}`Report.snippets`: all diagnostics of a report.
-/

namespace ExprLang

/-! ## Styles -/

/-- How a piece of terminal output looks. -/
inductive Style where
  | bold | boldRed | boldYellow | red | yellow
deriving DecidableEq, Repr, Inhabited

namespace Style

/-- The sequence that begins a style. -/
def opening : Style → String
  | bold => "\x1b[1m"
  | boldRed => "\x1b[1;31m"
  | boldYellow => "\x1b[1;33m"
  | red => "\x1b[31m"
  | yellow => "\x1b[33m"

/-- The sequence that ends every style. -/
def closing : String := "\x1b[0m"

/-- A piece of output in a style, or as it is without colors.  A style that ends inside the
piece begins again. -/
def apply (style : Style) (colors : Bool) (text : String) : String :=
  if colors then
    style.opening ++ text.replace closing (closing ++ style.opening) ++ closing
  else text

@[simp] theorem apply_false (style : Style) (text : String) : style.apply false text = text := rfl

end Style

/-! ## Snippets -/

namespace Diagnostic

/-- The style of the heading. -/
def headingStyle : Severity → Style
  | .error => .boldRed
  | .warning => .boldYellow

/-- How far to underline on `line`: the length of the span if it ends there, else the rest of
the line, and at least one place. -/
def underlineWidth (d : Diagnostic) (line : List Char) : Nat :=
  if d.span.lineCount = 1 then max d.span.byteLength 1
  else max (line.length - d.span.start.column) 1

/-- A diagnostic followed by the line of `text` where it begins, if there is one. -/
def snippet (d : Diagnostic) (text : String) (colors : Bool) : String :=
  let bold := Style.bold.apply colors
  let heading := (headingStyle d.severity).apply colors s!"{d.severity}[{d.topic}]:"
  let arrow := bold "-->"
  let bar := bold "|"
  let first := s!"{heading} {bold d.message}\n"
  match (Text.lines text.toList)[d.span.start.line]? with
  | none => s!"{first} {arrow} {d.source}\n"
  | some line =>
    let number := toString (d.span.start.line + 1)
    let margin := Text.repeated (number.length + 1) ' '
    let indent := Text.repeated d.span.start.column ' '
    let underline := Style.boldRed.apply colors (Text.repeated (d.underlineWidth line) '^')
    first
      ++ s!"{margin}{arrow} {d.source}:{d.span}\n"
      ++ s!"{margin}{bar}\n"
      ++ s!"{bold number} {bar} {String.ofList line}\n"
      ++ s!"{margin}{bar} {indent}{underline}\n\n"

end Diagnostic

/-- Every diagnostic of a report with its line of `text`. -/
def Report.snippets (r : Report) (text : String) (colors : Bool) : String :=
  String.join (r.records.map fun d => d.snippet text colors)

end ExprLang
