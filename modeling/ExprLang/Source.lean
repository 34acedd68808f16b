/-!
# Sources

A source is a text with a description of where it comes from.  The text of a
file may be out of reach; what is wrong then takes its place.

Main definitions:

- Definitions {lit}`Source.text`, {lit}`Source.anonymous`, {lit}`Source.entry` and
  {lit}`Source.file`: the kinds of sources.
-/

namespace ExprLang

/-- A text, or why there is none, and where it comes from. -/
structure Source where
  description : String
  content : Except String String

namespace Source

/-- A text in memory. -/
def text (description content : String) : Source := ⟨description, .ok content⟩

/-- A text in memory without a name. -/
def anonymous (content : String) : Source := text "<text>" content

/-- An entry at an interactive prompt, by number. -/
def entry (number : Nat) (content : String) : Source := text s!"<repl:{number}>" content

/-- A file, with the outcome of reading it. -/
def file (path : String) (content : Except String String) : Source := ⟨path, content⟩

end Source

end ExprLang
