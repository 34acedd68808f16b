import ExprLang.Diagnostic.Snippet
import ExprLang.Parser.Entry
import ExprLang.Tree.Listing
import ExprLang.Tree.Render

/-!
# The command line

The program lists the tokens of a source, or parses it and prints the tree as a
listing or as source text.  The source is a file or the standard input.  What
the program does is a function of its arguments and of what can be read.

Main definitions:

- Definition {lit}`Command.ofArguments?`: the command that arguments give.
- Definition {lit}`Command.run`: what a command prints.
-/

namespace ExprLang

/-! ## Commands -/

/-- What the program is asked to do.  Without a path it reads the standard input. -/
inductive Command where
  | tokens (path : Option String)
  | parse (path : Option String) (entry : Entry) (options : ParseOptions) (asSource : Bool)
deriving DecidableEq, Repr, Inhabited

/-- Arguments of the program, sorted out. -/
structure Arguments where
  path : Option String := none
  expression : Bool := false
  statement : Bool := false
  keepGoing : Bool := true
  maxErrors : Option Nat := none
  asSource : Bool := false
deriving DecidableEq, Repr, Inhabited

namespace Arguments

/-- Adds a path, of which there may be one. -/
def addPath (a : Arguments) (path : String) : Option Arguments :=
  match a.path with
  | none => some { a with path := some path }
  | some _ => none

/-- Adds a limit on errors, of which there may be one. -/
def addLimit (a : Arguments) (text : String) : Option Arguments :=
  match a.maxErrors, Decimal.integer? text.toList with
  | none, some limit =>
    if 0 ≤ limit ∧ limit < UInt64.size ∧ !text.startsWith "-" then
      some { a with maxErrors := some limit.toNat }
    else none
  | _, _ => none

/-- Adds an option, which may be given once; two entries exclude each other. -/
def addOption (a : Arguments) (text : String) : Option Arguments :=
  if text = "--expr" && !a.expression && !a.statement then some { a with expression := true }
  else if text = "--statement" && !a.expression && !a.statement then
    some { a with statement := true }
  else if text = "--no-recover" && a.keepGoing then some { a with keepGoing := false }
  else if text = "--render" && !a.asSource then some { a with asSource := true }
  else if text.startsWith "--max-errors=" then a.addLimit (text.drop 13).toString
  else none

/-- Sorts arguments out.  `hasOptions` says whether the command has options. -/
def read (hasOptions : Bool) (a : Arguments) : List String → Option Arguments
  | [] => some a
  | "--" :: paths => paths.foldlM addPath a
  | "--max-errors" :: limit :: rest =>
    if hasOptions then (a.addLimit limit).bind fun a => read hasOptions a rest else none
  | text :: rest =>
    if text.startsWith "-" && text != "-" then
      if hasOptions then (a.addOption text).bind fun a => read hasOptions a rest else none
    else (a.addPath text).bind fun a => read hasOptions a rest

/-- What a source is parsed as. -/
def entry (a : Arguments) : Entry :=
  if a.expression then .expression else if a.statement then .statement else .unit

/-- The options of a parse. -/
def options (a : Arguments) : ParseOptions :=
  { recover := a.keepGoing, maxErrors := a.maxErrors }

end Arguments

/-- The command that arguments give, if they give one. -/
def Command.ofArguments? : List String → Option Command
  | "tokens" :: rest => (Arguments.read false {} rest).map fun a => .tokens a.path
  | "parse" :: rest =>
    (Arguments.read true {} rest).map fun a => .parse a.path a.entry a.options a.asSource
  | _ => none

/-! ## Running -/

/-- What can be read: the standard input, and files by path, or what is wrong with them. -/
structure Inputs where
  standard : Except String String
  file : String → Except String String

/-- What a command leaves behind. -/
structure Outcome where
  code : Nat
  stdout : String
  stderr : String
deriving DecidableEq, Repr, Inhabited

namespace Command

/-- A line about an error of the program itself. -/
def errorLine (colors : Bool) (text : String) : String :=
  Style.red.apply colors "error:" ++ s!" {text}\n"

/-- A line about a flaw in a source. -/
def warningLine (colors : Bool) (text : String) : String :=
  Style.yellow.apply colors "warn:" ++ s!" {text}\n"

/-- The source at a path, or the standard input, which has to be readable. -/
def source (inputs : Inputs) : Option String → Except String Source
  | some path => .ok (.file path (inputs.file path))
  | none => inputs.standard.map (.text "<stdin>")

/-- The outcome when the standard input cannot be read. -/
def noInput (colors : Bool) (message : String) : Outcome :=
  ⟨1, "", errorLine colors s!"could not read standard input: {message}"⟩

/-- The line that shows a token. -/
def tokenLine (token : Token) : String :=
  let place := Text.padRight 8 (toString token.span.start)
  let kind := Text.padRight 20 token.kind.name
  s!"{place} {kind} {Text.quote token.text}\n"

/-- The line about a token that is no part of the language. -/
def tokenWarning (colors : Bool) (description : String) (token : Token) : Option String :=
  (token.kind.unexpectedMessage? token.text).map fun message =>
    warningLine colors s!"{description}:{token.span}: {message}"

/-- Lists the tokens of a source. -/
def runTokens (colors : Bool) (source : Source) : Outcome :=
  match source.content with
  | .error message =>
    ⟨1, "", errorLine colors s!"could not read {source.description}: {message}"⟩
  | .ok text =>
    let tokens := tokenize text
    let warnings := tokens.filterMap (tokenWarning colors source.description)
    ⟨if warnings.isEmpty then 0 else 1, String.join (tokens.map tokenLine),
      String.join warnings⟩

/-- Parses a source and shows its tree. -/
def runParse (colors : Bool) (entry : Entry) (options : ParseOptions) (asSource : Bool)
    (source : Source) : Except Fault Outcome := do
  match source.content with
  | .error message =>
    let d := Diagnostic.unreadable source.description message
    pure ⟨1, "", d.snippet "" colors⟩
  | .ok text =>
    match ← parseText entry options source.description text with
    | .ok parsed =>
      let shown ←
        if asSource then pure (parsed.arena.render parsed.root) else parsed.arena.dump parsed.root
      pure ⟨0, shown ++ "\n", parsed.warnings.snippets text colors⟩
    | .error report =>
      pure ⟨1, "", report.snippets text colors
        ++ errorLine colors s!"{report.errorCount} errors emitted"⟩

/-- What a command prints, and the code it ends with. -/
def run (colors : Bool) (inputs : Inputs) : Command → Except Fault Outcome
  | .tokens path =>
    match source inputs path with
    | .error message => pure (noInput colors message)
    | .ok source => pure (runTokens colors source)
  | .parse path entry options asSource =>
    match source inputs path with
    | .error message => pure (noInput colors message)
    | .ok source => runParse colors entry options asSource source

end Command

end ExprLang
