import ExprLang.CommandLine

/-!
# The program

Reads what a command needs, runs it and prints its outcome.
-/

namespace ExprLang

/-- The bytes of a source as text. -/
def decodeInput (bytes : ByteArray) : Except String String :=
  match String.fromUTF8? bytes with
  | some text => .ok text
  | none => .error "stream did not contain valid UTF-8"

/-- The wording of a failure to read. -/
def inputErrorMessage : IO.Error → String
  | .noFileOrDirectory .. => "No such file or directory (os error 2)"
  | .inappropriateType .. => "Is a directory (os error 21)"
  | .permissionDenied .. => "Permission denied (os error 13)"
  | e => toString e

/-- Reads a file. -/
def readFile (path : String) : IO (Except String String) := do
  try
    return decodeInput (← IO.FS.readBinFile path)
  catch e => return .error (inputErrorMessage e)

/-- Reads what a command needs. -/
def readInputs (path : Option String) : IO Inputs := do
  match path with
  | some path =>
    let content ← readFile path
    return ⟨.ok "", fun _ => content⟩
  | none =>
    let bytes ← (← IO.getStdin).readBinToEnd
    return ⟨decodeInput bytes, fun _ => .ok ""⟩

/-- The path that a command reads. -/
def Command.path : Command → Option String
  | .tokens path => path
  | .parse path .. => path

end ExprLang

open ExprLang in
/-- Runs the command that the arguments give. -/
def main (arguments : List String) : IO UInt32 := do
  match Command.ofArguments? arguments with
  | none =>
    IO.eprintln <| "usage: (tokens | parse [--expr | --statement] [--no-recover] "
      ++ "[--max-errors N] [--render]) [FILE]"
    return 1
  | some command =>
    let colors ← (← IO.getStdout).isTty
    match command.run colors (← readInputs command.path) with
    | .error fault =>
      IO.eprintln fault.message
      return 101
    | .ok outcome =>
      IO.print outcome.stdout
      IO.eprint outcome.stderr
      return outcome.code.toUInt32
