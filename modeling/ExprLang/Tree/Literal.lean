import ExprLang.Decimal.Shortest
import ExprLang.Fault
import ExprLang.Token.Kind

/-!
# Literals

A literal is a value written out in a source text.  It is read from a token and
written as source text again.

Main definitions:

- Definition {lit}`Literal.ofToken`: the value that a token writes.
- Definition {lit}`Literal.agrees`: equality of values.
- The instance {lit}`ToString Literal`: the source text of a value.
-/

namespace ExprLang

open Decimal

/-- A value written out in a source text. -/
inductive Literal where
  | boolean (value : Bool)
  | int (value : Int)
  | long (value : Int)
  | float (value : Binary)
  | double (value : Binary)
  | string (value : String)
  | symbol (name : String)
deriving DecidableEq, Repr, Inhabited

/-- Why a text is no literal. -/
inductive LiteralError where
  | intOutOfRange (text : String)
  | longOutOfRange (text : String)
  | floatMalformed (text : String) (error : NumeralError)
  | floatOutOfRange (text : String)
  | doubleMalformed (text : String) (error : NumeralError)
  | doubleOutOfRange (text : String)
  | notLiteral (kind : TokenKind)
deriving DecidableEq, Repr

/-- The wording of a literal error. -/
def LiteralError.message : LiteralError → String
  | .intOutOfRange text => s!"integer literal `{text}` is out of range"
  | .longOutOfRange text => s!"long literal `{text}` is out of range"
  | .floatMalformed text error => s!"invalid float literal `{text}`: {error.message}"
  | .floatOutOfRange text => s!"float literal `{text}` is out of range"
  | .doubleMalformed text error => s!"invalid double literal `{text}`: {error.message}"
  | .doubleOutOfRange text => s!"double literal `{text}` is out of range"
  | .notLiteral kind => s!"{kind} is not a literal"

namespace Literal

/-! ## Reading -/

/-- The number of bytes of a text. -/
def byteCount (cs : List Char) : Nat :=
  cs.foldr (fun c n => c.utf8Size + n) 0

/-- A numeral text without its suffix, which takes up the last byte. -/
def withoutSuffix (cs : List Char) : Except Fault (List Char) :=
  match cs.getLast? with
  | none => .error .suffixTooLong
  | some c =>
    if c.utf8Size = 1 then .ok cs.dropLast
    else .error (.suffixInsideCharacter (byteCount cs - 1) c (byteCount cs.dropLast))

/-- A numeral text without the underscores that group its digits. -/
def withoutGrouping (cs : List Char) : List Char :=
  cs.filter (· != '_')

/-- The integer of so many bits that a text writes. -/
def readInteger? (bits : Nat) (cs : List Char) : Option Int := do
  let value ← integer? (withoutGrouping cs)
  if -(Nat.pow 2 (bits - 1) : Int) ≤ value ∧ value < Nat.pow 2 (bits - 1) then some value else none

/-- The number of a format that a text writes. -/
def readBinary (f : Format) (cs : List Char) : Except NumeralError Binary :=
  (Numeral.read (withoutGrouping cs)).map (Numeral.round f)

/-- The value that a token of some kind and text writes. -/
def ofToken (kind : TokenKind) (text : String) : Except Fault (Except LiteralError Literal) :=
  match kind with
  | .wordTrue => .ok (.ok (.boolean true))
  | .wordFalse => .ok (.ok (.boolean false))
  | .intLiteral =>
    match readInteger? 32 text.toList with
    | some value => .ok (.ok (.int value))
    | none => .ok (.error (.intOutOfRange text))
  | .longLiteral => do
    match readInteger? 64 (← withoutSuffix text.toList) with
    | some value => .ok (.ok (.long value))
    | none => .ok (.error (.longOutOfRange text))
  | .floatLiteral => do
    match readBinary .single (← withoutSuffix text.toList) with
    | .error error => .ok (.error (.floatMalformed text error))
    | .ok value =>
      if value.isInfinite then .ok (.error (.floatOutOfRange text))
      else .ok (.ok (.float value))
  | .doubleLiteral =>
    match readBinary .double text.toList with
    | .error error => .ok (.error (.doubleMalformed text error))
    | .ok value =>
      if value.isInfinite then .ok (.error (.doubleOutOfRange text))
      else .ok (.ok (.double value))
  | .symbolLiteral =>
    .ok (.ok (.symbol (String.ofList (text.toList.dropWhile (· == '\'')))))
  | kind => .ok (.error (.notLiteral kind))

/-! ## Writing -/

/-- A literal is written as source text. -/
instance : ToString Literal where
  toString
    | .boolean value => if value then "true" else "false"
    | .int value => toString value
    | .long value => s!"{value}L"
    | .float value => s!"{value.text .single}f"
    | .double value => value.text .double
    | .string value => s!"\"{Text.escapeString value}\""
    | .symbol name => s!"'{name}"

/-! ## Properties of values -/

/-- The name of the type of a literal. -/
def typeName : Literal → String
  | .boolean _ => "Boolean"
  | .int _ => "Int"
  | .long _ => "Long"
  | .float _ => "Float"
  | .double _ => "Double"
  | .string _ => "String"
  | .symbol _ => "Symbol"

/-- Equality of values; numbers with a fraction are compared as numbers. -/
def agrees : Literal → Literal → Bool
  | .float x, .float y => x.agrees y
  | .double x, .double y => x.agrees y
  | x, y => x == y

/-- Whether the literal is a number. -/
def isNumber : Literal → Bool
  | .int _ | .long _ | .float _ | .double _ => true
  | _ => false

/-- Whether the literal is written with a minus sign. -/
def isNegative : Literal → Bool
  | .int value | .long value => value < 0
  | .float value | .double value => value.isNegative
  | _ => false

end Literal

end ExprLang
