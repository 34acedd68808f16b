import ExprLang.Decimal.Binary

/-!
# Numerals

A numeral is the text of a decimal number: digits with an optional point and an
optional power of ten, or a word for an infinity or a not-a-number.  Reading one
gives an exact decimal, which a format then rounds once.

Main definitions:

- Definition {lit}`Numeral.read`: the numeral that a text writes.
- Definition {lit}`Numeral.round`: the nearest number of a format.
-/

namespace ExprLang.Decimal

/-- What a numeral text stands for. -/
inductive Numeral where
  /-- The decimal `coefficient * 10 ^ exponent`, with a sign. -/
  | decimal (negative : Bool) (coefficient : Nat) (exponent : Int)
  | infinite (negative : Bool)
  | nan (negative : Bool)
deriving DecidableEq, Repr

/-- Why a text is no numeral. -/
inductive NumeralError where
  | empty
  | malformed
deriving DecidableEq, Repr

/-- The wording of a numeral error. -/
def NumeralError.message : NumeralError → String
  | .empty => "cannot parse float from empty string"
  | .malformed => "invalid float literal"

/-! ## Digits -/

/-- The ASCII digits. -/
def isDigit (c : Char) : Bool :=
  '0' ≤ c && c ≤ '9'

/-- The value of a run of digits, continuing from `n`. -/
def digitsFrom (n : Nat) (cs : List Char) : Nat :=
  cs.foldl (fun n c => 10 * n + (c.toNat - '0'.toNat)) n

/-- The integer that digits write after an optional sign. -/
def integer? : List Char → Option Int
  | '-' :: cs => if !cs.isEmpty && cs.all isDigit then some (-(digitsFrom 0 cs : Int)) else none
  | '+' :: cs => if !cs.isEmpty && cs.all isDigit then some (digitsFrom 0 cs : Int) else none
  | cs => if !cs.isEmpty && cs.all isDigit then some (digitsFrom 0 cs : Int) else none

/-! ## Reading -/

namespace Numeral

/-- Digits, an optional point with more digits, and an optional power of ten; at least
one digit before the power. -/
def readDecimal? (negative : Bool) (cs : List Char) : Option Numeral :=
  let whole := cs.takeWhile isDigit
  let (fraction, rest) :=
    match cs.dropWhile isDigit with
    | '.' :: more => (more.takeWhile isDigit, more.dropWhile isDigit)
    | more => ([], more)
  let coefficient := digitsFrom 0 (whole ++ fraction)
  if whole.isEmpty && fraction.isEmpty then none
  else
    match rest with
    | [] => some (.decimal negative coefficient (-(fraction.length : Int)))
    | c :: power =>
      if c = 'e' ∨ c = 'E' then
        (integer? power).map fun e => .decimal negative coefficient (e - fraction.length)
      else none

/-- The words for an infinity and a not-a-number, in any case. -/
def readWord? (negative : Bool) (cs : List Char) : Option Numeral :=
  let word := cs.map Char.toLower
  if word = ['i', 'n', 'f'] ∨ word = ['i', 'n', 'f', 'i', 'n', 'i', 't', 'y'] then
    some (.infinite negative)
  else if word = ['n', 'a', 'n'] then some (.nan negative)
  else none

/-- A numeral after its sign. -/
def readUnsigned (negative : Bool) (cs : List Char) : Except NumeralError Numeral :=
  match (readDecimal? negative cs).or (readWord? negative cs) with
  | some numeral => .ok numeral
  | none => .error .malformed

/-- The numeral that a text writes. -/
def read : List Char → Except NumeralError Numeral
  | [] => .error .empty
  | '-' :: cs => readUnsigned true cs
  | '+' :: cs => readUnsigned false cs
  | cs => readUnsigned false cs

/-! ## Rounding -/

/-- The number of the format nearest to the numeral.  Powers of ten beyond the reach of
the format are not computed. -/
def round (f : Format) : Numeral → Binary
  | infinite negative => .infinite negative
  | nan negative => .nan negative
  | decimal negative coefficient exponent =>
    let magnitude : Int := (Nat.toDigits 10 coefficient).length + exponent
    if coefficient = 0 ∨ magnitude < -(f.reach : Int) then f.round negative 0 1
    else if (f.reach : Int) < magnitude then .infinite negative
    else
      f.round negative (coefficient * Nat.pow 10 exponent.toNat) (Nat.pow 10 (-exponent).toNat)

end Numeral

end ExprLang.Decimal
