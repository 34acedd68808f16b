import ExprLang.Decimal.Numeral

/-!
# Shortest decimals

A number of a format is written with the fewest digits that read back to it.
The reals that round to a number form an interval around it, which contains its
ends when the mantissa is even.  For each count of digits the two decimals next
to the number are tried; of two that lie in the interval the nearer one is
taken, and the larger one when both are equally near.

Main definitions:

- Definition {lit}`Scale.shortest`: the digits and their power of ten.
- Definition {lit}`Binary.text`: the number as it is written.
-/

namespace ExprLang.Decimal

/-! ## Comparing decimals with binary numbers -/

/-- Compares `x * 10 ^ e` with `y * 2 ^ s`, exactly. -/
def compareScaled (x : Nat) (e : Int) (y : Nat) (s : Int) : Ordering :=
  compare (x * Nat.pow 10 e.toNat * Nat.pow 2 (-s).toNat)
    (y * Nat.pow 2 s.toNat * Nat.pow 10 (-e).toNat)

/-- A positive number `mantissa * 2 ^ exponent` with the gap to its neighbours. -/
structure Scale where
  mantissa : Nat
  exponent : Int
  /-- The gap below is half the gap above: the number is a power of two. -/
  narrowBelow : Bool
deriving Repr

namespace Scale

/-- Whether the decimal `x * 10 ^ e` rounds to the number. -/
def admits (v : Scale) (x : Nat) (e : Int) : Bool :=
  let below := compareScaled x e (4 * v.mantissa - if v.narrowBelow then 1 else 2) (v.exponent - 2)
  let above := compareScaled x e (4 * v.mantissa + 2) (v.exponent - 2)
  if v.mantissa % 2 = 0 then below.isGE && above.isLE else below.isGT && above.isLT

/-- The power of ten just above the number: the least `k` with the number below
`10 ^ k`. -/
def magnitude (v : Scale) : Int :=
  let n := v.mantissa * Nat.pow 2 v.exponent.toNat
  let d := Nat.pow 2 (-v.exponent).toNat
  if d ≤ n then (Nat.toDigits 10 (n / d)).length
  else 1 - (Nat.toDigits 10 ((d + n - 1) / n - 1)).length

/-- The greatest `x` with `x * 10 ^ e` at most the number. -/
def floorAt (v : Scale) (e : Int) : Nat :=
  (v.mantissa * Nat.pow 2 v.exponent.toNat * Nat.pow 10 (-e).toNat) /
    (Nat.pow 2 (-v.exponent).toNat * Nat.pow 10 e.toNat)

/-- The decimal of `count` digits to write, if one of them reads back. -/
def ofCount? (v : Scale) (count : Nat) : Option (Nat × Int) :=
  let e := v.magnitude - count
  let x := v.floorAt e
  match v.admits x e, v.admits (x + 1) e with
  | true, true =>
    if (compareScaled (2 * x + 1) e (2 * v.mantissa) v.exponent).isGT then some (x, e)
    else some (x + 1, e)
  | true, false => some (x, e)
  | false, true => some (x + 1, e)
  | false, false => none

/-- Moves factors of ten from the digits to the power; the first argument bounds how
many. -/
def stripZeros : Nat → Nat × Int → Nat × Int
  | 0, d => d
  | n + 1, (x, e) => if x % 10 = 0 then stripZeros n (x / 10, e + 1) else (x, e)

/-- The shortest decimal that reads back.  Seventeen digits suffice for the formats
here; the exact value stands in where they should not. -/
def shortest (v : Scale) : Nat × Int :=
  match (List.range 17).findSome? fun i => v.ofCount? (i + 1) with
  | some d => stripZeros 17 d
  | none =>
    (v.mantissa * Nat.pow 2 v.exponent.toNat * Nat.pow 5 (-v.exponent).toNat, min v.exponent 0)

end Scale

/-! ## Writing -/

/-- How numbers are written. -/
structure Layout where
  /-- The least power of ten of a leading digit that is written without a power. -/
  leastPlain : Int
  /-- The greatest such power of ten. -/
  greatestPlain : Int

/-- Numbers from `0.0001` to below `10 ^ 16` are written without a power of ten. -/
def Layout.listing : Layout := ⟨-4, 15⟩

/-- The decimal `x * 10 ^ e` without a power of ten, always with a point. -/
def plainText (digits : List Char) (e : Int) : List Char :=
  if 0 ≤ e then digits ++ List.replicate e.toNat '0' ++ ['.', '0']
  else
    let places := (-e).toNat
    if places < digits.length then
      digits.take (digits.length - places) ++ '.' :: digits.drop (digits.length - places)
    else ['0', '.'] ++ List.replicate (places - digits.length) '0' ++ digits

/-- The decimal with one digit before the point and a power of ten. -/
def powerText (digits : List Char) (power : Int) : List Char :=
  let fraction := digits.drop 1
  digits.take 1 ++ (if fraction.isEmpty then [] else '.' :: fraction) ++
    'e' :: (toString power).toList

/-- The absolute value of a finite number as it is written. -/
def magnitudeText (layout : Layout) (v : Scale) : List Char :=
  let (x, e) := v.shortest
  let digits := Nat.toDigits 10 x
  let power := e + digits.length - 1
  if layout.leastPlain ≤ power ∧ power ≤ layout.greatestPlain then plainText digits e
  else powerText digits power

/-- A number of the format `f` as it is written. -/
def Binary.text (f : Format) : Binary → String
  | .nan _ => "NaN"
  | .infinite negative => if negative then "-inf" else "inf"
  | .finite negative mantissa exponent =>
    let narrow := decide (mantissa = Nat.pow 2 (f.precision - 1) ∧ f.minExponent < exponent)
    let body :=
      if mantissa = 0 then ['0', '.', '0']
      else magnitudeText .listing ⟨mantissa, exponent, narrow⟩
    String.ofList (if negative then '-' :: body else body)

end ExprLang.Decimal
