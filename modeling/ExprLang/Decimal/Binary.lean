/-!
# Binary floating-point numbers

A format fixes how many binary digits a number carries and how small and large
the weight of its last digit can be.  A finite number is kept as a sign, a
mantissa and an exponent; every other treatment of it, such as reading a decimal
or choosing digits to write, is exact arithmetic on these.

Main definitions:

- Definition {lit}`Format.round`: the number of a format nearest to a fraction.
- Definition {lit}`Binary.agrees`: equality of numbers, by which a
  not-a-number differs from itself and the two zeros are equal.
-/

namespace ExprLang.Decimal

/-- A binary floating-point format. -/
structure Format where
  /-- Binary digits of a mantissa. -/
  precision : Nat
  /-- The least exponent of the last digit. -/
  minExponent : Int
  /-- The greatest exponent of the last digit. -/
  maxExponent : Int
  /-- Every nonzero number, and half the least, lies between ten to the power of
  minus `reach` and of `reach`. -/
  reach : Nat

/-- The 32-bit format. -/
def Format.single : Format := ⟨24, -149, 104, 60⟩

/-- The 64-bit format. -/
def Format.double : Format := ⟨53, -1074, 971, 400⟩

/-- A number of some format. -/
inductive Binary where
  /-- The number `mantissa * 2 ^ exponent`, with a sign. -/
  | finite (negative : Bool) (mantissa : Nat) (exponent : Int)
  | infinite (negative : Bool)
  | nan (negative : Bool)
deriving DecidableEq, Repr, Inhabited

namespace Binary

/-- Whether the sign is a minus, also of a zero and of a not-a-number. -/
def isNegative : Binary → Bool
  | finite negative _ _ => negative
  | infinite negative => negative
  | nan negative => negative

/-- Whether the number is an infinity. -/
def isInfinite : Binary → Bool
  | infinite _ => true
  | _ => false

/-- Equality of numbers: no not-a-number equals anything, and zeros of either sign
are equal. -/
def agrees : Binary → Binary → Bool
  | nan _, _ => false
  | _, nan _ => false
  | finite _ 0 _, finite _ 0 _ => true
  | x, y => x == y

@[simp] theorem nan_agrees (negative : Bool) (x : Binary) : (nan negative).agrees x = false := by
  cases x <;> rfl

@[simp] theorem agrees_nan (x : Binary) (negative : Bool) : x.agrees (nan negative) = false := by
  cases x <;> rfl

end Binary

/-! ## Rounding a fraction -/

/-- The natural number nearest to `n / d`, the even one of two. -/
def nearestEven (n d : Nat) : Nat :=
  let q := n / d
  let r := n % d
  if 2 * r < d then q
  else if d < 2 * r then q + 1
  else if q % 2 = 0 then q else q + 1

/-- The nearest natural number is off by half a unit at most. -/
theorem nearestEven_bounds (n : Nat) {d : Nat} (h : 0 < d) :
    2 * n ≤ 2 * (nearestEven n d * d) + d ∧ 2 * (nearestEven n d * d) ≤ 2 * n + d := by
  have hd : d * (n / d) + n % d = n := Nat.div_add_mod n d
  have hr : n % d < d := Nat.mod_lt n h
  rw [Nat.mul_comm] at hd
  simp only [nearestEven]
  repeat' split
  all_goals
    try rw [Nat.add_mul, Nat.one_mul]
    omega

/-- The greatest power of two that is at most the positive fraction `n / d`. -/
def floorLog2 (n d : Nat) : Int :=
  let guess : Int := (n.log2 : Int) - d.log2
  if d * Nat.pow 2 guess.toNat ≤ n * Nat.pow 2 (-guess).toNat then guess else guess - 1

/-- The number of the format nearest to `n / d`; of two equally near ones, that with
an even mantissa.  Fractions too large for the format become infinite. -/
def Format.round (f : Format) (negative : Bool) (n d : Nat) : Binary :=
  if n = 0 then .finite negative 0 f.minExponent
  else
    let e := max (floorLog2 n d - (f.precision - 1 : Nat)) f.minExponent
    let m := nearestEven (n * Nat.pow 2 (-e).toNat) (d * Nat.pow 2 e.toNat)
    let (m, e) :=
      if m = Nat.pow 2 f.precision then (Nat.pow 2 (f.precision - 1), e + 1) else (m, e)
    if f.maxExponent < e then .infinite negative else .finite negative m e

end ExprLang.Decimal
