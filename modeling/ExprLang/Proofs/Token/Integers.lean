import ExprLang.Proofs.Lexer.Numerals
import ExprLang.Proofs.Token.Negation
import Mathlib.Data.Nat.Digits.Defs

/-!
# Values of integers

The digits of an integer may be grouped by underscores, and begin with zeros.  A
token of digits has the value that they write in base ten if its type holds that,
and with a minus sign before it the negative of the value if its type holds this.

Main definitions:

- Definition {lit}`IntegerType`: the types of integers.
- Definition {lit}`groupedValue`: the value of grouped digits.

Main results:

- Theorem {lit}`Literal.ofToken_integer`: the values of integers.
-/

namespace ExprLang

open Decimal

/-! ## Types -/

/-- A type of integers. -/
inductive IntegerType where
  | int | long
deriving DecidableEq, Repr

namespace IntegerType

/-- The kind of its tokens. -/
def kind : IntegerType → TokenKind
  | int => .intLiteral
  | long => .longLiteral

/-- What is written behind the digits. -/
def suffix : IntegerType → String
  | int => ""
  | long => "L"

/-- The literal with a value of the type. -/
def literal : IntegerType → Int → Literal
  | int => .int
  | long => .long

/-- The size of a value in bits. -/
def bits : IntegerType → Nat
  | int => 32
  | long => 64

/-- Whether a number is a value of the type. -/
def Holds : IntegerType → Int → Prop
  | int, x => -2 ^ 31 ≤ x ∧ x ≤ 2 ^ 31 - 1
  | long, x => -2 ^ 63 ≤ x ∧ x ≤ 2 ^ 63 - 1

instance (type : IntegerType) (x : Int) : Decidable (type.Holds x) :=
  match type with
  | int => inferInstanceAs (Decidable (_ ∧ _))
  | long => inferInstanceAs (Decidable (_ ∧ _))

/-- The values are those of so many bits. -/
theorem holds_iff (type : IntegerType) (x : Int) : type.Holds x ↔
    -(Nat.pow 2 (type.bits - 1) : Int) ≤ x ∧ x < Nat.pow 2 (type.bits - 1) := by
  cases type <;> norm_num [Holds, bits] <;> omega

end IntegerType

/-! ## Digits -/

/-- The number that grouped digits write in base ten. -/
def groupedValue (cs : List Char) : Nat :=
  Nat.ofDigits 10 ((cs.filter (· != '_')).map fun c => c.toNat - '0'.toNat).reverse

/-- Digits are read from the first to the last. -/
theorem Decimal.digitsFrom_eq_ofDigits (cs : List Char) :
    digitsFrom 0 cs = Nat.ofDigits 10 (cs.map fun c => c.toNat - '0'.toNat).reverse := by
  rw [Nat.ofDigits_eq_foldr, List.foldr_reverse, List.foldl_map]
  simp only [digitsFrom, Nat.cast_id, Nat.add_comm]

/-- Digits write a number. -/
theorem IsDigits.integer?_eq {ds : List Char} (h : IsDigits ds) :
    integer? ds = some (digitsFrom 0 ds : Int) := by
  have hall : ds.all isDigit = true := List.all_eq_true.2 h.2
  unfold integer?
  split
  · cases hall
  · cases hall
  · exact if_pos (by simp [h.1, hall])

/-- Without the underscores grouped digits are digits. -/
theorem IsGrouped.isDigits {cs : List Char} (h : IsGrouped cs) :
    IsDigits (Literal.withoutGrouping cs) := by
  obtain ⟨c, run, rfl, hc, hrun⟩ := h
  have hne : c ≠ '_' := fun e => absurd (e ▸ hc) (by decide)
  refine ⟨by simp [Literal.withoutGrouping, hne], fun d hd => ?_⟩
  obtain ⟨hmem, hd⟩ := List.mem_filter.1 hd
  rcases List.mem_cons.1 hmem with rfl | hmem
  · exact hc
  · exact (hrun d hmem).resolve_right (by simpa using hd)

/-- Grouped digits begin with a digit. -/
theorem IsGrouped.beginsWithDigit {cs : List Char} (h : IsGrouped cs) : BeginsWithDigit cs := by
  obtain ⟨c, run, rfl, hc, -⟩ := h
  exact ⟨c, run, rfl, hc⟩

namespace Literal

/-! ## Values -/

/-- What a minus sign makes of a number, if there is one. -/
def signed (negative : Bool) (n : Nat) : Int := if negative then -n else n

/-- A minus sign or nothing. -/
def sign (negative : Bool) : String := if negative then "-" else ""

/-- Grouped digits write their value, and its negative after a minus sign. -/
theorem integer?_grouped {cs : List Char} (h : IsGrouped cs) (negative : Bool) :
    integer? (withoutGrouping ((sign negative).toList ++ cs)) =
      some (signed negative (groupedValue cs)) := by
  have hdigits := h.isDigits.integer?_eq
  rw [digitsFrom_eq_ofDigits] at hdigits
  cases negative with
  | false => exact hdigits
  | true =>
    have hminus := (integer?_minus (beginsWithDigit_withoutGrouping h.beginsWithDigit) hdigits).2
    exact hminus

/-- The value of an integer, if its type holds it. -/
theorem readInteger?_grouped {cs : List Char} (h : IsGrouped cs) (negative : Bool)
    (type : IntegerType) : readInteger? type.bits ((sign negative).toList ++ cs) =
      if type.Holds (signed negative (groupedValue cs)) then
        some (signed negative (groupedValue cs))
      else none := by
  simp only [readInteger?, integer?_grouped h, IntegerType.holds_iff, Option.bind_eq_bind,
    Option.bind_some]

/-- A token of a type of integers writes what is read of its text without the suffix. -/
theorem ofToken_of_readInteger? {type : IntegerType} {text : String} {front : List Char}
    (htext : text.toList = front ++ type.suffix.toList) :
    (∀ value, readInteger? type.bits front = some value →
      ofToken type.kind text = .ok (.ok (type.literal value))) ∧
      (readInteger? type.bits front = none →
        ∃ error, ofToken type.kind text = .ok (.error error)) := by
  cases type with
  | int =>
    have htext : text.toList = front := by simpa [IntegerType.suffix] using htext
    simp only [IntegerType.kind, IntegerType.bits, ofToken, htext]
    refine ⟨fun value h => ?_, fun h => ?_⟩ <;> rw [h]
    · rfl
    · exact ⟨_, rfl⟩
  | long =>
    have hsuffix : withoutSuffix (front ++ IntegerType.long.suffix.toList) = .ok front :=
      withoutSuffix_append front (show 'L'.utf8Size = 1 from rfl)
    simp only [IntegerType.kind, IntegerType.bits, ofToken, htext, hsuffix, bind, Except.bind]
    refine ⟨fun value h => ?_, fun h => ?_⟩ <;> rw [h]
    · rfl
    · exact ⟨_, rfl⟩

/-- The literal that an integer writes, if its type holds the value. -/
theorem ofToken_integer {d : String} (h : IsGrouped d.toList) (negative : Bool)
    (type : IntegerType) :
    (type.Holds (signed negative (groupedValue d.toList)) →
      ofToken type.kind (sign negative ++ (d ++ type.suffix)) =
        .ok (.ok (type.literal (signed negative (groupedValue d.toList))))) ∧
      (¬ type.Holds (signed negative (groupedValue d.toList)) →
        ∃ error, ofToken type.kind (sign negative ++ (d ++ type.suffix)) = .ok (.error error)) := by
  have hread := readInteger?_grouped h negative type
  have htext : (sign negative ++ (d ++ type.suffix)).toList =
      (sign negative).toList ++ d.toList ++ type.suffix.toList := by
    simp only [String.toList_append, List.append_assoc]
  obtain ⟨hsome, hnone⟩ := ofToken_of_readInteger? htext
  exact ⟨fun hholds => hsome _ (hread.trans (if_pos hholds)),
    fun hholds => hnone (hread.trans (if_neg hholds))⟩

end Literal

end ExprLang
