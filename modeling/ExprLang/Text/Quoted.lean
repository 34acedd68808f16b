import ExprLang.Text.Escape
import ExprLang.Text.Unprinted

/-!
# Texts as listings and messages show them

A listing shows a text between double quotes and a message shows a single
character between other marks.  In both, what would disturb the line is written
as an escape; unlike the escapes of the language, a number stands in braces and
has as many digits as it needs.

Main definitions:

- Definition {lit}`Text.quote`: a text between double quotes.
- Definition {lit}`Text.spell`: one character in pure ASCII.
-/

namespace ExprLang.Text

/-- A character by its number, in braces. -/
def numbered (c : Char) : List Char :=
  ['\\', 'u', '\x7b'] ++ hexDigits c.toNat ++ ['\x7d']

/-- No control character has a printed form. -/
theorem isUnprinted_of_isControl {c : Char} (h : isControl c = true) : isUnprinted c = true := by
  have hmem : (0x80, 0xa0) ∈ unprintedRanges := List.mem_of_mem_head? rfl
  simp only [isControl, Bool.or_eq_true, Bool.and_eq_true, decide_eq_true_eq] at h
  simp only [isUnprinted]
  split
  · simp only [decide_eq_true_eq]
    omega
  · simp only [Bool.or_eq_true, beq_iff_eq, List.any_eq_true, Bool.and_eq_true, decide_eq_true_eq]
    by_cases hdel : c.toNat = 0x7f
    · exact .inl hdel
    · refine .inr ⟨_, hmem, ?_⟩
      show 0x80 ≤ c.toNat ∧ c.toNat ≤ 0xa0
      omega

/-- How a character is shown between the quotes `mark`. -/
def quoteChar (mark c : Char) : List Char :=
  if c = mark then ['\\', c]
  else if c = '\\' then ['\\', '\\']
  else if c = '\n' then ['\\', 'n']
  else if c = '\t' then ['\\', 't']
  else if c = '\r' then ['\\', 'r']
  else if c = '\x00' then ['\\', '0']
  else if isUnprinted c then numbered c
  else [c]

/-- A string between double quotes. -/
def quote (s : String) : String :=
  String.ofList ('"' :: s.toList.flatMap (quoteChar '"') ++ ['"'])

/-- A character between single quotes. -/
def quoteSingle (c : Char) : String :=
  String.ofList ('\'' :: quoteChar '\'' c ++ ['\''])

/-- A character in ASCII: itself if printable there and no quote or backslash. -/
def spell (c : Char) : List Char :=
  if c = '\t' then ['\\', 't']
  else if c = '\r' then ['\\', 'r']
  else if c = '\n' then ['\\', 'n']
  else if c = '\'' ∨ c = '"' ∨ c = '\\' then ['\\', c]
  else if 0x20 ≤ c.toNat ∧ c.toNat ≤ 0x7e then [c]
  else numbered c

end ExprLang.Text
