/-!
# Escape sequences of string literals

The body of a string literal is written with a backslash before the characters
that cannot stand for themselves.  {lit}`escape` writes a text as such a body
and {lit}`unescape?` reads one escape sequence back.

Main definitions:

- Definition {lit}`Text.escapeChar`: how one character is written.
- Definition {lit}`Text.unescape?`: the character an escape sequence stands for.
-/

namespace ExprLang.Text

/-! ## Hexadecimal digits -/

/-- The lower-case hexadecimal digits of a number, without leading zeros. -/
def hexDigits (n : Nat) : List Char :=
  Nat.toDigits 16 n

/-- The number below 65536 written as exactly four hexadecimal digits. -/
def hexWord (n : Nat) : List Char :=
  [Nat.digitChar (n / 4096 % 16), Nat.digitChar (n / 256 % 16),
    Nat.digitChar (n / 16 % 16), Nat.digitChar (n % 16)]

/-- The value of a hexadecimal digit of either case. -/
def hexValue? (c : Char) : Option Nat :=
  if '0' ≤ c ∧ c ≤ '9' then some (c.toNat - '0'.toNat)
  else if 'a' ≤ c ∧ c ≤ 'f' then some (c.toNat - 'a'.toNat + 10)
  else if 'A' ≤ c ∧ c ≤ 'F' then some (c.toNat - 'A'.toNat + 10)
  else none

/-- The number that hexadecimal digits write, continuing from `n`. -/
def hexNumberFrom? (n : Nat) : List Char → Option Nat
  | [] => some n
  | c :: cs => (hexValue? c).bind fun d => hexNumberFrom? (16 * n + d) cs

/-- The number written by one or more hexadecimal digits after an optional `+`. -/
def hexNumber? : List Char → Option Nat
  | '+' :: c :: cs => hexNumberFrom? 0 (c :: cs)
  | [] => none
  | cs => hexNumberFrom? 0 cs

/-- The character with a given number, if that number belongs to one. -/
def charOfNumber? (n : Nat) : Option Char :=
  if n.isValidChar then some (Char.ofNat n) else none

/-- A written digit has the value it was written for. -/
theorem hexValue?_digitChar : ∀ n < 16, hexValue? (Nat.digitChar n) = some n := by
  decide

/-! ## Writing -/

/-- The control characters: those below the space, and from `U+007F` to `U+009F`. -/
def isControl (c : Char) : Bool :=
  c.toNat < 0x20 || (0x7f ≤ c.toNat && c.toNat ≤ 0x9f)

/-- How a character is written inside a string literal. -/
def escapeChar (c : Char) : List Char :=
  if c = '\n' then ['\\', 'n']
  else if c = '\t' then ['\\', 't']
  else if c = '\r' then ['\\', 'r']
  else if c = '\x00' then ['\\', '0']
  else if c = '\\' then ['\\', '\\']
  else if c = '"' then ['\\', '"']
  else if isControl c then '\\' :: 'u' :: hexWord c.toNat
  else [c]

/-- A text as the body of a string literal. -/
def escape (cs : List Char) : List Char :=
  cs.flatMap escapeChar

@[simp] theorem escape_nil : escape [] = [] := rfl

@[simp] theorem escape_cons (c : Char) (cs : List Char) :
    escape (c :: cs) = escapeChar c ++ escape cs := rfl

/-- Nothing that is written disappears. -/
theorem escapeChar_ne_nil (c : Char) : escapeChar c ≠ [] := by
  unfold escapeChar
  repeat' split
  all_goals simp

/-- A string as the body of a string literal. -/
def escapeString (s : String) : String :=
  String.ofList (escape s.toList)

/-! ## Reading -/

/-- The character that an escape sequence stands for, if it is one. -/
def unescape? : List Char → Option Char
  | '\\' :: 'u' :: digits => (hexNumber? digits).bind charOfNumber?
  | ['\\', 'n'] => some '\n'
  | ['\\', 't'] => some '\t'
  | ['\\', 'r'] => some '\r'
  | ['\\', '0'] => some '\x00'
  | ['\\', '\\'] => some '\\'
  | ['\\', '"'] => some '"'
  | ['\\', '\''] => some '\''
  | _ => none

/-- Up to the last control character, what is written as an escape reads back. -/
theorem unescape?_escapeChar_of_lt :
    ∀ n < 160, unescape? (escapeChar (Char.ofNat n)) = some (Char.ofNat n) ∨
      escapeChar (Char.ofNat n) = [Char.ofNat n] := by
  decide +kernel

/-- A character is written as an escape that reads back, or as itself. -/
theorem unescape?_escapeChar (c : Char) :
    unescape? (escapeChar c) = some c ∨ escapeChar c = [c] := by
  by_cases h : c.toNat < 160
  · have hc := unescape?_escapeChar_of_lt c.toNat h
    rwa [Char.ofNat_toNat] at hc
  · have hne (d : Char) (hd : d.toNat < 160) : c ≠ d := fun e => h (e ▸ hd)
    have hc : isControl c = false := by
      simp only [isControl, Bool.or_eq_false_iff, Bool.and_eq_false_iff, decide_eq_false_iff_not]
      omega
    right
    simp [escapeChar, hc, hne '\n' (by decide), hne '\t' (by decide), hne '\r' (by decide),
      hne '\x00' (by decide), hne '\\' (by decide), hne '"' (by decide)]

end ExprLang.Text
