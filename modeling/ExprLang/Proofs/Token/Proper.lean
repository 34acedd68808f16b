import ExprLang.Lexer.Pattern
import ExprLang.Parser.Expectation
import ExprLang.Parser.Precedence
import ExprLang.Token.Basic
import ExprLang.Tree.Literal

/-!
# Proper tokens

The lexer writes tokens of each kind in a certain way, and the parser relies on
it: names are words, numbers begin with a digit, and a number that carries a
suffix ends in a character of one byte.

Main results:

- Definition {lit}`Token.Proper`: how tokens of each kind are written.
- Theorem {lit}`Literal.exists_ofToken_of_proper`: a proper token for a literal is
  read without a fault, and its value can be written again.
-/

namespace ExprLang

/-! ## Words -/

/-- The characters that begin a word. -/
def wordStart : CharSet := ⟨false, [('A', 'Z'), ('a', 'z'), ('_', '_')]⟩

/-- The characters that continue a word. -/
def wordRest : CharSet := ⟨false, [('A', 'Z'), ('a', 'z'), ('0', '9'), ('_', '_')]⟩

/-- A letter or underscore, then letters, digits and underscores. -/
def IsWord : List Char → Prop
  | [] => False
  | c :: cs => wordStart.contains c = true ∧ ∀ d ∈ cs, wordRest.contains d = true

instance : DecidablePred IsWord
  | [] => .isFalse id
  | c :: cs =>
    decidable_of_iff (wordStart.contains c = true ∧ cs.all wordRest.contains = true)
      (and_congr_right' List.all_eq_true)

/-- A word that is an identifier, or a keyword in some places only. -/
structure IsName (text : String) : Prop where
  isWord : IsWord text.toList
  isName : (TokenKind.ofWord text).isA .name = true

/-- A word that is a keyword nowhere. -/
structure IsIdentifier (text : String) : Prop where
  isWord : IsWord text.toList
  isIdentifier : TokenKind.ofWord text = .identifier

/-! ## Literals -/

/-- A value that some source text writes. -/
def Literal.Writable : Literal → Prop
  | .boolean _ | .string _ => True
  | .int value => -(Nat.pow 2 31 : Int) ≤ value ∧ value < Nat.pow 2 31
  | .long value => -(Nat.pow 2 63 : Int) ≤ value ∧ value < Nat.pow 2 63
  | .float value | .double value =>
    ∃ negative mantissa exponent, value = .finite negative mantissa exponent
  | .symbol name => IsWord name.toList

/-- A value that can be written agrees with itself. -/
theorem Literal.Writable.agrees_self {value : Literal} (h : value.Writable) :
    value.agrees value = true := by
  have hfinite (negative : Bool) (mantissa : Nat) (exponent : Int) :
      (Decimal.Binary.finite negative mantissa exponent).agrees
        (.finite negative mantissa exponent) = true := by
    cases mantissa <;> simp [Decimal.Binary.agrees]
  cases value with
  | float value =>
    obtain ⟨negative, mantissa, exponent, rfl⟩ := h
    exact hfinite ..
  | double value =>
    obtain ⟨negative, mantissa, exponent, rfl⟩ := h
    exact hfinite ..
  | _ => simp [Literal.agrees]

/-- A text that begins with a digit. -/
def BeginsWithDigit (cs : List Char) : Prop :=
  ∃ c rest, cs = c :: rest ∧ Decimal.isDigit c = true

/-- How a number without a sign is written, by the kind of its token: a suffix takes up one
byte. -/
def NumberText (kind : TokenKind) (cs : List Char) : Prop :=
  match kind with
  | .intLiteral | .doubleLiteral => BeginsWithDigit cs
  | .longLiteral | .floatLiteral =>
    ∃ front c, cs = front ++ [c] ∧ c.utf8Size = 1 ∧ BeginsWithDigit front
  | _ => False

/-- How tokens of each kind are written. -/
def Token.Proper (token : Token) : Prop :=
  match token.kind with
  | .endOfFile => False
  | .identifier | .wordAs | .wordInfix =>
    IsWord token.text.toList ∧ TokenKind.ofWord token.text = token.kind
  | .symbolLiteral => ∃ name, token.text.toList = '\'' :: name ∧ IsWord name
  | .intLiteral | .longLiteral | .floatLiteral | .doubleLiteral =>
    NumberText token.kind token.text.toList
  | _ => True

namespace Token.Proper

variable {token : Token}

/-- A proper token is not the end of the source. -/
theorem kind_ne (h : token.Proper) : token.kind ≠ .endOfFile := by
  intro hk
  unfold Token.Proper at h
  rw [hk] at h
  exact h

/-- A proper name is a name. -/
theorem isName (h : token.Proper) (hk : token.kind.isA .name = true) : IsName token.text := by
  unfold Token.Proper at h
  cases hkind : token.kind <;> rw [hkind] at h hk <;> first
    | (cases hk; done)
    | exact ⟨h.1, by rw [h.2]; exact hk⟩

/-- A proper identifier is one. -/
theorem isIdentifier (h : token.Proper) (hk : token.kind = .identifier) :
    IsIdentifier token.text := by
  unfold Token.Proper at h
  rw [hk] at h
  exact ⟨h.1, h.2⟩

end Token.Proper

namespace Literal

open Decimal

/-! ## Reading -/

/-- A suffix of one byte can be taken off. -/
theorem withoutSuffix_append (front : List Char) {c : Char} (hc : c.utf8Size = 1) :
    withoutSuffix (front ++ [c]) = .ok front := by
  simp [withoutSuffix, hc]

/-- An integer that is read is in the range of its type. -/
theorem range_of_readInteger? {bits : Nat} {cs : List Char} {value : Int}
    (h : readInteger? bits cs = some value) :
    -(Nat.pow 2 (bits - 1) : Int) ≤ value ∧ value < Nat.pow 2 (bits - 1) := by
  simp only [readInteger?, Option.bind_eq_bind, Option.bind_eq_some_iff] at h
  obtain ⟨read, -, h⟩ := h
  split at h
  · cases h
    assumption
  · cases h

/-- A number that is not a not-a-number is finite or infinite. -/
theorem finite_of_not_infinite {value : Binary} (hn : ∀ sign, value ≠ .nan sign)
    (hi : value.isInfinite = false) :
    ∃ negative mantissa exponent, value = .finite negative mantissa exponent := by
  cases value with
  | finite negative mantissa exponent => exact ⟨negative, mantissa, exponent, rfl⟩
  | infinite negative => cases hi
  | nan negative => exact absurd rfl (hn negative)

/-- A rounded fraction is a number. -/
theorem round_ne_nan (f : Format) (negative : Bool) (n d : Nat) (sign : Bool) :
    f.round negative n d ≠ .nan sign := by
  unfold Format.round
  dsimp only
  repeat' split
  all_goals simp

/-- A rounded decimal is a number. -/
theorem round_decimal_ne_nan (f : Format) (negative : Bool) (coefficient : Nat) (exponent : Int)
    (sign : Bool) : Numeral.round f (.decimal negative coefficient exponent) ≠ .nan sign := by
  simp only [Numeral.round]
  repeat' split
  · exact round_ne_nan _ _ _ _ _
  · exact nofun
  · exact round_ne_nan _ _ _ _ _

/-- A digit begins none of the words for numbers that are not decimals. -/
theorem toLower_of_isDigit {c : Char} (h : isDigit c = true) :
    c.toLower ≠ 'i' ∧ c.toLower ≠ 'n' := by
  have hall : ∀ n < 58, isDigit (Char.ofNat n) = true →
      (Char.ofNat n).toLower ≠ 'i' ∧ (Char.ofNat n).toLower ≠ 'n' := by
    decide
  simp only [isDigit, Bool.and_eq_true, decide_eq_true_eq] at h
  have hlt : c.toNat < 58 := Nat.lt_succ_of_le h.2
  have hc := hall c.toNat hlt
  rw [Char.ofNat_toNat] at hc
  exact hc (by simpa [isDigit] using h)

/-- Digits with a point and a power of ten write a decimal. -/
theorem exists_decimal_of_readDecimal? {negative : Bool} {cs : List Char} {numeral : Numeral}
    (h : Numeral.readDecimal? negative cs = some numeral) :
    ∃ coefficient exponent, numeral = .decimal negative coefficient exponent := by
  unfold Numeral.readDecimal? at h
  dsimp only at h
  repeat' split at h
  all_goals first
    | (cases h; done)
    | (cases h; exact ⟨_, _, rfl⟩)
    | (obtain ⟨e, -, rfl⟩ := Option.map_eq_some_iff.1 h
       exact ⟨_, _, rfl⟩)

/-- A text that begins with a digit is no word. -/
theorem readDecimal?_of_beginsWithDigit {negative : Bool} {cs : List Char} {numeral : Numeral}
    (hd : BeginsWithDigit cs) (h : Numeral.readUnsigned negative cs = .ok numeral) :
    Numeral.readDecimal? negative cs = some numeral := by
  obtain ⟨c, rest, rfl, hc⟩ := hd
  have hword : Numeral.readWord? negative (c :: rest) = none := by
    have hlower := toLower_of_isDigit hc
    simp [Numeral.readWord?, hlower.1, hlower.2]
  unfold Numeral.readUnsigned at h
  rw [hword, Option.or_none] at h
  cases hdecimal : Numeral.readDecimal? negative (c :: rest) with
  | none => rw [hdecimal] at h; cases h
  | some found =>
    rw [hdecimal] at h
    cases h
    rfl

/-- A text that begins with a digit has no sign. -/
theorem read_of_beginsWithDigit {cs : List Char} (hd : BeginsWithDigit cs) :
    Numeral.read cs = Numeral.readUnsigned false cs := by
  obtain ⟨c, rest, rfl, hc⟩ := hd
  have hminus : c ≠ '-' := fun e => absurd (e ▸ hc) (by decide)
  have hplus : c ≠ '+' := fun e => absurd (e ▸ hc) (by decide)
  unfold Numeral.read
  split
  · contradiction
  · exact absurd (by simp_all) hminus
  · exact absurd (by simp_all) hplus
  · rfl

/-- Removing underscores leaves a digit at the start where it is. -/
theorem beginsWithDigit_withoutGrouping {cs : List Char} (h : BeginsWithDigit cs) :
    BeginsWithDigit (withoutGrouping cs) := by
  obtain ⟨c, rest, rfl, hc⟩ := h
  have hne : c ≠ '_' := fun e => by
    subst e
    exact absurd hc (by decide)
  refine ⟨c, Literal.withoutGrouping rest, ?_, hc⟩
  simp [Literal.withoutGrouping, hne]

/-- A text that begins with a digit, after a minus sign or not. -/
def Numeric (cs : List Char) : Prop :=
  ∃ sign digits, cs = sign ++ digits ∧ (sign = [] ∨ sign = ['-']) ∧ BeginsWithDigit digits

/-- A numeric text writes a decimal, if it writes a numeral. -/
theorem exists_decimal_of_numeric {cs : List Char} {numeral : Numeral} (hn : Numeric cs)
    (h : Numeral.read (withoutGrouping cs) = .ok numeral) :
    ∃ negative coefficient exponent, numeral = .decimal negative coefficient exponent := by
  obtain ⟨sign, digits, rfl, rfl | rfl, hd⟩ := hn
  · have hd := beginsWithDigit_withoutGrouping hd
    rw [List.nil_append, read_of_beginsWithDigit hd] at h
    obtain ⟨coefficient, exponent, rfl⟩ :=
      exists_decimal_of_readDecimal? (readDecimal?_of_beginsWithDigit hd h)
    exact ⟨_, _, _, rfl⟩
  · have he : withoutGrouping (['-'] ++ digits) = '-' :: withoutGrouping digits := by
      simp [withoutGrouping]
    rw [he] at h
    have hd := beginsWithDigit_withoutGrouping hd
    obtain ⟨coefficient, exponent, rfl⟩ :=
      exists_decimal_of_readDecimal? (readDecimal?_of_beginsWithDigit hd h)
    exact ⟨_, _, _, rfl⟩

/-- A numeric text writes a finite number, or one that is too large. -/
theorem finite_of_readBinary {f : Format} {cs : List Char} {value : Binary} (hn : Numeric cs)
    (h : readBinary f cs = .ok value) (hi : ¬ value.isInfinite = true) :
    ∃ negative mantissa exponent, value = .finite negative mantissa exponent := by
  unfold readBinary at h
  cases hr : Numeral.read (withoutGrouping cs) with
  | error e => rw [hr] at h; cases h
  | ok numeral =>
    rw [hr] at h
    cases h
    obtain ⟨negative, coefficient, exponent, rfl⟩ := exists_decimal_of_numeric hn hr
    refine finite_of_not_infinite ?_ (Bool.eq_false_iff.2 hi)
    exact round_decimal_ne_nan f negative coefficient exponent

/-- The text of a number, after a minus sign or not, is read without a fault, and a value that
it has can be written. -/
theorem exists_ofToken_of_numberText {kind : TokenKind} {text : String} {sign cs : List Char}
    (ht : text.toList = sign ++ cs) (hs : sign = [] ∨ sign = ['-']) (h : NumberText kind cs) :
    ∃ result, ofToken kind text = .ok result ∧ ∀ value, result = .ok value → value.Writable := by
  unfold NumberText at h
  cases kind with
  | intLiteral =>
    simp only [ofToken]
    split
    · rename_i value hvalue
      exact ⟨_, rfl, fun _ h => by cases h; exact range_of_readInteger? hvalue⟩
    · exact ⟨_, rfl, nofun⟩
  | longLiteral =>
    obtain ⟨front, c, rfl, hc, -⟩ := h
    rw [← List.append_assoc] at ht
    simp only [ofToken, ht, withoutSuffix_append _ hc, bind, Except.bind]
    split
    · rename_i value hvalue
      exact ⟨_, rfl, fun _ h => by cases h; exact range_of_readInteger? hvalue⟩
    · exact ⟨_, rfl, nofun⟩
  | floatLiteral =>
    obtain ⟨front, c, rfl, hc, hd⟩ := h
    rw [← List.append_assoc] at ht
    simp only [ofToken, ht, withoutSuffix_append _ hc, bind, Except.bind]
    split
    · exact ⟨_, rfl, nofun⟩
    · rename_i value hvalue
      split
      · exact ⟨_, rfl, nofun⟩
      · rename_i hi
        refine ⟨_, rfl, fun _ h => ?_⟩
        cases h
        exact finite_of_readBinary ⟨_, _, rfl, hs, hd⟩ hvalue hi
  | doubleLiteral =>
    simp only [ofToken]
    split
    · exact ⟨_, rfl, nofun⟩
    · rename_i value hvalue
      split
      · exact ⟨_, rfl, nofun⟩
      · rename_i hi
        refine ⟨_, rfl, fun _ hv => ?_⟩
        cases hv
        exact finite_of_readBinary ⟨_, _, ht, hs, h⟩ hvalue hi
  | _ => exact h.elim

/-- A proper token for a literal is read without a fault, and a value that it has can be
written. -/
theorem exists_ofToken_of_proper {token : Token} (h : token.Proper)
    (hk : StartRule.ofKind? token.kind = some .literal) :
    ∃ result, ofToken token.kind token.text = .ok result ∧
      ∀ value, result = .ok value → value.Writable := by
  unfold Token.Proper at h
  cases hkind : token.kind <;> rw [hkind] at h hk <;> first
    | (cases hk; done)
    | exact exists_ofToken_of_numberText (List.nil_append _).symm (.inl rfl) h
    | exact ⟨_, rfl, fun _ hv => by cases hv; trivial⟩
    | skip
  -- the name of a symbol follows one quote
  obtain ⟨name, hname, hword⟩ := h
  refine ⟨_, rfl, fun _ hv => ?_⟩
  cases hv
  have hdrop : List.dropWhile (· == '\'') token.text.toList = name := by
    cases name with
    | nil => exact hword.elim
    | cons c cs =>
      have hne : c ≠ '\'' := fun e => absurd (e ▸ hword.1) (by decide)
      simp [hname, hne]
  show IsWord (String.ofList _).toList
  rw [hdrop, String.toList_ofList]
  exact hword

/-- So is a proper number after a minus sign. -/
theorem exists_ofToken_minus_of_proper {token : Token} (h : token.Proper)
    (hk : (Expectation.anyOf [.intLiteral, .longLiteral, .floatLiteral, .doubleLiteral]).accepts
      token.kind = true) :
    ∃ result, ofToken token.kind ("-" ++ token.text) = .ok result ∧
      ∀ value, result = .ok value → value.Writable := by
  have htext : ("-" ++ token.text).toList = ['-'] ++ token.text.toList := by simp
  unfold Token.Proper at h
  cases hkind : token.kind <;> rw [hkind] at h hk <;> first
    | (cases hk; done)
    | exact exists_ofToken_of_numberText htext (.inr rfl) h

end Literal

end ExprLang
