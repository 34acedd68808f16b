import ExprLang.Proofs.Lexer.Numbers
import ExprLang.Proofs.Tree.Source

/-!
# Values as words

The text of a value is a minus sign, if the value is negative, and one word for
the rest of it, unless the value is a string.  From both together the value is
read again.

Main definitions:

- Definition {lit}`Literal.Legible`: values that are read from their texts.
- Definitions {lit}`Literal.kind` and {lit}`Literal.unsigned`: the word of a value.

Main results:

- Theorem {lit}`Literal.spelled_unsigned`: how the word of a number is written.
- Theorem {lit}`Literal.ofToken_chars`: a value is read from its text.
-/

namespace ExprLang

open Decimal

/-! ## Decimals -/

/-- The decimal digits of a number are digits. -/
theorem isDigits_toDigits (n : Nat) : IsDigits (Nat.toDigits 10 n) := by
  refine ⟨Nat.toDigits_ne_nil, fun c hc => ?_⟩
  have hdigit := Nat.isDigit_of_mem_toDigits (by decide) (by decide) hc
  simpa [Char.isDigit, isDigit, Char.le_def] using hdigit

/-- Digits and more digits are digits. -/
theorem IsDigits.append {a b : List Char} (ha : IsDigits a) (hb : ∀ c ∈ b, isDigit c = true) :
    IsDigits (a ++ b) := by
  refine ⟨fun h => ha.1 (List.append_eq_nil_iff.1 h).1, fun c hc => ?_⟩
  exact (List.mem_append.1 hc).elim (ha.2 c) (hb c)

/-- A zero is a digit. -/
theorem isDigit_of_mem_zeros {n : Nat} {c : Char} (h : c ∈ List.replicate n '0') :
    isDigit c = true := by
  rw [(List.mem_replicate.1 h).2]
  rfl

/-- A decimal without a power of ten has a fraction. -/
theorem fractional_plainText {digits : List Char} (h : IsDigits digits) (e : Int) :
    Fractional (plainText digits e) := by
  have hzero : IsDigits ['0'] := ⟨by simp, List.forall_mem_singleton.2 rfl⟩
  unfold plainText
  dsimp only
  split
  · have ha : IsDigits (digits ++ List.replicate e.toNat '0') :=
      h.append fun c => isDigit_of_mem_zeros
    exact .fraction ha hzero
  · split
    · -- both halves of the digits are nonempty
      rename_i hneg hlt
      refine .fraction ⟨?_, fun c hc => h.2 c (List.mem_of_mem_take hc)⟩
        ⟨?_, fun c hc => h.2 c (List.mem_of_mem_drop hc)⟩
      · intro hnil
        have := congrArg List.length hnil
        simp only [List.length_take, List.length_nil] at this
        omega
      · intro hnil
        have := congrArg List.length hnil
        simp only [List.length_drop, List.length_nil] at this
        omega
    · have hb : IsDigits (List.replicate ((-e).toNat - digits.length) '0' ++ digits) := by
        refine ⟨fun hnil => h.1 (List.append_eq_nil_iff.1 hnil).2, fun c hc => ?_⟩
        exact (List.mem_append.1 hc).elim isDigit_of_mem_zeros (h.2 c)
      have hfractional : Fractional (['0'] ++ '.' :: _) := .fraction hzero hb
      simpa using hfractional

/-- The text of an integer is a sign and digits. -/
theorem toList_toString_int (value : Int) :
    (toString value).toList =
      (if value < 0 then ['-'] else []) ++ Nat.toDigits 10 value.natAbs := by
  cases value with
  | ofNat n =>
    show (Int.repr (Int.ofNat n)).toList = _
    simp [Int.repr]
  | negSucc n =>
    show (Int.repr (Int.negSucc n)).toList = _
    simp [Int.repr, Int.negSucc_lt_zero]

/-- A decimal with a power of ten has one. -/
theorem fractional_powerText {digits : List Char} (h : IsDigits digits) (power : Int) :
    Fractional (powerText digits power) := by
  have hsign : IsSign (if power < 0 then ['-'] else []) := by
    split
    · exact .inr rfl
    · exact .inl rfl
  obtain ⟨hne, hall⟩ := h
  cases digits with
  | nil => exact absurd rfl hne
  | cons d ds =>
    have hd : IsDigits [d] := ⟨by simp, fun c hc => hall c (by simp_all)⟩
    unfold powerText
    dsimp only
    rw [toList_toString_int]
    cases ds with
    | nil => exact .power hd hsign (isDigits_toDigits _)
    | cons c cs =>
      have hds : IsDigits (c :: cs) :=
        ⟨by simp, fun c hc => hall c (List.mem_cons_of_mem _ hc)⟩
      exact .both hd hds hsign (isDigits_toDigits _)

/-- The text of a finite number is a sign and a number with a fraction or a power of ten. -/
theorem exists_toList_text (f : Format) (negative : Bool) (mantissa : Nat) (exponent : Int) :
    ∃ cs, ((Binary.finite negative mantissa exponent).text f).toList =
      (if negative then ['-'] else []) ++ cs ∧ Fractional cs := by
  have hmagnitude (layout : Layout) (v : Scale) : Fractional (magnitudeText layout v) := by
    unfold magnitudeText
    dsimp only
    split
    · exact fractional_plainText (isDigits_toDigits _) _
    · exact fractional_powerText (isDigits_toDigits _) _
  have hdigit : IsDigits ['0'] := ⟨by simp, List.forall_mem_singleton.2 rfl⟩
  have hzero : Fractional ['0', '.', '0'] := .fraction (a := ['0']) (b := ['0']) hdigit hdigit
  have hbody {body : List Char} (hb : Fractional body) :
      ∃ cs, (String.ofList (if negative then '-' :: body else body)).toList =
        (if negative then ['-'] else []) ++ cs ∧ Fractional cs :=
    ⟨body, by cases negative <;> simp, hb⟩
  unfold Binary.text
  refine hbody ?_
  split
  · exact hzero
  · exact hmagnitude ..

/-! ## Words of values -/

namespace Literal

/-- The kind of the word that a value is written with, after a minus sign or not. -/
def kind : Literal → TokenKind
  | boolean value => if value then .wordTrue else .wordFalse
  | int _ => .intLiteral
  | long _ => .longLiteral
  | float _ => .floatLiteral
  | double _ => .doubleLiteral
  | string _ => .stringStart
  | symbol _ => .symbolLiteral

/-- The text of a value without a minus sign before it. -/
def unsigned (value : Literal) : List Char :=
  if value.isNegative then (Tree.literalChars value).tail else Tree.literalChars value

/-- A number with a fraction is read from its text. -/
def Legible : Literal → Prop
  | float value => readBinary .single (value.text .single).toList = .ok value
  | double value => readBinary .double (value.text .double).toList = .ok value
  | _ => True

instance : DecidablePred Legible
  | float value =>
    inferInstanceAs (Decidable (readBinary .single (value.text .single).toList = .ok value))
  | double value =>
    inferInstanceAs (Decidable (readBinary .double (value.text .double).toList = .ok value))
  | boolean _ | int _ | long _ | string _ | symbol _ => isTrue trivial

/-- The text of a string. -/
theorem literalChars_string (text : String) :
    Tree.literalChars (.string text) = '"' :: (Text.escape text.toList ++ ['"']) := by
  show (toString "\"" ++ toString (Text.escapeString text) ++ toString "\"").toList = _
  simp [Text.escapeString]

/-- The text of a symbol. -/
theorem literalChars_symbol (name : String) :
    Tree.literalChars (.symbol name) = '\'' :: name.toList := by
  show (toString "'" ++ toString name).toList = _
  simp

/-- The text of a number is that of its kind, after a minus sign if it is negative. -/
theorem exists_literalChars {value : Literal} (hn : value.isNumber = true) (hw : value.Writable) :
    ∃ cs, Tree.literalChars value = (if value.isNegative then ['-'] else []) ++ cs ∧
      Spelled value.kind cs := by
  cases value with
  | int value =>
    refine ⟨Nat.toDigits 10 value.natAbs, ?_, .int (isDigits_toDigits _)⟩
    show (toString value).toList = _
    rw [toList_toString_int]
    simp [isNegative]
  | long value =>
    refine ⟨Nat.toDigits 10 value.natAbs ++ ['L'], ?_, .long (isDigits_toDigits _)⟩
    show (toString "" ++ toString value ++ toString "L").toList = _
    rw [String.toList_append, String.toList_append, toList_toString_int]
    simp [isNegative]
  | float value =>
    obtain ⟨negative, mantissa, exponent, rfl⟩ := hw
    obtain ⟨cs, hcs, hf⟩ := exists_toList_text .single negative mantissa exponent
    refine ⟨cs ++ ['f'], ?_, .float hf⟩
    show (toString "" ++ toString _ ++ toString "f").toList = _
    rw [String.toList_append, String.toList_append, toString_string, toString_string, hcs]
    cases negative <;> simp [isNegative, Binary.isNegative]
  | double value =>
    obtain ⟨negative, mantissa, exponent, rfl⟩ := hw
    obtain ⟨cs, hcs, hf⟩ := exists_toList_text .double negative mantissa exponent
    exact ⟨cs, hcs, .double hf⟩
  | _ => cases hn

/-- The text of a number is that of its kind, after a minus sign if it is negative. -/
theorem literalChars_eq {value : Literal} (hn : value.isNumber = true) (hw : value.Writable) :
    Tree.literalChars value = (if value.isNegative then ['-'] else []) ++ value.unsigned := by
  obtain ⟨cs, hcs, -⟩ := exists_literalChars hn hw
  unfold unsigned
  rw [hcs]
  split <;> rfl

/-- How the word of a number is written. -/
theorem spelled_unsigned {value : Literal} (hn : value.isNumber = true) (hw : value.Writable) :
    Spelled value.kind value.unsigned := by
  obtain ⟨cs, hcs, hs⟩ := exists_literalChars hn hw
  have he := literalChars_eq hn hw
  rw [hcs] at he
  rwa [← List.append_cancel_left he]

/-! ## Reading -/

/-- Digits write the number whose digits they are. -/
theorem digitsFrom_toDigits (n : Nat) :
    Nat.toDigits 10 n ≠ [] ∧ (Nat.toDigits 10 n).all isDigit = true ∧
      digitsFrom 0 (Nat.toDigits 10 n) = n := by
  obtain ⟨hne, hall⟩ := isDigits_toDigits n
  refine ⟨hne, List.all_eq_true.2 hall, ?_⟩
  rw [digitsFrom, ← Nat.ofDigitChars_eq_foldl, Nat.ofDigitChars_ten_toDigits]

/-- An integer is read from its text. -/
theorem integer?_toString (value : Int) : integer? (toString value).toList = some value := by
  obtain ⟨hne, hall, hvalue⟩ := digitsFrom_toDigits value.natAbs
  rw [toList_toString_int]
  by_cases hneg : value < 0
  · rw [if_pos hneg]
    have habs : -(value.natAbs : Int) = value := by omega
    simp only [List.cons_append, List.nil_append, integer?, hvalue]
    rw [if_pos (by simp [hne, hall]), habs]
  · have habs : (value.natAbs : Int) = value := by omega
    rw [if_neg hneg, List.nil_append]
    unfold integer?
    split
    · rename_i heq
      rw [heq] at hall
      cases hall
    · rename_i heq
      rw [heq] at hall
      cases hall
    · simp [hne, hall, hvalue, habs]

/-- The text of an integer has no underscores. -/
theorem withoutGrouping_toString (value : Int) :
    withoutGrouping (toString value).toList = (toString value).toList := by
  refine List.filter_eq_self.2 fun c hc => ?_
  rw [toList_toString_int, List.mem_append] at hc
  rcases hc with hc | hc
  · split at hc
    · rw [List.mem_singleton.1 hc]
      rfl
    · cases hc
  · have hdigit := (isDigits_toDigits value.natAbs).2 c hc
    rw [bne_iff_ne]
    rintro rfl
    cases hdigit

/-- An integer in the range of its type is read from its text. -/
theorem readInteger?_toString {bits : Nat} {value : Int}
    (h : -(Nat.pow 2 (bits - 1) : Int) ≤ value ∧ value < Nat.pow 2 (bits - 1)) :
    readInteger? bits (toString value).toList = some value := by
  rw [readInteger?, withoutGrouping_toString, integer?_toString]
  exact if_pos h

/-- A value is read from its text. -/
theorem ofToken_chars {value : Literal} (hk : value.kind ≠ .stringStart) (hw : value.Writable)
    (hl : value.Legible) :
    ofToken value.kind (String.ofList (Tree.literalChars value)) = .ok (.ok value) := by
  have hfinite {value : Binary}
      (h : ∃ negative mantissa exponent, value = .finite negative mantissa exponent) :
      value.isInfinite = false := by
    obtain ⟨negative, mantissa, exponent, rfl⟩ := h
    rfl
  have hsuffix {text : List Char} {c : Char} (hc : c.utf8Size = 1) {cs : List Char}
      (h : cs = text ++ [c]) : withoutSuffix cs = .ok text := h ▸ withoutSuffix_append text hc
  cases value with
  | boolean value => cases value <;> rfl
  | int value =>
    have hchars : Tree.literalChars (int value) = (toString value).toList := rfl
    have hread : readInteger? 32 (toString value).toList = some value := readInteger?_toString hw
    simp only [kind, ofToken, String.toList_ofList, hchars, hread]
  | long value =>
    have hchars : Tree.literalChars (long value) = (toString value).toList ++ ['L'] := by
      show (toString "" ++ toString value ++ toString "L").toList = _
      simp
    have hread : readInteger? 64 (toString value).toList = some value := readInteger?_toString hw
    simp only [kind, ofToken, String.toList_ofList, hsuffix rfl hchars, bind, Except.bind, hread]
  | float value =>
    have hchars : Tree.literalChars (float value) = (value.text .single).toList ++ ['f'] := by
      show (toString "" ++ toString (value.text .single) ++ toString "f").toList = _
      simp
    have hread : readBinary .single (value.text .single).toList = .ok value := hl
    simp only [kind, ofToken, String.toList_ofList, hsuffix rfl hchars, bind, Except.bind, hread,
      hfinite hw]
    rfl
  | double value =>
    have hchars : Tree.literalChars (double value) = (value.text .double).toList := rfl
    have hread : readBinary .double (value.text .double).toList = .ok value := hl
    simp only [kind, ofToken, String.toList_ofList, hchars, hread, hfinite hw]
    rfl
  | string => exact absurd rfl hk
  | symbol name =>
    have hdrop : ('\'' :: name.toList).dropWhile (· == '\'') = name.toList := by
      have hword : IsWord name.toList := hw
      cases hname : name.toList with
      | nil => rfl
      | cons c cs =>
        rw [hname] at hword
        have hne : c ≠ '\'' := fun e => absurd (e ▸ hword.1) (by decide)
        simp [hne]
    simp only [kind, ofToken, String.toList_ofList, literalChars_symbol, hdrop,
      String.ofList_toList]

end Literal

end ExprLang
