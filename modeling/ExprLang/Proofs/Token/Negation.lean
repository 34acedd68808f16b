import ExprLang.Proofs.Reader.Covers
import ExprLang.Proofs.Token.Proper

/-!
# Numbers after a minus sign

A number that is in the range of its type is so after a minus sign too.

Main results:

- Theorem {lit}`Literal.exists_ofToken_minus`: the value after a minus sign.
-/

namespace ExprLang

namespace Literal

open Decimal

variable {cs : List Char} {f : Format} {bits : Nat}

/-! ## Integers -/

/-- An integer that begins with a digit, and what it is after a minus sign. -/
theorem integer?_minus {value : Int} (hd : BeginsWithDigit cs) (h : integer? cs = some value) :
    0 ≤ value ∧ integer? ('-' :: cs) = some (-value) := by
  obtain ⟨c, rest, rfl, hc⟩ := hd
  have hminus : c ≠ '-' := fun e => absurd (e ▸ hc) (by decide)
  have hplus : c ≠ '+' := fun e => absurd (e ▸ hc) (by decide)
  unfold integer? at h ⊢
  split at h
  · exact absurd (by simp_all) hminus
  · exact absurd (by simp_all) hplus
  · split at h
    · rename_i hdigits
      cases h
      exact ⟨Int.natCast_nonneg _, if_pos hdigits⟩
    · cases h

/-- The range of a type of integers reaches as far down as up. -/
theorem exists_readInteger?_minus {value : Int} (hd : BeginsWithDigit cs)
    (h : readInteger? bits cs = some value) :
    ∃ value', readInteger? bits ('-' :: cs) = some value' := by
  have hrange := range_of_readInteger? h
  simp only [readInteger?, Option.bind_eq_bind, Option.bind_eq_some_iff] at h
  obtain ⟨read, hread, h⟩ := h
  split at h
  · cases h
    obtain ⟨hnonneg, hminus⟩ := integer?_minus (beginsWithDigit_withoutGrouping hd) hread
    have hgroups : withoutGrouping ('-' :: cs) = '-' :: withoutGrouping cs := by
      simp [withoutGrouping]
    refine ⟨-value, ?_⟩
    simp only [readInteger?, hgroups, hminus, Option.bind_eq_bind, Option.bind_some]
    exact if_pos (by omega)
  · cases h

/-! ## Fractions -/

/-- A decimal is the same after a minus sign. -/
theorem readDecimal?_minus {coefficient : Nat} {exponent : Int}
    (h : Numeral.readDecimal? false cs = some (.decimal false coefficient exponent)) :
    Numeral.readDecimal? true cs = some (.decimal true coefficient exponent) := by
  revert h
  unfold Numeral.readDecimal?
  generalize cs.dropWhile isDigit = left
  -- The fraction and what stands after it do not depend on the sign.
  split
  rename_i fraction rest hsplit
  clear hsplit
  dsimp only
  intro h
  split at h
  · cases h
  · rename_i hdigits
    rw [if_neg hdigits]
    cases rest with
    | nil =>
      cases h
      rfl
    | cons c power =>
      dsimp only at h ⊢
      split at h
      · rename_i hletter
        rw [if_pos hletter]
        obtain ⟨e, hpower, heq⟩ := Option.map_eq_some_iff.1 h
        cases heq
        rw [hpower]
        rfl
      · cases h

/-- Whether a fraction is too large does not depend on its sign. -/
theorem isInfinite_round (negative : Bool) (n d : Nat) :
    (f.round negative n d).isInfinite = (f.round false n d).isInfinite := by
  unfold Format.round
  dsimp only
  repeat' split
  all_goals rfl

/-- Whether a decimal is too large does not depend on its sign. -/
theorem isInfinite_round_decimal (negative : Bool) (coefficient : Nat) (exponent : Int) :
    (Numeral.round f (.decimal negative coefficient exponent)).isInfinite =
      (Numeral.round f (.decimal false coefficient exponent)).isInfinite := by
  simp only [Numeral.round]
  repeat' split
  · exact isInfinite_round ..
  · rfl
  · exact isInfinite_round ..

/-- A fraction that is not too large, and what it is after a minus sign. -/
theorem exists_readBinary_minus {value : Binary} (hd : BeginsWithDigit cs)
    (h : readBinary f cs = .ok value) (hi : ¬ value.isInfinite = true) :
    ∃ value', readBinary f ('-' :: cs) = .ok value' ∧ ¬ value'.isInfinite = true := by
  have hgroups : withoutGrouping ('-' :: cs) = '-' :: withoutGrouping cs := by
    simp [withoutGrouping]
  have hd := beginsWithDigit_withoutGrouping hd
  unfold readBinary at h ⊢
  rw [read_of_beginsWithDigit hd] at h
  cases hread : Numeral.readUnsigned false (withoutGrouping cs) with
  | error error => rw [hread] at h; cases h
  | ok numeral =>
    rw [hread] at h
    cases h
    have hdecimal := readDecimal?_of_beginsWithDigit hd hread
    obtain ⟨coefficient, exponent, rfl⟩ := exists_decimal_of_readDecimal? hdecimal
    have hminus : Numeral.read ('-' :: withoutGrouping cs) =
        .ok (.decimal true coefficient exponent) := by
      show Numeral.readUnsigned true _ = _
      rw [Numeral.readUnsigned, readDecimal?_minus hdecimal]
      rfl
    refine ⟨Numeral.round f (.decimal true coefficient exponent), ?_, ?_⟩
    · rw [hgroups, hminus]
      rfl
    · rwa [isInfinite_round_decimal]

/-! ## Tokens -/

/-- A number in the range of its type is so after a minus sign. -/
theorem exists_ofToken_minus {token : Token} {value : Literal} (h : token.Proper)
    (hk : token.kind.isNumber = true) (hv : ofToken token.kind token.text = .ok (.ok value)) :
    ∃ value', ofToken token.kind ("-" ++ token.text) = .ok (.ok value') := by
  have htext : ("-" ++ token.text).toList = '-' :: token.text.toList := by simp
  have hproper : NumberText token.kind token.text.toList := by
    unfold Token.Proper at h
    cases hkind : token.kind <;> rw [hkind] at h hk <;> first | exact h | cases hk
  cases hkind : token.kind with
  | intLiteral =>
    rw [hkind] at hproper hv
    simp only [ofToken] at hv
    split at hv
    · rename_i read hread
      obtain ⟨value', hvalue'⟩ := exists_readInteger?_minus hproper hread
      exact ⟨.int value', by simp only [ofToken, htext, hvalue']⟩
    · cases hv
  | longLiteral =>
    rw [hkind] at hproper hv
    obtain ⟨front, c, hfront, hc, hd⟩ := hproper
    rw [hfront, ← List.cons_append] at htext
    simp only [ofToken, hfront, withoutSuffix_append _ hc, bind, Except.bind] at hv
    split at hv
    · rename_i read hread
      obtain ⟨value', hvalue'⟩ := exists_readInteger?_minus hd hread
      refine ⟨.long value', ?_⟩
      simp only [ofToken, htext, withoutSuffix_append _ hc, bind, Except.bind, hvalue']
    · cases hv
  | floatLiteral =>
    rw [hkind] at hproper hv
    obtain ⟨front, c, hfront, hc, hd⟩ := hproper
    rw [hfront, ← List.cons_append] at htext
    simp only [ofToken, hfront, withoutSuffix_append _ hc, bind, Except.bind] at hv
    split at hv
    · cases hv
    · rename_i read hread
      split at hv
      · cases hv
      · rename_i hi
        obtain ⟨value', hvalue', hi'⟩ := exists_readBinary_minus hd hread hi
        refine ⟨.float value', ?_⟩
        simp only [ofToken, htext, withoutSuffix_append _ hc, bind, Except.bind, hvalue',
          if_neg hi']
  | doubleLiteral =>
    rw [hkind] at hproper hv
    simp only [ofToken] at hv
    split at hv
    · cases hv
    · rename_i read hread
      split at hv
      · cases hv
      · rename_i hi
        obtain ⟨value', hvalue', hi'⟩ := exists_readBinary_minus hproper hread hi
        exact ⟨.double value', by simp only [ofToken, htext, hvalue', if_neg hi']⟩
  | _ => rw [hkind] at hk; cases hk

end Literal

end ExprLang
