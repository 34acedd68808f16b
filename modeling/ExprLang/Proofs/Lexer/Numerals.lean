import ExprLang.Proofs.Lexer.Numbers
import ExprLang.Proofs.Reader.Covers

/-!
# Values of numbers

What the lexer takes for a number is the text of one, so a number of a source has a
value unless it is out of the range of its type.

Main definitions:

- Definition {lit}`IsDecimal`: digits, a fraction and a power of ten.
- Definition {lit}`Token.isInRange`: a number that is not out of range.

Main results:

- Theorem {lit}`Reference.numeralText_of_writes`: how numbers are written.
- Theorem {lit}`exists_value_of_mem_tokenize`: the value of a number.
-/

namespace ExprLang

open Decimal

/-! ## Decimals -/

/-- A point and digits. -/
def IsFraction (cs : List Char) : Prop :=
  ∃ ds, cs = '.' :: ds ∧ IsDigits ds

/-- A power of ten, with a sign or without. -/
def IsPower (cs : List Char) : Prop :=
  ∃ e sign ds, cs = e :: (sign ++ ds) ∧ (e = 'e' ∨ e = 'E') ∧
    (sign = [] ∨ sign = ['+'] ∨ sign = ['-']) ∧ IsDigits ds

/-- Digits, with a fraction and a power of ten or without. -/
inductive IsDecimal : List Char → Prop
  | mk {a b c : List Char} (ha : IsDigits a) (hb : b = [] ∨ IsFraction b)
    (hc : c = [] ∨ IsPower c) : IsDecimal (a ++ (b ++ c))

/-- A text of digits and others behind them begins with a digit. -/
theorem IsDigits.beginsWithDigit {cs : List Char} (h : IsDigits cs) (rest : List Char) :
    BeginsWithDigit (cs ++ rest) := by
  obtain ⟨hne, hall⟩ := h
  cases cs with
  | nil => exact absurd rfl hne
  | cons c cs => exact ⟨c, cs ++ rest, rfl, hall c (List.mem_cons_self ..)⟩

/-- So does a decimal. -/
theorem IsDecimal.beginsWithDigit {cs : List Char} (h : IsDecimal cs) : BeginsWithDigit cs := by
  obtain ⟨ha, -, -⟩ := h
  exact ha.beginsWithDigit _

/-- A power of ten does not begin with a digit. -/
theorem IsPower.head_not_digit {cs : List Char} (h : cs = [] ∨ IsPower cs) :
    ∀ c ∈ cs.head?, isDigit c = false := by
  rcases h with rfl | ⟨e, sign, ds, rfl, he, -⟩
  · exact nofun
  · rintro c hc
    cases hc
    rcases he with rfl | rfl <;> rfl

/-- Digits write an integer, with a sign or without. -/
theorem IsDigits.exists_integer? {sign ds : List Char} (h : IsDigits ds)
    (hs : sign = [] ∨ sign = ['+'] ∨ sign = ['-']) :
    ∃ value, integer? (sign ++ ds) = some value := by
  have hall : ds.all isDigit = true := List.all_eq_true.2 h.2
  have hdigits : (!ds.isEmpty && ds.all isDigit) = true := by simp [h.1, hall]
  rcases hs with rfl | rfl | rfl
  · rw [List.nil_append]
    unfold integer?
    split
    · cases hall
    · cases hall
    · exact ⟨_, if_pos hdigits⟩
  · exact ⟨_, if_pos hdigits⟩
  · exact ⟨_, if_pos hdigits⟩

/-- A decimal is the text of a number. -/
theorem IsDecimal.exists_readDecimal? {cs : List Char} (h : IsDecimal cs) (negative : Bool) :
    ∃ numeral, Numeral.readDecimal? negative cs = some numeral := by
  obtain @⟨a, b, c, ha, hb, hc⟩ := h
  have hpower := IsPower.head_not_digit hc
  unfold Numeral.readDecimal?
  dsimp only
  rcases hb with rfl | ⟨ds, rfl, hds⟩
  · obtain ⟨htake, hdrop⟩ := Reference.takeWhile_append_of_head ha.2 hpower
    rw [List.nil_append, htake, hdrop]
    rcases hc with rfl | ⟨e, sign, power, rfl, he, hs, hdigits⟩
    · exact ⟨_, if_neg (by simp [ha.1])⟩
    · obtain ⟨value, hvalue⟩ := hdigits.exists_integer? hs
      rcases he with rfl | rfl <;> simp [ha.1, hvalue]
  · have hpoint : ∀ d ∈ ('.' :: ds ++ c).head?, isDigit d = false := by
      intro d hd
      cases hd
      rfl
    obtain ⟨htake, hdrop⟩ := Reference.takeWhile_append_of_head ha.2 hpoint
    obtain ⟨htake', hdrop'⟩ := Reference.takeWhile_append_of_head hds.2 hpower
    rw [htake, hdrop]
    simp only [List.cons_append, htake', hdrop']
    rcases hc with rfl | ⟨e, sign, power, rfl, he, hs, hdigits⟩
    · exact ⟨_, if_neg (by simp [ha.1])⟩
    · obtain ⟨value, hvalue⟩ := hdigits.exists_integer? hs
      rcases he with rfl | rfl <;> simp [ha.1, hvalue]

namespace Literal

/-- The text of a number without grouping, by the kind of its token. -/
def NumeralText (kind : TokenKind) (cs : List Char) : Prop :=
  match kind with
  | .intLiteral => IsDigits (withoutGrouping cs)
  | .doubleLiteral => IsDecimal (withoutGrouping cs)
  | .longLiteral =>
    ∃ front c, cs = front ++ [c] ∧ c.utf8Size = 1 ∧ IsDigits (withoutGrouping front)
  | .floatLiteral =>
    ∃ front c, cs = front ++ [c] ∧ c.utf8Size = 1 ∧ IsDecimal (withoutGrouping front)
  | _ => False

end Literal

/-! ## Fragments -/

/-- What a pattern of one character and an optional one matches. -/
theorem Fragment.exists_of_split?_pair {s t : CharSet} {cs text rest : List Char}
    (h : (pattern (.seq (.one s) (.optional (.one t)))).split? cs = some (text, rest)) :
    ∃ c, s.contains c = true ∧ (text = [c] ∨ ∃ d, t.contains d = true ∧ text = [c, d]) := by
  have happend : text ++ rest = cs := append_of_split? _ _ _ _ h
  obtain ⟨left, hleft, he⟩ := Option.map_eq_some_iff.1 h
  obtain rfl : left = rest := congrArg Prod.snd he
  cases cs with
  | nil => cases hleft
  | cons c cs =>
    cases hc : s.contains c with
    | false => simp [Pattern.rests, hc] at hleft
    | true =>
      refine ⟨c, hc, ?_⟩
      cases cs with
      | nil =>
        obtain rfl : [] = left := by simpa [Pattern.rests, Pattern.optional, hc] using hleft
        exact .inl (by simpa using happend)
      | cons d cs =>
        cases hd : t.contains d with
        | false =>
          obtain rfl : d :: cs = left := by
            simpa [Pattern.rests, Pattern.optional, hc, hd] using hleft
          exact .inl (List.append_cancel_right (happend.trans (List.singleton_append ..).symm))
        | true =>
          obtain rfl : cs = left := by
            simpa [Pattern.rests, Pattern.optional, hc, hd] using hleft
          have happend : text ++ cs = [c, d] ++ cs := happend
          exact .inr ⟨d, hd, List.append_cancel_right happend⟩

namespace Reference

open Literal

variable {cs text rest : List Char}

/-- Underscores are left out of each part of a text. -/
theorem withoutGrouping_append (a b : List Char) :
    withoutGrouping (a ++ b) = withoutGrouping a ++ withoutGrouping b :=
  List.filter_append ..

/-- Grouped digits. -/
theorem isDigits_of_digits (h : digits.split? cs = some (text, rest)) :
    IsDigits (withoutGrouping text) := by
  refine ⟨?_, fun d hd => ?_⟩
  · obtain ⟨c, more, he, -⟩ := beginsWithDigit_withoutGrouping (beginsWithDigit_of_digits h)
    rw [he]
    exact List.cons_ne_nil _ _
  · obtain ⟨c, run, rfl, hc, hrun⟩ := Fragment.exists_of_split?_run h
    obtain ⟨hmem, hne⟩ := List.mem_filter.1 hd
    rcases List.mem_cons.1 hmem with rfl | hmem
    · rwa [contains_digit] at hc
    · have hd := hrun d hmem
      have hne : d ≠ '_' := by simpa using hne
      simp only [CharSet.contains, List.any_cons, List.any_nil, Bool.or_false, Bool.bne_false,
        Bool.or_eq_true, Bool.and_eq_true, decide_eq_true_eq] at hd
      rcases hd with hd | hd
      · simpa [isDigit] using hd
      · exact absurd (Char.le_antisymm hd.2 hd.1) hne

/-- A fraction, with grouped digits. -/
theorem isFraction_of_fraction (h : fraction.split? cs = some (text, rest)) :
    IsFraction (withoutGrouping text) := by
  obtain ⟨point, middle, ds, hpoint, hds, rfl⟩ := Fragment.exists_of_split?_both h
  obtain rfl := Fragment.eq_of_split?_literal hpoint
  exact ⟨_, rfl, isDigits_of_digits hds⟩

/-- A power of ten, with grouped digits. -/
theorem isPower_of_exponent (h : exponent.split? cs = some (text, rest)) :
    IsPower (withoutGrouping text) := by
  obtain ⟨mark, middle, ds, hmark, hds, rfl⟩ := Fragment.exists_of_split?_both h
  obtain ⟨e, he, hsign⟩ := Fragment.exists_of_split?_pair hmark
  have he : e = 'e' ∨ e = 'E' := by simpa using he
  have hletter (sign : List Char) : withoutGrouping (e :: sign) = e :: withoutGrouping sign := by
    rcases he with rfl | rfl <;> rfl
  rw [withoutGrouping_append]
  rcases hsign with rfl | ⟨sign, hs, rfl⟩
  · exact ⟨e, [], _, by rw [hletter]; rfl, he, .inl rfl, isDigits_of_digits hds⟩
  · have hs : sign = '+' ∨ sign = '-' := by simpa using hs
    refine ⟨e, [sign], _, ?_, he, .inr ?_, isDigits_of_digits hds⟩
    · rw [hletter]
      rcases hs with rfl | rfl <;> rfl
    · exact hs.imp (congrArg (fun c => [c])) (congrArg (fun c => [c]))

/-- A power of ten or nothing. -/
theorem isPower_of_optional (h : (Fragment.optional exponent).split? cs = some (text, rest)) :
    withoutGrouping text = [] ∨ IsPower (withoutGrouping text) := by
  rcases Fragment.or_of_split?_either h with h | h
  · exact .inr (isPower_of_exponent h)
  · obtain rfl := Fragment.eq_of_split?_literal h
    exact .inl rfl

/-- A number with a fraction. -/
theorem isDecimal_of_withFraction (h : withFraction.split? cs = some (text, rest)) :
    IsDecimal (withoutGrouping text) := by
  obtain ⟨front, middle, c, hfront, hc, rfl⟩ := Fragment.exists_of_split?_both h
  obtain ⟨a, middle', b, ha, hb, rfl⟩ := Fragment.exists_of_split?_both hfront
  rw [withoutGrouping_append, withoutGrouping_append, List.append_assoc]
  refine .mk (isDigits_of_digits ha) (.inr (isFraction_of_fraction hb)) ?_
  exact isPower_of_optional hc

/-- A number without a fraction. -/
theorem isDecimal_of_both {f : Fragment}
    (hf : ∀ {cs text rest}, f.split? cs = some (text, rest) →
      withoutGrouping text = [] ∨ IsPower (withoutGrouping text))
    (h : (Fragment.both digits f).split? cs = some (text, rest)) :
    IsDecimal (withoutGrouping text) := by
  obtain ⟨a, middle, c, ha, hc, rfl⟩ := Fragment.exists_of_split?_both h
  rw [withoutGrouping_append, ← List.nil_append (withoutGrouping c)]
  exact .mk (isDigits_of_digits ha) (.inl rfl) (hf hc)

/-- How numbers are written. -/
theorem numeralText_of_writes {kind : TokenKind} (hk : kind.isNumber = true)
    (h : Writes kind text) : NumeralText kind text := by
  rcases h with ⟨id, rule, hrule, stack, cs, rest, hsplit, hkind⟩ | rfl
  · rcases mem_rules hrule with hbound | hfree
    · simp only [boundRules, List.mem_cons, List.not_mem_nil, or_false] at hbound
      rcases hbound with rfl | rfl | rfl | rfl | rfl | rfl
      · cases hkind
        refine exists_of_suffix (P := fun front => IsDecimal (withoutGrouping front))
          (s := ['f', 'F']) (fun h => ?_) rfl hsplit
        exact (Fragment.or_of_split?_either h).elim isDecimal_of_withFraction
          (isDecimal_of_both isPower_of_optional)
      · cases hkind
        exact (Fragment.or_of_split?_either hsplit).elim isDecimal_of_withFraction
          (isDecimal_of_both fun h => .inr (isPower_of_exponent h))
      · cases hkind
        exact exists_of_suffix (P := fun front => IsDigits (withoutGrouping front))
          (s := ['l', 'L']) isDigits_of_digits rfl hsplit
      · cases hkind
        exact isDigits_of_digits hsplit
      · cases hkind
        cases hk
      · -- no word is a number
        cases hkind
        have hwords : ∀ kind ∈ TokenKind.identifier :: TokenKind.keywords.map Prod.snd,
            kind.isNumber = false := by decide
        rw [hwords _ (TokenKind.ofWord_mem _)] at hk
        cases hk
    · have hkind := isFree_of_run hfree hkind
      cases kind <;> first | (cases hk; done) | cases hkind
  · cases hk

end Reference

/-! ## Tokens -/

/-- Whether a text is no number because it is out of the range of its type. -/
def LiteralError.isOutOfRange : LiteralError → Bool
  | .intOutOfRange _ | .longOutOfRange _ | .floatOutOfRange _ | .doubleOutOfRange _ => true
  | .floatMalformed .. | .doubleMalformed .. | .notLiteral _ => false

/-- Whether a token is not a number out of the range of its type. -/
def Token.isInRange (token : Token) : Bool :=
  match Literal.ofToken token.kind token.text with
  | .ok (.error error) => !error.isOutOfRange
  | _ => true

namespace Literal

/-- A decimal has a number of every format. -/
theorem exists_readBinary {cs : List Char} (h : IsDecimal (withoutGrouping cs)) (f : Format) :
    ∃ value, readBinary f cs = .ok value := by
  obtain ⟨numeral, hnumeral⟩ := h.exists_readDecimal? false
  have hread : Numeral.read (withoutGrouping cs) = .ok numeral := by
    rw [read_of_beginsWithDigit h.beginsWithDigit, Numeral.readUnsigned, hnumeral]
    rfl
  exact ⟨numeral.round f, by rw [readBinary, hread]; rfl⟩

/-- The text of a number has a value, if it is in the range of its type. -/
theorem exists_value_of_numeralText {token : Token} (h : NumeralText token.kind token.text.toList)
    (hrange : token.isInRange = true) :
    ∃ value, ofToken token.kind token.text = .ok (.ok value) := by
  obtain ⟨kind, text, span⟩ := token
  unfold Token.isInRange at hrange
  dsimp only at h hrange ⊢
  cases kind with
  | intLiteral =>
    simp only [ofToken] at hrange ⊢
    cases hread : readInteger? 32 text.toList with
    | none => rw [hread] at hrange; cases hrange
    | some value => exact ⟨_, rfl⟩
  | longLiteral =>
    obtain ⟨front, c, hfront, hc, -⟩ := h
    simp only [ofToken, hfront, withoutSuffix_append _ hc, bind, Except.bind] at hrange ⊢
    cases hread : readInteger? 64 front with
    | none => rw [hread] at hrange; cases hrange
    | some value => exact ⟨_, rfl⟩
  | floatLiteral =>
    obtain ⟨front, c, hfront, hc, hdecimal⟩ := h
    obtain ⟨value, hvalue⟩ := exists_readBinary hdecimal .single
    simp only [ofToken, hfront, withoutSuffix_append _ hc, bind, Except.bind, hvalue] at hrange ⊢
    cases hinfinite : value.isInfinite with
    | true => rw [hinfinite] at hrange; cases hrange
    | false => exact ⟨_, rfl⟩
  | doubleLiteral =>
    obtain ⟨value, hvalue⟩ := exists_readBinary h .double
    simp only [ofToken, hvalue] at hrange ⊢
    cases hinfinite : value.isInfinite with
    | true => rw [hinfinite] at hrange; cases hrange
    | false => exact ⟨_, rfl⟩
  | _ => exact h.elim

end Literal

/-- A number of a text has a value, if it is in the range of its type. -/
theorem exists_value_of_mem_tokenize {text : String} {token : Token} (h : token ∈ tokenize text)
    (hk : token.kind.isNumber = true) (hrange : token.isInRange = true) :
    ∃ value, Literal.ofToken token.kind token.text = .ok (.ok value) :=
  Literal.exists_value_of_numeralText
    (Reference.numeralText_of_writes hk (writes_of_mem_tokenize h)) hrange

end ExprLang
