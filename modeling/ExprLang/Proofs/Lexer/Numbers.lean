import ExprLang.Proofs.Lexer.Spelling

/-!
# Spelling numbers

How the lexer reads numbers that are followed by a text that goes on with no
number.

Main definitions:

- Definition {lit}`IsDigits`: digits without underscores.
- Definition {lit}`IsGrouped`: digits with underscores between and behind them.
- Definition {lit}`Fractional`: digits with a fraction or a power of ten.
- Definition {lit}`Spelled`: the numbers of each kind.

Main results:

- Theorem {lit}`Reference.words_number`: numbers.
-/

namespace ExprLang

/-- One digit or more. -/
def IsDigits (cs : List Char) : Prop :=
  cs ≠ [] ∧ ∀ c ∈ cs, Decimal.isDigit c = true

/-- A digit, then digits and underscores. -/
def IsGrouped (cs : List Char) : Prop :=
  ∃ c run, cs = c :: run ∧ Decimal.isDigit c = true ∧
    ∀ d ∈ run, Decimal.isDigit d = true ∨ d = '_'

/-- Digits may be grouped or not. -/
theorem IsDigits.isGrouped {cs : List Char} (h : IsDigits cs) : IsGrouped cs := by
  obtain ⟨hne, hall⟩ := h
  cases cs with
  | nil => exact absurd rfl hne
  | cons c cs =>
    exact ⟨c, cs, rfl, hall c (List.mem_cons_self ..),
      fun d hd => .inl (hall d (List.mem_cons_of_mem _ hd))⟩

/-- A sign before the digits of a power of ten, or none. -/
def IsSign (cs : List Char) : Prop := cs = [] ∨ cs = ['-']

/-- Digits with a fraction, a power of ten, or both. -/
inductive Fractional : List Char → Prop
  | fraction {a b : List Char} (ha : IsDigits a) (hb : IsDigits b) : Fractional (a ++ '.' :: b)
  | power {a sign b : List Char} (ha : IsDigits a) (hs : IsSign sign) (hb : IsDigits b) :
    Fractional (a ++ 'e' :: (sign ++ b))
  | both {a b sign c : List Char} (ha : IsDigits a) (hb : IsDigits b) (hs : IsSign sign)
    (hc : IsDigits c) : Fractional (a ++ '.' :: (b ++ 'e' :: (sign ++ c)))

/-- The text of a number of some kind. -/
inductive Spelled : TokenKind → List Char → Prop
  | int {cs : List Char} (h : IsDigits cs) : Spelled .intLiteral cs
  | long {cs : List Char} (h : IsDigits cs) : Spelled .longLiteral (cs ++ ['L'])
  | float {cs : List Char} (h : Fractional cs) : Spelled .floatLiteral (cs ++ ['f'])
  | double {cs : List Char} (h : Fractional cs) : Spelled .doubleLiteral cs

/-- A number begins with a digit. -/
theorem Fractional.exists_digit {cs : List Char} (h : Fractional cs) :
    ∃ c rest, cs = c :: rest ∧ Decimal.isDigit c = true := by
  have hdigits {a : List Char} (ha : IsDigits a) (b : List Char) :
      ∃ c rest, a ++ b = c :: rest ∧ Decimal.isDigit c = true := by
    obtain ⟨hne, hall⟩ := ha
    cases a with
    | nil => exact absurd rfl hne
    | cons c cs => exact ⟨c, cs ++ b, rfl, hall c (List.mem_cons_self ..)⟩
  cases h with
  | fraction ha _ => exact hdigits ha _
  | power ha _ _ => exact hdigits ha _
  | both ha _ _ _ => exact hdigits ha _

namespace Reference

variable {stack : StateStack} {rest : List Char}

/-! ## Ends of numbers -/

/-- A text that does not begin with a digit or an underscore. -/
def digitless (cs : List Char) : Prop :=
  ∀ c ∈ cs.head?, CharSet.contains ⟨false, [('0', '9'), ('_', '_')]⟩ c = false

/-- What goes on with a number goes on with a word. -/
theorem wordRest_of_digit {c : Char}
    (h : CharSet.contains ⟨false, [('0', '9'), ('_', '_')]⟩ c = true) :
    wordRest.contains c = true := by
  simp only [wordRest, CharSet.contains, List.any_cons, List.any_nil, Bool.or_false,
    Bool.bne_false, Bool.or_eq_true] at h ⊢
  rcases h with h | h
  · exact .inr (.inr (.inl h))
  · exact .inr (.inr (.inr h))

/-- Where no word goes on, no digits do. -/
theorem digitless_of_boundary (h : boundary rest = true) : digitless rest := by
  cases rest with
  | nil => nofun
  | cons c cs =>
    intro d hd
    cases hd
    refine Bool.eq_false_iff.2 fun hc => ?_
    simp [boundary, wordRest_of_digit hc] at h

/-- Where no word goes on, nothing matches that begins as words go on. -/
theorem split?_of_boundary {f : Fragment} (hnil : f.split? [] = none)
    (hf : ∀ c, wordRest.contains c = false → f.refuses c = true) (h : boundary rest = true) :
    f.split? rest = none := by
  cases rest with
  | nil => exact hnil
  | cons c cs =>
    refine Fragment.split?_of_refuses (hf c ?_) cs
    simp only [boundary, Bool.and_eq_true, Bool.not_eq_true'] at h
    exact h.1

/-- One of some letters does not match where no word goes on. -/
theorem split?_letter_of_boundary (cs : List Char) (hcs : ∀ c ∈ cs, wordRest.contains c = true)
    (h : boundary rest = true) : (Fragment.pattern (.one (.ofList cs))).split? rest = none := by
  refine split?_of_boundary rfl (fun c hc => ?_) h
  simp only [Fragment.refuses, Pattern.refuses, CharSet.contains_ofList, Bool.not_eq_true']
  refine Bool.eq_false_iff.2 fun hmem => ?_
  rw [hcs c (List.contains_iff_mem.1 hmem)] at hc
  cases hc

/-! ## Parts of numbers -/

/-- The digits of the grammar are the digits. -/
theorem contains_digit (c : Char) :
    CharSet.contains ⟨false, [('0', '9')]⟩ c = Decimal.isDigit c := by
  simp [CharSet.contains, Decimal.isDigit]

/-- A digit goes on with a number. -/
theorem contains_of_isDigit {c : Char} (h : Decimal.isDigit c = true) :
    CharSet.contains ⟨false, [('0', '9'), ('_', '_')]⟩ c = true := by
  simp only [Decimal.isDigit] at h
  simp [CharSet.contains, h]

/-- Digits are read as a whole. -/
theorem split?_digits {ds : List Char} (hds : IsGrouped ds) (h : digitless rest) :
    digits.split? (ds ++ rest) = some (ds, rest) := by
  obtain ⟨d, ds, rfl, hd, hrun⟩ := hds
  have hrun : ∀ c ∈ ds, CharSet.contains ⟨false, [('0', '9'), ('_', '_')]⟩ c = true := by
    intro c hc
    rcases hrun c hc with hdigit | rfl
    · exact contains_of_isDigit hdigit
    · decide
  have hstop := takeWhile_append_of_head hrun h
  show Pattern.matchStart? (.seq (.one _) (.many _ true)) (d :: (ds ++ rest)) = _
  rw [Pattern.matchStart?_run, contains_digit, if_pos hd, hstop.1, hstop.2]

/-- A fraction is read as a whole. -/
theorem split?_fraction {ds : List Char} (hds : IsDigits ds) (h : digitless rest) :
    fraction.split? ('.' :: (ds ++ rest)) = some ('.' :: ds, rest) :=
  Fragment.split?_both (Fragment.split?_literal_append ['.'] (ds ++ rest))
    (split?_digits hds.isGrouped h)

/-- There is no fraction where no number goes on. -/
theorem split?_fraction_of_boundary (h : boundary rest = true) : fraction.split? rest = none := by
  cases rest with
  | nil => rfl
  | cons c cs =>
    by_cases hc : c = '.'
    · subst hc
      refine Fragment.split?_both_of_second (Fragment.split?_literal_append ['.'] cs) ?_
      cases cs with
      | nil => rfl
      | cons d ds =>
        refine Fragment.split?_of_refuses ?_ ds
        have hd : wordRest.contains '.' = false ∧ Decimal.isDigit d = false := by
          simpa [boundary] using h
        simp [digits, Fragment.refuses, Pattern.refuses, contains_digit, hd.2]
    · exact Fragment.split?_of_refuses (by simpa [fraction, Fragment.refuses] using hc) cs

/-- A power of ten is read as a whole. -/
theorem split?_exponent {sign ds : List Char} (hs : IsSign sign) (hds : IsDigits ds)
    (h : digitless rest) :
    exponent.split? ('e' :: (sign ++ ds ++ rest)) = some ('e' :: (sign ++ ds), rest) := by
  have hsplit : (Fragment.pattern (.seq (.one (.ofList ['e', 'E']))
      (.optional (.one (.ofList ['+', '-']))))).split? ('e' :: (sign ++ ds ++ rest)) =
        some ('e' :: sign, ds ++ rest) := by
    rcases hs with rfl | rfl
    · obtain ⟨hne, hall⟩ := hds
      cases ds with
      | nil => exact absurd rfl hne
      | cons d ds =>
        have hd : d ≠ '+' ∧ d ≠ '-' := by
          have := hall d (List.mem_cons_self ..)
          constructor <;> rintro rfl <;> cases this
        simp [Fragment.split?, Pattern.matchStart?, Pattern.rests, Pattern.optional, hd]
    · have hlen : ds.length + rest.length + 1 + 1 - (ds.length + rest.length) = 2 := by omega
      simp [Fragment.split?, Pattern.matchStart?, Pattern.rests, Pattern.optional, hlen]
  exact Fragment.split?_both hsplit (split?_digits hds.isGrouped h)

/-- There is no power of ten where no word goes on. -/
theorem split?_exponent_of_boundary (h : boundary rest = true) : exponent.split? rest = none := by
  refine split?_of_boundary rfl (fun c hc => ?_) h
  simp only [exponent, Fragment.refuses, Pattern.refuses, CharSet.contains_ofList,
    Bool.not_eq_true']
  refine Bool.eq_false_iff.2 fun hmem => ?_
  have hall : ∀ c ∈ ['e', 'E'], wordRest.contains c = true := List.all_eq_true.1 (by decide)
  rw [hall c (List.contains_iff_mem.1 hmem)] at hc
  cases hc

/-- A text that does not begin with a digit or an underscore. -/
theorem digitless_cons {c : Char}
    (hc : CharSet.contains ⟨false, [('0', '9'), ('_', '_')]⟩ c = false) (cs : List Char) :
    digitless (c :: cs) := by
  intro d hd
  cases hd
  exact hc

/-! ## Whole numbers -/

/-- A number that may have a fraction and a power of ten. -/
def anyNumber : Fragment :=
  .either withFraction (.both digits (.optional exponent))

/-- A number with a fraction or a power of ten is read as a whole. -/
theorem split?_fractional {cs : List Char} (hcs : Fractional cs) (hd : digitless rest)
    (he : exponent.split? rest = none) :
    anyNumber.split? (cs ++ rest) = some (cs, rest) ∧
      doubleNumber.split? (cs ++ rest) = some (cs, rest) := by
  have hpoint (cs : List Char) : digitless ('.' :: cs) := digitless_cons (by decide) cs
  have hpower (cs : List Char) : digitless ('e' :: cs) := digitless_cons (by decide) cs
  -- with a fraction the first alternative matches, without one only the second does
  have hfirst (h : withFraction.split? (cs ++ rest) = some (cs, rest)) :
      anyNumber.split? (cs ++ rest) = some (cs, rest) ∧
        doubleNumber.split? (cs ++ rest) = some (cs, rest) :=
    ⟨Option.or_eq_some_iff.2 (.inl h), Option.or_eq_some_iff.2 (.inl h)⟩
  cases hcs with
  | fraction ha hb =>
    have hsplit := Fragment.split?_both
      (Fragment.split?_both (split?_digits ha.isGrouped (hpoint _)) (split?_fraction hb hd))
      (Fragment.split?_optional_of_none he)
    rw [List.append_nil] at hsplit
    rw [List.append_assoc] at hfirst ⊢
    exact hfirst hsplit
  | @power a sign b ha hs hb =>
    have hdigits := split?_digits ha.isGrouped (hpower (sign ++ b ++ rest))
    have hexponent := split?_exponent hs hb hd
    have hnone : withFraction.split? (a ++ 'e' :: (sign ++ b ++ rest)) = none :=
      Fragment.split?_both_of_first (Fragment.split?_both_of_second hdigits
        (Fragment.split?_of_refuses (by decide) _))
    rw [List.append_assoc, List.cons_append]
    exact ⟨Option.or_eq_some_iff.2 (.inr ⟨hnone,
        Fragment.split?_both hdigits (Fragment.split?_optional hexponent)⟩),
      Option.or_eq_some_iff.2 (.inr ⟨hnone, Fragment.split?_both hdigits hexponent⟩)⟩
  | @both a b sign c ha hb hs hc =>
    have hsplit := Fragment.split?_both
      (Fragment.split?_both (split?_digits ha.isGrouped (hpoint _))
        (split?_fraction hb (hpower (sign ++ c ++ rest))))
      (Fragment.split?_optional (split?_exponent hs hc hd))
    simp only [List.append_assoc, List.cons_append] at hsplit hfirst ⊢
    exact hfirst hsplit

/-- A number without a fraction and a power of ten. -/
theorem split?_digits_of_none {cs : List Char} (hcs : IsGrouped cs) (hd : digitless rest)
    (hf : fraction.split? rest = none) (he : exponent.split? rest = none) :
    anyNumber.split? (cs ++ rest) = some (cs, rest) ∧
      doubleNumber.split? (cs ++ rest) = none := by
  have hdigits := split?_digits hcs hd
  have hnone : withFraction.split? (cs ++ rest) = none :=
    Fragment.split?_both_of_first (Fragment.split?_both_of_second hdigits hf)
  have hsplit := Fragment.split?_both hdigits (Fragment.split?_optional_of_none he)
  rw [List.append_nil] at hsplit
  exact ⟨Option.or_eq_some_iff.2 (.inr ⟨hnone, hsplit⟩),
    Option.or_eq_none_iff.2 ⟨hnone, Fragment.split?_both_of_second hdigits he⟩⟩

/-- The rules before those for numbers refuse digits. -/
theorem refuses_of_isDigit {c : Char} (h : Decimal.isDigit c = true) :
    c ≠ '\x7b' ∧ c ≠ '\x7d' ∧ (codeRules.take 4).all (·.fragment.refuses c) = true := by
  have hlt : c.toNat < 128 := toNat_lt_of_wordRest (wordRest_of_digit (contains_of_isDigit h))
  have hall : ∀ n < 128, Decimal.isDigit (Char.ofNat n) = true → Char.ofNat n ≠ '\x7b' ∧
      Char.ofNat n ≠ '\x7d' ∧
        (codeRules.take 4).all (·.fragment.refuses (Char.ofNat n)) = true := by
    decide
  exact forall_ascii (p := fun c => Decimal.isDigit c = true → c ≠ '\x7b' ∧ c ≠ '\x7d' ∧
    (codeRules.take 4).all (·.fragment.refuses c) = true) hall hlt h

/-- A letter is read. -/
theorem split?_letter {c : Char} {cs : List Char} (h : cs.contains c = true) (rest : List Char) :
    (Fragment.pattern (.one (.ofList cs))).split? (c :: rest) = some ([c], rest) := by
  show Pattern.matchStart? (.one (.ofList cs)) (c :: rest) = _
  rw [Pattern.matchStart?_one, CharSet.contains_ofList, if_pos h]

/-- The first of the rules for numbers. -/
theorem drop_codeRules : codeRules.drop 4 = ⟨floatNumber, .emit .floatLiteral⟩ ::
    ⟨doubleNumber, .emit .doubleLiteral⟩ :: ⟨longNumber, .emit .longLiteral⟩ ::
      ⟨digits, .emit .intLiteral⟩ :: codeRules.drop 8 := rfl

/-- The rules for integers apply to digits, without a suffix and with one. -/
theorem firstSplit?_grouped {cs : List Char} (hcs : IsGrouped cs) (h : boundary rest = true) :
    firstSplit? (codeRules.drop 4) (cs ++ rest) = some (.emit .intLiteral, cs, rest) ∧
      firstSplit? (codeRules.drop 4) (cs ++ ['L'] ++ rest) =
        some (.emit .longLiteral, cs ++ ['L'], rest) := by
  rw [drop_codeRules]
  constructor
  · have hend := digitless_of_boundary h
    obtain ⟨hany, hdouble⟩ := split?_digits_of_none hcs hend (split?_fraction_of_boundary h)
      (split?_exponent_of_boundary h)
    have hdigits := split?_digits hcs hend
    have hfloat := split?_letter_of_boundary ['f', 'F'] (List.all_eq_true.1 (by decide)) h
    have hlong := split?_letter_of_boundary ['l', 'L'] (List.all_eq_true.1 (by decide)) h
    have hne : cs ≠ [] := by
      obtain ⟨c, run, rfl, -⟩ := hcs
      exact List.cons_ne_nil _ _
    rw [firstSplit?_cons_of_none (Fragment.split?_both_of_second hany hfloat),
      firstSplit?_cons_of_none hdouble,
      firstSplit?_cons_of_none (Fragment.split?_both_of_second hdigits hlong)]
    exact firstSplit?_cons_of_split? hdigits hne _
  · have hend : digitless ('L' :: rest) := digitless_cons (by decide) rest
    obtain ⟨hany, hdouble⟩ := split?_digits_of_none hcs hend
      (Fragment.split?_of_refuses (by decide) rest) (Fragment.split?_of_refuses (by decide) rest)
    have hdigits := split?_digits hcs hend
    rw [List.append_assoc]
    rw [firstSplit?_cons_of_none (Fragment.split?_both_of_second hany
        (Fragment.split?_of_refuses (by decide) rest)),
      firstSplit?_cons_of_none hdouble]
    exact firstSplit?_cons_of_split?
      (Fragment.split?_both hdigits (split?_letter (by decide) rest)) (by simp) _

/-- Which of the rules for numbers applies. -/
theorem firstSplit?_number {kind : TokenKind} {cs : List Char} (hcs : Spelled kind cs)
    (h : boundary rest = true) :
    firstSplit? (codeRules.drop 4) (cs ++ rest) = some (.emit kind, cs, rest) := by
  cases hcs with
  | int hcs => exact (firstSplit?_grouped hcs.isGrouped h).1
  | long hcs => exact (firstSplit?_grouped hcs.isGrouped h).2
  | @float cs hcs =>
    have hend : digitless ('f' :: rest) := digitless_cons (by decide) rest
    obtain ⟨hany, -⟩ := split?_fractional hcs hend (Fragment.split?_of_refuses (by decide) rest)
    rw [drop_codeRules, List.append_assoc]
    exact firstSplit?_cons_of_split?
      (Fragment.split?_both hany (split?_letter (by decide) rest)) (by simp) _
  | double hcs =>
    obtain ⟨hany, hdouble⟩ := split?_fractional hcs (digitless_of_boundary h)
      (split?_exponent_of_boundary h)
    have hfloat := split?_letter_of_boundary ['f', 'F'] (List.all_eq_true.1 (by decide)) h
    obtain ⟨c, others, rfl, -⟩ := hcs.exists_digit
    rw [drop_codeRules, firstSplit?_cons_of_none (Fragment.split?_both_of_second hany hfloat)]
    exact firstSplit?_cons_of_split? hdouble (List.cons_ne_nil _ _) _

/-- A number begins with a digit. -/
theorem exists_digit_of_spelled {kind : TokenKind} {cs : List Char} (h : Spelled kind cs) :
    ∃ c others, cs = c :: others ∧ Decimal.isDigit c = true := by
  have hdigits {ds : List Char} (h : IsDigits ds) :
      ∃ c others, ds = c :: others ∧ Decimal.isDigit c = true := by
    obtain ⟨hne, hall⟩ := h
    cases ds with
    | nil => exact absurd rfl hne
    | cons c others => exact ⟨c, others, rfl, hall c (List.mem_cons_self ..)⟩
  cases h with
  | int h => exact hdigits h
  | long h =>
    obtain ⟨c, others, rfl, hc⟩ := hdigits h
    exact ⟨c, _, rfl, hc⟩
  | float h =>
    obtain ⟨c, others, rfl, hc⟩ := h.exists_digit
    exact ⟨c, _, rfl, hc⟩
  | double h => exact h.exists_digit

/-- The rules for numbers apply to what begins with a digit. -/
theorem words_of_isDigit (h : InCode stack) {c : Char} {others : List Char} {kind : TokenKind}
    (hc : Decimal.isDigit c = true)
    (hsplit : firstSplit? (codeRules.drop 4) (c :: others ++ rest) =
      some (.emit kind, c :: others, rest)) :
    reference.words stack (c :: others ++ rest) =
      ⟨kind, String.ofList (c :: others)⟩ :: reference.words stack rest := by
  obtain ⟨hopen, hclose, hrefuses⟩ := refuses_of_isDigit hc
  have hfirst : firstSplit? codeRules (c :: (others ++ rest)) =
      some (.emit kind, c :: others, rest) := by
    rw [← List.take_append_drop 4 codeRules, firstSplit?_append_of_none fun rule hrule =>
      Fragment.split?_of_refuses (List.all_eq_true.1 hrefuses rule hrule) _]
    exact hsplit
  have hrun : (Action.emit kind).run (c :: others) stack = (some kind, stack) := rfl
  exact words_of_codeRules h hopen hclose hfirst hrun

/-- A number is read as a whole. -/
theorem words_number (h : InCode stack) {kind : TokenKind} {cs : List Char}
    (hcs : Spelled kind cs) (hrest : boundary rest = true) :
    reference.words stack (cs ++ rest) =
      ⟨kind, String.ofList cs⟩ :: reference.words stack rest := by
  have hsplit := firstSplit?_number hcs hrest
  obtain ⟨c, others, rfl, hc⟩ := exists_digit_of_spelled hcs
  exact words_of_isDigit h hc hsplit

/-- An integer is read as a whole, without a suffix and with one. -/
theorem words_grouped (h : InCode stack) {cs : List Char} (hcs : IsGrouped cs)
    (hrest : boundary rest = true) :
    reference.words stack (cs ++ rest) =
        ⟨.intLiteral, String.ofList cs⟩ :: reference.words stack rest ∧
      reference.words stack (cs ++ ['L'] ++ rest) =
        ⟨.longLiteral, String.ofList (cs ++ ['L'])⟩ :: reference.words stack rest := by
  obtain ⟨hint, hlong⟩ := firstSplit?_grouped hcs hrest
  obtain ⟨c, run, rfl, hc, -⟩ := hcs
  exact ⟨words_of_isDigit h hc hint, words_of_isDigit h hc hlong⟩

end Reference

end ExprLang
