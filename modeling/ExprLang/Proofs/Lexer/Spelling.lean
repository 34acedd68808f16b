import ExprLang.Proofs.Lexer.Tokens

/-!
# Spelling words

How the lexer reads the pieces that source text is written from: blanks, words,
numbers, operators, braces and strings, each followed by any text that does not
go on with it.

Main definitions:

- Definition {lit}`Reference.InCode`: the states that read code.
- Definition {lit}`Reference.boundary`: text that goes on with no word and no
  number.

Main results:

- Theorem {lit}`Reference.words_word`: words.
- Theorem {lit}`Reference.words_operator`: operators and separators.
-/

namespace ExprLang

/-! ## First characters -/

/-- A fixed text that begins with the first character of a text. -/
theorem Fragment.split?_literal_cons (d : Char) (ds : List Char) (c : Char) (cs : List Char) :
    (literal (d :: ds)).split? (c :: cs) =
      if c = d then ((literal ds).split? cs).map fun (found, rest) => (d :: found, rest)
      else none := by
  by_cases h : c = d
  · subst h
    rw [if_pos rfl]
    simp only [split?, List.length_cons, Cursor.splitExactly?]
    cases Cursor.splitExactly? ds.length cs with
    | none => rfl
    | some pieces =>
      by_cases he : pieces.1 == ds
      · simp [Option.filter, eq_of_beq he]
      · simp [Option.filter, he]
  · rw [if_neg h]
    exact split?_of_refuses (by simpa [refuses] using h) cs

namespace Reference

variable {stack : StateStack} {rest : List Char}

/-! ## States -/

/-- The innermost state is one that reads code. -/
def InCode (stack : StateStack) : Prop :=
  stack.current = code ∨ stack.current = template ∨ stack.current = brace

/-- A text starts in a state that reads code. -/
theorem inCode_ofRoot : InCode (.ofRoot code) := .inl rfl

/-- Unless it is a brace the first character is for the rules of code. -/
theorem firstSplit?_of_inCode (h : InCode stack) {c : Char} (hopen : c ≠ '\x7b')
    (hclose : c ≠ '\x7d') (cs : List Char) :
    firstSplit? (reference.rules stack.current) (c :: cs) = firstSplit? codeRules (c :: cs) := by
  have hbraces (closing : TokenKind) :
      firstSplit? (braceRules closing ++ codeRules) (c :: cs) =
        firstSplit? codeRules (c :: cs) := by
    refine firstSplit?_append_of_none (fun rule hrule => ?_) codeRules
    refine Fragment.split?_of_refuses ?_ cs
    simp only [braceRules, List.mem_cons, List.not_mem_nil, or_false] at hrule
    rcases hrule with rfl | rfl
    · simpa [Fragment.refuses] using hclose
    · simpa [Fragment.refuses] using hopen
  rcases h with h | h | h <;> rw [h]
  · rw [rules_code]
  · rw [rules_template, hbraces]
  · rw [rules_brace, hbraces]

/-- A rule of code that applies and leaves the states as they are. -/
theorem words_of_codeRules {c : Char} {cs text : List Char} {action : Action}
    {kind? : Option TokenKind} (h : InCode stack) (hopen : c ≠ '\x7b') (hclose : c ≠ '\x7d')
    (hsplit : firstSplit? codeRules (c :: cs) = some (action, text, rest))
    (haction : action.run text stack = (kind?, stack)) :
    reference.words stack (c :: cs) =
      (kind?.map (⟨·, String.ofList text⟩)).toList ++ reference.words stack rest := by
  rw [← firstSplit?_of_inCode h hopen hclose] at hsplit
  rw [Grammar.words_of_firstSplit? hsplit, haction]

/-! ## Characters that begin words -/

/-- A character that begins a word is an ASCII character. -/
theorem toNat_lt_of_wordRest {c : Char} (h : wordRest.contains c = true) : c.toNat < 128 := by
  simp only [wordRest, CharSet.contains, List.any_cons, List.any_nil, Bool.or_false,
    Bool.bne_false, Bool.or_eq_true, Bool.and_eq_true, decide_eq_true_eq] at h
  have hle : c ≤ 'z' := by
    rcases h with ⟨-, h⟩ | ⟨-, h⟩ | ⟨-, h⟩ | ⟨-, h⟩
    · exact Char.le_trans h (by decide)
    · exact h
    · exact Char.le_trans h (by decide)
    · exact Char.le_trans h (by decide)
  exact Nat.lt_of_le_of_lt (Nat.le_of_lt_succ (Nat.lt_succ_of_le hle)) (by decide)

/-- A character that begins a word continues one. -/
theorem wordRest_of_wordStart {c : Char} (h : wordStart.contains c = true) :
    wordRest.contains c = true := by
  simp only [wordStart, wordRest, CharSet.contains, List.any_cons, List.any_nil, Bool.or_false,
    Bool.bne_false, Bool.or_eq_true] at h ⊢
  rcases h with h | h | h
  · exact .inl h
  · exact .inr (.inl h)
  · exact .inr (.inr (.inr h))

/-- What holds of the ASCII characters can be tried out. -/
theorem forall_ascii {p : Char → Prop} (h : ∀ n < 128, p (Char.ofNat n)) {c : Char}
    (hc : c.toNat < 128) : p c := by
  have := h c.toNat hc
  rwa [Char.ofNat_toNat] at this

/-- The rules before those for words refuse the characters that begin words. -/
theorem refuses_of_wordStart {c : Char} (h : wordStart.contains c = true) :
    c ≠ '\x7b' ∧ c ≠ '\x7d' ∧ (codeRules.take 9).all (·.fragment.refuses c) = true := by
  have hall : ∀ n < 128, wordStart.contains (Char.ofNat n) = true → Char.ofNat n ≠ '\x7b' ∧
      Char.ofNat n ≠ '\x7d' ∧
        (codeRules.take 9).all (·.fragment.refuses (Char.ofNat n)) = true := by
    decide +kernel
  exact forall_ascii (p := fun c => wordStart.contains c = true → c ≠ '\x7b' ∧ c ≠ '\x7d' ∧
    (codeRules.take 9).all (·.fragment.refuses c) = true) hall
    (toNat_lt_of_wordRest (wordRest_of_wordStart h)) h

/-! ## Blanks -/

/-- Blanks are passed over. -/
theorem words_blanks (h : InCode stack) {c : Char} {cs : List Char}
    (hc : [' ', '\t', '\r', '\n'].contains c = true) :
    reference.words stack (c :: cs) =
      reference.words stack (cs.dropWhile (CharSet.ofList [' ', '\t', '\r', '\n']).contains) := by
  have hsplit : blanks.split? (c :: cs) =
      some (c :: cs.takeWhile (CharSet.ofList [' ', '\t', '\r', '\n']).contains,
        cs.dropWhile (CharSet.ofList [' ', '\t', '\r', '\n']).contains) := by
    show (Pattern.many1 _).matchStart? (c :: cs) = _
    rw [Pattern.many1, Pattern.matchStart?_run, CharSet.contains_ofList, if_pos hc]
  have hne : c ≠ '\x7b' ∧ c ≠ '\x7d' := by
    constructor
    · rintro rfl
      cases hc
    · rintro rfl
      cases hc
  have hskip (text : List Char) : Action.skip.run text stack = (none, stack) := rfl
  exact words_of_codeRules h hne.1 hne.2
    (firstSplit?_cons_of_split? hsplit (List.cons_ne_nil _ _) _) (hskip _)

/-- A blank is passed over. -/
theorem words_blank (h : InCode stack) {c : Char}
    (hc : [' ', '\t', '\r', '\n'].contains c = true) :
    reference.words stack (c :: rest) = reference.words stack rest := by
  rw [words_blanks h hc]
  cases rest with
  | nil => rfl
  | cons d ds =>
    rw [List.dropWhile_cons, CharSet.contains_ofList]
    split
    · rename_i hd
      exact (words_blanks h hd).symm
    · rfl

/-! ## Words -/

/-- A text goes on with no word and no number. -/
def boundary : List Char → Bool
  | [] => true
  | c :: cs => !wordRest.contains c && !(c == '.' && cs.head?.any Decimal.isDigit)

/-- A run of characters ends where another character follows. -/
theorem takeWhile_append_of_head {p : Char → Bool} {run : List Char}
    (hrun : ∀ c ∈ run, p c = true) (hrest : ∀ c ∈ rest.head?, p c = false) :
    (run ++ rest).takeWhile p = run ∧ (run ++ rest).dropWhile p = rest := by
  rw [List.takeWhile_append_of_pos hrun, List.dropWhile_append_of_pos hrun]
  cases rest with
  | nil => simp
  | cons c cs => simp [hrest c rfl]

/-- A run of characters ends where a text goes on with no word. -/
theorem takeWhile_append_of_boundary {p : Char → Bool} {run : List Char}
    (hp : ∀ c, p c = true → wordRest.contains c = true) (hrun : ∀ c ∈ run, p c = true)
    (h : boundary rest = true) :
    (run ++ rest).takeWhile p = run ∧ (run ++ rest).dropWhile p = rest := by
  refine takeWhile_append_of_head hrun fun c hc => Bool.eq_false_iff.2 fun hcp => ?_
  cases rest with
  | nil => cases hc
  | cons d cs =>
    cases hc
    simp [boundary, hp c hcp] at h

/-- An identifier is read as a whole. -/
theorem split?_identifier {text : List Char} (ht : IsWord text) (h : boundary rest = true) :
    identifier.split? (text ++ rest) = some (text, rest) := by
  cases text with
  | nil => exact ht.elim
  | cons c cs =>
    obtain ⟨htake, hdrop⟩ := takeWhile_append_of_boundary (p := wordRest.contains)
      (fun _ => id) ht.2 h
    show Pattern.matchStart? (.seq (.one wordStart) (.many wordRest true)) (c :: (cs ++ rest)) = _
    rw [Pattern.matchStart?_run, if_pos ht.1, htake, hdrop]

/-- A word is read as a whole. -/
theorem words_word (h : InCode stack) {text : String} (ht : IsWord text.toList)
    (hrest : boundary rest = true) :
    reference.words stack (text.toList ++ rest) =
      ⟨.ofWord text, text⟩ :: reference.words stack rest := by
  cases hcs : text.toList with
  | nil => rw [hcs] at ht; exact ht.elim
  | cons c cs =>
    have hsplit := split?_identifier ht hrest
    rw [hcs] at ht hsplit
    obtain ⟨hopen, hclose, hrefuses⟩ := refuses_of_wordStart ht.1
    have hfirst : firstSplit? codeRules (c :: (cs ++ rest)) = some (.emitWord, c :: cs, rest) := by
      rw [show codeRules = codeRules.take 9 ++ codeRules.drop 9 from rfl,
        firstSplit?_append_of_none fun rule hrule =>
          Fragment.split?_of_refuses (List.all_eq_true.1 hrefuses rule hrule) _]
      exact firstSplit?_cons_of_split? hsplit (List.cons_ne_nil _ _) _
    rw [List.cons_append, words_of_codeRules h hopen hclose hfirst rfl, ← hcs, String.ofList_toList]
    rfl

/-! ## Operators -/

/-- A text does not go on with an operator where it could. -/
def plain : List Char → Bool
  | [] => true
  | c :: _ => !(['=', '/', '*'].contains c)

/-- A text that begins as words go on is plain. -/
theorem plain_of_wordRest {c : Char} (h : wordRest.contains c = true) (cs : List Char) :
    plain (c :: cs) = true := by
  have hne : c ≠ '=' ∧ c ≠ '/' ∧ c ≠ '*' := by
    refine ⟨?_, ?_, ?_⟩ <;> rintro rfl <;> cases h
  simp [plain, hne]

/-- Whether two fragments are the same fixed text or the same pattern. -/
def sameSimple : Fragment → Fragment → Bool
  | .literal text, .literal text' => text == text'
  | .pattern p, .pattern p' => p == p'
  | _, _ => false

/-- Fragments that pass the test are the same. -/
theorem eq_of_sameSimple {f f' : Fragment} (h : sameSimple f f' = true) : f = f' := by
  unfold sameSimple at h
  split at h
  · rw [eq_of_beq h]
  · rw [eq_of_beq h]
  · cases h

/-- Whether a rule passes over an operator that a plain text follows. -/
def passesOver (text : List Char) (rule : Rule) : Bool :=
  text.head?.any rule.fragment.refuses || sameSimple rule.fragment (.literal (text ++ ['='])) ||
    (text == ['/'] || text == ['/', '=']) &&
      (sameSimple rule.fragment lineComment || sameSimple rule.fragment blockComment)

/-- A slash begins a comment only if a slash or a star follows it. -/
theorem split?_comment (hrest : ∀ c ∈ rest.head?, c ≠ '/' ∧ c ≠ '*') :
    lineComment.split? ('/' :: rest) = none ∧ blockComment.split? ('/' :: rest) = none := by
  cases rest with
  | nil => exact ⟨rfl, rfl⟩
  | cons c cs =>
    have hc := hrest c rfl
    constructor <;>
      simp [lineComment, blockComment, Fragment.split?, Pattern.matchStart?, Pattern.rests, hc]

/-- A rule that passes over an operator does not match. -/
theorem split?_of_passesOver {text : List Char} {rule : Rule} (h : passesOver text rule = true)
    (hrest : plain rest = true) : rule.fragment.split? (text ++ rest) = none := by
  simp only [passesOver, Bool.or_eq_true, Bool.and_eq_true, beq_iff_eq] at h
  rcases h with (h | h) | ⟨htext, h⟩
  · cases text with
    | nil => cases h
    | cons c cs => exact Fragment.split?_of_refuses h _
  · rw [eq_of_sameSimple h]
    cases hsplit : (Fragment.literal (text ++ ['='])).split? (text ++ rest) with
    | none => rfl
    | some found =>
      obtain ⟨a, b⟩ := found
      have ha := Fragment.eq_of_split?_literal hsplit
      have hb := Fragment.append_of_split? _ _ _ _ hsplit
      rw [ha, List.append_assoc] at hb
      rw [← List.append_cancel_left hb] at hrest
      cases hrest
  · have hnone : lineComment.split? (text ++ rest) = none ∧
        blockComment.split? (text ++ rest) = none := by
      rcases htext with rfl | rfl
      · refine split?_comment fun c hc => ?_
        cases rest with
        | nil => cases hc
        | cons d ds =>
          cases hc
          constructor <;> rintro rfl <;> cases hrest
      · exact split?_comment fun c hc => by cases hc; decide
    rcases h with h | h <;> rw [eq_of_sameSimple h]
    · exact hnone.1
    · exact hnone.2

/-- The rules before that for an operator pass over it, and those before that for a separator
refuse it. -/
theorem exists_rule_of_operator : ∀ op ∈ TokenKind.operators,
    ∃ n < 38, codeRules[n]? = some ⟨.literal op.1.toList, .emit op.2⟩ ∧
      (codeRules.take n).all (passesOver op.1.toList) = true ∧
      (op.2.isA .separator = true → (codeRules.take n).all
        (fun rule => op.1.toList.head?.any rule.fragment.refuses) = true) := by
  have hall : ∀ op ∈ TokenKind.operators, ∃ n < 38,
      codeRules[n]?.any (fun rule =>
        sameSimple rule.fragment (.literal op.1.toList) && rule.action == .emit op.2) = true ∧
      (codeRules.take n).all (passesOver op.1.toList) = true ∧
      (op.2.isA .separator = true → (codeRules.take n).all
        (fun rule => op.1.toList.head?.any rule.fragment.refuses) = true) := by
    decide +kernel
  intro op hop
  obtain ⟨n, hn, hrule, hpass⟩ := hall op hop
  refine ⟨n, hn, ?_, hpass⟩
  obtain ⟨rule, hget, hsame⟩ := (Option.any_eq_true _ _).1 hrule
  obtain ⟨hfragment, haction⟩ := Bool.and_eq_true_iff.1 hsame
  rw [hget, ← eq_of_sameSimple hfragment, ← eq_of_beq haction]

/-- An operator or separator is a match of its rule. -/
theorem firstSplit?_operator {text : String} {kind : TokenKind}
    (hop : (text, kind) ∈ TokenKind.operators)
    (hrest : kind.isA .separator = true ∨ plain rest = true) :
    firstSplit? codeRules (text.toList ++ rest) = some (.emit kind, text.toList, rest) := by
  obtain ⟨n, hn, hrule, hpass, hseparator⟩ := exists_rule_of_operator _ hop
  have hnone : ∀ rule ∈ codeRules.take n, rule.fragment.split? (text.toList ++ rest) = none := by
    intro rule hmem
    rcases hrest with hkind | hrest
    · have hrefuses := List.all_eq_true.1 (hseparator hkind) rule hmem
      cases htext : text.toList with
      | nil => simp [htext] at hrefuses
      | cons c cs =>
        simp only [htext, List.head?_cons, Option.any_some] at hrefuses
        exact Fragment.split?_of_refuses hrefuses _
    · exact split?_of_passesOver (List.all_eq_true.1 hpass rule hmem) hrest
  have hne : text.toList ≠ [] := by
    have hall : ∀ op ∈ TokenKind.operators, op.1.toList ≠ [] := by decide
    exact hall _ hop
  obtain ⟨hlt, hget⟩ := List.getElem?_eq_some_iff.1 hrule
  rw [← List.take_append_drop n codeRules, firstSplit?_append_of_none hnone,
    List.drop_eq_getElem_cons hlt, hget]
  exact firstSplit?_cons_of_split? (Fragment.split?_literal_append _ _) hne _

/-- An operator or separator is read as a whole. -/
theorem words_operator (h : InCode stack) {text : String} {kind : TokenKind}
    (hop : (text, kind) ∈ TokenKind.operators) (hopen : kind ≠ .leftBrace)
    (hclose : kind ≠ .rightBrace) (hrest : kind.isA .separator = true ∨ plain rest = true) :
    reference.words stack (text.toList ++ rest) =
      ⟨kind, text⟩ :: reference.words stack rest := by
  have hsplit := firstSplit?_operator hop hrest
  have hall : ∀ op ∈ TokenKind.operators, op.2 ≠ .leftBrace → op.2 ≠ .rightBrace →
      op.1.toList.head?.any (fun c => c != '\x7b' && c != '\x7d') = true := by decide
  have hhead := hall _ hop hopen hclose
  cases htext : text.toList with
  | nil => simp [htext] at hhead
  | cons c cs =>
    simp only [htext, List.head?_cons, Option.any_some, Bool.and_eq_true, bne_iff_ne] at hhead
    rw [htext] at hsplit
    have hrun : (Action.emit kind).run (c :: cs) stack = (some kind, stack) := rfl
    have hwords := words_of_codeRules h hhead.1 hhead.2 hsplit hrun
    rw [← htext, String.ofList_toList] at hwords
    exact hwords

end Reference

/-- The word of an operator or separator. -/
def Word.mark (kind : TokenKind) : Word :=
  ⟨kind, ((TokenKind.operators.find? (·.2 == kind)).map (·.1)).getD ""⟩

@[simp] theorem Word.kind_mark (kind : TokenKind) : (Word.mark kind).kind = kind := rfl

namespace Reference

variable {stack : StateStack} {rest : List Char}

/-- The kind of a separator that is one character, other than a brace. -/
def separatorKind : Char → TokenKind
  | '(' => .leftParen
  | ')' => .rightParen
  | ',' => .comma
  | ';' => .semicolon
  | ':' => .colon
  | '.' => .dot
  | _ => .unexpectedCharacter

/-- A separator is read as its word. -/
theorem words_separator (h : InCode stack) {c : Char}
    (hc : separatorKind c ≠ .unexpectedCharacter) :
    reference.words stack (c :: rest) =
      .mark (separatorKind c) :: reference.words stack rest := by
  have hone (text : String) (kind : TokenKind) (hop : (text, kind) ∈ TokenKind.operators)
      (hne : kind ≠ .leftBrace ∧ kind ≠ .rightBrace) (hsep : kind.isA .separator = true) :
      reference.words stack (text.toList ++ rest) = ⟨kind, text⟩ :: reference.words stack rest :=
    words_operator h hop hne.1 hne.2 (.inl hsep)
  revert hc
  unfold separatorKind
  split
  · exact fun _ => hone "(" .leftParen (by decide) (by decide) rfl
  · exact fun _ => hone ")" .rightParen (by decide) (by decide) rfl
  · exact fun _ => hone "," .comma (by decide) (by decide) rfl
  · exact fun _ => hone ";" .semicolon (by decide) (by decide) rfl
  · exact fun _ => hone ":" .colon (by decide) (by decide) rfl
  · exact fun _ => hone "." .dot (by decide) (by decide) rfl
  · exact fun hc => absurd rfl hc

end Reference

end ExprLang
