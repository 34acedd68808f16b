import ExprLang.Proofs.Lexer.Spelling
import ExprLang.Text.Escape

/-!
# Spelling braces, symbols and strings

How the lexer reads the pieces of source text that change its states, and what
stands between quotes.

Main definitions:

- Definition {lit}`Reference.opened`: the states after an opening brace.
- Definition {lit}`textWordsFrom`: the words of the body of a string.

Main results:

- Theorem {lit}`Reference.words_text`: the body of a string.
-/

namespace ExprLang

namespace Reference

variable {stack : StateStack} {rest : List Char}

/-! ## Braces -/

/-- The states after an opening brace. -/
def opened (stack : StateStack) : StateStack :=
  if stack.current = code then stack else stack.push brace

/-- After an opening brace code is read. -/
theorem inCode_opened (stack : StateStack) : InCode (opened stack) := by
  unfold opened
  split
  · exact .inl ‹_›
  · exact .inr (.inr rfl)

/-- A rule with a fixed text applies where the text stands, unless an earlier rule does. -/
theorem words_literal (before after : List Rule) {text : List Char} {action : Action}
    (hrules : reference.rules stack.current = before ++ ⟨.literal text, action⟩ :: after)
    (hbefore : ∀ rule ∈ before, text.head?.any rule.fragment.refuses = true) (hne : text ≠ []) :
    reference.words stack (text ++ rest) =
      ((action.run text stack).1.map (⟨·, String.ofList text⟩)).toList ++
        reference.words (action.run text stack).2 rest := by
  have hsplit : firstSplit? (reference.rules stack.current) (text ++ rest) =
      some (action, text, rest) := by
    rw [hrules, firstSplit?_append_of_none fun rule hrule => ?_]
    · exact firstSplit?_cons_of_split? (Fragment.split?_literal_append text rest) hne _
    · have hrefuses := hbefore rule hrule
      cases text with
      | nil => exact absurd rfl hne
      | cons c cs => exact Fragment.split?_of_refuses hrefuses _
  exact Grammar.words_of_firstSplit? hsplit

/-- An opening brace. -/
theorem words_leftBrace (h : InCode stack) :
    reference.words stack ('\x7b' :: rest) =
      .mark .leftBrace :: reference.words (opened stack) rest := by
  unfold opened
  by_cases hcode : stack.current = code
  · rw [if_pos hcode]
    exact words_literal (codeRules.take 32) (codeRules.drop 33) (by rw [hcode, rules_code]; rfl)
      (by decide) (by decide)
  · rw [if_neg hcode]
    rcases h with h | h | h
    · exact absurd h hcode
    · exact words_literal [_] codeRules (by rw [h, rules_template]; rfl) (by decide)
        (by decide)
    · exact words_literal [_] codeRules (by rw [h, rules_brace]; rfl) (by decide)
        (by decide)

/-- The closing brace after what an opening brace opened. -/
theorem words_rightBrace (stack : StateStack) (rest : List Char) :
    reference.words (opened stack) ('\x7d' :: rest) =
      .mark .rightBrace :: reference.words stack rest := by
  unfold opened
  by_cases hcode : stack.current = code
  · rw [if_pos hcode]
    exact words_literal (codeRules.take 33) (codeRules.drop 34) (by rw [hcode, rules_code]; rfl)
      (by decide) (by decide)
  · rw [if_neg hcode]
    exact words_literal [] _ (by rw [stack.current_push brace, rules_brace]; rfl) nofun (by decide)

/-! ## Symbols -/

/-- A symbol is read as a whole. -/
theorem words_symbol (h : InCode stack) {name : String} (hname : IsWord name.toList)
    (hrest : boundary rest = true) :
    reference.words stack ('\'' :: (name.toList ++ rest)) =
      ⟨.symbolLiteral, String.ofList ('\'' :: name.toList)⟩ :: reference.words stack rest := by
  have hrules : codeRules = codeRules.take 8 ++
      ⟨.both (.literal ['\'']) identifier, .emit .symbolLiteral⟩ :: codeRules.drop 9 := rfl
  have hrefuses : ∀ rule ∈ codeRules.take 8, rule.fragment.refuses '\'' = true := by
    decide
  have hsplit : firstSplit? codeRules ('\'' :: (name.toList ++ rest)) =
      some (.emit .symbolLiteral, '\'' :: name.toList, rest) := by
    rw [hrules, firstSplit?_append_of_none fun rule hrule =>
      Fragment.split?_of_refuses (hrefuses rule hrule) _]
    exact firstSplit?_cons_of_split? (Fragment.split?_both
      (Fragment.split?_literal_append ['\''] _) (split?_identifier hname hrest)) (by simp) _
  have hrun (text : List Char) : (Action.emit .symbolLiteral).run text stack =
      (some .symbolLiteral, stack) := rfl
  exact words_of_codeRules h (by decide) (by decide) hsplit (hrun _)

/-! ## Quotes and placeholders -/

/-- An opening quote. -/
theorem words_stringStart (h : InCode stack) :
    reference.words stack ('"' :: rest) =
      ⟨.stringStart, "\""⟩ :: reference.words (stack.push string) rest := by
  have hsplit : firstSplit? codeRules ('"' :: rest) =
      some (.push .stringStart string, ['"'], rest) := by
    have hrules : codeRules = codeRules.take 3 ++
        ⟨.literal ['"'], .push .stringStart string⟩ :: codeRules.drop 4 := rfl
    have hrefuses : ∀ rule ∈ codeRules.take 3, rule.fragment.refuses '"' = true := by
      decide
    rw [hrules, firstSplit?_append_of_none fun rule hrule =>
      Fragment.split?_of_refuses (hrefuses rule hrule) _]
    exact firstSplit?_cons_of_split? (Fragment.split?_literal_append ['"'] rest) (by simp) _
  rw [← firstSplit?_of_inCode h (by decide) (by decide)] at hsplit
  exact Grammar.words_of_firstSplit? hsplit

/-- A closing quote. -/
theorem words_stringEnd (stack : StateStack) (rest : List Char) :
    reference.words (stack.push string) ('"' :: rest) =
      ⟨.stringEnd, "\""⟩ :: reference.words stack rest :=
  words_literal (stringRules.take 4) (stringRules.drop 5)
    (by rw [stack.current_push string, rules_string]; rfl) (by decide) (by decide)

/-- The start of a placeholder. -/
theorem words_templateStart (stack : StateStack) (rest : List Char) :
    reference.words (stack.push string) ('\\' :: '\x7b' :: rest) =
      ⟨.templateStart, "\\\x7b"⟩ ::
        reference.words ((stack.push string).push template) rest :=
  words_literal [] (stringRules.drop 1)
    (by rw [stack.current_push string, rules_string]; rfl) nofun (by decide)

/-- The end of a placeholder. -/
theorem words_templateEnd (stack : StateStack) (rest : List Char) :
    reference.words (stack.push template) ('\x7d' :: rest) =
      ⟨.templateEnd, "\x7d"⟩ :: reference.words stack rest :=
  words_literal [] _ (by rw [stack.current_push template, rules_template]; rfl) nofun (by decide)

/-- In a placeholder code is read. -/
theorem inCode_template (stack : StateStack) : InCode (stack.push template) := .inr (.inl rfl)

end Reference

/-! ## Bodies of strings -/

/-- The word of characters that stand for themselves, if there are any. -/
def runWords (run : List Char) : List Word :=
  if run = [] then [] else [⟨.stringContent, String.ofList run⟩]

/-- The words of the body of a string whose first characters, which stand for themselves, are
already found. -/
def textWordsFrom (run : List Char) : List Char → List Word
  | [] => runWords run
  | c :: cs =>
    if Text.escapeChar c = [c] then textWordsFrom (run ++ [c]) cs
    else runWords run ++ ⟨.stringEscape, String.ofList (Text.escapeChar c)⟩ :: textWordsFrom [] cs

/-- The words of the body of a string. -/
def textWords (cs : List Char) : List Word := textWordsFrom [] cs

namespace Reference

variable {stack : StateStack} {rest : List Char}

/-- A text where a run of characters that stand for themselves ends. -/
def quoted : List Char → Bool
  | [] => false
  | c :: _ => c == '"' || c == '\\'

/-- The characters that stand for themselves in a string. -/
def contentSet : CharSet := .except ['"', '\\']

/-- A run of characters that stand for themselves. -/
theorem words_runWords {run : List Char} (hrun : ∀ c ∈ run, contentSet.contains c = true)
    (hrest : quoted rest = true) :
    reference.words (stack.push string) (run ++ rest) =
      runWords run ++ reference.words (stack.push string) rest := by
  cases run with
  | nil => rfl
  | cons c cs =>
    have hc := hrun c (List.mem_cons_self ..)
    have hstop : rest.takeWhile contentSet.contains = [] ∧
        rest.dropWhile contentSet.contains = rest := by
      cases rest with
      | nil => cases hrest
      | cons d ds =>
        have hd : contentSet.contains d = false := by
          simp only [quoted, Bool.or_eq_true, beq_iff_eq] at hrest
          rcases hrest with rfl | rfl <;> decide
        simp [hd]
    have hcontent : content.split? (c :: (cs ++ rest)) = some (c :: cs, rest) := by
      show (Pattern.many1 contentSet).matchStart? (c :: (cs ++ rest)) = _
      have hall : ∀ d ∈ cs, contentSet.contains d = true :=
        fun d hd => hrun d (List.mem_cons_of_mem _ hd)
      rw [Pattern.many1, Pattern.matchStart?_run, if_pos hc, List.takeWhile_append_of_pos hall,
        List.dropWhile_append_of_pos hall, hstop.1, hstop.2, List.append_nil]
    have hne : c ≠ '\\' := by
      rintro rfl
      cases hc
    have hrefuses : ∀ rule ∈ stringRules.take 3, rule.fragment.refuses c = true := by
      intro rule hrule
      have hrules : stringRules.take 3 =
          [⟨.literal ['\\', '\x7b'], .push .templateStart template⟩,
            ⟨numberEscape, .emit .stringEscape⟩, ⟨namedEscape, .emit .stringEscape⟩] := rfl
      rw [hrules] at hrule
      simp only [List.mem_cons, List.not_mem_nil, or_false] at hrule
      rcases hrule with rfl | rfl | rfl <;>
        simp [Fragment.refuses, Pattern.refuses, numberEscape, namedEscape, hne]
    have hrules : reference.rules (stack.push string).current = stringRules.take 3 ++
        ⟨content, .emit .stringContent⟩ :: stringRules.drop 4 := by
      rw [StateStack.current_push, rules_string]
      rfl
    have hsplit : firstSplit? (reference.rules (stack.push string).current)
        (c :: (cs ++ rest)) = some (.emit .stringContent, c :: cs, rest) := by
      rw [hrules, firstSplit?_append_of_none fun rule hrule =>
        Fragment.split?_of_refuses (hrefuses rule hrule) _]
      exact firstSplit?_cons_of_split? hcontent (List.cons_ne_nil _ _) _
    exact Grammar.words_of_firstSplit? hsplit

/-- A character is written as an escape sequence only in one of two ways. -/
theorem escapeChar_cases {c : Char} (h : Text.escapeChar c ≠ [c]) :
    (∃ d ∈ ['n', 't', 'r', '0', '\\', '"'], Text.escapeChar c = ['\\', d]) ∨
      Text.escapeChar c = '\\' :: 'u' :: Text.hexWord c.toNat := by
  revert h
  unfold Text.escapeChar
  repeat' split
  all_goals first
    | exact fun _ => .inl ⟨_, by simp, rfl⟩
    | exact fun _ => .inr rfl
    | exact fun h => absurd rfl h

/-- A backslash that begins no placeholder. -/
theorem split?_templateStart {c : Char} (hc : c ≠ '\x7b') (cs : List Char) :
    (Fragment.literal ['\\', '\x7b']).split? ('\\' :: c :: cs) = none := by
  rw [Fragment.split?_literal_cons, if_pos rfl, Fragment.split?_literal_cons, if_neg hc]
  rfl

/-- A backslash and a character that it changes. -/
theorem firstSplit?_namedEscape {d : Char} (hd : d ∈ ['n', 't', 'r', '0', '\\', '"'])
    (rest : List Char) :
    firstSplit? stringRules ('\\' :: d :: rest) =
      some (.emit .stringEscape, ['\\', d], rest) := by
  have hlen : rest.length + 1 + 1 - rest.length = 2 := by omega
  have hne : d ≠ '\x7b' ∧ d ≠ 'u' := by
    constructor <;> rintro rfl <;> exact absurd hd (by decide)
  have hset : (CharSet.ofList ['n', 't', 'r', '0', '\\', '"', '\'']).contains d = true := by
    rw [CharSet.contains_ofList, List.contains_iff_mem]
    exact List.mem_append_left ['\''] hd
  have hnumber : numberEscape.split? ('\\' :: d :: rest) = none := by
    simp [numberEscape, Fragment.split?, Pattern.matchStart?, Pattern.rests, hne.2]
  have hnamed : namedEscape.split? ('\\' :: d :: rest) = some (['\\', d], rest) := by
    simp only [namedEscape, Fragment.split?, Pattern.matchStart?, Pattern.rests,
      CharSet.contains_only, beq_self_eq_true, if_true, List.flatMap_cons, List.flatMap_nil,
      List.append_nil, hset, List.head?_cons, Option.map_some, List.length_cons, hlen]
    rfl
  have hrules : stringRules = ⟨.literal ['\\', '\x7b'], .push .templateStart template⟩ ::
      ⟨numberEscape, .emit .stringEscape⟩ :: ⟨namedEscape, .emit .stringEscape⟩ ::
        stringRules.drop 3 := rfl
  rw [hrules, firstSplit?_cons_of_none (split?_templateStart hne.1 rest),
    firstSplit?_cons_of_none hnumber]
  exact firstSplit?_cons_of_split? hnamed (by simp) _

/-- A backslash, `u` and four hexadecimal digits. -/
theorem firstSplit?_numberEscape (n : Nat) (rest : List Char) :
    firstSplit? stringRules ('\\' :: 'u' :: (Text.hexWord n ++ rest)) =
      some (.emit .stringEscape, '\\' :: 'u' :: Text.hexWord n, rest) := by
  have hhex : ∀ n < 16, CharSet.contains ⟨false, [('0', '9'), ('a', 'f'), ('A', 'F')]⟩
      (Nat.digitChar n) = true := by decide
  have hdigit (n : Nat) := hhex (n % 16) (Nat.mod_lt n (by decide))
  have hlen : rest.length + 1 + 1 + 1 + 1 + 1 + 1 - rest.length = 6 := by omega
  have hnumber : numberEscape.split? ('\\' :: 'u' :: (Text.hexWord n ++ rest)) =
      some ('\\' :: 'u' :: Text.hexWord n, rest) := by
    simp only [numberEscape, Text.hexWord, Fragment.split?, Pattern.matchStart?, Pattern.rests,
      Pattern.times, List.cons_append, List.nil_append, CharSet.contains_only, beq_self_eq_true,
      if_true, List.flatMap_cons, List.flatMap_nil, List.append_nil, hdigit, List.head?_cons,
      Option.map_some, List.length_cons, hlen]
    rfl
  have hrules : stringRules = ⟨.literal ['\\', '\x7b'], .push .templateStart template⟩ ::
      ⟨numberEscape, .emit .stringEscape⟩ :: stringRules.drop 2 := rfl
  rw [hrules, firstSplit?_cons_of_none (split?_templateStart (by decide) _)]
  exact firstSplit?_cons_of_split? hnumber (by simp) _

/-- An escape sequence. -/
theorem words_escapeChar {c : Char} (h : Text.escapeChar c ≠ [c]) :
    reference.words (stack.push string) (Text.escapeChar c ++ rest) =
      ⟨.stringEscape, String.ofList (Text.escapeChar c)⟩ ::
        reference.words (stack.push string) rest := by
  have hsplit : firstSplit? (reference.rules (stack.push string).current)
      (Text.escapeChar c ++ rest) =
        some (.emit .stringEscape, Text.escapeChar c, rest) := by
    rw [StateStack.current_push, rules_string]
    rcases escapeChar_cases h with ⟨d, hd, he⟩ | he
    · rw [he]
      exact firstSplit?_namedEscape hd rest
    · rw [he]
      exact firstSplit?_numberEscape c.toNat rest
  exact Grammar.words_of_firstSplit? hsplit

/-- An escape sequence is quoted. -/
theorem quoted_escapeChar {c : Char} (h : Text.escapeChar c ≠ [c]) (cs : List Char) :
    quoted (Text.escapeChar c ++ cs) = true := by
  rcases escapeChar_cases h with ⟨d, -, he⟩ | he <;> rw [he] <;> rfl

/-- A character that is written as itself stands for itself. -/
theorem contains_contentSet {c : Char} (h : Text.escapeChar c = [c]) :
    contentSet.contains c = true := by
  have hne : c ≠ '"' ∧ c ≠ '\\' := by
    constructor <;> rintro rfl <;> cases h
  simp [contentSet, hne]

/-- The body of a string whose first characters stand for themselves. -/
theorem words_textWordsFrom {run : List Char} (hrun : ∀ c ∈ run, contentSet.contains c = true)
    (cs : List Char) (hrest : quoted rest = true) :
    reference.words (stack.push string) (run ++ (Text.escape cs ++ rest)) =
      textWordsFrom run cs ++ reference.words (stack.push string) rest := by
  induction cs generalizing run with
  | nil => exact words_runWords hrun hrest
  | cons c cs ih =>
    rw [Text.escape_cons, textWordsFrom, List.append_assoc]
    split
    · rename_i hc
      rw [hc, List.singleton_append, ← List.singleton_append, ← List.append_assoc]
      refine ih fun d hd => ?_
      rcases List.mem_append.1 hd with hd | hd
      · exact hrun d hd
      · rw [List.mem_singleton.1 hd]
        exact contains_contentSet hc
    · rename_i hc
      rw [words_runWords hrun (quoted_escapeChar hc _), words_escapeChar hc, List.append_assoc,
        List.cons_append]
      have hempty : ∀ d ∈ ([] : List Char), contentSet.contains d = true := nofun
      exact congrArg (runWords run ++ _ :: ·) (ih hempty)

/-- The body of a string. -/
theorem words_text (stack : StateStack) (cs : List Char) (hrest : quoted rest = true) :
    reference.words (stack.push string) (Text.escape cs ++ rest) =
      textWords cs ++ reference.words (stack.push string) rest := by
  have hempty : ∀ d ∈ ([] : List Char), contentSet.contains d = true := nofun
  exact words_textWordsFrom hempty cs hrest

end Reference

end ExprLang
