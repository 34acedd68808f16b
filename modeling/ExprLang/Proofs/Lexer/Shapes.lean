import ExprLang.Lexer.Reference
import ExprLang.Proofs.Lexer.Split

/-!
# Shapes of matches

What the fragments of the language match: runs of characters of a set, and
fixed texts.  A fragment that cannot begin with the next character does not
match.

Main definitions:

- Definition {lit}`Fragment.refuses`: a fragment cannot begin with a character.

Main results:

- Theorem {lit}`Pattern.matchStart?_run`: a character and a run of others.
- Theorem {lit}`Fragment.split?_of_refuses`: a fragment that cannot begin with
  the next character.
-/

namespace ExprLang

/-! ## Runs -/

/-- Of the runs of a set the longest ends at the first character outside the set. -/
theorem CharSet.getLast?_runs (s : CharSet) (cs : List Char) :
    (s.runs cs).getLast? = some (cs.dropWhile s.contains) := by
  induction cs with
  | nil => rfl
  | cons c cs ih =>
    rw [runs, List.dropWhile_cons]
    cases h : s.contains c with
    | true => simp [List.getLast?_cons, ih]
    | false => rfl

namespace Pattern

/-- One character of a set. -/
theorem matchStart?_one (s : CharSet) (c : Char) (cs : List Char) :
    (one s).matchStart? (c :: cs) = if s.contains c then some ([c], cs) else none := by
  unfold matchStart? rests
  split
  · simp
  · rfl

/-- A character of a set, and as many of another set as follow. -/
theorem matchStart?_run (s t : CharSet) (c : Char) (cs : List Char) :
    (seq (one s) (many t true)).matchStart? (c :: cs) =
      if s.contains c then some (c :: cs.takeWhile t.contains, cs.dropWhile t.contains)
      else none := by
  have hlen : (c :: cs).length - (cs.dropWhile t.contains).length =
      (cs.takeWhile t.contains).length + 1 := by
    have hsum := congrArg List.length (List.takeWhile_append_dropWhile (p := t.contains) (l := cs))
    rw [List.length_append] at hsum
    simp only [List.length_cons]
    omega
  have htake : cs.take (cs.takeWhile t.contains).length = cs.takeWhile t.contains :=
    List.prefix_iff_eq_take.1 (List.takeWhile_prefix t.contains) |>.symm
  unfold matchStart?
  cases h : s.contains c with
  | true =>
    have hhead : ((seq (one s) (many t true)).rests (c :: cs)).head? =
        some (cs.dropWhile t.contains) := by
      simp [rests, h, CharSet.getLast?_runs]
    rw [hhead, Option.map_some, hlen, List.take_succ_cons, htake]
    rfl
  | false => simp [rests, h]

end Pattern

/-! ## First characters -/

/-- Whether a pattern matches no text that begins with a character. -/
def Pattern.refuses (c : Char) : Pattern → Bool
  | .one s => !s.contains c
  | .seq first _ => first.refuses c
  | .alt first second => first.refuses c && second.refuses c
  | .empty | .many .. => false

/-- Whether a fragment matches no text that begins with a character. -/
def Fragment.refuses (c : Char) : Fragment → Bool
  | .literal [] => false
  | .literal (d :: _) => c != d
  | .pattern p => p.refuses c
  | .both first _ => first.refuses c
  | .either first second => first.refuses c && second.refuses c
  | .search _ | .zeroOrMore _ => false
  | .oneOrMore item => item.refuses c

/-- A pattern does not match what it refuses. -/
theorem Pattern.rests_of_refuses {p : Pattern} {c : Char} (h : p.refuses c = true)
    (cs : List Char) : p.rests (c :: cs) = [] := by
  induction p with
  | empty => cases h
  | many => cases h
  | one s =>
    have hs : s.contains c = false := by simpa [refuses] using h
    simp [rests, hs]
  | seq first second ihf _ =>
    rw [rests, ihf h]
    rfl
  | alt first second ihf ihs =>
    obtain ⟨hf, hs⟩ := Bool.and_eq_true_iff.1 h
    rw [rests, ihf hf, ihs hs]
    rfl

namespace Fragment

/-- A fragment does not match what it refuses. -/
theorem split?_of_refuses {f : Fragment} {c : Char} (h : f.refuses c = true) (cs : List Char) :
    f.split? (c :: cs) = none := by
  induction f with
  | literal text =>
    cases text with
    | nil => cases h
    | cons d ds =>
      have hne : c ≠ d := by simpa [refuses] using h
      simp only [split?, List.length_cons, Cursor.splitExactly?]
      rw [Option.filter_eq_none_iff]
      intro found hfound
      obtain ⟨pieces, -, rfl⟩ := Option.map_eq_some_iff.1 hfound
      simp [hne]
  | pattern p => simp [split?, Pattern.matchStart?, Pattern.rests_of_refuses h]
  | search => cases h
  | both first second ihf _ => simp [split?, ihf h]
  | either first second ihf ihs =>
    obtain ⟨hf, hs⟩ := Bool.and_eq_true_iff.1 h
    simp [split?, ihf hf, ihs hs]
  | zeroOrMore => cases h
  | oneOrMore item ih => simp [split?, ih h]

/-- A fixed text is split off where it stands. -/
@[simp] theorem split?_literal_append (text rest : List Char) :
    (literal text).split? (text ++ rest) = some (text, rest) := by
  simp [split?, Cursor.splitExactly?_append, Option.filter]

/-- A fixed text matches itself only. -/
theorem eq_of_split?_literal {text cs found rest : List Char}
    (h : (literal text).split? cs = some (found, rest)) : found = text := by
  simpa using (Option.filter_eq_some_iff.1 h).2

/-- Two fragments one after the other. -/
theorem split?_both {first second : Fragment} {cs a middle b rest : List Char}
    (hf : first.split? cs = some (a, middle)) (hs : second.split? middle = some (b, rest)) :
    (both first second).split? cs = some (a ++ b, rest) := by
  simp [split?, hf, hs]

/-- Two fragments one after the other do not match if the first does not. -/
theorem split?_both_of_first {first second : Fragment} {cs : List Char}
    (hf : first.split? cs = none) : (both first second).split? cs = none := by
  simp [split?, hf]

/-- Two fragments one after the other do not match if the second does not match what the first
leaves over. -/
theorem split?_both_of_second {first second : Fragment} {cs a middle : List Char}
    (hf : first.split? cs = some (a, middle)) (hs : second.split? middle = none) :
    (both first second).split? cs = none := by
  simp [split?, hf, hs]

/-- An optional fragment that matches. -/
theorem split?_optional {f : Fragment} {cs a rest : List Char} (h : f.split? cs = some (a, rest)) :
    (optional f).split? cs = some (a, rest) := by
  simp [optional, split?, h]

/-- An optional fragment that does not match. -/
theorem split?_optional_of_none {f : Fragment} {cs : List Char} (h : f.split? cs = none) :
    (optional f).split? cs = some ([], cs) := by
  simp [optional, split?, h, Cursor.splitExactly?, Option.filter]

end Fragment

/-! ## Rules -/

/-- Rules that do not match are passed over. -/
theorem firstSplit?_append_of_none {rules : List Rule} {cs : List Char}
    (h : ∀ rule ∈ rules, rule.fragment.split? cs = none) (others : List Rule) :
    firstSplit? (rules ++ others) cs = firstSplit? others cs := by
  induction rules with
  | nil => rfl
  | cons rule rules ih =>
    rw [List.cons_append, firstSplit?, h rule (List.mem_cons_self ..)]
    exact ih fun other ho => h other (List.mem_cons_of_mem _ ho)

/-- A rule that does not match is passed over. -/
theorem firstSplit?_cons_of_none {rule : Rule} {cs : List Char}
    (h : rule.fragment.split? cs = none) (rules : List Rule) :
    firstSplit? (rule :: rules) cs = firstSplit? rules cs := by
  rw [firstSplit?, h]

/-- A rule that matches no more than the empty text is passed over. -/
theorem firstSplit?_cons_of_empty {rule : Rule} {cs : List Char}
    (h : ∀ text rest, rule.fragment.split? cs = some (text, rest) → text = []) (rules : List Rule) :
    firstSplit? (rule :: rules) cs = firstSplit? rules cs := by
  cases hs : rule.fragment.split? cs with
  | none => exact firstSplit?_cons_of_none hs rules
  | some pieces =>
    rw [firstSplit?, hs]
    simp [h pieces.1 pieces.2 hs]

/-- A rule that matches applies. -/
theorem firstSplit?_cons_of_split? {rule : Rule} {cs text rest : List Char}
    (h : rule.fragment.split? cs = some (text, rest)) (hne : text ≠ []) (rules : List Rule) :
    firstSplit? (rule :: rules) cs = some (rule.action, text, rest) := by
  have hempty : text.isEmpty = false := by simpa using hne
  rw [firstSplit?, h]
  simp [hempty]

/-! ## The states of the language -/

namespace Reference

/-- The rules of code. -/
theorem rules_code : reference.rules code = codeRules := by
  simp [Grammar.rules, Grammar.rulesWithin, Grammar.state?, reference, code]

/-- The rules of the body of a string. -/
theorem rules_string : reference.rules string = stringRules := by
  simp [Grammar.rules, Grammar.rulesWithin, Grammar.state?, reference, string]

/-- The rules of the code of a placeholder. -/
theorem rules_template :
    reference.rules template = braceRules .templateEnd ++ codeRules := by
  simp [Grammar.rules, Grammar.rulesWithin, Grammar.state?, reference, template, code]

/-- The rules inside braces inside a placeholder. -/
theorem rules_brace : reference.rules brace = braceRules .rightBrace ++ codeRules := by
  simp [Grammar.rules, Grammar.rulesWithin, Grammar.state?, reference, brace, code]

end Reference

end ExprLang
