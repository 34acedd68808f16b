import ExprLang.Proofs.Lexer.Cuts

/-!
# What comes before a closing brace

No match of the language reaches over a closing brace unless it ends behind it, and
only comments look for something behind one.  So the tokens before a closing brace
are the same whatever text follows the brace, as long as that does not end a comment
which had no end before.

Main definitions:

- Definition {lit}`Reference.CommentEndsIn`: a text has no end of a comment if
  another one has none.
- Definition {lit}`Reference.isLocal`: the fragments that match the same before
  different endings.

Main results:

- Theorem {lit}`Reference.matchesAlike_blockComment`: comments before two endings.
- Theorem {lit}`Lexer.Gives.words_eq`: the words before a closing brace.
-/

namespace ExprLang

variable {cs tail tail' : List Char}

namespace Reference

open Fragment

variable {last : List Char → Prop}

/-! ## Fragments that look at one character -/

/-- A character and a run of others. -/
theorem matchesAlike_run (s t : CharSet) (hcs : cs ≠ []) :
    (pattern (.seq (.one s) (.many t true))).MatchesAlike cs tail tail' fun _ => False := by
  refine matchesAlike_of_settles (cuts_pattern _) (settles_run s t) fun h => ?_
  obtain ⟨c, cs, rfl⟩ := List.exists_cons_of_ne_nil hcs
  simp only [List.cons_append, split?, Pattern.matchStart?_run] at h ⊢
  split at h
  · cases h
  · rw [if_neg (by assumption)]

/-- One character. -/
theorem matchesAlike_one (s : CharSet) (hcs : cs ≠ []) :
    (pattern (.one s)).MatchesAlike cs tail tail' last := by
  obtain ⟨c, cs, rfl⟩ := List.exists_cons_of_ne_nil hcs
  refine ⟨fun h => ?_, fun text rest happend _ h => ?_⟩ <;>
    simp only [List.cons_append, split?, Pattern.matchStart?_one] at h ⊢ <;> split at h
  · cases h
  · rw [if_neg (by assumption)]
  · rename_i hc
    obtain ⟨rfl, -⟩ := Prod.mk.inj (Option.some.inj h)
    rw [if_pos hc, ← (List.cons.inj happend).2]
    rfl
  · cases h

/-- A fixed character. -/
theorem matchesAlike_literal (c : Char) (hcs : cs ≠ []) :
    (literal [c]).MatchesAlike cs tail tail' last := by
  obtain ⟨d, cs, rfl⟩ := List.exists_cons_of_ne_nil hcs
  refine ⟨fun h => ?_, fun text rest happend _ h => ?_⟩
  · rw [List.cons_append, split?_literal_cons] at h ⊢
    split at h
    · cases h
    · rw [if_neg (by assumption)]
  · rw [eq_of_split?_literal h] at happend ⊢
    rw [← happend, List.append_assoc, split?_literal_append]

/-! ## Comments -/

/-- Two slashes and the rest of the line. -/
theorem settles_lineComment (before : Char → Prop) : lineComment.Settles before := by
  refine settles_pattern fun cs c rest h tail => ?_
  rw [Pattern.rests] at h ⊢
  rcases rests_pair '/' '/' cs with hnone | ⟨more, rfl, hmore⟩
  · rw [hnone] at h
    cases h
  · rw [hmore, List.flatMap_singleton] at h
    have hpair : (Pattern.seq (.one (.only '/')) (.one (.only '/'))).rests
        ('/' :: '/' :: more ++ tail) = [more ++ tail] := by
      simp [Pattern.rests]
    rw [hpair, List.flatMap_singleton]
    exact head?_rests_many_append h tail

/-- A comment to the end of the line begins before an ending or is not there, unless a slash
before the ending and one behind it begin one. -/
theorem matchesAlike_lineComment (hcs : cs ≠ []) (htail : cs = ['/'] → tail'.head? ≠ some '/') :
    lineComment.MatchesAlike cs tail tail' fun _ => False := by
  refine matchesAlike_of_settles (cuts_pattern _) (settles_lineComment _) fun h => ?_
  cases hsplit : lineComment.split? (cs ++ tail') with
  | none => rfl
  | some pieces =>
    obtain ⟨more, hmore⟩ := exists_of_split?_lineComment hsplit
    rcases cs with _ | ⟨a, _ | ⟨b, cs⟩⟩
    · exact absurd rfl hcs
    · obtain ⟨rfl, rfl⟩ := List.cons.inj hmore
      exact absurd rfl (htail rfl)
    · cases hmore
      rw [List.cons_append, List.cons_append, split?_slashes] at h
      cases h

/-- A comment that has an end is there wherever a slash and a star stand before a star and a
slash. -/
theorem split?_blockComment_ne_none_iff : blockComment.split? cs ≠ none ↔
    ∃ front back, cs = '/' :: '*' :: (front ++ '*' :: '/' :: back) := by
  constructor
  · intro h
    obtain ⟨pieces, hsplit⟩ := Option.ne_none_iff_exists'.1 h
    obtain ⟨text, rest⟩ := pieces
    obtain ⟨body, rfl, -⟩ := exists_of_split?_blockComment hsplit
    exact ⟨body, rest, by simp [← append_of_split? _ _ _ _ hsplit]⟩
  · rintro ⟨front, back, rfl⟩
    obtain ⟨after, others, hafter⟩ := List.exists_cons_of_ne_nil (commentEnds_ne_nil front back)
    obtain ⟨first, hfirst, hends⟩ := head?_commentEnds.1 (congrArg List.head? hafter)
    have hread : blockComment.split? ('/' :: '*' :: first ++ ['*', '/'] ++ after) = _ :=
      split?_blockComment hends
    simp only [List.cons_append, List.append_assoc, List.nil_append] at hread
    rw [hfirst, hread]
    exact nofun

/-- A text has no end of a comment if another one has none. -/
def CommentEndsIn (tail' tail : List Char) : Prop :=
  (∃ front back, tail' = front ++ '*' :: '/' :: back) →
    ∃ front back, tail = front ++ '*' :: '/' :: back

/-- A star and a slash stand before a character that is neither or behind it. -/
theorem exists_commentEnd_of_append {c : Char} (hstar : c ≠ '*') (hslash : c ≠ '/')
    {front back : List Char} (h : cs ++ c :: tail = front ++ '*' :: '/' :: back) :
    (∃ front back, cs = front ++ '*' :: '/' :: back) ∨
      ∃ front back, tail = front ++ '*' :: '/' :: back := by
  rcases List.append_eq_append_iff.1 h with ⟨e, rfl, he⟩ | ⟨e, rfl, he⟩
  · rcases e with _ | ⟨d, e⟩
    · exact absurd (List.cons.inj he).1 hstar
    · exact .inr ⟨e, back, (List.cons.inj he).2⟩
  · rcases e with _ | ⟨d, _ | ⟨d', e⟩⟩
    · exact absurd (List.cons.inj he).1.symm hstar
    · exact absurd (List.cons.inj (List.cons.inj he).2).1.symm hslash
    · cases he
      exact .inl ⟨front, e, rfl⟩

/-- A comment that begins before an ending has an end before two endings or before none, provided
that the second ending has one only if the first has. -/
theorem matchesAlike_blockComment {c : Char} (hcs : cs ≠ []) (hstar : c ≠ '*') (hslash : c ≠ '/')
    (htail : ['/', '*'] <+: cs → CommentEndsIn tail' tail) :
    blockComment.MatchesAlike cs tail (c :: tail') last := by
  refine ⟨fun h => ?_, fun text rest happend _ h => ?_⟩
  · by_contra hsplit
    obtain ⟨front, back, hfront⟩ := split?_blockComment_ne_none_iff.1 hsplit
    -- the first two characters come before the ending
    rcases cs with _ | ⟨a, _ | ⟨b, cs⟩⟩
    · exact hcs rfl
    · exact hstar (List.cons.inj (List.cons.inj hfront).2).1
    obtain ⟨rfl, hrest⟩ := List.cons.inj hfront
    obtain ⟨rfl, hmore⟩ := List.cons.inj hrest
    refine split?_blockComment_ne_none_iff.2 ?_ h
    rcases exists_commentEnd_of_append hstar hslash hmore with ⟨front, back, rfl⟩ | hbehind
    · exact ⟨front, back ++ tail, by simp⟩
    · obtain ⟨front, back, rfl⟩ := htail ⟨cs, rfl⟩ hbehind
      exact ⟨cs ++ front, back, by simp⟩
  · obtain ⟨body, rfl, hfirst⟩ := exists_of_split?_blockComment h
    rw [← happend, List.append_assoc]
    exact split?_blockComment hfirst

/-! ## Rules -/

/-- Whether a fragment is one of those that match the same up to a character, whatever follows
it. -/
def isLocal (c : Char) (f : Fragment) : Bool :=
  f.avoids c || sameSimple f (.literal [c]) || sameSimple f anyCharacter || sameSimple f content ||
    sameSimple f blanks || sameSimple f lineComment || sameSimple f blockComment

/-- The rules of all states. -/
def allRules : List Rule :=
  codeRules ++ (stringRules ++ (braceRules .templateEnd ++ braceRules .rightBrace))

/-- Every rule that applies in some state is one of them. -/
theorem mem_allRules {id : StateId} {rule : Rule} (h : rule ∈ reference.rules id) :
    rule ∈ allRules := by
  simp only [allRules, List.mem_append]
  obtain ⟨_ | _ | _ | _ | n⟩ := id
  · rw [show reference.rules ⟨0⟩ = _ from rules_code] at h
    exact .inl h
  · rw [show reference.rules ⟨1⟩ = _ from rules_string] at h
    exact .inr (.inl h)
  · rw [show reference.rules ⟨2⟩ = _ from rules_template, List.mem_append] at h
    exact h.elim (fun h => .inr (.inr (.inl h))) .inl
  · rw [show reference.rules ⟨3⟩ = _ from rules_brace, List.mem_append] at h
    exact h.elim (fun h => .inr (.inr (.inr h))) .inl
  · cases h

/-- Such a fragment matches the same before a closing brace. -/
theorem matchesAlike_of_isLocal {f : Fragment} (h : isLocal '\x7d' f = true) (hcs : cs ≠ [])
    (htail : CommentEndsIn tail' tail) :
    f.MatchesAlike cs ('\x7d' :: tail) ('\x7d' :: tail') last := by
  have hends : cs ++ ['\x7d'] ≠ [] := by simp
  simp only [isLocal, Bool.or_eq_true, or_assoc] at h
  rcases h with h | h | h | h | h | h | h
  · exact (matchesAlike_nil_of_avoids h).trans (matchesAlike_of_avoids h)
  all_goals rw [eq_of_sameSimple h]
  · exact matchesAlike_literal _ hcs
  · exact matchesAlike_one _ hcs
  · exact .of_append (List.cons_ne_nil _ _) (matchesAlike_run _ _ hends)
  · exact .of_append (List.cons_ne_nil _ _) (matchesAlike_run _ _ hends)
  · refine .of_append (List.cons_ne_nil _ _) (matchesAlike_lineComment hends fun h => ?_)
    obtain ⟨-, hslash⟩ := List.append_inj' (show cs ++ ['\x7d'] = [] ++ ['/'] from h) rfl
    cases hslash
  · refine matchesAlike_blockComment hcs (by decide) (by decide) fun _ hmore => ?_
    obtain ⟨front, back, rfl⟩ := htail hmore
    exact ⟨'\x7d' :: front, back, rfl⟩

/-- Every rule matches the same before a closing brace. -/
theorem readsAlike_brace (htail : CommentEndsIn tail' tail) :
    reference.ReadsAlike ('\x7d' :: tail) ('\x7d' :: tail') fun _ => True := by
  have hall : ∀ rule ∈ allRules, isLocal '\x7d' rule.fragment = true := by decide
  exact fun _ rule hrule cs hcs =>
    matchesAlike_of_isLocal (hall rule (mem_allRules hrule)) hcs htail

end Reference

/-! ## Runs -/

namespace Lexer

open Reference

variable {l m : Lexer} {tokens : List Token} {rest : List Char}

/-- Dropped matches before a closing brace are the same whatever follows the brace. -/
theorem Drops.words_eq (h : l.Drops m) (hg : l.grammar = reference)
    (htail : CommentEndsIn tail' tail) (hm : m.cursor.rest = rest ++ '\x7d' :: tail) :
    ∃ text, l.cursor.rest = text ++ rest ++ '\x7d' :: tail ∧
      reference.words l.stack (text ++ rest ++ '\x7d' :: tail') =
        reference.words m.stack (rest ++ '\x7d' :: tail') :=
  h.words_alike (readsAlike_brace htail) hg hm fun _ => trivial

/-- The words before a closing brace are the same whatever follows the brace. -/
theorem Gives.words_eq {text : String} (h : (ofText reference text).Gives tokens l)
    (htail : CommentEndsIn tail' tail) (hl : l.cursor.rest = rest ++ '\x7d' :: tail) :
    ∃ covered, text.toList = covered ++ rest ++ '\x7d' :: tail ∧
      sourceWords (covered ++ rest ++ '\x7d' :: tail') =
        tokens.map Token.word ++ reference.words l.stack (rest ++ '\x7d' :: tail') :=
  h.words_alike (readsAlike_brace htail) hl fun _ _ _ => trivial

end Lexer

end ExprLang
