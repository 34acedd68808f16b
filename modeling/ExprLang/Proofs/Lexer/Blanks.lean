import ExprLang.Proofs.Lexer.Erasure

/-!
# Blanks between tokens

A blank ends a token and does nothing else.  A number may have been tried further
than it goes, as a fraction or a power of ten, but what it is tried with ends at a
blank too; and no comment that has an end begins or ends at one.

Main definitions:

- Definition {lit}`Reference.Closed`: what a match becomes unless it may go on with
  a blank.

Main results:

- Theorem {lit}`Reference.readsAlike_blank`: every rule matches the same before a
  blank.
- Theorem {lit}`Lexer.words_insert_blank`: a blank that is inserted behind a token
  changes no token.
- Theorem {lit}`tokenize_separated`: texts that are one token each are these tokens
  where blanks separate them.
-/

namespace ExprLang

variable {cs tail tail' : List Char}

namespace Reference

open Fragment

/-! ## Numbers in cut texts -/

/-- Digits. -/
theorem settles_digits (before : Char → Prop) : digits.Settles before :=
  settles_run _ _

/-- The letter of a power of ten and its sign. -/
theorem settles_letterAndSign (s t : CharSet) (before : Char → Prop) :
    (pattern (.seq (.one s) (.optional (.one t)))).Settles before := by
  refine settles_pattern fun cs c rest h tail => ?_
  rcases cs with _ | ⟨d, _ | ⟨e, cs⟩⟩
  · cases h
  · by_cases hd : s.contains d = true <;> simp [Pattern.rests, Pattern.optional, hd] at h
  · by_cases hd : s.contains d = true <;> by_cases he : t.contains e = true <;>
      simp_all [Pattern.rests, Pattern.optional]

/-- A fraction. -/
theorem cuts_fraction : fraction.Cuts :=
  (cuts_literal _).both_of_settles (cuts_pattern _) (settles_literal _ fun _ => True)
    rfl fun _ h => absurd trivial h

/-- A power of ten. -/
theorem cuts_exponent : exponent.Cuts :=
  (cuts_pattern _).both_of_settles (cuts_pattern _) (settles_letterAndSign _ _ fun _ => True)
    rfl fun _ h => absurd trivial h

/-- Digits and something that does not match the empty text. -/
theorem cuts_digits_both {f : Fragment} (hf : f.Cuts) (hnil : f.split? [] = none) :
    (Fragment.both digits f).Cuts :=
  (cuts_pattern _).both_of_settles hf (settles_digits fun _ => True) hnil fun _ h =>
    absurd trivial h

/-- A number with a fraction. -/
theorem cuts_withFraction : withFraction.Cuts :=
  (cuts_digits_both cuts_fraction rfl).both_optional cuts_exponent

/-- A number. -/
theorem cuts_anyNumber : anyNumber.Cuts :=
  cuts_withFraction.either ((cuts_pattern _).both_optional cuts_exponent)

/-- An `f` begins neither a fraction nor a power of ten. -/
theorem refuses_f {c : Char} (h : ['f', 'F'].contains c = true) :
    exponent.refuses c = true ∧ c ≠ '.' := by
  have hmem : c = 'f' ∨ c = 'F' := by simpa using h
  rcases hmem with rfl | rfl <;> decide

/-- A number that ends before an `f` ends there where the text goes on. -/
theorem settles_anyNumber : anyNumber.Settles fun c => ['f', 'F'].contains c = true := by
  have hexponent : (Fragment.optional exponent).Settles fun c => ['f', 'F'].contains c = true :=
    ((settles_letterAndSign _ _ _).both (settles_digits _)).optional fun c hc => (refuses_f hc).1
  have hfraction : (Fragment.both digits fraction).Settles fun _ => True :=
    (settles_digits _).both ((settles_literal _ _).both (settles_digits _))
  intro cs text c rest hc h tail
  rcases Option.or_eq_some_iff.1 h with h | ⟨-, h⟩
  · exact Option.or_eq_some_iff.2 (.inl (hfraction.both hexponent cs text c rest hc h tail))
  · have hsecond := (settles_digits _).both hexponent cs text c rest hc h tail
    refine Option.or_eq_some_iff.2 (.inr ⟨?_, hsecond⟩)
    -- behind the digits a power of ten begins or the `f` stands, so there is no fraction
    obtain ⟨a, middle, b, ha, hb, -⟩ := exists_of_split?_both h
    obtain ⟨d, more, rfl⟩ := exists_cons_of_split? hb
    have hd : d ≠ '.' := by
      rintro rfl
      rw [split?_optional_of_none (split?_of_refuses (by decide) more)] at hb
      cases hb
      exact (refuses_f hc).2 rfl
    have hdigits := settles_digits (fun _ => True) cs a d more trivial ha tail
    exact split?_both_of_first (split?_both_of_second hdigits
      (split?_of_refuses (by simpa [fraction, refuses] using hd) _))

/-! ## Rules and cut texts -/

/-- Whether a fragment is a fixed text or a pattern. -/
def isSimple : Fragment → Bool
  | .literal _ | .pattern _ => true
  | _ => false

/-- Such a fragment matches where a text is cut off. -/
theorem cuts_of_isSimple {f : Fragment} (h : isSimple f = true) : f.Cuts := by
  cases f <;> first | exact cuts_literal _ | exact cuts_pattern _ | cases h

/-- The rules for numbers and names match where a text is cut off. -/
theorem cuts_of_mem_boundRules : ∀ rule ∈ boundRules, rule.fragment.Cuts := by
  have hletter (s : CharSet) {f : Fragment} (hf : f.Cuts) {before : Char → Prop}
      (hsettles : f.Settles before) (hs : ∀ c, ¬ before c → s.contains c = false) :
      (Fragment.both f (.pattern (.one s))).Cuts :=
    hf.both_of_settles (cuts_pattern _) hsettles rfl fun c hc => by
      simp [refuses, Pattern.refuses, hs c hc]
  intro rule hrule
  simp only [boundRules, List.mem_cons, List.not_mem_nil, or_false] at hrule
  rcases hrule with rfl | rfl | rfl | rfl | rfl | rfl
  · exact hletter _ cuts_anyNumber settles_anyNumber fun c hc => by simpa using hc
  · exact cuts_withFraction.either (cuts_digits_both cuts_exponent rfl)
  · exact cuts_digits_both (cuts_pattern _) rfl
  · exact cuts_pattern _
  · exact (cuts_literal _).both_of_settles (cuts_pattern _)
      (settles_literal _ fun _ => True) rfl fun _ h => absurd trivial h
  · exact cuts_pattern _

/-- Every rule matches where a text is cut off. -/
theorem cuts_of_mem_allRules {rule : Rule} (h : rule ∈ allRules) : rule.fragment.Cuts := by
  have hsplit : allRules = codeRules.take 4 ++ (boundRules ++ allRules.drop 10) := rfl
  have hother : ∀ rule ∈ codeRules.take 4 ++ allRules.drop 10, isSimple rule.fragment = true := by
    decide
  rw [hsplit] at h
  rcases List.mem_append.1 h with hbefore | h
  · exact cuts_of_isSimple (hother rule (List.mem_append_left _ hbefore))
  · rcases List.mem_append.1 h with hbound | hafter
    · exact cuts_of_mem_boundRules rule hbound
    · exact cuts_of_isSimple (hother rule (List.mem_append_right _ hafter))

/-! ## Blanks -/

/-- Whether a match is a token that does not go on with a blank. -/
def Closed : Option TokenKind → Prop
  | none => False
  | some kind => kind ≠ .stringContent

/-- Whether a rule is one of those that match the same before a blank, up to matches that go on with
it: these are dropped or they become a part of a string. -/
def endsAt (c : Char) (rule : Rule) : Bool :=
  rule.fragment.avoids c || sameSimple rule.fragment anyCharacter ||
    sameSimple rule.fragment content && rule.action == .emit .stringContent ||
    isTrivia rule.fragment && rule.action == .skip

/-- Every rule matches the same before a blank, but for matches that go on with it and for a
comment whose end comes behind the blank. -/
theorem matchesAlike_blank {rule : Rule} {stack : StateStack} {c : Char} (hrule : rule ∈ allRules)
    (hc : c ∈ [' ', '\t', '\r', '\n']) (hcs : cs ≠ [])
    (htail : ['/', '*'] <+: cs → CommentEndsIn tail' tail) :
    rule.fragment.MatchesAlike cs tail (c :: tail') fun text =>
      Closed (rule.action.run text stack).1 := by
  have hblanks : ∀ c ∈ [' ', '\t', '\r', '\n'], c ≠ '*' ∧ c ≠ '/' := by simp
  have hrules : ([' ', '\t', '\r', '\n'].all fun c => allRules.all (endsAt c)) = true := by
    decide
  have hne := hblanks c hc
  have h := List.all_eq_true.1 (List.all_eq_true.1 hrules c hc) rule hrule
  simp only [endsAt, isTrivia, Bool.or_eq_true, Bool.and_eq_true, beq_iff_eq] at h
  rcases h with ((h | h) | ⟨h, haction⟩) | ⟨(h | h) | h, haction⟩
  · exact ((cuts_of_mem_allRules hrule cs tail).mono fun _ _ => trivial).trans
      (matchesAlike_of_avoids h)
  all_goals rw [eq_of_sameSimple h]
  · exact matchesAlike_one _ hcs
  all_goals rw [haction]
  · exact (matchesAlike_run _ _ hcs).mono fun _ h => h rfl
  · exact (matchesAlike_run _ _ hcs).mono fun _ h => h
  · refine (matchesAlike_lineComment hcs fun _ => ?_).mono fun _ h => h
    simpa using hne.2
  · exact matchesAlike_blockComment hcs hne.1 hne.2 htail

/-- Every rule matches the same where a blank is inserted. -/
theorem readsAlike_blank {c : Char} (hc : c ∈ [' ', '\t', '\r', '\n']) :
    reference.ReadsAlike tail (c :: tail) Closed :=
  fun _ _ hrule _ hcs => matchesAlike_blank (mem_allRules hrule) hc hcs fun _ => id

end Reference

/-! ## Inserted blanks -/

namespace Lexer

open Reference

variable {l : Lexer} {tokens : List Token}

/-- Where a token has led out of a string or not into one it is no part of a string. -/
theorem Gives.closed_getLast? {text : String} (h : (ofText reference text).Gives tokens l)
    (hstate : l.stack.current ≠ string) :
    ∀ token ∈ tokens.getLast?, Closed (some token.kind) := by
  cases h with
  | nil => nofun
  | snoc hbefore hnext =>
    rw [List.getLast?_concat]
    rintro _ ⟨⟩ hkind
    obtain ⟨hpermits, hfollow⟩ := follow_of_next (hbefore.admits wellFormed) hnext
    rw [hkind] at hpermits hfollow
    refine hstate ?_
    rw [hfollow]
    exact eq_of_beq hpermits

/-- A blank that is inserted where a run has got, outside the body of a string, changes no token. -/
theorem words_insert_blank {front back : String} {blank : Char}
    (h : (ofText reference (front ++ back)).Gives tokens l) (hrest : l.cursor.rest = back.toList)
    (hstate : l.stack.current ≠ string) (hblank : blank ∈ [' ', '\t', '\n']) :
    (tokenize (front ++ String.singleton blank ++ back)).map Token.word =
      (tokenize (front ++ back)).map Token.word := by
  have hc : blank ∈ [' ', '\t', '\r', '\n'] := by
    revert hblank
    simp only [List.mem_cons, List.not_mem_nil, or_false]
    tauto
  obtain ⟨hgrammar, hadmits⟩ := h.admits wellFormed
  have hcode := inCode_of_ne hadmits.current hstate
  obtain ⟨covered, htext, hwords⟩ := h.words_alike (readsAlike_blank hc)
    (show l.cursor.rest = [] ++ back.toList from hrest) fun _ => h.closed_getLast? hstate
  rw [List.append_nil] at htext hwords
  have hfront : front.toList = covered :=
    List.append_cancel_right (String.toList_append.symm.trans htext)
  have hmore := map_word_tokens l
  rw [hgrammar, hrest] at hmore
  have hall : (tokenize (front ++ back)).map Token.word =
      tokens.map Token.word ++ l.tokens.map Token.word := by
    rw [← List.map_append, h.append_tokens]
    rfl
  rw [map_word_tokenize, String.toList_append, String.toList_append, String.toList_singleton,
    List.append_assoc, hfront, hall, hmore, ← words_blank hcode (List.contains_iff_mem.2 hc)]
  exact hwords

/-- Behind a number that goes on as if with a power of ten. -/
theorem words_insert_blank_number :
    ∃ token l, (ofText reference ("1" ++ "e+")).next = (some token, l) ∧
      l.cursor.rest = "e+".toList ∧ l.stack.current ≠ string ∧
      (tokenize ("1" ++ String.singleton '\t' ++ "e+")).map Token.word =
        (tokenize ("1" ++ "e+")).map Token.word := by
  have hsome : (ofText reference ("1" ++ "e+")).next.1.isSome = true := by decide
  obtain ⟨token, htoken⟩ := Option.isSome_iff_exists.1 hsome
  have hnext : (ofText reference ("1" ++ "e+")).next =
      (some token, (ofText reference ("1" ++ "e+")).next.2) := Prod.ext htoken rfl
  have hrest : (ofText reference ("1" ++ "e+")).next.2.cursor.rest = "e+".toList := by
    decide
  have hstate : (ofText reference ("1" ++ "e+")).next.2.stack.current ≠ string := by
    decide
  exact ⟨token, _, hnext, hrest, hstate, words_insert_blank (.snoc .nil hnext) hrest hstate
    (by decide)⟩

end Lexer

/-! ## Texts that are one token -/

namespace Grammar

/-- No word of a text is longer than the text. -/
theorem length_le_of_mem_wordsWithin {g : Grammar} {n : Nat} {stack : StateStack} {word : Word}
    (h : word ∈ g.wordsWithin n stack cs) : word.text.toList.length ≤ cs.length := by
  induction n generalizing stack cs with
  | zero => cases h
  | succ n ih =>
    rw [wordsWithin] at h
    cases hp : g.piece? stack cs with
    | none => rw [hp] at h; cases h
    | some p =>
      have hlength := congrArg List.length (append_of_piece? hp).1
      rw [List.length_append] at hlength
      simp only [hp, List.mem_append, Option.mem_toList] at h
      rcases h with h | h
      · obtain ⟨kind, -, rfl⟩ := Option.map_eq_some_iff.1 h
        simp only [String.toList_ofList]
        omega
      · have hle := ih h
        omega

end Grammar

namespace Reference

/-- A text that is one token is one piece. -/
theorem exists_piece?_of_words {stack : StateStack} {word : Word}
    (h : reference.words stack word.text.toList = [word]) :
    ∃ p, reference.piece? stack word.text.toList = some p ∧ p.kind? = some word.kind ∧
      p.text = word.text.toList ∧ p.rest = [] := by
  cases hp : reference.piece? stack word.text.toList with
  | none =>
    rw [Grammar.words] at h
    cases hlength : word.text.toList.length with
    | zero => rw [hlength] at h; cases h
    | succ n => rw [hlength, Grammar.wordsWithin, hp] at h; cases h
  | some p =>
    refine ⟨p, rfl, ?_⟩
    have hlt := Grammar.length_rest_lt_of_piece? hp
    have happend := (Grammar.append_of_piece? hp).1
    rw [Grammar.words_of_piece? hp] at h
    cases hkind : p.kind? with
    | none =>
      -- the word would be one of a shorter text
      have hmem : word ∈ reference.words p.stack p.rest := by
        rw [Piece.word?, hkind, Option.map_none, Option.toList_none, List.nil_append] at h
        rw [h]
        exact List.mem_singleton_self _
      have hle := Grammar.length_le_of_mem_wordsWithin hmem
      omega
    | some kind =>
      rw [Piece.word?, hkind] at h
      obtain ⟨hword, -⟩ := List.cons.inj h
      have htext : p.text = word.text.toList := by rw [← hword, String.toList_ofList]
      rw [htext] at happend
      exact ⟨by rw [← hword], htext, List.append_right_eq_self.1 happend⟩

/-- In code no token but the start of a string changes the states. -/
theorem follow_code {kind : TokenKind} (hpermits : permits code kind = true)
    (hkind : kind ≠ .stringStart) : follow (.ofRoot code) kind = .ofRoot code := by
  cases kind <;> first | rfl | exact absurd rfl hkind | cases hpermits

/-- Whether a rule makes no token that begins as a comment with an end does. -/
def opensNoComment (rule : Rule) : Bool :=
  rule.action == .skip || rule.fragment.refuses '/' || sameSimple rule.fragment anyCharacter ||
    match rule.fragment with
    | .literal text => !(['/', '*'].isPrefixOf text)
    | _ => false

/-- No token of code begins with a slash and a star. -/
theorem not_prefix_of_piece? {p : Piece} {kind : TokenKind}
    (hp : reference.piece? (.ofRoot code) cs = some p) (hkind : p.kind? = some kind) :
    ¬ ['/', '*'] <+: p.text := by
  have hall : ∀ rule ∈ codeRules, opensNoComment rule = true := by decide
  cases cs with
  | nil => cases hp
  | cons c cs =>
    simp only [Grammar.piece?] at hp
    split at hp
    · rename_i action text rest hs
      cases hp
      rintro ⟨more, rfl⟩
      obtain ⟨rule, hrule, rfl, hsplit⟩ := exists_mem_of_firstSplit? hs
      rw [show reference.rules (StateStack.ofRoot code).current = _ from rules_code] at hrule
      have happend := rule.fragment.append_of_split? _ _ _ hsplit
      have h := hall rule hrule
      simp only [opensNoComment, Bool.or_eq_true, beq_iff_eq] at h
      rcases h with ((h | h) | h) | h
      · rw [h] at hkind
        cases hkind
      · rw [← happend, List.append_assoc, List.cons_append, Fragment.split?_of_refuses h] at hsplit
        cases hsplit
      · rw [eq_of_sameSimple h] at hsplit
        obtain ⟨d, hd, -⟩ := Fragment.exists_of_split?_one hsplit
        cases hd
      · split at h
        · rename_i text hliteral
          rw [hliteral] at hsplit
          rw [← Fragment.eq_of_split?_literal hsplit] at h
          simp at h
        · cases h
    · cases hp
      rintro ⟨more, hmore⟩
      cases hmore

/-- A text that is one token is that token where a blank follows. -/
theorem words_before_blank {word : Word} {c : Char} {more : List Char}
    (hone : reference.words (.ofRoot code) word.text.toList = [word])
    (hkind : word.kind ≠ .stringStart) (hc : c ∈ [' ', '\t', '\r', '\n']) :
    reference.words (.ofRoot code) (word.text.toList ++ c :: more) =
      word :: reference.words (.ofRoot code) (c :: more) := by
  obtain ⟨p, hp, hpiece, htext, hrest⟩ := exists_piece?_of_words hone
  obtain ⟨hpermits, hfollow⟩ := of_piece? (by decide) hp hpiece
  have hslash := not_prefix_of_piece? hp hpiece
  rw [follow_code hpermits hkind] at hfollow
  have hne := (Grammar.append_of_piece? hp).2
  have hclosed : Closed p.kind? := by
    rw [hpiece]
    intro hcontent
    rw [hcontent] at hpermits
    cases hpermits
  have halike : ∀ rule ∈ reference.rules (StateStack.ofRoot code).current,
      rule.fragment.MatchesAlike (p.text ++ []) [] (c :: more) fun text =>
        Closed (rule.action.run text (.ofRoot code)).1 := by
    rw [List.append_nil]
    exact fun rule hrule => matchesAlike_blank (mem_allRules hrule) hc hne fun hprefix =>
      absurd hprefix hslash
  have hp' := Grammar.piece?_alike halike (by simpa [htext] using hp) hrest fun _ => hclosed
  rw [List.append_nil, List.nil_append, htext] at hp'
  rw [Grammar.words_of_piece? hp', Piece.word?, hpiece, String.ofList_toList, hfollow]
  rfl

/-- Blanks are passed over, however many there are. -/
theorem words_blanks_append {stack : StateStack} (h : InCode stack) {gap : List Char}
    (hgap : ∀ c ∈ gap, c ∈ [' ', '\t', '\r', '\n']) (more : List Char) :
    reference.words stack (gap ++ more) = reference.words stack more := by
  induction gap with
  | nil => rfl
  | cons c gap ih =>
    rw [List.cons_append, words_blank h (List.contains_iff_mem.2 (hgap c (List.mem_cons_self ..)))]
    exact ih fun d hd => hgap d (List.mem_cons_of_mem _ hd)

end Reference

open Reference

/-- Texts each of which is one token, other than the start of a string, are these tokens where
spaces, tabs and line ends separate them. -/
theorem tokenize_separated {lexemes : List (Word × String)}
    (hone : ∀ e ∈ lexemes, (tokenize e.1.text).map Token.word = [e.1])
    (hkind : ∀ e ∈ lexemes, e.1.kind ≠ .stringStart)
    (hgap : ∀ e ∈ lexemes, e.2 ≠ "" ∧ ∀ c ∈ e.2.toList, c ∈ [' ', '\t', '\r', '\n']) :
    (tokenize (String.join (lexemes.map fun e => e.1.text ++ e.2))).map Token.word =
      lexemes.map Prod.fst := by
  rw [map_word_tokenize, sourceWords]
  induction lexemes with
  | nil => rfl
  | cons e lexemes ih =>
    obtain ⟨word, gap⟩ := e
    have hword := hone _ (List.mem_cons_self ..)
    rw [map_word_tokenize] at hword
    obtain ⟨hne, hblanks⟩ := hgap _ (List.mem_cons_self ..)
    obtain ⟨c, blanks, hcs⟩ := List.exists_cons_of_ne_nil (l := gap.toList) (by simpa using hne)
    have hmore := ih (fun e he => hone e (List.mem_cons_of_mem _ he))
      (fun e he => hkind e (List.mem_cons_of_mem _ he))
      (fun e he => hgap e (List.mem_cons_of_mem _ he))
    have hc : c ∈ [' ', '\t', '\r', '\n'] := hblanks c (by simp [hcs])
    simp only [List.map_cons, String.join_cons, String.toList_append, List.append_assoc]
    rw [hcs, List.cons_append, words_before_blank hword (hkind _ (List.mem_cons_self ..)) hc,
      ← List.cons_append, ← hcs, words_blanks_append inCode_ofRoot hblanks, hmore]

/-- A slash and a star, and digits and a word, that would be read together. -/
theorem tokenize_separated_marks :
    (tokenize (String.join ["/" ++ " ", "*" ++ "\r\n", "1" ++ "\t", "e5f" ++ " "])).map
        Token.word = [⟨.divide, "/"⟩, ⟨.times, "*"⟩, ⟨.intLiteral, "1"⟩, ⟨.identifier, "e5f"⟩] :=
  @tokenize_separated
    [(⟨.divide, "/"⟩, " "), (⟨.times, "*"⟩, "\r\n"), (⟨.intLiteral, "1"⟩, "\t"),
      (⟨.identifier, "e5f"⟩, " ")]
    (by decide) (by decide) (by simp)

end ExprLang
