import ExprLang.Proofs.Lexer.Locality

/-!
# Leaving out a semicolon

A semicolon behind a closing brace is a word of its own: without it the text has all
its other words.

Main results:

- Theorem {lit}`Reference.words_trivia`: trivia is passed over.
- Theorem {lit}`Lexer.sourceWords_erase`: the words of a text without a semicolon
  behind a closing brace.
-/

namespace ExprLang

namespace Reference

variable {stack : StateStack} {gap rest back : List Char}

/-! ## Trivia -/

/-- No blank begins with a slash. -/
theorem split?_blanks_slash (cs : List Char) : blanks.split? ('/' :: cs) = none :=
  Fragment.split?_of_refuses (by decide) cs

/-- A line comment is passed over. -/
theorem words_lineComment (h : InCode stack) {body : List Char} (hbody : '\n' ∉ body)
    (hend : ∀ c ∈ rest.head?, c = '\n') :
    reference.words stack ('/' :: '/' :: body ++ rest) = reference.words stack rest := by
  have hinside : ∀ c ∈ body, lineSet.contains c = true := by
    intro c hc
    simp only [lineSet, CharSet.contains_except, List.contains_cons, List.contains_nil,
      Bool.or_false, Bool.not_eq_true', beq_eq_false_iff_ne]
    rintro rfl
    exact hbody hc
  have hline : lineComment.split? ('/' :: '/' :: body ++ rest) =
      some ('/' :: '/' :: body, rest) := by
    rw [List.cons_append, List.cons_append, split?_slashes,
      List.takeWhile_append_of_pos hinside, List.dropWhile_append_of_pos hinside]
    cases rest with
    | nil => simp
    | cons c cs =>
      obtain rfl := hend c rfl
      simp [show lineSet.contains '\n' = false from rfl]
  have hsplit : firstSplit? codeRules ('/' :: '/' :: body ++ rest) =
      some (.skip, '/' :: '/' :: body, rest) :=
    (firstSplit?_cons_of_none (split?_blanks_slash _) _).trans
      (firstSplit?_cons_of_split? hline (List.cons_ne_nil _ _) _)
  exact words_of_codeRules h (by decide) (by decide) hsplit rfl

/-- A piece of trivia is passed over. -/
theorem words_triviaPiece (h : InCode stack) {piece : List Char} (hp : TriviaPiece piece rest) :
    reference.words stack (piece ++ rest) = reference.words stack rest := by
  cases hp with
  | blanks hne hrun =>
    clear hne
    induction piece with
    | nil => rfl
    | cons c run ih =>
      have hc : [' ', '\t', '\r', '\n'].contains c = true := by
        rcases hrun c (List.mem_cons_self ..) with rfl | rfl | rfl | rfl <;> rfl
      rw [List.cons_append, words_blank h hc]
      exact ih fun d hd => hrun d (List.mem_cons_of_mem _ hd)
  | line hbody hend => exact words_lineComment h hbody hend
  | @block body _ hfirst =>
    have hline (cs : List Char) : lineComment.split? ('/' :: '*' :: cs) = none := by
      cases hs : lineComment.split? ('/' :: '*' :: cs) with
      | none => rfl
      | some pieces =>
        obtain ⟨more, hmore⟩ := exists_of_split?_lineComment hs
        cases hmore
    have hsplit : firstSplit? codeRules ('/' :: '*' :: body ++ ['*', '/'] ++ rest) =
        some (.skip, '/' :: '*' :: body ++ ['*', '/'], rest) :=
      (firstSplit?_cons_of_none (split?_blanks_slash _) _).trans
        ((firstSplit?_cons_of_none (hline _) _).trans
          (firstSplit?_cons_of_split? (split?_blockComment hfirst) (List.cons_ne_nil _ _) _))
    exact words_of_codeRules h (by decide) (by decide) hsplit rfl

/-- Trivia is passed over. -/
theorem words_trivia (h : InCode stack) (ht : Trivia gap rest) :
    reference.words stack (gap ++ rest) = reference.words stack rest := by
  induction ht with
  | nil => rfl
  | cons hp _ ih => rw [List.append_assoc, words_triviaPiece h hp, ih]

end Reference

/-- Trivia before a semicolon is trivia before any text. -/
theorem Trivia.of_semicolon {gap back : List Char} (h : Trivia gap (';' :: back))
    (rest : List Char) : Trivia gap rest := by
  generalize hr : ';' :: back = tail at h
  induction h with
  | nil => exact .nil rest
  | @cons piece gap tail hp _ ih =>
    subst hr
    refine .cons ?_ (ih rfl)
    cases hp with
    | blanks hne hrun => exact .blanks hne hrun
    | line hbody hend =>
      refine .line hbody fun c hc => ?_
      cases gap with
      | nil => cases hend ';' rfl
      | cons d gap => exact hend c hc
    | block hfirst => exact .block hfirst

/-- Trivia before a semicolon ends with no star. -/
theorem Trivia.getLast?_ne {gap back : List Char} (h : Trivia gap (';' :: back)) :
    gap.getLast? ≠ some '*' := by
  generalize hr : ';' :: back = tail at h
  induction h with
  | nil => exact nofun
  | @cons piece gap tail hp _ ih =>
    subst hr
    cases gap with
    | cons d gap =>
      rw [List.getLast?_append_of_ne_nil _ (List.cons_ne_nil d gap)]
      exact ih rfl
    | nil =>
      rw [List.append_nil]
      cases hp with
      | blanks hne hrun =>
        intro hlast
        have hmem := hrun '*' (List.mem_of_getLast? hlast)
        simp at hmem
      | line hbody hend => cases hend ';' rfl
      | block hfirst =>
        rw [List.getLast?_append_of_ne_nil _ (List.cons_ne_nil _ _)]
        decide

/-- Without a semicolon behind trivia a text has no new end of a comment. -/
theorem Trivia.commentEndsIn {gap back : List Char} (h : Trivia gap (';' :: back)) :
    Reference.CommentEndsIn (gap ++ back) (gap ++ ';' :: back) := by
  rintro ⟨front, rest, hends⟩
  rcases List.append_eq_append_iff.1 hends with ⟨e, rfl, he⟩ | ⟨e, rfl, he⟩
  · exact ⟨gap ++ ';' :: e, rest, by rw [he]; simp⟩
  · rcases e with _ | ⟨c, _ | ⟨d, e⟩⟩
    · obtain rfl : back = _ := he.symm
      exact ⟨front ++ [';'], rest, by simp⟩
    · cases he
      exact absurd (by simp) h.getLast?_ne
    · cases he
      exact ⟨front, e ++ ';' :: back, by simp⟩

namespace Lexer

open Reference

variable {l m after : Lexer} {token : Token}

/-! ## Semicolons behind closing braces -/

/-- Outside strings code is read. -/
theorem inCode_of_ne {stack : StateStack}
    (hstate : (reference.state? stack.current).isSome = true) (hne : stack.current ≠ string) :
    InCode stack := by
  unfold InCode
  generalize stack.current = state at hstate hne
  obtain ⟨_ | _ | _ | _ | n⟩ := state
  · exact .inl rfl
  · exact absurd rfl hne
  · exact .inr (.inl rfl)
  · exact .inr (.inr rfl)
  · cases hstate

/-- A closing brace, where it is one of code. -/
theorem words_closingBrace {stack : StateStack} (h : InCode stack)
    (hp : permits stack.current .rightBrace = true) (rest : List Char) :
    reference.words stack ('\x7d' :: rest) =
      .mark .rightBrace :: reference.words (follow stack .rightBrace) rest := by
  rcases h with h | h | h
  · have hfollow : follow stack .rightBrace = stack := by rw [follow, h]; rfl
    rw [hfollow]
    exact words_literal (codeRules.take 33) (codeRules.drop 34) (by rw [h, rules_code]; rfl)
      (by decide) (by decide)
  · rw [h] at hp
    cases hp
  · have hfollow : follow stack .rightBrace = stack.pop := by rw [follow, h]; rfl
    rw [hfollow]
    exact words_literal [] _ (by rw [h, rules_brace]; rfl) (List.forall_mem_nil _) (by decide)

/-- Whether an action makes a token of a closing brace. -/
def makesRightBrace : Action → Bool
  | .emit kind | .push kind _ | .pop kind => kind == .rightBrace
  | .skip | .emitWord => false

/-- Only a closing brace becomes the token for one. -/
theorem text_of_rightBrace {stack : StateStack} {cs : List Char} {p : Piece}
    (hp : reference.piece? stack cs = some p) (hkind : p.kind? = some .rightBrace) :
    p.text = ['\x7d'] := by
  cases cs with
  | nil => cases hp
  | cons c cs =>
    simp only [Grammar.piece?] at hp
    split at hp
    · rename_i action text rest hs
      cases hp
      obtain ⟨rule, hrule, rfl, hsplit⟩ := exists_mem_of_firstSplit? hs
      have hrules : ∀ rule ∈ allRules, makesRightBrace rule.action = true →
          sameSimple rule.fragment (.literal ['\x7d']) = true := by
        decide
      have hmakes : makesRightBrace rule.action = true := by
        cases haction : rule.action with
        | skip =>
          rw [haction] at hkind
          cases hkind
        | emitWord =>
          have hplain := isPlain_ofWord (String.ofList text)
          rw [haction] at hkind
          rw [Option.some.inj hkind] at hplain
          cases hplain
        | emit | push | pop =>
          rw [haction] at hkind
          exact beq_iff_eq.2 (Option.some.inj hkind)
      rw [eq_of_sameSimple (hrules rule (mem_allRules hrule) hmakes)] at hsplit
      exact Fragment.eq_of_split?_literal hsplit
    · cases hp
      cases hkind

/-- Dropped matches move over trivia. -/
theorem Drops.exists_trivia (h : l.Drops m) (hg : l.grammar = reference) :
    ∃ gap, l.cursor.rest = gap ++ m.cursor.rest ∧
      m.cursor.point = l.cursor.point.advance gap ∧ Trivia gap m.cursor.rest := by
  induction h with
  | refl l => exact ⟨[], rfl, rfl, .nil _⟩
  | step hs _ ih =>
    obtain ⟨-, piece, hrest, hpoint, hpiece⟩ := triviaPiece_of_step? hg hs
    obtain ⟨gap, hgap, hlast, htrivia⟩ := ih ((grammar_of_step? hs).trans hg)
    refine ⟨piece ++ gap, by rw [hrest, hgap, List.append_assoc], ?_, .cons (hgap ▸ hpiece) htrivia⟩
    rw [hlast, hpoint, Point.advance_append]

/-- Before a token that starts behind a piece of a text a run stands before trivia at the end of
the piece. -/
theorem Gives.exists_gap {front suffix : String} {tokens : List Token}
    (h : (ofText reference (front ++ suffix)).Gives tokens l)
    (hnext : l.next = (some token, after))
    (hstart : token.span.start.offset = front.utf8ByteSize) :
    ∃ gap, l.cursor.rest = gap ++ suffix.toList ∧ Trivia gap suffix.toList := by
  obtain ⟨covered, htext, hpoint, -⟩ := h.exists_layout
  obtain ⟨m, hdrops, hstep⟩ := exists_drops_of_next hnext
  obtain ⟨gap, hgap, hbehind, htrivia⟩ := hdrops.exists_trivia (h.admits wellFormed).1
  rw [hpoint, ← Point.behind_append] at hbehind
  obtain ⟨text, -, -, -, hpiece⟩ := exists_of_step? hstep hbehind
  obtain ⟨kind, rfl⟩ := hpiece token rfl
  have hsplit : front.toList ++ suffix.toList = covered ++ gap ++ m.cursor.rest := by
    rw [← String.toList_append, htext, hgap, List.append_assoc]
  have hfront : front.toList = covered ++ gap :=
    eq_of_utf8ByteSize hsplit (by rw [String.ofList_toList]; exact hstart.symm)
  rw [hfront] at hsplit
  have hsuffix : suffix.toList = m.cursor.rest := List.append_cancel_left hsplit
  rw [hsuffix]
  exact ⟨gap, hgap, htrivia⟩

/-- Before the token for a closing brace a run stands before trivia and a closing brace. -/
theorem step?_rightBrace (hg : l.grammar = reference)
    (hs : l.step? = some (some token, after)) (hkind : token.kind = .rightBrace) :
    l.cursor.rest = '\x7d' :: after.cursor.rest := by
  rw [step?_eq, hg] at hs
  obtain ⟨p, hp, hpast⟩ := Option.map_eq_some_iff.1 hs
  obtain ⟨htoken, rfl⟩ := Prod.mk.injEq .. ▸ hpast
  obtain ⟨kind, hpkind, rfl⟩ := Option.map_eq_some_iff.1 htoken
  have hkind : kind = .rightBrace := hkind
  rw [hkind] at hpkind
  rw [← (Grammar.append_of_piece? hp).1, text_of_rightBrace hp hpkind]
  rfl

/-- Behind a semicolon the words are those behind the trivia before it. -/
theorem Gives.words_semicolon {front back : String} {tokens : List Token}
    (h : (ofText reference (front ++ (";" ++ back))).Gives tokens l)
    (hnext : l.next = (some token, after)) (hkind : token.kind = .semicolon)
    (hstart : token.span.start.offset = front.utf8ByteSize) :
    ∃ gap, l.cursor.rest = gap ++ ';' :: back.toList ∧ Trivia gap (';' :: back.toList) ∧
      l.tokens.map Token.word = token.word :: reference.words l.stack (gap ++ back.toList) := by
  obtain ⟨hgrammar, hadmits⟩ := h.admits wellFormed
  obtain ⟨gap, hrest, htrivia⟩ := h.exists_gap hnext hstart
  rw [String.toList_append] at hrest htrivia
  refine ⟨gap, hrest, htrivia, ?_⟩
  have hcode : InCode l.stack := by
    obtain ⟨hpermits, -⟩ := follow_of_next ⟨hgrammar, hadmits⟩ hnext
    rw [hkind] at hpermits
    exact inCode_of_ne hadmits.current (by simpa [permits] using hpermits)
  have hwords := map_word_tokens l
  rw [hgrammar, hrest, words_trivia hcode htrivia] at hwords
  have hseparator : reference.words l.stack (";".toList ++ back.toList) =
      .mark .semicolon :: reference.words l.stack back.toList :=
    words_separator hcode (c := ';') (by decide)
  rw [hseparator, tokens_of_next_some hnext, List.map_cons] at hwords
  rw [words_trivia hcode (htrivia.of_semicolon _), tokens_of_next_some hnext, List.map_cons,
    (List.cons.inj hwords).2]

/-- The words up to a closing brace do not depend on what follows it. -/
theorem Gives.words_rightBrace {text : String} {tokens : List Token} {tail : List Char}
    (h : (ofText reference text).Gives tokens l) (hnext : l.next = (some token, after))
    (hkind : token.kind = .rightBrace) (htail : CommentEndsIn tail after.cursor.rest) :
    ∃ covered, text.toList = covered ++ after.cursor.rest ∧
      sourceWords (covered ++ tail) =
        tokens.map Token.word ++ token.word :: reference.words after.stack tail := by
  obtain ⟨hgrammar, hadmits⟩ := h.admits wellFormed
  obtain ⟨hpermits, hfollow⟩ := follow_of_next ⟨hgrammar, hadmits⟩ hnext
  rw [hkind] at hpermits hfollow
  obtain ⟨m, hdrops, hstep⟩ := exists_drops_of_next hnext
  obtain ⟨hm, hstack⟩ := hdrops.stack_eq
  have hclose := step?_rightBrace (hm.trans hgrammar) hstep hkind
  obtain ⟨skipped, hskipped, hwords⟩ := hdrops.words_eq hgrammar htail
    (show m.cursor.rest = [] ++ _ from hclose)
  obtain ⟨covered, htext, hcovered⟩ := h.words_eq htail hskipped
  refine ⟨covered ++ (skipped ++ []) ++ ['\x7d'], by rw [htext]; simp, ?_⟩
  have hcode : InCode l.stack :=
    inCode_of_ne hadmits.current (by simp [permits] at hpermits; exact hpermits.1)
  have hbrace (rest : List Char) := words_closingBrace hcode hpermits rest
  have hword : token.word = .mark .rightBrace := by
    have hmap := map_word_tokens m
    rw [hm, hgrammar, hclose, hstack, hbrace, tokens_of_step?_token hstep, List.map_cons] at hmap
    exact (List.cons.inj hmap).1
  rw [List.append_assoc, List.singleton_append, hcovered, hwords, List.nil_append, hstack, hbrace,
    hfollow, hword]

/-- Without a semicolon behind a closing brace a text has all its other words. -/
theorem sourceWords_erase {front back : String} {before more : List Token}
    {brace semicolon : Token}
    (h : tokenize (front ++ ";" ++ back) = before ++ brace :: semicolon :: more)
    (hbrace : brace.kind = .rightBrace) (hsemicolon : semicolon.kind = .semicolon)
    (hstart : semicolon.span.start.offset = front.utf8ByteSize) :
    sourceWords (front ++ back).toList =
      before.map Token.word ++ brace.word :: more.map Token.word := by
  rw [String.append_assoc] at h
  obtain ⟨final, hfinal⟩ := exists_gives_of_tokenize
    (show _ = before ++ [brace] ++ [semicolon] ++ more by simpa using h)
  obtain ⟨last, hlast, hsemi⟩ := hfinal.exists_of_concat
  obtain ⟨first, hfirst, hclose⟩ := hlast.exists_of_concat
  obtain ⟨gap, hrest, htrivia, hwords⟩ := hlast.words_semicolon hsemi hsemicolon hstart
  have htail : CommentEndsIn (gap ++ back.toList) last.cursor.rest := by
    rw [hrest]
    exact htrivia.commentEndsIn
  obtain ⟨covered, htext, hcovered⟩ := hfirst.words_rightBrace hclose hbrace htail
  have hfront : front.toList = covered ++ gap := by
    rw [hrest, String.toList_append, String.toList_append, ← List.append_assoc covered] at htext
    exact List.append_cancel_right htext
  have hmore : last.tokens = semicolon :: more := by
    have happend := hlast.append_tokens
    rw [show (ofText reference (front ++ (";" ++ back))).tokens = _ from h] at happend
    exact List.append_cancel_left (happend.trans (by simp))
  rw [hmore, List.map_cons] at hwords
  rw [String.toList_append, hfront, List.append_assoc, hcovered, (List.cons.inj hwords).2]

end Lexer

end ExprLang
