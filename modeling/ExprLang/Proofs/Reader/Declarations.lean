import ExprLang.Proofs.Parser.Entry
import ExprLang.Proofs.Reader.Expressions

/-!
# Reading declarations

Arguments, functions, imports and units are read from their words.  A pattern is
the one argument whose first words decide what it is read as.

Main results:

- Theorem {lit}`Reader.Covers.listed_argument`: an argument of a function.
- Theorem {lit}`Reader.Covers.reads_function`: a function.
- Theorem {lit}`Reader.reads_entry`: a whole source.
-/

namespace ExprLang

namespace Reader

open ExprLang.Tree

variable {E : ExpressionReader} {n : Nat} {p : Prop} {tree : Tree} {ws rest : List Word}

/-! ## Arguments -/

/-- Whether a name follows that is an argument of its own. -/
theorem reads_namedArgumentFollows :
    Reads p namedArgumentFollows ws ((nextKind ws).isAnyOf [.name] &&
      (Expectation.anyOf [.colon, .assign, .comma, .rightParen]).accepts (nextKind ws.tail)) ws :=
  .bind (.check _) (.bind reads_lookAhead (.pure _))

/-- A name begins an argument of its own where the word after it is one of those that can follow
there. -/
theorem reads_named {item : Tree} {name : String} (hname : IsName name)
    (hnext : (Expectation.anyOf [.colon, .assign, .comma, .rightParen]).accepts
      (nextKind ws) = true)
    (h : Reads p (namedArgument E) (Word.ofText name :: ws) item rest) :
    Reads p (argument E) (Word.ofText name :: ws) item rest := by
  refine .bind reads_namedArgumentFollows ?_
  have hkind : (Word.ofText name).kind.isAnyOf [.name] = true := by
    simpa [TokenKind.isAnyOf, Word.ofText] using hname.isName
  rw [nextKind_cons, List.tail_cons, hkind, hnext]
  exact h

/-- A colon, or what follows where there is no type. -/
theorem accepts_typeWords {type : Option String}
    (h : (Expectation.anyOf [.colon, .assign, .comma, .rightParen]).accepts
      (nextKind rest) = true) :
    (Expectation.anyOf [.colon, .assign, .comma, .rightParen]).accepts
      (nextKind (typeWords type ++ rest)) = true := by
  cases type with
  | none => exact h
  | some text => rfl

/-- A name with an optional type. -/
theorem reads_basicArgument {name : String} {type : Option String} (hname : IsName name)
    (htype : ∀ text, type = some text → IsType text)
    (hrest : nextKind rest = .comma ∨ nextKind rest = .rightParen) :
    Reads p (argument E) (Word.ofText name :: (typeWords type ++ rest))
      (.basicArgument name type) rest := by
  have hnext : (Expectation.anyOf [.colon, .assign, .comma, .rightParen]).accepts
      (nextKind rest) = true := by
    rcases hrest with h | h <;> rw [h] <;> rfl
  have hother {kind : TokenKind} (hc : kind ≠ .comma) (hp : kind ≠ .rightParen) :
      nextKind rest ≠ kind := by
    rcases hrest with h | h <;> rw [h]
    · exact hc.symm
    · exact hp.symm
  refine reads_named hname (accepts_typeWords hnext) ?_
  refine .bind (reads_name hname) (.bind (reads_optionalType htype (hother nofun nofun)
    (hother nofun nofun)) ?_)
  exact .bind (reads_optionalExpression_of_ne (hother nofun nofun)) (.pure _)

/-- An argument begins with a word that does not end the arguments. -/
theorem exists_first_argument (h : Written .argument tree) :
    ∃ w ws, tree.words = w :: ws ∧ w.kind ≠ .rightParen := by
  have hname {name : String} (h : IsName name) : (Word.ofText name).kind ≠ .rightParen := by
    rcases h.kind_cases with hk | hk | hk <;> rw [hk] <;> exact nofun
  cases h with
  | basicArgument hn => exact ⟨_, _, by rw [words], hname hn⟩
  | defaultArgument hn => exact ⟨_, _, by rw [words], hname hn⟩
  | patternArgument hp =>
    obtain ⟨w, ws, hwords, hfirst⟩ := hp.exists_first
    refine ⟨w, ws, by rw [words, hwords], fun hk => ?_⟩
    have hstart := hfirst.start
    rw [hk] at hstart
    cases hstart

/-- The words of a function. -/
theorem words_function (name : String) (isInfix : Bool) (arguments : List Tree)
    (returnType : Option String) (body : Tree) :
    (Tree.function name isInfix arguments returnType body).words =
      headWords name isInfix (arguments.map words) returnType ++ body.bodyWords body.words := by
  rw [words]

/-- An expression has no more words than it has as the body of a function. -/
theorem length_le_bodyWords (body : Tree) :
    body.words.length ≤ (body.bodyWords body.words).length := by
  unfold bodyWords
  split
  · exact Nat.le_refl _
  · simp only [List.length_cons, List.length_append]
    omega

/-- The body of a function begins with a brace or an equals sign. -/
theorem nextKind_bodyWords (body : Tree) (rest : List Word) :
    nextKind (body.bodyWords body.words ++ rest) = .leftBrace ∨
      nextKind (body.bodyWords body.words ++ rest) = .assign := by
  unfold bodyWords
  split
  · rename_i hblock
    cases body with
    | block statements =>
      rw [words]
      exact .inl rfl
    | _ => cases hblock
  · exact .inr rfl

namespace Covers

variable (hE : Covers E n)
include hE

/-- A name with an optional type and a default. -/
theorem reads_defaultArgument {name : String} {type : Option String} {default : Tree}
    (hname : IsName name) (htype : ∀ text, type = some text → IsType text)
    (hdefault : Readable p .expression default) (hn : default.words.length < n)
    (hrest : nextKind rest = .comma ∨ nextKind rest = .rightParen) :
    Reads p (argument E)
      (Word.ofText name :: (typeWords type ++ .mark .assign :: (default.words ++ rest)))
      (.defaultArgument name type default.reparsed) rest := by
  have hstops : Stops default.isLoose (nextKind rest) := by
    rcases hrest with h | h <;> rw [h] <;> exact ⟨rfl, nofun⟩
  refine reads_named hname (accepts_typeWords rfl) ?_
  exact .bind (reads_name hname) (.bind (reads_optionalType htype nofun nofun) (.bind
    (reads_optionalExpression rfl (hE.reads_words nofun hdefault hn hstops)) (.pure _)))

/-- A pattern that is no name. -/
theorem reads_pattern {pattern : Tree} (h : Readable p .expression pattern)
    (hne : ∀ name, pattern ≠ .reference name) (hn : pattern.words.length < n)
    (hrest : nextKind rest = .comma ∨ nextKind rest = .rightParen) :
    Reads p (argument E) (pattern.words ++ rest) (.patternArgument pattern.reparsed) rest := by
  have hstops : Stops pattern.isLoose (nextKind rest) := by
    rcases hrest with h | h <;> rw [h] <;> exact ⟨rfl, fun _ => by decide⟩
  have hfollows : ((nextKind (pattern.words ++ rest)).isAnyOf [.name] &&
      (Expectation.anyOf [.colon, .assign, .comma, .rightParen]).accepts
        (nextKind (pattern.words ++ rest).tail)) = false := by
    obtain ⟨w, ws, hwords, hfirst⟩ := h.written.exists_first
    rw [hwords, List.cons_append, nextKind_cons, List.tail_cons]
    cases hname : w.kind.isA .name with
    | false => simp [TokenKind.isAnyOf, hname]
    | true =>
      rcases hfirst.name hname with ⟨-, name, hreference⟩ | hpostfix
      · exact absurd hreference (hne name)
      · rw [Bool.and_eq_false_iff]
        cases ws with
        | nil => rcases hpostfix with h | h <;> cases h
        | cons v vs =>
          refine .inr ?_
          rw [List.cons_append, nextKind_cons]
          rw [Postfix, nextKind_cons] at hpostfix
          rcases hpostfix with h | h <;> rw [h] <;> rfl
  refine .bind reads_namedArgumentFollows ?_
  rw [hfollows]
  exact .bind (hE.reads_words (by decide) h hn hstops) (.pure _)

/-- An argument in a list. -/
theorem listed_argument (h : Readable p .argument tree) (hn : tree.words.length < n) :
    Listed p .rightParen (argument E) tree.words tree.reparsed := by
  obtain ⟨w, ws, hwords, hfirst⟩ := exists_first_argument h.written
  refine ⟨by simp [hwords], by rwa [hwords], fun rest hrest => ?_⟩
  obtain ⟨hwritten, -, -⟩ := id h
  cases hwritten with
  | basicArgument hname htype =>
    rw [words, reparsed]
    exact reads_basicArgument hname htype hrest
  | @defaultArgument name type default hname htype hd =>
    have hdefault : Readable p .expression default := h.child hd (by simp [children, groups])
    rw [words] at hn ⊢
    rw [reparsed, List.cons_append, List.append_assoc]
    simp only [List.length_cons, List.length_append] at hn
    exact hE.reads_defaultArgument hname htype hdefault (by omega) hrest
  | @patternArgument pattern hp =>
    rw [words] at hn ⊢
    rw [reparsed]
    by_cases hreference : ∃ name, pattern = .reference name
    · obtain ⟨name, rfl⟩ := hreference
      cases hp with
      | reference hname =>
        rw [words, reparsed]
        have hread : Reads p (argument E) (Word.ofText name :: (typeWords none ++ rest))
            (.basicArgument name none) rest := reads_basicArgument hname (by simp) hrest
        exact hread
    · have hne : ∀ name, pattern ≠ .reference name := fun name e => hreference ⟨name, e⟩
      have hargument : pattern.reparsed.asArgument = .patternArgument pattern.reparsed :=
        asArgument_of_ne fun name e => hne name (eq_of_reparsed_eq_reference e)
      have hpattern : Readable p .expression pattern := by
        refine ⟨hp, (all_iff.1 h.legible).2 pattern (by simp [children, groups]), fun hpre => ?_⟩
        have htidy := h.tidy hpre
        rw [reparsed, hargument] at htidy
        exact (all_iff.1 htidy).2 _ (by simp [children, groups])
      rw [hargument]
      exact hE.reads_pattern hpattern hne hn hrest

/-! ## Functions -/

/-- The body of a function. -/
theorem reads_functionBody {body : Tree} (h : Readable p .expression body)
    (hn : body.words.length < n) :
    Reads p (functionBody E) (body.bodyWords body.words ++ rest) body.reparsed rest := by
  unfold bodyWords
  split
  · rename_i hblock
    cases body with
    | block statements =>
      have hread : Reads p (Reader.block E)
          ((statements.map words).flatten ++ .mark .rightBrace :: rest)
          (Tree.block statements).reparsed rest := hE.reads_block h (by omega)
      rw [words, bracedWords, List.cons_append, List.append_assoc]
      exact .bind .peek (.bind .advance hread)
    | _ => cases hblock
  · rw [List.cons_append, List.append_assoc]
    exact .bind .peek (.bind .advance (.bind (hE.reads_before_semicolon h hn)
      (.bind reads_terminator (.pure _))))

/-- The arguments, the type of the result, and the body of a function. -/
theorem reads_functionRest {arguments : List Tree} {returnType : Option String} {body : Tree}
    (ha : ∀ tree ∈ arguments, Readable p .argument tree)
    (htype : ∀ text, returnType = some text → IsType text) (hb : Readable p .expression body)
    (hn : (commaWords (arguments.map words)).length < n) (hbody : body.words.length < n) :
    Reads p (functionRest E) (groupedWords (commaWords (arguments.map words)) ++
      (typeWords returnType ++ (body.bodyWords body.words ++ rest)))
      (arguments.map reparsed, returnType, body.reparsed) rest := by
  have hlisted : List.Forall₂ (Listed p .rightParen (argument E)) (arguments.map words)
      (arguments.map reparsed) := by
    refine List.forall₂_map_left_iff.2 (List.forall₂_map_right_iff.2
      (List.forall₂_same.2 fun tree hmem => hE.listed_argument (ha tree hmem) ?_))
    have := length_le_commaWords (List.mem_map_of_mem (f := words) hmem)
    omega
  have hnext {kind : TokenKind} (hbrace : kind ≠ .leftBrace) (hassign : kind ≠ .assign) :
      nextKind (body.bodyWords body.words ++ rest) ≠ kind := by
    rcases nextKind_bodyWords body rest with hk | hk <;> rw [hk]
    · exact hbrace.symm
    · exact hassign.symm
  rw [groupedWords, List.cons_append, List.append_assoc]
  exact .bind (.expectKind rfl) (.bind (reads_argumentList hlisted) (.bind
    (reads_optionalType htype (hnext (by decide) (by decide)) (hnext (by decide) (by decide)))
      (.bind (hE.reads_functionBody hb hbody) (.pure _))))

/-- A function. -/
theorem reads_function (h : Readable p .function tree) (hn : tree.words.length < n) :
    Reads p (Reader.function E) (tree.words ++ rest) tree.reparsed rest := by
  obtain ⟨hwritten, -, -⟩ := id h
  cases hwritten with
  | @function name isInfix arguments returnType body hname ha htype hb =>
    have hbody : Readable p .expression body := h.child hb (by simp [children, groups])
    have harguments (tree : Tree) (hmem : tree ∈ arguments) : Readable p .argument tree :=
      h.child (ha tree hmem) (by simp [children, groups, hmem])
    have htidy (hp : p) : (Tree.function name isInfix (arguments.map reparsed) returnType
        body.reparsed).isTidy = true := by
      have hall := (all_iff.1 (h.tidy hp)).1
      rwa [reparsed] at hall
    rw [words_function, headWords, groupedWords] at hn
    simp only [List.length_cons, List.length_append] at hn
    have hlength := length_le_bodyWords body
    have hrest : Reads p (functionRest E) (groupedWords (commaWords (arguments.map words)) ++
        (typeWords returnType ++ (body.bodyWords body.words ++ rest)))
        (arguments.map reparsed, returnType, body.reparsed) rest :=
      hE.reads_functionRest harguments htype hbody (by omega) (by omega)
    have hkeyword {mid : List Word} : Reads p (skipKind .wordInfix)
        ((if isInfix then [Word.ofText "infix"] else []) ++ Word.ofText "fun" :: mid) isInfix
        (Word.ofText "fun" :: mid) := by
      cases isInfix with
      | true => exact .skipKind rfl
      | false => exact .skipKind_of_ne (nextKind_cons_ne (by decide))
    rw [words_function, reparsed, headWords]
    simp only [List.append_assoc, List.cons_append]
    exact .bind hkeyword (.bind (.expectKind rfl) (.bind (reads_name hname) (.bind hrest
      (.bind (.require htidy) (.pure _)))))

end Covers

/-! ## Imports -/

/-- An imported name in a list. -/
theorem listed_importEntry (h : Written .importEntry tree) :
    Listed p .rightBrace importEntry tree.words tree.reparsed := by
  cases h with
  | @importEntry name rename hname hrename =>
    rw [words, reparsed]
    refine ⟨List.cons_ne_nil _ _, ?_, fun rest hrest => ?_⟩
    · rw [nextKind_cons]
      rcases hname.kind_cases with hk | hk | hk <;> rw [hk] <;> decide
    · rw [List.cons_append]
      refine .bind (reads_name hname) (.bind (a := rename) ?_ (.pure _))
      cases rename with
      | none =>
        have hother : nextKind rest ≠ .wordAs := by
          rcases hrest with h | h <;> rw [h] <;> decide
        exact .bind (.skipKind_of_ne hother) (.pure _)
      | some text =>
        exact .bind (.skipKind rfl) (.bind (reads_name (hrename text rfl)) (.pure _))

/-- The imported names. -/
theorem reads_importEntries {entries : List Tree}
    (h : ∀ entry ∈ entries, Written .importEntry entry) (hrest : nextKind rest ≠ .leftBrace) :
    Reads p importEntries ((if entries.isEmpty then []
      else bracedWords (commaWords (entries.map words))) ++ rest) (entries.map reparsed) rest := by
  split
  · rename_i hempty
    rw [List.isEmpty_iff.1 hempty]
    refine .bind (.refuse ?_) (.pure _)
    simpa using hrest.symm
  · have hlisted : List.Forall₂ (Listed p .rightBrace importEntry) (entries.map words)
        (entries.map reparsed) :=
      List.forall₂_map_left_iff.2 (List.forall₂_map_right_iff.2
        (List.forall₂_same.2 fun entry hmem => listed_importEntry (h entry hmem)))
    rw [bracedWords, List.cons_append, List.append_assoc]
    refine .bind (.accept rfl) (.bind_bound fun m hm => ?_)
    have hread : Reads p (loop importStep m [])
        (commaWords (entries.map words) ++ .mark .rightBrace :: rest) (entries.map reparsed)
        (.mark .rightBrace :: rest) := reads_list (by decide) hlisted rfl [] hm
    exact .bind hread (.bind (.expectKind rfl) (.pure _))

/-- An import. -/
theorem reads_import (h : Written .importPath tree) :
    Reads p (importRule E) (tree.words ++ rest) tree.reparsed rest := by
  cases h with
  | @importPath path entries he =>
    rw [words, reparsed, quotedWords]
    simp only [List.cons_append, List.append_assoc, List.nil_append]
    exact .bind (.expectKind rfl) (.bind (.bind (.expectKind rfl) (.bind
      (reads_stringLiteral path) (.pure _)))
        (.bind (reads_importEntries he (nextKind_cons_ne (by decide)))
          (.bind (.skipKind rfl) (.pure _))))

end Reader

end ExprLang
