import ExprLang.Proofs.Lexer.States

/-!
# What the lexer drops

Between the tokens of a text stand blanks and comments only, and inside a string
nothing at all.

Main definitions:

- Definition {lit}`Trivia`: blanks and comments before the rest of a text.
- Definition {lit}`Token.Woven`: a text as tokens at their places, with trivia
  between them.
- Definition {lit}`Token.weave`: tokens and the slices of a text between them, by
  the offsets of the tokens.

Main results:

- Theorem {lit}`Reference.triviaPiece_of_piece?`: what is dropped is trivia, and not
  in a string.
- Theorem {lit}`Lexer.tokenize_drops_trivia`: a text is its tokens and trivia.
-/

namespace ExprLang

/-! ## Trivia -/

/-- No star and slash come before those that are written behind a text. -/
def EndsFirst (body : List Char) : Prop :=
  ∀ front back, body ++ ['*', '/'] = front ++ '*' :: '/' :: back → back = []

/-- One piece of text that is dropped, before what follows it. -/
inductive TriviaPiece : List Char → List Char → Prop
  /-- Spaces, tabs and line ends. -/
  | blanks {run following : List Char} (hne : run ≠ [])
    (hrun : ∀ c ∈ run, c = ' ' ∨ c = '\t' ∨ c = '\r' ∨ c = '\n') : TriviaPiece run following
  /-- Two slashes and the rest of the line, which a newline or the end of the text ends. -/
  | line {body following : List Char} (hbody : '\n' ∉ body)
    (hend : ∀ c ∈ following.head?, c = '\n') : TriviaPiece ('/' :: '/' :: body) following
  /-- From a slash and a star to the first star and slash. -/
  | block {body following : List Char} (hfirst : EndsFirst body) :
    TriviaPiece ('/' :: '*' :: body ++ ['*', '/']) following

/-- Any number of pieces that are dropped, before the rest of a text. -/
inductive Trivia : List Char → List Char → Prop
  | nil (rest : List Char) : Trivia [] rest
  | cons {piece gap rest : List Char} (hp : TriviaPiece piece (gap ++ rest))
    (h : Trivia gap rest) : Trivia (piece ++ gap) rest

/-! ## Fragments that are dropped -/

/-- What each star and slash of a text leave over, from the first on. -/
def commentEnds (cs : List Char) : List (List Char) :=
  (CharSet.any.runs cs).flatMap fun found =>
    ((Pattern.one (.only '*')).rests found).flatMap (Pattern.one (.only '/')).rests

/-- A star and a slash. -/
theorem commentEnds_cons (rest : List Char) :
    commentEnds ('*' :: '/' :: rest) = rest :: commentEnds ('/' :: rest) := by
  simp [commentEnds, CharSet.runs, Pattern.rests]

/-- A character that does not begin a star and a slash. -/
theorem commentEnds_cons_of_not {c : Char} {cs : List Char}
    (h : ¬ (c = '*' ∧ cs.head? = some '/')) : commentEnds (c :: cs) = commentEnds cs := by
  have hnone : ((Pattern.one (.only '*')).rests (c :: cs)).flatMap
      (Pattern.one (.only '/')).rests = [] := by
    cases cs with
    | nil => by_cases hc : c = '*' <;> simp [Pattern.rests, hc]
    | cons d ds =>
      by_cases hc : c = '*' <;> by_cases hd : d = '/' <;> simp_all [Pattern.rests]
  rw [commentEnds, CharSet.runs, CharSet.contains_any, if_pos rfl, List.flatMap_cons, hnone]
  rfl

theorem endsFirst_nil : EndsFirst [] := by
  intro front back h
  have hlength := congrArg List.length h
  simp only [List.length_append, List.length_cons, List.length_nil] at hlength
  exact List.length_eq_zero_iff.1 (by omega)

theorem endsFirst_cons {c : Char} {body : List Char} :
    EndsFirst (c :: body) ↔
      ¬ (c = '*' ∧ (body ++ ['*', '/']).head? = some '/') ∧ EndsFirst body := by
  constructor
  · intro h
    refine ⟨?_, fun front back hback => h (c :: front) back (congrArg (c :: ·) hback)⟩
    rintro ⟨rfl, hhead⟩
    obtain ⟨back, hback⟩ := List.head?_eq_some_iff.1 hhead
    have hnil := h [] back (congrArg ('*' :: ·) hback)
    have hlength := congrArg List.length hback
    simp [hnil] at hlength
  · rintro ⟨hc, hbody⟩ front back hback
    cases front with
    | nil =>
      obtain ⟨rfl, hrest⟩ := List.cons.inj hback
      exact absurd ⟨rfl, congrArg List.head? hrest⟩ hc
    | cons d front => exact hbody front back (List.cons.inj hback).2

/-- A text with a star and a slash in it has a first one. -/
theorem commentEnds_ne_nil (front back : List Char) :
    commentEnds (front ++ '*' :: '/' :: back) ≠ [] := by
  induction front with
  | nil =>
    rw [List.nil_append, commentEnds_cons]
    exact List.cons_ne_nil _ _
  | cons c front ih =>
    by_cases hends : c = '*' ∧ (front ++ '*' :: '/' :: back).head? = some '/'
    · obtain ⟨rfl, hhead⟩ := hends
      obtain ⟨after, hafter⟩ := List.head?_eq_some_iff.1 hhead
      rw [List.cons_append, hafter, commentEnds_cons]
      exact List.cons_ne_nil _ _
    · rwa [List.cons_append, commentEnds_cons_of_not hends]

/-- What the first star and slash leave over. -/
theorem head?_commentEnds {cs rest : List Char} :
    (commentEnds cs).head? = some rest ↔
      ∃ body, cs = body ++ '*' :: '/' :: rest ∧ EndsFirst body := by
  induction cs with
  | nil => simp [commentEnds, CharSet.runs, Pattern.rests]
  | cons c cs ih =>
    by_cases hends : c = '*' ∧ cs.head? = some '/'
    · obtain ⟨rfl, hhead⟩ := hends
      obtain ⟨after, rfl⟩ := List.head?_eq_some_iff.1 hhead
      rw [commentEnds_cons, List.head?_cons, Option.some.injEq]
      constructor
      · rintro rfl
        exact ⟨[], rfl, endsFirst_nil⟩
      · rintro ⟨body, hbody, hfirst⟩
        cases body with
        | nil => cases hbody; rfl
        | cons d body =>
          obtain ⟨rfl, hrest⟩ := List.cons.inj hbody
          refine absurd ⟨rfl, ?_⟩ (endsFirst_cons.1 hfirst).1
          cases body with
          | nil => cases hrest
          | cons d body => cases hrest; rfl
    · rw [commentEnds_cons_of_not hends, ih]
      constructor
      · rintro ⟨body, rfl, hfirst⟩
        refine ⟨c :: body, rfl, endsFirst_cons.2 ⟨?_, hfirst⟩⟩
        rintro ⟨hc, hhead⟩
        refine hends ⟨hc, ?_⟩
        cases body <;> exact hhead
      · rintro ⟨body, hbody, hfirst⟩
        cases body with
        | nil => exact absurd ⟨(List.cons.inj hbody).1, by rw [(List.cons.inj hbody).2]; rfl⟩ hends
        | cons d body => exact ⟨body, (List.cons.inj hbody).2, (endsFirst_cons.1 hfirst).2⟩

namespace Reference

variable {cs text rest : List Char}

/-- Spaces, tabs and line ends are dropped. -/
theorem triviaPiece_of_blanks (h : blanks.split? cs = some (text, rest)) :
    TriviaPiece text rest := by
  obtain ⟨c, run, rfl, hc, hrun⟩ := Fragment.exists_of_split?_run h
  refine .blanks (List.cons_ne_nil _ _) fun d hd => ?_
  have hcontains : (CharSet.ofList [' ', '\t', '\r', '\n']).contains d = true :=
    (List.mem_cons.1 hd).elim (fun h => h ▸ hc) (hrun d)
  simpa using hcontains

/-- What a pattern leaves over is the first of what its matches leave over. -/
theorem exists_of_matchStart? {p : Pattern} (h : p.matchStart? cs = some (text, rest)) :
    (p.rests cs).head? = some rest := by
  obtain ⟨found, hfound, heq⟩ := Option.map_eq_some_iff.1 h
  cases heq
  exact hfound

/-- What two characters leave over, if the text begins with them. -/
theorem rests_pair (c d : Char) (cs : List Char) :
    (Pattern.seq (.one (.only c)) (.one (.only d))).rests cs = [] ∨
      ∃ more, cs = c :: d :: more ∧
        (Pattern.seq (.one (.only c)) (.one (.only d))).rests cs = [more] := by
  rcases cs with _ | ⟨a, _ | ⟨b, more⟩⟩
  · exact .inl rfl
  · by_cases ha : a = c <;> simp [Pattern.rests, ha]
  · by_cases ha : a = c <;> by_cases hb : b = d <;> simp [Pattern.rests, ha, hb]

/-- A pattern splits a text before what it leaves over. -/
theorem matchStart?_append {p : Pattern} (h : (p.rests (text ++ rest)).head? = some rest) :
    p.matchStart? (text ++ rest) = some (text, rest) := by
  rw [Pattern.matchStart?, h, Option.map_some, List.length_append, Nat.add_sub_cancel,
    List.take_left]

/-- The characters of a line. -/
def lineSet : CharSet := .except ['\n']

/-- Two slashes and the rest of the line are read as a whole. -/
theorem split?_slashes (more : List Char) :
    lineComment.split? ('/' :: '/' :: more) =
      some ('/' :: '/' :: more.takeWhile lineSet.contains, more.dropWhile lineSet.contains) := by
  have hpair : (Pattern.seq (.one (.only '/')) (.one (.only '/'))).rests ('/' :: '/' :: more) =
      [more] := by
    simp [Pattern.rests]
  have hsplit := List.takeWhile_append_dropWhile (p := lineSet.contains) (l := more)
  rw [show '/' :: '/' :: more = '/' :: '/' :: more.takeWhile lineSet.contains ++
    more.dropWhile lineSet.contains by rw [List.cons_append, List.cons_append, hsplit]]
  refine matchStart?_append ?_
  rw [List.cons_append, List.cons_append, hsplit, Pattern.rests, hpair, List.flatMap_singleton,
    Pattern.rests, if_pos rfl, List.head?_reverse]
  exact CharSet.getLast?_runs ..

/-- A comment to the end of a line begins with two slashes. -/
theorem exists_of_split?_lineComment (h : lineComment.split? cs = some (text, rest)) :
    ∃ more, cs = '/' :: '/' :: more := by
  have hhead := exists_of_matchStart? h
  rw [Pattern.rests] at hhead
  rcases rests_pair '/' '/' cs with hnil | ⟨more, rfl, -⟩
  · rw [hnil] at hhead
    cases hhead
  · exact ⟨more, rfl⟩

/-- The rest of a line behind two slashes is dropped. -/
theorem triviaPiece_of_lineComment (h : lineComment.split? cs = some (text, rest)) :
    TriviaPiece text rest := by
  obtain ⟨more, rfl⟩ := exists_of_split?_lineComment h
  rw [split?_slashes] at h
  cases h
  refine .line (fun hmem => ?_) fun c hc => ?_
  · simpa [lineSet] using List.all_eq_true.1 List.all_takeWhile '\n' hmem
  · have hnot := List.head?_dropWhile_not lineSet.contains more
    rw [hc] at hnot
    simpa [lineSet] using hnot

/-- A comment with an end is the text from a slash and a star to the first star and slash. -/
theorem split?_blockComment {body : List Char} (hfirst : EndsFirst body) :
    blockComment.split? ('/' :: '*' :: body ++ ['*', '/'] ++ rest) =
      some ('/' :: '*' :: body ++ ['*', '/'], rest) := by
  refine matchStart?_append ?_
  have hpair : (Pattern.seq (.one (.only '/')) (.one (.only '*'))).rests
      ('/' :: '*' :: body ++ ['*', '/'] ++ rest) = [body ++ '*' :: '/' :: rest] := by
    simp [Pattern.rests]
  rw [Pattern.rests, Pattern.rests, Pattern.rests, hpair, List.flatMap_singleton,
    List.flatMap_assoc]
  exact head?_commentEnds.2 ⟨body, rfl, hfirst⟩

/-- What is read as a comment with an end. -/
theorem exists_of_split?_blockComment (h : blockComment.split? cs = some (text, rest)) :
    ∃ body, text = '/' :: '*' :: body ++ ['*', '/'] ∧ EndsFirst body := by
  have happend := Pattern.append_of_matchStart? h
  have hhead := exists_of_matchStart? h
  rw [Pattern.rests, Pattern.rests, Pattern.rests] at hhead
  rcases rests_pair '/' '*' cs with hnil | ⟨more, rfl, hmore⟩
  · rw [hnil] at hhead
    cases hhead
  · rw [hmore, List.flatMap_singleton, List.flatMap_assoc] at hhead
    obtain ⟨body, rfl, hfirst⟩ := head?_commentEnds.1 hhead
    exact ⟨body, List.append_cancel_right (happend.trans (by simp)), hfirst⟩

/-- The text from a slash and a star to the first star and slash is dropped. -/
theorem triviaPiece_of_blockComment (h : blockComment.split? cs = some (text, rest)) :
    TriviaPiece text rest := by
  obtain ⟨body, rfl, hfirst⟩ := exists_of_split?_blockComment h
  exact .block hfirst

/-! ## Rules that drop what they match -/

/-- Whether a fragment is one of those that are dropped. -/
def isTrivia (f : Fragment) : Bool :=
  sameSimple f blanks || sameSimple f lineComment || sameSimple f blockComment

/-- Of the rules only those for blanks and comments drop what they match, and none of them applies
in a string. -/
theorem isTrivia_of_mem_rules {id : StateId} {rule : Rule} (h : rule ∈ reference.rules id)
    (hskip : rule.action = .skip) : id ≠ string ∧ isTrivia rule.fragment = true := by
  have hcode : ∀ rule ∈ codeRules, rule.action = .skip → isTrivia rule.fragment = true := by
    decide
  have hother (closing : TokenKind) : ∀ rule ∈ braceRules closing, rule.action ≠ .skip := by
    simp [braceRules]
  obtain ⟨_ | _ | _ | _ | n⟩ := id
  · rw [show reference.rules ⟨0⟩ = _ from rules_code] at h
    exact ⟨by decide, hcode rule h hskip⟩
  · rw [show reference.rules ⟨1⟩ = _ from rules_string] at h
    have hstring : ∀ rule ∈ stringRules, rule.action ≠ .skip := by decide
    exact absurd hskip (hstring rule h)
  · rw [show reference.rules ⟨2⟩ = _ from rules_template] at h
    have hmem := (List.mem_append.1 h).resolve_left fun h => hother _ rule h hskip
    exact ⟨by decide, hcode rule hmem hskip⟩
  · rw [show reference.rules ⟨3⟩ = _ from rules_brace] at h
    have hmem := (List.mem_append.1 h).resolve_left fun h => hother _ rule h hskip
    exact ⟨by decide, hcode rule hmem hskip⟩
  · cases h

/-- What is dropped is trivia, and not in a string. -/
theorem triviaPiece_of_piece? {stack : StateStack} {p : Piece}
    (h : reference.piece? stack cs = some p) (hkind : p.kind? = none) :
    stack.current ≠ string ∧ TriviaPiece p.text p.rest := by
  cases cs with
  | nil => cases h
  | cons c cs =>
    simp only [Grammar.piece?] at h
    split at h
    · rename_i action text rest hs
      cases h
      obtain ⟨rule, hrule, rfl, hsplit⟩ := exists_mem_of_firstSplit? hs
      have hskip : rule.action = .skip := by
        cases haction : rule.action <;> rw [haction] at hkind <;> first | rfl | cases hkind
      obtain ⟨hstate, htrivia⟩ := isTrivia_of_mem_rules hrule hskip
      refine ⟨hstate, ?_⟩
      rcases Bool.or_eq_true_iff.1 htrivia with htrivia | hblock
      · rcases Bool.or_eq_true_iff.1 htrivia with hblanks | hline
        · exact triviaPiece_of_blanks (eq_of_sameSimple hblanks ▸ hsplit)
        · exact triviaPiece_of_lineComment (eq_of_sameSimple hline ▸ hsplit)
      · exact triviaPiece_of_blockComment (eq_of_sameSimple hblock ▸ hsplit)
    · cases h
      cases hkind

end Reference

/-! ## Tokens and gaps -/

namespace Token

/-- The rest of a text behind what stands before it: trivia and a token at its place in turn, and
trivia at the end. -/
inductive Woven : List Char → List Token → List Char → Prop
  | last {before gap : List Char} (h : Trivia gap []) : Woven before [] gap
  | cons {before gap text rest : List Char} {kind : TokenKind} {tokens : List Token}
    (hgap : Trivia gap (text ++ rest)) (hne : text ≠ [])
    (h : Woven (before ++ gap ++ text) tokens rest) :
    Woven before (piece kind (before ++ gap) text :: tokens) (gap ++ (text ++ rest))

/-- The texts of tokens and the slices of a text before, between and behind them, from an offset
on. -/
def weave (text : String) : Nat → List Token → ByteArray
  | start, [] => text.toByteArray.extract start text.utf8ByteSize
  | start, token :: tokens =>
    text.toByteArray.extract start token.span.start.offset ++ token.text.toByteArray ++
      weave text token.span.stop.offset tokens

variable {before rest : List Char} {tokens : List Token}

/-- A piece that is dropped goes to the gap behind it. -/
theorem Woven.drop {piece : List Char} (h : Woven (before ++ piece) tokens rest)
    (hp : TriviaPiece piece rest) : Woven before tokens (piece ++ rest) := by
  generalize hb : before ++ piece = front at h
  cases h with
  | last hgap => exact .last (.cons (by rwa [List.append_nil]) hgap)
  | @cons _ gap text rest kind tokens hgap hne h =>
    subst hb
    have hrest : Woven (before ++ (piece ++ gap) ++ text) tokens rest := by
      simpa only [List.append_assoc] using h
    have hcons : Woven before (Token.piece kind (before ++ (piece ++ gap)) text :: tokens)
        (piece ++ gap ++ (text ++ rest)) := .cons (.cons hp hgap) hne hrest
    simpa only [List.append_assoc] using hcons

/-- The tokens of a text and the slices between them are the text. -/
theorem Woven.weave_eq (h : Woven before tokens rest) :
    weave (String.ofList (before ++ rest)) (Point.behind before).offset tokens =
      (String.ofList rest).toByteArray := by
  induction h with
  | @last before gap =>
    have hgap := Point.extract_behind before gap []
    rwa [List.append_nil] at hgap
  | @cons before gap text rest kind tokens hgap hne h ih =>
    have hslice := Point.extract_behind before gap (text ++ rest)
    simp only [List.append_assoc] at ih hslice
    simp only [weave, piece, List.append_assoc, hslice, ih]
    simp only [String.ofList_append, String.toByteArray_append, ByteArray.append_assoc]

end Token

namespace Lexer

open Reference

variable {l after : Lexer} {token : Token} {tokens : List Token} {text : String}

/-- A match that is dropped moves over trivia, and not in a string. -/
theorem triviaPiece_of_step? (hg : l.grammar = reference) (hs : l.step? = some (none, after)) :
    l.stack.current ≠ string ∧ ∃ piece, l.cursor.rest = piece ++ after.cursor.rest ∧
      after.cursor.point = l.cursor.point.advance piece ∧
      TriviaPiece piece after.cursor.rest := by
  rw [step?_eq, hg] at hs
  obtain ⟨p, hp, hpast⟩ := Option.map_eq_some_iff.1 hs
  obtain ⟨htoken, rfl⟩ := Prod.mk.injEq .. ▸ hpast
  obtain ⟨hstate, htrivia⟩ := triviaPiece_of_piece? hp (Option.map_eq_none_iff.1 htoken)
  exact ⟨hstate, p.text, (Grammar.append_of_piece? hp).1.symm, rfl, htrivia⟩

/-- What is left of a text is woven from the tokens that are to come. -/
theorem woven_tokens {before : List Char} (hg : l.grammar = reference)
    (hpoint : l.cursor.point = .behind before) :
    Token.Woven before l.tokens l.cursor.rest := by
  induction l using step_induct generalizing before with
  | stop l hs =>
    rw [tokens_of_rest_nil (rest_eq_nil_of_step? hs), rest_eq_nil_of_step? hs]
    exact .last (.nil _)
  | move l token? after hs ih =>
    have hgrammar := (grammar_of_step? hs).trans hg
    cases token? with
    | none =>
      obtain ⟨-, piece, hrest, hafter, hpiece⟩ := triviaPiece_of_step? hg hs
      rw [hpoint, ← Point.behind_append] at hafter
      rw [tokens_of_step?_drop hs, hrest]
      exact (ih hgrammar hafter).drop hpiece
    | some token =>
      obtain ⟨text, hne, hrest, hafter, htoken⟩ := exists_of_step? hs hpoint
      obtain ⟨kind, rfl⟩ := htoken token rfl
      rw [tokens_of_step?_token hs, hrest]
      have hafter : Token.Woven (before ++ [] ++ text) after.tokens after.cursor.rest := by
        rw [List.append_nil]
        exact ih hgrammar hafter
      have hcons : Token.Woven before (Token.piece kind (before ++ []) text :: after.tokens)
          ([] ++ (text ++ after.cursor.rest)) := .cons (.nil _) hne hafter
      rwa [List.append_nil] at hcons

/-- In a string nothing is dropped before a token. -/
theorem start_eq_of_string (hg : l.grammar = reference) (hstate : l.stack.current = string)
    (h : l.next = (some token, after)) : token.span.start = l.cursor.point := by
  cases hs : l.step? with
  | none =>
    rw [next_of_step?_none hs] at h
    cases h
  | some found =>
    obtain ⟨token?, middle⟩ := found
    cases token? with
    | none => exact absurd hstate (triviaPiece_of_step? hg hs).1
    | some found =>
      rw [next_of_step?_token hs] at h
      cases h
      rw [step?_eq] at hs
      obtain ⟨p, -, hpast⟩ := Option.map_eq_some_iff.1 hs
      obtain ⟨kind, -, rfl⟩ := Option.map_eq_some_iff.1 (Prod.mk.inj hpast).1
      rfl

/-- The last token of a run ends where the lexer stands. -/
theorem Gives.exists_previous (h : (ofText reference text).Gives tokens l)
    (hstate : l.stack.current = string) :
    ∃ previous ∈ tokens.getLast?, previous.span.stop = l.cursor.point := by
  obtain ⟨covered, -, hpoint, hlayout⟩ := h.exists_layout
  cases htokens : tokens.getLast? with
  | none =>
    rw [List.getLast?_eq_none_iff.1 htokens] at h
    rw [h.states.1] at hstate
    cases hstate
  | some previous =>
    exact ⟨previous, rfl, (hlayout.stop_getLast previous htokens).trans hpoint.symm⟩

/-- The tokens of a text and the slices before, between and behind them, by their offsets, are the
text; the tokens are at their places, and each slice is made of blanks and comments; and wherever a
run is in a string, the next token starts where the last one ends. -/
theorem tokenize_drops_trivia (text : String) :
    Token.weave text 0 (tokenize text) = text.toByteArray ∧
    Token.Woven [] (tokenize text) text.toList ∧
    ∀ tokens l token after, (ofText reference text).Gives tokens l →
      l.stack.current = string → l.next = (some token, after) →
      ∃ previous ∈ tokens.getLast?, previous.span.stop = token.span.start := by
  have hwoven : Token.Woven [] (tokenize text) text.toList :=
    woven_tokens (l := .ofText reference text) rfl rfl
  refine ⟨?_, hwoven, ?_⟩
  · have hweave := hwoven.weave_eq
    rwa [List.nil_append, String.ofList_toList] at hweave
  · intro tokens l token after hgives hstate hnext
    obtain ⟨previous, hprevious, hstop⟩ := hgives.exists_previous hstate
    refine ⟨previous, hprevious, ?_⟩
    rw [hstop, start_eq_of_string (hgives.admits wellFormed).1 hstate hnext]

/-- Two slashes and blanks inside a string, and a comment behind it. -/
theorem tokenize_drops_trivia_string :
    Token.weave "\" // b\" // c" 0 (tokenize "\" // b\" // c") = "\" // b\" // c".toByteArray ∧
    ∃ tokens l token after, (ofText reference "\" // b\" // c").Gives tokens l ∧
      l.stack.current = string ∧ l.next = (some token, after) ∧ token.kind = .stringContent ∧
      ∃ previous ∈ tokens.getLast?, previous.span.stop = token.span.start := by
  obtain ⟨hweave, -, hrun⟩ := tokenize_drops_trivia "\" // b\" // c"
  refine ⟨hweave, ?_⟩
  have hkinds : (tokenize "\" // b\" // c").map Token.kind =
      [.stringStart] ++ .stringContent :: [.stringEnd] := by
    decide +kernel
  obtain ⟨before, token, more, hsplit, hbefore, htoken, -⟩ := exists_of_map_kind hkinds
  rw [List.append_cons] at hsplit
  obtain ⟨after, hafter⟩ := exists_gives_of_tokenize hsplit
  obtain ⟨l, hgives, hnext⟩ := hafter.exists_of_concat
  have hstate : l.stack.current = string := by
    rw [hgives.states.1, hbefore]
    rfl
  exact ⟨before, l, token, after, hgives, hstate, hnext, htoken,
    hrun before l token after hgives hstate hnext⟩

end Lexer

end ExprLang
