import ExprLang.Proofs.Layout.Texts
import ExprLang.Proofs.Lexer.Quotes

/-!
# Any text as a string literal

Every text can be written as a string literal: escaped and in quotes it is one token
after the other of the body of a string, and these tokens stand for the text again,
whatever characters it has.

Main definitions:

- Definition {lit}`Word.Spells`: the characters that a word of the body of a string
  stands for.

Main results:

- Theorem {lit}`exists_spells_textWords`: the words of an escaped text stand for the
  text.
- Theorem {lit}`Parser.loop_stringStep_of_spells`: a string collects what its words
  stand for.
- Theorem {lit}`parseText_escapeString`: an escaped text in quotes parses to the text.
-/

namespace ExprLang

/-! ## Bodies of strings -/

/-- A word of the body of a string stands for some characters. -/
def Word.Spells (w : Word) (cs : List Char) : Prop :=
  (w.kind = .stringContent ∧ w.text.toList = cs) ∨
    (w.kind = .stringEscape ∧ ∃ c, cs = [c] ∧ Text.unescape? w.text.toList = some c)

/-- Characters that stand for themselves are one piece, or none. -/
theorem exists_spells_runWords (run : List Char) :
    ∃ pieces, List.Forall₂ Word.Spells (runWords run) pieces ∧ pieces.flatten = run := by
  unfold runWords
  split
  · rename_i hrun
    exact ⟨[], .nil, hrun.symm⟩
  · exact ⟨[run], .cons (.inl ⟨rfl, String.toList_ofList⟩) .nil, by simp⟩

/-- The words of an escaped text, some of whose characters are already found, stand for all of
them. -/
theorem exists_spells_textWordsFrom (run cs : List Char) :
    ∃ pieces, List.Forall₂ Word.Spells (textWordsFrom run cs) pieces ∧
      pieces.flatten = run ++ cs := by
  induction cs generalizing run with
  | nil => simpa [textWordsFrom] using exists_spells_runWords run
  | cons c cs ih =>
    rw [textWordsFrom]
    split
    · obtain ⟨pieces, hpieces, htext⟩ := ih (run ++ [c])
      exact ⟨pieces, hpieces, by simpa using htext⟩
    · rename_i hc
      obtain ⟨front, hfront, hrun⟩ := exists_spells_runWords run
      obtain ⟨back, hback, hcs⟩ := ih []
      have hescape : Word.Spells ⟨.stringEscape, String.ofList (Text.escapeChar c)⟩ [c] := by
        refine .inr ⟨rfl, c, rfl, ?_⟩
        rw [String.toList_ofList]
        exact (Text.unescape?_escapeChar c).resolve_right hc
      refine ⟨front ++ [c] :: back, List.rel_append hfront (.cons hescape hback), ?_⟩
      rw [List.flatten_append, List.flatten_cons, hrun, hcs]
      rfl

/-- The words of an escaped text stand for the text. -/
theorem exists_spells_textWords (cs : List Char) :
    ∃ pieces, List.Forall₂ Word.Spells (textWords cs) pieces ∧ pieces.flatten = cs :=
  exists_spells_textWordsFrom [] cs

/-- An escaped text in quotes is a string without placeholders. -/
theorem sourceWords_quoted (cs : List Char) :
    sourceWords ('"' :: (Text.escape cs ++ ['"'])) =
      ⟨.stringStart, "\""⟩ :: (textWords cs ++ [⟨.stringEnd, "\""⟩]) := by
  have hcode : Reference.InCode (.ofRoot Reference.code) := .inl rfl
  unfold sourceWords
  rw [Reference.words_stringStart hcode, Reference.words_text _ _ rfl,
    Reference.words_stringEnd]
  rfl

/-! ## Reading them -/

namespace Parser

variable {E : ExpressionRule} {token closing : Token} {s : ParserState} {n : Nat}
  {tokens consumed rest : List Token} {finish : Point} (start : Token)

/-- A token of the body of a string adds what it stands for. -/
theorem stringStep_of_spells {cs : List Char} (body : StringBody)
    (hs : s.tape.pending = token :: rest) (h : token.word.Spells cs) :
    stringStep E start body s =
      .ok (.inl { body with chunk := body.chunk.push cs token.span }) s.advanced := by
  have hpeek : s.tape.peek = token := by simp [Tape.peek, Tape.lookAhead, hs]
  refine (bind_eq_of_eq_ok (p := advance) (a := token) (t := s.advanced) ?_).trans ?_
  · rw [← hpeek]
    rfl
  · rcases h with ⟨hkind, rfl⟩ | ⟨hkind, c, rfl, hc⟩
    · rw [Token.kind_word] at hkind
      simp only [hkind]
      rfl
    · rw [Token.kind_word] at hkind
      rw [Token.text_word] at hc
      simp only [hkind, hc]
      rfl

/-- The closing quote ends a string. -/
theorem stringStep_of_stringEnd (body : StringBody) (hs : s.tape.pending = closing :: rest)
    (hkind : closing.kind = .stringEnd) :
    stringStep E start body s = .ok (.inr body) s.advanced := by
  have hpeek : s.tape.peek = closing := by simp [Tape.peek, Tape.lookAhead, hs]
  refine (bind_eq_of_eq_ok (p := advance) (a := closing) (t := s.advanced) ?_).trans ?_
  · rw [← hpeek]
    rfl
  · simp only [hkind]
    rfl

/-- A string collects what its tokens stand for, up to the closing quote. -/
theorem loop_stringStep_of_spells {pieces : List (List Char)} (body : StringBody)
    (hs : s.tape = ⟨consumed, tokens ++ closing :: rest, finish⟩)
    (h : List.Forall₂ Word.Spells (tokens.map Token.word) pieces)
    (hclosing : closing.kind = .stringEnd) (hn : tokens.length < n) :
    ∃ span, loop (stringStep E start) n body s =
      .ok { body with chunk := ⟨body.chunk.text ++ pieces.flatten, span⟩ }
        { s with tape := ⟨closing :: (tokens.reverse ++ consumed), rest, finish⟩ } := by
  induction tokens generalizing s n body consumed pieces with
  | nil =>
    cases h
    cases n with
    | zero => exact absurd hn (Nat.not_lt_zero _)
    | succ n =>
      have hstep : stringStep E start body s = .ok (.inr body) s.advanced :=
        stringStep_of_stringEnd start body (by rw [hs]; rfl) hclosing
      refine ⟨body.chunk.span, ?_⟩
      rw [loop, bind_eq_of_eq_ok hstep, List.flatten_nil, List.append_nil]
      show EStateM.Result.ok body s.advanced = _
      rw [ParserState.advanced, hs]
      rfl
  | cons token tokens ih =>
    cases n with
    | zero => exact absurd hn (Nat.not_lt_zero _)
    | succ n =>
      cases h with
      | @cons _ cs _ pieces hpiece hpieces =>
        have hstep := stringStep_of_spells (E := E) start body
          (show s.tape.pending = token :: (tokens ++ closing :: rest) by rw [hs]; rfl) hpiece
        have htape : s.advanced.tape =
            ⟨token :: consumed, tokens ++ closing :: rest, finish⟩ := by
          rw [ParserState.advanced, hs]
          rfl
        obtain ⟨span, hloop⟩ := ih (s := s.advanced)
          { body with chunk := body.chunk.push cs token.span } htape hpieces
          (Nat.lt_of_succ_lt_succ hn)
        refine ⟨span, ?_⟩
        rw [loop, bind_eq_of_eq_ok hstep]
        refine hloop.trans ?_
        simp [Chunk.push, ParserState.advanced]

/-- A string without placeholders is a literal for what its tokens stand for. -/
theorem stringRule_of_spells {pieces : List (List Char)}
    (hs : s.tape = ⟨consumed, tokens ++ closing :: rest, finish⟩)
    (h : List.Forall₂ Word.Spells (tokens.map Token.word) pieces)
    (hclosing : closing.kind = .stringEnd) :
    stringRule E start s = make (.literal (.string (String.ofList pieces.flatten)))
      (start.span.through closing.span)
      { s with tape := ⟨closing :: (tokens.reverse ++ consumed), rest, finish⟩ } := by
  have hbound : tokens.length < s.tape.pending.length + 1 := by
    rw [hs, List.length_append, List.length_cons]
    omega
  obtain ⟨span, hloop⟩ := loop_stringStep_of_spells (E := E)
    (n := s.tape.pending.length + 1) start .empty hs h hclosing hbound
  unfold stringRule
  refine (bind_eq_of_eq_ok (p := bound) (t := s) rfl).trans ?_
  refine (bind_eq_of_eq_ok hloop).trans ?_
  refine (bind_eq_of_eq_ok (p := spanFrom start.span) (a := start.span.through closing.span)
    (t := { s with tape := ⟨closing :: (tokens.reverse ++ consumed), rest, finish⟩ }) rfl).trans ?_
  simp [StringBody.empty, Chunk.empty]

end Parser

/-! ## Sources -/

/-- The arena of a single node that has no children. -/
def Arena.single (form : Form) (span : Span) : Arena where
  nodes := #[{ form := form, position := some span }]

/-- The first node of an arena, if it has no children. -/
theorem Parser.make_literal (value : Literal) (span : Span) {s : ParserState}
    (hs : s.arena = .empty) :
    Parser.make (.literal value) span s =
      .ok ⟨0⟩ { s with arena := .single (.literal value) span } := by
  obtain ⟨tape, arena, report, scopes, options⟩ := s
  cases hs
  rfl

/-- What begins an expression is read before everything that goes on with it. -/
theorem Parser.expressionRule_eq {E : ExpressionRule} {min : Precedence} {s : ParserState}
    {rule : StartRule} {token : Token} {tokens : List Token}
    (hs : s.tape.pending = token :: tokens)
    (hrule : StartRule.ofKind? token.kind = some rule) :
    expressionRule E min s = (do
      let left ← startRule E token rule
      loop (expressionStep E min) (← bound) left) s.advanced := by
  have hpeek : s.tape.peek = token := by simp [Tape.peek, Tape.lookAhead, hs]
  refine (bind_eq_of_eq_ok (p := advance) (a := token) (t := s.advanced) ?_).trans ?_
  · rw [← hpeek]
    rfl
  · rw [hrule]

/-- Where the source ends after an expression, the expression is all there is. -/
theorem Parser.entry_expression_of_start {s t : ParserState} {id : NodeId} {rule : StartRule}
    {token : Token} {tokens : List Token}
    (hs : s.tape.pending = token :: tokens) (hrule : StartRule.ofKind? token.kind = some rule)
    (h : startRule (expressionWithin s.tape.pending.length) token rule s.advanced = .ok id t)
    (ht : t.tape.peek.kind = .endOfFile) :
    Parser.entry .expression s = .ok id t.advanced := by
  have hstep (E : ExpressionRule) : expressionStep E .lowest id t = .ok (.inr id) t := by
    refine (bind_eq_of_eq_ok (p := peek) (a := t.tape.peek) (t := t) rfl).trans ?_
    simp only [ht]
    rfl
  have hexpression : expression .lowest s = .ok id t := by
    refine (expressionRule_eq hs hrule).trans ((bind_eq_of_eq_ok h).trans ?_)
    refine (bind_eq_of_eq_ok (p := bound) (t := t) rfl).trans ?_
    rw [loop, bind_eq_of_eq_ok (hstep _)]
    rfl
  refine (bind_eq_of_eq_ok hexpression).trans ?_
  exact bind_eq_of_eq_ok (expectEnd_of_endOfFile ht)

/-- A source that is a string without placeholders parses to a single node. -/
theorem Parser.entry_expression_of_spells {s : ParserState} {opening closing : Token}
    {body : List Token} {pieces : List (List Char)}
    (hs : s.tape.pending = opening :: (body ++ [closing])) (harena : s.arena = .empty)
    (hopening : opening.kind = .stringStart)
    (hbody : List.Forall₂ Word.Spells (body.map Token.word) pieces)
    (hclosing : closing.kind = .stringEnd) :
    ∃ t, Parser.entry .expression s = .ok ⟨0⟩ t ∧ t.report = s.report ∧
      t.arena = .single (.literal (.string (String.ofList pieces.flatten)))
        (opening.span.through closing.span) := by
  have htape : s.advanced.tape =
      ⟨opening :: s.tape.consumed, body ++ closing :: [], s.tape.finish⟩ := by
    simp [ParserState.advanced, Tape.advance, Tape.peek, Tape.lookAhead, hs]
  have hrule : StartRule.ofKind? opening.kind = some .string := by
    rw [hopening]
    rfl
  have hstring := stringRule_of_spells (E := expressionWithin s.tape.pending.length) opening
    htape hbody hclosing
  rw [make_literal _ _ (by exact harena)] at hstring
  exact ⟨_, entry_expression_of_start hs hrule hstring rfl, rfl, rfl⟩

/-- A text that is escaped and put in quotes is cut into the tokens of a string without
placeholders, and parses, whatever the options are, to a single node: the literal of the text, from
one quote to the other. -/
theorem parseText_escapeString (text : String) (options : ParseOptions) (description : String) :
    ∃ opening body closing,
      tokenize ("\"" ++ Text.escapeString text ++ "\"") = opening :: (body ++ [closing]) ∧
        opening.kind = .stringStart ∧
        (∀ token ∈ body, token.kind = .stringContent ∨ token.kind = .stringEscape) ∧
        closing.kind = .stringEnd ∧
        parseText .expression options description ("\"" ++ Text.escapeString text ++ "\"") =
          .ok (.ok ⟨.single (.literal (.string text)) (opening.span.through closing.span), ⟨0⟩,
            .empty description⟩) := by
  have htext : ("\"" ++ Text.escapeString text ++ "\"").toList =
      '"' :: (Text.escape text.toList ++ ['"']) := by
    simp [Text.escapeString]
  have hwords : (tokenize ("\"" ++ Text.escapeString text ++ "\"")).map Token.word =
      ⟨.stringStart, "\""⟩ :: (textWords text.toList ++ [⟨.stringEnd, "\""⟩]) := by
    rw [← sourceWords_quoted, ← htext]
    exact Lexer.map_word_tokens (.ofText reference _)
  obtain ⟨opening, more, htokens, hopening, hmore⟩ := List.map_eq_cons_iff.1 hwords
  obtain ⟨body, last, rfl, hbody, hlast⟩ := List.map_eq_append_iff.1 hmore
  obtain ⟨closing, rfl, hclosing⟩ := List.map_eq_singleton_iff.1 hlast
  obtain ⟨pieces, hpieces, hvalue⟩ := exists_spells_textWords text.toList
  rw [← hbody] at hpieces
  have hstart : opening.kind = .stringStart := congrArg Word.kind hopening
  have hstop : closing.kind = .stringEnd := congrArg Word.kind hclosing
  have hkinds : ∀ w ∈ body.map Token.word, w.kind = .stringContent ∨ w.kind = .stringEscape :=
    Arena.forall_of_forall₂ hpieces fun w cs h => h.imp And.left And.left
  refine ⟨opening, body, closing, htokens, hstart, ?_, hstop, ?_⟩
  · exact fun token htoken => hkinds token.word (List.mem_map_of_mem htoken)
  · obtain ⟨t, hentry, hreport, harena⟩ := Parser.entry_expression_of_spells
      (s := .ofText ("\"" ++ Text.escapeString text ++ "\"") description options)
      htokens rfl hstart hpieces hstop
    rw [hvalue, String.ofList_toList] at harena
    have hno : t.report.hasErrors = false := by
      rw [hreport]
      rfl
    rw [parseText_of_ok hentry, Parser.finish_of_not_hasErrors hno, harena, hreport]
    rfl

end ExprLang
