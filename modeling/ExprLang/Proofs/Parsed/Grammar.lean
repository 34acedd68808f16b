import ExprLang.Proofs.Lexer.Numerals
import ExprLang.Proofs.Parser.Options
import ExprLang.Proofs.Reader.Phrases
import ExprLang.Proofs.RoundTrip
import ExprLang.Proofs.Token.Negation

/-!
# The grammar of expressions

A source without strings and blocks parses as an expression if and only if the grammar
derives its tokens.  A scan decides whether it does.

Main results:

- Theorem {lit}`Reader.decides_entry`: what is read up to the end of the words.
- Theorem {lit}`derives_iff_accepts`: the grammar derives what a scan accepts.
- Theorem {lit}`parseText_iff_derives`: which sources parse.
-/

namespace ExprLang

/-- A token that begins no string and no block is plain, if it is in the range of its type. -/
theorem plain_of_mem_tokenize {text : String} {token : Token} (h : token ∈ tokenize text)
    (hs : token.kind ≠ .stringStart) (hb : token.kind ≠ .leftBrace)
    (hrange : token.isInRange = true) : token.word.Plain := by
  have hproper : token.Proper := proper_of_mem_tokenize h
  refine ⟨hproper.kind_ne, hs, hb, fun hk => ?_, fun hk => ?_⟩
  · have hk : token.kind.isLiteral = true := hk
    show ∃ value, Literal.ofToken token.kind token.text = .ok (.ok value)
    have hnumber := fun hn => exists_value_of_mem_tokenize h hn hrange
    cases hkind : token.kind <;> rw [hkind] at hk hnumber <;> first
      | (cases hk; done)
      | exact hnumber rfl
      | exact ⟨_, rfl⟩
  · obtain ⟨value, hvalue⟩ := exists_value_of_mem_tokenize h hk hrange
    exact Literal.exists_ofToken_minus hproper hk hvalue

namespace Reader

/-- What is read up to the end is derived, and only what is not accepted is not read. -/
theorem decides_entry {ws : List Word} (h : ∀ w ∈ ws, w.Plain) :
    Decides (Scan.accepts ⟨.operand false, 0, []⟩ (ws.map Word.kind)) (entry .expression) ws
      fun _ _ => Derives .expression (ws.map Word.kind) := by
  refine (Decides.bind_bound fun n hn => judges_expressionWithin n ⟨hn, h, rfl⟩).bind ?_
  rintro tree rest ⟨⟨used, rfl, hused⟩, hrest, hends⟩
  cases rest with
  | nil =>
    have hend : Reads True (expectKind .endOfFile) [] .endOfFile [] :=
      fun flag => ⟨true, flag, rfl, fun _ => rfl⟩
    refine .bind_reads hend (.pure ?_)
    rw [List.append_nil]
    exact hused
  | cons w rest =>
    have hw : w.kind ≠ .endOfFile := (hrest.plain w (List.mem_cons_self ..)).ne_endOfFile
    have hno := hrest.eq_false_of_follower hends
    refine Decides.bind (Q := fun _ _ => False) (fun flag => .inr ⟨?_, hno⟩) fun _ _ => False.elim
    rw [expectKind, expect_apply, if_neg (by simpa using Ne.symm hw)]

end Reader

/-! ## Deciding what is derived -/

/-- A word of some kind; numbers are zero. -/
def TokenKind.sample (kind : TokenKind) : Word :=
  ⟨kind, match kind with
    | .longLiteral => "0L"
    | .floatLiteral => "0f"
    | _ => "0"⟩

/-- What a scan passes has a plain word. -/
theorem TokenKind.plain_sample {kind : TokenKind} {s t : Scan} (h : s.step? kind = some t) :
    kind.sample.Plain := by
  obtain ⟨hend, hstring, hblock⟩ := Scan.kind_ne_of_step? h
  refine ⟨hend, hstring, hblock, fun hk => ?_, fun hk => ?_⟩
  · cases kind <;> first | (cases hk; done) | exact ⟨_, rfl⟩
  · cases kind <;> first | (cases hk; done) | exact ⟨_, rfl⟩

/-- So have the tokens of a whole scan. -/
theorem Scan.plain_of_run? {s t : Scan} {ks : List TokenKind} (h : s.run? ks = some t) :
    ∀ w ∈ ks.map TokenKind.sample, w.Plain := by
  induction ks generalizing s with
  | nil => exact List.forall_mem_nil _
  | cons k ks ih =>
    rw [run?_cons] at h
    obtain ⟨u, hstep, hrun⟩ := Option.bind_eq_some_iff.1 h
    exact List.forall_mem_cons.2 ⟨TokenKind.plain_sample hstep, ih hrun⟩

/-- The grammar derives what a scan accepts. -/
theorem derives_iff_accepts (ks : List TokenKind) :
    Derives .expression ks ↔ Scan.accepts ⟨.operand false, 0, []⟩ ks = true := by
  refine ⟨Derives.accepts, fun h => ?_⟩
  have hplain : ∀ w ∈ ks.map TokenKind.sample, w.Plain := by
    cases hrun : Scan.run? ⟨.operand false, 0, []⟩ ks with
    | none => rw [Scan.accepts, hrun] at h; cases h
    | some t => exact Scan.plain_of_run? hrun
  have hkinds : (ks.map TokenKind.sample).map Word.kind = ks := by
    rw [List.map_map]
    exact List.map_id ks
  rcases Reader.decides_entry hplain false with ⟨_, _, _, _, hderives⟩ | ⟨-, hno⟩
  · rwa [hkinds] at hderives
  · rw [hkinds, h] at hno
    cases hno

instance (ks : List TokenKind) : Decidable (Derives .expression ks) :=
  decidable_of_iff _ (derives_iff_accepts ks).symm

-- a comma may end the arguments of a call but not begin them
example : Derives .expression [.identifier, .leftParen, .identifier, .comma, .rightParen] ∧
    ¬ Derives .expression [.identifier, .leftParen, .comma, .rightParen] := by decide

/-! ## Sources -/

/-- A source without strings and blocks whose numbers are in range parses if and only if the
grammar derives its tokens. -/
theorem parseText_iff_derives {text : String} (options : ParseOptions) (description : String)
    (hplain : ∀ token ∈ tokenize text, token.kind ≠ .stringStart ∧ token.kind ≠ .leftBrace)
    (hrange : ∀ token ∈ tokenize text, token.isInRange = true) :
    (∃ p, parseText .expression options description text = .ok (.ok p)) ↔
      Derives .expression ((tokenize text).map Token.kind) := by
  have hwords : (tokenize text).map Token.word = sourceWords text.toList :=
    Lexer.map_word_tokens (.ofText reference _)
  have hkinds : (sourceWords text.toList).map Word.kind = (tokenize text).map Token.kind := by
    rw [← hwords, List.map_map]
    rfl
  have hwordsPlain : ∀ w ∈ sourceWords text.toList, w.Plain := by
    rw [← hwords]
    intro w hw
    obtain ⟨token, htoken, rfl⟩ := List.mem_map.1 hw
    exact plain_of_mem_tokenize htoken (hplain token htoken).1 (hplain token htoken).2
      (hrange token htoken)
  have hdecides := Reader.decides_entry hwordsPlain false
  rw [hkinds] at hdecides
  simp only [parseText_eq_ok_iff options]
  constructor
  · rintro ⟨p, hp⟩
    obtain ⟨tree, rest, hread, -⟩ := exists_read_of_parseText hp
    rcases hdecides with ⟨_, _, _, _, hderives⟩ | ⟨hnone, -⟩
    · exact hderives
    · rw [Spot.start] at hread
      rw [hread] at hnone
      cases hnone
  · intro hderives
    rcases hdecides with ⟨tree, rest, flag, hread, -⟩ | ⟨-, hno⟩
    · obtain ⟨p, hp, -⟩ := parseText_of_read description hread
      exact ⟨p, hp⟩
    · rw [hderives.accepts] at hno
      cases hno

/-- A conditional between a negated number and a sum parses. -/
theorem parseText_iff_derives_conditional :
    (∀ token ∈ tokenize "if (a) -1 else f(b,) + c",
      token.kind ≠ .stringStart ∧ token.kind ≠ .leftBrace) ∧
    (∀ token ∈ tokenize "if (a) -1 else f(b,) + c", token.isInRange = true) ∧
    ∃ p, parseText .expression {} "" "if (a) -1 else f(b,) + c" = .ok (.ok p) := by
  have hkinds : (tokenize "if (a) -1 else f(b,) + c").map Token.kind =
      [.wordIf, .leftParen, .identifier, .rightParen, .minus, .intLiteral, .wordElse, .identifier,
        .leftParen, .identifier, .comma, .rightParen, .plus, .identifier] := by decide +kernel
  have hplain : ∀ token ∈ tokenize "if (a) -1 else f(b,) + c",
      token.kind ≠ .stringStart ∧ token.kind ≠ .leftBrace := by decide +kernel
  have hrange : ∀ token ∈ tokenize "if (a) -1 else f(b,) + c", token.isInRange = true := by
    decide +kernel
  have hderives : Derives .expression ((tokenize "if (a) -1 else f(b,) + c").map Token.kind) := by
    rw [hkinds]
    decide
  exact ⟨hplain, hrange, (parseText_iff_derives {} "" hplain hrange).2 hderives⟩

end ExprLang
