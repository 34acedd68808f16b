import ExprLang.Proofs.Places.Runs

/-!
# Where nodes lie

Every rule for a node puts it where the rule has run, with its children inside and one
behind another: between the first token that the rule meets and the last one that it
consumes.  Parentheses are consumed and leave no node, so nodes may be narrower than what
was consumed, but not wider.

Main results:

- Theorem {lit}`Parser.lands_stringRule`: strings and their parts.
- Theorem {lit}`Parser.locates_statementRule`: statements.
- Theorem {lit}`Parser.lands_continueRule`: what goes on after an expression.
- Theorem {lit}`Parser.locates_expressionWithin`: expressions.
-/

namespace ExprLang.Parser

open ParserState

variable {text : String} {s : ParserState} {e : ExpressionRule} {lo : Nat} {ids : List NodeId}

/-! ## Types and ends of statements -/

/-- Names separated by dots. -/
theorem moves_typeName : Moves text typeName := by
  intro s hs
  unfold typeName
  refine .bind_name hs fun _ => .bind_look rfl ?_
  refine .loop (I := fun _ _ => True) (fun path t ht _ => ?_) _ hs.advanced trivial
  refine .bind_skipKind ht (fun _ => ?_) (.pure ht trivial)
  exact .bind_name ht.advanced fun _ => .pure ht.advanced.advanced trivial

/-- A colon and a type, or nothing. -/
theorem moves_optionalType : Moves text optionalType := by
  intro s hs
  unfold optionalType
  refine .bind_skipKind hs (fun _ => ?_) (.pure hs trivial)
  exact (moves_typeName _ hs.advanced).bind fun _ t ht _ _ => .pure ht trivial

/-- The semicolon that ends a statement. -/
theorem moves_terminator : Moves text terminator := by
  intro s hs
  unfold terminator
  refine .bind_skipKind hs (fun _ => .pure hs.advanced trivial) ?_
  refine .bind_look (a := s) rfl (.ite (fun _ => .pure hs trivial) fun _ => ?_)
  exact .bind_expectKind hs fun _ => .pure hs.advanced trivial

/-- An expression after a token of some kind, or nothing. -/
theorem lands_optionalExpression {p : Parser NodeId} (hp : Locates text p) (kind : TokenKind)
    (hs : s.Sound text) (hrows : s.Rows lo ids) :
    Lands text s (optionalExpression p kind s) fun id? t => t.Rows lo (ids ++ id?.toList) := by
  unfold optionalExpression
  refine .bind_skipKind hs (fun _ => ?_) (.pure hs ?_)
  · refine (hp.append hs.advanced (hrows.later hs.onward_advanced)).bind fun id t ht _ hid => ?_
    exact .pure ht hid
  · rw [Option.toList_none, List.append_nil]
    exact hrows

/-! ## Strings -/

/-- A string under way: its parts lie one behind another, and behind them lies the text that is no
part yet. -/
structure Laid (text : String) (lo : Nat) (body : StringBody) (s : ParserState) : Prop where
  parts : s.arena.Row lo body.parts (body.chunk.span.elim s.reached (·.start.offset))
  chunk : ∀ span, body.chunk.span = some span → Behind text s span

namespace Laid

variable {body : StringBody} {t : ParserState}

/-- A string whose parts are all there is. -/
theorem of_rows (h : s.Rows lo body.parts) (hchunk : body.chunk = .empty) :
    Laid text lo body s := by
  have hnone : body.chunk.span = none := by rw [hchunk]; rfl
  refine ⟨?_, fun span hspan => ?_⟩
  · rw [hnone]
    exact h
  · rw [hnone] at hspan
    cases hspan

/-- The parts of a string stay in their places. -/
theorem later (h : Laid text lo body s) (hl : s.Onward t) : Laid text lo body t := by
  refine ⟨(h.parts.places hl.places).mono_right ?_, fun span hspan => (h.chunk span hspan).later hl⟩
  cases body.chunk.span with
  | none => exact hl.reached_le
  | some span => exact Nat.le_refl _

/-- One more token of text. -/
theorem push (h : Laid text lo body s) (hs : s.Sound text)
    (hkind : s.tape.peek.kind ≠ .endOfFile) (more : List Char) :
    Laid text lo { body with chunk := body.chunk.push more s.tape.peek.span } s.advanced := by
  obtain ⟨parts, ⟨chars, span?⟩, interpolated⟩ := body
  cases span? with
  | none =>
    have hbehind := hs.behind_peek hkind
    refine ⟨h.parts.mono_right hs.reached_le_ahead, fun span hspan => ?_⟩
    cases hspan
    exact hbehind
  | some first =>
    have hbehind := (h.chunk first rfl).through_peek hs
    refine ⟨h.parts, fun span hspan => ?_⟩
    cases hspan
    exact hbehind

end Laid

/-- Ending the present text makes it a part. -/
theorem lands_flush {body : StringBody} (hs : s.Sound text) (h : Laid text lo body s) :
    Lands text s (flush body s) fun flushed t =>
      t.tape = s.tape ∧ t.Rows lo flushed.parts ∧ flushed.chunk = .empty := by
  obtain ⟨parts, ⟨chars, span?⟩, interpolated⟩ := body
  unfold flush
  cases span? with
  | none => exact .pure hs ⟨rfl, h.parts, rfl⟩
  | some span =>
    have hspan := h.chunk span rfl
    refine (lands_make hs hspan.genuine fun _ => ⟨hspan.lt, .nil hspan.genuine.offset_le⟩).bind ?_
    rintro id t ht hl ⟨htape, hposition, -⟩
    have hid : t.arena.Row span.start.offset [id] t.reached :=
      .singleton hposition (Nat.le_refl _) hspan.lt (hspan.later hl).le
    exact .pure ht ⟨htape, (h.parts.places hl.places).append hid, rfl⟩

/-- A placeholder after its opening brace. -/
theorem lands_placeholder (he : ∀ min, Locates text (e min)) {body : StringBody}
    (hs : s.Sound text) (h : Laid text lo body s) :
    Lands text s (placeholder e body s) fun body t => Laid text lo body t := by
  have hstart : Laid text lo { body with interpolated := true } s := ⟨h.parts, h.chunk⟩
  unfold placeholder
  refine (lands_flush hs hstart).bind fun flushed t ht _ ⟨_, hparts, hempty⟩ => ?_
  refine (Lands.synchronized _ ((he .lowest).append ht hparts)).bind fun part? u hu hl hpart => ?_
  have hrows : u.Rows lo (flushed.parts ++ part?.toList) := by
    cases part? with
    | none =>
      rw [Option.toList_none, List.append_nil]
      exact hparts.later hl
    | some part => exact hpart part rfl
  have hlaid : Laid text lo { flushed with parts := flushed.parts ++ part?.toList } u :=
    .of_rows hrows hempty
  refine .bind_skipKind hu (fun _ => .pure hu.advanced (hlaid.later hu.onward_advanced)) ?_
  refine .bind_look rfl (.ite (fun _ => .pure hu hlaid) fun _ => ?_)
  exact .fail_unexpected hu

/-- One token of a string. -/
theorem lands_stringStep (he : ∀ min, Locates text (e min)) {start : Token} {body : StringBody}
    (hs : s.Sound text) (hstart : start.span.Genuine text) (h : Laid text lo body s) :
    Lands text s (stringStep e start body s) fun r t =>
      r.elim (Laid text lo · t) (Laid text lo · t) := by
  have hl := hs.onward_advanced
  -- an error about the token leaves the string as it is
  have hrecord (complaint : Complaint) : Lands text s.advanced ((do
      record (← errorAt .grammar s.tape.peek.span complaint)
      return .inl body : Parser (StringBody ⊕ StringBody)) s.advanced) fun r t =>
        r.elim (Laid text lo · t) (Laid text lo · t) := by
    refine .bind_errorAt ((Lands.record hs.advanced hs.genuine_peek).bind fun _ t ht hl' _ => ?_)
    exact .pure ht ((h.later hl).later hl')
  unfold stringStep
  cases hk : s.tape.peek.kind
  case stringContent =>
    refine .bind_advance hs ?_
    simp only [hk]
    exact .pure hs.advanced (h.push hs (by rw [hk]; decide) _)
  case stringEscape =>
    refine .bind_advance hs ?_
    simp only [hk]
    cases Text.unescape? s.tape.peek.text.toList with
    | some c => exact .pure hs.advanced (h.push hs (by rw [hk]; decide) _)
    | none => exact hrecord _
  case templateStart =>
    refine .bind_advance hs ?_
    simp only [hk]
    exact (lands_placeholder he hs.advanced (h.later hl)).bind fun _ t ht _ hb => .pure ht hb
  case stringEnd =>
    refine .bind_advance hs ?_
    simp only [hk]
    exact .pure hs.advanced (h.later hl)
  case unexpectedCharacter =>
    refine .bind_advance hs ?_
    simp only [hk]
    exact hrecord _
  all_goals
    exact .giveBack_fail hs (by simp only [hk]) (failAt_eq start.span .openString _) hstart

/-- A string after its opening quote. -/
theorem lands_stringRule (he : ∀ min, Locates text (e min)) {start : Token} (hs : s.Sound text)
    (hstart : Behind text s start.span) :
    Lands text s (stringRule e start s) fun id t => t.Rows start.span.start.offset [id] := by
  have hempty : Laid text start.span.start.offset .empty s :=
    .of_rows (.nil (Nat.le_of_lt hstart.start_lt)) rfl
  have hloop := Lands.loop (I := Laid text start.span.start.offset)
    (R := fun body t => Laid text start.span.start.offset body t)
    (fun body t ht hb => lands_stringStep he ht hstart.genuine hb) (s.tape.pending.length + 1) hs
    hempty
  unfold stringRule
  refine .bind_look rfl (hloop.bind fun body t ht hl hb => ?_)
  have hlt := (hstart.later hl).start_lt
  refine .bind_spanFrom ht hstart.genuine hlt fun span hspan hfrom hto => ?_
  rw [← hfrom] at hb ⊢
  refine .ite (fun _ => ?_) fun _ => lands_node ht hspan (.nil hspan.genuine.offset_le)
  refine (lands_flush ht hb).bind fun flushed u hu hl' ⟨htape, hparts, _⟩ => ?_
  refine lands_node hu (hspan.later hl') ?_
  have hreached : u.reached = span.stop.offset := by
    rw [hto, reached, reached, htape]
  have hchildren : (Form.stringTemplate flushed.parts).children = flushed.parts := by
    simp [Form.children, Form.childGroups, ChildGroup.children]
  rw [← hreached, hchildren]
  exact hparts

/-! ## Statements -/

/-- From the state `s` to the state `t` the parse has got beyond the start of a token, and the
children of a form lie in between. -/
def Holds (s : ParserState) (form : Form) (t : ParserState) : Prop :=
  s.ahead < t.reached ∧ t.Rows s.ahead form.children

/-- Behind a token the parse is beyond its start. -/
theorem ahead_lt_reached (hs : s.Sound text) (hkind : s.tape.peek.kind ≠ .endOfFile) :
    s.ahead < s.advanced.reached := (hs.behind_peek hkind).lt

/-- A variable, after a look at its keyword. -/
theorem lands_variableForm (he : ∀ min, Locates text (e min)) (hs : s.Sound text)
    (hkind : s.tape.peek.kind ≠ .endOfFile) : Lands text s (variableForm e s) (Holds s) := by
  unfold variableForm
  refine .bind_advance hs (.bind_name hs.advanced fun _ => ?_)
  have hnamed := hs.advanced.advanced
  refine (moves_optionalType _ hnamed).bind fun _ t ht hl _ => ?_
  have hlt : s.ahead < t.reached := Nat.lt_of_lt_of_le (ahead_lt_reached hs hkind)
    (hs.advanced.onward_advanced.trans hl).reached_le
  refine (lands_optionalExpression (he .lowest) _ ht (.nil (Nat.le_of_lt hlt))).bind
    fun initializer u hu hl' hrows => .pure hu ⟨Nat.lt_of_lt_of_le hlt hl'.reached_le, ?_⟩
  simpa [Form.children, Form.childGroups, ChildGroup.children] using hrows

/-- A return, after a look at its keyword. -/
theorem lands_returnForm (he : ∀ min, Locates text (e min)) (hs : s.Sound text)
    (hkind : s.tape.peek.kind ≠ .endOfFile) : Lands text s (returnForm e s) (Holds s) := by
  have hlt := ahead_lt_reached hs hkind
  have hnil : s.advanced.Rows s.ahead [] := .nil (Nat.le_of_lt hlt)
  unfold returnForm
  refine .bind_advance hs (.bind_look rfl
    (.ite (fun _ => .pure hs.advanced ⟨hlt, hnil⟩) fun _ => ?_))
  refine ((he .lowest).append hs.advanced hnil).bind fun value t ht hl hrows => ?_
  exact .pure ht ⟨Nat.lt_of_lt_of_le hlt hl.reached_le, hrows⟩

/-- A statement without the semicolon that ends it. -/
theorem lands_statementForm (he : ∀ min, Locates text (e min)) (hs : s.Sound text) :
    Lands text s (statementForm e s) (Holds s) := by
  unfold statementForm
  refine .bind_look (a := s.tape.peek) rfl ?_
  cases hk : s.tape.peek.kind
  case wordVal | wordVar => exact lands_variableForm he hs (by rw [hk]; decide)
  case wordReturn => exact lands_returnForm he hs (by rw [hk]; decide)
  all_goals
    refine (he .lowest s hs).bind fun id t ht _ hid => .pure ht ⟨?_, hid⟩
    obtain ⟨span, -, hlo, hlt, hhi⟩ := hid.exists_span
    omega

/-- A statement. -/
theorem locates_statementRule (he : ∀ min, Locates text (e min)) :
    Locates text (statementRule e) := by
  intro s hs
  unfold statementRule
  refine .bind_look (a := s.tape.peek) rfl ?_
  refine (lands_statementForm he hs).bind fun form t ht _ hform => ?_
  refine (moves_terminator t ht).bind fun _ u hu hl _ => ?_
  exact lands_spanned hu hs.genuine_peek (Nat.lt_of_lt_of_le hform.1 hl.reached_le)
    (hform.2.later hl)

/-! ## Blocks -/

/-- One more statement of a block, or the end of the statements. -/
theorem lands_blockStep (he : ∀ min, Locates text (e min)) (hs : s.Sound text)
    (hrows : s.Rows lo ids) :
    Lands text s (blockStep e ids s) fun r t => r.elim (t.Rows lo) (t.Rows lo) := by
  unfold blockStep
  refine .bind_look rfl (.ite (fun _ => .pure hs hrows) fun _ => ?_)
  refine (Lands.synchronized _ ((locates_statementRule he).append hs hrows)).bind
    fun statement t ht hl hstatement => .pure ht ?_
  cases statement with
  | none =>
    rw [Option.toList_none, List.append_nil]
    exact hrows.later hl
  | some id => exact hstatement id rfl

/-- A block after its opening brace. -/
theorem lands_blockRule (he : ∀ min, Locates text (e min)) {start : Token} (hs : s.Sound text)
    (hstart : Behind text s start.span) :
    Lands text s (blockRule e start s) fun id t => t.Rows start.span.start.offset [id] := by
  have hstatements (u : ParserState) (hu : u.Sound text) (hl : s.Onward u) :
      Lands text u (blockStatements e u) fun ids t => t.Rows start.span.start.offset ids := by
    refine .bind_look (a := u.tape.pending.length + 1) rfl ?_
    refine .loop (fun ids t ht hids => lands_blockStep he ht hids) _ hu (.nil ?_)
    exact Nat.le_of_lt (hstart.later hl).start_lt
  unfold blockRule
  refine (Lands.inScope hs (fun u hu hl _ => hstatements u hu hl) fun _ _ _ h => h).bind
    fun x t ht hl hrows => ?_
  obtain ⟨scope, statements⟩ := x
  refine .bind_expectKind ht fun _ => ?_
  have hl' := hl.trans ht.onward_advanced
  refine lands_reported ht.advanced hstart.genuine (hstart.later hl').start_lt ?_
  simpa [Form.children, Form.childGroups, ChildGroup.children]
    using hrows.later ht.onward_advanced

/-! ## Starts of expressions -/

section

variable {start : Token}

/-- A literal. -/
theorem lands_literalRule {kind : TokenKind} {literal : String} {span : Span} (hs : s.Sound text)
    (hspan : Behind text s span) :
    Lands text s (literalRule kind literal span s) fun id t => t.Rows span.start.offset [id] := by
  unfold literalRule
  refine .bind_lift fun value _ => ?_
  cases value with
  | ok value => exact lands_node hs hspan (.nil hspan.genuine.offset_le)
  | error error => exact .failAt hs hspan.genuine

/-- A unary operation after its operator. -/
theorem lands_unaryRule (he : ∀ min, Locates text (e min)) (hs : s.Sound text)
    (hstart : Behind text s start.span) :
    Lands text s (unaryRule e start s) fun id t => t.Rows start.span.start.offset [id] := by
  unfold unaryRule
  cases UnaryOperator.ofKind? start.kind with
  | none => trivial
  | some operator =>
    refine .bind_look rfl (.ite (fun _ => ?_) fun _ => ?_)
    · exact .bind_advance hs (lands_literalRule hs.advanced (hstart.through_peek hs))
    · refine (he .unary s hs).bind fun operand t ht hl hoperand => ?_
      obtain ⟨span, hspan, hlo, hlt, hhi⟩ := hoperand.exists_span
      have hle : start.span.start.offset ≤ span.start.offset :=
        Nat.le_trans (Nat.le_of_lt hstart.start_lt) (Nat.le_trans hs.reached_le_ahead hlo)
      have hthrough := hstart.genuine.through (ht.nests.genuine _ _ hspan) (by omega)
      refine .bind_spanOf hspan (lands_node ht ⟨hthrough, ?_, hhi⟩ ?_)
      · exact Nat.lt_of_le_of_lt hle hlt
      · exact .singleton hspan hle hlt (Nat.le_refl _)

/-- A conditional after its keyword. -/
theorem lands_conditionalRule (he : ∀ min, Locates text (e min)) (hs : s.Sound text)
    (hstart : Behind text s start.span) :
    Lands text s (conditionalRule e start s) fun id t => t.Rows start.span.start.offset [id] := by
  have hnil : s.Rows start.span.start.offset [] := .nil (Nat.le_of_lt hstart.start_lt)
  unfold conditionalRule
  refine .bind_expectKind hs fun _ => ?_
  have hopen := hs.onward_advanced
  refine ((he .lowest).append hs.advanced (hnil.later hopen)).bind fun condition t ht hl hc => ?_
  refine .bind_expectKind ht fun _ => ?_
  have hclose := ht.onward_advanced
  refine ((he .lowest).append ht.advanced (hc.later hclose)).bind fun thenBranch u hu hl' hb => ?_
  refine (lands_optionalExpression (he .lowest) .wordElse hu hb).bind
    fun elseBranch v hv hl'' hrows => ?_
  have hbehind := hstart.later (hopen.trans (hl.trans (hclose.trans (hl'.trans hl''))))
  refine lands_spanned hv hbehind.genuine hbehind.start_lt ?_
  simpa [Form.children, Form.childGroups, ChildGroup.children] using hrows

/-- What a token begins. -/
theorem lands_startRule (he : ∀ min, Locates text (e min)) (hs : s.Sound text)
    (hstart : Behind text s start.span) (rule : StartRule) :
    Lands text s (startRule e start rule s) fun id t => t.Rows start.span.start.offset [id] := by
  cases rule with
  | literal => exact lands_literalRule hs hstart
  | reference => exact lands_node hs hstart (.nil hstart.genuine.offset_le)
  | string => exact lands_stringRule he hs hstart
  | group =>
    refine ((he .lowest).append hs (.nil (Nat.le_of_lt hstart.start_lt))).bind
      fun inside t ht _ hinside => ?_
    exact .bind_expectKind ht fun _ => .pure ht.advanced (hinside.later ht.onward_advanced)
  | unary => exact lands_unaryRule he hs hstart
  | conditional => exact lands_conditionalRule he hs hstart
  | block => exact lands_blockRule he hs hstart

end

/-! ## Continuations of expressions -/

/-- One more argument of a call, or the end of the arguments. -/
theorem lands_argumentStep {item : Parser NodeId} (hitem : Locates text item) (hs : s.Sound text)
    (hrows : s.Rows lo ids) :
    Lands text s (argumentStep item ids s) fun r t => r.elim (t.Rows lo) (t.Rows lo) := by
  unfold argumentStep
  refine .bind_look rfl (.ite (fun _ => .pure hs hrows) fun _ => ?_)
  refine (hitem.append hs hrows).bind fun argument t ht _ hmore => ?_
  exact .bind_skipKind ht (fun _ => .pure ht.advanced (hmore.later ht.onward_advanced))
    (.pure ht hmore)

/-- Items separated by commas, up to a closing parenthesis, behind other nodes. -/
theorem lands_argumentList {item : Parser NodeId} (hitem : Locates text item) (hs : s.Sound text)
    (hrows : s.Rows lo ids) :
    Lands text s (argumentList item s) fun arguments t => t.Rows lo (ids ++ arguments) := by
  have hloop := Lands.loop (I := fun ids t => t.Rows s.reached ids)
    (R := fun ids t => t.Rows s.reached ids)
    (fun _ _ ht hids => lands_argumentStep hitem ht hids) (s.tape.pending.length + 1)
    (a := []) hs (.nil (Nat.le_refl _))
  unfold argumentList
  refine .bind_look rfl (hloop.bind fun arguments t ht hl hmore => ?_)
  refine .bind_expectKind ht fun _ => .pure ht.advanced ?_
  exact (hrows.append hl hmore).later ht.onward_advanced

section

variable {left : NodeId} {token : Token}

/-- A node that stretches from one child to another. -/
theorem lands_across {t : ParserState} {right : NodeId} {form : Form} (ht : t.Sound text)
    (hrows : t.Rows lo [left, right]) (hchildren : form.children = [left, right]) :
    Lands text t ((spanAcross left right >>= fun span => make form span) t) fun id u =>
      u.Rows lo [id] := by
  obtain ⟨first, last, hfirst, hlast, hlo, hlt, hmid, hlt', hhi⟩ :
      ∃ first last, t.arena.position? left = some first ∧ t.arena.position? right = some last ∧
        lo ≤ first.start.offset ∧ first.start.offset < first.stop.offset ∧
        first.stop.offset ≤ last.start.offset ∧ last.start.offset < last.stop.offset ∧
        last.stop.offset ≤ t.reached := by
    cases hrows with
    | cons hfirst hlo hlt hrest =>
      obtain ⟨last, hlast, hmid, hlt', hhi⟩ := hrest.exists_span
      exact ⟨_, last, hfirst, hlast, hlo, hlt, hmid, hlt', hhi⟩
  have hspan : Behind text t (first.through last) := by
    refine ⟨(ht.nests.genuine _ _ hfirst).through (ht.nests.genuine _ _ hlast) ?_, ?_, hhi⟩
    · omega
    · show first.start.offset < last.stop.offset
      omega
  have hrun : spanAcross left right t = .ok (first.through last) t := by
    rw [spanAcross_eq (Arena.index_lt_of_position? hfirst) (Arena.index_lt_of_position? hlast),
      hfirst, hlast]
    rfl
  refine .bind_look hrun ((lands_node ht hspan ?_).mono fun _ _ _ _ h => h.mono hlo)
  rw [hchildren]
  exact .cons hfirst (Nat.le_refl _) hlt (.singleton hlast hmid hlt' (Nat.le_refl _))

/-- A binary operation after its operator. -/
theorem lands_binaryRule (he : ∀ min, Locates text (e min)) (hs : s.Sound text)
    (hleft : s.Rows lo [left]) :
    Lands text s (binaryRule e left token s) fun id t => t.Rows lo [id] := by
  unfold binaryRule
  cases BinaryOperator.ofKind? token.kind with
  | none => trivial
  | some operator =>
    cases ContinueRule.ofKind? token.kind with
    | none => trivial
    | some rule =>
      refine ((he _).append hs hleft).bind fun right t ht _ hrows => ?_
      exact lands_across ht hrows rfl

/-- An assignment after its operator. -/
theorem lands_assignmentRule (he : ∀ min, Locates text (e min)) (hs : s.Sound text)
    (hleft : s.Rows lo [left]) :
    Lands text s (assignmentRule e left token s) fun id t => t.Rows lo [id] := by
  unfold assignmentRule
  cases AssignmentOperator.ofKind? token.kind with
  | none => trivial
  | some operator =>
    refine ((he _).append hs hleft).bind fun value t ht _ hrows => ?_
    exact lands_across ht hrows rfl

/-- A call that is written between its arguments, after its name. -/
theorem lands_infixCallRule (he : ∀ min, Locates text (e min)) (hs : s.Sound text)
    (hleft : s.Rows lo [left]) :
    Lands text s (infixCallRule e left token s) fun id t => t.Rows lo [id] := by
  unfold infixCallRule
  refine ((he _).append hs hleft).bind fun right t ht _ hrows => ?_
  exact lands_across ht hrows rfl

/-- The access to a member after the dot. -/
theorem lands_memberRule (hs : s.Sound text) (hleft : s.Rows lo [left]) :
    Lands text s (memberRule left s) fun id t => t.Rows lo [id] := by
  obtain ⟨span, hspan, hlo, hlt, hhi⟩ := hleft.exists_span
  have hbehind : Behind text s span := ⟨hs.nests.genuine _ _ hspan, hlt, hhi⟩
  unfold memberRule
  refine .bind_name hs fun _ => .bind_spanOf hspan ?_
  refine (lands_node hs.advanced (hbehind.through_peek hs) ?_).mono fun _ _ _ _ h => h.mono hlo
  have hle : span.stop.offset ≤ s.tape.peek.span.stop.offset :=
    Nat.le_trans hhi (hs.onward_advanced).reached_le
  exact .singleton hspan (Nat.le_refl _) hlt hle

/-- A call. -/
theorem lands_invocationRule (he : ∀ min, Locates text (e min)) (hs : s.Sound text)
    (hleft : s.Rows lo [left]) :
    Lands text s (invocationRule e left s) fun id t => t.Rows lo [id] := by
  obtain ⟨span, hspan, hlo, hlt, hhi⟩ := hleft.exists_span
  have hbehind : Behind text s span := ⟨hs.nests.genuine _ _ hspan, hlt, hhi⟩
  have htarget : s.Rows span.start.offset [left] := .singleton hspan (Nat.le_refl _) hlt hhi
  unfold invocationRule
  refine (lands_argumentList (he .lowest) hs htarget).bind fun arguments t ht hl hrows => ?_
  have hbehind := hbehind.later hl
  refine .bind_spanOf (hl.places _ _ hspan) ?_
  refine .bind_spanFrom ht hbehind.genuine hbehind.start_lt fun all hall hfrom hto => ?_
  have hrow : t.arena.Row all.start.offset (left :: arguments) all.stop.offset := by
    rw [hfrom, hto]
    exact hrows
  have hlo : lo ≤ all.start.offset := by rw [hfrom]; exact hlo
  refine .bind_lift fun form _ => ?_
  cases form with
  | reference name =>
    refine (lands_node ht hall ?_).mono fun _ _ _ _ h => h.mono hlo
    simpa [Form.children, Form.childGroups, ChildGroup.children]
      using hrow.sublist (List.sublist_cons_self ..)
  | _ =>
    refine (lands_node ht hall ?_).mono fun _ _ _ _ h => h.mono hlo
    simpa [Form.children, Form.childGroups, ChildGroup.children] using hrow

/-- What a token makes of the expression before it. -/
theorem lands_continueRule (he : ∀ min, Locates text (e min)) (hs : s.Sound text)
    (hleft : s.Rows lo [left]) (rule : ContinueRule) :
    Lands text s (continueRule e left token rule s) fun id t => t.Rows lo [id] := by
  cases rule with
  | binary => exact lands_binaryRule he hs hleft
  | assignment => exact lands_assignmentRule he hs hleft
  | infixCall => exact lands_infixCallRule he hs hleft
  | member => exact lands_memberRule hs hleft
  | invocation => exact lands_invocationRule he hs hleft

end

/-! ## Expressions -/

/-- Nothing begins with the end of the source. -/
theorem ne_endOfFile_of_startRule {kind : TokenKind} {rule : StartRule}
    (h : StartRule.ofKind? kind = some rule) : kind ≠ .endOfFile := by
  rintro rfl
  cases h

/-- One more continuation of an expression, or its end. -/
theorem lands_expressionStep (he : ∀ min, Locates text (e min)) (min : Precedence) {left : NodeId}
    (hs : s.Sound text) (hleft : s.Rows lo [left]) :
    Lands text s (expressionStep e min left s) fun r t =>
      r.elim (fun id => t.Rows lo [id]) fun id => t.Rows lo [id] := by
  unfold expressionStep
  refine .bind_look (a := s.tape.peek) rfl ?_
  cases continuation? min s.tape.peek.kind with
  | none => exact .pure hs hleft
  | some rule =>
    refine .bind_advance hs ?_
    exact (lands_continueRule he hs.advanced (hleft.later hs.onward_advanced) rule).bind
      fun id t ht _ hid => .pure ht hid

/-- An expression, given the rule for smaller ones. -/
theorem locates_expressionRule (he : ∀ min, Locates text (e min)) (min : Precedence) :
    Locates text (expressionRule e min) := by
  intro s hs
  unfold expressionRule
  cases hrule : StartRule.ofKind? s.tape.peek.kind with
  | none =>
    exact .giveBack_fail hs (by simp only [hrule]) (fail_unexpected_eq "expression" _)
      hs.genuine_peek
  | some rule =>
    refine .bind_advance hs ?_
    simp only [hrule]
    have hstart := hs.behind_peek (ne_endOfFile_of_startRule hrule)
    refine (lands_startRule he hs.advanced hstart rule).bind fun left t ht _ hleft => ?_
    refine .bind_look (a := t.tape.pending.length + 1) rfl ?_
    exact .loop (I := fun id t => t.Rows s.ahead [id])
      (fun left u hu hleft => lands_expressionStep he min hu hleft) _ ht hleft

/-- An expression in which expressions nest no deeper than a bound. -/
theorem locates_expressionWithin (n : Nat) (min : Precedence) :
    Locates text (expressionWithin n min) := by
  induction n generalizing min with
  | zero => exact fun _ _ => trivial
  | succ n ih => exact locates_expressionRule ih min

/-- An expression. -/
theorem locates_expression (min : Precedence) : Locates text (expression min) :=
  fun s hs => .bind_look rfl (locates_expressionWithin _ min s hs)

/-- A statement. -/
theorem locates_statement : Locates text statement :=
  fun s hs => .bind_look rfl (locates_statementRule (locates_expressionWithin _) s hs)

end ExprLang.Parser
