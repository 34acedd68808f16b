import ExprLang.Proofs.Errors.Runs
import ExprLang.Proofs.Places.Rules

/-!
# Errors of rules

Every rule for an expression or a statement, run where all errors lie before the next
token, comes to rest at such a place with its node in hand.  Where a block or a unit
goes on after an error, the error may be about the next token; but that is one with
which only rules begin that consume it at once.

Main results:

- Theorem {lit}`Parser.reports_stringRule`: strings and their parts.
- Theorem {lit}`Parser.reports_statementRule`: statements.
- Theorem {lit}`Parser.reports_blockRule`: blocks.
- Theorem {lit}`Parser.expresses_expressionWithin`: expressions.
-/

namespace ExprLang.Parser

open ParserState

variable {text : String} {base : Arena} {lo : Nat} {ids : List NodeId} {s : ParserState}
  {e : ExpressionRule}

/-! ## Types and ends of statements -/

/-- Names separated by dots. -/
theorem reports_typeName (h : Rests text base lo s ids) :
    Reports text base lo s (typeName s) fun _ t => Rests text base lo t ids := by
  unfold typeName
  refine .bind_name h fun _ h => .bind_look rfl ?_
  refine .loop (I := fun _ t => Rests text base lo t ids) (fun path t ht h => ?_) _ h.settled h
  refine .bind_skipKind ht (fun _ => ?_) fun _ => .pure ht h
  exact .bind_name h.advanced fun _ h => .pure h.settled h

/-- A colon and a type, or nothing. -/
theorem reports_optionalType (h : Rests text base lo s ids) :
    Reports text base lo s (optionalType s) fun _ t => Rests text base lo t ids := by
  unfold optionalType
  refine .bind_skipKind h.settled (fun _ => ?_) fun _ => .pure h.settled h
  exact (reports_typeName h.advanced).bind fun _ t ht h => .pure ht.settled h

/-- The semicolon that ends a statement. -/
theorem reports_terminator (h : Rests text base lo s ids) :
    Reports text base lo s (terminator s) fun _ t =>
      Rests text base lo t ids ∧ t.arena = s.arena ∧ t.report = s.report := by
  unfold terminator
  refine .bind_skipKind h.settled (fun _ => .pure h.settled.advanced ⟨h.advanced, rfl, rfl⟩)
    fun _ => ?_
  refine .bind_look (a := s) rfl (.ite (fun _ => .pure h.settled ⟨h, rfl, rfl⟩) fun _ => ?_)
  exact .bind_expectKind h fun _ h => .pure h.settled ⟨h, rfl, rfl⟩

/-- An expression after a token of some kind, or nothing. -/
theorem reports_optionalExpression {p : Parser NodeId} (hp : Expresses text p) (kind : TokenKind)
    (h : Rests text base lo s ids) :
    Reports text base lo s (optionalExpression p kind s) fun id? t =>
      Rests text base lo t (ids ++ id?.toList) := by
  unfold optionalExpression
  refine .bind_skipKind h.settled (fun _ => ?_) fun _ => .pure h.settled ?_
  · exact (hp.appends h.advanced).bind fun id t ht hid => .pure ht.settled hid
  · rwa [Option.toList_none, List.append_nil]

/-! ## Strings -/

/-- A string under way that began at the offset `lo`: its parts, of which there are none before the
first placeholder, are in hand, and no error is about the start of the string. -/
structure Strung (text : String) (base : Arena) (lo : Nat) (body : StringBody) (s : ParserState) :
    Prop where
  carries : Carries base lo s body.parts
  parts_eq : body.interpolated = false → body.parts = []
  awaits : s.Awaits (.kind .stringEnd)
  spares : s.Spares lo
  lt : lo < s.ahead

namespace Strung

variable {body : StringBody}

/-- Behind one more token. -/
theorem rests_advanced (h : Strung text base lo body s) (hs : s.Settled text)
    (hkind : s.tape.peek.kind ≠ .endOfFile) : Rests text base lo s.advanced body.parts :=
  ⟨hs.advanced, h.awaits.near.advanced hs hkind, h.carries.advanced hs⟩

/-- One more token of text. -/
theorem push (h : Strung text base lo body s) (hs : s.Settled text)
    (hkind : s.tape.peek.kind ≠ .endOfFile) (chunk : Chunk) :
    Strung text base lo { body with chunk := chunk } s.advanced :=
  ⟨h.carries.advanced hs, h.parts_eq, .inl (h.rests_advanced hs hkind).clear, h.spares,
    Nat.lt_of_lt_of_le h.lt hs.ahead_le⟩

end Strung

/-- Ending the present text makes it a part. -/
theorem reports_flush (body : StringBody) (h : Rests text base lo s body.parts) :
    Reports text base lo s (flush body s) fun flushed t =>
      Rests text base lo t flushed.parts ∧ flushed.interpolated = body.interpolated ∧
        t.tape = s.tape ∧ t.report = s.report := by
  obtain ⟨parts, ⟨chars, span?⟩, interpolated⟩ := body
  unfold flush
  cases span? with
  | none => exact .pure h.settled ⟨h, rfl, rfl, rfl⟩
  | some span =>
    have hpart : Reports text s.arena s.ahead s
        (make (.literal (.string (String.ofList chars))) span s) _ :=
      reports_make (.nil h.settled h.clear) (.refl _) rfl nofun
    exact (Reports.behind_rests hpart h).bind fun id t ht hid =>
      .pure ht.settled ⟨hid.1, rfl, hid.2.2.2⟩

/-- A string goes on or ends where a placeholder does. -/
theorem accepts_stringPartEnd {kind : TokenKind} (h : kind ≠ .templateEnd)
    (h' : (Expectation.kind .stringEnd).accepts kind ≠ true) :
    (Expectation.category [.stringPartEnd]).accepts kind = false := by
  cases kind <;> first | rfl | exact absurd rfl h | exact absurd rfl h'

/-- A placeholder after its opening brace. -/
theorem reports_placeholder (he : ∀ min, Expresses text (e min)) {body : StringBody}
    (h : Rests text base lo s body.parts) (hspares : s.Spares lo) (hlt : lo < s.ahead) :
    Reports text base lo s (placeholder e body s) (Strung text base lo) := by
  unfold placeholder
  refine (reports_flush { body with interpolated := true } h).bind
    fun flushed t ht hq => ?_
  obtain ⟨hflushed, hinterpolated, htape, hreport⟩ := hq
  have hspares : t.Spares lo := fun e he => hspares e (hreport ▸ he)
  have hlt : lo < t.ahead := by rwa [ahead, htape]
  refine .bind_rule hflushed.carries.holds hflushed.carries.le (.synchronized _
    ((he .lowest t ht.settled (.inl hflushed.clear)).mono fun _ _ _ hpart => hpart.1))
    fun part? u hu hq => ?_
  obtain ⟨hpart, hbetween⟩ := hq
  have hparts : Carries base lo u (flushed.parts ++ part?.toList) :=
    hflushed.carries.append ht.settled hu hpart
  have hspares := hspares.later hu hlt
  have hlt := Nat.lt_of_lt_of_le hlt hu.ahead_le
  have hplain (hnone : flushed.interpolated = false) : flushed.parts ++ part?.toList = [] :=
    Bool.noConfusion (hinterpolated.symm.trans hnone)
  refine .bind_skipKind hu.settled (fun hkind => .pure hu.settled.advanced ?_) fun hopen => ?_
  · have hclear := hbetween.near.advanced hu.settled (by rw [hkind]; decide)
    exact ⟨hparts.advanced hu.settled, hplain, .inl hclear, hspares,
      Nat.lt_of_lt_of_le hlt hu.settled.ahead_le⟩
  · refine .bind_look rfl (.ite (fun hend => .pure hu.settled ?_) fun hend => ?_)
    · exact ⟨hparts, hplain, .inr ⟨hbetween.near, hend⟩, hspares, hlt⟩
    · exact ⟨.refl hu.settled, hbetween.raises (accepts_stringPartEnd hopen hend)
        (Nat.le_of_lt hlt) rfl rfl ⟨rfl, rfl⟩⟩

/-- A string that has ended. -/
def Quoted (text : String) (base : Arena) (lo : Nat) (body : StringBody) (s : ParserState) : Prop :=
  Rests text base lo s body.parts ∧ (body.interpolated = false → body.parts = []) ∧ s.Spares lo

/-- One token of a string. -/
theorem reports_stringStep (he : ∀ min, Expresses text (e min)) {start : Token} {body : StringBody}
    (hs : s.Settled text) (hstart : start.span.start.offset = lo)
    (h : Strung text base lo body s) :
    Reports text base lo s (stringStep e start body s) fun r t =>
      r.elim (Strung text base lo · t) (Quoted text base lo · t) := by
  -- an error about the token leaves the string as it is
  have hrecord (complaint : Complaint) (hkind : s.tape.peek.kind ≠ .endOfFile)
      (hend : s.tape.peek.kind ≠ .stringEnd) : Reports text base lo s.advanced ((do
      record (← errorAt .grammar s.tape.peek.span complaint)
      return .inl body : Parser (StringBody ⊕ StringBody)) s.advanced) fun r t =>
        r.elim (Strung text base lo · t) (Quoted text base lo · t) := by
    have hclear := h.awaits.clear (by simpa using Ne.symm hend)
    have hrests : Rests text base lo s body.parts := ⟨hs, hclear, h.carries⟩
    have hspares : s.advanced.Spares lo := h.spares
    obtain ⟨hl, hrecorded⟩ := hrests.complained hkind (d := ⟨s.report.source, .error, .grammar,
      s.tape.peek.span, complaint.message⟩) rfl rfl rfl
    refine .bind_look rfl (.after (hl.weaken (.refl base) hrests.carries.le) (.pure hl.settled ?_))
    exact ⟨hrecorded.carries, h.parts_eq, .inl hrecorded.clear, hspares.later hl h.lt,
      Nat.lt_of_lt_of_le h.lt hs.ahead_le⟩
  unfold stringStep
  cases hk : s.tape.peek.kind
  case stringContent =>
    refine .bind_advance hs ?_
    simp only [hk]
    exact .pure hs.advanced (h.push hs (by rw [hk]; decide) _)
  case stringEscape =>
    refine .bind_advance hs ?_
    simp only [hk]
    cases Text.unescape? s.tape.peek.text.toList with
    | some c => exact .pure hs.advanced (h.push hs (by rw [hk]; decide) _)
    | none => exact hrecord _ (by rw [hk]; decide) (by rw [hk]; decide)
  case templateStart =>
    refine .bind_advance hs ?_
    simp only [hk]
    have hrests := h.rests_advanced hs (by rw [hk]; decide)
    refine (reports_placeholder he hrests h.spares ?_).bind fun _ t ht hb => .pure ht.settled hb
    exact Nat.lt_of_lt_of_le h.lt hs.ahead_le
  case stringEnd =>
    refine .bind_advance hs ?_
    simp only [hk]
    have hrests := h.rests_advanced hs (by rw [hk]; decide)
    exact .pure hs.advanced ⟨hrests, h.parts_eq, h.spares⟩
  case unexpectedCharacter =>
    refine .bind_advance hs ?_
    simp only [hk]
    exact hrecord _ (by rw [hk]; decide) (by rw [hk]; decide)
  all_goals
    have hclear := h.awaits.clear (by rw [hk]; rfl)
    exact .giveBack_fail hs (by simp only [hk]) (failAt_eq start.span .openString _)
      (hclear.raises_behind (Nat.le_of_eq hstart.symm) rfl rfl (hstart ▸ h.lt)
        fun e he hsame => h.spares e he (hsame ▸ hstart))

/-- A string after its opening quote.  No error is about its start. -/
theorem reports_stringRule (he : ∀ min, Expresses text (e min)) {start : Token}
    (h : Rests text base lo s []) (hstart : start.span.start.offset = lo) (hspares : s.Spares lo)
    (hlt : lo < s.ahead) :
    Reports text base lo s (stringRule e start s) fun id t => Rests text base lo t [id] ∧
      t.arena.definitionName id = none ∧ t.Spares lo ∧
      ∃ span, t.arena.position? id = some span ∧ span.start = start.span.start := by
  -- a literal and a template differ in their forms only
  have hmake {form : Form} {span : Span} {ids : List NodeId} {t : ParserState}
      (ht : Rests text base lo t ids) (hchildren : form.children = ids)
      (hscope : form.scope? = none) (hmay : form.mayDefine = false) (hspares : t.Spares lo)
      (hfrom : span.start = start.span.start) :
      Reports text base lo t (make form span t) fun id u => Rests text base lo u [id] ∧
        u.arena.definitionName id = none ∧ u.Spares lo ∧
        ∃ span, u.arena.position? id = some span ∧ span.start = start.span.start := by
    refine (reports_make ht (.of_eq hchildren) hscope fun hany =>
      Bool.noConfusion (hmay.symm.trans hany)).mono ?_
    rintro id u - ⟨hrests, hform, hposition, -, hreport⟩
    exact ⟨hrests, Arena.definitionName_eq_none hform hmay, fun e he => hspares e (hreport ▸ he), _,
      hposition, hfrom⟩
  have hloop : Reports text base lo s _ (Quoted text base lo) :=
    .loop (I := Strung text base lo) (fun body t ht hb => reports_stringStep he ht hstart hb)
      (s.tape.pending.length + 1) h.settled (a := .empty)
      ⟨h.carries, fun _ => rfl, .inl h.clear, hspares, hlt⟩
  unfold stringRule
  refine .bind_look rfl (hloop.bind fun body t ht ⟨hrests, hparts, hspares⟩ => ?_)
  refine .bind_spanFrom fun span hfrom _ => .ite (fun _ => ?_) fun hplain => ?_
  · refine (reports_flush _ hrests).bind fun flushed u hu ⟨hflushed, _, _, hreport⟩ => ?_
    refine hmake hflushed ?_ rfl rfl (fun e he => hspares e (hreport ▸ he)) hfrom
    simp [Form.children, Form.childGroups, ChildGroup.children]
  · rw [hparts (Bool.eq_false_iff.2 hplain)] at hrests
    exact hmake hrests rfl rfl rfl hspares hfrom

/-! ## Statements -/

/-- From the state `s` to the state `t` the form of a statement has been read: its children are in
hand, and if it defines a name, no error is about the stretch that it takes up. -/
structure Stated (text : String) (s : ParserState) (form : Form) (t : ParserState) : Prop where
  rests : Rests text s.arena s.ahead t form.children
  scope?_eq : form.scope? = none
  unmarked : form.mayDefine = true → s.ahead < t.reached ∧ t.Unmarked s.ahead

/-- A variable, after a look at its keyword. -/
theorem reports_variableForm (he : ∀ min, Expresses text (e min)) (hs : s.Settled text)
    (h : s.Near) (hkind : s.tape.peek.kind ≠ .endOfFile) :
    Reports text s.arena s.ahead s (variableForm e s) (Stated text s) := by
  have hrests : Rests text s.arena s.advanced.ahead s.advanced [] :=
    .nil hs.advanced (h.advanced hs hkind)
  have hle := hs.ahead_le
  unfold variableForm
  refine .bind_advance hs ?_
  -- what follows the keyword adds errors behind it only
  refine .weaken (.mono (M := fun form t => Rests text s.arena s.advanced.ahead t form.children ∧
    form.scope? = none ∧ s.advanced.reached < t.reached) ?_ fun form t hl hform => ?_)
    (.refl s.arena) hle
  · refine .bind_name hrests fun hname hnamed => ?_
    have hreached := hs.advanced.reached_le_ahead
    have hlt := hs.advanced.ahead_lt_reached hname
    refine (reports_optionalType hnamed).bind fun type t ht hrests => ?_
    refine (reports_optionalExpression (he .lowest) .assign hrests).bind
      fun initializer u hu hrests => .pure hu.settled ⟨?_, rfl, ?_⟩
    · simpa [Form.children, Form.childGroups, ChildGroup.children] using hrests
    · have ht := ht.reached_le
      have hu := hu.reached_le
      omega
  · exact ⟨hform.1.mono hle, hform.2.1, fun _ => ⟨Nat.lt_of_le_of_lt hs.ahead_le_reached hform.2.2,
      h.unmarked hl (hs.ahead_lt hkind) hform.2.2⟩⟩

/-- A return, after a look at its keyword. -/
theorem reports_returnForm (he : ∀ min, Expresses text (e min)) (hs : s.Settled text)
    (h : s.Near) (hkind : s.tape.peek.kind ≠ .endOfFile) :
    Reports text s.arena s.ahead s (returnForm e s) (Stated text s) := by
  have hrests : Rests text s.arena s.ahead s.advanced [] := .start hs h hkind
  unfold returnForm
  refine .bind_advance hs (.bind_look rfl (.ite (fun _ => ?_) fun _ => ?_))
  · exact .pure hs.advanced ⟨hrests, rfl, nofun⟩
  · exact ((he .lowest).appends hrests).bind fun value t ht hvalue =>
      .pure ht.settled ⟨hvalue, rfl, nofun⟩

/-- A statement without the semicolon that ends it. -/
theorem reports_statementForm (he : ∀ min, Expresses text (e min)) (hs : s.Settled text)
    (h : s.Awaits (.category [.statementStart])) :
    Reports text s.arena s.ahead s (statementForm e s) (Stated text s) := by
  unfold statementForm
  refine .bind_look (a := s.tape.peek) rfl ?_
  cases hk : s.tape.peek.kind
  case wordVal | wordVar => exact reports_variableForm he hs h.near (by rw [hk]; decide)
  case wordReturn => exact reports_returnForm he hs h.near (by rw [hk]; decide)
  all_goals
    have hawaits : s.Awaits (.kind .wordIf) := h.imp_right fun h => ⟨h.1, by
      have haccepts := h.2
      rw [hk] at haccepts ⊢
      first | rfl | cases haccepts⟩
    exact (he .lowest s hs hawaits).bind fun id t ht hid => .pure ht.settled ⟨hid.1, rfl, nofun⟩

/-- A statement. -/
theorem reports_statementRule (he : ∀ min, Expresses text (e min)) (hs : s.Settled text)
    (h : s.Awaits (.category [.statementStart])) :
    Reports text s.arena s.ahead s (statementRule e s) fun id t =>
      Rests text s.arena s.ahead t [id] := by
  unfold statementRule
  refine .bind_look (a := s.tape.peek) rfl ?_
  refine (reports_statementForm he hs h).bind fun form t ht hform => ?_
  refine (reports_terminator hform.rests).bind fun _ u hu ⟨hrests, _, hreport⟩ => ?_
  refine reports_spanned hrests (.refl _) hform.scope?_eq fun hmay => ⟨Nat.le_refl _, ?_, ?_⟩
  · exact Nat.lt_of_lt_of_le (hform.unmarked hmay).1 hu.reached_le
  · exact (hform.unmarked hmay).2.of_report hreport hu.reached_le

/-! ## Blocks -/

/-- Where a block goes on after an error. -/
abbrev blockStop : Expectation := .either (.category [.statementStart]) (.kind .rightBrace)

/-- The statements of a block under way. -/
def Blocked (base : Arena) (lo : Nat) (statements : List NodeId) (s : ParserState) : Prop :=
  Carries base lo s statements ∧ s.Between blockStop

/-- The statements of a block have been read. -/
def Enclosed (s : ParserState) : Prop :=
  s.Between blockStop ∧ (s.tape.peek.kind = .rightBrace ∨ s.tape.peek.kind = .endOfFile)

/-- A block goes on with a statement unless it ends. -/
theorem awaits_statement (h : s.Between blockStop)
    (hmore : (Expectation.anyOf [.rightBrace, .endOfFile]).accepts s.tape.peek.kind ≠ true) :
    s.Awaits (.category [.statementStart]) := by
  have hkind : s.tape.peek.kind ≠ .rightBrace ∧ s.tape.peek.kind ≠ .endOfFile := by
    simpa [Expectation.accepts] using hmore
  rcases h with (hclear | ⟨hnear, haccepts⟩) | hended
  · exact .inl hclear
  · refine .inr ⟨hnear, ?_⟩
    rw [Expectation.accepts_either, Expectation.accepts_kind,
      beq_eq_false_iff_ne.2 (Ne.symm hkind.1), Bool.or_false] at haccepts
    exact haccepts
  · exact absurd hended.kind_eq hkind.2

/-- One more statement of a block, or the end of the statements. -/
theorem reports_blockStep (he : ∀ min, Expresses text (e min)) (hs : s.Settled text)
    (h : Blocked base lo ids s) :
    Reports text base lo s (blockStep e ids s) fun r t => r.elim (Blocked base lo · t)
      fun ids => Carries base lo t ids ∧ Enclosed t := by
  unfold blockStep
  refine .bind_look rfl (.ite (fun hend => .pure hs ⟨h.1, h.2, ?_⟩) fun hmore => ?_)
  · simpa [Expectation.accepts] using hend
  · refine .bind_rule h.1.holds h.1.le (.synchronized _
      (reports_statementRule he hs (awaits_statement h.2 hmore)))
      fun statement t ht hq => .pure ht.settled ?_
    exact ⟨h.1.append hs ht hq.1, hq.2⟩

/-- The statements of a block. -/
theorem reports_blockStatements (he : ∀ min, Expresses text (e min)) (hs : s.Settled text)
    (h : s.Clear) :
    Reports text s.arena s.ahead s (blockStatements e s) fun ids t =>
      Carries s.arena s.ahead t ids ∧ Enclosed t := by
  refine .bind_look (a := s.tape.pending.length + 1) rfl ?_
  exact .loop (fun ids t ht hids => reports_blockStep he ht hids) _ hs ⟨.nil s, .inl (.inl h)⟩

/-- A block after its opening brace. -/
theorem reports_blockRule (he : ∀ min, Expresses text (e min)) {start : Token}
    (h : Rests text base lo s []) :
    Reports text base lo s (blockRule e start s) (Nameless text base lo) := by
  have halone : Reports text s.arena s.ahead s (blockRule e start s)
      (Nameless text s.arena s.ahead) := by
    unfold blockRule
    refine (Reports.inScope (p := blockStatements e) h.settled h.clear
      (fun u hu hclear => reports_blockStatements he hu hclear)
      fun _ _ scopes hq => ⟨hq.1.inside scopes, hq.2⟩).bind fun x t ht hx => ?_
    obtain ⟨scope, statements⟩ := x
    obtain ⟨hstatements, hopens, hbetween, hkind⟩ := hx
    refine .bind_rightBrace ht.settled hbetween ht.ahead_le rfl hkind fun hbrace => ?_
    have hclear := hbetween.near.advanced ht.settled (by rw [hbrace]; decide)
    refine .bind_spanFrom fun span _ _ => (reports_scoped_nameless ht.settled.advanced
      (hstatements.advanced ht.settled) rfl hopens ?_ ?_ rfl).mono fun id u hu hid =>
        ⟨⟨hu.settled, hid.2.2 hclear, hid.1⟩, hid.2.1⟩
    · simp [Form.children, Form.childGroups, ChildGroup.children]
    · simp [Form.items, Form.childGroups, ChildGroup.items]
  exact .behind_rests halone h

/-! ## Starts of expressions -/

section

variable {start : Token}

/-- A literal, about whose start there is no error. -/
theorem reports_literalRule {kind : TokenKind} {literal : String} {span : Span}
    (h : Rests text base lo s []) (hstart : span.start.offset = lo) (hspares : s.Spares lo)
    (hlt : lo < s.ahead) :
    Reports text base lo s (literalRule kind literal span s) (Nameless text base lo) := by
  unfold literalRule
  refine .bind_lift fun value _ => ?_
  cases value with
  | ok value => exact reports_nameless h (.refl _) rfl rfl
  | error error =>
    exact .failAt h.settled h.clear (Nat.le_of_eq hstart.symm) (hstart ▸ hlt)
      fun e he hsame => hspares e he (hsame ▸ hstart)

/-- An expression in parentheses after the opening one. -/
theorem reports_groupRule (he : ∀ min, Expresses text (e min)) (h : Rests text base lo s []) :
    Reports text base lo s (groupRule e s) (Nameless text base lo) := by
  unfold groupRule
  refine ((he .lowest).append h).bind fun inside t ht hinside => ?_
  exact .bind_expectKind hinside.1 fun _ hrests => .pure hrests.settled ⟨hrests, hinside.2⟩

/-- A unary operation after its operator, about which there is no error. -/
theorem reports_unaryRule (he : ∀ min, Expresses text (e min)) (h : Rests text base lo s [])
    (hstart : start.span.start.offset = lo) (hspares : s.Spares lo) (hlt : lo < s.ahead) :
    Reports text base lo s (unaryRule e start s) (Nameless text base lo) := by
  unfold unaryRule
  cases UnaryOperator.ofKind? start.kind with
  | none => trivial
  | some operator =>
    refine .bind_look rfl (.ite (fun _ => ?_) fun _ => ?_)
    · refine .bind_advance h.settled (reports_literalRule h.advanced hstart hspares ?_)
      exact Nat.lt_of_lt_of_le hlt h.settled.ahead_le
    · refine ((he .unary).appends h).bind fun operand t ht hoperand => .bind_spanOf fun _ _ => ?_
      exact reports_nameless hoperand (.refl _) rfl rfl

/-- A conditional after its keyword. -/
theorem reports_conditionalRule (he : ∀ min, Expresses text (e min))
    (h : Rests text base lo s []) :
    Reports text base lo s (conditionalRule e start s) (Nameless text base lo) := by
  unfold conditionalRule
  refine .bind_expectKind h fun _ hopen => ?_
  refine ((he .lowest).appends hopen).bind fun condition t ht hcondition => ?_
  refine .bind_expectKind hcondition fun _ hclose => ?_
  refine ((he .lowest).appends hclose).bind fun thenBranch u hu hthen => ?_
  refine (reports_optionalExpression (he .lowest) .wordElse hthen).bind
    fun elseBranch v hv hall => ?_
  refine .bind_spanFrom fun span _ _ => reports_nameless hall (.of_eq ?_) rfl rfl
  simp [Form.children, Form.childGroups, ChildGroup.children]

/-- What a token begins.  No error is about the token, unless that begins a conditional. -/
theorem reports_startRule (he : ∀ min, Expresses text (e min)) (h : Rests text base lo s [])
    (hstart : start.span.start.offset = lo) (hlt : lo < s.ahead) (rule : StartRule)
    (hspares : rule ≠ .conditional → s.Spares lo) :
    Reports text base lo s (startRule e start rule s) (Nameless text base lo) := by
  cases rule with
  | literal => exact reports_literalRule h hstart (hspares nofun) hlt
  | reference => exact reports_nameless h (.refl _) rfl rfl
  | string =>
    exact (reports_stringRule he h hstart (hspares nofun) hlt).mono
      fun _ _ _ hid => ⟨hid.1, hid.2.1⟩
  | group => exact reports_groupRule he h
  | unary => exact reports_unaryRule he h hstart (hspares nofun) hlt
  | conditional => exact reports_conditionalRule he h
  | block => exact reports_blockRule he h

end

/-! ## Continuations of expressions -/

/-- One more argument of a call, or the end of the arguments. -/
theorem reports_argumentStep {item : Parser NodeId} (hitem : Appends text item)
    {before arguments : List NodeId} (h : Rests text base lo s (before ++ arguments)) :
    Reports text base lo s (argumentStep item arguments s) fun r t =>
      r.elim (fun ids => Rests text base lo t (before ++ ids))
        fun ids => Rests text base lo t (before ++ ids) := by
  unfold argumentStep
  refine .bind_look rfl (.ite (fun _ => .pure h.settled h) fun _ => ?_)
  refine (hitem h).bind fun argument t ht hmore => ?_
  rw [List.append_assoc] at hmore
  exact .bind_skipKind ht.settled (fun _ => .pure ht.settled.advanced hmore.advanced)
    fun _ => .pure ht.settled hmore

/-- Items separated by commas, up to a closing parenthesis. -/
theorem reports_argumentList {item : Parser NodeId} (hitem : Appends text item)
    (h : Rests text base lo s ids) :
    Reports text base lo s (argumentList item s) fun arguments t =>
      Rests text base lo t (ids ++ arguments) := by
  have hloop : Reports text base lo s _ fun arguments t =>
      Rests text base lo t (ids ++ arguments) :=
    .loop (I := fun arguments t => Rests text base lo t (ids ++ arguments))
      (fun _ _ _ hids => reports_argumentStep hitem hids) (s.tape.pending.length + 1) h.settled
      (a := []) (by rwa [List.append_nil])
  unfold argumentList
  refine .bind_look rfl (hloop.bind fun arguments t ht hrests => ?_)
  exact .bind_expectKind hrests fun _ hrests => .pure hrests.settled hrests

section

variable {left : NodeId} {token : Token}

/-- A binary operation after its operator. -/
theorem reports_binaryRule (he : ∀ min, Expresses text (e min)) (h : Rests text base lo s [left]) :
    Reports text base lo s (binaryRule e left token s) (Nameless text base lo) := by
  unfold binaryRule
  cases BinaryOperator.ofKind? token.kind with
  | none => trivial
  | some operator =>
    cases ContinueRule.ofKind? token.kind with
    | none => trivial
    | some rule =>
      refine ((he _).appends h).bind fun right t ht hright => .bind_spanAcross fun _ => ?_
      exact reports_nameless hright (.refl _) rfl rfl

/-- An assignment after its operator. -/
theorem reports_assignmentRule (he : ∀ min, Expresses text (e min))
    (h : Rests text base lo s [left]) :
    Reports text base lo s (assignmentRule e left token s) (Nameless text base lo) := by
  unfold assignmentRule
  cases AssignmentOperator.ofKind? token.kind with
  | none => trivial
  | some operator =>
    refine ((he _).appends h).bind fun value t ht hvalue => .bind_spanAcross fun _ => ?_
    exact reports_nameless hvalue (.refl _) rfl rfl

/-- A call that is written between its arguments, after its name. -/
theorem reports_infixCallRule (he : ∀ min, Expresses text (e min))
    (h : Rests text base lo s [left]) :
    Reports text base lo s (infixCallRule e left token s) (Nameless text base lo) := by
  unfold infixCallRule
  refine ((he _).appends h).bind fun right t ht hright => .bind_spanAcross fun _ => ?_
  exact reports_nameless hright (.refl _) rfl rfl

/-- The access to a member after the dot. -/
theorem reports_memberRule (h : Rests text base lo s [left]) :
    Reports text base lo s (memberRule left s) (Nameless text base lo) := by
  unfold memberRule
  exact .bind_name h fun _ hname => .bind_spanOf fun _ _ =>
    reports_nameless hname (.refl _) rfl rfl

/-- A call.  A name that is called gives rise to nothing and need not be kept in hand. -/
theorem reports_invocationRule (he : ∀ min, Expresses text (e min))
    (h : Rests text base lo s [left]) :
    Reports text base lo s (invocationRule e left s) (Nameless text base lo) := by
  unfold invocationRule
  refine (reports_argumentList (he .lowest).appends h).bind fun arguments t ht hrests => ?_
  refine .bind_spanOf fun _ _ => .bind_spanFrom fun span _ _ => .bind_formOf fun form hform => ?_
  cases form with
  | reference name =>
    have hdropped : Rests text base lo t arguments :=
      ⟨hrests.settled, hrests.clear, hrests.carries.drop hform rfl⟩
    refine reports_nameless hdropped (.of_eq ?_) rfl rfl
    simp [Form.children, Form.childGroups, ChildGroup.children]
  | _ =>
    refine reports_nameless hrests (.of_eq ?_) rfl rfl
    simp [Form.children, Form.childGroups, ChildGroup.children]

/-- What a token makes of the expression before it. -/
theorem reports_continueRule (he : ∀ min, Expresses text (e min)) (h : Rests text base lo s [left])
    (rule : ContinueRule) :
    Reports text base lo s (continueRule e left token rule s) (Nameless text base lo) := by
  cases rule with
  | binary => exact reports_binaryRule he h
  | assignment => exact reports_assignmentRule he h
  | infixCall => exact reports_infixCallRule he h
  | member => exact reports_memberRule h
  | invocation => exact reports_invocationRule he h

end

/-! ## Expressions -/

/-- One more continuation of an expression, or its end. -/
theorem reports_expressionStep (he : ∀ min, Expresses text (e min)) (min : Precedence)
    {left : NodeId} (h : Nameless text base lo left s) :
    Reports text base lo s (expressionStep e min left s) fun r t =>
      r.elim (Nameless text base lo · t) (Nameless text base lo · t) := by
  unfold expressionStep
  refine .bind_look (a := s.tape.peek) rfl ?_
  cases continuation? min s.tape.peek.kind with
  | none => exact .pure h.1.settled h
  | some rule =>
    refine .bind_advance h.1.settled ?_
    exact (reports_continueRule he h.1.advanced rule).bind
      fun id t ht hid => .pure ht.settled hid

/-- An expression that begins with a token that an error is about is a conditional. -/
theorem spares_of_startRule (h : s.Awaits (.kind .wordIf)) {rule : StartRule}
    (hrule : StartRule.ofKind? s.tape.peek.kind = some rule) (hne : rule ≠ .conditional) :
    s.Spares s.ahead := by
  refine (h.clear ?_).spares
  rw [Expectation.accepts_kind, beq_eq_false_iff_ne]
  intro hkind
  rw [← hkind] at hrule
  cases hrule
  exact hne rfl

/-- An expression, given the rule for smaller ones. -/
theorem expresses_expressionRule (he : ∀ min, Expresses text (e min)) (min : Precedence) :
    Expresses text (expressionRule e min) := by
  intro s hs h
  unfold expressionRule
  cases hrule : StartRule.ofKind? s.tape.peek.kind with
  | none =>
    have hclear := h.clear (by
      rw [Expectation.accepts_kind, beq_eq_false_iff_ne]
      intro hkind
      rw [← hkind] at hrule
      cases hrule)
    exact .giveBack_fail hs (by simp only [hrule]) (fail_unexpected_eq "expression" _)
      (hclear.raises (Nat.le_refl _) rfl rfl rfl)
  | some rule =>
    have hkind := ne_endOfFile_of_startRule hrule
    refine .bind_advance hs ?_
    simp only [hrule]
    refine (reports_startRule he (.start hs h.near hkind) rfl (hs.ahead_lt hkind) rule
      (spares_of_startRule h hrule)).bind fun left t ht hleft => ?_
    refine .bind_look (a := t.tape.pending.length + 1) rfl ?_
    exact .loop (I := Nameless text s.arena s.ahead)
      (fun left u hu hleft => reports_expressionStep he min hleft) _ ht.settled hleft

/-- An expression in which expressions nest no deeper than a bound. -/
theorem expresses_expressionWithin (n : Nat) (min : Precedence) :
    Expresses text (expressionWithin n min) := by
  induction n generalizing min with
  | zero => exact fun _ _ _ => trivial
  | succ n ih => exact expresses_expressionRule ih min

/-- An expression. -/
theorem expresses_expression (min : Precedence) : Expresses text (expression min) :=
  fun s hs h => .bind_look rfl (expresses_expressionWithin _ min s hs h)

/-- A statement. -/
theorem reports_statement (hs : s.Settled text) (h : s.Awaits (.category [.statementStart])) :
    Reports text s.arena s.ahead s (statement s) fun id t => Rests text s.arena s.ahead t [id] :=
  .bind_look rfl (reports_statementRule (expresses_expressionWithin _) hs h)

end ExprLang.Parser
