import ExprLang.Proofs.Layout.Runs

/-!
# Rules in two layouts

Strings, statements and expressions come out the same in both layouts, and where no
error is recorded their rules consume nothing but tokens of the language.  Where a
rule consumes a token without asking for it, the rule that runs it has asked before,
or an error follows.

Main results:

- Theorem {lit}`Parser.Follows.statementRule`: statements.
- Theorem {lit}`Parser.Follows.expressionWithin`: expressions.
-/

namespace ExprLang.Parser.Follows

open ParserState

variable {l : Alignment} {n : Nat} {e : ExpressionRule}

/-! ## Strings -/

section

variable {b b' : StringBody} {start start' : Token}

/-- Ending the present text. -/
theorem flush (hb : Alike l n b b') : Follows l n (Parser.flush b) (Parser.flush b') := by
  obtain ⟨parts, ⟨text, span⟩, interpolated⟩ := b
  obtain ⟨parts', ⟨text', span'⟩, interpolated'⟩ := b'
  obtain ⟨hparts, ⟨rfl, hspan⟩, rfl⟩ := hb
  have hempty {m : Nat} : Alike l m Chunk.empty Chunk.empty := ⟨rfl, .none⟩
  unfold Parser.flush
  cases hspan with
  | none => exact .pure ⟨hparts, hempty, rfl⟩
  | some hspan =>
    refine (make _ hspan).bind fun m id id' hm hid => .pure ⟨?_, hempty, rfl⟩
    exact alike_concat (Comparable.mono hparts hm) hid

/-- A placeholder after its opening brace. -/
theorem placeholder (he : ∀ min m, Follows l m (e min) (e min)) (hb : Alike l n b b') :
    Follows l n (Parser.placeholder e b) (Parser.placeholder e b') := by
  have hstart : Alike l n { b with interpolated := true } { b' with interpolated := true } :=
    ⟨hb.1, hb.2.1, rfl⟩
  unfold Parser.placeholder
  refine (flush hstart).bind fun m c c' _ hc => ?_
  refine (synchronized _ (he .lowest m)).bind fun m' part? part?' hm hpart => ?_
  have hc := Comparable.mono hc hm
  have hdone {k : Nat} (hk : m' ≤ k) : Alike l k { c with parts := c.parts ++ part?.toList }
      { c' with parts := c'.parts ++ part?'.toList } :=
    Comparable.mono ⟨alike_append_toList hc.1 hpart, hc.2⟩ hk
  refine (skipKind rfl).bind_same fun k closed hk _ => .ite Iff.rfl (.pure (hdone hk)) ?_
  refine (checkKind _).bind_same fun k' ended hk' _ => .ite Iff.rfl ?_ (fail_unexpected _)
  exact .pure (hdone (Nat.le_trans hk hk'))

/-- One token of a string. -/
theorem stringStep (he : ∀ min m, Follows l m (e min) (e min)) (hstart : start.Alike l start')
    (hb : Alike l n b b') :
    Follows l n (Parser.stringStep e start b) (Parser.stringStep e start' b') := by
  intro s s' hs hn
  have htoken := hs.tape.peek
  have hb : Alike l s.arena.size b b' := Comparable.mono hb hn
  have hpush (text : List Char) : Alike l s.arena.size
      { b with chunk := b.chunk.push text s.tape.peek.span }
      { b' with chunk := b'.chunk.push text s'.tape.peek.span } :=
    ⟨hb.1, Chunk.alike_push hb.2.1 text htoken.span, hb.2.2⟩
  unfold Parser.stringStep
  cases hk : s.tape.peek.kind
  all_goals have hk' := htoken.kind.trans hk
  case stringContent =>
    refine .bind_advance (by rw [hk]; rfl) ?_
    simp only [hk, hk', htoken.text]
    exact .ok (.refl _) hs.advanced (.inl (hpush _))
  case stringEscape =>
    refine .bind_advance (by rw [hk]; rfl) ?_
    simp only [hk, hk', htoken.text]
    cases Text.unescape? s.tape.peek.text.toList with
    | some c => exact .ok (.refl _) hs.advanced (.inl (hpush _))
    | none =>
      refine .of_follows (n := s.arena.size) ?_ hs.advanced (Nat.le_refl _)
      exact bind_record htoken.span rfl fun _ hm => .pure (.inl (Comparable.mono hb hm))
  case templateStart =>
    refine .bind_advance (by rw [hk]; rfl) ?_
    simp only [hk, hk']
    refine .of_follows (n := s.arena.size) ?_ hs.advanced (Nat.le_refl _)
    exact (placeholder he hb).bind fun _ _ _ _ hc => .pure (.inl hc)
  case stringEnd =>
    refine .bind_advance (by rw [hk]; rfl) ?_
    simp only [hk, hk']
    exact .ok (.refl _) hs.advanced (.inr hb)
  case unexpectedCharacter =>
    -- the character is not one of the language, but an error about it is on record afterwards
    refine .bind_advance_of_errors ?_ ?_ <;> simp only [hk, hk', htoken.text]
    · refine .of_follows (n := s.arena.size) ?_ hs.advanced (Nat.le_refl _)
      exact bind_record htoken.span rfl fun _ hm => .pure (.inl (Comparable.mono hb hm))
    · rintro _ _ ⟨⟩
      exact not_noErrors_recorded _ rfl
  all_goals
    refine .giveBack_fail hs (by simp only [hk]) (by simp only [hk'])
      (failAt_eq start.span .openString _) (failAt_eq start'.span .openString _) ?_
    exact ⟨⟨rfl, hstart.span⟩, rfl⟩

/-- A string after its opening quote. -/
theorem stringRule (he : ∀ min m, Follows l m (e min) (e min)) (hstart : start.Alike l start') :
    Follows l n (Parser.stringRule e start) (Parser.stringRule e start') := by
  unfold Parser.stringRule
  refine bound.bind_same fun m k _ _ => ?_
  have hempty : Alike l m StringBody.empty StringBody.empty := ⟨.nil, ⟨rfl, .none⟩, rfl⟩
  refine (loop (fun _ _ _ _ hb => stringStep he hstart hb) k hempty).bind
    fun _ b b' _ hb => ?_
  refine (spanFrom hstart.span).bind fun _ span span' hm hspan => ?_
  have hb := Comparable.mono hb hm
  rw [hb.2.2]
  refine .ite Iff.rfl ?_ ?_
  · refine (flush hb).bind fun _ c c' _ hc => ?_
    rw [Placeless.eq_of_alike hc.1]
    exact make _ hspan
  · rw [hb.2.1.1]
    exact make _ hspan

end

/-! ## Types -/

/-- One more part of a type after a dot, or the end of the type. -/
theorem typeStep (path : String) :
    Follows l n (Parser.typeStep path) (Parser.typeStep path) := by
  unfold Parser.typeStep
  refine (skipKind rfl).bind_same fun _ _ _ _ => .ite Iff.rfl ?_ (.pure (.inr rfl))
  refine name.bind fun _ part part' _ hpart => ?_
  rw [hpart.text]
  exact .pure (.inl rfl)

/-- Names separated by dots. -/
theorem typeName : Follows l n Parser.typeName Parser.typeName := by
  unfold Parser.typeName
  refine name.bind fun _ first first' _ hfirst => bound.bind_same fun m k _ _ => ?_
  rw [hfirst.text]
  refine loop (fun _ path path' _ hpath => ?_) k rfl
  cases hpath
  exact typeStep path

/-- A colon and a type, or nothing. -/
theorem optionalType : Follows l n Parser.optionalType Parser.optionalType := by
  unfold Parser.optionalType
  refine (skipKind rfl).bind_same fun _ _ _ _ => .ite Iff.rfl ?_ (.pure .none)
  exact typeName.bind fun _ _ _ _ htype => .pure (.some htype)

/-! ## Statements -/

/-- The semicolon that ends a statement. -/
theorem terminator : Follows l n Parser.terminator Parser.terminator := by
  unfold Parser.terminator
  refine (skipKind rfl).bind_same fun m found _ _ => .ite Iff.rfl (.pure rfl) ?_
  let rest (tape : Tape) : Parser Unit := do
    let afterBrace := tape.consumed.head?.any (·.kind == .rightBrace)
    if afterBrace || tape.peek.kind == .rightBrace || tape.peek.kind == .endOfFile then return ()
    let _ ← Parser.expectKind .semicolon
  refine tape_bind (f := rest) fun t t' ht => ?_
  have hafter : (t'.consumed.head?.any fun token => token.kind == .rightBrace) =
      t.consumed.head?.any fun token => token.kind == .rightBrace := by
    have hconsumed := ht.consumed
    generalize t.consumed = tokens at hconsumed
    generalize t'.consumed = tokens' at hconsumed
    cases hconsumed with
    | nil => rfl
    | cons htoken _ => exact congrArg (· == TokenKind.rightBrace) htoken.kind
  simp only [rest, hafter, ht.peek.kind]
  exact .ite Iff.rfl (.pure rfl) ((expectKind rfl).bind fun _ _ _ _ _ => .pure rfl)

/-- An expression after a token of some kind, if there is such a token. -/
theorem optionalExpression {p : Parser NodeId} (hp : ∀ m, Follows l m p p) {kind : TokenKind}
    (h : kind.isValid = true) :
    Follows l n (Parser.optionalExpression p kind) (Parser.optionalExpression p kind) := by
  unfold Parser.optionalExpression
  refine (skipKind h).bind_same fun m _ _ _ => .ite Iff.rfl ?_ (.pure .none)
  exact (hp m).map fun _ _ _ hid => .some hid

section

variable {s s' : ParserState}

/-- A variable, after a look at its keyword. -/
theorem agree_variableForm (he : ∀ min m, Follows l m (e min) (e min)) (hs : s.Alike l s')
    (hvalid : s.tape.peek.kind.isValid = true) :
    Agree l s (variableForm e s) (variableForm e s') := by
  unfold variableForm
  refine .bind_advance hvalid (.of_follows (n := 0) ?_ hs.advanced (Nat.zero_le _))
  refine name.bind fun _ name name' _ hname => optionalType.bind_same fun m type _ _ => ?_
  refine (optionalExpression (he .lowest) rfl).bind_same fun _ initializer _ _ => ?_
  rw [hname.text, hs.tape.peek.kind]
  exact .pure rfl

/-- A return, after a look at its keyword. -/
theorem agree_returnForm (he : ∀ min m, Follows l m (e min) (e min)) (hs : s.Alike l s')
    (hvalid : s.tape.peek.kind.isValid = true) :
    Agree l s (returnForm e s) (returnForm e s') := by
  unfold returnForm
  refine .bind_advance hvalid (.of_follows (n := 0) ?_ hs.advanced (Nat.zero_le _))
  refine (check _).bind_same fun m _ _ _ => .ite Iff.rfl (.pure rfl) ?_
  exact (he .lowest m).bind_same fun _ _ _ _ => .pure rfl

end

/-- A statement without the semicolon that ends it. -/
theorem statementForm (he : ∀ min m, Follows l m (e min) (e min)) :
    Follows l n (Parser.statementForm e) (Parser.statementForm e) := by
  intro s s' hs hn
  unfold Parser.statementForm
  refine .bind_peek ?_
  rw [hs.tape.peek.kind]
  cases hk : s.tape.peek.kind
  case wordVal | wordVar => exact agree_variableForm he hs (by rw [hk]; rfl)
  case wordReturn => exact agree_returnForm he hs (by rw [hk]; rfl)
  all_goals exact .of_follows ((he .lowest n).bind_same fun _ _ _ _ => .pure rfl) hs hn

/-- A statement. -/
theorem statementRule (he : ∀ min m, Follows l m (e min) (e min)) :
    Follows l n (Parser.statementRule e) (Parser.statementRule e) := by
  unfold Parser.statementRule
  refine peek.bind fun _ token token' _ htoken => (statementForm he).bind_same fun _ form _ _ => ?_
  refine terminator.bind_same fun _ _ _ _ => (spanFrom htoken.span).bind fun _ _ _ _ hspan => ?_
  exact make form hspan

/-! ## Blocks -/

/-- One more statement of a block, or the end of the statements. -/
theorem blockStep (he : ∀ min m, Follows l m (e min) (e min)) {ids ids' : List NodeId}
    (h : Alike l n ids ids') : Follows l n (Parser.blockStep e ids) (Parser.blockStep e ids') := by
  unfold Parser.blockStep
  refine (check _).bind_same fun _ _ hm _ => ?_
  have h := Comparable.mono h hm
  refine .ite Iff.rfl (.pure (.inr h)) ?_
  refine (synchronized _ (statementRule he)).bind fun _ id? id?' hm hid => ?_
  exact .pure (.inl (alike_append_toList (Comparable.mono h hm) hid))

/-- A block after its opening brace. -/
theorem blockRule (he : ∀ min m, Follows l m (e min) (e min)) {start start' : Token}
    (hstart : start.Alike l start') :
    Follows l n (Parser.blockRule e start) (Parser.blockRule e start') := by
  have hstatements {m : Nat} : Follows l m (blockStatements e) (blockStatements e) := by
    unfold blockStatements
    refine bound.bind_same fun _ k _ _ => ?_
    exact loop (fun _ _ _ _ h => blockStep he h) k .nil
  unfold Parser.blockRule
  refine (inScope hstatements).bind_same fun _ x _ _ => ?_
  obtain ⟨scope, statements⟩ := x
  refine (expectKind rfl).bind fun _ _ _ _ _ => ?_
  refine (spanFrom hstart.span).bind fun _ span span' _ hspan => ?_
  refine (make _ hspan).bind fun _ id id' _ hid => ?_
  exact reportRedefinitions.bind_same fun _ _ hm _ => .pure (Comparable.mono hid hm)

/-! ## Starts of expressions -/

/-- A literal. -/
theorem literalRule (kind : TokenKind) (text : String) {span span' : Span}
    (hspan : span.Alike l span') :
    Follows l n (Parser.literalRule kind text span) (Parser.literalRule kind text span') := by
  unfold Parser.literalRule
  cases Literal.ofToken kind text with
  | error f => exact fault f f
  | ok result =>
    cases result with
    | ok value =>
      show Follows l n (Parser.make (.literal value) span) (Parser.make (.literal value) span')
      exact make _ hspan
    | error error =>
      show Follows l n (Parser.failAt span (.badLiteral error))
        (Parser.failAt span' (.badLiteral error))
      exact failAt hspan rfl

/-- An expression in parentheses. -/
theorem groupRule (he : ∀ min m, Follows l m (e min) (e min)) :
    Follows l n (Parser.groupRule e) (Parser.groupRule e) := by
  unfold Parser.groupRule
  refine (he .lowest n).bind fun _ _ _ _ hid => (expectKind rfl).bind fun _ _ _ hm _ => ?_
  exact .pure (Comparable.mono hid hm)

/-- Whether a number follows that a minus sign belongs to, as read off the tape. -/
def numberAhead (t : Tape) : Bool :=
  (Expectation.anyOf [.intLiteral, .longLiteral, .floatLiteral, .doubleLiteral]).accepts
    t.peek.kind && !((t.lookAhead 1).kind == .dot || (t.lookAhead 1).kind == .leftParen)

/-- Asking whether a number follows is a look at the tape. -/
theorem negativeNumberFollows_eq (s : ParserState) :
    negativeNumberFollows s = .ok (numberAhead s.tape) s := rfl

/-- A number is one of the tokens of the language. -/
theorem isValid_of_numberAhead {t : Tape} (h : numberAhead t = true) :
    t.peek.kind.isValid = true := by
  unfold numberAhead at h
  cases hk : t.peek.kind <;> first | rfl | simp [hk, Expectation.accepts] at h

/-- A unary operation after its operator. -/
theorem unaryRule (he : ∀ min m, Follows l m (e min) (e min)) {start start' : Token}
    (hstart : start.Alike l start') :
    Follows l n (Parser.unaryRule e start) (Parser.unaryRule e start') := by
  unfold Parser.unaryRule
  rw [hstart.kind]
  cases UnaryOperator.ofKind? start.kind with
  | none => exact fault _ _
  | some operator =>
    intro s s' hs hn
    have hahead : numberAhead s'.tape = numberAhead s.tape := by
      unfold numberAhead
      rw [hs.tape.peek.kind, (hs.tape.lookAhead 1).kind]
    refine .bind_look (negativeNumberFollows_eq s) (negativeNumberFollows_eq s') ?_
    rw [hahead]
    split
    · rename_i hnegative
      have hvalid := isValid_of_numberAhead (Bool.and_eq_true_iff.1 hnegative).2
      refine .bind_advance hvalid (.of_follows (n := 0) ?_ hs.advanced (Nat.zero_le _))
      rw [hs.tape.peek.kind, hs.tape.peek.text]
      exact literalRule _ _ (hstart.span.through hs.tape.peek.span)
    · refine .of_follows ?_ hs hn
      refine (he .unary n).bind_same fun _ operand _ hoperand => ?_
      exact (spanOf hoperand.2).bind fun _ _ _ _ hspan => make _ (hstart.span.through hspan)

/-- A conditional after its keyword. -/
theorem conditionalRule (he : ∀ min m, Follows l m (e min) (e min)) {start start' : Token}
    (hstart : start.Alike l start') :
    Follows l n (Parser.conditionalRule e start) (Parser.conditionalRule e start') := by
  unfold Parser.conditionalRule
  refine (expectKind rfl).bind fun m _ _ _ _ => (he .lowest m).bind_same fun _ condition _ _ => ?_
  refine (expectKind rfl).bind fun m _ _ _ _ => (he .lowest m).bind_same fun _ yes _ _ => ?_
  refine (optionalExpression (he .lowest) rfl).bind_same fun _ no _ _ => ?_
  exact (spanFrom hstart.span).bind fun _ _ _ _ hspan => make _ hspan

/-- What a token begins. -/
theorem startRule (he : ∀ min m, Follows l m (e min) (e min)) {token token' : Token}
    (htoken : token.Alike l token') (rule : StartRule) :
    Follows l n (Parser.startRule e token rule) (Parser.startRule e token' rule) := by
  unfold Parser.startRule
  cases rule with
  | literal =>
    dsimp only
    rw [htoken.kind, htoken.text]
    exact literalRule _ _ htoken.span
  | reference =>
    dsimp only
    rw [htoken.text]
    exact make _ htoken.span
  | string => exact stringRule he htoken
  | group => exact groupRule he
  | unary => exact unaryRule he htoken
  | conditional => exact conditionalRule he htoken
  | block => exact blockRule he htoken

/-! ## Continuations of expressions -/

/-- One more argument of a call, or the end of the arguments. -/
theorem argumentStep {item : Parser NodeId} (hi : ∀ m, Follows l m item item)
    {ids ids' : List NodeId} (h : Alike l n ids ids') :
    Follows l n (Parser.argumentStep item ids) (Parser.argumentStep item ids') := by
  unfold Parser.argumentStep
  refine (checkKind _).bind_same fun m _ hm _ => ?_
  have h := Comparable.mono h hm
  refine .ite Iff.rfl (.pure (.inr h)) ?_
  refine (hi m).bind fun _ id id' hm hid => ?_
  have h := alike_concat (Comparable.mono h hm) hid
  refine (skipKind rfl).bind_same fun _ _ hm _ => ?_
  exact .ite Iff.rfl (.pure (.inl (Comparable.mono h hm))) (.pure (.inr (Comparable.mono h hm)))

/-- Items separated by commas, up to a closing parenthesis. -/
theorem argumentList {item : Parser NodeId} (hi : ∀ m, Follows l m item item) :
    Follows l n (Parser.argumentList item) (Parser.argumentList item) := by
  unfold Parser.argumentList
  refine bound.bind_same fun _ k _ _ => ?_
  refine (loop (fun _ _ _ _ h => argumentStep hi h) k .nil).bind fun _ ids ids' _ hids => ?_
  exact (expectKind rfl).bind fun _ _ _ hm _ => .pure (Comparable.mono hids hm)

section

variable {id last : NodeId}

/-- A call. -/
theorem invocationRule (he : ∀ min m, Follows l m (e min) (e min)) (hid : id.index < n) :
    Follows l n (Parser.invocationRule e id) (Parser.invocationRule e id) := by
  unfold Parser.invocationRule
  refine (argumentList (he .lowest)).bind_same fun _ ids hm _ => ?_
  refine (spanOf (Nat.lt_of_lt_of_le hid hm)).bind fun _ _ _ _ hspan => ?_
  refine (spanFrom hspan).bind fun _ span span' _ hspan => ?_
  refine (formOf id).bind_same fun _ form _ _ => ?_
  cases form <;> exact make _ hspan

/-- The stretch from one node to another. -/
theorem spanAcross (hid : id.index < n) (hlast : last.index < n) :
    Follows l n (Parser.spanAcross id last) (Parser.spanAcross id last) := by
  unfold Parser.spanAcross
  refine (spanOf hid).bind fun _ _ _ hm hspan => ?_
  exact (spanOf (Nat.lt_of_lt_of_le hlast hm)).bind fun _ _ _ _ hspan' =>
    .pure (hspan.through hspan')

/-- A node that stretches from one node to another. -/
theorem make_across (form : Form) (hid : id.index < n) (hlast : last.index < n) :
    Follows l n (Parser.spanAcross id last >>= Parser.make form)
      (Parser.spanAcross id last >>= Parser.make form) :=
  (spanAcross hid hlast).bind fun _ _ _ _ hspan => make form hspan

/-- A binary operation after its operator. -/
theorem binaryRule (he : ∀ min m, Follows l m (e min) (e min)) (hid : id.index < n)
    {token token' : Token} (htoken : token.Alike l token') :
    Follows l n (Parser.binaryRule e id token) (Parser.binaryRule e id token') := by
  unfold Parser.binaryRule
  rw [htoken.kind]
  split
  · rename_i operator _ precedence _ _
    refine (he precedence n).bind_same fun _ right hm hright => ?_
    exact make_across _ (Nat.lt_of_lt_of_le hid hm) hright.2
  · exact fault _ _

/-- An assignment after its operator. -/
theorem assignmentRule (he : ∀ min m, Follows l m (e min) (e min)) (hid : id.index < n)
    {token token' : Token} (htoken : token.Alike l token') :
    Follows l n (Parser.assignmentRule e id token) (Parser.assignmentRule e id token') := by
  unfold Parser.assignmentRule
  rw [htoken.kind]
  cases AssignmentOperator.ofKind? token.kind with
  | none => exact fault _ _
  | some operator =>
    refine (he .lowest n).bind_same fun _ value hm hvalue => ?_
    exact make_across _ (Nat.lt_of_lt_of_le hid hm) hvalue.2

/-- A call that is written between its arguments, after its name. -/
theorem infixCallRule (he : ∀ min m, Follows l m (e min) (e min)) (hid : id.index < n)
    {token token' : Token} (htoken : token.Alike l token') :
    Follows l n (Parser.infixCallRule e id token) (Parser.infixCallRule e id token') := by
  unfold Parser.infixCallRule
  rw [htoken.text]
  refine (he .infixCall n).bind_same fun _ right hm hright => ?_
  exact make_across _ (Nat.lt_of_lt_of_le hid hm) hright.2

/-- The access to a member after the dot. -/
theorem memberRule (hid : id.index < n) :
    Follows l n (Parser.memberRule id) (Parser.memberRule id) := by
  unfold Parser.memberRule
  refine name.bind fun _ member member' hm hmember => ?_
  rw [hmember.text]
  exact (spanOf (Nat.lt_of_lt_of_le hid hm)).bind fun _ _ _ _ hspan =>
    make _ (hspan.through hmember.span)

/-- What a token makes of the expression before it. -/
theorem continueRule (he : ∀ min m, Follows l m (e min) (e min)) (hid : id.index < n)
    {token token' : Token} (htoken : token.Alike l token') (rule : ContinueRule) :
    Follows l n (Parser.continueRule e id token rule) (Parser.continueRule e id token' rule) := by
  cases rule with
  | binary => exact binaryRule he hid htoken
  | assignment => exact assignmentRule he hid htoken
  | infixCall => exact infixCallRule he hid htoken
  | member => exact memberRule hid
  | invocation => exact invocationRule he hid

end

/-! ## Expressions -/

/-- Only tokens of the language continue an expression. -/
theorem isValid_of_continuation? {min : Precedence} {kind : TokenKind} {rule : ContinueRule}
    (h : continuation? min kind = some rule) : kind.isValid = true := by
  cases kind <;> first | rfl | simp [continuation?, ContinueRule.ofKind?] at h

/-- Only tokens of the language begin an expression. -/
theorem isValid_of_startRule {kind : TokenKind} {rule : StartRule}
    (h : StartRule.ofKind? kind = some rule) : kind.isValid = true := by
  cases kind <;> first | rfl | simp [StartRule.ofKind?] at h

/-- One more continuation of an expression, or its end. -/
theorem expressionStep (he : ∀ min m, Follows l m (e min) (e min)) (min : Precedence)
    {id : NodeId} (hid : id.index < n) :
    Follows l n (Parser.expressionStep e min id) (Parser.expressionStep e min id) := by
  intro s s' hs hn
  unfold Parser.expressionStep
  refine .bind_peek ?_
  rw [hs.tape.peek.kind]
  cases hrule : continuation? min s.tape.peek.kind with
  | none => exact .ok (.refl s) hs (.inr ⟨rfl, Nat.lt_of_lt_of_le hid hn⟩)
  | some rule =>
    refine .bind_advance (isValid_of_continuation? hrule) ?_
    refine .of_follows (n := n) ?_ hs.advanced hn
    exact (continueRule he hid hs.tape.peek rule).bind fun _ _ _ _ h => .pure (.inl h)

/-- An expression, given the rule for smaller expressions. -/
theorem expressionRule (he : ∀ min m, Follows l m (e min) (e min)) (min : Precedence) :
    Follows l n (Parser.expressionRule e min) (Parser.expressionRule e min) := by
  intro s s' hs hn
  have htoken := hs.tape.peek
  unfold Parser.expressionRule
  cases hrule : StartRule.ofKind? s.tape.peek.kind with
  | none =>
    refine .giveBack_fail hs (by simp only [hrule]) (by simp only [htoken.kind, hrule])
      (fail_unexpected_eq "expression" _) (fail_unexpected_eq "expression" _) ?_
    exact ⟨⟨congrArg (Severity.error, Topic.grammar, ·) (message_unexpected htoken _),
      htoken.span⟩, rfl⟩
  | some rule =>
    refine .bind_advance (isValid_of_startRule hrule) ?_
    simp only [htoken.kind, hrule]
    refine .of_follows (n := n) ?_ hs.advanced hn
    refine (startRule he htoken rule).bind fun m id id' _ hid => ?_
    refine bound.bind_same fun _ k hm _ => loop (fun _ _ _ _ hid => ?_) k (Comparable.mono hid hm)
    cases Placeless.eq_of_alike hid
    exact expressionStep he min hid.2

/-- An expression in which expressions nest no deeper than a bound. -/
theorem expressionWithin (k : Nat) (min : Precedence) (n : Nat) :
    Follows l n (Parser.expressionWithin k min) (Parser.expressionWithin k min) := by
  induction k generalizing min n with
  | zero => exact fault _ _
  | succ k ih => exact expressionRule ih min

/-- An expression. -/
theorem expression (min : Precedence) :
    Follows l n (Parser.expression min) (Parser.expression min) := by
  unfold Parser.expression
  exact bound.bind_same fun _ k _ _ => expressionWithin k min _

/-- A statement. -/
theorem statement : Follows l n Parser.statement Parser.statement := by
  unfold Parser.statement
  exact bound.bind_same fun _ k _ _ => statementRule (expressionWithin k)

end ExprLang.Parser.Follows
