import ExprLang.Proofs.Parser.Statements

/-!
# Expressions, parsed and read

The rules for expressions do what their readers do.  A token is used up between
an expression and one inside it, so the bounds of both are sufficient.

Main results:

- Theorem {lit}`Parser.expression_simulates`: an expression.
- Theorem {lit}`Parser.statement_simulates`: a statement.
-/

namespace ExprLang.Parser

open ParserState

variable {base : Arena} {s t u : ParserState} {n : Nat} {e : ExpressionRule}
  {e' : ExpressionReader} {role : Role}

/-! ## Starts of expressions -/

/-- A literal that can be read without a fault. -/
theorem literalRule_simulates {kind : TokenKind} {text : String} {span : Span} (hs : s.Valid)
    (h : ∃ result, Literal.ofToken kind text = .ok result ∧
      ∀ value, result = .ok value → value.Writable) :
    Gives .expression (literalRule kind text span) (Reader.literal kind text) s := by
  obtain ⟨result, hresult, hwritable⟩ := h
  unfold literalRule Reader.literal
  rw [hresult]
  refine .bind_left_look (a := result) hs rfl ?_
  cases result with
  | ok value =>
    have hformed : Formed s.arena s .expression (.literal value) (.literal value) :=
      ⟨⟨rfl, .nil, .nil⟩, .literal (hwritable value rfl), rfl⟩
    exact (Simulates.build hs (.refl _) hformed).mono fun id tree t _ h => h.1
  | error error => exact .failAt hs

/-- An expression in parentheses. -/
theorem groupRule_simulates (he : Expressions n e e') (hs : s.Valid) (hn : s.remaining < n) :
    Gives .expression (groupRule e) (Reader.group e') s := by
  refine .bind (he .lowest s hs hn) fun id tree t hl h => ?_
  refine .bind_expectKind hl.valid fun _ => ?_
  have hl' : Leads t.arena t t.advanced := .advanced hl.valid
  exact .pure hl'.valid ⟨h.1.kept.later hl', h.1.written⟩

/-- Whether a number follows that a minus sign belongs to. -/
theorem negativeNumberFollows_simulates (hs : s.Valid) :
    negativeNumberFollows.Simulates base Reader.negativeNumberFollows s fun a b t =>
      b = a ∧ t = s ∧ (a = true →
        (Expectation.anyOf [.intLiteral, .longLiteral, .floatLiteral, .doubleLiteral]).accepts
          s.tape.peek.kind = true) := by
  refine .bind_check hs (.bind_lookAhead hs (.pure hs ⟨rfl, rfl, fun h => ?_⟩))
  exact (Bool.and_eq_true_iff.1 h).1

/-- A unary operation after its operator. -/
theorem unaryRule_simulates {start : Token} (he : Expressions n e e') (hs : s.Valid)
    (hn : s.remaining < n) (hop : ∃ operator, UnaryOperator.ofKind? start.kind = some operator) :
    Gives .expression (unaryRule e start) (Reader.unary e' start.kind) s := by
  obtain ⟨operator, hop⟩ := hop
  unfold unaryRule Reader.unary
  rw [hop]
  refine .bind (negativeNumberFollows_simulates hs) fun _ number t _ h => ?_
  obtain ⟨rfl, rfl, hnumber⟩ := h
  cases hc : operator == .negate && number with
  | true =>
    have hk := hnumber (Bool.and_eq_true_iff.1 hc).2
    have hproper := hs.regular.proper_peek fun h => by
      rw [h] at hk
      cases hk
    refine .bind_advance hs ?_
    have hl : Leads t.arena t t.advanced := .advanced hs
    exact .weaken (literalRule_simulates hl.valid
      (Literal.exists_ofToken_minus_of_proper hproper hk)) hl.holds
  | false =>
    refine .bind (he .unary t hs hn) fun id tree u hl h => ?_
    refine .bind_left_look hl.valid (spanOf_eq h.1.kept.index_lt) ?_
    have hformed : Formed t.arena u .expression (.unary operator (some id))
        (.unary operator tree) :=
      ⟨⟨rfl, .cons (.cons h.1.kept .nil) .nil, List.nodup_singleton _⟩, .unary h.1.written, rfl⟩
    exact (Simulates.build hl.valid hl.holds hformed).mono fun id tree v _ h => h.1

/-- A conditional after its keyword. -/
theorem conditionalRule_simulates (start : Token) (he : Expressions n e e') (hs : s.Valid)
    (hbegan : s.Began) (hn : s.remaining < n) :
    Gives .expression (conditionalRule e start) (Reader.conditional e') s := by
  unfold conditionalRule Reader.conditional
  refine .bind_expectKind hs fun _ => ?_
  have hopen : Leads s.arena s s.advanced := .advanced hs
  refine .bind (he .lowest _ hopen.valid (Nat.lt_of_le_of_lt hopen.remaining_le hn))
    fun condition condition' t ht hcondition => ?_
  refine .bind_expectKind ht.valid fun _ => ?_
  have hclose : Leads t.arena t t.advanced := .advanced ht.valid
  have hlead := (hopen.trans ht).trans (hclose.weaken ht.holds)
  refine .bind_rule hlead.holds (he .lowest _ hclose.valid
    (Nat.lt_of_le_of_lt hlead.remaining_le hn)) fun branch branch' u hu hbranch => ?_
  have hlead' := hlead.trans (hu.weaken hlead.holds)
  refine .bind_rule hlead'.holds (optionalExpression_simulates hu.valid fun v hv => ?_)
    fun other other' v hv hother => ?_
  · have hrem := (hlead'.trans (hv.weaken hlead'.holds)).remaining_le
    exact (he .lowest v hv.valid (by omega)).mono fun _ _ _ _ h => h.1
  have hlast := hlead'.trans (hv.weaken hlead'.holds)
  obtain ⟨span, hspan⟩ := exists_spanFrom start.span (hbegan.later hlast)
  refine .bind_left_look hv.valid hspan ?_
  have hkept : KeptAll s.arena v (condition :: branch :: other.toList)
      (condition' :: branch' :: other'.toList) :=
    ((KeptAll.singleton (hcondition.1.kept.later hclose)).append hu hbranch.1.kept
      hlead.holds).append_all hv hother.kept hlead'.holds
  have hshows : Shows s.arena v (.conditional (some condition) (some branch) other)
      (.conditional condition' branch' other') := by
    refine ⟨rfl, ?_, ?_⟩
    · obtain ⟨_ | ⟨hc, _ | ⟨hb, ho⟩⟩, -⟩ := hkept
      exact .cons (.cons hc .nil) (.cons (.cons hb .nil) (.cons ho .nil))
    · simpa [Form.children, Form.childGroups, ChildGroup.children] using hkept.nodup
  have hformed : Formed s.arena v .expression (.conditional (some condition) (some branch) other)
      (.conditional condition' branch' other') :=
    ⟨hshows, .conditional hcondition.1.written hbranch.1.written hother.written, rfl⟩
  exact (Simulates.build hv.valid hlast.holds hformed).mono fun id tree v _ h => h.1

/-- What a token begins. -/
theorem startRule_simulates {token : Token} {rule : StartRule} (he : Expressions n e e')
    (hs : s.Valid) (hbegan : s.Began) (hn : s.remaining < n) (hproper : token.Proper)
    (hrule : StartRule.ofKind? token.kind = some rule) :
    Gives .expression (startRule e token rule) (Reader.start e' token.word rule) s := by
  cases rule with
  | literal => exact literalRule_simulates hs (Literal.exists_ofToken_of_proper hproper hrule)
  | reference =>
    have hname : IsName token.text := by
      refine hproper.isName ?_
      cases hk : token.kind <;> rw [hk] at hrule <;> first | rfl | cases hrule
    have hformed : Formed s.arena s .expression (.reference token.text) (.reference token.text) :=
      ⟨⟨rfl, .nil, .nil⟩, .reference hname, rfl⟩
    exact (Simulates.build hs (.refl _) hformed).mono fun id tree t _ h => h.1
  | string => exact stringRule_simulates token he hs hbegan (Nat.le_of_lt hn)
  | group => exact groupRule_simulates he hs hn
  | unary => exact unaryRule_simulates he hs hn (StartRule.exists_unaryOperator hrule)
  | conditional => exact conditionalRule_simulates token he hs hbegan hn
  | block => exact blockRule_simulates token he hs hbegan hn

/-! ## Items in parentheses -/

/-- One more item, or the end of the items. -/
theorem argumentStep_simulates {item : Parser NodeId} {item' : Reader Tree} {ids : List NodeId}
    {trees : List Tree} (hitem : Within role n item item') (hs : s.Valid) (hn : s.remaining < n)
    (hb : s.arena.Holds base) (h : BuiltAll base s role ids trees) :
    (argumentStep item ids).Simulates base (Reader.argumentStep item' trees) s
      (Simulates.StepRel (fun ids trees t => BuiltAll base t role ids trees)
        (fun ids trees t => BuiltAll base t role ids trees) s.remaining) := by
  refine .bind_checkKind hs (fun _ => .pure hs h) fun _ => ?_
  refine .bind_rule hb (hitem s hs hn) fun id tree t hl hbuilt => ?_
  have hall := h.append hl hbuilt.1 hb
  refine .bind_skipKind hl.valid (fun _ => ?_) fun _ => .pure hl.valid hall
  have hl' : Leads t.arena t t.advanced := .advanced hl.valid
  exact .pure hl'.valid ⟨hall.later hl', Nat.lt_of_le_of_lt hl'.remaining_le hbuilt.2⟩

/-- Items separated by commas, up to a closing parenthesis. -/
theorem argumentList_simulates {item : Parser NodeId} {item' : Reader Tree}
    (hitem : Within role n item item') (hs : s.Valid) (hn : s.remaining < n) :
    (argumentList item).Simulates s.arena (Reader.argumentList item') s
      fun ids trees t => BuiltAll s.arena t role ids trees := by
  refine .bind_bound fun a b ha hb => ?_
  refine .bind (R := fun ids trees t => BuiltAll s.arena t role ids trees) ?_
    fun ids trees t hl h => ?_
  · refine .loop (fun ids trees t => BuiltAll s.arena t role ids trees)
      (fun ids trees t hl h => ?_) hs (.nil ..) ha hb
    exact argumentStep_simulates hitem hl.valid (Nat.lt_of_le_of_lt hl.remaining_le hn) hl.holds h
  · refine .bind_expectKind hl.valid fun _ => ?_
    have hl' : Leads t.arena t t.advanced := .advanced hl.valid
    exact .pure hl'.valid (h.later hl')

/-! ## Continuations of expressions -/

/-- A rule that goes on with an expression does what a reader does. -/
abbrev GoesOn (base : Arena) (p : Parser NodeId) (r : Reader Tree) (s : ParserState) : Prop :=
  p.Simulates base r s fun id tree t => Built base t .expression id tree

section

variable {left : NodeId} {left' : Tree}

/-- A form with two children, the first of which was built before the second began. -/
theorem Formed.of_pair {form : Form} {tree left' right' : Tree} {left right : NodeId}
    (hl : Leads s.arena s t) (hb : s.arena.Holds base) (hleft : Kept base s left left')
    (hright : Kept s.arena t right right') (hbare : form.bare = tree.shape)
    (hf : form.childGroups = [.slot left, .slot right]) (ht : tree.groups = [[left'], [right']])
    (hscope : form.scope? = none) (hwritten : Tree.Written role tree) :
    Formed base t role form tree := by
  have hkept := (KeptAll.singleton hleft).append hl hright hb
  refine ⟨⟨hbare, ?_, ?_⟩, hwritten, hscope⟩
  · rw [hf, ht]
    exact .cons (.cons (hleft.later hl) .nil) (.cons (.cons (hright.weaken hb) .nil) .nil)
  · simpa [Form.children, hf, ChildGroup.children] using hkept.nodup

/-- The stretch from one node that exists to another. -/
theorem spanAcross_eq {first last : NodeId} (hfirst : first.index < s.arena.size)
    (hlast : last.index < s.arena.size) :
    spanAcross first last s = .ok (((s.arena.position? first).getD Span.zero).through
      ((s.arena.position? last).getD Span.zero)) s :=
  (bind_eq_of_eq_ok (spanOf_eq hfirst)).trans ((bind_eq_of_eq_ok (spanOf_eq hlast)).trans rfl)

/-- A binary operation after its operator. -/
theorem binaryRule_simulates {token : Token} {precedence : Precedence} (he : Expressions n e e')
    (hs : s.Valid) (hn : s.remaining < n) (hb : s.arena.Holds base)
    (hleft : Built base s .expression left left')
    (hk : ContinueRule.ofKind? token.kind = some (.binary, precedence)) :
    GoesOn base (binaryRule e left token) (Reader.binary e' left' token.kind) s := by
  obtain ⟨operator, hop⟩ := ContinueRule.exists_binaryOperator hk
  unfold binaryRule Reader.binary
  rw [hop, hk]
  refine .bind_rule hb (he precedence s hs hn) fun right right' t hl hright => ?_
  refine .bind_left_look hl.valid
    (spanAcross_eq (hleft.kept.later hl).index_lt hright.1.kept.index_lt) ?_
  refine (Simulates.build hl.valid (hl.holds.trans hb) (.of_pair hl hb hleft.kept hright.1.kept
    rfl rfl rfl rfl (.binary hleft.written hright.1.written))).mono fun id tree u _ h => h.1

/-- An assignment after its operator. -/
theorem assignmentRule_simulates {token : Token} {precedence : Precedence}
    (he : Expressions n e e') (hs : s.Valid) (hn : s.remaining < n) (hb : s.arena.Holds base)
    (hleft : Built base s .expression left left')
    (hk : ContinueRule.ofKind? token.kind = some (.assignment, precedence)) :
    GoesOn base (assignmentRule e left token) (Reader.assignment e' left' token.kind) s := by
  obtain ⟨operator, hop⟩ := ContinueRule.exists_assignmentOperator hk
  unfold assignmentRule Reader.assignment
  rw [hop]
  refine .bind_rule hb (he .lowest s hs hn) fun right right' t hl hright => ?_
  refine .bind_left_look hl.valid
    (spanAcross_eq (hleft.kept.later hl).index_lt hright.1.kept.index_lt) ?_
  refine (Simulates.build hl.valid (hl.holds.trans hb) (.of_pair hl hb hleft.kept hright.1.kept
    rfl rfl rfl rfl (.assignment hleft.written hright.1.written))).mono fun id tree u _ h => h.1

/-- A call that is written between its arguments, after its name. -/
theorem infixCallRule_simulates {token : Token} (he : Expressions n e e') (hs : s.Valid)
    (hn : s.remaining < n) (hb : s.arena.Holds base)
    (hleft : Built base s .expression left left') (hname : IsIdentifier token.text) :
    GoesOn base (infixCallRule e left token) (Reader.infixCall e' left' token.text) s := by
  unfold infixCallRule Reader.infixCall
  refine .bind_rule hb (he .infixCall s hs hn) fun right right' t hl hright => ?_
  refine .bind_left_look hl.valid
    (spanAcross_eq (hleft.kept.later hl).index_lt hright.1.kept.index_lt) ?_
  refine (Simulates.build hl.valid (hl.holds.trans hb) (.of_pair hl hb hleft.kept hright.1.kept
    rfl rfl rfl rfl (.infixInvocation hleft.written hname hright.1.written))).mono
    fun id tree u _ h => h.1

/-- The access to a member after the dot. -/
theorem memberRule_simulates (hs : s.Valid) (hb : s.arena.Holds base)
    (hleft : Built base s .expression left left') :
    GoesOn base (memberRule left) (Reader.member left') s := by
  unfold memberRule Reader.member
  refine .bind_name hs fun hname _ => ?_
  have hl : Leads s.arena s s.advanced := .advanced hs
  refine .bind_left_look hl.valid (spanOf_eq (hleft.kept.later hl).index_lt) ?_
  have hformed : Formed base s.advanced .expression (.memberAccess (some left) s.tape.peek.text)
      (.memberAccess left' s.tape.peek.word.text) :=
    ⟨⟨rfl, .cons (.cons (hleft.kept.later hl) .nil) .nil, List.nodup_singleton _⟩,
      .memberAccess hleft.written hname, rfl⟩
  exact (Simulates.build hl.valid hb hformed).mono fun id tree t _ h => h.1

/-- A call. -/
theorem invocationRule_simulates (he : Expressions n e e') (hs : s.Valid) (hbegan : s.Began)
    (hn : s.remaining < n) (hb : s.arena.Holds base)
    (hleft : Built base s .expression left left') :
    GoesOn base (invocationRule e left) (Reader.invocation e' left') s := by
  unfold invocationRule Reader.invocation
  refine .bind_rule hb (argumentList_simulates (he .lowest) hs hn) fun ids trees t hl hall => ?_
  have hkept := hleft.kept.later hl
  refine .bind_left_look hl.valid (spanOf_eq hkept.index_lt) ?_
  obtain ⟨span, hspan⟩ := exists_spanFrom ((t.arena.position? left).getD Span.zero)
    (hbegan.later hl)
  refine .bind_left_look hl.valid hspan ?_
  obtain ⟨form, hform, hbare⟩ := hkept.exists_formOf
  refine .bind_left_look hl.valid hform ?_
  have hlead := hl.holds.trans hb
  by_cases href : ∃ name, left' = .reference name
  · obtain ⟨name, rfl⟩ := href
    cases form <;> cases hbare
    have hname : IsName name := by
      cases hleft.written
      assumption
    exact (Simulates.build hl.valid hlead ⟨.of_list rfl rfl rfl (hall.kept.weaken hb),
      .namedInvocation hname hall.written, rfl⟩).mono fun id tree u _ h => h.1
  · have hne : ∀ name, left' ≠ .reference name := fun name he => href ⟨name, he⟩
    have hcall : left'.call trees = .anonymousInvocation left' trees := by
      cases left' <;> first | rfl | exact absurd rfl (hne _)
    have hshows : Shows base t (.anonymousInvocation (some left) ids)
        (.anonymousInvocation left' trees) := by
      refine ⟨rfl, .cons (.cons hkept .nil) (.cons (hall.kept.weaken hb).kept .nil), ?_⟩
      have hnodup := ((KeptAll.singleton hleft.kept).append_all hl hall.kept hb).nodup
      simpa [Form.children, Form.childGroups, ChildGroup.children] using hnodup
    have hformed : Formed base t .expression (.anonymousInvocation (some left) ids)
        (.anonymousInvocation left' trees) :=
      ⟨hshows, .anonymousInvocation hleft.written hne hall.written, rfl⟩
    rw [hcall]
    have hbuild : (Parser.make (.anonymousInvocation (some left) ids) span).Simulates base
        (Pure.pure (.anonymousInvocation left' trees)) t
        fun id tree u => Built base u .expression id tree :=
      (Simulates.build hl.valid hlead hformed).mono fun id tree u _ h => h.1
    cases form <;> first | exact hbuild | skip
    cases left' <;> first | exact absurd rfl (hne _) | cases hbare

/-- What a token makes of the expression before it. -/
theorem continueRule_simulates {token : Token} {rule : ContinueRule} {precedence : Precedence}
    (he : Expressions n e e') (hs : s.Valid) (hbegan : s.Began) (hn : s.remaining < n)
    (hb : s.arena.Holds base) (hleft : Built base s .expression left left')
    (hproper : token.Proper)
    (hrule : ContinueRule.ofKind? token.kind = some (rule, precedence)) :
    GoesOn base (continueRule e left token rule) (Reader.extend e' left' token.word rule) s := by
  cases rule with
  | binary => exact binaryRule_simulates he hs hn hb hleft hrule
  | assignment => exact assignmentRule_simulates he hs hn hb hleft hrule
  | infixCall =>
    have hk : token.kind = .identifier := by
      cases hk : token.kind <;> rw [hk] at hrule <;> first | rfl | cases hrule
    exact infixCallRule_simulates he hs hn hb hleft (hproper.isIdentifier hk)
  | member => exact memberRule_simulates hs hb hleft
  | invocation => exact invocationRule_simulates he hs hbegan hn hb hleft

/-! ## Expressions -/

/-- One more continuation of an expression, or its end. -/
theorem expressionStep_simulates {min : Precedence} (he : Expressions n e e') (hs : s.Valid)
    (hn : s.remaining < n) (hb : s.arena.Holds base)
    (hleft : Built base s .expression left left') :
    (expressionStep e min left).Simulates base (Reader.expressionStep e' min left') s
      (Simulates.StepRel (fun id tree t => Built base t .expression id tree)
        (fun id tree t => Built base t .expression id tree) s.remaining) := by
  unfold expressionStep Reader.expressionStep
  refine .bind_peek hs ?_
  rw [Token.kind_word]
  cases hc : continuation? min s.tape.peek.kind with
  | none => exact .pure hs hleft
  | some rule =>
    obtain ⟨⟨rule, precedence⟩, hrule, rfl⟩ := Option.map_eq_some_iff.1 hc
    have hkind := (Option.filter_eq_some_iff.1 hrule).1
    have hend : s.tape.peek.kind ≠ .endOfFile := fun h => by
      rw [h] at hkind
      cases hkind
    have hlt := remaining_advanced_lt hs hend
    have hl : Leads s.arena s s.advanced := .advanced hs
    refine .bind_advance hs ?_
    refine .bind (continueRule_simulates he hl.valid (began_advanced s) (Nat.lt_trans hlt hn) hb
      ⟨hleft.kept.later hl, hleft.written⟩ (hs.regular.proper_peek hend) hkind)
      fun id tree t ht h => ?_
    exact .pure ht.valid ⟨h, Nat.lt_of_le_of_lt ht.remaining_le hlt⟩

end

/-- An expression, given the rule for smaller expressions. -/
theorem expressionRule_simulates (he : Expressions n e e') :
    Expressions (n + 1) (expressionRule e) (Reader.expressionRule e') := by
  intro min s hs hn
  unfold expressionRule Reader.expressionRule
  refine .right_peek hs ?_
  rw [Token.kind_word]
  cases hrule : StartRule.ofKind? s.tape.peek.kind with
  | none =>
    refine .advance_giveBack (p := unexpected "expression" >>= fun d => fail d) hs
      (by simp only [hrule]) ?_
    exact .fail_unexpected hs.restored
  | some rule =>
    have hend : s.tape.peek.kind ≠ .endOfFile := fun h => by
      rw [h] at hrule
      cases hrule
    have hlt := remaining_advanced_lt hs hend
    have hl : Leads s.arena s s.advanced := .advanced hs
    have hproper := hs.regular.proper_peek hend
    refine .bind_advance hs ?_
    simp only [hrule]
    refine .bind (startRule_simulates he hl.valid (began_advanced s) (by omega) hproper hrule)
      fun left left' t ht hleft => .bind_bound fun a b ha hb => ?_
    have hrem := ht.remaining_le
    refine .mono (.loop (fun id tree t => Built s.arena t .expression id tree)
      (fun id tree u hu h => ?_) ht.valid hleft ha hb) fun id tree u hu h => ⟨h, ?_⟩
    · have hrem' := hu.remaining_le
      exact expressionStep_simulates he hu.valid (by omega) (hu.holds.trans ht.holds) h
    · have hrem' := hu.remaining_le
      omega

/-- An expression in which expressions nest no deeper than a bound.  The bounds of the parser and
of the reader may differ. -/
theorem expressionWithin_simulates (n m : Nat) :
    Expressions (min n m) (expressionWithin n) (Reader.expressionWithin m) := by
  induction n generalizing m with
  | zero => exact fun _ s _ hn => absurd hn (by omega)
  | succ n ih =>
    cases m with
    | zero => exact fun _ s _ hn => absurd hn (by omega)
    | succ m =>
      rw [Nat.succ_min_succ]
      exact expressionRule_simulates (ih m)

/-- An expression. -/
theorem expression_simulates (min : Precedence) (hs : s.Valid) :
    Uses .expression (expression min) (Reader.expression min) s :=
  .bind_bound fun n m hn hm =>
    expressionWithin_simulates n m min s hs (Nat.lt_min.2 ⟨hn, hm⟩)

/-- A statement. -/
theorem statement_simulates (hs : s.Valid) : Uses .statement statement Reader.statement s :=
  .bind_bound fun n m hn hm =>
    statementRule_simulates (expressionWithin_simulates n m) hs (Nat.lt_min.2 ⟨hn, hm⟩)

end ExprLang.Parser
