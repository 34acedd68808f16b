import ExprLang.Parser.Entry

/-!
# Properties of all rules

Rules are made of rules.  What holds of the smallest ones, and of a sequence, a
synchronization point and a scope if it holds of their parts, holds of every rule
without strings.  Strings record errors while they go on, so a property may need to know
more of them; it holds of every rule if it holds of the two that strings begin in.

Main definitions:

- Definition {lit}`Parser.Composes`: a property of parsers that sequences, synchronization
  points and scopes pass on.
- Definition {lit}`Parser.Closed`: a property that the rules with strings pass on, too.

Main results:

- Theorem {lit}`Parser.Closed.entry`: such a property holds of the rules for all
  entries.
- Theorem {lit}`Parser.Composes.closed`: it is enough that it holds of strings.
-/

namespace ExprLang.Parser

/-- A property of parsers. -/
abbrev Property := ∀ α : Type, Parser α → Prop

/-- A parser has a property. -/
class Has (P : Property) {α : Type} (p : Parser α) : Prop where
  out : P α p

/-- A property of parsers that holds of the smallest rules and that larger ones pass on. -/
class Composes (P : Property) : Prop where
  pure {α : Type} (a : α) : P α (Pure.pure a)
  fault {α : Type} (f : Fault) : P α (Parser.fault f)
  bind {α β : Type} {p : Parser α} {f : α → Parser β} (hp : P α p) (hf : ∀ a, P β (f a)) :
    P β (p >>= f)
  tape_bind {β : Type} {f : Tape → Parser β} (hf : ∀ t, P β (f t)) :
    P β (get >>= fun s => f s.tape)
  arena_bind {β : Type} {f : Arena → Parser β} (hf : ∀ a, P β (f a)) :
    P β (get >>= fun s => f s.arena)
  synchronized {α : Type} {p : Parser α} (stop : Expectation) (hp : P α p) :
    P (Option α) (Parser.synchronized stop p)
  inScope {α : Type} {p : Parser α} (hp : P α p) : P (ScopeId × α) (Parser.inScope p)
  advance : P Token Parser.advance
  giveBack : P Unit Parser.giveBack
  failAt {α : Type} (span : Span) (complaint : Complaint) : P α (Parser.failAt span complaint)
  fail_unexpected {α : Type} (expected : String) :
    P α (Parser.unexpected expected >>= fun d => Parser.fail d)
  warnAt (span : Span) (complaint : Complaint) : P Unit (Parser.warnAt span complaint)
  record_semantic (span : Span) (complaint : Complaint) :
    P Unit (Parser.errorAt .semantic span complaint >>= fun d => Parser.record d)
  make (form : Form) (span : Span) : P NodeId (Parser.make form span)
  reportRedefinitions : P Unit Parser.reportRedefinitions

/-- A property that the rules with strings pass on, too. -/
class Closed (P : Property) : Prop extends Composes P where
  importPath (expression : ExpressionRule) [∀ min, Has P (expression min)] :
    P String (Parser.importPath expression)
  expressionRule (expression : ExpressionRule) [∀ min, Has P (expression min)]
    (min : Precedence) : P NodeId (Parser.expressionRule expression min)

namespace Composes

variable {α β : Type} {P : Property} [hP : Composes P]

/-! ## Sequences -/

instance has_pure (a : α) : Has P (Pure.pure a : Parser α) := ⟨hP.pure a⟩

instance has_fault (f : Fault) : Has P (Parser.fault f : Parser α) := ⟨hP.fault f⟩

instance has_bind (p : Parser α) (f : α → Parser β) [hp : Has P p] [hf : ∀ a, Has P (f a)] :
    Has P (p >>= f) := ⟨hP.bind hp.out fun a => (hf a).out⟩

/-- One rule after another, the second by hand. -/
theorem andThen {p : Parser α} {f : α → Parser β} [Has P p] (h : ∀ a, Has P (f a)) :
    Has P (p >>= f) :=
  has_bind p f

instance has_map (f : α → β) (p : Parser α) [Has P p] : Has P (f <$> p) :=
  inferInstanceAs (Has P (p >>= fun a => Pure.pure (f a)))

instance has_ite (c : Prop) [Decidable c] (p q : Parser α) [hp : Has P p] [hq : Has P q] :
    Has P (if c then p else q) := by
  split
  · exact hp
  · exact hq

omit hP in
/-- A choice, the second by hand. -/
theorem orElse {c : Prop} [Decidable c] {p q : Parser α} [Has P p] (h : Has P q) :
    Has P (if c then p else q) :=
  has_ite c p q

instance has_loop (step : α → Parser (α ⊕ β)) [∀ a, Has P (step a)] (n : Nat) (a : α) :
    Has P (Parser.loop step n a) := by
  induction n generalizing a with
  | zero => exact has_fault _
  | succ n ih =>
    unfold Parser.loop
    refine andThen fun x => ?_
    cases x with
    | inl a => exact ih a
    | inr b => exact has_pure b

instance has_synchronized (stop : Expectation) (p : Parser α) [hp : Has P p] :
    Has P (Parser.synchronized stop p) := ⟨hP.synchronized stop hp.out⟩

instance has_inScope (p : Parser α) [hp : Has P p] : Has P (Parser.inScope p) :=
  ⟨hP.inScope hp.out⟩

/-! ## Tokens and diagnostics -/

/-- A look at the tape. -/
theorem has_tape_bind {f : Tape → Parser β} (hf : ∀ t, Has P (f t)) :
    Has P (get >>= fun s => f s.tape) := ⟨hP.tape_bind fun t => (hf t).out⟩

/-- A look at the arena. -/
theorem has_arena_bind {f : Arena → Parser β} (hf : ∀ a, Has P (f a)) :
    Has P (get >>= fun s => f s.arena) := ⟨hP.arena_bind fun a => (hf a).out⟩

instance has_lift (result : Except Fault α) : Has P (Parser.lift result) := by
  cases result with
  | ok a => exact has_pure a
  | error e => exact has_fault e

instance has_bound : Has P Parser.bound :=
  has_tape_bind (f := fun t => Pure.pure (t.pending.length + 1)) fun _ => has_pure _

instance has_lookAhead (n : Nat) : Has P (Parser.lookAhead n) :=
  has_tape_bind (f := fun t => Pure.pure (t.lookAhead n)) fun _ => has_pure _

instance has_peek : Has P Parser.peek := has_lookAhead 0

instance has_previous : Has P Parser.previous :=
  has_tape_bind (f := fun t => Parser.lift t.previous) fun _ => has_lift _

instance has_advance : Has P Parser.advance := ⟨hP.advance⟩

instance has_giveBack : Has P Parser.giveBack := ⟨hP.giveBack⟩

instance has_failAt (span : Span) (complaint : Complaint) :
    Has P (Parser.failAt span complaint : Parser α) := ⟨hP.failAt span complaint⟩

instance has_fail_unexpected (expected : String) :
    Has P (Parser.unexpected expected >>= fun d => Parser.fail d : Parser α) :=
  ⟨hP.fail_unexpected expected⟩

instance has_warnAt (span : Span) (complaint : Complaint) : Has P (Parser.warnAt span complaint) :=
  ⟨hP.warnAt span complaint⟩

instance has_record_semantic (span : Span) (complaint : Complaint) :
    Has P (Parser.errorAt .semantic span complaint >>= fun d => Parser.record d) :=
  ⟨hP.record_semantic span complaint⟩

instance has_record_semantic_bind (span : Span) (complaint : Complaint) (f : Unit → Parser β)
    [∀ u, Has P (f u)] :
    Has P (Parser.errorAt .semantic span complaint >>= fun d => Parser.record d >>= f) := by
  have hassoc := bind_assoc (Parser.errorAt .semantic span complaint) Parser.record f
  rw [← hassoc]
  exact has_bind ..

instance has_check (e : Expectation) : Has P (Parser.check e) := by
  unfold Parser.check
  infer_instance

instance has_checkKind (kind : TokenKind) : Has P (Parser.checkKind kind) := has_check _

instance has_accept? (e : Expectation) : Has P (Parser.accept? e) := by
  unfold Parser.accept?
  infer_instance

instance has_skipKind (kind : TokenKind) : Has P (Parser.skipKind kind) := by
  unfold Parser.skipKind
  infer_instance

instance has_expect (e : Expectation) : Has P (Parser.expect e) := by
  unfold Parser.expect
  infer_instance

instance has_expectKind (kind : TokenKind) : Has P (Parser.expectKind kind) := has_expect _

instance has_name : Has P Parser.name := has_expect _

instance has_expectEnd : Has P Parser.expectEnd := by
  unfold Parser.expectEnd
  infer_instance

/-! ## Nodes -/

instance has_make (form : Form) (span : Span) : Has P (Parser.make form span) :=
  ⟨hP.make form span⟩

instance has_formOf (id : NodeId) : Has P (Parser.formOf id) :=
  has_arena_bind (f := fun a => Parser.lift (a.form id)) fun _ => has_lift _

instance has_spanOf (id : NodeId) : Has P (Parser.spanOf id) :=
  has_arena_bind (f := fun a => do return (← Parser.lift (a.position id)).getD Span.zero)
    fun _ => inferInstance

instance has_spanFrom (start : Span) : Has P (Parser.spanFrom start) := by
  unfold Parser.spanFrom
  infer_instance

instance has_reportRedefinitions : Has P Parser.reportRedefinitions := ⟨hP.reportRedefinitions⟩

/-! ## Statements -/

section Rules

variable (expression : ExpressionRule) [hE : ∀ min, Has P (expression min)]

instance has_flush (body : StringBody) : Has P (Parser.flush body) := by
  unfold Parser.flush
  split <;> infer_instance

instance has_placeholder (body : StringBody) : Has P (Parser.placeholder expression body) := by
  unfold Parser.placeholder
  infer_instance

instance has_typeStep (path : String) : Has P (Parser.typeStep path) := by
  unfold Parser.typeStep
  infer_instance

instance has_typeName : Has P Parser.typeName := by
  unfold Parser.typeName
  infer_instance

instance has_optionalType : Has P Parser.optionalType := by
  unfold Parser.optionalType
  infer_instance

instance has_terminator : Has P Parser.terminator := by
  unfold Parser.terminator
  refine andThen fun found => orElse ?_
  refine has_tape_bind (P := P) (f := fun tape => do
    let afterBrace := tape.consumed.head?.any (·.kind == .rightBrace)
    if afterBrace || tape.peek.kind == .rightBrace || tape.peek.kind == .endOfFile then return ()
    let _ ← expectKind .semicolon) fun tape => ?_
  exact has_ite ..

instance has_optionalExpression (item : Parser NodeId) [Has P item] (kind : TokenKind) :
    Has P (Parser.optionalExpression item kind) := by
  unfold Parser.optionalExpression
  infer_instance

instance has_statementForm : Has P (Parser.statementForm expression) := by
  unfold Parser.statementForm Parser.variableForm Parser.returnForm
  refine andThen fun token => ?_
  split <;> infer_instance

instance has_statementRule : Has P (Parser.statementRule expression) := by
  unfold Parser.statementRule
  infer_instance

instance has_blockStep (statements : List NodeId) :
    Has P (Parser.blockStep expression statements) := by
  unfold Parser.blockStep
  infer_instance

instance has_blockStatements : Has P (Parser.blockStatements expression) := by
  unfold Parser.blockStatements
  infer_instance

instance has_blockRule (start : Token) : Has P (Parser.blockRule expression start) := by
  unfold Parser.blockRule
  refine andThen fun x => ?_
  infer_instance

/-! ## Expressions -/

instance has_literalRule (kind : TokenKind) (text : String) (span : Span) :
    Has P (Parser.literalRule kind text span) := by
  unfold Parser.literalRule
  refine andThen fun value => ?_
  split <;> infer_instance

instance has_groupRule : Has P (Parser.groupRule expression) := by
  unfold Parser.groupRule
  infer_instance

instance has_negativeNumberFollows : Has P Parser.negativeNumberFollows := by
  unfold Parser.negativeNumberFollows
  infer_instance

instance has_unaryRule (start : Token) : Has P (Parser.unaryRule expression start) := by
  unfold Parser.unaryRule
  split <;> infer_instance

instance has_conditionalRule (start : Token) :
    Has P (Parser.conditionalRule expression start) := by
  unfold Parser.conditionalRule
  infer_instance

/-- What a token begins, unless that is a string. -/
theorem has_startRule (token : Token) {rule : StartRule} (h : rule ≠ .string) :
    Has P (Parser.startRule expression token rule) := by
  unfold Parser.startRule
  split
  case h_3 => exact absurd rfl h
  all_goals infer_instance

instance has_argumentStep (item : Parser NodeId) [Has P item] (arguments : List NodeId) :
    Has P (Parser.argumentStep item arguments) := by
  unfold Parser.argumentStep
  infer_instance

instance has_argumentList (item : Parser NodeId) [Has P item] :
    Has P (Parser.argumentList item) := by
  unfold Parser.argumentList
  infer_instance

instance has_invocationRule (target : NodeId) :
    Has P (Parser.invocationRule expression target) := by
  unfold Parser.invocationRule
  refine andThen fun arguments => andThen fun span => andThen fun span => andThen fun form => ?_
  split <;> infer_instance

instance has_spanAcross (first last : NodeId) : Has P (Parser.spanAcross first last) := by
  unfold Parser.spanAcross
  infer_instance

instance has_binaryRule (left : NodeId) (token : Token) :
    Has P (Parser.binaryRule expression left token) := by
  unfold Parser.binaryRule
  split <;> infer_instance

instance has_assignmentRule (target : NodeId) (token : Token) :
    Has P (Parser.assignmentRule expression target token) := by
  unfold Parser.assignmentRule
  split <;> infer_instance

instance has_infixCallRule (left : NodeId) (token : Token) :
    Has P (Parser.infixCallRule expression left token) := by
  unfold Parser.infixCallRule
  infer_instance

instance has_memberRule (receiver : NodeId) : Has P (Parser.memberRule receiver) := by
  unfold Parser.memberRule
  infer_instance

instance has_continueRule (left : NodeId) (token : Token) (rule : ContinueRule) :
    Has P (Parser.continueRule expression left token rule) := by
  unfold Parser.continueRule
  split <;> infer_instance

instance has_expressionStep (min : Precedence) (left : NodeId) :
    Has P (Parser.expressionStep expression min left) := by
  unfold Parser.expressionStep
  refine andThen fun token => ?_
  split <;> infer_instance

/-! ## Declarations -/

instance has_optionalRename (imported : Token) : Has P (Parser.optionalRename imported) := by
  unfold Parser.optionalRename
  infer_instance

instance has_importEntry : Has P Parser.importEntry := by
  unfold Parser.importEntry
  infer_instance

instance has_importStep (entries : List NodeId) : Has P (Parser.importStep entries) := by
  unfold Parser.importStep
  infer_instance

instance has_importEntries : Has P Parser.importEntries := by
  unfold Parser.importEntries
  refine andThen fun start => ?_
  split <;> infer_instance

instance has_namedArgumentFollows : Has P Parser.namedArgumentFollows := by
  unfold Parser.namedArgumentFollows
  infer_instance

instance has_argument : Has P (Parser.argument expression) := by
  unfold Parser.argument Parser.namedArgument Parser.patternArgument
  infer_instance

instance has_functionBody : Has P (Parser.functionBody expression) := by
  unfold Parser.functionBody
  refine andThen fun token => ?_
  split <;> infer_instance

instance has_functionRest : Has P (Parser.functionRest expression) := by
  unfold Parser.functionRest
  infer_instance

instance has_functionRule : Has P (Parser.functionRule expression) := by
  unfold Parser.functionRule
  refine andThen fun first => andThen fun isInfix => andThen fun _ => andThen fun name =>
    andThen fun parts => ?_
  dsimp only
  infer_instance

end Rules

/-- A property that holds of strings, given that it holds of the expressions in them, holds of the
rules with strings. -/
theorem closed (hstring : ∀ (expression : ExpressionRule) [∀ min, Has P (expression min)]
    (start : Token), Has P (Parser.stringRule expression start)) : Closed P where
  importPath expression _ := by
    have hquoted := hstring expression
    have hpath : Has P (Parser.importPath expression) := by
      unfold Parser.importPath
      refine andThen fun quote => andThen fun node => andThen fun form => ?_
      split <;> infer_instance
    exact hpath.out
  expressionRule expression _ min := by
    have hrule : Has P (Parser.expressionRule expression min) := by
      unfold Parser.expressionRule
      refine andThen fun token => ?_
      split
      · infer_instance
      · rename_i rule _
        have hstart : Has P (Parser.startRule expression token rule) := by
          by_cases h : rule = .string
          · rw [h]
            exact hstring expression token
          · exact has_startRule expression token h
        infer_instance
    exact hrule.out

end Composes

namespace Closed

variable {P : Property} [hP : Closed P]

/-! ## Rules with strings -/

section Rules

variable (expression : ExpressionRule) [∀ min, Has P (expression min)]

instance has_expressionRule (min : Precedence) : Has P (Parser.expressionRule expression min) :=
  ⟨hP.expressionRule expression min⟩

instance has_importPath : Has P (Parser.importPath expression) :=
  ⟨hP.importPath expression⟩

instance has_importRule : Has P (Parser.importRule expression) := by
  unfold Parser.importRule
  infer_instance

instance has_topLevel : Has P (Parser.topLevel expression) := by
  unfold Parser.topLevel
  refine Composes.andThen fun token => ?_
  split <;> infer_instance

end Rules

/-! ## Sources -/

instance has_expressionWithin (n : Nat) (min : Precedence) :
    Has P (Parser.expressionWithin n min) := by
  induction n generalizing min with
  | zero => exact Composes.has_fault _
  | succ n ih => exact has_expressionRule _ min

instance has_expression (min : Precedence) : Has P (Parser.expression min) := by
  unfold Parser.expression
  infer_instance

instance has_statement : Has P Parser.statement := by
  unfold Parser.statement
  infer_instance

instance has_unitStep (items : UnitItems) : Has P (Parser.unitStep items) := by
  unfold Parser.unitStep
  refine Composes.andThen fun done => Composes.orElse (Composes.andThen fun item => ?_)
  split <;> infer_instance

instance has_unitSpan (items : UnitItems) : Has P (Parser.unitSpan items) := by
  unfold Parser.unitSpan
  split <;> infer_instance

instance has_compilationUnit : Has P Parser.compilationUnit := by
  unfold Parser.compilationUnit
  infer_instance

/-- A property that rules pass on holds of the rule for every entry. -/
theorem entry (e : Entry) : P NodeId (Parser.entry e) := by
  have hentry : Has P (Parser.entry e) := by
    unfold Parser.entry
    split <;> infer_instance
  exact hentry.out

end Closed

end ExprLang.Parser
