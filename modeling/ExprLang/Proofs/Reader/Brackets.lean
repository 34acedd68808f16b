import ExprLang.Proofs.Reader.Enclosures

/-!
# Rules stay inside brackets

What an expression, a block or a string reads lies inside the brackets around it.

Main definitions:

- Definitions {lit}`Reader.importTail` and {lit}`Reader.functionTail`: declarations
  after their first words.

Main results:

- Theorems {lit}`Reader.moves_block` and {lit}`Reader.moves_string`: blocks and
  strings read up to the tokens that close them.
- Theorem {lit}`Reader.stays_expressionWithin`: expressions stay inside brackets.
- Theorems {lit}`Reader.stays_importTail` and {lit}`Reader.stays_functionTail`: so
  do declarations after their first words.
-/

namespace ExprLang.Reader

/-! ## Declarations after their first words -/

/-- What is left of an import after its first word. -/
def importTail (expression : ExpressionReader) : Reader Tree := do
  let path ← importPath expression
  let entries ← importEntries
  let _ ← skipKind .semicolon
  return .importPath path entries

/-- What is left of a function after the word that begins it. -/
def functionTail (expression : ExpressionReader) (isInfix : Bool) : Reader Tree := do
  let name ← name
  let (arguments, returnType, body) ← functionRest expression
  tidied (.function name.text isInfix arguments returnType body)

variable {P : Nest → List Word → Prop} [hP : Enclosure P] {nest : Nest} {p : Spot}

/-! ## Types -/

/-- A part of a type. -/
theorem stays_typeStep (path : String) : Stays P (typeStep path) :=
  .bind (stays_skipKind rfl) fun _ => .ite (.bind stays_name fun _ => stays_pure _) (stays_pure _)

/-- A type. -/
theorem stays_typeName : Stays P typeName :=
  .bind stays_name fun _ => .bind stays_bound fun n => .loop stays_typeStep n _

/-- A colon and a type, or nothing. -/
theorem stays_optionalType : Stays P optionalType :=
  .bind (stays_skipKind rfl) fun _ =>
    .ite (.bind stays_typeName fun _ => stays_pure _) (stays_pure _)

/-! ## Literals -/

omit hP in
/-- A literal. -/
theorem stays_literal (kind : TokenKind) (text : String) : Stays P (literal kind text) := by
  unfold literal
  split
  · exact stays_pure _
  · exact stays_fail

section

variable {E : ExpressionReader}

/-! ## Statements -/

/-- The end of a statement. -/
theorem stays_terminator : Stays P terminator :=
  .bind (stays_skipKind rfl) fun _ => .ite (stays_pure _) (.bind stays_afterBrace fun _ =>
    .bind stays_peek fun _ => .ite (stays_pure _) (.bind (stays_expectKind rfl) fun _ =>
      stays_pure _))

/-- An expression after a word, or nothing. -/
theorem stays_optionalExpression {item : Reader Tree} {kind : TokenKind} (hitem : Stays P item)
    (h : kind.isNeutral = true) : Stays P (optionalExpression item kind) :=
  .bind (stays_skipKind h) fun _ => .ite (hitem.map some) (stays_pure none)

variable (hE : ∀ min, Stays P (E min))
include hE

/-- A variable after its keyword. -/
theorem moves_localVariable (hp : P nest p.words) (hk : p.peek.kind.PassesIn nest) :
    MovesAt P (localVariable E) (fun _ => nest) p :=
  (moves_advance hp hk).bind_stays fun _ =>
    .bind stays_name fun _ => .bind stays_optionalType fun _ =>
      .bind (stays_optionalExpression (hE .lowest) rfl) fun _ => stays_pure _

/-- A return after its keyword. -/
theorem moves_returnStatement (hp : P nest p.words) (hk : p.peek.kind.PassesIn nest) :
    MovesAt P (returnStatement E) (fun _ => nest) p :=
  (moves_advance hp hk).bind_stays fun _ =>
    .bind (stays_check _) fun _ => .ite (stays_pure _) (.bind (hE .lowest) fun _ => stays_pure _)

/-- A statement without its end. -/
theorem stays_statementBody : Stays P (statementBody E) := by
  intro nest p hp
  refine .bind_peek ?_
  split
  · rename_i hk
    exact moves_localVariable hE hp (hk ▸ TokenKind.passesIn_of_isNeutral rfl nest)
  · rename_i hk
    exact moves_localVariable hE hp (hk ▸ TokenKind.passesIn_of_isNeutral rfl nest)
  · rename_i hk
    exact moves_returnStatement hE hp (hk ▸ TokenKind.passesIn_of_isNeutral rfl nest)
  · exact Moves.bind_stays (hE .lowest nest) (fun _ => stays_pure _) p hp

/-- A statement. -/
theorem stays_statementRule : Stays P (statementRule E) :=
  .bind (stays_statementBody hE) fun _ => .bind stays_terminator fun _ => stays_pure _

/-- One more statement, which does not begin with the brace that closes the block. -/
theorem moves_statement (hp : P (.brace :: nest) p.words) (hk : p.peek.kind ≠ .rightBrace) :
    MovesAt P (synchronized statementStop (statementRule E)) (fun _ => .brace :: nest) p := by
  obtain ⟨hsuffix, hplace⟩ := stays_statementRule hE (.brace :: nest) p hp
  rcases hr : statementRule E p with ⟨_ | statement, clean, q⟩
  · rw [hr] at hsuffix hplace
    simp only [MovesAt, synchronized, hr, Spot.skip]
    refine ⟨(Spot.words_skipWords_suffix ..).trans hsuffix, hP.skip_statement hplace _ ?_ _⟩
    -- where no word was used up, the next word is the one that the statement began with
    intro hstart w hw
    have hwords : q.words = p.words :=
      hsuffix.eq_of_length_le (Nat.not_lt.1 (of_decide_eq_false hstart))
    obtain ⟨_ | ⟨v, vs⟩, flag⟩ := p
    · rw [hwords] at hw
      cases hw
    · rw [hwords] at hw
      cases hw
      exact hk
  · rw [hr] at hsuffix hplace
    simp only [MovesAt, synchronized, hr]
    exact ⟨hsuffix, hplace⟩

/-- One more statement of a block, or the end of the statements. -/
theorem moves_blockStep (statements : List Tree) :
    Moves P (.brace :: nest) (blockStep E statements) fun _ => .brace :: nest := by
  intro p hp
  refine .bind_look (a := (Expectation.anyOf [.rightBrace, .endOfFile]).accepts p.peek.kind) rfl ?_
  split
  · exact stays_pure _ _ p hp
  · rename_i hk
    have hne : p.peek.kind ≠ .rightBrace := by
      intro h
      rw [h] at hk
      exact hk rfl
    exact (moves_statement hE hp hne).bind_stays fun _ => stays_pure _

/-- A block after its opening brace. -/
theorem moves_block : Moves P (.brace :: nest) (block E) fun _ => nest := by
  have hstep (statements : List Tree) : Moves P (.brace :: nest) (blockStep E statements)
      (stepNest (.brace :: nest) fun _ => .brace :: nest) := by
    rw [stepNest_const]
    exact moves_blockStep hE statements
  have hstatements : Moves P (.brace :: nest) (blockStatements E) fun _ => .brace :: nest :=
    Moves.bind (stays_bound _) (fun n => Moves.loop hstep List.suffix_rfl n []) List.suffix_rfl
  refine hstatements.bind (fun statements => ?_) (List.suffix_cons ..)
  exact (moves_expectKind_closed rfl).bind_stays fun _ =>
    .bind (stays_require _) fun _ => stays_pure _

/-! ## Strings -/

/-- The code of a placeholder.  After an error the parse may go on behind the placeholder, but not
behind the string. -/
theorem moves_part :
    Moves P (.placeholder :: .string :: nest) (synchronized partStop (E .lowest))
      fun _ => .string :: nest := by
  intro p hp
  obtain ⟨hsuffix, hplace⟩ := hE .lowest (.placeholder :: .string :: nest) p hp
  rcases hr : E .lowest p with ⟨_ | part, clean, q⟩
  · rw [hr] at hsuffix hplace
    simp only [MovesAt, synchronized, hr, Spot.skip]
    exact ⟨(Spot.words_skipWords_suffix ..).trans hsuffix, hP.skip_part hplace ..⟩
  · rw [hr] at hsuffix hplace
    simp only [MovesAt, synchronized, hr]
    exact ⟨hsuffix, hP.inner hplace (List.suffix_cons ..)⟩

/-- A placeholder after its opening brace. -/
theorem moves_placeholder (draft : StringDraft) :
    Moves P (.placeholder :: .string :: nest) (placeholder E draft) fun _ => .string :: nest := by
  have hend : TokenKind.templateEnd.PassesIn (.string :: nest) :=
    ⟨rfl, by rintro _ ⟨⟩; exact ⟨.string, rfl, by decide⟩⟩
  refine (moves_part hE).bind (fun part => ?_) List.suffix_rfl
  refine (moves_skipKind hend).bind_stays fun found => ?_
  exact .ite (stays_pure _) (.bind (stays_check _) fun _ => .ite (stays_pure _) stays_fail)

/-- One word of a string. -/
theorem moves_stringStep (draft : StringDraft) :
    Moves P (.string :: nest) (stringStep E draft)
      (stepNest (.string :: nest) fun _ => nest) := by
  intro p hp
  refine .bind_peek ?_
  have hpass {kind : TokenKind} (hk : p.peek.kind = kind) (h : kind.isNeutral = true) :
      MovesAt P advance (fun _ => Bracket.string :: nest) p :=
    moves_advance hp (hk ▸ TokenKind.passesIn_of_isNeutral h _)
  split
  · rename_i hk
    exact (hpass hk rfl).bind (fun _ => moves_pure rfl) (List.suffix_cons ..)
  · rename_i hk
    refine (hpass hk rfl).bind (fun _ => ?_) (List.suffix_cons ..)
    split
    · exact moves_pure rfl
    · exact (stays_require _ _).bind (fun _ => moves_pure rfl) (List.suffix_cons ..)
  · rename_i hk
    have hopens : p.peek.kind.opens? = some .placeholder := by
      rw [hk]
      rfl
    refine (moves_advance_opened hp hopens).bind_advance ?_
    exact (moves_placeholder hE draft).bind (fun _ => moves_pure rfl) (List.suffix_cons ..)
  · rename_i hk
    exact (moves_advance_closed hp (by rw [hk]; rfl)).bind_advance (moves_pure rfl)
  · rename_i hk
    refine (hpass hk rfl).bind (fun _ => ?_) (List.suffix_cons ..)
    exact (stays_require _ _).bind (fun _ => moves_pure rfl) (List.suffix_cons ..)
  · exact ⟨List.suffix_rfl, hP.inner hp (List.suffix_cons ..)⟩

/-- A string after its opening quote. -/
theorem moves_string : Moves P (.string :: nest) (string E) fun _ => nest := by
  refine Moves.bind (stays_bound _) (fun n => ?_) (List.suffix_cons ..)
  exact (Moves.loop (moves_stringStep hE) (List.suffix_cons ..) n .empty).bind_stays fun _ =>
    stays_pure _

/-! ## Expressions -/

/-- A unary operation after its operator. -/
theorem stays_unary (kind : TokenKind) : Stays P (unary E kind) := by
  unfold unary
  split
  · exact stays_fail
  · intro nest p hp
    refine .bind_look rfl ?_
    split
    · rename_i hnumber
      obtain ⟨-, hfollows⟩ := Bool.and_eq_true_iff.1 hnumber
      have hk : (Expectation.anyOf [.intLiteral, .longLiteral, .floatLiteral,
          .doubleLiteral]).accepts p.peek.kind = true := (Bool.and_eq_true_iff.1 hfollows).1
      have hneutral : p.peek.kind.isNeutral = true := by
        cases hkind : p.peek.kind <;> rw [hkind] at hk <;> first | rfl | cases hk
      exact (moves_advance hp (TokenKind.passesIn_of_isNeutral hneutral nest)).bind_stays
        fun _ => stays_literal _ _
    · exact Moves.bind_stays (hE .unary nest) (fun _ => stays_pure _) p hp

/-- A conditional after its keyword. -/
theorem stays_conditional : Stays P (conditional E) :=
  .bind (stays_expectKind rfl) fun _ => .bind (hE .lowest) fun _ =>
    .bind (stays_expectKind rfl) fun _ => .bind (hE .lowest) fun _ =>
      .bind (stays_optionalExpression (hE .lowest) rfl) fun _ => stays_pure _

/-- An expression in parentheses. -/
theorem stays_group : Stays P (group E) :=
  .bind (hE .lowest) fun _ => .bind (stays_expectKind rfl) fun _ => stays_pure _

/-- What a word begins, after the word. -/
theorem moves_start {word : Word} {rule : StartRule}
    (h : StartRule.ofKind? word.kind = some rule) :
    Moves P (word.kind.opens?.toList ++ nest) (start E word rule) fun _ => nest := by
  have hnone (hrule : rule ≠ .string ∧ rule ≠ .block) : word.kind.opens? = none := by
    cases hk : word.kind <;> rw [hk] at h <;> cases h <;>
      first | rfl | exact absurd rfl hrule.1 | exact absurd rfl hrule.2
  cases rule with
  | string =>
    have hk : word.kind.opens? = some .string := by
      cases hk : word.kind <;> rw [hk] at h <;> cases h; rfl
    rw [hk]
    exact moves_string hE
  | block =>
    have hk : word.kind.opens? = some .brace := by
      cases hk : word.kind <;> rw [hk] at h <;> cases h; rfl
    rw [hk]
    exact moves_block hE
  | literal =>
    rw [hnone (by decide)]
    exact stays_literal _ _ nest
  | reference =>
    rw [hnone (by decide)]
    exact stays_pure _ nest
  | group =>
    rw [hnone (by decide)]
    exact stays_group hE nest
  | unary =>
    rw [hnone (by decide)]
    exact stays_unary hE _ nest
  | conditional =>
    rw [hnone (by decide)]
    exact stays_conditional hE nest

omit hE in
/-- Items of a list up to a closing parenthesis. -/
theorem stays_argumentList {item : Reader Tree} (hitem : Stays P item) :
    Stays P (argumentList item) := by
  have hstep (arguments : List Tree) : Stays P (argumentStep item arguments) :=
    .bind (stays_check _) fun _ => .ite (stays_pure _) (.bind hitem fun _ =>
      .bind (stays_skipKind rfl) fun _ => .ite (stays_pure _) (stays_pure _))
  exact .bind stays_bound fun n => .bind (.loop hstep n []) fun _ =>
    .bind (stays_expectKind rfl) fun _ => stays_pure _

/-- What a word makes of the expression before it, after the word. -/
theorem stays_extend (left : Tree) (word : Word) (rule : ContinueRule) :
    Stays P (extend E left word rule) := by
  cases rule with
  | binary =>
    show Stays P (binary E left word.kind)
    unfold binary
    split
    · exact .bind (hE _) fun _ => stays_pure _
    · exact stays_fail
  | assignment =>
    show Stays P (assignment E left word.kind)
    unfold assignment
    split
    · exact stays_fail
    · exact .bind (hE _) fun _ => stays_pure _
  | infixCall => exact .bind (hE _) fun _ => stays_pure _
  | member => exact .bind stays_name fun _ => stays_pure _
  | invocation => exact .bind (stays_argumentList (hE .lowest)) fun _ => stays_pure _

/-- One more continuation of an expression, or its end. -/
theorem stays_expressionStep (min : Precedence) (left : Tree) :
    Stays P (expressionStep E min left) := by
  intro nest p hp
  refine .bind_peek ?_
  split
  · exact stays_pure _ nest p hp
  · rename_i rule hrule
    have hneutral : p.peek.kind.isNeutral = true := by
      have hk : (ContinueRule.ofKind? p.peek.kind).isSome = true := by
        unfold Parser.continuation? at hrule
        cases hc : ContinueRule.ofKind? p.peek.kind with
        | none => rw [hc] at hrule; cases hrule
        | some _ => rfl
      cases hkind : p.peek.kind <;> rw [hkind] at hk <;> first | rfl | cases hk
    exact (moves_advance hp (TokenKind.passesIn_of_isNeutral hneutral nest)).bind_stays fun word =>
      .bind (stays_extend hE left word rule) fun _ => stays_pure _

omit hE in
/-- Passing over a word that begins an expression. -/
theorem moves_advance_start {rule : StartRule} (hp : P nest p.words)
    (h : StartRule.ofKind? p.peek.kind = some rule) :
    MovesAt P advance (fun _ => p.peek.kind.opens?.toList ++ nest) p := by
  cases ho : p.peek.kind.opens? with
  | some bracket => exact moves_advance_opened hp ho
  | none =>
    have hneutral : p.peek.kind.isNeutral = true := by
      cases hk : p.peek.kind <;> rw [hk] at h ho <;>
        first | rfl | (cases h; done) | cases ho
    exact moves_advance hp (TokenKind.passesIn_of_isNeutral hneutral nest)

/-- An expression, given that smaller ones stay inside brackets. -/
theorem stays_expressionRule (min : Precedence) : Stays P (expressionRule E min) := by
  intro nest p hp
  refine .bind_peek ?_
  split
  · exact stays_fail nest p hp
  · rename_i rule hrule
    refine (moves_advance_start hp hrule).bind_advance ?_
    exact (moves_start hE hrule).bind_stays fun left => .bind stays_bound fun n =>
      .loop (stays_expressionStep hE min) n left

omit hE in
/-- An expression in which expressions nest no deeper than a bound. -/
theorem stays_expressionWithin (n : Nat) (min : Precedence) :
    Stays P (expressionWithin n min) := by
  induction n generalizing min with
  | zero => exact stays_fail
  | succ n ih => exact stays_expressionRule ih min

/-! ## Imports -/

omit hE in
/-- The imported names. -/
theorem stays_importEntries : Stays P importEntries := by
  have hrename : Stays P optionalRename :=
    .bind (stays_skipKind rfl) fun _ => .ite (.bind stays_name fun _ => stays_pure _) (stays_pure _)
  have hentry : Stays P importEntry :=
    .bind stays_name fun _ => .bind hrename fun _ => stays_pure _
  have hstep (entries : List Tree) : Stays P (importStep entries) :=
    .bind (stays_check _) fun _ => .ite (stays_pure _) (.bind hentry fun _ =>
      .bind (stays_skipKind rfl) fun _ => .ite (stays_pure _) (stays_pure _))
  intro nest
  refine (moves_accept?_opened rfl).bind (fun brace => ?_) List.suffix_rfl
  cases brace with
  | none => exact stays_pure _ nest
  | some brace =>
    have hentries : Stays P (do loop importStep (← bound) []) :=
      .bind stays_bound fun n => .loop hstep n []
    exact (hentries (.brace :: nest)).bind (fun _ => (moves_expectKind_closed rfl).bind_stays
      fun _ => stays_pure _) (List.suffix_cons ..)

/-- The path of an import. -/
theorem stays_importPath : Stays P (importPath E) := by
  intro nest
  refine (moves_expectKind_opened rfl).bind (fun _ => ?_) List.suffix_rfl
  refine (moves_string hE).bind_stays fun path => ?_
  split
  · exact stays_pure _
  · exact stays_fail

/-- What is left of an import after its first word. -/
theorem stays_importTail : Stays P (importTail E) :=
  .bind (stays_importPath hE) fun _ => .bind stays_importEntries fun _ =>
    .bind (stays_skipKind rfl) fun _ => stays_pure _

/-! ## Functions -/

/-- An argument of a function. -/
theorem stays_argument : Stays P (argument E) := by
  have hfollows : Stays P namedArgumentFollows := stays_of_rest fun _ => rfl
  have hnamed : Stays P (namedArgument E) := by
    refine .bind stays_name fun name => .bind stays_optionalType fun type =>
      .bind (stays_optionalExpression (hE .assignment) rfl) fun init => ?_
    cases init with
    | none => exact stays_pure _
    | some init => exact stays_pure _
  exact .bind hfollows fun _ => .ite hnamed (.bind (hE .lowest) fun _ => stays_pure _)

/-- The body of a function. -/
theorem stays_functionBody : Stays P (functionBody E) := by
  intro nest p hp
  refine .bind_peek ?_
  split
  · rename_i hk
    refine (moves_advance_opened hp (by rw [hk]; rfl)).bind_advance ?_
    exact moves_block hE
  · rename_i hk
    refine (moves_advance hp (hk ▸ TokenKind.passesIn_of_isNeutral rfl nest)).bind_stays fun _ => ?_
    exact .bind (hE .lowest) fun _ => .bind stays_terminator fun _ => stays_pure _
  · exact stays_fail nest p hp

/-- What is left of a function after the word that begins it. -/
theorem stays_functionTail (isInfix : Bool) : Stays P (functionTail E isInfix) := by
  have hrest : Stays P (functionRest E) :=
    .bind (stays_expectKind rfl) fun _ => .bind (stays_argumentList (stays_argument hE)) fun _ =>
      .bind stays_optionalType fun _ => .bind (stays_functionBody hE) fun _ => stays_pure _
  exact .bind stays_name fun _ => .bind hrest fun _ => .bind (stays_require _) fun _ => stays_pure _

end

end ExprLang.Reader
