import ExprLang.Proofs.Reader.Unterminated

/-!
# What comes behind a semicolon

A semicolon ends a statement, a function or an import.  In a source that is read
without an error, what comes behind it is the beginning of another one, the brace that
closes the block, or the end of the source.

Main definitions:

- Definition {lit}`Reader.Gets`: where a reader gets that finds no error.

Main results:

- Theorem {lit}`Reader.followsEnd_of_entry`: the word behind a semicolon.
-/

namespace ExprLang

/-! ## Places before a semicolon -/

/-- A semicolon is to come, with some words behind it. -/
def ToCome (semicolon : Word) (back ws : List Word) : Prop :=
  ∃ front, (∀ w ∈ front, w.kind ≠ .endOfFile) ∧ ws = front ++ semicolon :: back

/-- A semicolon is to come or was the last word. -/
def Reaches (semicolon : Word) (back ws : List Word) : Prop :=
  ToCome semicolon back ws ∨ ws = back

/-- A semicolon before words of which the first belongs to nothing that can come behind it. -/
structure Misplaced (semicolon : Word) (back : List Word) : Prop where
  kind_eq : semicolon.kind = .semicolon
  follows : (Spot.start back).peek.kind.followsEnd = false

section

variable {semicolon : Word} {back : List Word} {p : Spot}

/-- Where a semicolon is to come the source does not end. -/
theorem ToCome.kind_ne (h : Misplaced semicolon back) (hp : ToCome semicolon back p.words) :
    p.peek.kind ≠ .endOfFile := by
  obtain ⟨_ | ⟨w, front⟩, hfront, hwords⟩ := hp
  · rw [show p.peek = semicolon by simp [Spot.peek, Spot.lookAhead, hwords], h.kind_eq]
    decide
  · rw [show p.peek = w by simp [Spot.peek, Spot.lookAhead, hwords]]
    exact hfront w (List.mem_cons_self ..)

/-- Behind the next word the semicolon is to come, or it was that word. -/
theorem ToCome.advance (hp : ToCome semicolon back p.words) :
    Reaches semicolon back p.advance.words := by
  rw [Spot.words_advance]
  obtain ⟨_ | ⟨w, front⟩, hfront, hwords⟩ := hp
  · exact .inr (by rw [hwords]; rfl)
  · exact .inl ⟨front, fun v hv => hfront v (List.mem_cons_of_mem _ hv), by rw [hwords]; rfl⟩

/-- Behind another word the semicolon is to come. -/
theorem ToCome.advance_of_ne (h : Misplaced semicolon back) (hp : ToCome semicolon back p.words)
    (hk : p.peek.kind ≠ .semicolon) : ToCome semicolon back p.advance.words := by
  rw [Spot.words_advance]
  obtain ⟨_ | ⟨w, front⟩, hfront, hwords⟩ := hp
  · rw [show p.peek = semicolon by simp [Spot.peek, Spot.lookAhead, hwords]] at hk
    exact absurd h.kind_eq hk
  · exact ⟨front, fun v hv => hfront v (List.mem_cons_of_mem _ hv), by rw [hwords]; rfl⟩

/-- Before a word that can come behind a semicolon, this semicolon is to come. -/
theorem Reaches.toCome (h : Misplaced semicolon back) (hp : Reaches semicolon back p.words)
    (hk : p.peek.kind.followsEnd = true) : ToCome semicolon back p.words := by
  refine hp.resolve_right fun hwords => ?_
  have hfollows := h.follows
  have hpeek : (Spot.start back).peek = p.peek := by simp [Spot.peek, Spot.lookAhead, hwords]
  rw [hpeek, hk] at hfollows
  cases hfollows

/-- Behind a word that can come behind a semicolon, this semicolon is to come. -/
theorem Reaches.advance (h : Misplaced semicolon back) (hp : Reaches semicolon back p.words)
    (hk : p.peek.kind.followsEnd = true) : ToCome semicolon back p.advance.words := by
  refine (hp.toCome h hk).advance_of_ne h fun hsemicolon => ?_
  rw [hsemicolon] at hk
  cases hk

/-- Where the semicolon is to come or was the last word the source does not end. -/
theorem Reaches.kind_ne (h : Misplaced semicolon back) (hp : Reaches semicolon back p.words) :
    p.peek.kind ≠ .endOfFile := by
  intro hk
  exact (hp.toCome h (by rw [hk]; rfl)).kind_ne h hk

end

namespace Reader

/-! ## Readers and places -/

/-- Where a reader that finds no error gets from a place. -/
def GetsAt {α : Type} (r : Reader α) (Q : List Word → Prop) (p : Spot) : Prop :=
  ∀ a q, r p = ⟨some a, true, q⟩ → Q q.words

/-- Where a reader that finds no error gets from the places with a property. -/
def Gets {α : Type} (P : List Word → Prop) (r : Reader α) (Q : List Word → Prop) : Prop :=
  ∀ p, P p.words → GetsAt r Q p

variable {α β : Type} {P Q R : List Word → Prop} {r : Reader α} {f : α → Reader β} {p : Spot}

/-- Two readers in sequence. -/
theorem GetsAt.bind (hr : GetsAt r Q p) (hf : ∀ a, Gets Q (f a) R) : GetsAt (r >>= f) R p := by
  intro b q h
  obtain ⟨a, m, hra, hfa⟩ := exists_of_bind h
  exact hf a m (hr a m hra) b q hfa

/-- Two readers in sequence. -/
theorem Gets.bind (hr : Gets P r Q) (hf : ∀ a, Gets Q (f a) R) : Gets P (r >>= f) R :=
  fun p hp => (hr p hp).bind hf

/-- The first reader ends in a known place. -/
theorem GetsAt.bind_clean {a : α} {q : Spot} (hr : r p = ⟨some a, true, q⟩)
    (hf : GetsAt (f a) R q) : GetsAt (r >>= f) R p := by
  intro b m h
  rw [bind_apply_of_clean hr] at h
  exact hf b m h

theorem GetsAt.mono (hr : GetsAt r Q p) (h : ∀ ws, Q ws → R ws) : GetsAt r R p :=
  fun a q hread => h _ (hr a q hread)

theorem Gets.mono {P' Q' : List Word → Prop} (hr : Gets P r Q) (hp : ∀ ws, P' ws → P ws)
    (hq : ∀ ws, Q ws → Q' ws) : Gets P' r Q' :=
  fun p hpre => (hr p (hp _ hpre)).mono hq

/-- A reader that goes nowhere. -/
theorem gets_of_rest (h : ∀ p, (r p).rest = p) : Gets P r P := by
  intro p hp a q hread
  have hrest := h p
  rw [hread] at hrest
  rwa [show q = p from hrest]

theorem gets_pure (a : α) : Gets P (pure a) P := gets_of_rest fun _ => rfl

theorem gets_fail : Gets P (fail : Reader α) Q := fun _ _ _ _ h => by cases h

theorem gets_require (holds : Bool) : Gets P (require holds) P := gets_of_rest fun _ => rfl

theorem gets_bound : Gets P bound P := gets_of_rest fun _ => rfl

theorem gets_check (e : Expectation) : Gets P (check e) P := gets_of_rest fun _ => rfl

theorem Gets.ite {c : Prop} [Decidable c] {r' : Reader α} (h : Gets P r Q) (h' : Gets P r' Q) :
    Gets P (if c then r else r') Q := by
  split
  · exact h
  · exact h'

/-- Repetition. -/
theorem Gets.loop {step : α → Reader (α ⊕ β)} (h : ∀ a, Gets P (step a) P) (n : Nat) (a : α) :
    Gets P (loop step n a) P := by
  induction n generalizing a with
  | zero => exact gets_fail
  | succ n ih =>
    refine (h a).bind fun x => ?_
    cases x with
    | inl a => exact ih a
    | inr b => exact gets_pure b

/-- A synchronization point where the parse does not recover. -/
theorem GetsAt.synchronized (hr : GetsAt r Q p) (stop : Expectation) :
    GetsAt (synchronized stop r) Q p := by
  intro value q h
  rcases hread : r p with ⟨_ | a, clean, m⟩
  · simp only [Reader.synchronized, hread] at h
    cases h
  · simp only [Reader.synchronized, hread, Reading.mk.injEq] at h
    obtain ⟨-, rfl, rfl⟩ := h
    exact hr a m hread

/-! ## Words -/

section

variable {semicolon : Word} {back : List Word} {E : ExpressionReader} {kind : TokenKind}
  {e : Expectation}

variable (h : Misplaced semicolon back)
include h

/-- A word other than a semicolon is passed over if there is one. -/
theorem gets_skipKind (hk : kind ≠ .semicolon) :
    Gets (ToCome semicolon back) (skipKind kind) (ToCome semicolon back) := by
  intro p hp found q hread
  rw [skipKind_apply] at hread
  split at hread
  · rename_i hkind
    cases hread
    exact hp.advance_of_ne h (hkind ▸ hk)
  · cases hread
    exact hp

/-- A word other than a semicolon is passed over. -/
theorem gets_expect (he : e.accepts .semicolon = false) :
    Gets (ToCome semicolon back) (expect e) (ToCome semicolon back) := by
  intro p hp w q hread
  rw [expect_apply] at hread
  split at hread
  · rename_i hkind
    cases hread
    refine hp.advance_of_ne h fun hsemicolon => ?_
    rw [hsemicolon, he] at hkind
    cases hkind
  · cases hread

theorem gets_expectKind (hk : kind ≠ .semicolon) :
    Gets (ToCome semicolon back) (expectKind kind) (ToCome semicolon back) :=
  gets_expect h (by simpa using hk)

theorem gets_name : Gets (ToCome semicolon back) name (ToCome semicolon back) :=
  gets_expect h rfl

/-- A word that can come behind a semicolon is passed over. -/
theorem gets_expectKind_of_followsEnd (hk : kind.followsEnd = true) :
    Gets (Reaches semicolon back) (expectKind kind) (ToCome semicolon back) := by
  intro p hp w q hread
  rw [expectKind, expect_apply] at hread
  split at hread
  · rename_i hkind
    cases hread
    exact hp.advance h (eq_of_beq hkind ▸ hk)
  · cases hread

omit h in
/-- The next word is passed over before what follows it. -/
theorem GetsAt.advance_then {α : Type} {f : Word → Reader α} {Q R : List Word → Prop} {p : Spot}
    (hp : Q p.advance.words) (hf : Gets Q (f p.peek) R) : GetsAt (advance >>= f) R p :=
  .bind_clean rfl (hf _ hp)

/-! ## Strings -/

variable (hE : ∀ min, Gets (Reaches semicolon back) (E min) (ToCome semicolon back))

omit h in
include hE in
theorem gets_expression (min : Precedence) :
    Gets (ToCome semicolon back) (E min) (ToCome semicolon back) :=
  (hE min).mono (fun _ => .inl) fun _ => id

omit h in
theorem gets_literal {P : List Word → Prop} (kind : TokenKind) (text : String) :
    Gets P (literal kind text) P := by
  unfold literal
  split
  · exact gets_pure _
  · exact gets_fail

include hE in
/-- A placeholder after its opening brace. -/
theorem gets_placeholder (draft : StringDraft) :
    Gets (ToCome semicolon back) (placeholder E draft) (ToCome semicolon back) := by
  have hpart : Gets (ToCome semicolon back)
      (synchronized (.category [.stringPartEnd]) (E .lowest)) (ToCome semicolon back) :=
    fun p hp => (gets_expression hE .lowest p hp).synchronized _
  exact hpart.bind fun _ => (gets_skipKind h (by decide)).bind fun _ => .ite (gets_pure _)
    ((gets_check _).bind fun _ => .ite (gets_pure _) gets_fail)

include hE in
/-- One word of a string. -/
theorem gets_stringStep (draft : StringDraft) :
    Gets (ToCome semicolon back) (stringStep E draft) (ToCome semicolon back) := by
  intro p hp
  refine .bind_clean (show peek p = ⟨some p.peek, true, p⟩ from rfl) ?_
  have hnext {f : Word → Reader (StringDraft ⊕ StringDraft)} (hk : p.peek.kind ≠ .semicolon)
      (hf : Gets (ToCome semicolon back) (f p.peek) (ToCome semicolon back)) :
      GetsAt (advance >>= f) (ToCome semicolon back) p :=
    .advance_then (hp.advance_of_ne h hk) hf
  cases hk : p.peek.kind with
  | stringContent => exact hnext (by simp [hk]) (gets_pure _)
  | stringEscape =>
    refine hnext (by simp [hk]) ?_
    split
    · exact gets_pure _
    · exact (gets_require false).bind fun _ => gets_pure _
  | templateStart =>
    exact hnext (by simp [hk]) ((gets_placeholder h hE draft).bind fun _ => gets_pure _)
  | stringEnd => exact hnext (by simp [hk]) (gets_pure _)
  | unexpectedCharacter =>
    exact hnext (by simp [hk]) ((gets_require false).bind fun _ => gets_pure _)
  | _ => exact gets_fail p hp

include hE in
/-- A string after its opening quote. -/
theorem gets_string : Gets (ToCome semicolon back) (string E) (ToCome semicolon back) :=
  gets_bound.bind fun n => (Gets.loop (gets_stringStep h hE) n .empty).bind fun _ => gets_pure _

/-! ## Types -/

/-- A colon and a type, or nothing. -/
theorem gets_optionalType :
    Gets (ToCome semicolon back) optionalType (ToCome semicolon back) := by
  have hstep (path : String) :
      Gets (ToCome semicolon back) (typeStep path) (ToCome semicolon back) :=
    (gets_skipKind h (by decide)).bind fun _ =>
      .ite ((gets_name h).bind fun _ => gets_pure _) (gets_pure _)
  have hname : Gets (ToCome semicolon back) typeName (ToCome semicolon back) :=
    (gets_name h).bind fun _ => gets_bound.bind fun n => .loop hstep n _
  exact (gets_skipKind h (by decide)).bind fun _ =>
    .ite (hname.bind fun _ => gets_pure _) (gets_pure _)

/-! ## Statements -/

omit h in
/-- The end of a statement may take the semicolon. -/
theorem gets_terminator : Gets (ToCome semicolon back) terminator (Reaches semicolon back) := by
  intro p hp a q hread
  rw [terminator_apply] at hread
  split at hread
  · cases hread
    exact hp.advance
  · split at hread
    · cases hread
      exact .inl hp
    · cases hread

include hE in
/-- An expression after a word of some kind, if there is such a word. -/
theorem gets_optionalExpression (min : Precedence) (hk : kind ≠ .semicolon) :
    Gets (ToCome semicolon back) (optionalExpression (E min) kind) (ToCome semicolon back) :=
  (gets_skipKind h hk).bind fun _ =>
    .ite ((gets_expression hE min).bind fun _ => gets_pure _) (gets_pure none)

include hE in
/-- A statement without the semicolon that ends it. -/
theorem gets_statementBody :
    Gets (Reaches semicolon back) (statementBody E) (ToCome semicolon back) := by
  intro p hp
  refine .bind_clean (show peek p = ⟨some p.peek, true, p⟩ from rfl) ?_
  have hvariable (hk : p.peek.kind.followsEnd = true) :
      GetsAt (localVariable E) (ToCome semicolon back) p :=
    .advance_then (hp.advance h hk) ((gets_name h).bind fun _ => (gets_optionalType h).bind
      fun _ => (gets_optionalExpression h hE .lowest (by decide)).bind fun _ => gets_pure _)
  cases hk : p.peek.kind with
  | wordVal => exact hvariable (by rw [hk]; rfl)
  | wordVar => exact hvariable (by rw [hk]; rfl)
  | wordReturn =>
    exact .advance_then (hp.advance h (by rw [hk]; rfl)) ((gets_check _).bind fun _ =>
      .ite (gets_pure _) ((gets_expression hE .lowest).bind fun _ => gets_pure _))
  | _ => exact ((hE .lowest).bind fun _ => gets_pure _) p hp

include hE in
/-- A statement. -/
theorem gets_statementRule :
    Gets (Reaches semicolon back) (statementRule E) (Reaches semicolon back) :=
  (gets_statementBody h hE).bind fun _ => gets_terminator.bind fun _ => gets_pure _

include hE in
/-- A block after its opening brace. -/
theorem gets_block : Gets (ToCome semicolon back) (block E) (ToCome semicolon back) := by
  have hstep (statements : List Tree) :
      Gets (Reaches semicolon back) (blockStep E statements) (Reaches semicolon back) := by
    have hstatement (stop : Expectation) : Gets (Reaches semicolon back)
        (synchronized stop (statementRule E)) (Reaches semicolon back) :=
      fun p hp => (gets_statementRule h hE p hp).synchronized stop
    exact (gets_check _).bind fun _ => .ite (gets_pure _)
      ((hstatement _).bind fun _ => gets_pure _)
  have hstatements : Gets (Reaches semicolon back) (blockStatements E) (Reaches semicolon back) :=
    gets_bound.bind fun n => .loop hstep n []
  refine (hstatements.mono (fun _ => .inl) fun _ => id).bind fun _ => ?_
  exact (gets_expectKind_of_followsEnd h rfl).bind fun _ => (gets_require _).bind fun _ =>
    gets_pure _

/-! ## Expressions -/

include hE in
/-- A unary operation after its operator. -/
theorem gets_unary (kind : TokenKind) :
    Gets (ToCome semicolon back) (unary E kind) (ToCome semicolon back) := by
  unfold unary
  split
  · exact gets_fail
  · intro p hp
    refine .bind_clean rfl ?_
    split
    · rename_i hnumber
      obtain ⟨-, hfollows⟩ := Bool.and_eq_true_iff.1 hnumber
      refine .advance_then (hp.advance_of_ne h fun hk => ?_) (gets_literal _ _)
      have hkind : p.peek.kind.isNumber = true := (Bool.and_eq_true_iff.1 hfollows).1
      rw [show p.peek.kind = .semicolon from hk] at hkind
      cases hkind
    · exact ((gets_expression hE .unary).bind fun _ => gets_pure _) p hp

include hE in
/-- What a word begins. -/
theorem gets_start (word : Word) (rule : StartRule) :
    Gets (ToCome semicolon back) (start E word rule) (ToCome semicolon back) := by
  have hlowest := gets_expression hE .lowest
  cases rule with
  | literal => exact gets_literal _ _
  | reference => exact gets_pure _
  | string => exact gets_string h hE
  | group =>
    exact hlowest.bind fun _ => (gets_expectKind h (by decide)).bind fun _ => gets_pure _
  | unary => exact gets_unary h hE _
  | conditional =>
    exact (gets_expectKind h (by decide)).bind fun _ => hlowest.bind fun _ =>
      (gets_expectKind h (by decide)).bind fun _ => hlowest.bind fun _ =>
        (gets_optionalExpression h hE .lowest (by decide)).bind fun _ => gets_pure _
  | block => exact gets_block h hE

/-- Items separated by commas, up to a closing word. -/
theorem gets_list {closing : TokenKind} (hk : closing ≠ .semicolon) {item : Reader Tree}
    (hitem : Gets (ToCome semicolon back) item (ToCome semicolon back)) :
    Gets (ToCome semicolon back)
      (bound >>= fun n => loop (listStep closing item) n [] >>= fun items =>
        expectKind closing >>= fun _ => pure items) (ToCome semicolon back) := by
  have hstep (items : List Tree) : Gets (ToCome semicolon back) (listStep closing item items)
      (ToCome semicolon back) :=
    (gets_check _).bind fun _ => .ite (gets_pure _) (hitem.bind fun _ =>
      (gets_skipKind h (by decide)).bind fun _ => .ite (gets_pure _) (gets_pure _))
  exact gets_bound.bind fun n => (Gets.loop hstep n []).bind fun _ =>
    (gets_expectKind h hk).bind fun _ => gets_pure _

/-- Items separated by commas, up to a closing parenthesis. -/
theorem gets_argumentList {item : Reader Tree}
    (hitem : Gets (ToCome semicolon back) item (ToCome semicolon back)) :
    Gets (ToCome semicolon back) (argumentList item) (ToCome semicolon back) :=
  gets_list h (show TokenKind.rightParen ≠ .semicolon by decide) hitem

include hE in
/-- What a word makes of the expression before it. -/
theorem gets_extend (left : Tree) (word : Word) (rule : ContinueRule) :
    Gets (ToCome semicolon back) (extend E left word rule) (ToCome semicolon back) := by
  cases rule with
  | binary =>
    show Gets _ (binary E left word.kind) _
    unfold binary
    split
    · exact (gets_expression hE _).bind fun _ => gets_pure _
    · exact gets_fail
  | assignment =>
    show Gets _ (assignment E left word.kind) _
    unfold assignment
    split
    · exact gets_fail
    · exact (gets_expression hE _).bind fun _ => gets_pure _
  | infixCall => exact (gets_expression hE _).bind fun _ => gets_pure _
  | member => exact (gets_name h).bind fun _ => gets_pure _
  | invocation =>
    exact (gets_argumentList h (gets_expression hE .lowest)).bind fun _ => gets_pure _

include hE in
/-- One more continuation of an expression, or its end. -/
theorem gets_expressionStep (min : Precedence) (left : Tree) :
    Gets (ToCome semicolon back) (expressionStep E min left) (ToCome semicolon back) := by
  intro p hp
  refine .bind_clean (show peek p = ⟨some p.peek, true, p⟩ from rfl) ?_
  split
  · exact gets_pure _ p hp
  · rename_i rule hrule
    refine .advance_then (hp.advance_of_ne h fun hk => ?_)
      ((gets_extend h hE left _ rule).bind fun _ => gets_pure _)
    rw [hk] at hrule
    cases min <;> cases hrule

include hE in
/-- An expression, given the reader for smaller ones. -/
theorem gets_expressionRule (min : Precedence) :
    Gets (Reaches semicolon back) (expressionRule E min) (ToCome semicolon back) := by
  intro p hp
  refine .bind_clean (show peek p = ⟨some p.peek, true, p⟩ from rfl) ?_
  split
  · exact fun _ _ hread => by cases hread
  · rename_i rule hrule
    refine .advance_then (hp.advance h ?_) ((gets_start h hE _ rule).bind fun left =>
      gets_bound.bind fun n => .loop (gets_expressionStep h hE min) n left)
    rw [TokenKind.followsEnd, hrule]
    rfl

omit hE in
/-- An expression in which expressions nest no deeper than a bound. -/
theorem gets_expressionWithin (n : Nat) (min : Precedence) :
    Gets (Reaches semicolon back) (expressionWithin n min) (ToCome semicolon back) := by
  induction n generalizing min with
  | zero => exact gets_fail
  | succ n ih => exact gets_expressionRule h ih min

/-! ## Imports and functions -/

include hE in
/-- An import. -/
theorem gets_importRule :
    Gets (Reaches semicolon back) (importRule E) (Reaches semicolon back) := by
  have hpath : Gets (ToCome semicolon back) (importPath E) (ToCome semicolon back) := by
    refine (gets_expectKind h (by decide)).bind fun _ => (gets_string h hE).bind fun tree => ?_
    split
    · exact gets_pure _
    · exact gets_fail
  have hrename : Gets (ToCome semicolon back) optionalRename (ToCome semicolon back) :=
    (gets_skipKind h (by decide)).bind fun _ =>
      .ite ((gets_name h).bind fun _ => gets_pure _) (gets_pure _)
  have hentry : Gets (ToCome semicolon back) importEntry (ToCome semicolon back) :=
    (gets_name h).bind fun _ => hrename.bind fun _ => gets_pure _
  have hentries : Gets (ToCome semicolon back) importEntries (ToCome semicolon back) := by
    have hbrace : Gets (ToCome semicolon back) (accept? (.kind .leftBrace))
        (ToCome semicolon back) := by
      intro p hp brace q hread
      rw [accept?_apply] at hread
      split at hread
      · rename_i hk
        cases hread
        exact hp.advance_of_ne h (by rw [← eq_of_beq hk]; decide)
      · cases hread
        exact hp
    refine hbrace.bind fun brace => ?_
    cases brace with
    | none => exact gets_pure _
    | some brace => exact gets_list h (show TokenKind.rightBrace ≠ .semicolon by decide) hentry
  have hend : Gets (ToCome semicolon back) (skipKind .semicolon) (Reaches semicolon back) := by
    intro p hp found q hread
    rw [skipKind_apply] at hread
    split at hread <;> cases hread
    · exact hp.advance
    · exact .inl hp
  exact (gets_expectKind_of_followsEnd h rfl).bind fun _ => hpath.bind fun _ =>
    hentries.bind fun _ => hend.bind fun _ => gets_pure _

include hE in
/-- A function. -/
theorem gets_function :
    Gets (Reaches semicolon back) (function E) (Reaches semicolon back) := by
  have hnamed : Gets (ToCome semicolon back) (namedArgument E) (ToCome semicolon back) := by
    refine (gets_name h).bind fun _ => (gets_optionalType h).bind fun _ =>
      (gets_optionalExpression h hE .assignment (by decide)).bind fun default => ?_
    cases default with
    | none => exact gets_pure _
    | some default => exact gets_pure _
  have hfollows : Gets (ToCome semicolon back) namedArgumentFollows (ToCome semicolon back) :=
    gets_of_rest fun _ => rfl
  have hargument : Gets (ToCome semicolon back) (argument E) (ToCome semicolon back) :=
    hfollows.bind fun _ => .ite hnamed ((gets_expression hE .lowest).bind fun _ => gets_pure _)
  have hbody : Gets (ToCome semicolon back) (functionBody E) (Reaches semicolon back) := by
    intro p hp
    refine .bind_clean (show peek p = ⟨some p.peek, true, p⟩ from rfl) ?_
    cases hk : p.peek.kind with
    | leftBrace =>
      exact .advance_then (hp.advance_of_ne h (by simp [hk]))
        ((gets_block h hE).mono (fun _ => id) fun _ => .inl)
    | assign =>
      exact .advance_then (hp.advance_of_ne h (by simp [hk])) ((gets_expression hE .lowest).bind
        fun _ => gets_terminator.bind fun _ => gets_pure _)
    | _ => exact gets_fail p hp
  have hrest : Gets (ToCome semicolon back) (functionRest E) (Reaches semicolon back) :=
    (gets_expectKind h (by decide)).bind fun _ => (gets_argumentList h hargument).bind fun _ =>
      (gets_optionalType h).bind fun _ => hbody.bind fun _ => gets_pure _
  have hinfix : Gets (Reaches semicolon back) (skipKind .wordInfix) (Reaches semicolon back) := by
    intro p hp found q hread
    rw [skipKind_apply] at hread
    split at hread
    · rename_i hk
      cases hread
      exact .inl (hp.advance h (hk ▸ rfl))
    · cases hread
      exact hp
  exact hinfix.bind fun _ => (gets_expectKind_of_followsEnd h rfl).bind fun _ =>
    (gets_name h).bind fun _ => hrest.bind fun _ => (gets_require _).bind fun _ => gets_pure _

/-! ## Sources -/

omit hE in
/-- A unit does not end before the semicolon or behind it. -/
theorem unitItems_ne (n : Nat) (items items' : TreeItems) {p q : Spot}
    (hp : Reaches semicolon back p.words) :
    loop unitStep n items p ≠ ⟨some items', true, q⟩ := by
  induction n generalizing items p with
  | zero => intro hread; cases hread
  | succ n ih =>
    intro hread
    obtain ⟨x, m, hstep, hrest⟩ := exists_of_bind hread
    obtain ⟨found, m', hcheck, hstep⟩ := exists_of_bind hstep
    rw [checkKind, check_apply, Expectation.accepts_kind,
      beq_eq_false_iff_ne.2 (Ne.symm (hp.kind_ne h))] at hcheck
    cases hcheck
    obtain ⟨item, m', hitem, hend⟩ := exists_of_bind hstep
    cases hend
    have htopLevel (k : Nat) : Gets (Reaches semicolon back) (topLevel (expressionWithin k))
        (Reaches semicolon back) := by
      intro p hp
      refine .bind_clean (show peek p = ⟨some p.peek, true, p⟩ from rfl) ?_
      split
      · exact gets_importRule h (gets_expressionWithin h k) p hp
      · exact gets_function h (gets_expressionWithin h k) p hp
      · exact gets_function h (gets_expressionWithin h k) p hp
      · exact gets_fail p hp
    exact ih _ (((gets_bound.bind htopLevel p hp).synchronized _) _ _ hitem) hrest

omit hE in
/-- A source does not end before the semicolon or behind it. -/
theorem toEnd_ne {r : Reader Tree} (hr : Gets (Reaches semicolon back) r (Reaches semicolon back))
    {tree : Tree} {p q : Spot} (hp : Reaches semicolon back p.words) :
    toEnd r p ≠ ⟨some tree, true, q⟩ := by
  intro hread
  obtain ⟨found, m, hbody, hread⟩ := exists_of_bind hread
  obtain ⟨w, m', hend, -⟩ := exists_of_bind hread
  have hk := (hr p hp _ _ hbody).kind_ne h
  rw [expectKind, expect_apply, Expectation.accepts_kind,
    if_neg (by simpa using Ne.symm hk)] at hend
  cases hend

end

/-- In a source that is read without an error, what comes behind a semicolon begins something or
closes a block or ends the source. -/
theorem followsEnd_of_entry {e : Entry} {front back : List Word} {semicolon : Word} {tree : Tree}
    {q : Spot} (hk : semicolon.kind = .semicolon) (hfront : ∀ w ∈ front, w.kind ≠ .endOfFile)
    (hread : entry e (.start (front ++ semicolon :: back)) = ⟨some tree, true, q⟩) :
    (Spot.start back).peek.kind.followsEnd = true := by
  by_contra hnot
  have h : Misplaced semicolon back := ⟨hk, by simpa using hnot⟩
  have hp : Reaches semicolon back (Spot.start (front ++ semicolon :: back)).words :=
    .inl ⟨front, hfront, rfl⟩
  cases e with
  | unit =>
    obtain ⟨items, m, hitems, -⟩ := exists_of_bind hread
    obtain ⟨n, m, hbound, hitems⟩ := exists_of_bind hitems
    cases hbound
    exact unitItems_ne h _ _ _ hp hitems
  | expression =>
    refine toEnd_ne h (gets_bound.bind fun n => ?_) hp hread
    exact (gets_expressionWithin h n .lowest).mono (fun _ => id) fun _ => .inl
  | statement =>
    exact toEnd_ne h (gets_bound.bind fun n => gets_statementRule h (gets_expressionWithin h n))
      hp hread

end Reader

end ExprLang
