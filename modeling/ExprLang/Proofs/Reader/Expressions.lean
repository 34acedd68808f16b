import ExprLang.Proofs.Reader.Statements

/-!
# Reading expressions

An expression begins with a piece that is read for itself.  Members, calls and
operators go on from there, so what stands at the head of an expression is read
before everything that can go on with it.

Main definitions:

- Definition {lit}`Reader.Heads`: words at the head of an expression.

Main results:

- Theorem {lit}`Reader.Covers.heads_words`: expressions at the head of others.
- Theorem {lit}`Reader.Covers.next`: a reader for longer expressions.
- Theorem {lit}`Reader.covers_expressionWithin`: how much the readers for
  expressions read.
-/

namespace ExprLang

namespace Reader

open ExprLang.Tree

variable {E : ExpressionReader} {n : Nat} {p : Prop} {tree left : Tree} {min : Precedence}
  {loose : Bool} {ws rest out : List Word}

/-! ## Heads -/

/-- Some words are read as a tree at the head of an expression, and what follows them goes on
from there. -/
def Heads (p : Prop) (E : ExpressionReader) (min : Precedence) (loose : Bool) (ws : List Word)
    (tree : Tree) : Prop :=
  ∀ ⦃rest : List Word⦄ ⦃result : Tree⦄ ⦃out : List Word⦄,
    (loose = true → Stops true (nextKind rest)) →
      (∀ m, rest.length < m → Reads p (loop (expressionStep E min) m tree) rest result out) →
        Reads p (expressionRule E min) (ws ++ rest) result out

/-- Words that begin an expression. -/
theorem heads_of_start {w : Word} {rule : StartRule} (hw : StartRule.ofKind? w.kind = some rule)
    (h : ∀ rest, (loose = true → Stops true (nextKind rest)) →
      Reads p (start E w rule) (ws ++ rest) tree rest) : Heads p E min loose (w :: ws) tree := by
  intro rest result out hloose hloop
  refine .bind .peek ?_
  rw [hw]
  exact .bind .advance (.bind (h rest hloose) (.bind_bound hloop))

/-- An opening parenthesis binds more strongly than anything but the access to members and calls. -/
theorem continuation?_leftParen (hmin : min ≠ .postfixCall) :
    Parser.continuation? min (Word.mark .leftParen).kind = some .invocation := by
  cases min <;> first
    | rfl
    | exact absurd rfl hmin

/-- Words that go on with an expression. -/
theorem Heads.extend (h : Heads p E min false ws left) {w : Word} {vs : List Word}
    {rule : ContinueRule} (hw : Parser.continuation? min w.kind = some rule)
    (hstep : ∀ rest, (loose = true → Stops true (nextKind rest)) →
      Reads p (extend E left w rule) (vs ++ rest) tree rest) :
    Heads p E min loose (ws ++ w :: vs) tree := by
  intro rest result out hloose hloop
  rw [List.append_assoc, List.cons_append]
  refine h nofun fun m hm => .loop_next hm ?_ ?_ hloop
  · refine .bind .peek ?_
    rw [hw]
    exact .bind .advance (.bind (hstep rest hloose) (.pure _))
  · simp only [List.length_cons, List.length_append]
    omega

/-- The end of an expression. -/
theorem reads_loop_end {m : Nat} (hm : rest.length < m) (hs : Stops loose (nextKind rest)) :
    Reads p (loop (expressionStep E min) m tree) rest tree rest := by
  have hnone : Parser.continuation? min (nextKind rest) = none := by
    rw [Parser.continuation?, hs.1]
    rfl
  refine .loop_end hm (.bind .look ?_)
  rw [← nextKind, hnone]
  exact .pure _

/-- Words at the head of an expression that nothing goes on with. -/
theorem Heads.reads (h : Heads p E min loose ws tree) (hs : Stops loose (nextKind rest)) :
    Reads p (expressionRule E min) (ws ++ rest) tree rest :=
  h (fun hloose => hloose ▸ hs) fun _ hm => reads_loop_end hm hs

/-! ## Literals and strings -/

/-- A value is read from its word. -/
theorem reads_literal {kind : TokenKind} {text : String} {value : Literal}
    (h : Literal.ofToken kind text = .ok (.ok value)) :
    Reads p (literal kind text) rest (.literal value) rest := by
  unfold literal
  rw [h]
  exact .pure _

/-- A string without placeholders, after its opening quote. -/
theorem reads_stringLiteral (text : String) :
    Reads p (string E) (textWords text.toList ++ ⟨.stringEnd, "\""⟩ :: rest)
      (.literal (.string text)) rest := by
  have hread : Reads p (string E)
      (segmentWords [] [(some text, [])] ++ ⟨.stringEnd, "\""⟩ :: rest)
      (draft [(some text, .literal (.string text))]).finish rest :=
    reads_string (.cons ⟨rfl, nofun⟩ .nil)
  have hfinish : (draft [(some text, .literal (.string text))]).finish =
      .literal (.string text) := by
    by_cases he : text = ""
    · simp [draft, StringDraft.add, StringDraft.extend, StringDraft.finish, StringDraft.empty, he]
    · simp [draft, StringDraft.add, StringDraft.extend, StringDraft.finish, StringDraft.empty, he,
        StringDraft.push]
  rwa [hfinish] at hread

/-- A name at the head of an expression. -/
theorem heads_reference {name : String} (h : IsName name) :
    Heads p E min false [Word.ofText name] (.reference name) := by
  have hstart : StartRule.ofKind? (Word.ofText name).kind = some .reference := by
    rcases h.kind_cases with hk | hk | hk <;> rw [hk] <;> rfl
  exact heads_of_start hstart fun rest _ => .pure _

/-- A look at the word after the next one. -/
theorem reads_lookAhead : Reads p (lookAhead 1) ws (ws.tail.headD .endOfFile) ws :=
  .answer fun flag => by
    cases ws with
    | nil => rfl
    | cons w ws => cases ws <;> rfl

/-- Whether a number follows that a minus sign belongs to. -/
theorem reads_negativeNumberFollows :
    Reads p negativeNumberFollows ws ((nextKind ws).isNumber &&
      !(nextKind ws.tail == .dot || nextKind ws.tail == .leftParen)) ws :=
  .bind (.check _) (.bind reads_lookAhead (.pure _))

/-- No number that a minus sign belongs to follows where its operand does. -/
theorem no_negativeNumber (h : Written .expression tree)
    (hws : ws = tree.signedWords tree.words ++ rest) :
    ((nextKind ws).isNumber &&
      !(nextKind ws.tail == .dot || nextKind ws.tail == .leftParen)) = false := by
  subst hws
  unfold signedWords
  split
  · rfl
  · rename_i hnumber
    obtain ⟨w, ws, hwords, hfirst⟩ := h.exists_first
    rw [hwords, List.cons_append, nextKind_cons, List.tail_cons]
    cases hkind : w.kind.isNumber with
    | false => rfl
    | true =>
      rcases hfirst.number hkind with ⟨-, htree⟩ | hpostfix
      · exact absurd htree hnumber
      · cases ws with
        | nil => rcases hpostfix with h | h <;> cases h
        | cons v vs => rcases hpostfix with h | h <;> (rw [nextKind_cons] at h; simp [h])

/-- A literal at the head of an expression. -/
theorem heads_literal {value : Literal} (hw : value.Writable) (hl : value.Legible) :
    Heads p E min value.isNegative (literalWords value) (.literal value) := by
  by_cases hk : value.kind = .stringStart
  · cases value with
    | string text =>
      refine heads_of_start rfl fun rest _ => ?_
      rw [List.append_assoc]
      exact reads_stringLiteral text
    | boolean value => cases value <;> cases hk
    | _ => cases hk
  · have hread := Literal.ofToken_chars hk hw hl
    rw [literalWords_of_ne hk]
    cases hneg : value.isNegative with
    | false =>
      have hstart : StartRule.ofKind? value.kind = some .literal := by
        cases value with
        | boolean value => cases value <;> rfl
        | string text => exact absurd rfl hk
        | _ => rfl
      rw [if_neg Bool.false_ne_true, List.nil_append]
      refine heads_of_start hstart fun rest _ => reads_literal ?_
      rwa [Literal.unsigned, if_neg (by simp [hneg])]
    | true =>
      have hnumber : value.isNumber = true := by
        cases value <;> first | rfl | cases hneg
      have hkind : value.kind.isNumber = true := by
        cases value <;> first | rfl | cases hneg
      rw [if_pos rfl, List.singleton_append]
      refine heads_of_start rfl fun rest hstops => ?_
      have hnext := (hstops rfl).1
      have hfollows : (value.kind.isNumber &&
          !(nextKind rest == .dot || nextKind rest == .leftParen)) = true := by
        rw [hkind]
        cases hr : nextKind rest <;> rw [hr] at hnext <;> first
          | rfl
          | cases hnext
      have hchars : "-" ++ String.ofList value.unsigned = String.ofList (literalChars value) := by
        rw [Literal.literalChars_eq hnumber hw, hneg]
        apply String.toList_inj.1
        simp
      refine .bind reads_negativeNumberFollows ?_
      rw [List.singleton_append, nextKind_cons, List.tail_cons, hfollows]
      refine .bind .advance (reads_literal ?_)
      rwa [hchars]

/-! ## Parentheses -/

/-- Words in parentheses at the head of an expression. -/
theorem heads_grouped (h : ∀ rest, nextKind rest = .rightParen →
    Reads p (E .lowest) (ws ++ rest) tree rest) : Heads p E min false (groupedWords ws) tree := by
  refine heads_of_start rfl fun rest _ => ?_
  rw [List.append_assoc]
  exact .bind (h _ rfl) (.bind (.expectKind rfl) (.pure _))

/-! ## Calls -/

/-- Items of a list have no more words than the list. -/
theorem length_le_commaWords {lists : List (List Word)} (h : ws ∈ lists) :
    ws.length ≤ (commaWords lists).length := by
  induction lists with
  | nil => cases h
  | cons vs lists ih =>
    cases lists with
    | nil => exact Nat.le_of_eq (by rw [commaWords_singleton, List.mem_singleton.1 h])
    | cons us lists =>
      rw [commaWords_cons_cons, List.length_append, List.length_cons]
      rcases List.mem_cons.1 h with rfl | h
      · omega
      · have := ih h
        omega

/-- Items of a list up to a closing parenthesis. -/
theorem reads_argumentList {item : Reader Tree} {lists : List (List Word)} {trees : List Tree}
    (h : List.Forall₂ (Listed p .rightParen item) lists trees) :
    Reads p (argumentList item) (commaWords lists ++ .mark .rightParen :: rest) trees rest := by
  refine .bind_bound fun m hm => ?_
  have hread : Reads p (loop (argumentStep item) m [])
      (commaWords lists ++ .mark .rightParen :: rest) trees (.mark .rightParen :: rest) :=
    reads_list (by decide) h rfl [] hm
  exact .bind hread (.bind (.expectKind rfl) (.pure _))

/-- A member at the head of an expression. -/
theorem heads_member {member : String} (h : Heads p E min false ws left)
    (hmin : min ≠ .postfixCall) (hm : IsName member) :
    Heads p E min false (ws ++ [.mark .dot, Word.ofText member]) (.memberAccess left member) := by
  have hcontinue : Parser.continuation? min (Word.mark .dot).kind = some .member := by
    cases min <;> first
      | rfl
      | exact absurd rfl hmin
  exact h.extend hcontinue fun rest _ => .bind (reads_name hm) (.pure _)

/-- The words of a placeholder are no more than those of the template. -/
theorem length_le_segmentWords {parts : List (Option String × List Word)} (text : List Char)
    (h : (none, ws) ∈ parts) : ws.length ≤ (segmentWords text parts).length := by
  induction parts generalizing text with
  | nil => cases h
  | cons part parts ih =>
    obtain ⟨_ | more, vs⟩ := part
    · simp only [segmentWords, List.length_append, List.length_cons]
      rcases List.mem_cons.1 h with h | h
      · cases h
        omega
      · have := ih [] h
        omega
    · exact ih _ ((List.mem_cons.1 h).resolve_left (by simp))

/-- What a binary operator makes of the expression before it. -/
theorem exists_precedence (operator : BinaryOperator) :
    ∃ precedence, ContinueRule.ofKind? operator.kind = some (.binary, precedence) ∧
      precedence ≠ .postfixCall ∧
        Parser.continuation? .lowest (Word.mark operator.kind).kind = some .binary := by
  cases operator <;> exact ⟨_, rfl, nofun, rfl⟩

namespace Covers

variable (hE : Covers E n)
include hE

/-- An expression in a list. -/
theorem listed (h : Readable p .expression tree) (hn : tree.words.length < n) :
    Listed p .rightParen (E .lowest) tree.words tree.reparsed := by
  obtain ⟨w, ws, hwords, hfirst⟩ := h.written.exists_first
  refine ⟨by simp [hwords], ?_, fun rest hrest => ?_⟩
  · rw [hwords, nextKind_cons]
    intro hk
    have hstart := hfirst.start
    rw [hk] at hstart
    cases hstart
  · refine hE.reads_words nofun h hn ?_
    rcases hrest with hrest | hrest <;> rw [hrest] <;> exact ⟨rfl, nofun⟩

/-- The arguments of a call. -/
theorem reads_arguments {arguments : List Tree}
    (h : ∀ tree ∈ arguments, Readable p .expression tree)
    (hn : (commaWords (arguments.map words)).length < n) :
    Reads p (argumentList (E .lowest))
      (commaWords (arguments.map words) ++ .mark .rightParen :: rest)
      (arguments.map reparsed) rest := by
  refine reads_argumentList (List.forall₂_map_left_iff.2 (List.forall₂_map_right_iff.2
    (List.forall₂_same.2 fun tree hmem => hE.listed (h tree hmem) ?_)))
  have := length_le_commaWords (List.mem_map_of_mem (f := words) hmem)
  omega

/-! ## Heads of expressions -/

/-- An expression in parentheses at the head of another one. -/
theorem heads_parenthesized (h : Readable p .expression tree) (hn : tree.words.length < n) :
    Heads p E min false (groupedWords tree.words) tree.reparsed := by
  refine heads_grouped fun rest hrest => hE.reads_words nofun h hn ?_
  rw [hrest]
  exact ⟨rfl, nofun⟩

/-- An operation at the head of an expression. -/
theorem heads_operation (hbare : Bare tree ws) (h : Readable p .expression tree)
    (hn : tree.words.length ≤ n) : Heads p E min false tree.words tree.reparsed := by
  rw [hbare.words_eq] at hn ⊢
  simp only [groupedWords, List.length_cons, List.length_append] at hn
  refine heads_grouped fun rest hrest => hE (.bare hbare) h (by omega) ?_
  rw [hrest]
  exact ⟨rfl, nofun⟩

/-- What more of its parent follows, at the head of an expression. -/
theorem heads_operand (h : Readable p .expression tree)
    (hn : (tree.operandWords tree.words).length ≤ n)
    (hhead : tree.words.length ≤ n → Heads p E min tree.isLoose tree.words tree.reparsed) :
    Heads p E min false (tree.operandWords tree.words) tree.reparsed := by
  unfold operandWords at hn ⊢
  split
  · rename_i hloose
    rw [if_pos hloose] at hn
    simp only [groupedWords, List.length_cons, List.length_append] at hn
    exact hE.heads_parenthesized h (by omega)
  · rename_i hloose
    rw [if_neg hloose] at hn
    have hwords := hhead hn
    rwa [Bool.eq_false_iff.2 hloose] at hwords

/-- A conditional at the head of an expression. -/
theorem heads_conditional {condition thenBranch : Tree} {elseBranch : Option Tree}
    (hc : Readable p .expression condition) (ht : Readable p .expression thenBranch)
    (he : ∀ branch, elseBranch = some branch → Readable p .expression branch)
    (hn : (Tree.conditional condition thenBranch elseBranch).words.length ≤ n) :
    Heads p E min true (Tree.conditional condition thenBranch elseBranch).words
      (Tree.conditional condition thenBranch elseBranch).reparsed := by
  have hread {mid : List Word} {thenBranch' : Tree} {elseBranch' : Option Tree}
      (hlength : condition.words.length < n)
      (h : ∀ rest, Stops true (nextKind rest) → ∃ mid',
        Reads p (E .lowest) (mid ++ rest) thenBranch' mid' ∧
          Reads p (optionalExpression (E .lowest) .wordElse) mid' elseBranch' rest) :
      Heads p E min true (Word.ofText "if" :: (groupedWords condition.words ++ mid))
        (.conditional condition.reparsed thenBranch' elseBranch') := by
    refine heads_of_start rfl fun rest hs => ?_
    obtain ⟨mid', hthen, helse⟩ := h rest (hs rfl)
    have hcondition : Reads p (E .lowest)
        (condition.words ++ .mark .rightParen :: (mid ++ rest)) condition.reparsed
        (.mark .rightParen :: (mid ++ rest)) :=
      hE.reads_words (by decide) hc hlength ⟨rfl, fun _ => nextKind_cons_ne (by decide)⟩
    simp only [groupedWords, List.cons_append, List.append_assoc, List.nil_append]
    exact .bind (.expectKind rfl) (.bind hcondition (.bind (.expectKind rfl)
      (.bind hthen (.bind helse (.pure _)))))
  have hstops {kind : TokenKind} (h : Stops true kind) (loose : Bool) : Stops loose kind :=
    ⟨h.1, fun _ => h.2 rfl⟩
  cases elseBranch with
  | none =>
    rw [words] at hn ⊢
    rw [reparsed]
    simp only [groupedWords, List.length_cons, List.length_append] at hn
    refine hread (by omega) fun rest hs => ⟨rest, ?_, reads_optionalExpression_of_ne (hs.2 rfl)⟩
    exact hE.reads_words (by decide) ht (by omega) (hstops hs _)
  | some branch =>
    rw [words] at hn ⊢
    rw [reparsed]
    simp only [groupedWords, List.length_cons, List.length_append] at hn
    refine hread (by omega) fun rest hs => ⟨Word.ofText "else" :: (branch.words ++ rest), ?_, ?_⟩
    · rw [List.append_assoc]
      exact hE (spelling_operand thenBranch (by decide)) ht (by omega) ⟨rfl, by simp⟩
    · exact reads_optionalExpression rfl
        (hE.reads_words (by decide) (he branch rfl) (by omega) (hstops hs _))

/-- A template at the head of an expression. -/
theorem heads_stringTemplate {parts : List Tree}
    (h : Readable p .expression (.stringTemplate parts))
    (hn : (Tree.stringTemplate parts).words.length ≤ n) :
    Heads p E min false (Tree.stringTemplate parts).words (Tree.stringTemplate parts).reparsed := by
  obtain ⟨hwritten, -, -⟩ := id h
  cases hwritten with
  | stringTemplate hparts =>
    rw [words, quotedWords] at hn ⊢
    rw [reparsed]
    simp only [List.length_cons, List.length_append] at hn
    refine heads_of_start rfl fun rest _ => ?_
    rw [List.append_assoc]
    refine reads_string (List.forall₂_map_left_iff.2 (List.forall₂_map_right_iff.2
      (List.forall₂_same.2 fun part hmem => ⟨rfl, fun htext rest hrest => ?_⟩)))
    have hmem' : (none, part.words) ∈ parts.map fun part => (part.stringText?, part.words) :=
      List.mem_map.2 ⟨part, hmem, congrArg (·, part.words) htext⟩
    have hlength := length_le_segmentWords [] hmem'
    have hpart : Readable p .expression part :=
      h.child (hparts part hmem) (by simpa [children, groups] using hmem) (fun _ _ => htext)
    refine hE.reads_words (by decide) hpart (by omega) ?_
    rw [hrest]
    exact ⟨rfl, fun _ => by decide⟩

/-- A call at the head of an expression. -/
theorem heads_call {arguments : List Tree} (h : Heads p E min false ws left)
    (hmin : min ≠ .postfixCall) (ha : ∀ tree ∈ arguments, Readable p .expression tree)
    (hn : (commaWords (arguments.map words)).length < n) :
    Heads p E min false (ws ++ groupedWords (commaWords (arguments.map words)))
      (left.call (arguments.map reparsed)) := by
  refine h.extend (continuation?_leftParen hmin) fun rest _ => ?_
  rw [List.append_assoc]
  exact .bind (hE.reads_arguments ha hn) (.pure _)

/-- An expression at the head of another one. -/
theorem heads_words (hmin : min ≠ .postfixCall) (h : Readable p .expression tree)
    (hn : tree.words.length ≤ n) :
    Heads p E min tree.isLoose tree.words tree.reparsed := by
  induction tree using Tree.induct with
  | step tree ih =>
    -- what members and calls go on with has no more words than they have
    have hoperand {child : Tree} (hmem : child ∈ tree.children) (hc : Readable p .expression child)
        (hlength : (child.operandWords child.words).length < tree.words.length) :
        Heads p E min false (child.operandWords child.words) child.reparsed :=
      hE.heads_operand hc (by omega) (ih child hmem hc)
    obtain ⟨hwritten, -, -⟩ := id h
    cases hwritten with
    | literal hv =>
      rw [words, reparsed]
      exact heads_literal hv ((all_iff.1 h.legible).1 _ rfl)
    | stringTemplate => exact hE.heads_stringTemplate h hn
    | reference hname =>
      rw [words, reparsed]
      exact heads_reference hname
    | unary => exact hE.heads_operation (.unary ..) h hn
    | binary => exact hE.heads_operation (.binary ..) h hn
    | assignment => exact hE.heads_operation (.assignment ..) h hn
    | infixInvocation => exact hE.heads_operation (.infixInvocation ..) h hn
    | @memberAccess receiver member hr hm =>
      have hreceiver : receiver ∈ (Tree.memberAccess receiver member).children := by
        simp [children, groups]
      rw [words, reparsed]
      refine heads_member (hoperand hreceiver (h.child hr hreceiver) ?_) hmin hm
      rw [words, List.length_append]
      exact Nat.lt_add_of_pos_right (Nat.zero_lt_succ _)
    | @namedInvocation name arguments hname ha =>
      have harguments (tree : Tree) (hmem : tree ∈ arguments) : Readable p .expression tree :=
        h.child (ha tree hmem) (by simpa [children, groups] using hmem)
      rw [words] at hn ⊢
      rw [reparsed]
      simp only [groupedWords, List.length_cons, List.length_append] at hn
      exact hE.heads_call (heads_reference hname) hmin harguments (by omega)
    | @anonymousInvocation target arguments ht hr ha =>
      have htarget : target ∈ (Tree.anonymousInvocation target arguments).children := by
        simp [children, groups]
      have harguments (tree : Tree) (hmem : tree ∈ arguments) : Readable p .expression tree :=
        h.child (ha tree hmem) (by simp [children, groups, hmem])
      have hhead := hoperand htarget (h.child ht htarget) (by
        rw [words, List.length_append]
        exact Nat.lt_add_of_pos_right (Nat.zero_lt_succ _))
      have hcall : target.reparsed.call (arguments.map reparsed) =
          .anonymousInvocation target.reparsed (arguments.map reparsed) := by
        cases hread : target.reparsed with
        | reference name => exact absurd (eq_of_reparsed_eq_reference hread) (hr name)
        | _ => rfl
      rw [words] at hn ⊢
      rw [reparsed, ← hcall]
      simp only [groupedWords, List.length_cons, List.length_append] at hn
      exact hE.heads_call hhead hmin harguments (by omega)
    | @conditional condition thenBranch elseBranch hc ht he =>
      refine hE.heads_conditional (h.child hc (by simp [children, groups]))
        (h.child ht (by simp [children, groups])) (fun branch hbranch => ?_) hn
      exact h.child (he branch hbranch) (by simp [children, groups, hbranch])
    | @block statements hs =>
      have hblock (rest : List Word) : Reads p (Reader.block E)
          ((statements.map words).flatten ++ .mark .rightBrace :: rest)
          (Tree.block statements).reparsed rest := hE.reads_block h hn
      rw [words]
      refine heads_of_start rfl fun rest _ => ?_
      rw [List.append_assoc]
      exact hblock rest

/-- An operation without the parentheses around it. -/
theorem heads_bare (hbare : Bare tree ws) (h : Readable p .expression tree) (hn : ws.length ≤ n) :
    Heads p E .lowest true ws tree.reparsed := by
  have hchild {child : Tree} (hc : Written .expression child) (hmem : child ∈ tree.children)
      (ht : ∀ parts, tree ≠ stringTemplate parts) (hp : ∀ pattern, tree ≠ patternArgument pattern) :
      Readable p .expression child :=
    h.child hc hmem (fun parts e => absurd e (ht parts)) hp
  have hleft {child : Tree} (hc : Readable p .expression child)
      (hlength : (child.operandWords child.words).length ≤ n) :
      Heads p E .lowest false (child.operandWords child.words) child.reparsed :=
    hE.heads_operand hc hlength (hE.heads_words (by decide) hc)
  have hright {child : Tree} (hc : Readable p .expression child) (hlength : child.words.length < n)
      (precedence : Precedence) (hprec : precedence ≠ .postfixCall) {rest : List Word}
      (hs : Stops true (nextKind rest)) :
      Reads p (E precedence) (child.words ++ rest) child.reparsed rest :=
    hE.reads_words hprec hc hlength ⟨hs.1, fun _ => hs.2 rfl⟩
  obtain ⟨hwritten, -, -⟩ := id h
  cases hbare with
  | unary operator operand =>
    cases hwritten with
    | unary ho =>
      have ho := hchild ho (by simp [children, groups]) (by simp) (by simp)
      rw [List.length_cons] at hn
      rw [reparsed]
      have hstart : StartRule.ofKind? (Word.mark operator.kind).kind = some .unary := by
        cases operator <;> rfl
      refine heads_of_start hstart fun rest hs => ?_
      show Reads p (Reader.unary E operator.kind) _ _ _
      unfold Reader.unary
      rw [UnaryOperator.ofKind?_kind]
      -- a number that is the operand stands in parentheses
      have hread : Reads p (E .unary) (operand.signedWords operand.words ++ rest)
          operand.reparsed rest := by
        unfold signedWords at hn ⊢
        split
        · rename_i hnumber
          rw [if_pos hnumber] at hn
          exact hE (.grouped (by decide)) ho (by omega) ⟨(hs rfl).1, by simp⟩
        · rename_i hnumber
          rw [if_neg hnumber] at hn
          exact hright ho (by omega) .unary (by decide) (hs rfl)
      refine .bind reads_negativeNumberFollows ?_
      rw [no_negativeNumber ho.written rfl, Bool.and_false]
      exact .bind hread (.pure _)
  | binary left operator right =>
    cases hwritten with
    | binary hl hr =>
      have hl := hchild hl (by simp [children, groups]) (by simp) (by simp)
      have hr := hchild hr (by simp [children, groups]) (by simp) (by simp)
      obtain ⟨precedence, hrule, hprec, hcontinue⟩ := exists_precedence operator
      rw [List.length_append, List.length_cons] at hn
      rw [reparsed]
      refine (hleft hl (by omega)).extend hcontinue fun rest hs => ?_
      show Reads p (Reader.binary E _ operator.kind) _ _ _
      unfold Reader.binary
      rw [BinaryOperator.ofKind?_kind, hrule]
      exact .bind (hright hr (by omega) precedence hprec (hs rfl)) (.pure _)
  | assignment target operator value =>
    cases hwritten with
    | assignment ht hv =>
      have ht := hchild ht (by simp [children, groups]) (by simp) (by simp)
      have hv := hchild hv (by simp [children, groups]) (by simp) (by simp)
      rw [List.length_append, List.length_cons] at hn
      rw [reparsed]
      have hcontinue : Parser.continuation? .lowest (Word.mark operator.kind).kind =
          some .assignment := by
        cases operator <;> rfl
      refine (hleft ht (by omega)).extend hcontinue fun rest hs => ?_
      show Reads p (Reader.assignment E _ operator.kind) _ _ _
      unfold Reader.assignment
      rw [AssignmentOperator.ofKind?_kind]
      exact .bind (hright hv (by omega) .lowest (by decide) (hs rfl)) (.pure _)
  | infixInvocation left name right =>
    cases hwritten with
    | infixInvocation hl hname hr =>
      have hl := hchild hl (by simp [children, groups]) (by simp) (by simp)
      have hr := hchild hr (by simp [children, groups]) (by simp) (by simp)
      rw [List.length_append, List.length_cons] at hn
      rw [reparsed]
      have hcontinue : Parser.continuation? .lowest (Word.ofText name).kind = some .infixCall := by
        have hkind : (Word.ofText name).kind = .identifier := hname.isIdentifier
        rw [hkind]
        rfl
      exact (hleft hl (by omega)).extend hcontinue fun rest hs =>
        .bind (hright hr (by omega) .infixCall (by decide) (hs rfl)) (.pure _)

/-! ## All expressions -/

/-- A reader for expressions reads longer ones where they are given one that reads shorter
ones. -/
theorem next : Covers (expressionRule E) (n + 1) := by
  intro p tree min loose ws rest hspelling h hn hs
  cases hspelling with
  | words hmin => exact (hE.heads_words hmin h (by omega)).reads hs
  | grouped hmin =>
    simp only [groupedWords, List.length_cons, List.length_append] at hn
    exact (hE.heads_parenthesized h (by omega)).reads hs
  | bare hbare => exact (hE.heads_bare hbare h (by omega)).reads hs

end Covers

/-- Readers for expressions read those that have fewer words than they allow for nesting. -/
theorem covers_expressionWithin (n : Nat) : Covers (expressionWithin n) n := by
  induction n with
  | zero => exact fun _ _ _ _ _ _ _ _ hn => absurd hn (Nat.not_lt_zero _)
  | succ n ih => exact ih.next

end Reader

end ExprLang
