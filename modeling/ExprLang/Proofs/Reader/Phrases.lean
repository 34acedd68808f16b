import ExprLang.Proofs.Grammar.Beginnings
import ExprLang.Proofs.Reader.Operators
import ExprLang.Proofs.Reader.Verdicts

/-!
# Reading phrases

The readers for expressions read what the grammar derives and nothing else.  They
take in as much as goes on with an expression; that costs nothing, since a scan gives
the same verdict on whatever is left, however many conditionals an `else` could still
belong to.

Main definitions:

- Definition {lit}`Reader.Judges`: a reader for expressions that keeps to the grammar.

Main results:

- Theorem {lit}`Reader.Judges.decides_start`, {lit}`Reader.Judges.decides_extend`:
  what begins an expression and what goes on with one.
- Theorem {lit}`Reader.judges_expressionWithin`: the readers for expressions keep to
  the grammar.
-/

namespace ExprLang

/-! ## Ends of expressions -/

namespace Faces

variable {verdict : Bool} {n pending : Nat} {parenthesis : Parenthesis}
  {outer : List (Parenthesis × Nat)} {ws : List Word}

/-- Nothing else than what begins an operand can come first. -/
theorem eq_false_of_start (h : Faces verdict n ⟨.operand false, pending, outer⟩ ws)
    (hstart : StartRule.ofKind? (nextKind ws) = none) : verdict = false := by
  refine h.eq_false ?_ rfl
  generalize nextKind ws = kind at hstart
  cases kind <;> first | rfl | cases hstart

/-- A parenthesis cannot be left open behind an expression. -/
theorem eq_false_of_open
    (h : Faces verdict n ⟨.operator, 0, (parenthesis, pending) :: outer⟩ ws)
    (hends : Parser.continuation? .lowest (nextKind ws) = none)
    (hcomma : parenthesis = .call → nextKind ws ≠ .comma) (hne : nextKind ws ≠ .rightParen) :
    verdict = false := by
  refine h.eq_false ?_ rfl
  generalize nextKind ws = kind at hends hcomma hne
  cases kind <;> first
    | rfl
    | (cases hends; done)
    | exact absurd rfl hne
    | (cases parenthesis <;> first | rfl | exact absurd rfl (hcomma rfl))

/-- Nothing can follow an expression that words do not go on with. -/
theorem eq_false_of_follower {w : Word} (h : Faces verdict n ⟨.operator, 0, []⟩ (w :: ws))
    (hends : Parser.continuation? .lowest w.kind = none) : verdict = false := by
  rw [← h.accepts]
  refine Scan.not_accepts_of_step? ?_ _
  generalize w.kind = kind at hends
  cases kind <;> first | rfl | cases hends

/-- A conditional does not have to have a second branch. -/
theorem drop_pending (h : Faces verdict n ⟨.operator, pending + 1, outer⟩ ws)
    (hends : Parser.continuation? .lowest (nextKind ws) = none) (helse : nextKind ws ≠ .wordElse) :
    Faces verdict n ⟨.operator, pending, outer⟩ ws := by
  refine h.congr ?_ rfl
  generalize nextKind ws = kind at hends helse
  cases kind <;> first | rfl | exact absurd rfl helse | cases hends

/-- Where there is a first argument it is an expression. -/
theorem argument (h : Faces verdict n ⟨.operand true, pending, outer⟩ ws)
    (hne : nextKind ws ≠ .rightParen) : Faces verdict n ⟨.operand false, pending, outer⟩ ws := by
  refine h.congr ?_ rfl
  generalize nextKind ws = kind at hne
  cases kind <;> first | rfl | exact absurd rfl hne

/-- Where there is no argument the call ends. -/
theorem noArgument (h : Faces verdict n ⟨.operand true, 0, (.call, pending) :: outer⟩ ws)
    (hnext : nextKind ws = .rightParen) :
    Faces verdict n ⟨.operator, 0, (.call, pending) :: outer⟩ ws := by
  obtain ⟨w, rest, rfl, hw⟩ := exists_cons_of_nextKind hnext (by decide)
  refine ⟨h.length_lt, h.plain, Eq.trans ?_ h.accepts⟩
  rw [List.map_cons, hw]
  rfl

end Faces

/-- What goes on with an expression binds strongly enough. -/
theorem Parser.exists_of_continuation? {min : Precedence} {kind : TokenKind} {rule : ContinueRule}
    (h : continuation? min kind = some rule) :
    ∃ precedence, ContinueRule.ofKind? kind = some (rule, precedence) ∧
      min.rank < precedence.rank := by
  obtain ⟨⟨rule, precedence⟩, hfound, rfl⟩ := Option.map_eq_some_iff.1 h
  obtain ⟨hrule, hlt⟩ := Option.filter_eq_some_iff.1 hfound
  exact ⟨precedence, hrule, of_decide_eq_true hlt⟩

namespace Reader

variable {E : ExpressionReader} {n m pending : Nat} {outer : List (Parenthesis × Nat)}
  {verdict : Bool} {left : Tree} {min : Precedence} {w : Word} {ws mid : List Word}

/-- A reader for expressions keeps to the verdict of a scan on fewer than so many words.  What it
reads is what the grammar derives, and it goes on as long as words go on with the expression. -/
def Judges (E : ExpressionReader) (n : Nat) : Prop :=
  ∀ ⦃verdict : Bool⦄ ⦃min : Precedence⦄ ⦃pending : Nat⦄ ⦃outer : List (Parenthesis × Nat)⦄
    ⦃ws : List Word⦄, Faces verdict n ⟨.operand false, pending, outer⟩ ws →
      Decides verdict (E min) ws fun _ rest => min.phrase.Begins ws rest ∧
        Faces verdict ws.length ⟨.operator, pending, outer⟩ rest ∧
        Parser.continuation? min (nextKind rest) = none

namespace Judges

/-- A reader keeps to verdicts on shorter words. -/
theorem mono (hE : Judges E n) (hm : m ≤ n) : Judges E m :=
  fun _ _ _ _ _ h => hE (h.mono hm)

/-- An expression inside another one. -/
theorem decides_lowest (hE : Judges E n)
    (h : Faces verdict n ⟨.operand false, pending, outer⟩ ws) :
    Decides verdict (E .lowest) ws fun _ rest => Phrase.expression.Begins ws rest ∧
      Faces verdict n ⟨.operator, pending, outer⟩ rest ∧
      Parser.continuation? .lowest (nextKind rest) = none :=
  (hE h).mono fun _ _ hread =>
    ⟨hread.1, hread.2.1.mono (Nat.le_of_lt h.length_lt), hread.2.2⟩

/-! ## Starts of expressions -/

/-- An expression in parentheses, after the first of them. -/
theorem decides_group (hE : Judges E n) (hw : w.kind = .leftParen)
    (h : Faces verdict n ⟨.operand false, 0, (.group, pending) :: outer⟩ ws) :
    Decides verdict (group E) ws fun _ rest => Phrase.operand.Begins (w :: ws) rest ∧
      Faces verdict n ⟨.operator, pending, outer⟩ rest := by
  refine (hE.decides_lowest h).bind ?_
  rintro inside mid ⟨hinside, hmid, hends⟩
  refine (hmid.decides_expectKind rfl (hmid.eq_false_of_open hends nofun)).bind ?_
  rintro closing rest ⟨rfl, hclosing, hrest⟩
  exact .pure ⟨(hinside.group hw hclosing).operand, hrest⟩

/-- A value, from its word. -/
theorem decides_literal (hw : w.Plain) (hk : w.kind.isLiteral = true)
    (h : Faces verdict n ⟨.operator, pending, outer⟩ ws) :
    Decides verdict (literal w.kind w.text) ws fun _ rest =>
      Phrase.operand.Begins (w :: ws) rest ∧ Faces verdict n ⟨.operator, pending, outer⟩ rest := by
  obtain ⟨value, hvalue⟩ := hw.literal hk
  exact .of_reads (reads_literal hvalue) ⟨(Phrase.Begins.literal hk).operand, h⟩

/-- A unary operation after its operator.  A minus sign belongs to a number behind it. -/
theorem decides_unary (hE : Judges E n) (hw : w.kind = .minus ∨ w.kind = .not)
    (h : Faces verdict n ⟨.operand false, pending, outer⟩ ws) :
    Decides verdict (unary E w.kind) ws fun _ rest => Phrase.operand.Begins (w :: ws) rest ∧
      Faces verdict n ⟨.operator, pending, outer⟩ rest := by
  obtain ⟨operator, hoperator⟩ : ∃ operator, UnaryOperator.ofKind? w.kind = some operator := by
    rcases hw with hw | hw <;> exact hw ▸ ⟨_, rfl⟩
  unfold unary
  rw [hoperator]
  refine .bind_reads reads_negativeNumberFollows ?_
  split
  case isTrue hnegated =>
    have hnumber : (nextKind ws).isNumber = true := by
      simp only [Bool.and_eq_true] at hnegated
      exact hnegated.2.1
    cases ws with
    | nil => cases hnumber
    | cons number rest =>
      rw [nextKind_cons] at hnumber
      have hliteral : number.kind.isLiteral = true := by
        generalize number.kind = kind at hnumber
        cases kind <;> first | rfl | cases hnumber
      obtain ⟨value, hvalue⟩ := (h.plain number (List.mem_cons_self ..)).negated hnumber
      refine .bind_reads .advance (.of_reads (reads_literal hvalue) ⟨?_, h.step ?_⟩)
      · exact (Phrase.Begins.literal hliteral).operand.unary hw
      · exact Scan.step?_of_isOperand (by rw [hliteral, Bool.true_or])
  case isFalse =>
    refine (hE h).bind ?_
    rintro operand rest ⟨hoperand, hrest, -⟩
    exact .pure ⟨hoperand.unary hw, hrest.mono (Nat.le_of_lt h.length_lt)⟩

/-- A conditional after its keyword. -/
theorem decides_conditional (hE : Judges E n) (hw : w.kind = .wordIf)
    (h : Faces verdict n ⟨.condition, pending, outer⟩ ws) :
    Decides verdict (conditional E) ws fun _ rest => Phrase.operand.Begins (w :: ws) rest ∧
      Faces verdict n ⟨.operator, pending, outer⟩ rest := by
  have hstep : Scan.step? ⟨.condition, pending, outer⟩ .leftParen =
      some ⟨.operand false, 0, (.condition, pending) :: outer⟩ := rfl
  refine (h.decides_expectKind hstep fun hne => h.eq_false (if_neg hne) rfl).bind ?_
  rintro opening rest ⟨rfl, hopening, hrest⟩
  refine (hE.decides_lowest hrest).bind ?_
  rintro condition mid ⟨hcondition, hmid, hends⟩
  refine (hmid.decides_expectKind rfl (hmid.eq_false_of_open hends nofun)).bind ?_
  rintro closing mid ⟨rfl, hclosing, hmid⟩
  refine (hE.decides_lowest hmid).bind ?_
  rintro thenBranch last ⟨hthen, hlast, hends⟩
  by_cases helse : nextKind last = .wordElse
  · obtain ⟨keyword, last, rfl, hkeyword⟩ := exists_cons_of_nextKind helse (by decide)
    have hlast' : Faces verdict n ⟨.operand false, pending, outer⟩ last :=
      hlast.step (by rw [hkeyword]; rfl)
    refine Decides.bind (.bind_reads (.skipKind hkeyword) ((hE.decides_lowest hlast').bind ?_))
      fun _ _ hread => .pure hread
    rintro elseBranch rest ⟨helse, hrest, -⟩
    have hbase := hcondition.conditionalElse hw hopening hclosing hthen hkeyword helse
    exact .pure ⟨hbase.operand, hrest⟩
  · refine .bind_reads ((Reads.skipKind_of_ne helse).bind (.pure none)) (.pure ⟨?_, ?_⟩)
    · exact (hcondition.conditional hw hopening hclosing hthen).operand
    · exact hlast.drop_pending hends helse

/-- What a word begins. -/
theorem decides_start (hE : Judges E n) {rule : StartRule}
    (hrule : StartRule.ofKind? w.kind = some rule)
    (h : Faces verdict (n + 1) ⟨.operand false, pending, outer⟩ (w :: ws)) :
    Decides verdict (start E w rule) ws fun _ rest => Phrase.operand.Begins (w :: ws) rest ∧
      Faces verdict n ⟨.operator, pending, outer⟩ rest := by
  have hw := StartRule.isFor_of_ofKind? hrule
  have hplain : w.Plain := h.plain w (List.mem_cons_self ..)
  cases rule with
  | literal =>
    have hk : w.kind.isLiteral = true := hw
    have hoperand : (w.kind.isLiteral || w.kind.isReference) = true := by rw [hk, Bool.true_or]
    exact decides_literal hplain hk (h.step_succ (Scan.step?_of_isOperand hoperand))
  | reference =>
    have hk : w.kind.isReference = true := hw
    have hoperand : (w.kind.isLiteral || w.kind.isReference) = true := by rw [hk, Bool.or_true]
    exact .pure ⟨(Phrase.Begins.reference hk).operand,
      h.step_succ (Scan.step?_of_isOperand hoperand)⟩
  | string => exact absurd hw hplain.ne_string
  | group => exact hE.decides_group hw (h.step_succ (by rw [hw]; rfl))
  | unary => exact hE.decides_unary hw (h.step_succ (Scan.step?_unary hw))
  | conditional => exact hE.decides_conditional hw (h.step_succ (by rw [hw]; rfl))
  | block => exact absurd hw hplain.ne_block

/-! ## Continuations of expressions -/

/-- One more argument of a call, or the end of the arguments. -/
theorem decides_argumentStep (hE : Judges E n) (arguments : List Tree)
    (h : Faces verdict n ⟨.operand true, 0, (.call, pending) :: outer⟩ ws) :
    Decides verdict (argumentStep (E .lowest) arguments) ws fun next rest => next.elim
      (fun _ => (∀ out, Phrase.arguments.Begins rest out → Phrase.arguments.Begins ws out) ∧
        Faces verdict ws.length ⟨.operand true, 0, (.call, pending) :: outer⟩ rest)
      fun _ => Phrase.arguments.Begins ws rest ∧
        Faces verdict n ⟨.operator, 0, (.call, pending) :: outer⟩ rest ∧
        (nextKind rest ≠ .rightParen → verdict = false) := by
  refine .bind_reads (.check _) ?_
  by_cases hnext : nextKind ws = .rightParen
  · rw [hnext]
    exact .pure ⟨.noArguments, h.noArgument hnext, fun hne => absurd hnext hne⟩
  · rw [if_neg (by simpa [Expectation.accepts] using Ne.symm hnext)]
    refine (hE (h.argument hnext)).bind ?_
    rintro item mid ⟨hitem, hmid, hends⟩
    have hitem : Phrase.expression.Begins ws mid := hitem
    by_cases hcomma : nextKind mid = .comma
    · obtain ⟨comma, rest, rfl, hkind⟩ := exists_cons_of_nextKind hcomma (by decide)
      refine .bind_reads (.skipKind hkind) (.pure ⟨fun out hout => ?_, hmid.step ?_⟩)
      · exact hitem.moreArguments hkind hout
      · rw [hkind]
        rfl
    · refine .bind_reads (.skipKind_of_ne hcomma) (.pure ⟨hitem.argument, ?_, fun hne => ?_⟩)
      · exact hmid.mono (Nat.le_of_lt h.length_lt)
      · exact hmid.eq_false_of_open hends (fun _ => hcomma) hne

/-- The arguments of a call, after the opening parenthesis. -/
theorem decides_argumentList (hE : Judges E n)
    (h : Faces verdict n ⟨.operand true, 0, (.call, pending) :: outer⟩ ws) :
    Decides verdict (argumentList (E .lowest)) ws fun _ rest => ∃ closing,
      Phrase.arguments.Begins ws (closing :: rest) ∧ closing.kind = .rightParen ∧
      Faces verdict n ⟨.operator, pending, outer⟩ rest := by
  refine .bind_bound fun bound hbound => ?_
  -- whatever arguments follow, there are arguments in all
  let I (_ : List Tree) (mid : List Word) : Prop :=
    (∀ out, Phrase.arguments.Begins mid out → Phrase.arguments.Begins ws out) ∧
      Faces verdict n ⟨.operand true, 0, (.call, pending) :: outer⟩ mid
  let R (_ : List Tree) (rest : List Word) : Prop :=
    Phrase.arguments.Begins ws rest ∧
      Faces verdict n ⟨.operator, 0, (.call, pending) :: outer⟩ rest ∧
      (nextKind rest ≠ .rightParen → verdict = false)
  have hloop : Decides verdict (loop (argumentStep (E .lowest)) bound []) ws R := by
    refine .loop (I := I) (fun arguments mid hmid => ?_) hbound ⟨fun _ hout => hout, h⟩
    refine (hE.decides_argumentStep arguments hmid.2).mono fun next rest hnext => ?_
    cases next with
    | inl _ =>
      exact ⟨⟨fun out hout => hmid.1 out (hnext.1 out hout),
        hnext.2.mono (Nat.le_of_lt hmid.2.length_lt)⟩, hnext.2.length_lt⟩
    | inr _ => exact ⟨hmid.1 rest hnext.1, hnext.2⟩
  refine hloop.bind ?_
  rintro arguments rest ⟨harguments, hrest, hno⟩
  refine (hrest.decides_expectKind rfl hno).bind ?_
  rintro closing rest ⟨rfl, hclosing, hrest⟩
  exact .pure ⟨closing, harguments, hclosing, hrest⟩

/-- The right operand of an operator. -/
theorem decides_operation (hE : Judges E n) {right : Precedence} (f : Tree → Tree)
    (hmin : min.rank < Precedence.unary.rank) (hright : right.rank < Precedence.unary.rank)
    (hleft : min.phrase.Begins ws (w :: mid)) (hw : w.kind.isInfixOperator = true)
    (h : Faces verdict (n + 1) ⟨.operator, pending, outer⟩ (w :: mid)) :
    Decides verdict (E right >>= fun tree => pure (f tree)) mid fun _ rest =>
      min.phrase.Begins ws rest ∧ Faces verdict n ⟨.operator, pending, outer⟩ rest := by
  have hmid := h.step_succ (Scan.step?_of_isInfixOperator hw)
  rw [Precedence.phrase_of_lt hmin] at hleft ⊢
  refine (hE hmid).bind ?_
  rintro tree rest ⟨htree, hrest, -⟩
  rw [Precedence.phrase_of_lt hright] at htree
  exact .pure ⟨hleft.operation hw htree, hrest.mono (Nat.le_of_lt hmid.length_lt)⟩

/-- What a word makes of the expression before it. -/
theorem decides_extend (hE : Judges E n) {rule : ContinueRule}
    (hrule : Parser.continuation? min w.kind = some rule)
    (hleft : min.phrase.Begins ws (w :: mid))
    (h : Faces verdict (n + 1) ⟨.operator, pending, outer⟩ (w :: mid)) :
    Decides verdict (extend E left w rule) mid fun _ rest =>
      min.phrase.Begins ws rest ∧ Faces verdict n ⟨.operator, pending, outer⟩ rest := by
  obtain ⟨precedence, hfound, hlt⟩ := Parser.exists_of_continuation? hrule
  have hw := ContinueRule.isFor_of_ofKind? hfound
  cases rule with
  | binary =>
    obtain ⟨operator, hoperator⟩ := ContinueRule.exists_binaryOperator hfound
    show Decides verdict (binary E left w.kind) mid _
    unfold binary
    rw [hoperator, hfound]
    exact hE.decides_operation _ (Nat.lt_trans hlt hw.2) hw.2 hleft hw.1 h
  | assignment =>
    obtain ⟨operator, hoperator⟩ := ContinueRule.exists_assignmentOperator hfound
    show Decides verdict (assignment E left w.kind) mid _
    unfold assignment
    rw [hoperator]
    exact hE.decides_operation _ (Nat.lt_trans hlt hw.2) (by decide) hleft hw.1 h
  | infixCall => exact hE.decides_operation _ (Nat.lt_trans hlt hw.2) (by decide) hleft hw.1 h
  | member =>
    have hw : w.kind = .dot := hw
    have hmid : Faces verdict n ⟨.member, pending, outer⟩ mid := h.step_succ (by rw [hw]; rfl)
    refine hmid.decides_name.bind ?_
    rintro name rest ⟨rfl, hname, hrest⟩
    exact .pure ⟨hleft.append_suffixes min.phrase_cases (.member hw hname), hrest⟩
  | invocation =>
    have hw : w.kind = .leftParen := hw
    refine (hE.decides_argumentList (h.step_succ (by rw [hw]; rfl))).bind ?_
    rintro arguments rest ⟨closing, harguments, hclosing, hrest⟩
    exact .pure ⟨hleft.append_suffixes min.phrase_cases (.call hw harguments hclosing), hrest⟩

/-! ## Expressions -/

/-- One more continuation of an expression, or its end. -/
theorem decides_expressionStep (hE : Judges E n) (hleft : min.phrase.Begins ws mid)
    (h : Faces verdict (n + 1) ⟨.operator, pending, outer⟩ mid) :
    Decides verdict (expressionStep E min left) mid fun next rest => next.elim
      (fun _ => min.phrase.Begins ws rest ∧
        Faces verdict mid.length ⟨.operator, pending, outer⟩ rest)
      fun _ => rest = mid ∧ Parser.continuation? min (nextKind rest) = none := by
  refine .bind_reads .look ?_
  rw [← nextKind]
  cases hrule : Parser.continuation? min (nextKind mid) with
  | none => exact .pure ⟨rfl, hrule⟩
  | some rule =>
    cases mid with
    | nil => cases hrule
    | cons w mid =>
      -- what is left behind the word is shorter
      have hE' : Judges E (w :: mid).length := hE.mono (Nat.le_of_lt_succ h.length_lt)
      exact .bind_reads .advance ((hE'.decides_extend hrule hleft h.tight).bind
        fun _ _ hread => .pure hread)

/-- An expression is judged where shorter ones are. -/
theorem next (hE : Judges E n) : Judges (expressionRule E) (n + 1) := by
  intro verdict min pending outer ws h
  refine .bind_reads .look ?_
  rw [← nextKind]
  cases hrule : StartRule.ofKind? (nextKind ws) with
  | none => exact .fail (h.eq_false_of_start hrule)
  | some rule =>
    cases ws with
    | nil => cases hrule
    | cons w ws =>
      have hE' : Judges E (w :: ws).length := hE.mono (Nat.le_of_lt_succ h.length_lt)
      refine .bind_reads .advance ((hE'.decides_start hrule h.tight).bind ?_)
      rintro left mid ⟨hleft, hmid⟩
      refine .bind_bound fun bound hbound => ?_
      let I (_ : Tree) (mid : List Word) : Prop :=
        min.phrase.Begins (w :: ws) mid ∧
          Faces verdict (w :: ws).length ⟨.operator, pending, outer⟩ mid
      refine .loop (I := I) (fun left mid hmid => ?_) hbound ⟨hleft.phrase min, hmid⟩
      have hlt : mid.length < (w :: ws).length := hmid.2.length_lt
      refine (hE'.decides_expressionStep hmid.1 (hmid.2.mono (Nat.le_succ _))).mono
        fun next rest hnext => ?_
      cases next with
      | inl _ => exact ⟨⟨hnext.1, hnext.2.mono (Nat.le_of_lt hlt)⟩, hnext.2.length_lt⟩
      | inr _ =>
        obtain ⟨rfl, hends⟩ := hnext
        exact ⟨hmid.1, hmid.2, hends⟩

end Judges

/-- The readers for expressions keep to the grammar, if they allow for enough nesting. -/
theorem judges_expressionWithin (n : Nat) : Judges (expressionWithin n) n := by
  induction n with
  | zero => exact fun _ _ _ _ _ h => absurd h.length_lt (Nat.not_lt_zero _)
  | succ n ih => exact ih.next

end Reader

end ExprLang
