import ExprLang.Proofs.Reader.Expressions
import ExprLang.Proofs.Tree.Operators

/-!
# Reading operators

An operand is read up to the first word that binds no more strongly than what
stands before it.  So a tree whose operands bind strongly enough is what is read
from its words.

Main definitions:

- Definition {lit}`Tree.grip`: what a word has to bind more strongly than to go on
  with the right end of a tree.
- Definition {lit}`Reader.Groups`: a reader groups words as ranked trees do.

Main results:

- Theorem {lit}`Reader.groups_expressionWithin`: the readers for expressions do.
- Theorem {lit}`Tree.InOrder.eq_of_ranked`: there is one ranked tree for some words.
-/

namespace ExprLang

/-! ## The right ends of trees -/

/-- What a word has to bind more strongly than to go on with the right end of a tree. -/
def Tree.grip : Tree → Precedence
  | .assignment .. => .lowest
  | tree => tree.level

@[simp] theorem Tree.grip_node (op : InfixOperator) (left right : Tree) :
    (op.node left right).grip = op.grip := by
  cases op <;> rfl

/-- Only an assignment takes in what binds less strongly than it does. -/
theorem Tree.grip_eq {tree : Tree} (h : tree.level ≠ .assignment) : tree.grip = tree.level := by
  cases tree <;> first | rfl | exact absurd rfl h

/-- The words of a tree do not begin with a number. -/
theorem Tree.InOrder.isNumber_nextKind {tree : Tree} {ws : List Word} (h : tree.InOrder ws)
    (rest : List Word) : (nextKind (ws ++ rest)).isNumber = false := by
  induction h generalizing rest with
  | reference hw =>
    rw [List.cons_append, nextKind_cons, hw]
    rfl
  | @unary operator w operand ws hw =>
    rw [List.cons_append, nextKind_cons, hw]
    cases operator <;> rfl
  | operation _ _ _ ihl =>
    rw [List.append_assoc]
    exact ihl _
  | memberAccess _ _ _ ih =>
    rw [List.append_assoc]
    exact ih _
  | namedInvocation hw =>
    rw [List.cons_append, nextKind_cons, hw]
    rfl
  | anonymousInvocation _ _ _ _ ih =>
    rw [List.append_assoc]
    exact ih _

/-- A tree can stand where an expression is read that binds more strongly than {lit}`min`: a unary
operation can wherever an expression can. -/
def Tree.Fits (min : Precedence) (tree : Tree) : Prop :=
  min.rank ≤ Precedence.unary.rank ∧ (tree.level = .unary ∨ min.rank < tree.level.rank)

/-- What is around a tree binds no more strongly than what goes on with its right end. -/
theorem Tree.Fits.rank_le_grip {tree : Tree} {min : Precedence} (h : tree.Fits min) :
    min.rank ≤ tree.grip.rank := by
  by_cases hassign : tree.level = .assignment
  · rcases h.2 with he | hlt
    · cases hassign.symm.trans he
    · rw [hassign] at hlt
      exact Nat.le_trans (Nat.le_of_lt_succ hlt) (Nat.zero_le _)
  · rw [Tree.grip_eq hassign]
    rcases h.2 with he | hlt
    · rw [he]
      exact h.1
    · exact Nat.le_of_lt hlt

namespace Parser

variable {min min' : Precedence} {kind : TokenKind} {rule : ContinueRule} {precedence : Precedence}

/-- A word goes on with an expression if it binds more strongly than what is around. -/
theorem continuation?_of_lt (h : ContinueRule.ofKind? kind = some (rule, precedence))
    (hlt : min.rank < precedence.rank) : continuation? min kind = some rule := by
  simp [continuation?, h, Option.filter, hlt]

/-- What does not go on with an expression does not go on with one that binds more strongly. -/
theorem continuation?_eq_none (h : continuation? min kind = none) (hle : min.rank ≤ min'.rank) :
    continuation? min' kind = none := by
  cases hrule : ContinueRule.ofKind? kind with
  | none => simp [continuation?, hrule]
  | some rule =>
    simp only [continuation?, hrule, Option.map_eq_none_iff, Option.filter_eq_none_iff,
      Option.some.injEq, forall_eq', decide_eq_true_eq] at h ⊢
    omega

/-- A word does not go on with an expression that binds at least as strongly as the word does. -/
theorem continuation?_of_le (h : ContinueRule.ofKind? kind = some (rule, precedence))
    (hle : precedence.rank ≤ min.rank) : continuation? min kind = none := by
  simp [continuation?, h, Option.filter, Nat.not_lt_of_le hle]

end Parser

/-- What goes on with an expression where an operator is written. -/
theorem InfixOperator.exists_rule {op : InfixOperator} {w : Word} (hw : op.IsWord w) :
    ∃ rule, ContinueRule.ofKind? w.kind = some (rule, op.level) := by
  cases op with
  | binary operator => exact ⟨.binary, by rw [show w.kind = _ from hw]; cases operator <;> rfl⟩
  | assignment operator =>
    exact ⟨.assignment, by rw [show w.kind = _ from hw]; cases operator <;> rfl⟩
  | call name => exact ⟨.infixCall, by rw [hw.1]; rfl⟩

namespace Reader

open ExprLang.Tree

variable {E : ExpressionReader} {n : Nat} {p : Prop} {tree left right result : Tree}
  {min precedence : Precedence} {rule : ContinueRule} {op : InfixOperator} {w : Word}
  {ws vs rest out : List Word}

/-! ## Operators -/

/-- What an operator makes of the expression before it, where its right operand is read. -/
theorem reads_extend (hw : op.IsWord w)
    (hrule : ContinueRule.ofKind? w.kind = some (rule, precedence))
    (h : Reads p (E op.grip) vs right rest) :
    Reads p (extend E left w rule) vs (op.node left right) rest := by
  cases op with
  | binary operator =>
    have hkind : w.kind = operator.kind := hw
    have hlevel : ContinueRule.ofKind? operator.kind = some (.binary, operator.level) := by
      cases operator <;> rfl
    rw [hkind, hlevel] at hrule
    cases hrule
    show Reads p (binary E left w.kind) _ _ _
    unfold binary
    rw [hkind, BinaryOperator.ofKind?_kind, hlevel]
    exact .bind h (.pure _)
  | assignment operator =>
    have hkind : w.kind = operator.kind := hw
    have hlevel : ContinueRule.ofKind? operator.kind = some (.assignment, .assignment) := by
      cases operator <;> rfl
    rw [hkind, hlevel] at hrule
    cases hrule
    show Reads p (assignment E left w.kind) _ _ _
    unfold assignment
    rw [hkind, AssignmentOperator.ofKind?_kind]
    exact .bind h (.pure _)
  | call name =>
    obtain ⟨hkind, rfl⟩ := hw
    rw [hkind] at hrule
    cases hrule
    exact .bind h (.pure _)

/-- A word that goes on with an expression, and what follows it. -/
theorem reads_loop_extend {m : Nat} (hm : (w :: (vs ++ rest)).length < m)
    (hw : Parser.continuation? min w.kind = some rule)
    (h : Reads p (extend E left w rule) (vs ++ rest) tree rest)
    (hloop : ∀ m, rest.length < m → Reads p (loop (expressionStep E min) m tree) rest result out) :
    Reads p (loop (expressionStep E min) m left) (w :: (vs ++ rest)) result out := by
  refine .loop_next hm (.bind .peek ?_) (by simp only [List.length_cons, List.length_append]; omega)
    hloop
  rw [hw]
  exact .bind .advance (.bind h (.pure _))

/-! ## Calls and unary operators -/

/-- A call without arguments. -/
theorem reads_invocation (hw : w.kind = .rightParen) :
    Reads p (invocation E left) (w :: rest) (left.call []) rest := by
  have hlist : Reads p (argumentList (E .lowest)) (w :: rest) [] rest := by
    refine .bind_bound fun m hm => .bind (.loop_end hm ?_) (.bind (.expectKind hw) (.pure _))
    refine .bind (.check _) ?_
    rw [nextKind_cons, hw]
    exact .pure _
  exact .bind hlist (.pure _)

/-- A unary operation after its operator, where its operand is no number. -/
theorem reads_unary {operator : UnaryOperator} (hnumber : (nextKind ws).isNumber = false)
    (h : Reads p (E .unary) ws tree rest) :
    Reads p (Reader.unary E operator.kind) ws (.unary operator tree) rest := by
  unfold Reader.unary
  rw [UnaryOperator.ofKind?_kind]
  refine .bind reads_negativeNumberFollows ?_
  rw [hnumber, Bool.false_and, Bool.and_false]
  exact .bind h (.pure _)

/-! ## Words in order -/

/-- A reader for expressions groups words as ranked trees do, if there are fewer than so many and
the word behind them does not go on with the expression. -/
def Groups (E : ExpressionReader) (n : Nat) : Prop :=
  ∀ ⦃p : Prop⦄ ⦃tree : Tree⦄ ⦃min : Precedence⦄ ⦃ws rest : List Word⦄, tree.InOrder ws →
    tree.Ranked → ws.length < n → tree.Fits min →
      Parser.continuation? min (nextKind rest) = none → Reads p (E min) (ws ++ rest) tree rest

namespace Groups

/-- A tree is read at the head of an expression if no word behind it goes on with its right
end. -/
theorem heads (hE : Groups E n) (h : tree.InOrder ws) (hranked : tree.Ranked)
    (hn : ws.length ≤ n) (hfits : tree.Fits min)
    (hrest : Parser.continuation? tree.grip (nextKind rest) = none)
    (hloop : ∀ m, rest.length < m → Reads p (loop (expressionStep E min) m tree) rest result out) :
    Reads p (expressionRule E min) (ws ++ rest) result out := by
  have hpostfix : min.rank < Precedence.postfixCall.rank := Nat.lt_of_le_of_lt hfits.1 (by decide)
  -- what members and calls belong to
  have hreceiver {receiver : Tree} {w : Word} {rule : ContinueRule}
      (hr : Precedence.postfixCall.rank ≤ receiver.level.rank)
      (hw : ContinueRule.ofKind? w.kind = some (rule, .postfixCall)) :
      receiver.Fits min ∧ Parser.continuation? receiver.grip w.kind = none := by
    refine ⟨⟨hfits.1, .inr (Nat.lt_of_lt_of_le hpostfix hr)⟩, Parser.continuation?_of_le hw ?_⟩
    rwa [Tree.grip_eq fun he => by rw [he] at hr; exact absurd hr (by decide)]
  induction h generalizing rest result out with
  | @reference w hw =>
    refine .bind .peek ?_
    rw [hw]
    exact .bind .advance (.bind (.pure _) (.bind_bound hloop))
  | @unary operator w operand ws hw h _ =>
    obtain ⟨hhere, hbelow⟩ := all_iff.1 hranked
    have hfits' : operand.Fits .unary := by
      refine ⟨Nat.le_refl _, ?_⟩
      rcases Nat.lt_or_eq_of_le (show Precedence.unary.rank ≤ operand.level.rank from hhere)
        with hlt | he
      · exact .inr hlt
      · exact .inl (Precedence.rank_injective he.symm)
    have hread : Reads p (E .unary) (ws ++ rest) operand rest :=
      hE h (hbelow operand (by simp [children, groups])) hn hfits' hrest
    refine .bind .peek ?_
    rw [show StartRule.ofKind? w.kind = some .unary by rw [hw]; cases operator <;> rfl]
    refine .bind .advance (.bind ?_ (.bind_bound hloop))
    show Reads p (Reader.unary E w.kind) _ _ _
    rw [hw]
    exact reads_unary (h.isNumber_nextKind rest) hread
  | @operation op w left right ws vs hl hw hr ihl _ =>
    obtain ⟨hhere, hleft, hright⟩ := Tree.ranked_node.1 hranked
    obtain ⟨hle, hne, hgrip⟩ := Tree.isRanked_node.1 hhere
    obtain ⟨rule, hrule⟩ := InfixOperator.exists_rule hw
    have hop := op.rank_level_lt
    have hmin : min.rank < op.level.rank := by
      rcases hfits.2 with hlevel | hlt
      · rw [level_node] at hlevel
        rw [hlevel] at hop
        exact absurd hop (Nat.lt_irrefl _)
      · simpa using hlt
    have hassign : left.level ≠ .assignment := fun he => by
      rw [he] at hle
      exact hne (Precedence.rank_injective (Nat.le_antisymm hle op.lt_rank_level)) he
    rw [List.append_assoc, List.cons_append]
    rw [List.length_append, List.length_cons] at hn
    refine ihl hleft (by omega) ⟨hfits.1, .inr (Nat.lt_of_lt_of_le hmin hle)⟩
      (Parser.continuation?_of_le hrule (by rwa [Tree.grip_eq hassign])) fun m hm => ?_
    refine reads_loop_extend hm (Parser.continuation?_of_lt hrule hmin)
      (reads_extend hw hrule (hE hr hright (by omega) ?_ ?_)) hloop
    · exact ⟨Nat.le_trans op.rank_grip_le (Nat.le_of_lt hop), .inr hgrip⟩
    · simpa using hrest
  | @memberAccess receiver ws dot member h hd hm ih =>
    obtain ⟨hhere, hbelow⟩ := all_iff.1 hranked
    have hrule : ContinueRule.ofKind? dot.kind = some (.member, .postfixCall) := by rw [hd]; rfl
    obtain ⟨hfits', hends⟩ := hreceiver hhere hrule
    rw [List.append_assoc]
    rw [List.length_append] at hn
    refine ih (hbelow receiver (by simp [children, groups])) (by omega) hfits' hends fun m hlt => ?_
    have hnext : Parser.continuation? min dot.kind = some .member :=
      Parser.continuation?_of_lt hrule hpostfix
    refine reads_loop_extend (show (dot :: ([member] ++ rest)).length < m from hlt) hnext ?_ hloop
    exact .bind (.expect (by simpa [Expectation.accepts, TokenKind.isAnyOf] using hm)) (.pure _)
  | @namedInvocation w opening closing hw ho hc =>
    have hrule : ContinueRule.ofKind? opening.kind = some (.invocation, .postfixCall) := by
      rw [ho]; rfl
    refine .bind .peek ?_
    rw [hw]
    refine .bind .advance (.bind (.pure _) (.bind_bound fun m hlt => ?_))
    exact reads_loop_extend (show (opening :: ([closing] ++ rest)).length < m from hlt)
      (Parser.continuation?_of_lt hrule hpostfix)
      (reads_invocation hc) hloop
  | @anonymousInvocation target ws opening closing h hr ho hc ih =>
    obtain ⟨hhere, hbelow⟩ := all_iff.1 hranked
    have hrule : ContinueRule.ofKind? opening.kind = some (.invocation, .postfixCall) := by
      rw [ho]; rfl
    obtain ⟨hfits', hends⟩ := hreceiver hhere hrule
    have hcall : target.call [] = .anonymousInvocation target [] := by
      cases target <;> first | rfl | exact absurd rfl (hr _)
    rw [List.append_assoc]
    rw [List.length_append] at hn
    refine ih (hbelow target (by simp [children, groups])) (by omega) hfits' hends fun m hlt => ?_
    exact reads_loop_extend (show (opening :: ([closing] ++ rest)).length < m from hlt)
      (Parser.continuation?_of_lt hrule hpostfix)
      (hcall ▸ reads_invocation hc) hloop

/-- A reader for expressions groups longer words where it is given one that groups shorter ones. -/
theorem next (hE : Groups E n) : Groups (expressionRule E) (n + 1) := by
  intro p tree min ws rest h hranked hn hfits hrest
  refine hE.heads h hranked (by omega) hfits
    (Parser.continuation?_eq_none hrest hfits.rank_le_grip) fun m hm =>
      .loop_end hm (.bind .look ?_)
  rw [← nextKind, hrest]
  exact .pure _

end Groups

/-- The readers for expressions group words as ranked trees do, if they allow for enough
nesting. -/
theorem groups_expressionWithin (n : Nat) : Groups (expressionWithin n) n := by
  induction n with
  | zero => exact fun _ _ _ _ _ _ _ hn => absurd hn (Nat.not_lt_zero _)
  | succ n ih => exact ih.next

end Reader

namespace Tree

variable {tree other : Tree} {ws : List Word}

/-- Every tree binds more strongly than nothing. -/
theorem lt_rank_level (tree : Tree) : Precedence.lowest.rank < tree.level.rank := by
  cases tree with
  | binary left operator right => exact (InfixOperator.binary operator).lt_rank_level
  | _ => exact Nat.zero_lt_succ _

/-- A ranked tree is read from its words. -/
theorem InOrder.reads_expression {p : Prop} (h : tree.InOrder ws) (hranked : tree.Ranked) :
    Reader.Reads p (Reader.expression .lowest) ws tree [] := by
  refine .bind_bound fun n hn => ?_
  have hread : Reader.Reads p (Reader.expressionWithin n .lowest) (ws ++ []) tree [] :=
    Reader.groups_expressionWithin n h hranked hn ⟨Nat.zero_le _, .inr tree.lt_rank_level⟩ rfl
  rwa [List.append_nil] at hread

/-- There is one ranked tree for some words. -/
theorem InOrder.eq_of_ranked (h : tree.InOrder ws) (hranked : tree.Ranked)
    (h' : other.InOrder ws) (hranked' : other.Ranked) : other = tree := by
  have hreads : Reader.Reads True (Reader.expression .lowest) ws tree [] :=
    h.reads_expression hranked
  have hreads' : Reader.Reads True (Reader.expression .lowest) ws other [] :=
    h'.reads_expression hranked'
  obtain ⟨clean, flag, hread, -⟩ := hreads false
  obtain ⟨clean', flag', hread', -⟩ := hreads' false
  have hsame := congrArg Reading.value (hread'.symm.trans hread)
  exact Option.some.inj hsame

end Tree

end ExprLang
