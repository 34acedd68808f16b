import ExprLang.Parser.Precedence
import ExprLang.Proofs.Reader.Basic
import ExprLang.Proofs.Tree.Basic

/-!
# Operators and operands

Words that alternate between operands and operators can be grouped in many ways.
One of them gives each operator operands that bind strongly enough: to its left at
least as strongly as the operator, to its right more strongly, and the other way
round for an assignment.

Main definitions:

- Definition {lit}`OperatorSequence`: operands with operators between them.
- Definition {lit}`Tree.InOrder`: the words of a tree, read from left to right.
- Definition {lit}`Tree.level`: how strongly a tree binds.
- Definition {lit}`Tree.Ranked`: every operand binds strongly enough.

Main results:

- Theorem {lit}`Tree.InOrder.exists_graft`: one more operand and operator in front.
- Theorem {lit}`OperatorSequence.exists_ranked`: every sequence can be grouped.
-/

namespace ExprLang

/-! ## Operators between operands -/

/-- How strongly a binary operator binds. -/
def BinaryOperator.level : BinaryOperator → Precedence
  | or => .disjunction
  | and => .conjunction
  | equal | notEqual => .equality
  | less | lessEqual | greater | greaterEqual => .comparison
  | plus | minus => .additive
  | times | divide | remainder => .multiplicative

/-- What can stand between two operands. -/
inductive InfixOperator where
  | binary (operator : BinaryOperator)
  | assignment (operator : AssignmentOperator)
  | call (name : String)
deriving DecidableEq, Repr, Inhabited

namespace InfixOperator

/-- How strongly an operator binds. -/
def level : InfixOperator → Precedence
  | binary operator => operator.level
  | assignment _ => .assignment
  | call _ => .infixCall

/-- An operator with its operands. -/
def node (left right : Tree) : InfixOperator → Tree
  | binary operator => .binary left operator right
  | assignment operator => .assignment left operator right
  | call name => .infixInvocation left name right

/-- A word writes an operator. -/
def IsWord (w : Word) : InfixOperator → Prop
  | binary operator => w.kind = operator.kind
  | assignment operator => w.kind = operator.kind
  | call name => w.kind = .identifier ∧ w.text = name

/-- Operators between operands bind less strongly than those before them. -/
theorem rank_level_lt (op : InfixOperator) : op.level.rank < Precedence.unary.rank := by
  cases op with
  | binary operator => cases operator <;> decide
  | assignment => exact Nat.le_of_ble_eq_true rfl
  | call => exact Nat.le_of_ble_eq_true rfl

/-- They bind more strongly than nothing. -/
theorem lt_rank_level (op : InfixOperator) : Precedence.lowest.rank < op.level.rank := by
  cases op with
  | binary operator => cases operator <;> decide
  | assignment => exact Nat.le_of_ble_eq_true rfl
  | call => exact Nat.le_of_ble_eq_true rfl

/-- What the operand on the right has to bind more strongly than: an assignment takes in another
one. -/
def grip : InfixOperator → Precedence
  | assignment _ => .lowest
  | op => op.level

/-- No operator asks for more of its right operand than that it binds more strongly than the
operator itself. -/
theorem rank_grip_le (op : InfixOperator) : op.grip.rank ≤ op.level.rank := by
  cases op <;> first | exact Nat.le_refl _ | exact Nat.zero_le _

/-- An assignment asks for nothing. -/
theorem grip_of_assignment {op : InfixOperator} (h : op.level = .assignment) :
    op.grip = .lowest := by
  cases op with
  | binary operator => cases operator <;> cases h
  | assignment => rfl
  | call => cases h

end InfixOperator

/-! ## Words -/

/-- A name with members and calls without arguments behind it. -/
inductive Primary : List Word → Prop
  | name {w : Word} (hw : w.kind = .identifier) : Primary [w]
  | member {ws : List Word} {dot member : Word} (h : Primary ws) (hd : dot.kind = .dot)
    (hm : member.kind.isA .name = true) : Primary (ws ++ [dot, member])
  | call {ws : List Word} {opening closing : Word} (h : Primary ws)
    (ho : opening.kind = .leftParen) (hc : closing.kind = .rightParen) :
    Primary (ws ++ [opening, closing])

/-- Unary operators before a name with members and calls behind it. -/
inductive Operand : List Word → Prop
  | primary {ws : List Word} (h : Primary ws) : Operand ws
  | unary {operator : UnaryOperator} {w : Word} {ws : List Word} (hw : w.kind = operator.kind)
    (h : Operand ws) : Operand (w :: ws)

/-- Operands with operators between them. -/
inductive OperatorSequence : List Word → Prop
  | operand {ws : List Word} (h : Operand ws) : OperatorSequence ws
  | operator {op : InfixOperator} {w : Word} {ws vs : List Word} (h : Operand ws)
    (hw : op.IsWord w) (hv : OperatorSequence vs) : OperatorSequence (ws ++ w :: vs)

namespace Tree

/-- The words of a tree, read from left to right.  A name is called by itself, and anything else as
a value. -/
inductive InOrder : Tree → List Word → Prop
  | reference {w : Word} (hw : w.kind = .identifier) : InOrder (.reference w.text) [w]
  | unary {operator : UnaryOperator} {w : Word} {operand : Tree} {ws : List Word}
    (hw : w.kind = operator.kind) (h : InOrder operand ws) :
    InOrder (.unary operator operand) (w :: ws)
  | operation {op : InfixOperator} {w : Word} {left right : Tree} {ws vs : List Word}
    (hl : InOrder left ws) (hw : op.IsWord w) (hr : InOrder right vs) :
    InOrder (op.node left right) (ws ++ w :: vs)
  | memberAccess {receiver : Tree} {ws : List Word} {dot member : Word}
    (h : InOrder receiver ws) (hd : dot.kind = .dot) (hm : member.kind.isA .name = true) :
    InOrder (.memberAccess receiver member.text) (ws ++ [dot, member])
  | namedInvocation {w opening closing : Word} (hw : w.kind = .identifier)
    (ho : opening.kind = .leftParen) (hc : closing.kind = .rightParen) :
    InOrder (.namedInvocation w.text []) [w, opening, closing]
  | anonymousInvocation {target : Tree} {ws : List Word} {opening closing : Word}
    (h : InOrder target ws) (hr : ∀ name, target ≠ .reference name)
    (ho : opening.kind = .leftParen) (hc : closing.kind = .rightParen) :
    InOrder (.anonymousInvocation target []) (ws ++ [opening, closing])

/-! ## Levels -/

/-- How strongly a tree binds. -/
def level : Tree → Precedence
  | binary _ operator _ => operator.level
  | assignment .. => .assignment
  | infixInvocation .. => .infixCall
  | unary .. => .unary
  | _ => .postfixCall

/-- The operands of a node bind as strongly as the node asks for. -/
def IsRanked : Tree → Prop
  | binary left operator right =>
    operator.level.rank ≤ left.level.rank ∧ operator.level.rank < right.level.rank
  | infixInvocation left _ right =>
    Precedence.infixCall.rank ≤ left.level.rank ∧ Precedence.infixCall.rank < right.level.rank
  | assignment target _ value =>
    Precedence.assignment.rank < target.level.rank ∧
      Precedence.assignment.rank ≤ value.level.rank
  | unary _ operand => Precedence.unary.rank ≤ operand.level.rank
  | memberAccess receiver _ => Precedence.postfixCall.rank ≤ receiver.level.rank
  | anonymousInvocation target _ => Precedence.postfixCall.rank ≤ target.level.rank
  | _ => True

/-- Every operand in a tree binds strongly enough. -/
abbrev Ranked (tree : Tree) : Prop := tree.All IsRanked

@[simp] theorem level_node (op : InfixOperator) (left right : Tree) :
    (op.node left right).level = op.level := by
  cases op <;> rfl

/-- What an operator asks of its operands. -/
theorem isRanked_node {op : InfixOperator} {left right : Tree} :
    (op.node left right).IsRanked ↔
      op.level.rank ≤ left.level.rank ∧ (op.level = .assignment → left.level ≠ .assignment) ∧
        op.grip.rank < right.level.rank := by
  cases op with
  | binary operator =>
    have hne : operator.level ≠ .assignment := by cases operator <;> decide
    simp [InfixOperator.node, IsRanked, InfixOperator.level, InfixOperator.grip, hne]
  | call name =>
    simp [InfixOperator.node, IsRanked, InfixOperator.level, InfixOperator.grip]
  | assignment operator =>
    have hlt : Precedence.assignment.rank < left.level.rank ↔
        Precedence.assignment.rank ≤ left.level.rank ∧ left.level ≠ .assignment := by
      cases left.level <;> decide
    have hle : Precedence.assignment.rank ≤ right.level.rank ↔
        Precedence.lowest.rank < right.level.rank := by
      cases right.level <;> decide
    simp [InfixOperator.node, IsRanked, InfixOperator.level, InfixOperator.grip, hlt, hle,
      and_assoc]

/-- What an operator asks of all below it. -/
theorem ranked_node {op : InfixOperator} {left right : Tree} :
    (op.node left right).Ranked ↔ (op.node left right).IsRanked ∧ left.Ranked ∧ right.Ranked := by
  have hchildren : (op.node left right).children = [left, right] := by cases op <;> rfl
  rw [Ranked, all_iff, hchildren]
  simp

/-- What stands alone is ranked if its operand is. -/
theorem ranked_of_children {tree child : Tree} (h : tree.IsRanked) (hc : tree.children = [child])
    (hchild : child.Ranked) : tree.Ranked :=
  .intro h (by simpa [hc] using hchild)

end Tree

/-! ## Grouping -/

/-- A name with members and calls behind it is grouped from the left. -/
theorem Primary.exists_ranked {ws : List Word} (h : Primary ws) :
    ∃ tree : Tree, tree.InOrder ws ∧ tree.Ranked ∧ tree.level = .postfixCall ∧
      ((∃ w, w.kind = .identifier ∧ ws = [w]) ∨ ∀ name, tree ≠ .reference name) := by
  induction h with
  | @name w hw =>
    exact ⟨.reference w.text, .reference hw, .intro trivial (by simp [Tree.children, Tree.groups]),
      rfl, .inl ⟨w, hw, rfl⟩⟩
  | @member ws dot member _ hd hm ih =>
    obtain ⟨tree, horder, hranked, hlevel, -⟩ := ih
    exact ⟨.memberAccess tree member.text, .memberAccess horder hd hm,
      Tree.ranked_of_children (Nat.le_of_eq (by rw [hlevel])) rfl hranked, rfl, .inr (by simp)⟩
  | @call ws opening closing _ ho hc ih =>
    obtain ⟨tree, horder, hranked, hlevel, ⟨w, hw, rfl⟩ | hr⟩ := ih
    · exact ⟨.namedInvocation w.text [], .namedInvocation hw ho hc,
        .intro trivial (by simp [Tree.children, Tree.groups]), rfl, .inr (by simp)⟩
    · exact ⟨.anonymousInvocation tree [], .anonymousInvocation horder hr ho hc,
        Tree.ranked_of_children (Nat.le_of_eq (by rw [hlevel])) rfl hranked, rfl, .inr (by simp)⟩

/-- Unary operators apply to all members and calls behind them. -/
theorem Operand.exists_ranked {ws : List Word} (h : Operand ws) :
    ∃ tree : Tree, tree.InOrder ws ∧ tree.Ranked ∧
      Precedence.unary.rank ≤ tree.level.rank := by
  induction h with
  | primary h =>
    obtain ⟨tree, horder, hranked, hlevel, -⟩ := h.exists_ranked
    exact ⟨tree, horder, hranked, by rw [hlevel]; decide⟩
  | @unary operator w ws hw _ ih =>
    obtain ⟨tree, horder, hranked, hlevel⟩ := ih
    exact ⟨.unary operator tree, .unary hw horder, Tree.ranked_of_children hlevel rfl hranked,
      Nat.le_refl _⟩

/-- An operand and an operator in front of a tree become its left end: they go down until what
follows binds strongly enough. -/
theorem Tree.InOrder.exists_graft {operand tree : Tree} {op : InfixOperator} {w : Word}
    {us ws : List Word} (h : tree.InOrder ws) (hranked : tree.Ranked) (hu : operand.InOrder us)
    (hoperand : operand.Ranked) (hlevel : Precedence.unary.rank ≤ operand.level.rank)
    (hw : op.IsWord w) :
    ∃ result : Tree, result.InOrder (us ++ w :: ws) ∧ result.Ranked ∧
      (op.level.rank ≤ result.level.rank ∨ tree.level = result.level) := by
  have hop := op.rank_level_lt
  -- where what follows binds strongly enough, it is the right operand
  have hplace (tree : Tree) (ws : List Word) (h : tree.InOrder ws) (hranked : tree.Ranked)
      (hgrip : op.grip.rank < tree.level.rank) :
      ∃ result : Tree, result.InOrder (us ++ w :: ws) ∧ result.Ranked ∧
        (op.level.rank ≤ result.level.rank ∨ tree.level = result.level) := by
    refine ⟨op.node operand tree, .operation hu hw h, Tree.ranked_node.2 ⟨Tree.isRanked_node.2
      ⟨by omega, fun _ he => ?_, hgrip⟩, hoperand, hranked⟩, .inl (by simp)⟩
    rw [he] at hlevel
    exact absurd hlevel (by decide)
  have hgrip : op.grip.rank < Precedence.unary.rank := Nat.lt_of_le_of_lt op.rank_grip_le hop
  have hgrip' : op.grip.rank < Precedence.postfixCall.rank := Nat.lt_trans hgrip (by decide)
  induction h with
  | reference hw' =>
    exact hplace _ _ (.reference hw') hranked hgrip'
  | unary hw' h => exact hplace _ _ (.unary hw' h) hranked hgrip
  | memberAccess h hd hm =>
    exact hplace _ _ (.memberAccess h hd hm) hranked hgrip'
  | namedInvocation hw' ho hc =>
    exact hplace _ _ (.namedInvocation hw' ho hc) hranked hgrip'
  | anonymousInvocation h hr ho hc =>
    exact hplace _ _ (.anonymousInvocation h hr ho hc) hranked hgrip'
  | @operation op' w' left right ws vs hl hw' hr ihl _ =>
    by_cases hlt : op.grip.rank < op'.level.rank
    · exact hplace _ _ (.operation hl hw' hr) hranked (by simpa using hlt)
    · obtain ⟨hhere, hleft, hright⟩ := Tree.ranked_node.1 hranked
      obtain ⟨hle, hne, hright'⟩ := Tree.isRanked_node.1 hhere
      obtain ⟨result, horder, hresult, hlevel'⟩ := ihl hleft
      have hle' : op'.level.rank ≤ op.level.rank :=
        Nat.le_trans (Nat.le_of_not_lt hlt) op.rank_grip_le
      -- an assignment takes in all that follows, so it goes no further down
      have hassign : op.level ≠ .assignment := fun he => by
        rw [op.grip_of_assignment he] at hlt
        exact hlt op'.lt_rank_level
      refine ⟨op'.node result right, ?_, Tree.ranked_node.2 ⟨Tree.isRanked_node.2
        ⟨?_, fun he hresult' => ?_, hright'⟩, hresult, hright⟩, .inr (by simp)⟩
      · rw [← List.cons_append, ← List.append_assoc]
        exact .operation horder hw' hr
      · rcases hlevel' with h | h
        · omega
        · rw [← h]
          exact hle
      · rcases hlevel' with h | h
        · rw [hresult', ← he] at h
          exact hassign ((Precedence.rank_injective (Nat.le_antisymm h hle')).trans he)
        · exact hne he (h.trans hresult')

/-- Every sequence can be grouped so that all operands bind strongly enough. -/
theorem OperatorSequence.exists_ranked {ws : List Word} (h : OperatorSequence ws) :
    ∃ tree : Tree, tree.InOrder ws ∧ tree.Ranked := by
  induction h with
  | operand h =>
    obtain ⟨tree, horder, hranked, -⟩ := h.exists_ranked
    exact ⟨tree, horder, hranked⟩
  | operator h hw _ ih =>
    obtain ⟨operand, hoperand, hranked, hlevel⟩ := h.exists_ranked
    obtain ⟨tree, horder, hranked'⟩ := ih
    obtain ⟨result, hresult, hranked'', -⟩ :=
      horder.exists_graft hranked' hoperand hranked hlevel hw
    exact ⟨result, hresult, hranked''⟩

end ExprLang
