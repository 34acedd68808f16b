import ExprLang.Proofs.Grammar.Derivations

/-!
# Expressions token by token

An expression can be told from its tokens in one pass.  What has to be kept is which
parentheses are open, and how many conditionals an `else` can still belong to at each
place between them: a conditional takes in all that follows up to the parenthesis
around it, so it does not matter which of the conditionals that is.

Main definitions:

- Definition {lit}`Scan.step?`: one token.
- Definition {lit}`Scan.accepts`: the tokens up to the end.

Main results:

- Theorem {lit}`Derives.passes`: what is derived is passed over.
- Theorem {lit}`Derives.accepts`: every expression is accepted.
-/

namespace ExprLang

/-- What a parenthesis begins. -/
inductive Parenthesis where
  | group
  | call
  | condition
deriving DecidableEq, Repr

/-- What has to come next. -/
inductive ScanMode where
  /-- An operand, or the end of the arguments of a call if that may come instead. -/
  | operand (mayClose : Bool)
  /-- The condition of a conditional. -/
  | condition
  /-- Whatever can come behind an operand. -/
  | operator
  /-- The name of a member. -/
  | member
deriving DecidableEq, Repr

/-- A pass over the tokens of an expression. -/
structure Scan where
  mode : ScanMode
  /-- How many conditionals an `else` can belong to. -/
  pending : Nat
  /-- The open parentheses, the innermost first, and how many conditionals are pending around
  each. -/
  outer : List (Parenthesis × Nat)
deriving DecidableEq, Repr

namespace Scan

/-! ## Steps -/

/-- The first token of an operand. -/
def stepOperand? (mayClose : Bool) (pending : Nat) (outer : List (Parenthesis × Nat)) :
    TokenKind → Option Scan
  | .minus | .not => some ⟨.operand false, pending, outer⟩
  | .leftParen => some ⟨.operand false, 0, (.group, pending) :: outer⟩
  | .wordIf => some ⟨.condition, pending, outer⟩
  | .rightParen =>
    match mayClose, outer with
    | true, (.call, pending) :: outer => some ⟨.operator, pending, outer⟩
    | _, _ => none
  | kind =>
    if kind.isLiteral || kind.isReference then some ⟨.operator, pending, outer⟩ else none

/-- A closing parenthesis behind an operand.  Behind a condition a conditional is pending. -/
def close? : List (Parenthesis × Nat) → Option Scan
  | [] => none
  | (.condition, pending) :: outer => some ⟨.operand false, pending + 1, outer⟩
  | (.group, pending) :: outer | (.call, pending) :: outer => some ⟨.operator, pending, outer⟩

/-- A token behind an operand. -/
def stepOperator? (pending : Nat) (outer : List (Parenthesis × Nat)) :
    TokenKind → Option Scan
  | .dot => some ⟨.member, pending, outer⟩
  | .leftParen => some ⟨.operand true, 0, (.call, pending) :: outer⟩
  | .rightParen => close? outer
  | .comma =>
    match outer with
    | (.call, _) :: _ => some ⟨.operand true, 0, outer⟩
    | _ => none
  | .wordElse => if pending = 0 then none else some ⟨.operand false, pending - 1, outer⟩
  | kind => if kind.isInfixOperator then some ⟨.operand false, pending, outer⟩ else none

/-- One more token. -/
def step? (s : Scan) (kind : TokenKind) : Option Scan :=
  match s.mode with
  | .operand mayClose => stepOperand? mayClose s.pending s.outer kind
  | .condition =>
    if kind = .leftParen then some ⟨.operand false, 0, (.condition, s.pending) :: s.outer⟩
    else none
  | .operator => stepOperator? s.pending s.outer kind
  | .member => if kind.isReference then some ⟨.operator, s.pending, s.outer⟩ else none

/-- Some more tokens. -/
def run? (s : Scan) (kinds : List TokenKind) : Option Scan :=
  kinds.foldlM step? s

/-- Whether the expression may end here. -/
def isDone (s : Scan) : Bool :=
  s.mode == .operator && s.outer.isEmpty

/-- Whether some tokens bring an expression to its end. -/
def accepts (s : Scan) (kinds : List TokenKind) : Bool :=
  (s.run? kinds).any isDone

variable {s t : Scan} {k : TokenKind} {mayClose : Bool} {pending : Nat}
  {outer : List (Parenthesis × Nat)}

@[simp] theorem run?_nil (s : Scan) : s.run? [] = some s := rfl

theorem run?_cons (s : Scan) (k : TokenKind) (ks : List TokenKind) :
    s.run? (k :: ks) = (s.step? k).bind (run? · ks) := rfl

/-- After one token a run goes on. -/
theorem run?_of_step? (h : s.step? k = some t) (ks : List TokenKind) :
    s.run? (k :: ks) = t.run? ks := by
  rw [run?_cons, h]
  rfl

theorem run?_append (s : Scan) (ks ls : List TokenKind) :
    s.run? (ks ++ ls) = (s.run? ks).bind (run? · ls) :=
  List.foldlM_append

/-- After one token it is the others that matter. -/
theorem accepts_of_step? (h : s.step? k = some t) (ks : List TokenKind) :
    s.accepts (k :: ks) = t.accepts ks := by
  rw [accepts, run?_cons, h]
  rfl

/-- A token that cannot come is not accepted. -/
theorem not_accepts_of_step? (h : s.step? k = none) (ks : List TokenKind) :
    s.accepts (k :: ks) = false := by
  rw [accepts, run?_cons, h]
  rfl

/-- The end of the source is passed nowhere, nor is the beginning of a string or a block. -/
theorem kind_ne_of_step? (h : s.step? k = some t) :
    k ≠ .endOfFile ∧ k ≠ .stringStart ∧ k ≠ .leftBrace := by
  obtain ⟨mode, pending, outer⟩ := s
  refine ⟨?_, ?_, ?_⟩ <;> (rintro rfl; cases mode <;> cases h)

/-- An operand of one token. -/
theorem step?_of_isOperand (h : (k.isLiteral || k.isReference) = true) :
    step? ⟨.operand mayClose, pending, outer⟩ k = some ⟨.operator, pending, outer⟩ := by
  cases k <;> first | rfl | cases h

/-- An operator between operands. -/
theorem step?_of_isInfixOperator (h : k.isInfixOperator = true) :
    step? ⟨.operator, pending, outer⟩ k = some ⟨.operand false, pending, outer⟩ := by
  cases k <;> first | rfl | cases h

/-- The second branch of a pending conditional. -/
theorem step?_else (pending : Nat) (outer : List (Parenthesis × Nat)) :
    step? ⟨.operator, pending + 1, outer⟩ .wordElse = some ⟨.operand false, pending, outer⟩ := rfl

/-- The name of a member. -/
theorem step?_member (h : k.isReference = true) :
    step? ⟨.member, pending, outer⟩ k = some ⟨.operator, pending, outer⟩ := if_pos h

/-- An operator before an operand. -/
theorem step?_unary (h : k = .minus ∨ k = .not) :
    step? ⟨.operand mayClose, pending, outer⟩ k = some ⟨.operand false, pending, outer⟩ := by
  rcases h with rfl | rfl <;> rfl

end Scan

/-! ## Derivations -/

namespace Scan

/-- What a nonterminal derives is passed over, and what was open stays open.  Behind an operand
more conditionals may be pending than before. -/
def Passes : Phrase → List TokenKind → Prop
  | .expression, ks | .operand, ks | .base, ks =>
    ∃ more, ∀ mayClose pending outer, run? ⟨.operand mayClose, pending, outer⟩ ks =
      some ⟨.operator, pending + more, outer⟩
  | .suffixes, ks =>
    ∀ pending outer, run? ⟨.operator, pending, outer⟩ ks = some ⟨.operator, pending, outer⟩
  | .arguments, ks =>
    ∀ pending outer, run? ⟨.operand true, 0, (.call, pending) :: outer⟩ (ks ++ [.rightParen]) =
      some ⟨.operator, pending, outer⟩

end Scan

open Scan

/-- What is derived is passed over. -/
theorem Derives.passes {p : Phrase} {ks : List TokenKind} (h : Derives p ks) :
    Passes p ks := by
  induction h with
  | operand _ ih => exact ih
  | operation _ hk _ ih ih' =>
    obtain ⟨more, h⟩ := ih
    obtain ⟨more', h'⟩ := ih'
    refine ⟨more + more', fun mayClose pending outer => ?_⟩
    rw [run?_append, h, Option.bind_some, run?_cons, step?_of_isInfixOperator hk, Option.bind_some,
      h', Nat.add_assoc]
  | unary hk _ ih =>
    obtain ⟨more, h⟩ := ih
    refine ⟨more, fun mayClose pending outer => ?_⟩
    rw [run?_cons, step?_unary hk, Option.bind_some, h]
  | suffixed _ _ ih ih' =>
    obtain ⟨more, h⟩ := ih
    refine ⟨more, fun mayClose pending outer => ?_⟩
    rw [run?_append, h, Option.bind_some, ih']
  | literal hk =>
    refine ⟨0, fun mayClose pending outer => ?_⟩
    rw [run?_cons, step?_of_isOperand (by rw [hk, Bool.true_or]), Nat.add_zero]
    rfl
  | reference hk =>
    refine ⟨0, fun mayClose pending outer => ?_⟩
    rw [run?_cons, step?_of_isOperand (by rw [hk, Bool.or_true]), Nat.add_zero]
    rfl
  | group _ ih =>
    obtain ⟨more, h⟩ := ih
    refine ⟨0, fun mayClose pending outer => Eq.trans (run?_of_step? rfl _) ?_⟩
    rw [run?_append, h]
    rfl
  | conditional _ _ ih ih' =>
    obtain ⟨more, h⟩ := ih
    obtain ⟨more', h'⟩ := ih'
    refine ⟨1 + more', fun mayClose pending outer => ?_⟩
    refine Eq.trans (run?_of_step? rfl _) (Eq.trans (run?_of_step? rfl _) ?_)
    rw [run?_append, h, Option.bind_some]
    refine Eq.trans (run?_of_step? rfl _) ?_
    rw [h', Nat.add_assoc]
  | conditionalElse _ _ _ ih ih' ih'' =>
    obtain ⟨more, h⟩ := ih
    obtain ⟨more', h'⟩ := ih'
    obtain ⟨more'', h''⟩ := ih''
    refine ⟨more' + more'', fun mayClose pending outer => ?_⟩
    refine Eq.trans (run?_of_step? rfl _) (Eq.trans (run?_of_step? rfl _) ?_)
    rw [run?_append, h, Option.bind_some]
    refine Eq.trans (run?_of_step? rfl _) ?_
    rw [run?_append, h', Option.bind_some]
    -- one of the pending conditionals is that of this `else`
    have hpending : pending + 1 + more' = pending + more' + 1 := by omega
    rw [hpending, run?_of_step? (step?_else _ _), h'', Nat.add_assoc]
  | noSuffix => exact fun _ _ => rfl
  | member hk _ ih =>
    intro pending outer
    refine Eq.trans (run?_of_step? rfl _) ?_
    rw [run?_of_step? (step?_member hk)]
    exact ih pending outer
  | call _ _ ih ih' =>
    intro pending outer
    refine Eq.trans (run?_of_step? rfl _) ?_
    rw [List.append_cons, run?_append, ih, Option.bind_some, ih']
  | noArguments => exact fun _ _ => rfl
  | argument _ ih =>
    obtain ⟨more, h⟩ := ih
    intro pending outer
    rw [run?_append, h]
    rfl
  | moreArguments _ _ ih ih' =>
    obtain ⟨more, h⟩ := ih
    intro pending outer
    rw [List.append_assoc, run?_append, h]
    exact ih' pending outer

/-- Every expression is accepted. -/
theorem Derives.accepts {ks : List TokenKind} (h : Derives .expression ks) :
    Scan.accepts ⟨.operand false, 0, []⟩ ks = true := by
  obtain ⟨more, hpasses⟩ := h.passes
  rw [Scan.accepts, hpasses]
  rfl

end ExprLang
