import ExprLang.Proofs.Reader.Pieces

/-!
# Where expressions stand

An expression stands in the text of another tree with parentheses around it or
without, before a word that does not go on with it.  A reader for expressions
covers a length if it reads all shorter expressions there.

Main definitions:

- Definition {lit}`Tree.Spelling`: the words of an expression in another tree.
- Definition {lit}`Reader.Stops`: words that do not go on with an expression.
- Definition {lit}`Reader.Covers`: a reader for expressions reads all expressions
  of some length.

Main results:

- Theorem {lit}`Tree.Written.exists_first`: how expressions begin.
- Theorem {lit}`Tree.tidy_of_mem_children`: what is read is tidy below its root.
-/

namespace ExprLang

/-! ## First words -/

/-- A name is a word of one of three kinds. -/
theorem IsName.kind_cases {text : String} (h : IsName text) :
    (Word.ofText text).kind = .identifier ∨ (Word.ofText text).kind = .wordAs ∨
      (Word.ofText text).kind = .wordInfix := by
  have hname := h.isName
  show TokenKind.ofWord text = _ ∨ TokenKind.ofWord text = _ ∨ TokenKind.ofWord text = _
  cases hkind : TokenKind.ofWord text <;> rw [hkind] at hname <;> first
    | (cases hname; done)
    | simp

/-- Kinds of numbers. -/
def TokenKind.isNumber (kind : TokenKind) : Bool :=
  (Expectation.anyOf [.intLiteral, .longLiteral, .floatLiteral, .doubleLiteral]).accepts kind

namespace Tree

/-- Words that go on with a name or a number before them. -/
def Postfix (ws : List Word) : Prop := nextKind ws = .dot ∨ nextKind ws = .leftParen

/-- What the first word of an expression says about it. -/
structure First (tree : Tree) (w : Word) (ws : List Word) : Prop where
  start : (StartRule.ofKind? w.kind).isSome = true
  number : w.kind.isNumber = true → ws = [] ∧ tree.isNumber = true ∨ Postfix ws
  name : w.kind.isA .name = true → ws = [] ∧ (∃ text, tree = reference text) ∨ Postfix ws

variable {tree : Tree}

/-- A first word that is neither a name nor a number. -/
theorem First.of_other {w : Word} (hs : (StartRule.ofKind? w.kind).isSome = true)
    (hnumber : w.kind.isNumber = false) (hname : w.kind.isA .name = false) (ws : List Word) :
    First tree w ws :=
  ⟨hs, fun h => absurd (hnumber ▸ h) Bool.false_ne_true,
    fun h => absurd (hname ▸ h) Bool.false_ne_true⟩

/-- A name with words that go on with it, or none. -/
theorem First.of_name {text : String} (h : IsName text) {ws : List Word}
    (hws : ws = [] ∧ (∃ text, tree = reference text) ∨ Postfix ws) :
    First tree (Word.ofText text) ws := by
  refine ⟨?_, fun hn => ?_, fun _ => hws⟩
  · rcases h.kind_cases with hk | hk | hk <;> rw [hk] <;> rfl
  · rcases h.kind_cases with hk | hk | hk <;> rw [hk] at hn <;> cases hn

/-- The words of a literal that is no string. -/
theorem literalWords_of_ne {value : Literal} (h : value.kind ≠ .stringStart) :
    literalWords value = (if value.isNegative then [Word.mark .minus] else []) ++
      [⟨value.kind, String.ofList value.unsigned⟩] := by
  cases value with
  | string text => exact absurd rfl h
  | _ =>
    rw [literalWords]
    exact fun _ h => by cases h

/-- The first word of a literal. -/
theorem first_literal (value : Literal) :
    ∃ w ws, literalWords value = w :: ws ∧ First (literal value) w ws := by
  by_cases hstring : value.kind = .stringStart
  · cases value with
    | string text => exact ⟨_, _, rfl, .of_other rfl rfl rfl _⟩
    | boolean value => cases value <;> cases hstring
    | _ => cases hstring
  · rw [literalWords_of_ne hstring]
    cases hneg : value.isNegative with
    | true => exact ⟨_, _, rfl, .of_other rfl rfl rfl _⟩
    | false =>
      refine ⟨_, [], rfl, ?_⟩
      cases value with
      | boolean value => cases value <;> exact .of_other rfl rfl rfl _
      | symbol name => exact .of_other rfl rfl rfl _
      | string text => exact absurd rfl hstring
      | _ => exact ⟨rfl, fun _ => .inl ⟨rfl, rfl⟩, nofun⟩

/-- The first word of an expression. -/
theorem Written.exists_first (h : Written .expression tree) :
    ∃ w ws, tree.words = w :: ws ∧ First tree w ws := by
  induction tree using Tree.induct with
  | step tree ih =>
    -- words that go on with an operand are no longer than the operand alone
    have hoperand {child : Tree} {others : List Word} (hmem : child ∈ tree.children)
        (hc : Written .expression child) (ho : Postfix others) :
        ∃ w ws, child.operandWords child.words ++ others = w :: ws ∧ First tree w ws := by
      unfold operandWords
      split
      · exact ⟨_, _, rfl, .of_other rfl rfl rfl _⟩
      · obtain ⟨w, ws, hwords, hfirst⟩ := ih child hmem hc
        have happend {holds : Prop} (h : ws = [] ∧ holds ∨ Postfix ws) :
            Postfix (ws ++ others) := by
          rcases h with ⟨rfl, -⟩ | h
          · exact ho
          · cases ws with
            | nil => rcases h with h | h <;> cases h
            | cons v vs => exact h
        rw [hwords]
        exact ⟨w, ws ++ others, rfl, hfirst.start, fun hn => .inr (happend (hfirst.number hn)),
          fun hn => .inr (happend (hfirst.name hn))⟩
    cases h with
    | literal hv =>
      rw [words]
      exact first_literal _
    | reference hn =>
      rw [words]
      exact ⟨_, _, rfl, .of_name hn (.inl ⟨rfl, _, rfl⟩)⟩
    | memberAccess hr hm =>
      rw [words]
      exact hoperand (by simp [children, groups]) hr (.inl rfl)
    | namedInvocation hn ha =>
      rw [words]
      exact ⟨_, _, rfl, .of_name hn (.inr (.inr rfl))⟩
    | anonymousInvocation ht hr ha =>
      rw [words]
      exact hoperand (by simp [children, groups]) ht (.inr rfl)
    | @conditional condition thenBranch elseBranch _ _ _ =>
      cases elseBranch <;> (rw [words]; exact ⟨_, _, rfl, .of_other rfl rfl rfl _⟩)
    | _ =>
      rw [words]
      exact ⟨_, _, rfl, .of_other rfl rfl rfl _⟩

/-! ## Values that can be read -/

/-- Every number with a fraction inside a tree is read from its text. -/
abbrev Legible (tree : Tree) : Prop := tree.All fun t => ∀ value, t = literal value → value.Legible

/-! ## Operations -/

/-- The words of an operation without the parentheses around them. -/
inductive Bare : Tree → List Word → Prop
  | unary (operator : UnaryOperator) (operand : Tree) :
    Bare (unary operator operand) (.mark operator.kind :: operand.signedWords operand.words)
  | binary (left : Tree) (operator : BinaryOperator) (right : Tree) :
    Bare (binary left operator right)
      (left.operandWords left.words ++ .mark operator.kind :: right.words)
  | assignment (target : Tree) (operator : AssignmentOperator) (value : Tree) :
    Bare (assignment target operator value)
      (target.operandWords target.words ++ .mark operator.kind :: value.words)
  | infixInvocation (left : Tree) (name : String) (right : Tree) :
    Bare (infixInvocation left name right)
      (left.operandWords left.words ++ Word.ofText name :: right.words)

/-- The words of an operation. -/
theorem Bare.words_eq {ws : List Word} (h : Bare tree ws) : tree.words = groupedWords ws := by
  cases h <;> rw [words]

/-- The words of an expression in another tree.  Some expressions could go on with more words
than those that stop others. -/
inductive Spelling (tree : Tree) : Precedence → Bool → List Word → Prop
  | words {min : Precedence} (hmin : min ≠ .postfixCall) :
    Spelling tree min tree.isLoose tree.words
  | grouped {min : Precedence} (hmin : min ≠ .postfixCall) :
    Spelling tree min false (groupedWords tree.words)
  | bare {ws : List Word} (h : Bare tree ws) : Spelling tree .lowest true ws

/-- An operand in the text of its parent. -/
theorem spelling_operand (tree : Tree) {min : Precedence} (hmin : min ≠ .postfixCall) :
    Spelling tree min false (tree.operandWords tree.words) := by
  unfold operandWords
  split
  · exact .grouped hmin
  · rename_i hloose
    have hwords : Spelling tree min (tree.isLoose) tree.words := .words hmin
    rwa [Bool.eq_false_iff.2 hloose] at hwords

/-! ## What is read inside a tree -/

/-- What is read for a placeholder of a template is a part of what is read for the template. -/
theorem mem_draft {parts : List (Option String × Tree)} (h : (none, tree) ∈ parts) :
    tree ∈ (draft parts).finish.children := by
  have hkeep {d : StringDraft} (hd : tree ∈ d.parts) (part : Option String × Tree) :
      tree ∈ (d.add part).parts := by
    obtain ⟨_ | text, other⟩ := part
    · exact List.mem_append_left _ (List.mem_append_left _ hd)
    · show tree ∈ (d.extend text.toList).parts
      unfold StringDraft.extend
      split <;> exact hd
  have hkeeps (parts : List (Option String × Tree)) {d : StringDraft} (hd : tree ∈ d.parts) :
      tree ∈ (parts.foldl .add d).parts := by
    induction parts generalizing d with
    | nil => exact hd
    | cons part parts ih => exact ih (hkeep hd part)
  have hadd {d : StringDraft} : tree ∈ (parts.foldl .add d).parts := by
    induction parts generalizing d with
    | nil => cases h
    | cons part parts ih =>
      rcases List.mem_cons.1 h with rfl | h
      · exact hkeeps parts (List.mem_append_right _ (List.mem_singleton.2 rfl))
      · exact ih h
  have hinterpolated : (draft parts).interpolated = true := by
    rw [draft, StringDraft.interpolated_foldl, Bool.or_eq_true, List.any_eq_true]
    exact .inr ⟨_, h, rfl⟩
  rw [StringDraft.finish, if_pos hinterpolated]
  simp only [children, groups, List.flatten_cons, List.flatten_nil, List.append_nil]
  exact List.mem_append_left _ hadd

/-- What is read for a child, unless it is text of a template or a pattern, is tidy if what is
read for the tree is. -/
theorem tidy_of_mem_children {child : Tree} (h : tree.reparsed.Tidy) (hc : child ∈ tree.children)
    (ht : ∀ parts, tree = stringTemplate parts → child.stringText? = none)
    (hp : ∀ pattern, tree ≠ patternArgument pattern) : child.reparsed.Tidy := by
  refine (all_iff.1 h).2 _ ?_
  by_cases htemplate : ∃ parts, tree = stringTemplate parts
  · obtain ⟨parts, rfl⟩ := htemplate
    rw [reparsed]
    refine mem_draft (List.mem_map.2 ⟨child, ?_, by rw [ht parts rfl]⟩)
    simpa [children, groups] using hc
  · obtain ⟨group, hgroup, hmem⟩ := List.mem_flatten.1 hc
    have hgroups := (groups_reparsed (fun parts h => htemplate ⟨parts, h⟩) hp).2
    have hread : group.map reparsed ∈ tree.reparsed.groups := by
      rw [hgroups]
      exact List.mem_map_of_mem hgroup
    exact mem_children_of_mem_group hread (List.mem_map_of_mem hmem)

/-- A tree of some sort whose values can be read, and that is tidy if {lit}`p` holds. -/
structure Readable (p : Prop) (role : Role) (tree : Tree) : Prop where
  written : Written role tree
  legible : tree.Legible
  tidy : p → tree.reparsed.Tidy

/-- A child of a tree, other than text of a template or a pattern. -/
theorem Readable.child {p : Prop} {role role' : Role} {child : Tree} (h : Readable p role tree)
    (hw : Written role' child) (hc : child ∈ tree.children)
    (ht : ∀ parts, tree = stringTemplate parts → child.stringText? = none := by simp)
    (hp : ∀ pattern, tree ≠ patternArgument pattern := by simp) : Readable p role' child :=
  ⟨hw, (all_iff.1 h.legible).2 child hc, fun hpre => tidy_of_mem_children (h.tidy hpre) hc ht hp⟩

end Tree

namespace Reader

open ExprLang.Tree

/-- Words of some kind do not go on with an expression. -/
def Stops (loose : Bool) (kind : TokenKind) : Prop :=
  ContinueRule.ofKind? kind = none ∧ (loose = true → kind ≠ .wordElse)

/-- A reader for expressions reads all expressions that have less than some number of words. -/
def Covers (E : ExpressionReader) (n : Nat) : Prop :=
  ∀ ⦃p : Prop⦄ ⦃tree : Tree⦄ ⦃min : Precedence⦄ ⦃loose : Bool⦄ ⦃ws rest : List Word⦄,
    Spelling tree min loose ws → Readable p .expression tree → ws.length < n →
      Stops loose (nextKind rest) → Reads p (E min) (ws ++ rest) tree.reparsed rest

end Reader

end ExprLang
