import ExprLang.Proofs.Parser.Strings

/-!
# Statements and blocks, parsed and read

The rules for types, statements and blocks do what their readers do.

Main results:

- Theorem {lit}`Parser.statementRule_simulates`: a statement.
- Theorem {lit}`Parser.blockRule_simulates`: a block after its opening brace.
-/

namespace ExprLang.Parser

open ParserState

variable {base : Arena} {s t u : ParserState} {n : Nat} {e : ExpressionRule}
  {e' : ExpressionReader}

/-! ## Types -/

/-- One more part of a type, or its end. -/
theorem typeStep_simulates {path : String} (hs : s.Valid) (hp : IsType path) :
    (typeStep path).Simulates base (Reader.typeStep path) s
      (Simulates.StepRel (fun a b _ => b = a ∧ IsType a) (fun a b _ => b = a ∧ IsType a)
        s.remaining) := by
  unfold typeStep Reader.typeStep
  refine .bind_skipKind hs (fun hdot => ?_) fun _ => .pure hs ⟨rfl, hp⟩
  have hlt := remaining_advanced_lt hs (by simp [hdot])
  have hl : Leads base s s.advanced := .advanced hs
  refine .bind_name hl.valid fun hname _ => ?_
  have hl' : Leads base s.advanced s.advanced.advanced := .advanced hl.valid
  exact .pure hl'.valid ⟨⟨rfl, .dot hp hname⟩, Nat.lt_of_le_of_lt hl'.remaining_le hlt⟩

/-- Names separated by dots. -/
theorem typeName_simulates (hs : s.Valid) :
    typeName.Simulates base Reader.typeName s fun a b _ => b = a ∧ IsType a := by
  refine .bind_name hs fun hname _ => .bind_bound fun n m hn hm => ?_
  have hl : Leads base s s.advanced := .advanced hs
  exact .loop (fun a b _ => b = a ∧ IsType a)
    (fun a b t ht h => by obtain ⟨rfl, h⟩ := h; exact typeStep_simulates ht.valid h)
    hl.valid ⟨rfl, .name hname⟩ hn hm

/-- A colon and a type, or nothing. -/
theorem optionalType_simulates (hs : s.Valid) :
    optionalType.Simulates base Reader.optionalType s
      fun a b _ => b = a ∧ ∀ text, a = some text → IsType text := by
  refine .bind_skipKind hs (fun _ => ?_) fun _ => .pure hs ⟨rfl, nofun⟩
  have hl : Leads base s s.advanced := .advanced hs
  refine .bind (typeName_simulates hl.valid) fun a b t ht h => ?_
  obtain ⟨rfl, h⟩ := h
  exact .pure ht.valid ⟨rfl, fun text he => by cases he; exact h⟩

/-! ## Terminators -/

/-- The semicolon that ends a statement. -/
theorem terminator_simulates (hs : s.Valid) :
    terminator.Simulates base Reader.terminator s fun _ _ _ => True := by
  unfold terminator Reader.terminator
  refine .bind_skipKind hs (fun _ => .pure hs.advanced trivial)
    fun _ => ?_
  refine .bind_left_look (a := s) hs rfl (.bind_right_look (b := s.spot.afterBrace) rfl ?_)
  refine .right_peek hs ?_
  -- at the end of the source it does not matter which token came before
  have hsame : (s.tape.consumed.head?.any (·.kind == .rightBrace) ||
        s.tape.peek.kind == .rightBrace || s.tape.peek.kind == .endOfFile) =
      (s.spot.afterBrace || s.tape.peek.word.kind == .rightBrace ||
        s.tape.peek.word.kind == .endOfFile) := by
    by_cases hw : s.tape.words = []
    · simp [hs.regular.words_eq_nil_iff.1 hw]
    · have hw : s.tape.words.isEmpty = false := by simpa using hw
      simp [ParserState.spot, Tape.spot, hw]
  dsimp only
  rw [hsame]
  by_cases hdone : (s.spot.afterBrace || s.tape.peek.word.kind == .rightBrace ||
      s.tape.peek.word.kind == .endOfFile) = true
  · rw [if_pos hdone, if_pos hdone]
    exact .pure hs trivial
  · rw [if_neg hdone, if_neg hdone]
    exact .bind_expectKind hs fun _ => .pure hs.advanced trivial

/-! ## Expressions that may be left out -/

/-- What an expression that may be left out ends in. -/
def Optional (base : Arena) (t : ParserState) (id? : Option NodeId) (tree? : Option Tree) : Prop :=
  match id?, tree? with
  | some id, some tree => Built base t .expression id tree
  | none, none => True
  | _, _ => False

/-- An expression that may be left out, as a list of children. -/
theorem Optional.kept {id? : Option NodeId} {tree? : Option Tree} (h : Optional base t id? tree?) :
    KeptAll base t id?.toList tree?.toList := by
  match id?, tree? with
  | some id, some tree =>
    have hbuilt : Built base t .expression id tree := h
    exact ⟨.cons hbuilt.kept .nil, List.pairwise_singleton ..⟩
  | none, none => exact .nil base t
  | some _, none => exact h.elim
  | none, some _ => exact h.elim

/-- An expression that may be left out is one of the language if it is there. -/
theorem Optional.written {id? : Option NodeId} {tree? : Option Tree}
    (h : Optional base t id? tree?) :
    ∀ tree, tree? = some tree → Tree.Written .expression tree := by
  match id?, tree? with
  | some id, some tree =>
    have hbuilt : Built base t .expression id tree := h
    rintro _ ⟨⟩
    exact hbuilt.written
  | none, none => exact nofun
  | some _, none => exact h.elim
  | none, some _ => exact h.elim

/-- An expression after a token of some kind. -/
theorem optionalExpression_simulates {p : Parser NodeId} {r : Reader Tree} {kind : TokenKind}
    (hs : s.Valid) (hp : ∀ t, Leads s.arena s t → Gives .expression p r t) :
    (optionalExpression p kind).Simulates s.arena (Reader.optionalExpression r kind) s
      fun id? tree? t => Optional s.arena t id? tree? := by
  refine .bind_skipKind hs (fun _ => ?_) fun _ => .pure hs trivial
  exact .map (hp s.advanced (.advanced hs))

/-! ## Statements -/

/-- What the rule for the form of a statement ends in, which uses up a word. -/
abbrev Forms (p : Parser Form) (r : Reader Tree) (s : ParserState) : Prop :=
  p.Simulates s.arena r s fun form tree t =>
    Formed s.arena t .statement form tree ∧ t.remaining < s.remaining

/-- A variable. -/
theorem variableForm_simulates (he : Expressions n e e') (hs : s.Valid) (hn : s.remaining < n)
    (hk : s.tape.peek.kind ≠ .endOfFile) :
    Forms (variableForm e) (Reader.localVariable e') s := by
  unfold variableForm Reader.localVariable
  have hlt := remaining_advanced_lt hs hk
  refine .bind_advance hs ?_
  have hl : Leads s.arena s s.advanced := .advanced hs
  refine .bind_name hl.valid fun hname _ => ?_
  have hl' : Leads s.arena s.advanced s.advanced.advanced := .advanced hl.valid
  refine .bind (optionalType_simulates hl'.valid) fun type type' t ht htype => ?_
  obtain ⟨rfl, htype⟩ := htype
  have hlead := hl'.trans ht
  have hrem : t.remaining < s.remaining := Nat.lt_of_le_of_lt hlead.remaining_le hlt
  refine .bind_rule (hl.trans hlead).holds (optionalExpression_simulates ht.valid
    fun u hu => ?_) fun init init' u hu hinit => ?_
  · have hrem' := hu.remaining_le
    exact (he .lowest u hu.valid (by omega)).mono fun _ _ _ _ h => h.1
  · refine .pure hu.valid ⟨⟨⟨rfl, ?_, ?_⟩, .localVariable hname htype hinit.written, rfl⟩, ?_⟩
    · exact .cons (hinit.kept.weaken (hl.trans hlead).holds).kept .nil
    · simpa [Form.children, Form.childGroups, ChildGroup.children] using hinit.kept.nodup
    · exact Nat.lt_of_le_of_lt hu.remaining_le hrem

/-- A return. -/
theorem returnForm_simulates (he : Expressions n e e') (hs : s.Valid) (hn : s.remaining < n)
    (hk : s.tape.peek.kind ≠ .endOfFile) :
    Forms (returnForm e) (Reader.returnStatement e') s := by
  unfold returnForm Reader.returnStatement
  have hlt := remaining_advanced_lt hs hk
  refine .bind_advance hs ?_
  have hl : Leads s.arena s s.advanced := .advanced hs
  refine .bind_check hl.valid ?_
  generalize Expectation.accepts _ _ = bare
  cases bare with
  | true => exact .pure hl.valid ⟨⟨⟨rfl, .cons .nil .nil, .nil⟩, .returnStatement nofun, rfl⟩, hlt⟩
  | false =>
    refine .bind_rule hl.holds (he .lowest s.advanced hl.valid (by omega))
      fun id tree t ht h => ?_
    obtain ⟨⟨hkept, hwritten⟩, hrem⟩ := h
    refine .pure ht.valid ⟨⟨⟨rfl, ?_, List.nodup_singleton _⟩, ?_, rfl⟩, by omega⟩
    · exact .cons (.cons (hkept.weaken hl.holds) .nil) .nil
    · exact .returnStatement fun _ he => by cases he; exact hwritten

/-- The form of a statement. -/
theorem statementForm_simulates (he : Expressions n e e') (hs : s.Valid) (hn : s.remaining < n) :
    Forms (statementForm e) (Reader.statementBody e') s := by
  unfold statementForm Reader.statementBody
  refine .bind_peek hs ?_
  cases hk : s.tape.peek.kind <;> simp only [Token.kind_word, hk]
  case wordVal | wordVar => exact variableForm_simulates he hs hn (by simp [hk])
  case wordReturn => exact returnForm_simulates he hs hn (by simp [hk])
  all_goals
    refine .bind (he .lowest s hs hn) fun id tree t ht h => ?_
    obtain ⟨⟨hkept, hwritten⟩, hrem⟩ := h
    refine .pure ht.valid ⟨⟨⟨rfl, ?_, List.nodup_singleton _⟩, .expressionStatement hwritten, rfl⟩,
      hrem⟩
    exact .cons (.cons hkept .nil) .nil

/-- A statement. -/
theorem statementRule_simulates (he : Expressions n e e') (hs : s.Valid) (hn : s.remaining < n) :
    Uses .statement (statementRule e) (Reader.statementRule e') s := by
  unfold statementRule Reader.statementRule
  refine .bind_left_look hs (a := s.tape.peek) rfl ?_
  refine .bind (statementForm_simulates he hs hn) fun form tree t ht h => ?_
  obtain ⟨hformed, hrem⟩ := h
  refine .bind_rule ht.holds (terminator_simulates ht.valid) fun _ _ u hu _ => ?_
  have hrem' : u.remaining < s.remaining := Nat.lt_of_le_of_lt hu.remaining_le hrem
  obtain ⟨span, hspan⟩ := exists_spanFrom s.tape.peek.span
    ((ht.trans (hu.weaken ht.holds)).began hrem')
  refine .bind_left_look hu.valid hspan ?_
  refine (Simulates.build hu.valid (hu.holds.trans ht.holds)
    { hformed with shows := hformed.shows.later hu }).mono fun id tree v _ h => ?_
  exact ⟨h.1, h.2 ▸ hrem'⟩

/-! ## Blocks -/

/-- One more statement of a block, or the end of the statements. -/
theorem blockStep_simulates {ids : List NodeId} {trees : List Tree} (he : Expressions n e e')
    (hs : s.Valid) (hn : s.remaining < n) (hb : s.arena.Holds base)
    (h : BuiltAll base s .statement ids trees) :
    (blockStep e ids).Simulates base (Reader.blockStep e' trees) s
      (Simulates.StepRel (fun ids trees t => BuiltAll base t .statement ids trees)
        (fun ids trees t => BuiltAll base t .statement ids trees) s.remaining) := by
  unfold blockStep Reader.blockStep
  refine .bind_check hs ?_
  cases hends : (Expectation.anyOf [.rightBrace, .endOfFile]).accepts s.tape.peek.kind with
  | true => exact .pure hs h
  | false =>
    have hne : s.remaining ≠ 0 := fun h0 => by
      have hk := hs.regular.words_eq_nil_iff.1 (List.length_eq_zero_iff.1 h0)
      rw [hk] at hends
      cases hends
    refine .bind_rule hb (.synchronized _ hs (statementRule_simulates he hs hn))
      fun id? tree? t hl hsync => ?_
    refine .pure hl.valid ⟨h.append_toList hl hsync (fun _ _ h => h.1) hb, ?_⟩
    match id?, tree? with
    | some id, some tree => exact hsync.2
    | none, none => exact hsync hne
    | some _, none => exact hsync.elim
    | none, some _ => exact hsync.elim

/-- The statements of a block. -/
theorem blockStatements_simulates (he : Expressions n e e') (hs : s.Valid) (hn : s.remaining < n)
    (hb : s.arena.Holds base) :
    (blockStatements e).Simulates base (Reader.blockStatements e') s
      fun ids trees t => BuiltAll base t .statement ids trees := by
  refine .bind_bound fun a b ha hb' => ?_
  refine .loop (fun ids trees t => BuiltAll base t .statement ids trees)
    (fun ids trees t hl h => ?_) hs (.nil ..) ha hb'
  exact blockStep_simulates he hl.valid (Nat.lt_of_le_of_lt hl.remaining_le hn)
    (hl.holds.trans hb) h

/-- A block after its opening brace. -/
theorem blockRule_simulates (start : Token) (he : Expressions n e e') (hs : s.Valid)
    (hbegan : s.Began) (hn : s.remaining < n) :
    Gives .expression (blockRule e start) (Reader.block e') s := by
  unfold blockRule Reader.block
  refine .bind (Simulates.inScope hs
    (R := fun ids trees t => BuiltAll s.arena t .statement ids trees) fun u hu hholds hrem =>
      (blockStatements_simulates he hu (hrem ▸ hn) (.refl _)).mono
        fun ids trees t _ h => h.weaken hholds) ?_
  rintro ⟨scope, ids⟩ trees t hl ⟨hopened, hall⟩
  refine .bind_expectKind hl.valid fun _ => ?_
  have hl' : Leads t.arena t t.advanced := .advanced hl.valid
  have hlead := hl.trans (hl'.weaken hl.holds)
  obtain ⟨span, hspan⟩ := exists_spanFrom start.span (hbegan.later hlead)
  refine .bind_left_look hl'.valid hspan ?_
  refine (Simulates.buildTidied hl'.valid hlead.holds
    (.of_list rfl rfl rfl (hall.later (hl'.inside _)).kept) (.block hall.written) rfl
    (hopened.later hl') ?_).mono fun id tree u _ h => h.1
  simp [Tree.isTidy, Tree.children, Tree.groups]

end ExprLang.Parser
