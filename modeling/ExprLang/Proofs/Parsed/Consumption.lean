import ExprLang.CommandLine
import ExprLang.Proofs.Layout.Texts

/-!
# Success leaves nothing out

A parse that succeeds has skipped nothing: what it has consumed are the tokens of the
source, each once and in order, and then perhaps the end of the source, and all of
them are tokens of the language.  A text is laid out like itself, so what is shown of
rules in two layouts says what a rule reads when no error is recorded.  It is left to
see that parses end at the end of the source: expressions and statements ask for it,
and units go on until they come to it.

Main definitions:

- Definition {lit}`Parser.Stays`: a rule that does not move on the tape.

Main results:

- Theorem {lit}`Parser.exists_reads_of_entry`: what is read where a parse ends without
  errors.
- Theorem {lit}`parseText_consumes`: a parse that succeeds has consumed all tokens.
-/

namespace ExprLang

/-- From the beginning to the end of its tokens nothing but all of them is consumed. -/
theorem Tape.Reads.consumed_of_end {tokens : List Token} {u : Tape}
    (h : (Tape.ofTokens tokens).Reads u) (hend : u.peek.kind = .endOfFile)
    (hproper : ∀ token ∈ tokens, token.kind ≠ .endOfFile) :
    u.consumed.reverse = tokens ∧ ∀ token ∈ tokens, token.kind.isValid = true := by
  obtain ⟨used, hpending, hconsumed, hused⟩ := h
  have htokens : tokens = used ++ u.pending := hpending
  have hnil : u.pending = [] := by
    cases hp : u.pending with
    | nil => rfl
    | cons token pending =>
      have hmem : token ∈ tokens := by simp [htokens, hp]
      refine absurd ?_ (hproper token hmem)
      simpa [Tape.peek, Tape.lookAhead, hp] using hend
  rw [hnil, List.append_nil] at htokens
  rw [htokens]
  exact ⟨by simp [hconsumed, Tape.ofTokens], hused⟩

namespace Parser

variable {α β : Type} {s t : ParserState}

/-! ## Rules that do not move -/

/-- Where a rule ends with a value, it has not moved on the tape. -/
class Stays (p : Parser α) : Prop where
  tape_eq : ∀ {s a t}, p s = .ok a t → t.tape = s.tape

namespace Stays

/-- A value. -/
instance pure (a : α) : Stays (Pure.pure a : Parser α) := ⟨fun h => by cases h; rfl⟩

/-- A look at the state. -/
theorem get_bind {f : ParserState → Parser β} (h : ∀ s, Stays (f s)) : Stays (get >>= f) :=
  ⟨fun {s _ _} hrun => (h s).tape_eq hrun⟩

/-- A change of the state. -/
theorem modifyGet {f : ParserState → α × ParserState} (hf : ∀ s, (f s).2.tape = s.tape) :
    Stays (MonadStateOf.modifyGet f : Parser α) :=
  ⟨fun {s _ _} hrun => by cases hrun; exact hf s⟩

/-- One rule after another. -/
instance bind (p : Parser α) (f : α → Parser β) [hp : Stays p] [hf : ∀ a, Stays (f a)] :
    Stays (p >>= f) := by
  refine ⟨fun h => ?_⟩
  obtain ⟨a, u, hu, ht⟩ := exists_of_bind h
  exact ((hf a).tape_eq ht).trans (hp.tape_eq hu)

/-- A result of a computation without a state. -/
instance lift (result : Except Fault α) : Stays (Parser.lift result) := by
  cases result with
  | ok a => exact pure a
  | error f => exact ⟨fun h => by cases h⟩

instance peek : Stays Parser.peek := get_bind fun _ => pure _

instance spanOf (id : NodeId) : Stays (Parser.spanOf id) :=
  get_bind fun _ => inferInstance

instance spanFrom (start : Span) : Stays (Parser.spanFrom start) := by
  have hprevious : Stays Parser.previous := get_bind fun _ => lift _
  unfold Parser.spanFrom
  infer_instance

instance errorAt (topic : Topic) (span : Span) (complaint : Complaint) :
    Stays (Parser.errorAt topic span complaint) := get_bind fun _ => pure _

instance record (d : Diagnostic) : Stays (Parser.record d) := modifyGet fun _ => rfl

/-- A new node. -/
instance make (form : Form) (span : Span) : Stays (Parser.make form span) := by
  have hmodify (arena : Arena) : Stays (modify fun s : ParserState => { s with arena := arena }) :=
    modifyGet fun _ => rfl
  exact get_bind fun s => inferInstanceAs (Stays (Parser.lift (s.arena.alloc form) >>= fun made =>
    Parser.lift (made.2.setPosition made.1 span) >>= fun arena =>
      (modify fun s => { s with arena := arena }) >>= fun _ => Pure.pure made.1))

instance reportRedefinitions : Stays Parser.reportRedefinitions := by
  have htake : Stays (MonadStateOf.modifyGet fun s : ParserState =>
      (s.arena.takeRedefinitions.1, { s with arena := s.arena.takeRedefinitions.2 })) :=
    modifyGet fun _ => rfl
  refine @bind _ _ _ _ htake fun found => ?_
  induction found with
  | nil => exact pure _
  | cons redefinition found ih => exact bind ..

instance unitSpan (items : UnitItems) : Stays (Parser.unitSpan items) := by
  unfold Parser.unitSpan
  split <;> infer_instance

end Stays

/-! ## Ends of units -/

/-- A repetition ends with a step that ends it. -/
theorem exists_of_loop {step : α → Parser (α ⊕ β)} {n : Nat} {a : α} {b : β}
    (h : loop step n a s = .ok b t) : ∃ a u, step a u = .ok (.inr b) t := by
  induction n generalizing a s with
  | zero => cases h
  | succ n ih =>
    obtain ⟨x, u, hstep, h⟩ := exists_of_bind h
    cases x with
    | inl a => exact ih h
    | inr b' =>
      cases h
      exact ⟨a, s, hstep⟩

/-- A rule inside a scope ends with the rule. -/
theorem exists_of_inScope {p : Parser α} {x : ScopeId × α} (h : inScope p s = .ok x t) :
    ∃ u v, p u = .ok x.2 v ∧ t.tape = v.tape := by
  obtain ⟨scope, u, -, h⟩ := exists_of_bind h
  obtain ⟨result, v, hattempt, h⟩ := exists_of_bind h
  obtain ⟨_, w, hclose, h⟩ := exists_of_bind h
  cases hclose
  cases result with
  | ok a =>
    cases h
    exact ⟨u, v, attempt_eq_ok_ok.1 hattempt, rfl⟩
  | error d => cases h

/-- The items of a unit go on to the end of the source. -/
theorem peek_of_unitStep {items items' : UnitItems} (h : unitStep items s = .ok (.inr items') t) :
    t.tape.peek.kind = .endOfFile := by
  obtain ⟨ended, u, hcheck, h⟩ := exists_of_bind h
  cases hcheck
  split at h
  · rename_i hended
    cases h
    exact (eq_of_beq hended).symm
  · obtain ⟨item, v, -, h⟩ := exists_of_bind h
    cases item with
    | none => cases h
    | some id =>
      obtain ⟨form, w, -, h⟩ := exists_of_bind h
      cases h

/-- A unit ends at the end of the source. -/
theorem peek_of_compilationUnit {id : NodeId} (h : compilationUnit s = .ok id t) :
    t.tape.peek.kind = .endOfFile := by
  obtain ⟨⟨scope, items⟩, u, hscope, h⟩ := exists_of_bind h
  obtain ⟨v, w, hitems, hu⟩ := exists_of_inScope hscope
  obtain ⟨n, x, -, hloop⟩ := exists_of_bind hitems
  obtain ⟨items', y, hstep⟩ := exists_of_loop hloop
  have hstays : Stays (do
      let span ← unitSpan items
      let unit ← make (.compilationUnit items.imports items.declarations scope) span
      reportRedefinitions
      return unit) := inferInstance
  have ht : t.tape = u.tape := hstays.tape_eq h
  rw [ht, hu]
  exact peek_of_unitStep hstep

/-! ## What is read -/

/-- Where a parse ends without errors, what was read goes up to the end of the source, which may
have been consumed too. -/
theorem exists_reads_of_entry {l : Alignment} {e : Entry} {id : NodeId} (hs : s.Alike l s)
    (h : entry e s = .ok id t) (hno : t.NoErrors) :
    ∃ u : Tape, s.tape.Reads u ∧ u.peek.kind = .endOfFile ∧
      (t.tape = u ∨ t.tape = u.advance.2) := by
  have hreads {p : Parser NodeId} (hp : Follows l 0 p p) {id : NodeId} {u : ParserState}
      (hu : p s = .ok id u) (hno : u.NoErrors) : s.tape.Reads u.tape := by
    have hagree := hp s s hs (Nat.zero_le _)
    rw [hu] at hagree
    cases hagree with
    | ok hproceeds _ _ => exact hproceeds.reads hno
  have htoEnd {p : Parser NodeId} (hp : Follows l 0 p p)
      (hrun : (do let root ← p; expectEnd; return root : Parser NodeId) s = .ok id t) :
      ∃ u : Tape, s.tape.Reads u ∧ u.peek.kind = .endOfFile ∧
        (t.tape = u ∨ t.tape = u.advance.2) := by
    obtain ⟨root, u, hu, hrun⟩ := exists_of_bind hrun
    obtain ⟨_, v, hend, hrun⟩ := exists_of_bind hrun
    cases hrun
    by_cases hkind : u.tape.peek.kind = .endOfFile
    · rw [expectEnd_of_endOfFile hkind] at hend
      cases hend
      exact ⟨u.tape, hreads hp hu hno, hkind, .inr rfl⟩
    · rw [expectEnd_of_ne_endOfFile hkind] at hend
      cases hend
  cases e with
  | unit =>
    exact ⟨t.tape, hreads Follows.compilationUnit h hno, peek_of_compilationUnit h, .inl rfl⟩
  | expression => exact htoEnd (Follows.expression .lowest) h
  | statement => exact htoEnd Follows.statement h

end Parser

/-! ## Parses that succeed -/

/-- A parse that succeeds ends with its root and without errors. -/
theorem exists_entry_of_parseText {e : Entry} {o : ParseOptions} {description text : String}
    {p : Parsed} (h : parseText e o description text = .ok (.ok p)) :
    ∃ t, Parser.entry e (.ofText text description o) = .ok p.root t ∧ t.NoErrors := by
  cases hrun : Parser.entry e (.ofText text description o) with
  | ok id t =>
    rw [parseText_of_ok hrun] at h
    cases herrors : t.report.hasErrors with
    | false =>
      rw [Parser.finish_of_not_hasErrors herrors] at h
      cases h
      exact ⟨t, rfl, t.report.hasErrors_eq_false_iff.1 herrors⟩
    | true =>
      rw [Parser.finish_of_hasErrors herrors] at h
      cases h
  | error stop t =>
    cases stop with
    | failed d =>
      rw [parseText_of_failed hrun] at h
      cases h
    | fault f =>
      rw [parseText, Parser.run, hrun] at h
      cases h

/-- Where no token is outside the language there are no warnings about tokens. -/
theorem Command.runTokens_of_clean (colors : Bool) (description : String) {text : String}
    (h : ∀ token ∈ tokenize text, token.kind ≠ .unexpectedCharacter) :
    (runTokens colors (.text description text)).code = 0 ∧
      (runTokens colors (.text description text)).stderr = "" := by
  have hnone : (tokenize text).filterMap (tokenWarning colors description) = [] := by
    refine List.filterMap_eq_nil_iff.2 fun token htoken => ?_
    rw [tokenWarning, TokenKind.unexpectedMessage?, if_neg (h token htoken)]
    rfl
  simp [runTokens, Source.text, hnone]

/-- A parse that succeeds has consumed exactly the tokens of its text, each once and in order, and
after them the end of the source at most.  None of them is outside the language, so that listing
them gives no warning. -/
theorem parseText_consumes {e : Entry} {o : ParseOptions} {description text : String} {p : Parsed}
    (h : parseText e o description text = .ok (.ok p)) :
    (∃ t ends, (Parser.entry e).run (.ofText text description o) = .ok (.ok p.root, t) ∧
      t.tape.consumed.reverse = tokenize text ++ ends ∧ ends.length ≤ 1 ∧
      ∀ token ∈ ends, token.kind = .endOfFile) ∧
    (∀ token ∈ tokenize text, token.kind ≠ .unexpectedCharacter) ∧
    ∀ colors source, (Command.runTokens colors (.text source text)).code = 0 ∧
      (Command.runTokens colors (.text source text)).stderr = "" := by
  obtain ⟨t, hrun, hno⟩ := exists_entry_of_parseText h
  obtain ⟨u, hreads, hend, hu⟩ := Parser.exists_reads_of_entry
    (ParserState.alike_ofText rfl description description o) hrun hno
  obtain ⟨hconsumed, hvalid⟩ := hreads.consumed_of_end hend fun token htoken =>
    (proper_of_mem_tokenize htoken).kind_ne
  have hclean : ∀ token ∈ tokenize text, token.kind ≠ .unexpectedCharacter := by
    intro token htoken hkind
    have := hvalid token htoken
    rw [hkind] at this
    cases this
  refine ⟨?_, hclean, fun colors source => Command.runTokens_of_clean colors source hclean⟩
  have hrun' : (Parser.entry e).run (.ofText text description o) = .ok (.ok p.root, t) :=
    Parser.run_eq_ok_ok.2 hrun
  rcases hu with hu | hu
  · exact ⟨t, [], hrun', by rw [hu, hconsumed, List.append_nil], Nat.zero_le _,
      fun _ htoken => absurd htoken List.not_mem_nil⟩
  · refine ⟨t, [u.peek], hrun', ?_, Nat.le_refl _, ?_⟩
    · rw [hu, Tape.consumed_advance, List.reverse_cons, hconsumed]
    · intro token htoken
      rw [List.mem_singleton.1 htoken, hend]

/-- A sum over two lines. -/
theorem parseText_consumes_sum :
    ∃ p, parseText .expression {} "" "x\n + 1" = .ok (.ok p) ∧
      (∃ t ends, (Parser.entry .expression).run (.ofText "x\n + 1" "" {}) = .ok (.ok p.root, t) ∧
        t.tape.consumed.reverse = tokenize "x\n + 1" ++ ends ∧ ends.length ≤ 1 ∧
        ∀ token ∈ ends, token.kind = .endOfFile) ∧
      (tokenize "x\n + 1").length = 3 := by
  have hsome : (parsed? .expression "x\n + 1").isSome = true := by decide +kernel
  obtain ⟨p, hp⟩ := Option.isSome_iff_exists.1 hsome
  have hparse := parseText_of_parsed? hp
  exact ⟨p, hparse, (parseText_consumes hparse).1, by decide +kernel⟩

end ExprLang
