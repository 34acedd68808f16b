import ExprLang.Proofs.Parser.Simulation

/-!
# Asking for tokens and words

What the parser asks of the next token and what a reader asks of the next word,
with what follows for the rules that ask.

Main results:

- Theorems {lit}`Parser.Simulates.bind_skipKind` and
  {lit}`Parser.Simulates.bind_expect`: consuming a token that fits.
- Theorem {lit}`Parser.Simulates.advance_giveBack`: a token that is given back at
  once was only looked at.
-/

namespace ExprLang

/-! ## States -/

namespace ParserState

/-- The state after an error has been recorded. -/
def recorded (s : ParserState) (d : Diagnostic) : ParserState :=
  { s with report := Parser.recordIn s.report d }

/-- An error that has been recorded is there. -/
theorem not_noErrors_recorded (s : ParserState) {d : Diagnostic} (hd : d.isError = true) :
    ¬ (s.recorded d).NoErrors :=
  Parser.Simulates.errors_recordIn_ne_nil s.report hd

/-- Recording an error leaves everything else as it is. -/
theorem Leads.recorded {base : Arena} {s : ParserState} (hs : s.Valid) {d : Diagnostic}
    (hd : d.isError = true) : Leads base s (s.recorded d) :=
  ⟨rfl, rfl, .refl .., .refl _, fun h => absurd h (not_noErrors_recorded s hd),
    ⟨hs.regular, hs.redefinitions, hs.apart⟩⟩

/-- A token has been consumed. -/
def Began (s : ParserState) : Prop := s.tape.consumed ≠ []

/-- After a token has been consumed one has been. -/
theorem began_advanced (s : ParserState) : s.advanced.Began := List.cons_ne_nil _ _

/-- No token is given back that was consumed before. -/
theorem Began.later {base : Arena} {s t : ParserState} (h : s.Began) (hl : Leads base s t) :
    t.Began := by
  obtain ⟨-, used, m, -, hc⟩ := hl.moves
  unfold Began at h ⊢
  rw [hc]
  exact List.append_ne_nil_of_right_ne_nil _ h

/-- Where a word has been used up a token has been consumed. -/
theorem Leads.began {base : Arena} {s t : ParserState} (h : Leads base s t)
    (hlt : t.remaining < s.remaining) : t.Began := by
  intro he
  have hs : s.tape.consumedCount = 0 := Nat.le_zero.1 <|
    Nat.le_trans h.moves.consumedCount_le (Nat.le_of_eq (by rw [Tape.consumedCount, he]; rfl))
  have ht : t.tape.consumedCount = s.tape.consumedCount := by
    rw [hs, Tape.consumedCount, he]
    rfl
  have hspot := congrArg (fun p : Spot => p.words.length) (h.moves.spot_eq_of_consumedCount_eq ht)
  exact Nat.ne_of_lt hlt hspot

/-- The state after the next token has been consumed and given back: an end of the source may
have come to stand on the tape. -/
def restored (s : ParserState) : ParserState :=
  { s with tape := { s.tape with pending := s.tape.peek :: s.tape.pending.tail } }

variable {s : ParserState}

/-- Consuming a token keeps a state in order. -/
theorem Valid.advanced (hs : s.Valid) : s.advanced.Valid :=
  have hl : Leads s.arena s s.advanced := .advanced hs
  hl.valid

/-- A token that was given back is the next one again. -/
@[simp] theorem peek_restored (s : ParserState) : s.restored.tape.peek = s.tape.peek := rfl

/-- The words are what they were. -/
theorem words_restored (hs : s.Valid) : s.restored.tape.words = s.tape.words := by
  rcases hs.regular.cases_peek with ⟨hw, hp, ha, -⟩ | ⟨-, -, -, hpending⟩
  · have hkind : (s.tape.peek.kind != .endOfFile) = false := by
      rw [hp]
      rfl
    rw [hw, ← ha]
    simp [restored, Tape.words, hkind, Tape.advance]
  · have hsame : s.restored.tape.pending = s.tape.pending := hpending.symm
    simp [Tape.words, hsame]

@[simp] theorem spot_restored (hs : s.Valid) : s.restored.spot = s.spot := by
  have hwords := words_restored hs
  simp only [spot, Tape.spot, hwords]
  rfl

/-- Nothing is lost by giving a token back. -/
theorem Leads.restored {base : Arena} (hs : s.Valid) : Leads base s s.restored where
  options := rfl
  scopes := rfl
  grows := .refl ..
  moves := by
    obtain ⟨⟨consumed, pending, finish⟩, arena, report, scopes, options⟩ := s
    cases pending with
    | nil => exact ⟨rfl, [], 1, rfl, rfl⟩
    | cons token pending => exact ⟨rfl, [], 0, List.append_nil _, rfl⟩
  noErrors := id
  valid := by
    refine ⟨?_, hs.redefinitions, hs.apart⟩
    rcases hs.regular.cases_peek with ⟨-, hp, -, tokens, m, hpending, hproper⟩ | ⟨-, -, -, hpending⟩
    · -- what comes after the end of the source is the end of the source
      have htokens : tokens = [] := by
        have hw : s.tape.advance.2.words = [] := by
          rcases hs.regular.cases_peek with ⟨-, -, ha, -⟩ | ⟨hproper, -⟩
          · exact ha
          · exact absurd (by rw [hp]; rfl) hproper.kind_ne
        unfold Tape.words at hw
        rw [hpending, List.map_eq_nil_iff, List.filter_append, List.append_eq_nil_iff,
          List.filter_eq_nil_iff] at hw
        refine List.eq_nil_iff_forall_not_mem.2 fun token ht => ?_
        exact hw.1 token ht (by simpa using (hproper token ht).kind_ne)
      subst htokens
      refine ⟨[], m + 1, ?_, nofun⟩
      have htail : s.tape.pending.tail = List.replicate m (.endOfFile s.tape.finish) := hpending
      show s.tape.peek :: s.tape.pending.tail = _
      rw [hp, htail]
      rfl
    · obtain ⟨tokens, m, hp, hproper⟩ := hs.regular
      exact ⟨tokens, m, hpending.symm.trans hp, hproper⟩

/-- Giving a token back keeps a state in order. -/
theorem Valid.restored (hs : s.Valid) : s.restored.Valid :=
  have hl : Leads s.arena s s.restored := .restored hs
  hl.valid

end ParserState

namespace Parser

open ParserState

variable {α β γ δ : Type}

/-! ## Runs -/

/-- The stretch up to the last token, of which there is one. -/
theorem exists_spanFrom {s : ParserState} (start : Span) (h : s.Began) :
    ∃ span, spanFrom start s = .ok span s := by
  obtain ⟨⟨consumed, pending, finish⟩, arena, report, scopes, options⟩ := s
  cases consumed with
  | nil => exact absurd rfl h
  | cons token consumed => exact ⟨_, rfl⟩

/-- The position of a node that exists. -/
theorem spanOf_eq {s : ParserState} {id : NodeId} (h : id.index < s.arena.size) :
    spanOf id s = .ok ((s.arena.position? id).getD Span.zero) s := by
  have hnode : s.arena.node? id = some s.arena.nodes[id.index] := Array.getElem?_eq_getElem h
  have hposition : s.arena.position id = .ok (s.arena.position? id) := by
    rw [Arena.position, Arena.node, Arena.position?, hnode]
    rfl
  refine (bind_eq_of_eq_ok (p := get) (a := s) (t := s) rfl).trans ?_
  rw [hposition]
  rfl

/-- The position of a node that may be missing, which is a fault. -/
theorem bind_spanOf_eq (id : NodeId) (f : Span → Parser β) (s : ParserState) :
    (spanOf id >>= f) s =
      (lift (s.arena.position id) >>= fun found => f (found.getD Span.zero)) s := by
  have hrun : spanOf id s =
      (lift (s.arena.position id) >>= fun found => Pure.pure (found.getD Span.zero)) s := rfl
  cases h : s.arena.position id with
  | ok found =>
    rw [h] at hrun
    exact bind_eq_of_eq_ok hrun
  | error e =>
    rw [h] at hrun
    exact bind_eq_of_eq_error hrun

/-- A token that fits is consumed. -/
theorem accept?_of_accepts {e : Expectation} {s : ParserState}
    (h : e.accepts s.tape.peek.kind = true) : accept? e s = .ok (some s.tape.peek) s.advanced := by
  unfold accept?
  refine (bind_eq_of_eq_ok (p := check e) (a := e.accepts s.tape.peek.kind) (t := s) rfl).trans ?_
  rw [h]
  rfl

/-- A token that does not fit stays. -/
theorem accept?_of_not_accepts {e : Expectation} {s : ParserState}
    (h : e.accepts s.tape.peek.kind = false) : accept? e s = .ok none s := by
  unfold accept?
  refine (bind_eq_of_eq_ok (p := check e) (a := e.accepts s.tape.peek.kind) (t := s) rfl).trans ?_
  rw [h]
  rfl

/-- A token that has to fit and does is consumed. -/
theorem expect_of_accepts {e : Expectation} {s : ParserState}
    (h : e.accepts s.tape.peek.kind = true) : expect e s = .ok s.tape.peek s.advanced := by
  unfold expect
  refine (bind_eq_of_eq_ok (p := check e) (a := e.accepts s.tape.peek.kind) (t := s) rfl).trans ?_
  rw [h]
  rfl

/-- The error about the next token. -/
def unexpectedAt (s : ParserState) (expected : String) : Diagnostic :=
  ⟨s.report.source, .error, .grammar, s.tape.peek.span,
    (Complaint.unexpected expected s.tape.peek).message⟩

theorem isError_unexpectedAt (s : ParserState) (expected : String) :
    (unexpectedAt s expected).isError = true := rfl

theorem unexpected_eq (s : ParserState) (expected : String) :
    unexpected expected s = .ok (unexpectedAt s expected) s := rfl

/-- Stopping with an error about the next token. -/
theorem fail_unexpected_eq (expected : String) (s : ParserState) :
    (unexpected expected >>= fun d => fail d : Parser α) s =
      .error (.failed (unexpectedAt s expected)) s := rfl

/-- Stopping with an error about a stretch of the source. -/
theorem failAt_eq (span : Span) (complaint : Complaint) (s : ParserState) :
    (failAt span complaint : Parser α) s =
      .error (.failed ⟨s.report.source, .error, .grammar, span, complaint.message⟩) s := rfl

/-- A token that has to fit and does not is an error. -/
theorem expect_of_not_accepts {e : Expectation} {s : ParserState}
    (h : e.accepts s.tape.peek.kind = false) :
    expect e s = .error (.failed (unexpectedAt s e.describe)) s := by
  unfold expect
  refine (bind_eq_of_eq_ok (p := check e) (a := e.accepts s.tape.peek.kind) (t := s) rfl).trans ?_
  rw [h]
  rfl

end Parser

namespace Parser.Simulates

open ParserState

variable {α β γ δ : Type} {base : Arena} {s : ParserState} {R : γ → δ → ParserState → Prop}

/-! ## Looking -/

/-- Looking at the next token. -/
theorem bind_peek {f : Token → Parser γ} {g : Word → Reader δ} (hs : s.Valid)
    (hf : (f s.tape.peek).Simulates base (g s.tape.peek.word) s R) :
    (Parser.peek >>= f).Simulates base (Reader.peek >>= g) s R := by
  refine bind_look (a := s.tape.peek) (b := s.tape.peek.word) rfl ?_ hf
  rw [hs.regular.word_peek]
  rfl

/-- Looking at a token further ahead. -/
theorem bind_lookAhead {f : Token → Parser γ} {g : Word → Reader δ} {n : Nat} (hs : s.Valid)
    (hf : (f (s.tape.lookAhead n)).Simulates base (g (s.tape.lookAhead n).word) s R) :
    (Parser.lookAhead n >>= f).Simulates base (Reader.lookAhead n >>= g) s R := by
  refine bind_look (a := s.tape.lookAhead n) (b := (s.tape.lookAhead n).word) rfl ?_ hf
  rw [hs.regular.word_lookAhead]
  rfl

/-- Asking whether the next token fits. -/
theorem bind_check {f : Bool → Parser γ} {g : Bool → Reader δ} {e : Expectation} (hs : s.Valid)
    (hf : (f (e.accepts s.tape.peek.kind)).Simulates base (g (e.accepts s.tape.peek.kind)) s R) :
    (Parser.check e >>= f).Simulates base (Reader.check e >>= g) s R := by
  refine bind_look (a := e.accepts s.tape.peek.kind) (b := e.accepts s.tape.peek.kind) rfl ?_ hf
  rw [← hs.regular.kind_peek]
  rfl

/-- Asking whether the next token is of some kind. -/
theorem bind_checkKind {f : Bool → Parser γ} {g : Bool → Reader δ} {kind : TokenKind}
    (hs : s.Valid) (hyes : s.tape.peek.kind = kind → (f true).Simulates base (g true) s R)
    (hno : s.tape.peek.kind ≠ kind → (f false).Simulates base (g false) s R) :
    (Parser.checkKind kind >>= f).Simulates base (Reader.checkKind kind >>= g) s R := by
  refine bind_check hs ?_
  rw [Expectation.accepts_kind]
  by_cases h : s.tape.peek.kind = kind
  · rw [h, beq_self_eq_true]
    exact hyes h
  · rw [beq_eq_false_iff_ne.2 (Ne.symm h)]
    exact hno h

/-! ## Consuming -/

/-- Consuming the next token. -/
theorem bind_advance {f : Token → Parser γ} {g : Word → Reader δ} (hs : s.Valid)
    (hf : (f s.tape.peek).Simulates base (g s.tape.peek.word) s.advanced R) :
    (Parser.advance >>= f).Simulates base (Reader.advance >>= g) s R := by
  refine bind (R := fun a b t => a = s.tape.peek ∧ b = s.tape.peek.word ∧ t = s.advanced) ?_ ?_
  · refine ensures_of_eq_ok (a := s.tape.peek) (t := s.advanced) rfl
      ⟨.advanced hs, _, ⟨rfl, rfl, rfl⟩, ?_⟩
    intro _
    refine ⟨true, ?_, by simp [NoErrors, ParserState.advanced]⟩
    rw [spot_advanced hs, hs.regular.word_peek]
    rfl
  · rintro _ _ _ _ ⟨rfl, rfl, rfl⟩
    exact hf

/-- Consuming the next token if it fits. -/
theorem bind_accept? {f : Option Token → Parser γ} {g : Option Word → Reader δ} {e : Expectation}
    (hs : s.Valid)
    (hyes : e.accepts s.tape.peek.kind = true →
      (f (some s.tape.peek)).Simulates base (g (some s.tape.peek.word)) s.advanced R)
    (hno : e.accepts s.tape.peek.kind = false → (f none).Simulates base (g none) s R) :
    (Parser.accept? e >>= f).Simulates base (Reader.accept? e >>= g) s R := by
  have hkind : s.spot.peek.kind = s.tape.peek.kind := hs.regular.kind_peek
  cases h : e.accepts s.tape.peek.kind with
  | true =>
    refine bind (R := fun a b t => a = some s.tape.peek ∧ b = some s.tape.peek.word ∧
      t = s.advanced) ?_ ?_
    · refine ensures_of_eq_ok (accept?_of_accepts h)
        ⟨.advanced hs, _, ⟨rfl, rfl, rfl⟩, fun _ => ⟨true, ?_, ?_⟩⟩
      · rw [Reader.accept?_apply, if_pos (hkind ▸ h), spot_advanced hs, hs.regular.word_peek]
        rfl
      · simp [NoErrors, ParserState.advanced]
    · rintro _ _ _ _ ⟨rfl, rfl, rfl⟩
      exact hyes h
  | false =>
    refine bind_look (a := none) (b := none) (accept?_of_not_accepts h) ?_ (hno h)
    rw [Reader.accept?_apply, hkind, h]
    rfl

/-- Consuming the next token if it is of some kind. -/
theorem bind_skipKind {f : Bool → Parser γ} {g : Bool → Reader δ} {kind : TokenKind}
    (hs : s.Valid)
    (hyes : s.tape.peek.kind = kind → (f true).Simulates base (g true) s.advanced R)
    (hno : s.tape.peek.kind ≠ kind → (f false).Simulates base (g false) s R) :
    (Parser.skipKind kind >>= f).Simulates base (Reader.skipKind kind >>= g) s R := by
  have hp : Parser.skipKind kind >>= f =
      Parser.accept? (.kind kind) >>= fun token? => f token?.isSome := by
    unfold Parser.skipKind
    rw [bind_assoc]
    rfl
  have hr : Reader.skipKind kind >>= g =
      Reader.accept? (.kind kind) >>= fun word? => g word?.isSome := by
    unfold Reader.skipKind
    rw [Reader.bind_assoc]
    rfl
  rw [hp, hr]
  refine bind_accept? hs (fun h => hyes ?_) fun h => hno ?_
  · exact (by simpa using h : kind = s.tape.peek.kind).symm
  · exact Ne.symm (by simpa using h)

/-- Consuming the next token, which has to fit. -/
theorem bind_expect {f : Token → Parser γ} {g : Word → Reader δ} {e : Expectation} (hs : s.Valid)
    (hf : e.accepts s.tape.peek.kind = true →
      (f s.tape.peek).Simulates base (g s.tape.peek.word) s.advanced R) :
    (Parser.expect e >>= f).Simulates base (Reader.expect e >>= g) s R := by
  have hkind : s.spot.peek.kind = s.tape.peek.kind := hs.regular.kind_peek
  cases h : e.accepts s.tape.peek.kind with
  | true =>
    refine bind (R := fun a b t => a = s.tape.peek ∧ b = s.tape.peek.word ∧ t = s.advanced) ?_ ?_
    · refine ensures_of_eq_ok (expect_of_accepts h)
        ⟨.advanced hs, _, ⟨rfl, rfl, rfl⟩, fun _ => ⟨true, ?_, ?_⟩⟩
      · rw [Reader.expect_apply, if_pos (hkind ▸ h), spot_advanced hs, hs.regular.word_peek]
        rfl
      · simp [NoErrors, ParserState.advanced]
    · rintro _ _ _ _ ⟨rfl, rfl, rfl⟩
      exact hf h
  | false =>
    refine bind (R := fun _ _ _ => False) ?_ fun _ _ _ _ h => h.elim
    refine ensures_of_eq_error (expect_of_not_accepts h)
      ⟨.refl hs, isError_unexpectedAt .., fun _ => ⟨true, ?_⟩⟩
    rw [Reader.expect_apply, hkind, h]
    rfl

/-- Consuming the next token, which has to be of some kind. -/
theorem bind_expectKind {f : Token → Parser γ} {g : Word → Reader δ} {kind : TokenKind}
    (hs : s.Valid)
    (hf : s.tape.peek.kind = kind →
      (f s.tape.peek).Simulates base (g s.tape.peek.word) s.advanced R) :
    (Parser.expectKind kind >>= f).Simulates base (Reader.expectKind kind >>= g) s R := by
  refine bind_expect hs fun h => hf ?_
  exact (by simpa using h : kind = s.tape.peek.kind).symm

/-- Looking at the next word. -/
theorem right_peek {p : Parser γ} {g : Word → Reader δ} (hs : s.Valid)
    (hp : p.Simulates base (g s.tape.peek.word) s R) :
    p.Simulates base (Reader.peek >>= g) s R := by
  refine bind_right_look (b := s.tape.peek.word) ?_ hp
  rw [hs.regular.word_peek]
  rfl

/-- Consuming a name. -/
theorem bind_name {f : Token → Parser γ} {g : Word → Reader δ} (hs : s.Valid)
    (hf : IsName s.tape.peek.text → s.tape.peek.kind ≠ .endOfFile →
      (f s.tape.peek).Simulates base (g s.tape.peek.word) s.advanced R) :
    (Parser.name >>= f).Simulates base (Reader.name >>= g) s R := by
  refine bind_expect hs fun h => ?_
  have hname : s.tape.peek.kind.isA .name = true := by
    simpa [Expectation.accepts, TokenKind.isAnyOf] using h
  have hend : s.tape.peek.kind ≠ .endOfFile := fun e => by
    rw [e] at hname
    cases hname
  exact hf ((hs.regular.proper_peek hend).isName hname) hend

/-- Stopping with an error about the next token. -/
theorem fail_unexpected {expected : String} (hs : s.Valid) :
    (Parser.unexpected expected >>= fun d => Parser.fail d : Parser γ).Simulates base
      (Reader.fail : Reader δ) s R :=
  bind_left_look hs (unexpected_eq s expected) (.fail hs (isError_unexpectedAt ..))

/-- Stopping with an error about a stretch of the source. -/
theorem failAt {span : Span} {complaint : Complaint} (hs : s.Valid) :
    (Parser.failAt span complaint : Parser γ).Simulates base (Reader.fail : Reader δ) s R := by
  unfold Parser.failAt
  exact bind_left_look (a := ⟨s.report.source, .error, .grammar, span, complaint.message⟩) hs rfl
    (.fail hs rfl)

/-- Recording an error and going on. -/
theorem bind_record {f : Unit → Parser γ} {g : Unit → Reader δ} {topic : Topic} {span : Span}
    {complaint : Complaint} (hs : s.Valid)
    (hf : ∀ t, (∀ base, Leads base s t) → t.remaining = s.remaining →
      (f ()).Simulates base (g ()) t R) :
    (Parser.errorAt topic span complaint >>= fun d => Parser.record d >>= f).Simulates base
      (Reader.require false >>= g) s R := by
  let d : Diagnostic := ⟨s.report.source, .error, topic, span, complaint.message⟩
  refine of_eq (q := Parser.record d >>= f) (m := Reader.require false >>= g) rfl rfl ?_
  refine bind (R := fun _ _ t => t = s.recorded d) ?_ ?_
  · refine ensures_of_eq_ok (a := ()) (t := s.recorded d) rfl
      ⟨.recorded hs rfl, (), rfl, fun _ => ⟨false, rfl, ?_⟩⟩
    simp [not_noErrors_recorded s (d := d) rfl]
  · rintro _ _ _ _ rfl
    exact hf _ (fun _ => .recorded hs rfl) rfl

/-- Recording a warning is no step of the reader. -/
theorem bind_warn {f : Unit → Parser γ} {r : Reader δ} {span : Span} {complaint : Complaint}
    (hs : s.Valid)
    (hf : ∀ t, (∀ base, Leads base s t) → t.remaining = s.remaining →
      (f ()).Simulates base r t R) :
    (Parser.warnAt span complaint >>= f).Simulates base r s R := by
  let d : Diagnostic := ⟨s.report.source, .warning, .grammar, span, complaint.message⟩
  let t : ParserState := { s with report := s.report.record d }
  have herrors : t.NoErrors ↔ s.NoErrors := by simp [NoErrors, t, d, Diagnostic.isError]
  have hlead (base : Arena) : Leads base s t :=
    ⟨rfl, rfl, .refl .., .refl _, herrors.1, ⟨hs.regular, hs.redefinitions, hs.apart⟩⟩
  exact bind_left (t := t) rfl (hlead base) rfl herrors (hf t hlead rfl)

/-- A token that is given back at once was only looked at. -/
theorem advance_giveBack {f : Token → Parser γ} {p : Parser γ} {r : Reader δ} (hs : s.Valid)
    (hf : f s.tape.peek = (Parser.giveBack >>= fun _ => p))
    (hp : p.Simulates base r s.restored R) : (Parser.advance >>= f).Simulates base r s R := by
  refine of_eq (q := Parser.advance >>= fun _ => Parser.giveBack >>= fun _ => p) ?_ rfl ?_
  · refine (bind_eq_of_eq_ok (a := s.tape.peek) (t := s.advanced) rfl).trans ?_
    rw [hf]
    rfl
  · refine of_eq (q := (Parser.advance >>= fun _ => Parser.giveBack) >>= fun _ => p) rfl rfl ?_
    exact bind_left (a := ()) (t := s.restored) rfl (.restored hs) (spot_restored hs) Iff.rfl hp

end Parser.Simulates

end ExprLang
