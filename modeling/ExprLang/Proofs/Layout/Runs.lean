import ExprLang.Proofs.Layout.States

/-!
# Runs in two layouts

A rule that runs from states that differ in layout only ends in states that do, with
values that do, or stops with diagnostics that do.  With it goes what holds of one run
alone: where no error is on record at the end, the tokens in between were read one by
one, and each of them is a token of the language.

Main definitions:

- Definition {lit}`Tape.Reads`: tokens of the language were consumed, and nothing else.
- Definition {lit}`Parser.Follows`: a rule does the same in both layouts.

Main results:

- Theorem {lit}`Parser.Follows.bind`: one rule after another.
- Theorem {lit}`Parser.Follows.loop`: repetition.
- Theorem {lit}`Parser.Follows.synchronized`: synchronization points.
- Theorem {lit}`Parser.Follows.make`: new nodes.
-/

namespace ExprLang

variable {l : Alignment} {n m : Nat}

/-! ## Reading -/

/-- Whether tokens of a kind are tokens of the language, and not the end of the source. -/
def TokenKind.isValid (kind : TokenKind) : Bool := !kind.isAnyOf [.invalid, .finish]

/-- From one place on a tape to another nothing but tokens of the language was consumed, each once
and in order. -/
def Tape.Reads (t u : Tape) : Prop :=
  ∃ used : List Token, t.pending = used ++ u.pending ∧ u.consumed = used.reverse ++ t.consumed ∧
    ∀ token ∈ used, token.kind.isValid = true

namespace Tape.Reads

variable {t u v : Tape}

/-- Nothing has to be consumed. -/
theorem refl (t : Tape) : t.Reads t := ⟨[], rfl, rfl, nofun⟩

/-- Reading in steps. -/
theorem trans (h : t.Reads u) (h' : u.Reads v) : t.Reads v := by
  obtain ⟨used, hpending, hconsumed, hused⟩ := h
  obtain ⟨used', hpending', hconsumed', hused'⟩ := h'
  refine ⟨used ++ used', ?_, ?_, ?_⟩
  · rw [hpending, hpending', List.append_assoc]
  · rw [hconsumed', hconsumed, List.reverse_append, List.append_assoc]
  · intro token htoken
    exact (List.mem_append.1 htoken).elim (hused token) (hused' token)

/-- Consuming a token of the language. -/
theorem advance (h : t.peek.kind.isValid = true) : t.Reads t.advance.2 := by
  obtain ⟨consumed, pending, finish⟩ := t
  cases pending with
  | nil => cases h
  | cons token pending =>
    refine ⟨[token], rfl, rfl, fun other hother => ?_⟩
    rwa [List.mem_singleton.1 hother]

end Tape.Reads

/-- A parse gets from one state to another: no node is lost, and if no error is on record at the
end then there was none before and the tokens in between were read. -/
structure ParserState.Proceeds (s t : ParserState) : Prop where
  size_le : s.arena.size ≤ t.arena.size
  noErrors : t.NoErrors → s.NoErrors
  reads : t.NoErrors → s.tape.Reads t.tape

namespace ParserState.Proceeds

variable {s t u : ParserState}

/-- A parse may stay where it is. -/
theorem refl (s : ParserState) : s.Proceeds s := ⟨Nat.le_refl _, id, fun _ => .refl _⟩

/-- A parse goes in steps. -/
theorem trans (h : s.Proceeds t) (h' : t.Proceeds u) : s.Proceeds u where
  size_le := Nat.le_trans h.size_le h'.size_le
  noErrors hu := h.noErrors (h'.noErrors hu)
  reads hu := (h.reads (h'.noErrors hu)).trans (h'.reads hu)

/-- Without moving a parse changes the arena and adds to the report. -/
theorem of_tape_eq (htape : t.tape = s.tape) (hsize : s.arena.size ≤ t.arena.size)
    (herrors : t.NoErrors → s.NoErrors) : s.Proceeds t :=
  ⟨hsize, herrors, fun _ => htape ▸ .refl _⟩

/-- With an error on record nothing is said about the tokens. -/
theorem of_errors (hsize : s.arena.size ≤ t.arena.size) (h : ¬ t.NoErrors) : s.Proceeds t :=
  ⟨hsize, fun ht => absurd ht h, fun ht => absurd ht h⟩

/-- A parse consumes a token of the language. -/
theorem advanced (h : s.tape.peek.kind.isValid = true) : s.Proceeds s.advanced :=
  ⟨Nat.le_refl _, id, fun _ => .advance h⟩

end ParserState.Proceeds

namespace Parser

open ParserState

variable {α β : Type} [Comparable α] [Comparable β] {s s' : ParserState}

/-! ## Ends of runs -/

/-- Diagnostics on their way to a report are errors. -/
instance : Comparable Diagnostic where
  Alike l _ d d' := d.Alike l d' ∧ d.isError = true
  mono h _ := h

/-- Two runs, the first of them from the state `s`, end in the same way. -/
inductive Agree (l : Alignment) (s : ParserState) :
    EStateM.Result Stop ParserState α → EStateM.Result Stop ParserState α → Prop
  | ok {a a' : α} {t t' : ParserState} (hproceeds : s.Proceeds t) (ht : t.Alike l t')
    (ha : Alike l t.arena.size a a') : Agree l s (.ok a t) (.ok a' t')
  | failed {d d' : Diagnostic} {t t' : ParserState} (hsize : s.arena.size ≤ t.arena.size)
    (ht : t.Alike l t') (hd : Alike l t.arena.size d d') :
    Agree l s (.error (.failed d) t) (.error (.failed d') t')
  | fault (f f' : Fault) (t t' : ParserState) :
    Agree l s (.error (.fault f) t) (.error (.fault f') t')

/-- The rules do the same in both layouts, wherever there are at least `n` nodes. -/
def Follows (l : Alignment) (n : Nat) (p p' : Parser α) : Prop :=
  ∀ s s' : ParserState, s.Alike l s' → n ≤ s.arena.size → Agree l s (p s) (p' s')

namespace Agree

variable {x x' : EStateM.Result Stop ParserState α} {p p' : Parser α} {f f' : α → Parser β}
  {g g' : Except Diagnostic α → Parser β} {t : ParserState}

/-- What is said of a part of a run holds of the whole. -/
theorem after (hproceeds : s.Proceeds t) (h : Agree l t x x') : Agree l s x x' := by
  cases h with
  | ok hproceeds' ht ha => exact .ok (hproceeds.trans hproceeds') ht ha
  | failed hsize ht hd => exact .failed (Nat.le_trans hproceeds.size_le hsize) ht hd
  | fault => exact .fault ..

/-- Where errors are on record at the end nothing is said about what was read before. -/
theorem of_errors (hsize : s.arena.size ≤ t.arena.size) (h : Agree l t x x')
    (herrors : ∀ a u, x = .ok a u → ¬ u.NoErrors) : Agree l s x x' := by
  cases h with
  | ok hproceeds ht ha =>
    exact .ok (.of_errors (Nat.le_trans hsize hproceeds.size_le) (herrors _ _ rfl)) ht ha
  | failed hsize' ht hd => exact .failed (Nat.le_trans hsize hsize') ht hd
  | fault => exact .fault ..

/-- A run from states that differ in layout only. -/
theorem of_follows (h : Follows l n p p') (hs : s.Alike l s') (hn : n ≤ s.arena.size) :
    Agree l s (p s) (p' s') := h s s' hs hn

/-- One rule after another. -/
theorem bind {r : ParserState} (hp : Agree l r (p s) (p' s'))
    (hf : ∀ a a' t t', r.Proceeds t → t.Alike l t' → Alike l t.arena.size a a' →
      Agree l t (f a t) (f' a' t')) : Agree l r ((p >>= f) s) ((p' >>= f') s') := by
  generalize hx : p s = x at hp
  generalize hx' : p' s' = x' at hp
  cases hp with
  | ok hproceeds ht ha =>
    rw [bind_eq_of_eq_ok hx, bind_eq_of_eq_ok hx']
    exact .after hproceeds (hf _ _ _ _ hproceeds ht ha)
  | failed hsize ht hd =>
    rw [bind_eq_of_eq_error hx, bind_eq_of_eq_error hx']
    exact .failed hsize ht hd
  | fault =>
    rw [bind_eq_of_eq_error hx, bind_eq_of_eq_error hx']
    exact .fault ..

/-- A rule whose diagnostic is handed on. -/
theorem attempt_bind (hp : Agree l s (p s) (p' s'))
    (hok : ∀ a a' t t', s.Proceeds t → t.Alike l t' → Alike l t.arena.size a a' →
      Agree l t (g (.ok a) t) (g' (.ok a') t'))
    (hfailed : ∀ d d' t t', s.arena.size ≤ t.arena.size → t.Alike l t' →
      Alike l t.arena.size d d' → Agree l s (g (.error d) t) (g' (.error d') t')) :
    Agree l s ((attempt p >>= g) s) ((attempt p' >>= g') s') := by
  generalize hx : p s = x at hp
  generalize hx' : p' s' = x' at hp
  cases hp with
  | ok hproceeds ht ha =>
    rw [attempt_bind_of_eq_ok hx, attempt_bind_of_eq_ok hx']
    exact .after hproceeds (hok _ _ _ _ hproceeds ht ha)
  | failed hsize ht hd =>
    rw [attempt_bind_of_failed hx, attempt_bind_of_failed hx']
    exact hfailed _ _ _ _ hsize ht hd
  | fault f f' t t' =>
    rw [attempt_bind_of_fault hx, attempt_bind_of_fault hx']
    exact .fault ..

omit [Comparable α] in
/-- A look at the states. -/
theorem bind_look {a a' : α} (hp : p s = .ok a s) (hp' : p' s' = .ok a' s')
    (hf : Agree l s (f a s) (f' a' s')) : Agree l s ((p >>= f) s) ((p' >>= f') s') := by
  rw [bind_eq_of_eq_ok hp, bind_eq_of_eq_ok hp']
  exact hf

/-- A look at the next token. -/
theorem bind_peek {f f' : Token → Parser β}
    (hf : Agree l s (f s.tape.peek s) (f' s'.tape.peek s')) :
    Agree l s ((Parser.peek >>= f) s) ((Parser.peek >>= f') s') := hf

/-- Consuming the next token, which is one of the language, and going on with it. -/
theorem bind_advance {f f' : Token → Parser β} (hvalid : s.tape.peek.kind.isValid = true)
    (hf : Agree l s.advanced (f s.tape.peek s.advanced) (f' s'.tape.peek s'.advanced)) :
    Agree l s ((Parser.advance >>= f) s) ((Parser.advance >>= f') s') :=
  .after (.advanced hvalid) hf

/-- Consuming the next token, whatever it is, where an error is on record afterwards. -/
theorem bind_advance_of_errors {f f' : Token → Parser β}
    (hf : Agree l s.advanced (f s.tape.peek s.advanced) (f' s'.tape.peek s'.advanced))
    (herrors : ∀ b u, f s.tape.peek s.advanced = .ok b u → ¬ u.NoErrors) :
    Agree l s ((Parser.advance >>= f) s) ((Parser.advance >>= f') s') :=
  .of_errors (t := s.advanced) (Nat.le_refl _) hf herrors

/-- Consuming the next token, giving it back and stopping with an error. -/
theorem giveBack_fail {f f' : Token → Parser β} {p p' : Parser β} {d d' : Diagnostic}
    (hs : s.Alike l s') (hf : f s.tape.peek = (giveBack >>= fun _ => p))
    (hf' : f' s'.tape.peek = (giveBack >>= fun _ => p'))
    (hp : p s.restored = .error (.failed d) s.restored)
    (hp' : p' s'.restored = .error (.failed d') s'.restored)
    (hd : Alike l s.arena.size d d') :
    Agree l s ((Parser.advance >>= f) s) ((Parser.advance >>= f') s') := by
  have hrun {s : ParserState} {f : Token → Parser β} {p : Parser β}
      (hf : f s.tape.peek = (giveBack >>= fun _ => p)) :
      (Parser.advance >>= f) s = p s.restored := by
    refine (bind_eq_of_eq_ok (a := s.tape.peek) (t := s.advanced) rfl).trans ?_
    rw [hf]
    rfl
  rw [hrun hf, hrun hf', hp, hp']
  exact .failed (Nat.le_refl _) hs.restored hd

/-- Recovery: the error stands in both layouts, or the same tokens are skipped. -/
theorem recoverFrom {t' : ParserState} {d d' : Diagnostic} (hsize : s.arena.size ≤ t.arena.size)
    (ht : t.Alike l t') (hd : Alike l t.arena.size d d') (stop : Expectation) (mark : Nat) :
    Agree l s (Parser.recoverFrom d stop mark t) (Parser.recoverFrom d' stop mark t') := by
  have hrecorded := ht.recorded hd.1
  have hcount : (recordIn t'.report d').errorCount = (recordIn t.report d).errorCount :=
    hrecorded.report.errorCount
  obtain ⟨tape', arena', report', scopes', options'⟩ := t'
  obtain rfl : options' = t.options := ht.options
  rw [Simulates.recoverFrom_eq, Simulates.recoverFrom_eq]
  dsimp only at hcount ⊢
  rw [hcount]
  split
  · exact .failed hsize ht hd
  · split
    · exact .failed hsize hrecorded hd
    · exact .ok (.of_errors hsize (not_noErrors_recorded t hd.2))
        { hrecorded with tape := ht.tape.skip stop mark } rfl

end Agree

namespace Follows

variable {p p' : Parser α} {f f' : α → Parser β}

/-! ## Sequences -/

/-- Values. -/
theorem pure {a a' : α} (h : Alike l n a a') : Follows l n (Pure.pure a) (Pure.pure a') :=
  fun s _ hs hn => .ok (.refl s) hs (Comparable.mono h hn)

/-- Faults. -/
theorem fault (e e' : Fault) : Follows l n (Parser.fault e : Parser α) (Parser.fault e') :=
  fun _ _ _ _ => .fault ..

/-- Errors. -/
theorem fail {d d' : Diagnostic} (h : Alike l n d d') :
    Follows l n (Parser.fail d : Parser α) (Parser.fail d') :=
  fun _ _ hs _ => .failed (Nat.le_refl _) hs h

/-- One rule after another. -/
theorem bind (hp : Follows l n p p')
    (hf : ∀ m a a', n ≤ m → Alike l m a a' → Follows l m (f a) (f' a')) :
    Follows l n (p >>= f) (p' >>= f') := by
  intro s s' hs hn
  refine (hp s s' hs hn).bind fun a a' t t' hproceeds ht ha => ?_
  exact hf _ a a' (Nat.le_trans hn hproceeds.size_le) ha t t' ht (Nat.le_refl _)

/-- One rule after another, where the first one ends with the same value in both layouts. -/
theorem bind_same [Placeless α] (hp : Follows l n p p')
    (hf : ∀ m a, n ≤ m → Alike l m a a → Follows l m (f a) (f' a)) :
    Follows l n (p >>= f) (p' >>= f') := by
  refine hp.bind fun m a a' hm ha => ?_
  cases Placeless.eq_of_alike ha
  exact hf m a hm ha

/-- Values in other words. -/
theorem map {f f' : α → β} (hp : Follows l n p p')
    (hf : ∀ m a a', Alike l m a a' → Alike l m (f a) (f' a')) :
    Follows l n (f <$> p) (f' <$> p') := by
  show Follows l n (p >>= fun a => Pure.pure (f a)) (p' >>= fun a => Pure.pure (f' a))
  exact hp.bind fun m a a' _ ha => .pure (hf m a a' ha)

/-- A choice on which both agree. -/
theorem ite {c c' : Prop} [Decidable c] [Decidable c'] {q q' : Parser α} (hc : c' ↔ c)
    (hp : Follows l n p p') (hq : Follows l n q q') :
    Follows l n (if c then p else q) (if c' then p' else q') := by
  rw [if_congr hc rfl rfl]
  split
  · exact hp
  · exact hq

/-- Repetition: what every step does in both layouts the whole does. -/
theorem loop {step step' : α → Parser (α ⊕ β)}
    (hstep : ∀ m a a', n ≤ m → Alike l m a a' → Follows l m (step a) (step' a')) (k : Nat)
    {a a' : α} (ha : Alike l n a a') :
    Follows l n (Parser.loop step k a) (Parser.loop step' k a') := by
  induction k generalizing n a a' with
  | zero => exact fault _ _
  | succ k ih =>
    refine (hstep n a a' (Nat.le_refl n) ha).bind fun m x x' hm hx => ?_
    cases hx with
    | inl hx => exact ih (fun m' a a' hm' => hstep m' a a' (Nat.le_trans hm hm')) hx
    | inr hx => exact .pure hx

/-- Looks at the states. -/
theorem look {a a' : ParserState → α} (hp : ∀ s, p s = .ok (a s) s)
    (hp' : ∀ s, p' s = .ok (a' s) s)
    (h : ∀ s s', s.Alike l s' → n ≤ s.arena.size → Alike l s.arena.size (a s) (a' s')) :
    Follows l n p p' := by
  intro s s' hs hn
  rw [hp, hp']
  exact .ok (.refl s) hs (h s s' hs hn)

/-- Looks at the tapes. -/
theorem tape_bind {f : Tape → Parser β} (hf : ∀ t t', t.Alike l t' → Follows l n (f t) (f t')) :
    Follows l n (get >>= fun s => f s.tape) (get >>= fun s => f s.tape) :=
  fun s s' hs hn => hf s.tape s'.tape hs.tape s s' hs hn

/-- Computations without a state. -/
theorem lift {x x' : Except Fault α} (h : Outcomes (Alike l n) x x') :
    Follows l n (Parser.lift x) (Parser.lift x') := by
  cases h with
  | ok h => exact .pure h
  | error f f' => exact fault f f'

/-! ## Tokens -/

/-- A token ahead. -/
theorem lookAhead (k : Nat) : Follows l n (Parser.lookAhead k) (Parser.lookAhead k) :=
  look (fun _ => rfl) (fun _ => rfl) fun _ _ hs _ => hs.tape.lookAhead k

/-- The next token. -/
theorem peek : Follows l n Parser.peek Parser.peek := lookAhead 0

/-- The bounds of repetitions are the same. -/
theorem bound : Follows l n Parser.bound Parser.bound :=
  look (fun _ => rfl) (fun _ => rfl) fun _ _ hs _ =>
    congrArg (· + 1) hs.tape.pending.length_eq

/-- Whether the next token fits. -/
theorem check (e : Expectation) : Follows l n (Parser.check e) (Parser.check e) :=
  peek.bind fun _ _ _ _ ht => .pure (congrArg e.accepts ht.kind.symm)

/-- Whether the next token is of some kind. -/
theorem checkKind (kind : TokenKind) :
    Follows l n (Parser.checkKind kind) (Parser.checkKind kind) :=
  check _

/-- Consuming the next token if it fits, as tokens of the language do only. -/
theorem accept? {e : Expectation} (he : ∀ kind, e.accepts kind = true → kind.isValid = true) :
    Follows l n (Parser.accept? e) (Parser.accept? e) := by
  intro s s' hs hn
  have hsame : e.accepts s'.tape.peek.kind = e.accepts s.tape.peek.kind :=
    congrArg e.accepts hs.tape.peek.kind
  cases h : e.accepts s.tape.peek.kind with
  | true =>
    rw [accept?_of_accepts h, accept?_of_accepts (hsame.trans h)]
    exact .ok (.advanced (he _ h)) hs.advanced (.some hs.tape.peek)
  | false =>
    rw [accept?_of_not_accepts h, accept?_of_not_accepts (hsame.trans h)]
    exact .ok (.refl s) hs .none

/-- A kind of the language is all that its expectation accepts. -/
theorem isValid_of_accepts_kind {kind : TokenKind} (h : kind.isValid = true) :
    ∀ other, (Expectation.kind kind).accepts other = true → other.isValid = true := by
  intro other hother
  rw [← eq_of_beq hother]
  exact h

/-- Consuming the next token if it is of some kind. -/
theorem skipKind {kind : TokenKind} (h : kind.isValid = true) :
    Follows l n (Parser.skipKind kind) (Parser.skipKind kind) :=
  (accept? (isValid_of_accepts_kind h)).bind fun m token? token?' _ ht => by
    refine .pure ?_
    cases ht with
    | some ht => exact rfl
    | none => exact rfl

/-! ## Diagnostics -/

/-- Errors about spans that correspond. -/
theorem errorAt (topic : Topic) {span span' : Span} {c c' : Complaint} (hspan : span.Alike l span')
    (hc : c'.message = c.message) :
    Follows l n (Parser.errorAt topic span c) (Parser.errorAt topic span' c') :=
  look (fun _ => rfl) (fun _ => rfl) fun _ _ _ _ =>
    ⟨⟨congrArg (Severity.error, topic, ·) hc, hspan⟩, rfl⟩

/-- Stopping with an error of grammar. -/
theorem failAt {span span' : Span} {c c' : Complaint} (hspan : span.Alike l span')
    (hc : c'.message = c.message) :
    Follows l n (Parser.failAt span c : Parser α) (Parser.failAt span' c') := by
  unfold Parser.failAt
  exact (errorAt .grammar hspan hc).bind fun _ _ _ _ hd => fail hd

/-- The same is said of tokens of the same kind and text. -/
theorem message_unexpected {token token' : Token} (h : token.Alike l token') (expected : String) :
    (Complaint.unexpected expected token').message =
      (Complaint.unexpected expected token).message := by
  have hdescribe : token'.describe = token.describe := by
    unfold Token.describe
    rw [h.kind, h.text]
  have hmessage (token : Token) : (Complaint.unexpected expected token).message =
      (token.kind.unexpectedMessage? token.text).getD
        s!"expected {expected}, but found {token.describe}" := rfl
  rw [hmessage, hmessage, h.kind, h.text, hdescribe]

/-- The same is unexpected in both layouts. -/
theorem unexpected (expected : String) :
    Follows l n (Parser.unexpected expected) (Parser.unexpected expected) := by
  unfold Parser.unexpected
  exact peek.bind fun _ _ _ _ ht => errorAt .grammar ht.span (message_unexpected ht expected)

/-- Stopping with an error about the next token. -/
theorem fail_unexpected (expected : String) :
    Follows l n (Parser.unexpected expected >>= fun d => Parser.fail d : Parser α)
      (Parser.unexpected expected >>= fun d => Parser.fail d) :=
  (unexpected expected).bind fun _ _ _ _ hd => fail hd

/-- Consuming the next token, which has to fit. -/
theorem expect {e : Expectation} (he : ∀ kind, e.accepts kind = true → kind.isValid = true) :
    Follows l n (Parser.expect e) (Parser.expect e) := by
  intro s s' hs hn
  have hsame : e.accepts s'.tape.peek.kind = e.accepts s.tape.peek.kind :=
    congrArg e.accepts hs.tape.peek.kind
  cases h : e.accepts s.tape.peek.kind with
  | true =>
    rw [expect_of_accepts h, expect_of_accepts (hsame.trans h)]
    exact .ok (.advanced (he _ h)) hs.advanced hs.tape.peek
  | false =>
    rw [expect_of_not_accepts h, expect_of_not_accepts (hsame.trans h)]
    have hfail : Follows l n
        (Parser.unexpected e.describe >>= fun d => Parser.fail d : Parser Token)
        (Parser.unexpected e.describe >>= fun d => Parser.fail d) := fail_unexpected _
    exact hfail s s' hs hn

/-- Consuming the next token, which has to be of some kind. -/
theorem expectKind {kind : TokenKind} (h : kind.isValid = true) :
    Follows l n (Parser.expectKind kind) (Parser.expectKind kind) :=
  expect (isValid_of_accepts_kind h)

/-- Consuming a name. -/
theorem name : Follows l n Parser.name Parser.name :=
  expect fun kind h => by cases kind <;> first | rfl | cases h

/-- Changes of the states. -/
theorem modifyGet {f f' : ParserState → α × ParserState}
    (h : ∀ s s', s.Alike l s' → n ≤ s.arena.size → s.Proceeds (f s).2 ∧
      (f s).2.Alike l (f' s').2 ∧ Alike l (f s).2.arena.size (f s).1 (f' s').1) :
    Follows l n (MonadStateOf.modifyGet f) (MonadStateOf.modifyGet f') := by
  intro s s' hs hn
  obtain ⟨hproceeds, ht, ha⟩ := h s s' hs hn
  exact .ok hproceeds ht ha

/-- Recording an error. -/
theorem record {d d' : Diagnostic} (h : Alike l n d d') :
    Follows l n (Parser.record d) (Parser.record d') :=
  modifyGet fun s _ hs _ =>
    ⟨.of_errors (Nat.le_refl _) (not_noErrors_recorded s h.2), hs.recorded h.1, rfl⟩

/-- Recording an error and going on. -/
theorem bind_record {topic : Topic} {span span' : Span} {c c' : Complaint} {f f' : Unit → Parser β}
    (hspan : span.Alike l span') (hc : c'.message = c.message)
    (hf : ∀ m, n ≤ m → Follows l m (f ()) (f' ())) :
    Follows l n (Parser.errorAt topic span c >>= fun d => Parser.record d >>= f)
      (Parser.errorAt topic span' c' >>= fun d => Parser.record d >>= f') :=
  (errorAt topic hspan hc).bind fun _ _ _ hm hd =>
    (record hd).bind_same fun _ _ hm' _ => hf _ (Nat.le_trans hm hm')

/-- Recording a warning. -/
theorem warnAt {span span' : Span} {c c' : Complaint} (hspan : span.Alike l span')
    (hc : c'.message = c.message) :
    Follows l n (Parser.warnAt span c) (Parser.warnAt span' c') := by
  refine modifyGet fun s s' hs _ => ⟨?_, { hs with report := hs.report.record ?_ }, rfl⟩
  · exact .of_tape_eq rfl (Nat.le_refl _) fun h => by
      simpa [NoErrors, Diagnostic.isError] using h
  · exact ⟨congrArg (Severity.warning, Topic.grammar, ·) hc, hspan⟩

/-! ## Nodes -/

/-- New nodes are the same in both layouts. -/
theorem make (form : Form) {span span' : Span} (hspan : span.Alike l span') :
    Follows l n (Parser.make form span) (Parser.make form span') := by
  intro s s' hs hn
  have halloc := hs.arena.alloc form
  show Agree l s
    ((Parser.lift (s.arena.alloc form) >>= fun x => Parser.lift (x.2.setPosition x.1 span) >>=
      fun arena => (modify fun s => { s with arena := arena }) >>= fun _ => Pure.pure x.1) s)
    ((Parser.lift (s'.arena.alloc form) >>= fun x => Parser.lift (x.2.setPosition x.1 span') >>=
      fun arena => (modify fun s => { s with arena := arena }) >>= fun _ => Pure.pure x.1) s')
  generalize hx : s.arena.alloc form = x at halloc
  generalize s'.arena.alloc form = x' at halloc
  cases halloc with
  | error f f' => exact .fault ..
  | @ok made made' hmade =>
    obtain ⟨id, b⟩ := made
    obtain ⟨_, b'⟩ := made'
    obtain ⟨rfl, hb⟩ := hmade
    have hset := hb.setPosition id hspan
    show Agree l s
      ((Parser.lift (b.setPosition id span) >>= fun arena =>
        (modify fun s => { s with arena := arena }) >>= fun _ => Pure.pure id) s)
      ((Parser.lift (b'.setPosition id span') >>= fun arena =>
        (modify fun s => { s with arena := arena }) >>= fun _ => Pure.pure id) s')
    generalize hy : b.setPosition id span = y at hset
    generalize b'.setPosition id span' = y' at hset
    cases hset with
    | error f f' => exact .fault ..
    | @ok c c' hc =>
      obtain ⟨horderly, hid, hsize⟩ := hs.orderly.made hx hy
      have hlt : id.index < c.size := by
        rw [hid, hsize]
        exact Nat.lt_succ_self _
      have hle : s.arena.size ≤ c.size := hsize ▸ Nat.le_succ _
      exact .ok (.of_tape_eq rfl hle fun h => h)
        { hs with arena := hc, orderly := horderly } ⟨rfl, hlt⟩

/-- The form of a node. -/
theorem formOf (id : NodeId) : Follows l n (Parser.formOf id) (Parser.formOf id) :=
  fun s s' hs _ => lift (n := 0) (hs.arena.form id) s s' hs (Nat.zero_le _)

/-- The position of a node. -/
theorem spanOf {id : NodeId} (hid : id.index < n) :
    Follows l n (Parser.spanOf id) (Parser.spanOf id) := by
  intro s s' hs hn
  have hlt : id.index < s.arena.size := Nat.lt_of_lt_of_le hid hn
  have hlt' : id.index < s'.arena.size := hs.arena.size_eq ▸ hlt
  rw [spanOf_eq hlt, spanOf_eq hlt']
  refine .ok (.refl s) hs ?_
  obtain ⟨span, hspan⟩ := hs.orderly.placed id hlt
  have hposition := hs.arena.position? id
  rw [hspan] at hposition ⊢
  generalize s'.arena.position? id = position at hposition
  cases hposition with
  | some hposition => exact hposition

/-- From the start of a span to the end of the last consumed token. -/
theorem spanFrom {start start' : Span} (h : start.Alike l start') :
    Follows l n (Parser.spanFrom start) (Parser.spanFrom start') := by
  have hprevious : Follows l n Parser.previous Parser.previous := fun s s' hs _ => by
    refine lift (n := 0) ?_ s s' hs (Nat.zero_le _)
    have hconsumed := hs.tape.consumed
    unfold Tape.previous
    generalize s.tape.consumed = tokens at hconsumed
    generalize s'.tape.consumed = tokens' at hconsumed
    cases hconsumed with
    | nil => exact .error ..
    | cons ht _ => exact .ok ht
  exact hprevious.bind fun _ _ _ _ ht => .pure (h.through ht.span)

/-- The same for every item of a list. -/
theorem forM {γ : Type} {f f' : γ → Parser PUnit} (items : List γ)
    (h : ∀ m, n ≤ m → ∀ item ∈ items, Follows l m (f item) (f' item)) :
    Follows l n (items.forM f) (items.forM f') := by
  induction items generalizing n with
  | nil => exact .pure rfl
  | cons item items ih =>
    refine (h n (Nat.le_refl n) item List.mem_cons_self).bind fun m _ _ hm _ => ?_
    exact ih fun m' hm' other hother =>
      h m' (Nat.le_trans hm hm') other (List.mem_cons_of_mem _ hother)

/-- The same redefinitions are reported. -/
theorem reportRedefinitions :
    Follows l n Parser.reportRedefinitions Parser.reportRedefinitions := by
  intro s s' hs hn
  obtain ⟨hfound, harena⟩ := hs.arena.takeRedefinitions
  have hrecord (m : Nat) (hm : s.arena.size ≤ m) (r : Redefinition)
      (hr : r ∈ s.arena.takeRedefinitions.1) := by
    have hid : r.duplicate.index < m := Nat.lt_of_lt_of_le (hs.orderly.noted r hr) hm
    exact (spanOf (l := l) hid).bind fun _ _ _ _ hspan =>
      (errorAt .semantic hspan (c := .redefinition r.name) rfl).bind fun _ _ _ _ hd => record hd
  have ht : ({ s with arena := s.arena.takeRedefinitions.2 } : ParserState).Alike l
      { s' with arena := s'.arena.takeRedefinitions.2 } :=
    { hs with arena := harena, orderly := hs.orderly.takeRedefinitions }
  refine .after (.of_tape_eq (t := { s with arena := s.arena.takeRedefinitions.2 }) rfl
    (Nat.le_refl _) fun h => h) ?_
  have hall := forM _ hrecord _ _ ht (Nat.le_refl _)
  have hrun (s : ParserState) : Parser.reportRedefinitions s =
      (s.arena.takeRedefinitions.1.forM fun r => do
        let span ← Parser.spanOf r.duplicate
        Parser.record (← Parser.errorAt .semantic span (.redefinition r.name)))
        { s with arena := s.arena.takeRedefinitions.2 } := rfl
  rw [hrun, hrun, hfound]
  exact hall

/-! ## Synchronization points and scopes -/

/-- Synchronization points take up the same errors. -/
theorem synchronized (stop : Expectation) (hp : Follows l n p p') :
    Follows l n (Parser.synchronized stop p) (Parser.synchronized stop p') := by
  intro s s' hs hn
  have hmark : s'.tape.consumedCount = s.tape.consumedCount := hs.tape.consumedCount
  rw [Simulates.synchronized_eq, Simulates.synchronized_eq, hmark]
  refine .attempt_bind (hp s s' hs hn) ?_ ?_
  · intro a a' t t' _ ht ha
    exact .ok (.refl t) ht (.some ha)
  · intro d d' t t' hsize ht hd
    exact .bind (.recoverFrom hsize ht hd stop _) fun _ _ u u' _ hu _ => .ok (.refl u) hu .none

/-- Rules inside new scopes. -/
theorem inScope (hp : Follows l n p p') :
    Follows l n (Parser.inScope p) (Parser.inScope p') := by
  have hopen : Follows l n Parser.openScope Parser.openScope := modifyGet fun s s' hs _ => by
    obtain ⟨hid, harena⟩ := hs.arena.newScope s.scopes.head?
    dsimp only
    rw [hs.scopes, hid]
    exact ⟨.of_tape_eq rfl (Nat.le_refl _) fun h => h,
      { hs with arena := harena, orderly := hs.orderly.newScope _, scopes := rfl }, rfl⟩
  have hclosed {s s' : ParserState} (hs : s.Alike l s') :
      ({ s with scopes := s.scopes.tail } : ParserState).Alike l
        { s' with scopes := s'.scopes.tail } :=
    { hs with scopes := congrArg List.tail hs.scopes }
  unfold Parser.inScope
  refine hopen.bind_same fun m scope hm _ s s' hs hsize => ?_
  refine .attempt_bind (hp s s' hs (Nat.le_trans hm hsize)) ?_ ?_
  · intro a a' t t' _ ht ha
    exact .ok (.of_tape_eq rfl (Nat.le_refl _) fun h => h) (hclosed ht) ⟨rfl, ha⟩
  · intro d d' t t' hsize ht hd
    exact .failed hsize (hclosed ht) hd

end Follows

end Parser

end ExprLang
