import ExprLang.Proofs.Parser.Invariants
import ExprLang.Proofs.Parser.Limits
import ExprLang.Proofs.Places.Nodes

/-!
# Runs over a text

While a parse runs, the positions of nodes and the spans of diagnostics are spans of its
text, and children lie inside their nodes.  The parse moves onward in the text: a rule
that goes on behind others builds nodes behind theirs.

Main definitions:

- Definition {lit}`ParserState.Sound`: what holds of a parse between two rules.
- Definition {lit}`ParserState.Rows`: nodes one behind another, up to the last token.
- Definition {lit}`Parser.Lands`: a run that leads from one sound state to another.
- Definition {lit}`Parser.Locates`: a rule for a node, which lies where the rule has run.

Main results:

- Theorem {lit}`Parser.Lands.bind`: one rule after another.
- Theorems {lit}`Parser.lands_node` and {lit}`Parser.lands_spanned`: new nodes.
- Theorem {lit}`Parser.Lands.synchronized`: synchronization points.
-/

namespace ExprLang

variable {text : String}

/-- What is reported afterwards was reported before, or is the error that is added. -/
theorem Parser.mem_records_recordIn {report : Report} {d e : Diagnostic}
    (h : e ∈ (recordIn report d).records) : e ∈ report.records ∨ e = d := by
  have hrecord (h : e ∈ (report.record d).records) : e ∈ report.records ∨ e = d := by
    simpa using h
  unfold recordIn at h
  split at h
  · split at h
    · exact .inl h
    · exact hrecord h
  · exact hrecord h

/-! ## States -/

namespace ParserState

variable {s t u : ParserState} {start span : Span} {ids others : List NodeId} {lo : Nat}

/-- The offset up to which tokens were consumed. -/
def reached (s : ParserState) : Nat := s.tape.consumed.head?.elim 0 (·.span.stop.offset)

/-- The offset at which the next token starts. -/
def ahead (s : ParserState) : Nat := s.tape.peek.span.start.offset

/-- A parse of the text between two rules: what is to come are the tokens of the text, positions
are spans of it with children inside, and so are the spans of what is reported. -/
structure Sound (text : String) (s : ParserState) : Prop where
  place : ∃ c, s.tape.StandsAt (tokenize text) c
  nests : s.arena.Nests text
  report : ∀ d ∈ s.report.records, d.span.Genuine text

/-- A parse goes onward: no token is given back, and positions stay. -/
structure Onward (s t : ParserState) : Prop where
  reached_le : s.reached ≤ t.reached
  places : s.arena.Places t.arena

/-- A parse may stay where it is. -/
theorem Onward.refl (s : ParserState) : s.Onward s := ⟨Nat.le_refl _, fun _ _ => id⟩

/-- A parse goes in steps. -/
theorem Onward.trans (h : s.Onward t) (h' : t.Onward u) : s.Onward u :=
  ⟨Nat.le_trans h.reached_le h'.reached_le,
    fun id span hid => h'.places id span (h.places id span hid)⟩

/-- The parse of a text starts in order. -/
theorem sound_ofText (text description : String) (options : ParseOptions) :
    (ofText text description options).Sound text :=
  ⟨⟨0, Tape.standsAt_ofTokens _⟩, Arena.nests_empty text, nofun⟩

/-- On the tape of a text the next token has a span of the text. -/
theorem genuine_peek_of_standsAt {c : Nat} (hc : s.tape.StandsAt (tokenize text) c) :
    s.tape.peek.span.Genuine text := by
  have hpeek : s.tape.peek = Token.endless (tokenize text) c := hc.lookAhead_eq 0
  rw [hpeek]
  exact Token.genuine_endless text c

/-- On the tape of a text the next token starts behind all that was consumed. -/
theorem reached_le_ahead_of_standsAt {c : Nat} (hc : s.tape.StandsAt (tokenize text) c) :
    s.reached ≤ s.ahead := by
  have hpeek : s.tape.peek = Token.endless (tokenize text) c := hc.lookAhead_eq 0
  rw [reached, ahead, hpeek, hc.consumed_eq]
  cases c with
  | zero => exact Nat.zero_le _
  | succ c =>
    rw [Token.items_concat, List.reverse_append, Nat.zero_add]
    exact Token.stop_le_endless_succ text c

namespace Sound

/-- The next token has a span of the text. -/
theorem genuine_peek (h : s.Sound text) : s.tape.peek.span.Genuine text := by
  obtain ⟨c, hc⟩ := h.place
  exact genuine_peek_of_standsAt hc

/-- The next token starts behind all that was consumed. -/
theorem reached_le_ahead (h : s.Sound text) : s.reached ≤ s.ahead := by
  obtain ⟨c, hc⟩ := h.place
  exact reached_le_ahead_of_standsAt hc

/-- The last token that was consumed ends at a point of the text. -/
theorem genuine_previous (h : s.Sound text) {token : Token} (ht : s.tape.previous = .ok token) :
    token.span.Genuine text ∧ token.span.stop.offset = s.reached := by
  obtain ⟨c, hc⟩ := h.place
  rw [reached, hc.consumed_eq]
  rw [Tape.previous, hc.consumed_eq] at ht
  cases c with
  | zero => cases ht
  | succ c =>
    rw [Token.items_concat, List.reverse_append] at ht ⊢
    cases ht
    exact ⟨Token.genuine_endless text _, rfl⟩

/-- The next token is consumed. -/
theorem advanced (h : s.Sound text) : s.advanced.Sound text := by
  obtain ⟨c, hc⟩ := h.place
  exact ⟨⟨c + 1, hc.advance⟩, h.nests, h.report⟩

/-- Consuming a token is a step onward. -/
theorem onward_advanced (h : s.Sound text) : s.Onward s.advanced :=
  ⟨Nat.le_trans h.reached_le_ahead h.genuine_peek.offset_le, fun _ _ => id⟩

/-- A token that was consumed and given back is the next one again. -/
theorem restored (h : s.Sound text) : s.restored.Sound text := by
  obtain ⟨c, hc⟩ := h.place
  obtain ⟨tape, hback, htape⟩ := hc.advance.giveBack
  cases hback
  exact ⟨⟨c, htape⟩, h.nests, h.report⟩

/-- Recording an error about a span of the text. -/
theorem recorded (h : s.Sound text) {d : Diagnostic} (hd : d.span.Genuine text) :
    (s.recorded d).Sound text := by
  refine ⟨h.place, h.nests, fun e he => ?_⟩
  rcases Parser.mem_records_recordIn he with he | rfl
  · exact h.report e he
  · exact hd

/-- Another state with the same tape and the same report. -/
theorem of_arena (h : s.Sound text) (htape : t.tape = s.tape) (hreport : t.report = s.report)
    (harena : t.arena.Nests text) : t.Sound text :=
  ⟨htape ▸ h.place, harena, hreport ▸ h.report⟩

end Sound

/-- A span is behind: it is one of the text, it is not empty, and the parse has got to its end. -/
structure Behind (text : String) (s : ParserState) (span : Span) : Prop where
  genuine : span.Genuine text
  lt : span.start.offset < span.stop.offset
  le : span.stop.offset ≤ s.reached

/-- What is behind stays behind. -/
theorem Behind.later (h : Behind text s span) (hl : s.Onward t) : Behind text t span :=
  { h with le := Nat.le_trans h.le hl.reached_le }

/-- The start of what is behind is behind. -/
theorem Behind.start_lt (h : Behind text s span) : span.start.offset < s.reached :=
  Nat.lt_of_lt_of_le h.lt h.le

/-- A token that was consumed is behind, unless it is the end of the source. -/
theorem Sound.behind_peek (h : s.Sound text) (hkind : s.tape.peek.kind ≠ .endOfFile) :
    Behind text s.advanced s.tape.peek.span := by
  refine ⟨h.genuine_peek, ?_, Nat.le_refl _⟩
  obtain ⟨c, hc⟩ := h.place
  have hpeek : s.tape.peek = Token.endless (tokenize text) c := hc.lookAhead_eq 0
  rw [hpeek] at hkind ⊢
  exact Token.nonempty_endless hkind

/-- What reaches from what is behind to the next token is behind once that is consumed. -/
theorem Behind.through_peek (h : Behind text s start) (hs : s.Sound text) :
    Behind text s.advanced (start.through s.tape.peek.span) := by
  have hlt : start.start.offset < s.tape.peek.span.stop.offset :=
    Nat.lt_of_lt_of_le h.start_lt (hs.onward_advanced).reached_le
  exact ⟨h.genuine.through hs.genuine_peek (Nat.le_of_lt hlt), hlt, Nat.le_refl _⟩

/-! ## Nodes in a row -/

/-- Nodes lie one behind another, from an offset up to the last token that was consumed. -/
def Rows (s : ParserState) (lo : Nat) (ids : List NodeId) : Prop :=
  s.arena.Row lo ids s.reached

namespace Rows

/-- No nodes. -/
theorem nil (h : lo ≤ s.reached) : s.Rows lo [] := Arena.Row.nil h

/-- Nodes stay where they are. -/
theorem later (h : s.Rows lo ids) (hl : s.Onward t) : t.Rows lo ids :=
  (h.places hl.places).mono_right hl.reached_le

/-- Nodes that lie behind an offset lie behind a smaller one. -/
theorem mono {lo' : Nat} (h : s.Rows lo ids) (hle : lo' ≤ lo) : s.Rows lo' ids := h.mono_left hle

/-- Nodes behind what was consumed are behind the older ones. -/
theorem append (h : s.Rows lo ids) (hl : s.Onward t) (h' : t.Rows s.reached others) :
    t.Rows lo (ids ++ others) :=
  (h.places hl.places).append h'

end Rows

end ParserState

/-! ## Runs -/

namespace Parser

open ParserState

variable {α β γ : Type} {s t r : ParserState} {p : Parser α} {f : α → Parser β}
  {M : α → ParserState → Prop} {R : β → ParserState → Prop}

/-- A run from the state `s` leads onward to a sound state.  If it ends with a value, `R` holds of
that and of the state; if it stops with a diagnostic, that is about a span of the text. -/
def Lands (text : String) (s : ParserState) (result : EStateM.Result Stop ParserState α)
    (R : α → ParserState → Prop) : Prop :=
  match result with
  | .ok a t => t.Sound text ∧ s.Onward t ∧ R a t
  | .error (.failed d) t => t.Sound text ∧ s.Onward t ∧ d.span.Genuine text
  | .error (.fault _) _ => True

/-- A rule that lands wherever it starts. -/
def Moves (text : String) (p : Parser α) : Prop :=
  ∀ s, s.Sound text → Lands text s (p s) fun _ _ => True

/-- A run that comes back leaves a sound state, and stops for what is wrong in the text. -/
theorem Moves.of_run {result : Except Diagnostic α} (hp : Moves text p) (hs : s.Sound text)
    (hrun : p.run s = .ok (result, t)) :
    t.Sound text ∧ ∀ d, result = .error d → d.span.Genuine text := by
  have h := hp s hs
  cases result with
  | ok a =>
    rw [run_eq_ok_ok.1 hrun] at h
    exact ⟨h.1, nofun⟩
  | error d =>
    rw [run_eq_ok_error.1 hrun] at h
    exact ⟨h.1, fun _ he => Except.error.inj he ▸ h.2.2⟩

namespace Lands

variable {x : EStateM.Result Stop ParserState α} {M' : α → ParserState → Prop}

/-- Less can be said of a run. -/
theorem mono (h : Lands text s x M)
    (hm : ∀ a t, t.Sound text → s.Onward t → M a t → M' a t) : Lands text s x M' := by
  unfold Lands at h ⊢
  split
  · exact ⟨h.1, h.2.1, hm _ _ h.1 h.2.1 h.2.2⟩
  · exact h
  · trivial

/-- A run that starts further on. -/
theorem after (hl : r.Onward s) (h : Lands text s x M) : Lands text r x M := by
  unfold Lands at h ⊢
  split
  · exact ⟨h.1, hl.trans h.2.1, h.2.2⟩
  · exact ⟨h.1, hl.trans h.2.1, h.2.2⟩
  · trivial

/-- A run that keeps a property of arenas. -/
theorem keeping {I : Arena → Prop} (h : Lands text s (p s) M) (hp : Keeps I p) :
    Lands text s (p s) fun a t => M a t ∧ (I s.arena → I t.arena) := by
  have hkept := hp.keeps s
  cases hrun : p s with
  | ok a t =>
    rw [hrun] at h hkept
    exact ⟨h.1, h.2.1, h.2.2, hkept⟩
  | error stop t =>
    rw [hrun] at h
    cases stop with
    | failed d => exact h
    | fault f => trivial

/-- A value. -/
theorem pure {a : α} (hs : s.Sound text) (h : M a s) :
    Lands text s ((Pure.pure a : Parser α) s) M :=
  ⟨hs, .refl s, h⟩

/-- One rule after another. -/
theorem bind (hp : Lands text s (p s) M)
    (hf : ∀ a t, t.Sound text → s.Onward t → M a t → Lands text t (f a t) R) :
    Lands text s ((p >>= f) s) R := by
  cases h : p s with
  | ok a t =>
    rw [h] at hp
    rw [bind_eq_of_eq_ok h]
    exact .after hp.2.1 (hf a t hp.1 hp.2.1 hp.2.2)
  | error e t =>
    rw [h] at hp
    rw [bind_eq_of_eq_error h]
    cases e with
    | failed d => exact hp
    | fault f => trivial

/-- A look at the state. -/
theorem bind_look {a : α} (hp : p s = .ok a s) (hf : Lands text s (f a s) R) :
    Lands text s ((p >>= f) s) R := by
  rw [bind_eq_of_eq_ok hp]
  exact hf

/-- A choice. -/
theorem ite {c : Prop} [Decidable c] {q : Parser α} (hp : c → Lands text s (p s) M)
    (hq : ¬ c → Lands text s (q s) M) : Lands text s ((if c then p else q) s) M := by
  by_cases h : c
  · rw [if_pos h]
    exact hp h
  · rw [if_neg h]
    exact hq h

/-- A rule whose diagnostic is handed on. -/
theorem attempt_bind {g : Except Diagnostic α → Parser β} (hp : Lands text s (p s) M)
    (hok : ∀ a t, t.Sound text → s.Onward t → M a t → Lands text t (g (.ok a) t) R)
    (herror : ∀ d t, t.Sound text → s.Onward t → d.span.Genuine text →
      Lands text t (g (.error d) t) R) : Lands text s ((attempt p >>= g) s) R := by
  cases h : p s with
  | ok a t =>
    rw [h] at hp
    rw [attempt_bind_of_eq_ok h]
    exact .after hp.2.1 (hok a t hp.1 hp.2.1 hp.2.2)
  | error e t =>
    rw [h] at hp
    cases e with
    | failed d =>
      rw [attempt_bind_of_failed h]
      exact .after hp.2.1 (herror d t hp.1 hp.2.1 hp.2.2)
    | fault f =>
      rw [attempt_bind_of_fault h]
      trivial

/-- A computation without a state. -/
theorem bind_lift {result : Except Fault α} (hf : ∀ a, result = .ok a → Lands text s (f a s) R) :
    Lands text s ((Parser.lift result >>= f) s) R := by
  cases result with
  | ok a => exact hf a rfl
  | error e => trivial

/-- Repetition keeps an invariant. -/
theorem loop {step : α → Parser (α ⊕ β)} {I : α → ParserState → Prop}
    (hstep : ∀ a t, t.Sound text → I a t →
      Lands text t (step a t) fun r u => r.elim (I · u) (R · u))
    (n : Nat) {a : α} (hs : s.Sound text) (h : I a s) :
    Lands text s (Parser.loop step n a s) R := by
  induction n generalizing a s with
  | zero => trivial
  | succ n ih =>
    refine (hstep a s hs h).bind fun r t ht _ hr => ?_
    cases r with
    | inl a => exact ih ht hr
    | inr b => exact .pure ht hr

/-! ## Tokens -/

/-- Consuming the next token. -/
theorem bind_advance {f : Token → Parser β} (hs : s.Sound text)
    (hf : Lands text s.advanced (f s.tape.peek s.advanced) R) :
    Lands text s ((Parser.advance >>= f) s) R :=
  .after hs.onward_advanced hf

/-- Consuming the next token, giving it back and stopping with an error. -/
theorem giveBack_fail {f : Token → Parser β} {q : Parser β} {d : Diagnostic} (hs : s.Sound text)
    (hf : f s.tape.peek = (giveBack >>= fun _ => q))
    (hq : q s.restored = .error (.failed d) s.restored) (hd : d.span.Genuine text) :
    Lands text s ((Parser.advance >>= f) s) R := by
  have hrun : (Parser.advance >>= f) s = q s.restored := by
    refine (bind_eq_of_eq_ok (a := s.tape.peek) (t := s.advanced) rfl).trans ?_
    rw [hf]
    rfl
  rw [hrun, hq]
  exact ⟨hs.restored, ⟨Nat.le_refl _, fun _ _ => id⟩, hd⟩

/-- Consuming the next token if it is of some kind. -/
theorem bind_skipKind {f : Bool → Parser β} {kind : TokenKind} (hs : s.Sound text)
    (hyes : s.tape.peek.kind = kind → Lands text s.advanced (f true s.advanced) R)
    (hno : Lands text s (f false s) R) : Lands text s ((Parser.skipKind kind >>= f) s) R := by
  by_cases h : s.tape.peek.kind = kind
  · rw [bind_eq_of_eq_ok (skipKind_of_eq h)]
    exact .after hs.onward_advanced (hyes h)
  · rw [bind_eq_of_eq_ok (skipKind_of_ne h)]
    exact hno

/-- Stopping with an error about the next token. -/
theorem fail_unexpected {expected : String} (hs : s.Sound text) :
    Lands text s ((Parser.unexpected expected >>= fun d => Parser.fail d : Parser β) s) R :=
  ⟨hs, .refl s, hs.genuine_peek⟩

/-- Stopping with an error about a stretch of the source. -/
theorem failAt {span : Span} {complaint : Complaint} (hs : s.Sound text)
    (h : span.Genuine text) : Lands text s ((Parser.failAt span complaint : Parser β) s) R :=
  ⟨hs, .refl s, h⟩

/-- Consuming the next token, which has to fit. -/
theorem bind_expect {f : Token → Parser β} {e : Expectation} (hs : s.Sound text)
    (hf : e.accepts s.tape.peek.kind = true →
      Lands text s.advanced (f s.tape.peek s.advanced) R) :
    Lands text s ((Parser.expect e >>= f) s) R := by
  cases h : e.accepts s.tape.peek.kind with
  | true =>
    rw [bind_eq_of_eq_ok (expect_of_accepts h)]
    exact .after hs.onward_advanced (hf h)
  | false =>
    rw [bind_eq_of_eq_error (expect_of_not_accepts h)]
    exact ⟨hs, .refl s, hs.genuine_peek⟩

/-- Consuming the next token, which has to be of some kind. -/
theorem bind_expectKind {f : Token → Parser β} {kind : TokenKind} (hs : s.Sound text)
    (hf : s.tape.peek.kind = kind → Lands text s.advanced (f s.tape.peek s.advanced) R) :
    Lands text s ((Parser.expectKind kind >>= f) s) R :=
  .bind_expect hs fun h => hf (by simpa using h : kind = s.tape.peek.kind).symm

/-- Consuming a name. -/
theorem bind_name {f : Token → Parser β} (hs : s.Sound text)
    (hf : s.tape.peek.kind ≠ .endOfFile →
      Lands text s.advanced (f s.tape.peek s.advanced) R) :
    Lands text s ((Parser.name >>= f) s) R := by
  refine .bind_expect hs fun h => hf fun hend => ?_
  rw [hend] at h
  cases h

/-! ## Diagnostics -/

/-- An error about a stretch of the source. -/
theorem bind_errorAt {f : Diagnostic → Parser β} {topic : Topic} {span : Span}
    {complaint : Complaint}
    (hf : Lands text s (f ⟨s.report.source, .error, topic, span, complaint.message⟩ s) R) :
    Lands text s ((Parser.errorAt topic span complaint >>= f) s) R :=
  .bind_look rfl hf

/-- Recording an error. -/
theorem record {d : Diagnostic} (hs : s.Sound text) (hd : d.span.Genuine text) :
    Lands text s (Parser.record d s) fun _ t => t.tape = s.tape ∧ t.arena = s.arena :=
  ⟨hs.recorded hd, ⟨Nat.le_refl _, fun _ _ => id⟩, rfl, rfl⟩

/-- Recording a warning. -/
theorem warnAt {span : Span} {complaint : Complaint} (hs : s.Sound text)
    (h : span.Genuine text) :
    Lands text s (Parser.warnAt span complaint s) fun _ t =>
      t.tape = s.tape ∧ t.arena = s.arena := by
  refine ⟨⟨hs.place, hs.nests, fun d hd => ?_⟩, ⟨Nat.le_refl _, fun _ _ => id⟩, rfl, rfl⟩
  rcases List.mem_append.1 hd with hd | hd
  · exact hs.report d hd
  · rw [List.mem_singleton.1 hd]
    exact h

/-! ## New nodes -/

/-- From the start of a span before the last consumed token to the end of that. -/
theorem spanFrom {start : Span} (hs : s.Sound text) (hstart : start.Genuine text)
    (hlt : start.start.offset < s.reached) :
    Lands text s (Parser.spanFrom start s) fun span t => t = s ∧ Behind text s span ∧
      span.start = start.start ∧ span.stop.offset = s.reached := by
  have hprevious : Lands text s (Parser.previous s) fun token t =>
      t = s ∧ s.tape.previous = .ok token := by
    show Lands text s (Parser.lift s.tape.previous s) _
    cases s.tape.previous with
    | ok token => exact .pure hs ⟨rfl, rfl⟩
    | error e => trivial
  refine hprevious.bind ?_
  rintro token _ ht - ⟨rfl, htoken⟩
  obtain ⟨hgenuine, hstop⟩ := hs.genuine_previous htoken
  have hthrough := hstart.through hgenuine (hstop ▸ Nat.le_of_lt hlt)
  exact .pure ht ⟨rfl, ⟨hthrough, hstop ▸ hlt, Nat.le_of_eq hstop⟩, rfl, hstop⟩

/-- Going on with the stretch up to the last consumed token. -/
theorem bind_spanFrom {f : Span → Parser β} {start : Span} (hs : s.Sound text)
    (hstart : start.Genuine text) (hlt : start.start.offset < s.reached)
    (hf : ∀ span, Behind text s span → span.start = start.start → span.stop.offset = s.reached →
      Lands text s (f span s) R) : Lands text s ((Parser.spanFrom start >>= f) s) R := by
  refine (spanFrom hs hstart hlt).bind ?_
  rintro span _ - - ⟨rfl, hspan⟩
  exact hf span hspan.1 hspan.2.1 hspan.2.2

/-- The position of a node. -/
theorem bind_spanOf {f : Span → Parser β} {id : NodeId} {span : Span}
    (h : s.arena.position? id = some span) (hf : Lands text s (f span s) R) :
    Lands text s ((Parser.spanOf id >>= f) s) R := by
  refine .bind_look (spanOf_eq (Arena.index_lt_of_position? h)) ?_
  rw [h]
  exact hf

end Lands

/-- A new node whose position goes with its form. -/
theorem lands_make {form : Form} {span : Span} (hs : s.Sound text) (hspan : span.Genuine text)
    (h : s.arena.Suits form span) : Lands text s (make form span s) fun id t =>
      t.tape = s.tape ∧ t.arena.position? id = some span ∧
        (s.arena.Owned True → form.children.Nodup → t.arena.form? id = some form) := by
  show Lands text s ((lift (s.arena.alloc form) >>= fun made =>
    lift (made.2.setPosition made.1 span) >>= fun arena =>
      (modify fun s => { s with arena := arena }) >>= fun _ => pure made.1) s) _
  refine .bind_lift fun made halloc => .bind_lift fun arena hset => ?_
  obtain ⟨hnests, hplaces, hposition⟩ := hs.nests.made hspan h halloc hset
  exact ⟨hs.of_arena rfl rfl hnests, ⟨Nat.le_refl _, hplaces⟩, rfl, hposition,
    fun howned hnodup => Arena.form?_of_made howned hnodup halloc hset⟩

/-- A new node over children that lie in its span in a row. -/
theorem lands_node {form : Form} {span : Span} (hs : s.Sound text) (hspan : Behind text s span)
    (hrow : s.arena.Row span.start.offset form.children span.stop.offset) :
    Lands text s (make form span s) fun id t => t.Rows span.start.offset [id] := by
  refine (lands_make hs hspan.genuine fun _ => ⟨hspan.lt, hrow⟩).mono fun id t _ hl h => ?_
  exact .singleton h.2.1 (Nat.le_refl _) hspan.lt (Nat.le_trans hspan.le hl.reached_le)

/-- A new node that goes on to the last token, over children behind its start. -/
theorem lands_spanned {form : Form} {start : Span} (hs : s.Sound text)
    (hstart : start.Genuine text) (hlt : start.start.offset < s.reached)
    (hrows : s.Rows start.start.offset form.children) :
    Lands text s ((spanFrom start >>= fun span => make form span) s) fun id t =>
      t.Rows start.start.offset [id] := by
  refine .bind_spanFrom hs hstart hlt fun span hspan hfrom hto => ?_
  rw [← hfrom] at hrows ⊢
  refine lands_node hs hspan ?_
  rw [hto]
  exact hrows

/-- Errors about nodes are about spans of the text, and change no node. -/
theorem lands_reportRedefinitions (hs : s.Sound text) :
    Lands text s (reportRedefinitions s) fun _ t => t.arena.nodes = s.arena.nodes := by
  have hloop (found : List Redefinition) {s : ParserState} (hs : s.Sound text) :
      Lands text s ((found.forM fun redefinition => do
        let span ← spanOf redefinition.duplicate
        record (← errorAt .semantic span (.redefinition redefinition.name)) : Parser Unit) s)
        fun _ t => t.arena.nodes = s.arena.nodes := by
    induction found generalizing s with
    | nil => exact .pure hs rfl
    | cons redefinition found ih =>
      have hrecorded : Lands text s ((do
          let span ← spanOf redefinition.duplicate
          record (← errorAt .semantic span (.redefinition redefinition.name))) s)
          fun _ t => t.arena = s.arena := by
        rw [bind_spanOf_eq]
        refine .bind_lift fun found hfound => ?_
        have hspan : (found.getD Span.zero).Genuine text := by
          cases found with
          | none => exact Span.genuine_toSpan (Point.genuine_zero text)
          | some span => exact hs.nests.genuine _ span (Arena.position?_of_position hfound)
        exact .bind_errorAt ((Lands.record hs hspan).mono fun _ _ _ _ h => h.2)
      exact hrecorded.bind fun _ t ht _ harena => harena ▸ ih ht
  let t : ParserState := { s with arena := s.arena.takeRedefinitions.2 }
  have ht : t.Sound text := hs.of_arena rfl rfl (hs.nests.of_nodes_eq rfl)
  have hl : s.Onward t := ⟨Nat.le_refl _, fun _ _ => id⟩
  exact .after hl (hloop s.arena.takeRedefinitions.1 ht)

/-- Errors about nodes are about spans of the text. -/
theorem moves_reportRedefinitions : Moves text reportRedefinitions :=
  fun _ hs => (lands_reportRedefinitions hs).mono fun _ _ _ _ _ => trivial

/-- A new node that goes on to the last token, after which redefinitions are reported. -/
theorem lands_reported {form : Form} {start : Span} (hs : s.Sound text)
    (hstart : start.Genuine text) (hlt : start.start.offset < s.reached)
    (hrows : s.Rows start.start.offset form.children) :
    Lands text s ((do
      let span ← spanFrom start
      let id ← make form span
      reportRedefinitions
      return id) s) fun id t => t.Rows start.start.offset [id] := by
  have hassoc : (do
      let span ← spanFrom start
      let id ← make form span
      reportRedefinitions
      return id : Parser NodeId) = (spanFrom start >>= fun span => make form span) >>= fun id => do
        reportRedefinitions
        return id := (bind_assoc ..).symm
  rw [hassoc]
  refine (lands_spanned hs hstart hlt hrows).bind fun id t ht _ hid => ?_
  exact (moves_reportRedefinitions t ht).bind fun _ u hu hl _ => .pure hu (hid.later hl)

/-! ## Synchronization points and scopes -/

namespace Lands

/-- Skipping goes onward. -/
theorem exists_skipWithin {tape : Tape} (stop : Expectation) (n : Nat) (mayStop : Bool)
    (depth : Nat) {s : ParserState} (hs : s.Sound text) (htape : s.tape = tape) :
    ({ s with tape := tape.skipWithin stop n mayStop depth } : ParserState).Sound text ∧
      s.Onward { s with tape := tape.skipWithin stop n mayStop depth } := by
  subst htape
  induction n generalizing s mayStop depth with
  | zero => exact ⟨hs, .refl s⟩
  | succ n ih =>
    have hnext := hs.advanced
    have hmore (mayStop : Bool) (depth : Nat) := ih mayStop depth hnext
    have hthere (tape : Tape)
        (h : ({ s.advanced with tape := tape } : ParserState).Sound text ∧
          s.advanced.Onward { s.advanced with tape := tape }) :
        ({ s with tape := tape } : ParserState).Sound text ∧ s.Onward { s with tape := tape } :=
      ⟨h.1, hs.onward_advanced.trans h.2⟩
    simp only [Tape.skipWithin]
    split
    · exact ⟨hs, .refl s⟩
    · split
      · exact ⟨hnext, hs.onward_advanced⟩
      · split
        · exact ⟨hnext, hs.onward_advanced⟩
        · exact hthere _ (hmore _ _)
      all_goals exact hthere _ (hmore _ _)

/-- Recovery: the error stands, or tokens are skipped. -/
theorem recoverFrom {d : Diagnostic} (hs : s.Sound text) (hd : d.span.Genuine text)
    (stop : Expectation) (mark : Nat) :
    Lands text s (Parser.recoverFrom d stop mark s) fun _ _ => True := by
  have hrecorded := hs.recorded hd
  have hl : s.Onward (s.recorded d) := ⟨Nat.le_refl _, fun _ _ => id⟩
  rw [Simulates.recoverFrom_eq]
  split
  · exact ⟨hs, .refl s, hd⟩
  · dsimp only
    split
    · exact ⟨hrecorded, hl, hd⟩
    · obtain ⟨hskipped, hl'⟩ := exists_skipWithin stop _ _ _ hrecorded rfl
      exact ⟨hskipped, hl.trans hl', trivial⟩

/-- A synchronization point: what is said of a value is said of it if there is one. -/
theorem synchronized (stop : Expectation) (hp : Lands text s (p s) M) :
    Lands text s (Parser.synchronized stop p s) fun a? t => ∀ a, a? = some a → M a t := by
  rw [Simulates.synchronized_eq]
  refine .attempt_bind hp (fun a t ht _ ha => .pure ht fun _ he => Option.some.inj he ▸ ha) ?_
  intro d t ht _ hd
  exact (recoverFrom ht hd stop _).bind fun _ u hu _ _ => .pure hu nofun

/-- A rule inside a new scope.  What is said of the value may not be about open scopes. -/
theorem inScope (hs : s.Sound text)
    (hp : ∀ u, u.Sound text → s.Onward u → u.tape = s.tape → Lands text u (p u) M)
    (hm : ∀ a t scopes, M a t → M a { t with scopes := scopes }) :
    Lands text s (Parser.inScope p s) fun x t => M x.2 t := by
  let u : ParserState := { s with
    arena := (s.arena.newScope s.scopes.head?).2
    scopes := (s.arena.newScope s.scopes.head?).1 :: s.scopes }
  have hu : u.Sound text := hs.of_arena rfl rfl (hs.nests.of_nodes_eq rfl)
  have hl : s.Onward u := ⟨Nat.le_refl _, fun _ _ => id⟩
  have hclosed (t : ParserState) (ht : t.Sound text) :
      ({ t with scopes := t.scopes.tail } : ParserState).Sound text :=
    ⟨ht.place, ht.nests, ht.report⟩
  refine .after hl (.attempt_bind (hp u hu hl rfl) ?_ ?_)
  · intro a t ht _ ha
    exact ⟨hclosed t ht, ⟨Nat.le_refl _, fun _ _ => id⟩, hm a t _ ha⟩
  · intro d t ht _ hd
    exact ⟨hclosed t ht, ⟨Nat.le_refl _, fun _ _ => id⟩, hd⟩

end Lands

/-! ## Rules for nodes -/

/-- A rule for a node, which begins with the next token or behind that, and ends with the last
token that is consumed or before that. -/
def Locates (text : String) (p : Parser NodeId) : Prop :=
  ∀ s, s.Sound text → Lands text s (p s) fun id t => t.Rows s.ahead [id]

/-- A node behind others. -/
theorem Locates.append {p : Parser NodeId} (h : Locates text p) (hs : s.Sound text) {lo : Nat}
    {ids : List NodeId} (hrows : s.Rows lo ids) :
    Lands text s (p s) fun id t => t.Rows lo (ids ++ [id]) :=
  (h s hs).mono fun _ _ _ hl hid => hrows.append hl (hid.mono hs.reached_le_ahead)

end Parser

end ExprLang
