import ExprLang.Proofs.Errors.Nodes
import ExprLang.Proofs.Parser.Limits
import ExprLang.Proofs.Places.Runs

/-!
# States of a report

What the errors of a parse under way have to do with the place where it stands and
with the nodes it has built.  As a rule every error lies before the next token, so
an error about that token, or about one that was consumed since, is a new one.
There are two exceptions.  After an error about a token where the parse may go on, the
rule that goes on consumes that token.  And at the end of the source an error is
followed by errors about a missing brace only, which all are the same.

Main definitions:

- Definition {lit}`ParserState.Accounts`: what is true of every report.
- Definitions {lit}`ParserState.Clear`, {lit}`ParserState.Awaits` and
  {lit}`ParserState.Ended`: where the last errors lie.
- Definition {lit}`ParserState.Raises`: errors with which rules stop.
- Definition {lit}`ParserState.Advances`: what every rule keeps.

Main results:

- Theorem {lit}`ParserState.Raises.apart_recordIn`: such an error repeats none.
- Theorem {lit}`ParserState.between_skip`: where a parse goes on after an error.
-/

namespace ExprLang

/-! ## Errors that are apart -/

/-- Two diagnostics differ in their spans or in what they say. -/
def Diagnostic.Apart (d e : Diagnostic) : Prop := ¬(d.span = e.span ∧ d.message = e.message)

/-- Diagnostics with different spans are apart. -/
theorem Diagnostic.apart_of_span_ne {d e : Diagnostic} (h : d.span ≠ e.span) : d.Apart e :=
  fun he => h he.1

namespace Parser

variable {r : Report} {d : Diagnostic}

/-- Recording keeps the name of the source. -/
@[simp] theorem source_recordIn (r : Report) (d : Diagnostic) :
    (recordIn r d).source = r.source := by
  unfold recordIn
  split
  · split <;> rfl
  · rfl

/-- An error that is not the last one is recorded behind the others. -/
theorem errors_recordIn_of_apart (hd : d.isError = true) (h : ∀ e ∈ r.errors, e.Apart d) :
    (recordIn r d).errors = r.errors ++ [d] := by
  unfold recordIn
  split
  · rename_i last hlast
    rw [if_neg (h last (List.mem_of_getLast? hlast))]
    simp [hd]
  · simp [hd]

/-- An error that the last one repeats is not recorded. -/
theorem recordIn_of_last {last : Diagnostic} (hlast : r.errors.getLast? = some last)
    (hsame : last.span = d.span ∧ last.message = d.message) : recordIn r d = r := by
  rw [recordIn, hlast]
  exact if_pos hsame

/-- Errors stay apart when one is recorded that is apart from all of them. -/
theorem pairwise_concat (hr : r.errors.Pairwise Diagnostic.Apart) (h : ∀ e ∈ r.errors, e.Apart d) :
    (r.errors ++ [d]).Pairwise Diagnostic.Apart :=
  List.pairwise_append.2 ⟨hr, List.pairwise_singleton .., fun e he _ hx =>
    List.mem_singleton.1 hx ▸ h e he⟩

end Parser

namespace ParserState

open ExprLang.Parser

/-- Recording an error adds at most that. -/
theorem mem_errors_recorded {s : ParserState} {d e : Diagnostic} (hd : d.isError = true)
    (he : e ∈ (s.recorded d).report.errors) : e ∈ s.report.errors ∨ e = d := by
  rcases errors_recordIn s.report hd with happend | hsame
  · rw [show (s.recorded d).report.errors = s.report.errors ++ [d] from happend] at he
    simpa using he
  · rw [show (s.recorded d).report = s.report from hsame] at he
    exact .inl he

/-- Recording an error loses none. -/
theorem errors_subset_recorded {s : ParserState} {d : Diagnostic} (hd : d.isError = true) :
    s.report.errors ⊆ (s.recorded d).report.errors := by
  intro e he
  show e ∈ (recordIn s.report d).errors
  rcases errors_recordIn s.report hd with happend | hsame
  · exact happend ▸ List.mem_append_left _ he
  · rwa [hsame]

variable {text : String} {s t u : ParserState} {base base' : Arena} {lo lo' : Nat}
  {d : Diagnostic} {stop : Expectation} {due : List Diagnostic}

/-! ## Accounts -/

/-- A parse of the text whose errors are apart from each other.  The errors about the meaning of
the text are those that the nodes of the arena give rise to, in the order in which the nodes were
built; the errors `due` are about a node that is to be built next. -/
structure Accounts (text : String) (due : List Diagnostic) (s : ParserState) : Prop where
  place : ∃ c, s.tape.StandsAt (tokenize text) c
  orderly : s.arena.Orderly
  ordered : s.arena.Ordered
  redefinitions : s.arena.redefinitions = []
  apart : s.report.errors.Pairwise Diagnostic.Apart
  told : s.report.errors.filter (·.topic == .semantic) =
    (List.range s.arena.size).flatMap
      (fun i => s.arena.semanticErrors s.report.source (tokenize text) ⟨i⟩) ++ due

/-- A parse of the text between two rules. -/
abbrev Settled (text : String) (s : ParserState) : Prop := s.Accounts text []

/-- The parse of a text starts without errors. -/
theorem settled_ofText (text description : String) (options : ParseOptions) :
    (ofText text description options).Settled text :=
  ⟨⟨0, Tape.standsAt_ofTokens _⟩, .empty, nofun, rfl, .nil, rfl⟩

namespace Accounts

/-- The token that comes next, by its number. -/
theorem exists_peek_eq (h : s.Accounts text due) : ∃ c, s.tape.StandsAt (tokenize text) c ∧
    s.tape.peek = Token.endless (tokenize text) c := by
  obtain ⟨c, hc⟩ := h.place
  exact ⟨c, hc, hc.lookAhead_eq 0⟩

/-- The next token starts behind all that was consumed. -/
theorem reached_le_ahead (h : s.Accounts text due) : s.reached ≤ s.ahead := by
  obtain ⟨c, hc⟩ := h.place
  exact reached_le_ahead_of_standsAt hc

/-- The next token does not end before it starts. -/
theorem ahead_le_reached (h : s.Accounts text due) : s.ahead ≤ s.advanced.reached := by
  obtain ⟨c, hc⟩ := h.place
  exact (genuine_peek_of_standsAt hc).offset_le

/-- The next token is not empty unless the source ends. -/
theorem ahead_lt_reached (h : s.Accounts text due) (hkind : s.tape.peek.kind ≠ .endOfFile) :
    s.ahead < s.advanced.reached := by
  obtain ⟨c, -, hpeek⟩ := h.exists_peek_eq
  show s.tape.peek.span.start.offset < s.tape.peek.span.stop.offset
  rw [hpeek] at hkind ⊢
  exact Token.nonempty_endless hkind

/-- The same tokens and errors with another arena that gives rise to the same errors. -/
theorem of_arena (h : s.Accounts text due) (htape : ∃ c, t.tape.StandsAt (tokenize text) c)
    (hreport : t.report = s.report) (hnodes : t.arena.nodes = s.arena.nodes)
    (horderly : t.arena.Orderly) (hredefinitions : t.arena.redefinitions = []) :
    t.Accounts text due := by
  have hform (id : NodeId) : t.arena.form? id = s.arena.form? id := by
    simp only [Arena.form?, Arena.node?, hnodes]
  refine ⟨htape, horderly, fun id form hf => h.ordered id form (hform id ▸ hf), hredefinitions,
    hreport ▸ h.apart, ?_⟩
  have hsize : t.arena.size = s.arena.size := congrArg Array.size hnodes
  simp only [Arena.semanticErrors_congr hnodes, hsize]
  rw [hreport, h.told]

/-- Other tokens of the same text. -/
theorem of_tape (h : s.Accounts text due) {tape : Tape}
    (htape : ∃ c, tape.StandsAt (tokenize text) c) :
    ({ s with tape := tape } : ParserState).Accounts text due :=
  ⟨htape, h.orderly, h.ordered, h.redefinitions, h.apart, h.told⟩

/-- The next token is consumed. -/
theorem advanced (h : s.Accounts text due) : s.advanced.Accounts text due := by
  obtain ⟨c, hc⟩ := h.place
  exact h.of_tape ⟨c + 1, hc.advance⟩

/-- The token behind the next one starts no earlier. -/
theorem ahead_le (h : s.Accounts text due) : s.ahead ≤ s.advanced.ahead :=
  Nat.le_trans h.ahead_le_reached h.advanced.reached_le_ahead

/-- The token behind the next one starts later unless the source ends. -/
theorem ahead_lt (h : s.Accounts text due) (hkind : s.tape.peek.kind ≠ .endOfFile) :
    s.ahead < s.advanced.ahead :=
  Nat.lt_of_lt_of_le (h.ahead_lt_reached hkind) h.advanced.reached_le_ahead

/-- A token that was consumed and given back is the next one again. -/
theorem restored (h : s.Accounts text due) : s.restored.Accounts text due := by
  obtain ⟨c, hc⟩ := h.place
  obtain ⟨tape, hback, htape⟩ := hc.advance.giveBack
  cases hback
  exact h.of_tape ⟨c, htape⟩

/-- A new scope changes nothing. -/
theorem opened (h : s.Accounts text due) (parent : Option ScopeId) (scopes : List ScopeId) :
    ({ s with arena := (s.arena.newScope parent).2, scopes := scopes } : ParserState).Accounts
      text due :=
  h.of_arena h.place rfl rfl (h.orderly.newScope parent) h.redefinitions

/-- Open scopes do not matter. -/
theorem inside (h : s.Accounts text due) (scopes : List ScopeId) :
    ({ s with scopes := scopes } : ParserState).Accounts text due :=
  ⟨h.place, h.orderly, h.ordered, h.redefinitions, h.apart, h.told⟩

/-- An error is recorded that is apart from all others, and is due if it is one about the meaning of
the text. -/
theorem recorded (h : s.Accounts text []) (hd : d.isError = true)
    (hnew : ∀ e ∈ s.report.errors, e.Apart d) :
    (s.recorded d).Accounts text (if d.topic = .semantic then [d] else []) := by
  have herrors : (s.recorded d).report.errors = s.report.errors ++ [d] :=
    errors_recordIn_of_apart hd hnew
  refine ⟨h.place, h.orderly, h.ordered, h.redefinitions, herrors ▸ pairwise_concat h.apart hnew,
    ?_⟩
  have hsource : (s.recorded d).report.source = s.report.source := source_recordIn ..
  rw [herrors, List.filter_append, h.told, hsource, List.append_nil]
  congr 1
  by_cases htopic : d.topic = .semantic <;> simp [htopic]

/-- A warning is no error. -/
theorem warned (h : s.Accounts text due) (hd : d.isError = false) :
    ({ s with report := s.report.record d } : ParserState).Accounts text due := by
  have herrors : (s.report.record d).errors = s.report.errors := by simp [hd]
  refine ⟨h.place, h.orderly, h.ordered, h.redefinitions, herrors ▸ h.apart, ?_⟩
  exact (congrArg (List.filter _) herrors).trans h.told

end Accounts

/-! ## Where the errors lie -/

/-- Every error lies before the next token. -/
def Clear (s : ParserState) : Prop := ∀ e ∈ s.report.errors, e.span.start.offset < s.ahead

/-- Every error lies before the next token or is about that. -/
def Near (s : ParserState) : Prop :=
  ∀ e ∈ s.report.errors, e.span.start.offset < s.ahead ∨ e.span = s.tape.peek.span

/-- An error says that a closing brace should stand in place of the next token. -/
def MissesBrace (s : ParserState) (d : Diagnostic) : Prop :=
  d.span = s.tape.peek.span ∧ d.message = (Complaint.unexpected "`\x7d`" s.tape.peek).message

/-- There is an error of grammar. -/
def Wrong (s : ParserState) : Prop := ∃ e ∈ s.report.errors, e.topic = .grammar

/-- The parse is at the end of the source after an error; if it is an error that a brace is missing
there, that is the last error. -/
structure Ended (s : ParserState) : Prop where
  kind_eq : s.tape.peek.kind = .endOfFile
  near : s.Near
  wrong : s.Wrong
  brace : (∃ last, s.report.errors.getLast? = some last ∧ s.MissesBrace last) ∨
    ∀ e ∈ s.report.errors, ¬ s.MissesBrace e

/-- Every error lies before the next token, unless the parse may go on with that. -/
def Awaits (s : ParserState) (stop : Expectation) : Prop :=
  s.Clear ∨ s.Near ∧ stop.accepts s.tape.peek.kind = true

/-- A parse may go on, or it is at the end of the source. -/
def Between (s : ParserState) (stop : Expectation) : Prop := s.Awaits stop ∨ s.Ended

/-- Errors before the next token are not behind it. -/
theorem Clear.near (h : s.Clear) : s.Near := fun e he => .inl (h e he)

/-- A parse that may go on has no errors behind the next token. -/
theorem Awaits.near (h : s.Awaits stop) : s.Near := h.elim Clear.near And.left

/-- Between two rules there are no errors behind the next token. -/
theorem Between.near (h : s.Between stop) : s.Near := h.elim Awaits.near Ended.near

/-- No error starts behind the next token. -/
theorem Near.le (h : s.Near) {e : Diagnostic} (he : e ∈ s.report.errors) :
    e.span.start.offset ≤ s.ahead := by
  rcases h e he with hlt | hspan
  · exact Nat.le_of_lt hlt
  · rw [hspan]
    exact Nat.le_refl _

/-- What lies before the next token lies before the one behind it. -/
theorem Clear.advanced (h : s.Clear) (hs : s.Accounts text due) : s.advanced.Clear := fun e he =>
  Nat.lt_of_lt_of_le (h e he) hs.ahead_le

/-- What is about the next token lies before the one behind it. -/
theorem Near.advanced (h : s.Near) (hs : s.Accounts text due)
    (hkind : s.tape.peek.kind ≠ .endOfFile) : s.advanced.Clear := fun _ he =>
  Nat.lt_of_le_of_lt (h.le he) (hs.ahead_lt hkind)

/-- A parse that need not wait goes on. -/
theorem Awaits.clear (h : s.Awaits stop) (hstop : stop.accepts s.tape.peek.kind = false) :
    s.Clear := by
  rcases h with h | ⟨-, h⟩
  · exact h
  · rw [hstop] at h
    cases h

/-! ## Errors that are raised -/

/-- As many errors are recorded as the options allow. -/
def LimitReached (s : ParserState) : Prop :=
  (s.options.maxErrors.elim false fun limit => decide (limit ≤ s.report.errorCount)) = true

/-- A rule stops for a reason of its own: with an error about the next token, or about what lies
before it and no error is about. -/
structure Plain (s : ParserState) (d : Diagnostic) : Prop where
  clear : s.Clear
  place : d.span = s.tape.peek.span ∨
    d.span.start.offset < s.ahead ∧ ∀ e ∈ s.report.errors, e.span ≠ d.span

/-- A rule stops with an error of grammar: for a reason of its own, for want of a brace at the end
of the source, or because it is the last error that the options allow. -/
structure Raises (lo : Nat) (s : ParserState) (d : Diagnostic) : Prop where
  le : lo ≤ d.span.start.offset
  isError : d.isError = true
  topic : d.topic = .grammar
  cause : s.Plain d ∨ (s.Ended ∧ s.MissesBrace d) ∨ (s.LimitReached ∧ s.Wrong ∧
    ∃ last, s.report.errors.getLast? = some last ∧ last.span = d.span ∧ last.message = d.message)

/-- An error about the next token or about what no error is about is apart from all errors. -/
theorem Plain.apart (h : s.Plain d) : ∀ e ∈ s.report.errors, e.Apart d := by
  intro e he
  refine Diagnostic.apart_of_span_ne fun hspan => ?_
  rcases h.place with hd | ⟨-, hne⟩
  · have hlt := h.clear e he
    rw [hspan, hd] at hlt
    exact Nat.lt_irrefl _ hlt
  · exact hne e he hspan

/-- An error with which a rule stops is the last one, or is apart from all. -/
theorem Raises.last_or_apart (h : s.Raises lo d) :
    (∃ last, s.report.errors.getLast? = some last ∧ last.span = d.span ∧
      last.message = d.message) ∨ ∀ e ∈ s.report.errors, e.Apart d := by
  rcases h.cause with hplain | ⟨hended, hspan, hmessage⟩ | ⟨-, -, hlast⟩
  · exact .inr hplain.apart
  · rcases hended.brace with ⟨last, hlast, hlspan, hlmessage⟩ | hnone
    · exact .inl ⟨last, hlast, hlspan.trans hspan.symm, hlmessage.trans hmessage.symm⟩
    · exact .inr fun e he hsame => hnone e he ⟨hsame.1.trans hspan, hsame.2.trans hmessage⟩
  · exact .inl hlast

/-- An error with which a rule stops repeats none when it is recorded. -/
theorem Raises.apart_recordIn (h : s.Raises lo d) (hs : s.report.errors.Pairwise Diagnostic.Apart) :
    (recordIn s.report d).errors.Pairwise Diagnostic.Apart := by
  rcases h.last_or_apart with ⟨last, hlast, hsame⟩ | hall
  · rwa [recordIn_of_last hlast hsame]
  · rw [errors_recordIn_of_apart h.isError hall]
    exact pairwise_concat hs hall

/-- Where a rule has stopped there is an error of grammar once its error is recorded. -/
theorem Raises.wrong_recorded (h : s.Raises lo d) : (s.recorded d).Wrong := by
  have hkept (hwrong : s.Wrong) : (s.recorded d).Wrong := by
    obtain ⟨e, he, htopic⟩ := hwrong
    exact ⟨e, errors_subset_recorded h.isError he, htopic⟩
  rcases h.cause with hplain | ⟨hended, -⟩ | ⟨-, hwrong, -⟩
  · refine ⟨d, ?_, h.topic⟩
    show d ∈ (recordIn s.report d).errors
    rw [errors_recordIn_of_apart h.isError hplain.apart]
    exact List.mem_append_right _ (List.mem_singleton_self d)
  · exact hkept hended.wrong
  · exact hkept hwrong

/-- An error with which a rule stops is one behind a smaller offset, too. -/
theorem Raises.mono (h : s.Raises lo d) (hle : lo' ≤ lo) : s.Raises lo' d :=
  { h with le := Nat.le_trans hle h.le }

/-- Open scopes do not matter. -/
theorem Ended.inside (h : s.Ended) (scopes : List ScopeId) :
    ({ s with scopes := scopes } : ParserState).Ended :=
  ⟨h.kind_eq, h.near, h.wrong, h.brace⟩

/-- Open scopes do not matter. -/
theorem Between.inside (h : s.Between stop) (scopes : List ScopeId) :
    ({ s with scopes := scopes } : ParserState).Between stop :=
  h.imp id (·.inside scopes)

/-- Open scopes do not matter. -/
theorem Raises.inside (h : s.Raises lo d) (scopes : List ScopeId) :
    ({ s with scopes := scopes } : ParserState).Raises lo d := by
  obtain ⟨hle, herror, htopic, hplain | ⟨hended, hmisses⟩ | hlimit⟩ := h
  · exact ⟨hle, herror, htopic, .inl ⟨hplain.clear, hplain.place⟩⟩
  · exact ⟨hle, herror, htopic, .inr (.inl ⟨hended.inside scopes, hmisses⟩)⟩
  · exact ⟨hle, herror, htopic, .inr (.inr hlimit)⟩

/-- A token that was consumed and given back is the next one again. -/
theorem Raises.restored (h : s.Raises lo d) : s.restored.Raises lo d := by
  obtain ⟨hle, herror, htopic, hplain | ⟨hended, hmisses⟩ | hlimit⟩ := h
  · exact ⟨hle, herror, htopic, .inl ⟨hplain.clear, hplain.place⟩⟩
  · exact ⟨hle, herror, htopic, .inr (.inl
      ⟨⟨hended.kind_eq, hended.near, hended.wrong, hended.brace⟩, hmisses⟩)⟩
  · exact ⟨hle, herror, htopic, .inr (.inr hlimit)⟩

/-- An error about the next token, if all errors lie before that. -/
theorem Clear.raises (h : s.Clear) (hle : lo ≤ s.ahead) (hd : d.isError = true)
    (htopic : d.topic = .grammar) (hspan : d.span = s.tape.peek.span) : s.Raises lo d :=
  ⟨hspan ▸ hle, hd, htopic, .inl ⟨h, .inl hspan⟩⟩

/-- An error about a stretch that was consumed and that no error is about. -/
theorem Clear.raises_behind (h : s.Clear) (hle : lo ≤ d.span.start.offset) (hd : d.isError = true)
    (htopic : d.topic = .grammar) (hlt : d.span.start.offset < s.ahead)
    (hne : ∀ e ∈ s.report.errors, e.span ≠ d.span) : s.Raises lo d :=
  ⟨hle, hd, htopic, .inl ⟨h, .inr ⟨hlt, hne⟩⟩⟩

/-- Where a parse may not go on for want of a brace, that is missing. -/
theorem Between.raises (h : s.Between stop) (hstop : stop.accepts s.tape.peek.kind = false)
    (hle : lo ≤ s.ahead) (hd : d.isError = true) (htopic : d.topic = .grammar)
    (hmisses : s.MissesBrace d) : s.Raises lo d := by
  rcases h with h | h
  · exact (h.clear hstop).raises hle hd htopic hmisses.1
  · exact ⟨hmisses.1 ▸ hle, hd, htopic, .inr (.inl ⟨h, hmisses⟩)⟩

/-! ## Going on -/

/-- The parse goes from `s` to `t`: positions stay, nothing changes that `base` already holds, and
the errors that are added lie behind the offset `lo`. -/
structure Advances (text : String) (base : Arena) (lo : Nat) (s t : ParserState) : Prop where
  settled : t.Settled text
  reached_le : s.reached ≤ t.reached
  ahead_le : s.ahead ≤ t.ahead
  places : s.arena.Places t.arena
  grows : Arena.Grows base s.arena t.arena
  subset : s.report.errors ⊆ t.report.errors
  since : ∀ e ∈ t.report.errors, e ∈ s.report.errors ∨ lo ≤ e.span.start.offset
  source_eq : t.report.source = s.report.source

namespace Advances

/-- A parse may stay where it is. -/
theorem refl (hs : s.Settled text) : Advances text base lo s s :=
  ⟨hs, Nat.le_refl _, Nat.le_refl _, fun _ _ => id, .refl .., List.Subset.refl _,
    fun _ he => .inl he, rfl⟩

/-- A parse goes in steps. -/
theorem trans (h : Advances text base lo s t) (h' : Advances text base lo t u) :
    Advances text base lo s u where
  settled := h'.settled
  reached_le := Nat.le_trans h.reached_le h'.reached_le
  ahead_le := Nat.le_trans h.ahead_le h'.ahead_le
  places id span hid := h'.places id span (h.places id span hid)
  grows := h.grows.trans h'.grows
  subset := List.Subset.trans h.subset h'.subset
  since e he := (h'.since e he).elim (h.since e) .inr
  source_eq := h'.source_eq.trans h.source_eq

/-- Less can be said. -/
theorem weaken (h : Advances text base' lo' s t) (hb : base'.Holds base) (hle : lo ≤ lo') :
    Advances text base lo s t :=
  { h with
    grows := h.grows.weaken hb
    since := fun e he => (h.since e he).imp_right (Nat.le_trans hle) }

/-- The next token is consumed. -/
theorem advanced (hs : s.Settled text) : Advances text base lo s s.advanced where
  settled := hs.advanced
  reached_le := Nat.le_trans hs.reached_le_ahead hs.ahead_le_reached
  ahead_le := hs.ahead_le
  places _ _ := id
  grows := .refl ..
  subset := List.Subset.refl _
  since _ he := .inl he
  source_eq := rfl

/-- A token is consumed and given back. -/
theorem restored (hs : s.Settled text) : Advances text base lo s s.restored :=
  ⟨hs.restored, Nat.le_refl _, Nat.le_refl _, fun _ _ => id, .refl .., List.Subset.refl _,
    fun _ he => .inl he, rfl⟩

/-- An error of grammar is recorded behind an offset. -/
theorem recorded (hs : s.Settled text) (hd : d.isError = true) (htopic : d.topic = .grammar)
    (hle : lo ≤ d.span.start.offset) (hnew : ∀ e ∈ s.report.errors, e.Apart d) :
    Advances text base lo s (s.recorded d) := by
  have herrors : (s.recorded d).report.errors = s.report.errors ++ [d] :=
    errors_recordIn_of_apart hd hnew
  have hsettled := hs.recorded hd hnew
  rw [htopic, if_neg (by decide)] at hsettled
  refine ⟨hsettled, Nat.le_refl _, Nat.le_refl _, fun _ _ => id, .refl .., ?_, fun e he => ?_,
    source_recordIn ..⟩
  · rw [herrors]
    exact List.subset_append_left ..
  · rw [herrors] at he
    rcases List.mem_append.1 he with he | he
    · exact .inl he
    · exact .inr (List.mem_singleton.1 he ▸ hle)

/-- Open scopes do not matter. -/
theorem inside (h : Advances text base lo s t) (scopes : List ScopeId) :
    Advances text base lo s { t with scopes := scopes } :=
  ⟨h.settled.inside scopes, h.reached_le, h.ahead_le, h.places, h.grows, h.subset, h.since,
    h.source_eq⟩

/-- A warning is recorded. -/
theorem warned (hs : s.Settled text) (hd : d.isError = false) :
    Advances text base lo s { s with report := s.report.record d } := by
  have herrors : (s.report.record d).errors = s.report.errors := by simp [hd]
  exact ⟨hs.warned hd, Nat.le_refl _, Nat.le_refl _, fun _ _ => id, .refl ..,
    herrors ▸ List.Subset.refl _, fun e he => .inl (herrors ▸ he), rfl⟩

/-- An error is recorded before the parse goes on. -/
theorem of_recorded (h : Advances text base lo (s.recorded d) t) (hd : d.isError = true)
    (hle : lo ≤ d.span.start.offset) : Advances text base lo s t :=
  ⟨h.settled, h.reached_le, h.ahead_le, h.places, h.grows,
    List.Subset.trans (errors_subset_recorded hd) h.subset,
    fun e he => (h.since e he).elim
      (fun he => (mem_errors_recorded hd he).imp_right (by rintro rfl; exact hle)) .inr,
    h.source_eq.trans (source_recordIn ..)⟩

end Advances

/-- An error with which a rule has stopped is recorded. -/
theorem Raises.advances (h : s.Raises lo d) (hs : s.Settled text) :
    Advances text base lo s (s.recorded d) := by
  rcases h.last_or_apart with ⟨last, hlast, hsame⟩ | hall
  · have hrecorded : s.recorded d = s := by
      unfold ParserState.recorded
      rw [recordIn_of_last hlast hsame]
    rw [hrecorded]
    exact .refl hs
  · exact .recorded hs h.isError h.topic h.le hall

/-- What lies before the next token lies before any later one. -/
theorem Clear.later (h : s.Clear) (hl : Advances text base lo s t)
    (hreport : t.report = s.report) : t.Clear := fun e he =>
  Nat.lt_of_lt_of_le (h e (hreport ▸ he)) hl.ahead_le

/-! ## What no error is about -/

/-- No error starts at an offset. -/
def Spares (s : ParserState) (lo : Nat) : Prop :=
  ∀ e ∈ s.report.errors, e.span.start.offset ≠ lo

/-- Errors that start at an offset end before the last token that was consumed. -/
def Unmarked (s : ParserState) (lo : Nat) : Prop :=
  ∀ e ∈ s.report.errors, e.span.start.offset = lo → e.span.stop.offset < s.reached

/-- No error starts at the next token if all lie before that. -/
theorem Clear.spares (h : s.Clear) : s.Spares s.ahead := fun e he => Nat.ne_of_lt (h e he)

/-- Errors that are added start further on. -/
theorem Spares.later (h : s.Spares lo) (hl : Advances text base lo' s t) (hlt : lo < lo') :
    t.Spares lo := fun e he =>
  (hl.since e he).elim (h e) fun hle => Nat.ne_of_gt (Nat.lt_of_lt_of_le hlt hle)

/-- Where no error starts nothing is marked. -/
theorem Spares.unmarked (h : s.Spares lo) : s.Unmarked lo := fun e he hstart =>
  absurd hstart (h e he)

/-- The same errors further on. -/
theorem Unmarked.of_report (h : s.Unmarked lo) (hreport : t.report = s.report)
    (hle : s.reached ≤ t.reached) : t.Unmarked lo := fun e he hstart =>
  Nat.lt_of_lt_of_le (h e (hreport ▸ he) hstart) hle

/-- No error is about a stretch from there to the last token. -/
theorem Unmarked.span_ne {span : Span} (h : s.Unmarked lo) (hstart : span.start.offset = lo)
    (hstop : span.stop.offset = s.reached) : ∀ e ∈ s.report.errors, e.span ≠ span := by
  rintro e he rfl
  exact Nat.lt_irrefl _ (Nat.lt_of_lt_of_eq (h e he hstart) hstop.symm)

/-- Errors that are added start further on. -/
theorem Unmarked.later (h : s.Unmarked lo) (hl : Advances text base lo' s t) (hlt : lo < lo') :
    t.Unmarked lo := by
  intro e he hstart
  rcases hl.since e he with hmem | hle
  · exact Nat.lt_of_lt_of_le (h e hmem hstart) hl.reached_le
  · exact absurd (Nat.lt_of_lt_of_le hlt hle) (by rw [hstart]; exact Nat.lt_irrefl _)

/-- Behind one more token than the next one, errors about that end before the last token. -/
theorem Near.unmarked (h : s.Near) (hl : Advances text base lo s.advanced t) (hlt : s.ahead < lo)
    (hmore : s.advanced.reached < t.reached) : t.Unmarked s.ahead := by
  intro e he hstart
  rcases hl.since e he with hmem | hle
  · rcases h e hmem with hbefore | hspan
    · exact absurd hbefore (by rw [hstart]; exact Nat.lt_irrefl _)
    · rw [hspan]
      exact hmore
  · exact absurd (Nat.lt_of_lt_of_le hlt hle) (by rw [hstart]; exact Nat.lt_irrefl _)

/-! ## Skipping -/

/-- Skipping leads to a later place.  It is the place where it began only if it was to stop
there. -/
theorem exists_standsAt_skipWithin {tape : Tape} {tokens : List Token} {c : Nat}
    (h : tape.StandsAt tokens c) (stop : Expectation) (n : Nat) (mayStop : Bool) (depth : Nat) :
    ∃ k, (tape.skipWithin stop n mayStop depth).StandsAt tokens (c + k) ∧ (k = 0 → n = 0 ∨
      tape.peek.kind = .endOfFile ∨ stop.accepts tape.peek.kind = true) := by
  induction n generalizing tape c mayStop depth with
  | zero => exact ⟨0, h, fun _ => .inl rfl⟩
  | succ n ih =>
    have hmore (mayStop : Bool) (depth : Nat) :
        ∃ k, (tape.advance.2.skipWithin stop n mayStop depth).StandsAt tokens (c + k) ∧
          (k = 0 → n + 1 = 0 ∨ tape.peek.kind = .endOfFile ∨
            stop.accepts tape.peek.kind = true) := by
      obtain ⟨k, hk, -⟩ := ih h.advance mayStop depth
      exact ⟨1 + k, by rwa [← Nat.add_assoc], fun he => by omega⟩
    have hone : ∃ k, tape.advance.2.StandsAt tokens (c + k) ∧ (k = 0 → n + 1 = 0 ∨
        tape.peek.kind = .endOfFile ∨ stop.accepts tape.peek.kind = true) :=
      ⟨1, h.advance, fun he => absurd he (by decide)⟩
    simp only [Tape.skipWithin]
    split
    · rename_i hstop
      simp only [Bool.and_eq_true, Bool.or_eq_true, beq_iff_eq] at hstop
      exact ⟨0, h, fun _ => .inr (hstop.2.imp_right And.right)⟩
    · split
      · exact hone
      · split
        · exact hone
        · exact hmore _ _
      all_goals exact hmore _ _

/-- A later place on the tape. -/
theorem Advances.skipped {tape : Tape} {c k : Nat} (hs : s.Settled text)
    (hc : s.tape.StandsAt (tokenize text) c) (htape : tape.StandsAt (tokenize text) (c + k)) :
    Advances text base lo s { s with tape := tape } := by
  have hpeek : s.tape.peek = Token.endless (tokenize text) c := hc.lookAhead_eq 0
  have hpeek' : tape.peek = Token.endless (tokenize text) (c + k) := htape.lookAhead_eq 0
  have hstart (i k : Nat) : (Token.endless (tokenize text) i).span.start.offset ≤
      (Token.endless (tokenize text) (i + k)).span.start.offset ∧
      (Token.endless (tokenize text) i).span.stop.offset ≤
        (Token.endless (tokenize text) (i + k)).span.stop.offset := by
    induction k with
    | zero => exact ⟨Nat.le_refl _, Nat.le_refl _⟩
    | succ k ih =>
      have hnext := Token.stop_le_endless_succ text (i + k)
      have hhere := (Token.genuine_endless text (i + k)).offset_le
      have hthere := (Token.genuine_endless text (i + k + 1)).offset_le
      rw [← Nat.add_assoc]
      exact ⟨by omega, by omega⟩
  refine ⟨hs.of_tape ⟨c + k, htape⟩, ?_, ?_, fun _ _ => id, .refl .., List.Subset.refl _,
    fun _ he => .inl he, rfl⟩
  · rw [reached, reached, hc.consumed_eq, htape.consumed_eq]
    cases c with
    | zero => exact Nat.zero_le _
    | succ c =>
      rw [Nat.add_right_comm, Token.items_concat, Token.items_concat, List.reverse_append,
        List.reverse_append, Nat.zero_add, Nat.zero_add]
      exact (hstart c k).2
  · rw [ahead, ahead, hpeek, hpeek']
    exact (hstart c k).1

/-- An error that is recorded while the parse goes on is about the next token or lies before it; at
the end of the source the parse is at its end. -/
theorem Raises.near_recorded (h : s.Raises lo d) (hlimit : ¬ (s.recorded d).LimitReached) :
    (s.recorded d).Near ∧ ((s.recorded d).tape.peek.kind = .endOfFile → (s.recorded d).Ended) := by
  have hwrong := h.wrong_recorded
  rcases h.cause with hplain | ⟨hended, hmisses⟩ | ⟨hreached, -, last, hlast, hsame⟩
  · have herrors : (s.recorded d).report.errors = s.report.errors ++ [d] :=
      errors_recordIn_of_apart h.isError hplain.apart
    have hnear : (s.recorded d).Near := by
      intro e he
      rw [herrors] at he
      rcases List.mem_append.1 he with he | he
      · exact .inl (hplain.clear e he)
      · rw [List.mem_singleton.1 he]
        exact hplain.place.elim .inr fun hd => .inl hd.1
    refine ⟨hnear, fun hkind => ⟨hkind, hnear, hwrong, ?_⟩⟩
    by_cases hmisses : s.MissesBrace d
    · exact .inl ⟨d, by rw [herrors, List.getLast?_concat], hmisses⟩
    · refine .inr fun e he hmisses' => ?_
      rw [herrors] at he
      rcases List.mem_append.1 he with he | he
      · have hlt := hplain.clear e he
        rw [show e.span = s.tape.peek.span from hmisses'.1] at hlt
        exact Nat.lt_irrefl _ hlt
      · exact hmisses (List.mem_singleton.1 he ▸ hmisses')
  · obtain ⟨last, hlast, hspan, hmessage⟩ := exists_getLast?_recordIn s.report h.isError
    have hnear : (s.recorded d).Near := fun e he =>
      (mem_errors_recorded h.isError he).elim (hended.near e) fun hd => .inr (hd ▸ hmisses.1)
    exact ⟨hnear, fun hkind => ⟨hkind, hnear, hwrong,
      .inl ⟨last, hlast, hspan.trans hmisses.1, hmessage.trans hmisses.2⟩⟩⟩
  · refine absurd ?_ hlimit
    unfold LimitReached ParserState.recorded
    rwa [recordIn_of_last hlast hsame]

/-- A parse may go on where skipping ends. -/
theorem between_skip (hs : s.Settled text) (hnear : s.Near)
    (hended : s.tape.peek.kind = .endOfFile → s.Ended) (stop : Expectation) (mark : Nat) :
    Advances text base lo s { s with tape := s.tape.skip stop mark } ∧
      ({ s with tape := s.tape.skip stop mark } : ParserState).Between stop := by
  obtain ⟨c, hc, hpeek⟩ := hs.exists_peek_eq
  obtain ⟨k, hk, hzero⟩ := exists_standsAt_skipWithin hc stop (s.tape.pending.length + 1)
    (decide (mark < s.tape.consumedCount)) 0
  refine ⟨.skipped hs hc hk, ?_⟩
  have hthere : (s.tape.skip stop mark).peek = Token.endless (tokenize text) (c + k) :=
    hk.lookAhead_eq 0
  -- where the next token is the same, what is said of that is said of it
  have hsame (heq : Token.endless (tokenize text) (c + k) = Token.endless (tokenize text) c) :
      (s.tape.skip stop mark).peek = s.tape.peek := by
    rw [hthere, heq, hpeek]
  by_cases hkind : s.tape.peek.kind = .endOfFile
  · have hpeek' := hsame (Token.endless_add_of_kind_eq (hpeek ▸ hkind) k)
    obtain ⟨hend, hnear, hwrong, hbrace⟩ := hended hkind
    refine .inr ⟨(congrArg Token.kind hpeek').trans hend, fun e he => ?_, hwrong, ?_⟩
    · unfold ahead
      rw [hpeek']
      exact hnear e he
    · unfold MissesBrace
      rw [hpeek']
      exact hbrace
  · cases k with
    | zero =>
      have hpeek' := hsame rfl
      have haccepts : stop.accepts s.tape.peek.kind = true := by
        rcases hzero rfl with hn | hend | haccepts
        · cases hn
        · exact absurd hend hkind
        · exact haccepts
      refine .inl (.inr ⟨fun e he => ?_, (congrArg (stop.accepts ·.kind) hpeek').trans haccepts⟩)
      unfold ahead
      rw [hpeek']
      exact hnear e he
    | succ k =>
      have hk' : (s.tape.skip stop mark).StandsAt (tokenize text) (c + 1 + k) := by
        rwa [Nat.add_assoc, Nat.add_comm 1 k]
      have hmore : Advances text base lo s.advanced { s with tape := s.tape.skip stop mark } :=
        .skipped hs.advanced hc.advance hk'
      exact .inl (.inl ((hnear.advanced hs hkind).later hmore rfl))

end ParserState

end ExprLang
