import ExprLang.Proofs.Parser.Entry
import ExprLang.Proofs.Parser.Rules

/-!
# Options

Options only cut a parse short.  Under any options a rule ends as it does under
the default ones, or it stops earlier with a diagnostic that no synchronization
point takes up any more, and what is recorded then is the beginning of what is
recorded under the default options.

Rules are made of rules, and so is the proof: {lit}`Parser.Truncates` is a property that
rules pass on.

Main definitions:

- Definition {lit}`Parser.Stopped`: a parse that has stopped for good.
- Definition {lit}`Parser.Truncates`: a rule that options only cut short.

Main results:

- Theorem {lit}`parseText_truncates`: a parse under any options and the parse under
  the default ones.
-/

namespace ExprLang

namespace ParserState

/-- The same state with other options. -/
def withOptions (s : ParserState) (o : ParseOptions) : ParserState := { s with options := o }

end ParserState

namespace Parser

variable {α β : Type}

/-! ## Recording -/

section

variable (r : Report) {d : Diagnostic}

/-- Recording adds to the end. -/
theorem records_prefix_recordIn (d : Diagnostic) : r.records <+: (recordIn r d).records := by
  unfold recordIn
  split
  · split
    · exact List.prefix_rfl
    · exact List.prefix_append ..
  · exact List.prefix_append ..

/-- After an error has been recorded the last error says the same of the same span. -/
theorem exists_getLast?_recordIn (hd : d.isError = true) :
    ∃ last, (recordIn r d).errors.getLast? = some last ∧ last.span = d.span ∧
      last.message = d.message := by
  have hnew : (r.record d).errors.getLast? = some d := by simp [hd]
  unfold recordIn
  split
  · rename_i last hlast
    split
    · rename_i hsame
      exact ⟨last, hlast, hsame⟩
    · exact ⟨d, hnew, rfl, rfl⟩
  · exact ⟨d, hnew, rfl, rfl⟩

/-- An error is recorded once. -/
theorem recordIn_recordIn (hd : d.isError = true) :
    recordIn (recordIn r d) d = recordIn r d := by
  obtain ⟨last, hlast, hsame⟩ := exists_getLast?_recordIn r hd
  rw [recordIn, hlast]
  exact if_pos hsame

/-- After an error has been recorded there is one. -/
theorem exists_mem_records_recordIn (hd : d.isError = true) :
    ∃ e ∈ (recordIn r d).records, e.isError = true := by
  obtain ⟨last, hlast, -⟩ := exists_getLast?_recordIn r hd
  obtain ⟨hmem, herror⟩ := List.mem_filter.1 (List.mem_of_getLast? hlast)
  exact ⟨last, hmem, herror⟩

end

/-! ## Rules that options cut short -/

/-- The state in which a run ends. -/
def endState : EStateM.Result Stop ParserState α → ParserState
  | .ok _ s => s
  | .error _ s => s

/-- The same end of a run with other options. -/
def endUnder (o : ParseOptions) : EStateM.Result Stop ParserState α →
    EStateM.Result Stop ParserState α
  | .ok a s => .ok a (s.withOptions o)
  | .error e s => .error e (s.withOptions o)

/-- A parse under the options `o` has stopped for good with the diagnostic `d`: every
synchronization point lets it pass, and with it recorded the report is the beginning of another
one. -/
structure Stopped (o : ParseOptions) (report : Report) (d : Diagnostic) (t : ParserState) :
    Prop where
  isError : d.isError = true
  options : t.options = o
  stands : o.recover = false ∨
    ∃ limit, o.maxErrors = some limit ∧ limit ≤ (recordIn t.report d).errorCount
  records : (recordIn t.report d).records <+: report.records

/-- What has stopped has stopped with the beginning of whatever goes on from there. -/
theorem Stopped.mono {o : ParseOptions} {r r' : Report} {d : Diagnostic} {t : ParserState}
    (h : Stopped o r d t) (hr : r.records <+: r'.records) : Stopped o r' d t :=
  { h with records := h.records.trans hr }

/-- Under any options a rule ends as it does under the default ones, or has stopped for good with
the beginning of its report.  Under the default options it adds to the report. -/
class Truncates (p : Parser α) : Prop where
  keeps : ∀ s, s.options = {} → (endState (p s)).options = {} ∧
    s.report.records <+: (endState (p s)).report.records
  isError : ∀ s d t, s.options = {} → p s = .error (.failed d) t → d.isError = true
  truncates : ∀ s o, s.options = {} → p (s.withOptions o) = endUnder o (p s) ∨
    ∃ d t, p (s.withOptions o) = .error (.failed d) t ∧ Stopped o (endState (p s)).report d t

namespace Truncates

/-- A value. -/
instance pure (a : α) : Truncates (Pure.pure a : Parser α) where
  keeps _ hs := ⟨hs, List.prefix_rfl⟩
  isError _ _ _ _ h := by cases h
  truncates _ _ _ := .inl rfl

/-- A fault. -/
instance fault (f : Fault) : Truncates (Parser.fault f : Parser α) where
  keeps _ hs := ⟨hs, List.prefix_rfl⟩
  isError _ _ _ _ h := by cases h
  truncates _ _ _ := .inl rfl

/-- An error. -/
theorem fail {d : Diagnostic} (hd : d.isError = true) : Truncates (Parser.fail d : Parser α) where
  keeps _ hs := ⟨hs, List.prefix_rfl⟩
  isError _ _ _ _ h := by
    cases h
    exact hd
  truncates _ _ _ := .inl rfl

/-- A change of the state that is not about the options and adds to the report. -/
theorem modifyGet {f : ParserState → α × ParserState}
    (hf : ∀ s o, f (s.withOptions o) = ((f s).1, (f s).2.withOptions o))
    (hk : ∀ s, (f s).2.options = s.options)
    (hr : ∀ s, s.report.records <+: (f s).2.report.records) :
    Truncates (MonadStateOf.modifyGet f : Parser α) where
  keeps s hs := ⟨(hk s).trans hs, hr s⟩
  isError _ _ _ _ h := by cases h
  truncates s o _ := by
    left
    show EStateM.Result.ok (f (s.withOptions o)).1 (f (s.withOptions o)).2 = _
    rw [hf]
    rfl

/-- A look at the state that is not about the options. -/
theorem get_bind {f : ParserState → Parser β} (hf : ∀ s o, f (s.withOptions o) = f s)
    (h : ∀ s, Truncates (f s)) : Truncates (get >>= f) where
  keeps s hs := (h s).keeps s hs
  isError s d t hs he := (h s).isError s d t hs he
  truncates s o hs := by
    have hrun : (get >>= f) (s.withOptions o) = f s (s.withOptions o) := by
      show f (s.withOptions o) (s.withOptions o) = _
      rw [hf]
    rw [hrun]
    exact (h s).truncates s o hs

/-- One rule after another. -/
instance bind (p : Parser α) (f : α → Parser β) [hp : Truncates p] [hf : ∀ a, Truncates (f a)] :
    Truncates (p >>= f) := by
  refine ⟨fun s hs => ?_, fun s d t hs he => ?_, fun s o hs => ?_⟩
  · have hk := hp.keeps s hs
    cases h : p s with
    | ok a t =>
      rw [h] at hk
      obtain ⟨ho, hr⟩ := (hf a).keeps t hk.1
      rw [bind_eq_of_eq_ok h]
      exact ⟨ho, hk.2.trans hr⟩
    | error e t =>
      rw [h] at hk
      rw [bind_eq_of_eq_error h]
      exact hk
  · cases h : p s with
    | ok a u =>
      have hk := hp.keeps s hs
      rw [h] at hk
      rw [bind_eq_of_eq_ok h] at he
      exact (hf a).isError u d t hk.1 he
    | error e u =>
      rw [bind_eq_of_eq_error h] at he
      cases he
      exact hp.isError s d t hs h
  · have hk := hp.keeps s hs
    have ht := hp.truncates s o hs
    cases h : p s with
    | ok a t =>
      rw [h] at hk ht
      rw [bind_eq_of_eq_ok h]
      rcases ht with ht | ⟨d, u, ht, hstopped⟩
      · rw [bind_eq_of_eq_ok ht]
        exact (hf a).truncates t o hk.1
      · exact .inr ⟨d, u, bind_eq_of_eq_error ht, hstopped.mono ((hf a).keeps t hk.1).2⟩
    | error e t =>
      rw [h] at ht
      rw [bind_eq_of_eq_error h]
      rcases ht with ht | ⟨d, u, ht, hstopped⟩
      · exact .inl (bind_eq_of_eq_error ht)
      · exact .inr ⟨d, u, bind_eq_of_eq_error ht, hstopped⟩

/-- One rule after another, the second by hand. -/
theorem andThen {p : Parser α} {f : α → Parser β} [Truncates p] (h : ∀ a, Truncates (f a)) :
    Truncates (p >>= f) :=
  bind p f

/-! ## Synchronization points -/

/-- A rule whose diagnostic is handed on: what takes up a diagnostic lets one that stands pass. -/
theorem attempt_bind {p : Parser α} {f : Except Diagnostic α → Parser β} (hp : Truncates p)
    (hf : ∀ a, Truncates (f (.ok a))) (he : ∀ d, d.isError = true → Truncates (f (.error d)))
    (hstands : ∀ o r d t, Stopped o r d t →
      ∃ d' u, f (.error d) t = .error (.failed d') u ∧ Stopped o r d' u) :
    Truncates (attempt p >>= f) := by
  refine ⟨fun s hs => ?_, fun s d t hs hd => ?_, fun s o hs => ?_⟩
  · have hk := hp.keeps s hs
    cases h : p s with
    | ok a t =>
      rw [h] at hk
      obtain ⟨ho, hr⟩ := (hf a).keeps t hk.1
      rw [attempt_bind_of_eq_ok h]
      exact ⟨ho, hk.2.trans hr⟩
    | error e t =>
      rw [h] at hk
      cases e with
      | fault e =>
        rw [attempt_bind_of_fault h]
        exact hk
      | failed d =>
        obtain ⟨ho, hr⟩ := (he d (hp.isError s d t hs h)).keeps t hk.1
        rw [attempt_bind_of_failed h]
        exact ⟨ho, hk.2.trans hr⟩
  · have hk := hp.keeps s hs
    cases h : p s with
    | ok a u =>
      rw [h] at hk
      rw [attempt_bind_of_eq_ok h] at hd
      exact (hf a).isError u d t hk.1 hd
    | error e u =>
      rw [h] at hk
      cases e with
      | fault e =>
        rw [attempt_bind_of_fault h] at hd
        cases hd
      | failed d' =>
        rw [attempt_bind_of_failed h] at hd
        exact (he d' (hp.isError s d' u hs h)).isError u d t hk.1 hd
  · have hk := hp.keeps s hs
    have ht := hp.truncates s o hs
    have hstays {u : ParserState} {d : Diagnostic} {r : Report}
        (h : p (s.withOptions o) = .error (.failed d) u) (hstopped : Stopped o r d u) :
        ∃ d u, (attempt p >>= f) (s.withOptions o) = .error (.failed d) u ∧ Stopped o r d u := by
      obtain ⟨d', v, hv, hstopped'⟩ := hstands o r d u hstopped
      exact ⟨d', v, (attempt_bind_of_failed h).trans hv, hstopped'⟩
    cases h : p s with
    | ok a t =>
      rw [h] at hk ht
      rw [attempt_bind_of_eq_ok h]
      rcases ht with ht | ⟨d, u, ht, hstopped⟩
      · rw [attempt_bind_of_eq_ok ht]
        exact (hf a).truncates t o hk.1
      · exact .inr (hstays ht (hstopped.mono ((hf a).keeps t hk.1).2))
    | error e t =>
      rw [h] at hk ht
      cases e with
      | fault e =>
        rw [attempt_bind_of_fault h]
        rcases ht with ht | ⟨d, u, ht, hstopped⟩
        · exact .inl (attempt_bind_of_fault ht)
        · exact .inr (hstays ht hstopped)
      | failed d =>
        have hd := he d (hp.isError s d t hs h)
        rw [attempt_bind_of_failed h]
        rcases ht with ht | ⟨d', u, ht, hstopped⟩
        · rw [attempt_bind_of_failed ht]
          exact hd.truncates t o hk.1
        · exact .inr (hstays ht (hstopped.mono (hd.keeps t hk.1).2))

/-- Under other options recovery does what it does under the default ones, or the error stands. -/
theorem recoverFrom {d : Diagnostic} (hd : d.isError = true) (stop : Expectation) (mark : Nat) :
    Truncates (Parser.recoverFrom d stop mark) := by
  have hdefault (t : ParserState) (ht : t.options = {}) : Parser.recoverFrom d stop mark t =
      .ok () { t with report := recordIn t.report d, tape := t.tape.skip stop mark } := by
    rw [Simulates.recoverFrom_eq, ht]
    rfl
  refine ⟨fun s hs => ?_, fun s d' t hs he => ?_, fun s o hs => ?_⟩
  · rw [hdefault s hs]
    exact ⟨hs, records_prefix_recordIn s.report d⟩
  · rw [hdefault s hs] at he
    cases he
  · rw [hdefault s hs, Simulates.recoverFrom_eq]
    split
    · rename_i hoff
      exact .inr ⟨d, _, rfl, hd, rfl, .inl hoff, List.prefix_rfl⟩
    dsimp only
    split
    · rename_i hlimit
      refine .inr ⟨d, _, rfl, hd, rfl, .inr ?_, ?_⟩
      · rw [recordIn_recordIn _ hd]
        change (o.maxErrors.elim false fun limit =>
          decide (limit ≤ (recordIn s.report d).errorCount)) = true at hlimit
        cases hm : o.maxErrors with
        | none => simp [hm] at hlimit
        | some limit =>
          have hle : limit ≤ (recordIn s.report d).errorCount := by simpa [hm] using hlimit
          exact ⟨limit, rfl, hle⟩
      · rw [recordIn_recordIn _ hd]
        exact List.prefix_rfl
    · exact .inl rfl

/-- An error that stands stands at every synchronization point. -/
theorem recoverFrom_of_stopped {o : ParseOptions} {r : Report} {d : Diagnostic} {t : ParserState}
    (h : Stopped o r d t) (stop : Expectation) (mark : Nat) :
    ∃ u, Parser.recoverFrom d stop mark t = .error (.failed d) u ∧ Stopped o r d u := by
  rw [Simulates.recoverFrom_eq]
  split
  · exact ⟨t, rfl, h⟩
  · rename_i hon
    obtain ⟨limit, hm, hle⟩ := h.stands.resolve_left fun hoff => hon (h.options ▸ hoff)
    have hlimit : (t.options.maxErrors.elim false fun limit =>
        decide (limit ≤ (recordIn t.report d).errorCount)) = true := by
      rw [h.options, hm]
      exact decide_eq_true hle
    dsimp only
    rw [if_pos hlimit]
    refine ⟨_, rfl, h.isError, h.options, .inr ⟨limit, hm, ?_⟩, ?_⟩
    · rw [recordIn_recordIn _ h.isError]
      exact hle
    · rw [recordIn_recordIn _ h.isError]
      exact h.records

/-- A synchronization point. -/
instance synchronized (stop : Expectation) (p : Parser α) [hp : Truncates p] :
    Truncates (Parser.synchronized stop p) := by
  refine get_bind (fun _ _ => rfl) fun s => attempt_bind hp (fun a => pure _) (fun d hd => ?_) ?_
  · have hrecover := recoverFrom hd stop s.tape.consumedCount
    exact bind ..
  · intro o r d t hstopped
    obtain ⟨u, hu, hstopped'⟩ := recoverFrom_of_stopped hstopped stop s.tape.consumedCount
    exact ⟨d, u, bind_eq_of_eq_error hu, hstopped'⟩

/-! ## Tokens and diagnostics -/

/-- A result of a computation without a state. -/
instance lift (result : Except Fault α) : Truncates (Parser.lift result) := by
  cases result with
  | ok a => exact pure a
  | error e => exact fault e

instance advance : Truncates Parser.advance :=
  modifyGet (fun _ _ => rfl) (fun _ => rfl) fun _ => List.prefix_rfl

/-- A change of the tape. -/
theorem modify_tape (tape : Tape) :
    Truncates (modify fun s : ParserState => { s with tape := tape }) :=
  modifyGet (fun _ _ => rfl) (fun _ => rfl) fun _ => List.prefix_rfl

instance giveBack : Truncates Parser.giveBack := by
  refine get_bind (fun _ _ => rfl) fun s => ?_
  have hset := modify_tape
  exact bind ..

instance errorAt (topic : Topic) (span : Span) (complaint : Complaint) :
    Truncates (Parser.errorAt topic span complaint) := get_bind (fun _ _ => rfl) fun _ => pure _

instance failAt (span : Span) (complaint : Complaint) :
    Truncates (Parser.failAt span complaint : Parser α) :=
  get_bind (fun _ _ => rfl) fun _ => fail rfl

instance warnAt (span : Span) (complaint : Complaint) : Truncates (Parser.warnAt span complaint) :=
  modifyGet (fun _ _ => rfl) (fun _ => rfl) fun _ => List.prefix_append ..

instance record (d : Diagnostic) : Truncates (Parser.record d) :=
  modifyGet (fun _ _ => rfl) (fun _ => rfl) fun s => records_prefix_recordIn s.report d

/-- The error that the next token is not what was expected. -/
instance fail_unexpected (expected : String) :
    Truncates (Parser.unexpected expected >>= fun d => Parser.fail d : Parser α) :=
  get_bind (fun _ _ => rfl) fun _ => get_bind (fun _ _ => rfl) fun _ => fail rfl

/-! ## Nodes and scopes -/

instance make (form : Form) (span : Span) : Truncates (Parser.make form span) := by
  refine get_bind (fun _ _ => rfl) fun s => ?_
  have hset (arena : Arena) :
      Truncates (modify fun s : ParserState => { s with arena := arena }) :=
    modifyGet (fun _ _ => rfl) (fun _ => rfl) fun _ => List.prefix_rfl
  exact bind ..

instance spanOf (id : NodeId) : Truncates (Parser.spanOf id) :=
  get_bind (fun _ _ => rfl) fun _ => inferInstance

instance openScope : Truncates Parser.openScope :=
  modifyGet (fun _ _ => rfl) (fun _ => rfl) fun _ => List.prefix_rfl

instance closeScope : Truncates Parser.closeScope :=
  modifyGet (fun _ _ => rfl) (fun _ => rfl) fun _ => List.prefix_rfl

/-- A rule inside a new scope. -/
instance inScope (p : Parser α) [hp : Truncates p] : Truncates (Parser.inScope p) := by
  refine andThen fun scope => attempt_bind hp (fun a => ?_) (fun d hd => ?_) ?_
  · exact andThen fun _ => pure _
  · exact andThen fun _ => fail hd
  · intro o r d t hstopped
    exact ⟨d, { t with scopes := t.scopes.tail }, rfl, hstopped.isError, hstopped.options,
      hstopped.stands, hstopped.records⟩

/-- One after the other. -/
theorem forM (f : α → Parser PUnit) (h : ∀ a, Truncates (f a)) (items : List α) :
    Truncates (items.forM f) := by
  induction items with
  | nil => exact pure _
  | cons a items ih => exact bind ..

instance reportRedefinitions : Truncates Parser.reportRedefinitions := by
  have htake : Truncates (MonadStateOf.modifyGet fun s : ParserState =>
      (s.arena.takeRedefinitions.1, { s with arena := s.arena.takeRedefinitions.2 })) :=
    modifyGet (fun _ _ => rfl) (fun _ => rfl) fun _ => List.prefix_rfl
  exact @andThen _ _ _ _ htake fun found => forM _ (fun redefinition => inferInstance) found

/-! ## Rules -/

/-- What options do to the smallest rules they do to those made of them. -/
instance composes : Composes fun _ p => Truncates p where
  pure := pure
  fault := fault
  bind hp hf := @bind _ _ _ _ hp hf
  tape_bind hf := get_bind (fun _ _ => rfl) fun s => hf s.tape
  arena_bind hf := get_bind (fun _ _ => rfl) fun s => hf s.arena
  synchronized stop hp := @synchronized _ stop _ hp
  inScope hp := @inScope _ _ hp
  advance := advance
  giveBack := giveBack
  failAt := failAt
  fail_unexpected := fail_unexpected
  warnAt := warnAt
  record_semantic _ _ := inferInstance
  make := make
  reportRedefinitions := reportRedefinitions

/-- A rule that options only cut short is one that has that property. -/
instance has (p : Parser α) [hp : Truncates p] : Has (fun _ p => Truncates p) p := ⟨hp⟩

instance has_stringStep (expression : ExpressionRule)
    [∀ min, Has (fun _ p => Truncates p) (expression min)] (start : Token) (body : StringBody) :
    Has (fun _ p => Truncates p) (Parser.stringStep expression start body) := by
  unfold Parser.stringStep
  refine Composes.andThen fun token => ?_
  split
  case h_2 => split <;> infer_instance
  all_goals infer_instance

/-- What options do to the smallest rules they do to all. -/
instance closed : Closed fun _ p => Truncates p :=
  Composes.closed fun expression _ start => by
    unfold Parser.stringRule
    infer_instance

instance entry (e : Entry) : Truncates (Parser.entry e) := closed.entry e

end Truncates

/-- A rule that ends under the default options ends in the same way under other ones, or has stopped
for good. -/
theorem run_withOptions {p : Parser α} [hp : Truncates p] {s t : ParserState}
    {result : Except Diagnostic α} (o : ParseOptions) (hs : s.options = {})
    (h : p.run s = .ok (result, t)) :
    p.run (s.withOptions o) = .ok (result, t.withOptions o) ∨
      ∃ d u, p.run (s.withOptions o) = .ok (.error d, u) ∧ Stopped o t.report d u := by
  have ht := hp.truncates s o hs
  cases result with
  | ok a =>
    rw [run_eq_ok_ok.1 h] at ht
    rcases ht with ht | ⟨d, u, ht, hstopped⟩
    · exact .inl (run_eq_ok_ok.2 ht)
    · exact .inr ⟨d, u, run_eq_ok_error.2 ht, hstopped⟩
  | error d =>
    rw [run_eq_ok_error.1 h] at ht
    rcases ht with ht | ⟨d', u, ht, hstopped⟩
    · exact .inl (run_eq_ok_error.2 ht)
    · exact .inr ⟨d', u, run_eq_ok_error.2 ht, hstopped⟩

/-- The answer of a parse is not about its options. -/
theorem finish_withOptions (s : ParserState) (o : ParseOptions)
    (result : Except Diagnostic NodeId) : finish (s.withOptions o) result = finish s result := by
  cases result <;> rfl

/-- A parse that ends with more than what one that has stopped for good reports fails. -/
theorem exists_finish_eq_error {o : ParseOptions} {d : Diagnostic} {t u : ParserState}
    (h : Stopped o t.report d u) (result : Except Diagnostic NodeId) :
    ∃ r, finish t result = .error r ∧ (recordIn u.report d).records <+: r.records := by
  cases result with
  | ok root =>
    obtain ⟨e, hmem, herror⟩ := exists_mem_records_recordIn u.report h.isError
    have herrors : t.report.hasErrors = true :=
      List.any_eq_true.2 ⟨e, h.records.subset hmem, herror⟩
    exact ⟨t.report, if_pos herrors, h.records⟩
  | error d' => exact ⟨_, rfl, h.records.trans (records_prefix_recordIn t.report d')⟩

end Parser

/-- The answer for a text is that of the rule for its entry. -/
theorem parseText_of_run {e : Entry} {o : ParseOptions} {description text : String}
    {result : Except Diagnostic NodeId} {t : ParserState}
    (h : (Parser.entry e).run (.ofText text description o) = .ok (result, t)) :
    parseText e o description text = .ok (Parser.finish t result) := by
  rw [parseText, h]
  rfl

/-- How a text parses under some options: as under the default ones, or it fails under both. -/
theorem parseText_of_default_run {e : Entry} {description text : String}
    {result : Except Diagnostic NodeId} {t : ParserState} (options : ParseOptions)
    (h : (Parser.entry e).run (.ofText text description {}) = .ok (result, t)) :
    parseText e options description text = .ok (Parser.finish t result) ∨
      ∃ r r', Parser.finish t result = .error r ∧
        parseText e options description text = .ok (.error r') ∧ r'.records <+: r.records := by
  rcases Parser.run_withOptions options rfl h with hcut | ⟨d, u, hcut, hstopped⟩
  · left
    rw [← Parser.finish_withOptions t options]
    exact parseText_of_run hcut
  · obtain ⟨r, hr, hprefix⟩ := Parser.exists_finish_eq_error hstopped result
    exact .inr ⟨r, _, hr, parseText_of_run hcut, hprefix⟩

/-- A text parses under some options to what it parses to under the default ones. -/
theorem parseText_eq_ok_iff {e : Entry} {description text : String} {p : Parsed}
    (options : ParseOptions) : parseText e options description text = .ok (.ok p) ↔
      parseText e {} description text = .ok (.ok p) := by
  obtain ⟨result, t, hrun⟩ := Parser.exists_entry_run e {} description text
  rw [parseText_of_run hrun]
  rcases parseText_of_default_run options hrun with h | ⟨r, r', hr, h, -⟩
  · rw [h]
  · rw [h, hr]
    simp

/-- If a text parses under the default options, it parses to the same tree with the same warnings
under any options.  Otherwise it fails under any options, and what is reported is the beginning of
what is reported under the default ones. -/
theorem parseText_truncates (e : Entry) (options : ParseOptions) (description text : String) :
    ∃ full cut, parseText e {} description text = .ok full ∧
      parseText e options description text = .ok cut ∧
      ((∃ p, full = .ok p ∧ cut = .ok p) ∨
        ∃ r r', full = .error r ∧ cut = .error r' ∧ r'.records <+: r.records) := by
  obtain ⟨result, t, hrun⟩ := Parser.exists_entry_run e {} description text
  rcases parseText_of_default_run options hrun with hcut | ⟨r, r', hr, hcut, hprefix⟩
  · refine ⟨_, _, parseText_of_run hrun, hcut, ?_⟩
    cases Parser.finish t result with
    | ok p => exact .inl ⟨p, rfl, rfl⟩
    | error r => exact .inr ⟨r, r, rfl, rfl, List.prefix_rfl⟩
  · exact ⟨_, _, parseText_of_run hrun, hcut, .inr ⟨r, r', hr, rfl, hprefix⟩⟩

end ExprLang
