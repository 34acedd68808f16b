import ExprLang.Proofs.Errors.Hands
import ExprLang.Proofs.Tree.Changes

/-!
# Runs and their errors

What a rule leaves behind is said of the place where it began: of the nodes that it
has built since, and of the errors that it has added.  A rule that is called by
another one leaves what the other has in hand as it is, so what was said of it alone
holds of both.

Main definitions:

- Definition {lit}`Parser.Reports`: a run from one settled state to another.
- Definitions {lit}`Parser.Appends` and {lit}`Parser.Expresses`: rules for nodes.

Main results:

- Theorem {lit}`Parser.Reports.bind_rule`: one rule after another.
- Theorem {lit}`Parser.Reports.behind`: a rule with nodes in hand.
- Theorems {lit}`Parser.reports_make` and {lit}`Parser.reports_scoped`: new nodes.
- Theorem {lit}`Parser.Reports.synchronized`: synchronization points.
-/

namespace ExprLang.Parser

open ParserState

variable {α β γ : Type} {text : String} {base base' : Arena} {lo lo' : Nat} {ids ids' : List NodeId}
  {s t r : ParserState} {p : Parser α} {f : α → Parser β} {d : Diagnostic}
  {M M' : α → ParserState → Prop} {R : β → ParserState → Prop} {due : List Diagnostic}

/-- A run from the state `s` goes on to a settled state, and all that it adds is behind `base` and
behind the offset `lo`.  If it ends with a value, `R` holds of that and of the state; if it stops
with a diagnostic, that is one with which a rule may stop. -/
def Reports (text : String) (base : Arena) (lo : Nat) (s : ParserState)
    (result : EStateM.Result Stop ParserState α) (R : α → ParserState → Prop) : Prop :=
  match result with
  | .ok a t => Advances text base lo s t ∧ R a t
  | .error (.failed d) t => Advances text base lo s t ∧ t.Raises lo d
  | .error (.fault _) _ => True

namespace Reports

variable {x : EStateM.Result Stop ParserState α}

/-- What a run that comes back leaves behind. -/
theorem of_run {result : Except Diagnostic α} (h : Reports text base lo s (p s) M)
    (hrun : p.run s = .ok (result, t)) : Advances text base lo s t ∧
      (∀ a, result = .ok a → M a t) ∧ ∀ d, result = .error d → t.Raises lo d := by
  cases result with
  | ok a =>
    rw [run_eq_ok_ok.1 hrun] at h
    exact ⟨h.1, fun _ he => Except.ok.inj he ▸ h.2, nofun⟩
  | error d =>
    rw [run_eq_ok_error.1 hrun] at h
    exact ⟨h.1, nofun, fun _ he => Except.error.inj he ▸ h.2⟩

/-! ## Combinators -/

/-- Less can be said of a run. -/
theorem mono (h : Reports text base lo s x M)
    (hm : ∀ a t, Advances text base lo s t → M a t → M' a t) : Reports text base lo s x M' := by
  unfold Reports at h ⊢
  split
  · exact ⟨h.1, hm _ _ h.1 h.2⟩
  · exact h
  · trivial

/-- Less can be said of where a run adds something. -/
theorem weaken (h : Reports text base' lo' s x M) (hb : base'.Holds base) (hle : lo ≤ lo') :
    Reports text base lo s x M := by
  unfold Reports at h ⊢
  split
  · exact ⟨h.1.weaken hb hle, h.2⟩
  · exact ⟨h.1.weaken hb hle, h.2.mono hle⟩
  · trivial

/-- A run that starts further on. -/
theorem after (hl : Advances text base lo r s) (h : Reports text base lo s x M) :
    Reports text base lo r x M := by
  unfold Reports at h ⊢
  split
  · exact ⟨hl.trans h.1, h.2⟩
  · exact ⟨hl.trans h.1, h.2⟩
  · trivial

/-- A value. -/
theorem pure {a : α} (hs : s.Settled text) (h : M a s) :
    Reports text base lo s ((Pure.pure a : Parser α) s) M :=
  ⟨.refl hs, h⟩

/-- A rule that adds something further on, and what follows it. -/
theorem bind_rule (hb : base'.Holds base) (hle : lo ≤ lo') (hp : Reports text base' lo' s (p s) M)
    (hf : ∀ a t, Advances text base' lo' s t → M a t → Reports text base lo t (f a t) R) :
    Reports text base lo s ((p >>= f) s) R := by
  cases h : p s with
  | ok a t =>
    rw [h] at hp
    rw [bind_eq_of_eq_ok h]
    exact .after (hp.1.weaken hb hle) (hf a t hp.1 hp.2)
  | error e t =>
    rw [h] at hp
    rw [bind_eq_of_eq_error h]
    cases e with
    | failed d => exact ⟨hp.1.weaken hb hle, hp.2.mono hle⟩
    | fault f => trivial

/-- One rule after another. -/
theorem bind (hp : Reports text base lo s (p s) M)
    (hf : ∀ a t, Advances text base lo s t → M a t → Reports text base lo t (f a t) R) :
    Reports text base lo s ((p >>= f) s) R :=
  .bind_rule (.refl base) (Nat.le_refl lo) hp hf

/-- A rule whose diagnostic is handed on. -/
theorem attempt_bind {g : Except Diagnostic α → Parser β} (hp : Reports text base' lo' s (p s) M)
    (hok : ∀ a t, Advances text base' lo' s t → M a t → Reports text base lo r (g (.ok a) t) R)
    (herror : ∀ d t, Advances text base' lo' s t → t.Raises lo' d →
      Reports text base lo r (g (.error d) t) R) :
    Reports text base lo r ((attempt p >>= g) s) R := by
  cases h : p s with
  | ok a t =>
    rw [h] at hp
    rw [attempt_bind_of_eq_ok h]
    exact hok a t hp.1 hp.2
  | error e t =>
    rw [h] at hp
    cases e with
    | failed d =>
      rw [attempt_bind_of_failed h]
      exact herror d t hp.1 hp.2
    | fault f =>
      rw [attempt_bind_of_fault h]
      trivial

/-- A look at the state. -/
theorem bind_look {a : α} (hp : p s = .ok a s) (hf : Reports text base lo s (f a s) R) :
    Reports text base lo s ((p >>= f) s) R := by
  rw [bind_eq_of_eq_ok hp]
  exact hf

/-- A choice. -/
theorem ite {c : Prop} [Decidable c] {q : Parser α} (hp : c → Reports text base lo s (p s) M)
    (hq : ¬ c → Reports text base lo s (q s) M) :
    Reports text base lo s ((if c then p else q) s) M := by
  by_cases h : c
  · rw [if_pos h]
    exact hp h
  · rw [if_neg h]
    exact hq h

/-- A computation without a state. -/
theorem bind_lift {result : Except Fault α}
    (hf : ∀ a, result = .ok a → Reports text base lo s (f a s) R) :
    Reports text base lo s ((Parser.lift result >>= f) s) R := by
  cases result with
  | ok a => exact hf a rfl
  | error e => trivial

/-- The form of a node. -/
theorem bind_formOf {f : Form → Parser β} {id : NodeId}
    (hf : ∀ form, s.arena.form? id = some form → Reports text base lo s (f form s) R) :
    Reports text base lo s ((formOf id >>= f) s) R := by
  show Reports text base lo s ((Parser.lift (s.arena.form id) >>= f) s) R
  exact .bind_lift fun form hform => hf form (Arena.form?_of_form hform)

/-- Repetition keeps an invariant. -/
theorem loop {step : α → Parser (α ⊕ β)} {I : α → ParserState → Prop}
    (hstep : ∀ a t, t.Settled text → I a t →
      Reports text base lo t (step a t) fun r u => r.elim (I · u) (R · u))
    (n : Nat) {a : α} (hs : s.Settled text) (h : I a s) :
    Reports text base lo s (Parser.loop step n a s) R := by
  induction n generalizing a s with
  | zero => trivial
  | succ n ih =>
    refine (hstep a s hs h).bind fun r t ht hr => ?_
    cases r with
    | inl a => exact ih ht.settled hr
    | inr b => exact .pure ht.settled hr

/-! ## Rules inside others -/

/-- What a rule has in hand is added to what there was. -/
theorem behind {hands : α → List NodeId} {Q : α → ParserState → Prop}
    (hp : Reports text s.arena s.ahead s x fun a t =>
      Carries s.arena s.ahead t (hands a) ∧ Q a t)
    (hs : s.Settled text) (h : Carries base lo s ids) :
    Reports text base lo s x fun a t => Carries base lo t (ids ++ hands a) ∧ Q a t :=
  .weaken (hp.mono fun _ _ hl ha => ⟨h.append hs hl ha.1, ha.2⟩) h.holds h.le

/-- What a rule has in hand when it comes to rest is added to what there was. -/
theorem behind_rests {hands : α → List NodeId} {Q : α → ParserState → Prop}
    (hp : Reports text s.arena s.ahead s x fun a t =>
      Rests text s.arena s.ahead t (hands a) ∧ Q a t)
    (h : Rests text base lo s ids) :
    Reports text base lo s x fun a t => Rests text base lo t (ids ++ hands a) ∧ Q a t := by
  have hall : Reports text base lo s x fun a t =>
      Carries base lo t (ids ++ hands a) ∧ t.Clear ∧ Q a t :=
    .behind (hp.mono fun _ _ _ ha => ⟨ha.1.carries, ha.1.clear, ha.2⟩) h.settled h.carries
  exact hall.mono fun _ _ hl ha => ⟨⟨hl.settled, ha.2.1, ha.1⟩, ha.2.2⟩

/-! ## Tokens -/

/-- Consuming the next token. -/
theorem bind_advance {f : Token → Parser β} (hs : s.Settled text)
    (hf : Reports text base lo s.advanced (f s.tape.peek s.advanced) R) :
    Reports text base lo s ((Parser.advance >>= f) s) R :=
  .after (.advanced hs) hf

/-- Recording an error before a run. -/
theorem of_recorded (h : Reports text base lo (s.recorded d) x M) (hd : d.isError = true)
    (hle : lo ≤ d.span.start.offset) : Reports text base lo s x M := by
  unfold Reports at h ⊢
  split
  · exact ⟨h.1.of_recorded hd hle, h.2⟩
  · exact ⟨h.1.of_recorded hd hle, h.2⟩
  · trivial

/-- Recording a warning. -/
theorem warnAt {span : Span} {complaint : Complaint} (h : Rests text base lo s ids) :
    Reports text base lo s (Parser.warnAt span complaint s) fun _ t => Rests text base lo t ids :=
  ⟨.warned h.settled rfl, h.warned rfl⟩

/-- Consuming the next token, giving it back and stopping with an error. -/
theorem giveBack_fail {f : Token → Parser β} {q : Parser β} (hs : s.Settled text)
    (hf : f s.tape.peek = (giveBack >>= fun _ => q))
    (hq : q s.restored = .error (.failed d) s.restored) (hd : s.Raises lo d) :
    Reports text base lo s ((Parser.advance >>= f) s) R := by
  have hrun : (Parser.advance >>= f) s = q s.restored := by
    refine (bind_eq_of_eq_ok (a := s.tape.peek) (t := s.advanced) rfl).trans ?_
    rw [hf]
    rfl
  rw [hrun, hq]
  exact ⟨.restored hs, hd.restored⟩

/-- Consuming the next token if it is of some kind. -/
theorem bind_skipKind {f : Bool → Parser β} {kind : TokenKind} (hs : s.Settled text)
    (hyes : s.tape.peek.kind = kind → Reports text base lo s.advanced (f true s.advanced) R)
    (hno : s.tape.peek.kind ≠ kind → Reports text base lo s (f false s) R) :
    Reports text base lo s ((Parser.skipKind kind >>= f) s) R := by
  by_cases hkind : s.tape.peek.kind = kind
  · rw [bind_eq_of_eq_ok (skipKind_of_eq hkind)]
    exact .after (.advanced hs) (hyes hkind)
  · rw [bind_eq_of_eq_ok (skipKind_of_ne hkind)]
    exact hno hkind

/-- Stopping with an error about the next token. -/
theorem fail_unexpected {expected : String} (hs : s.Settled text) (h : s.Clear)
    (hle : lo ≤ s.ahead) : Reports text base lo s
      ((Parser.unexpected expected >>= fun d => Parser.fail d : Parser β) s) R :=
  ⟨.refl hs, h.raises hle rfl rfl rfl⟩

/-- Stopping with an error about a stretch that was consumed. -/
theorem failAt {span : Span} {complaint : Complaint} (hs : s.Settled text) (h : s.Clear)
    (hle : lo ≤ span.start.offset) (hlt : span.start.offset < s.ahead)
    (hne : ∀ e ∈ s.report.errors, e.span ≠ span) :
    Reports text base lo s ((Parser.failAt span complaint : Parser β) s) R :=
  ⟨.refl hs, h.raises_behind hle rfl rfl hlt hne⟩

/-- Consuming a token that has to fit, where errors may be about one that does. -/
theorem bind_awaited {f : Token → Parser β} {e : Expectation} (hs : s.Settled text)
    (h : s.Awaits e) (hle : lo ≤ s.ahead) (hf : e.accepts s.tape.peek.kind = true →
      Reports text base lo s.advanced (f s.tape.peek s.advanced) R) :
    Reports text base lo s ((Parser.expect e >>= f) s) R := by
  cases haccepts : e.accepts s.tape.peek.kind with
  | true =>
    rw [bind_eq_of_eq_ok (expect_of_accepts haccepts)]
    exact .after (.advanced hs) (hf haccepts)
  | false =>
    rw [bind_eq_of_eq_error (expect_of_not_accepts haccepts)]
    exact ⟨.refl hs, (h.clear haccepts).raises hle rfl rfl rfl⟩

/-- Consuming the next token, which has to be of some kind. -/
theorem bind_expectKind {f : Token → Parser β} {kind : TokenKind} (h : Rests text base lo s ids)
    (hf : s.tape.peek.kind = kind → Rests text base lo s.advanced ids →
      Reports text base lo s.advanced (f s.tape.peek s.advanced) R) :
    Reports text base lo s ((Parser.expectKind kind >>= f) s) R :=
  .bind_awaited h.settled (.inl h.clear) h.carries.le fun haccepts =>
    hf (by simpa using haccepts : kind = s.tape.peek.kind).symm h.advanced

/-- Consuming a name. -/
theorem bind_name {f : Token → Parser β} (h : Rests text base lo s ids)
    (hf : s.tape.peek.kind ≠ .endOfFile → Rests text base lo s.advanced ids →
      Reports text base lo s.advanced (f s.tape.peek s.advanced) R) :
    Reports text base lo s ((Parser.name >>= f) s) R := by
  refine .bind_awaited h.settled (.inl h.clear) h.carries.le fun haccepts => hf (fun hend => ?_)
    h.advanced
  rw [hend] at haccepts
  cases haccepts

/-! ## Spans -/

/-- From the start of a span to the end of the last token that was consumed. -/
theorem bind_spanFrom {f : Span → Parser β} {start : Span}
    (hf : ∀ span, span.start = start.start → span.stop.offset = s.reached →
      Reports text base lo s (f span s) R) :
    Reports text base lo s ((Parser.spanFrom start >>= f) s) R := by
  have hprevious : Parser.spanFrom start s =
      (Parser.lift s.tape.previous >>= fun token => Pure.pure (start.through token.span)) s := rfl
  cases hconsumed : s.tape.consumed with
  | nil =>
    rw [Tape.previous, hconsumed] at hprevious
    rw [bind_eq_of_eq_error hprevious]
    trivial
  | cons token rest =>
    rw [Tape.previous, hconsumed] at hprevious
    rw [bind_eq_of_eq_ok hprevious]
    exact hf (start.through token.span) rfl (by rw [reached, hconsumed]; rfl)

/-- The position of a node. -/
theorem bind_spanOf {f : Span → Parser β} {id : NodeId}
    (hf : ∀ found, s.arena.position? id = found →
      Reports text base lo s (f (found.getD Span.zero) s) R) :
    Reports text base lo s ((Parser.spanOf id >>= f) s) R := by
  rw [bind_spanOf_eq]
  exact .bind_lift fun found hfound => hf found (Arena.position?_of_position hfound)

/-- The stretch from one node to another. -/
theorem bind_spanAcross {f : Span → Parser β} {first last : NodeId}
    (hf : ∀ span, Reports text base lo s (f span s) R) :
    Reports text base lo s ((Parser.spanAcross first last >>= f) s) R := by
  unfold Parser.spanAcross
  rw [bind_assoc]
  refine .bind_spanOf fun start _ => ?_
  rw [bind_assoc]
  exact .bind_spanOf fun stop _ => hf _

end Reports

/-! ## New nodes -/

/-- A new node that opens no scope, over the nodes in hand. -/
theorem reports_make {form : Form} {span : Span} (h : Rests text base lo s ids)
    (hperm : form.children.Perm ids) (hscope : form.scope? = none)
    (hspan : form.mayDefine = true → lo ≤ span.start.offset ∧ span.start.offset < s.reached ∧
      ∀ e ∈ s.report.errors, e.span ≠ span) :
    Reports text base lo s (make form span s) fun id t => Rests text base lo t [id] ∧
      t.arena.form? id = some form ∧ t.arena.position? id = some span ∧ t.tape = s.tape ∧
      t.report = s.report := by
  obtain ⟨b, hrun, hb⟩ := h.carries.exists_builds h.settled span hperm
    (by rw [hscope]; exact nofun)
  have hnone : { b with redefinitions := [] } = b := by
    have hredefinitions : b.redefinitions = [] := by rw [hb.made.redefinitions, hscope]; rfl
    cases b
    cases hredefinitions
    rfl
  have hl : Advances text base lo s _ := .built h.settled hb
    (Arena.semanticErrors_of_scope? hb.made.form?_new hscope) rfl (List.append_nil _).symm nofun
    nofun (by rw [List.append_nil]; exact h.settled.apart)
  have hcarries := h.carries.built hb hperm (Nat.le_refl lo)
    (List.Subset.refl s.report.errors) hspan
  rw [hnone] at hl hcarries
  rw [hrun]
  exact ⟨hl, ⟨hl.settled, h.clear, hcarries⟩, hb.made.form?_new, hb.position?_new, rfl, rfl⟩

/-- A parse between two rules, with a node in hand that defines no name. -/
def Nameless (text : String) (base : Arena) (lo : Nat) (id : NodeId) (s : ParserState) : Prop :=
  Rests text base lo s [id] ∧ s.arena.definitionName id = none

/-- A new node over the nodes in hand that neither opens a scope nor defines a name. -/
theorem reports_nameless {form : Form} {span : Span} (h : Rests text base lo s ids)
    (hperm : form.children.Perm ids) (hscope : form.scope? = none)
    (hmay : form.mayDefine = false) :
    Reports text base lo s (make form span s) (Nameless text base lo) :=
  (reports_make h hperm hscope fun htrue => Bool.noConfusion (hmay.symm.trans htrue)).mono
    fun _ _ _ hid => ⟨hid.1, Arena.definitionName_eq_none hid.2.1 hmay⟩

/-- A new node over the nodes in hand that opens no scope and goes on to the last token. -/
theorem reports_spanned {form : Form} {start : Span} (h : Rests text base lo s ids)
    (hperm : form.children.Perm ids) (hscope : form.scope? = none)
    (hspan : form.mayDefine = true → lo ≤ start.start.offset ∧ start.start.offset < s.reached ∧
      s.Unmarked start.start.offset) :
    Reports text base lo s ((spanFrom start >>= fun span => make form span) s) fun id t =>
      Rests text base lo t [id] := by
  refine .bind_spanFrom fun span hstart hstop => ?_
  refine (reports_make h hperm hscope fun hmay => ?_).mono fun _ _ _ hid => hid.1
  obtain ⟨hle, hlt, hunmarked⟩ := hspan hmay
  rw [hstart]
  exact ⟨hle, hlt, hunmarked.span_ne (congrArg (·.offset) hstart) hstop⟩

/-- A new node that opens a scope, over the nodes in hand, with the errors about names that are
defined twice among those of them in lists. -/
theorem reports_scoped {form : Form} {span : Span} {scope : ScopeId} {rest : List NodeId}
    (hs : s.Accounts text due) (h : Carries base lo s ids) (hperm : form.children.Perm ids)
    (hscope : form.scope? = some scope) (hopens : Opens base s scope)
    (hitems : form.children = form.items ++ rest)
    (hrest : ∀ id ∈ rest, s.arena.definitionName id = none)
    (hdue : form.arityErrors s.report.source (Token.nameSpan (tokenize text) span.start) = due)
    (hle : lo' ≤ lo) (hspan : form.mayDefine = true → lo' ≤ span.start.offset ∧
      span.start.offset < lo ∧ span.start.offset < s.reached ∧
      ∀ e ∈ s.report.errors, e.span ≠ span) :
    Reports text base lo' s ((do
      let id ← make form span
      reportRedefinitions
      return id : Parser NodeId) s) fun id t => Carries base lo' t [id] ∧
        t.arena.form? id = some form ∧ (s.Clear → t.Clear) := by
  obtain ⟨b, hrun, hb⟩ := h.exists_builds hs span hperm fun _ he => by
    cases hscope.symm.trans he
    exact hopens
  have hchildren : b.redefinitions = b.repeats form.children := by
    rw [hb.made.redefinitions, hscope, Option.elim_some]
  have hlists : b.repeats form.children = b.repeats form.items := by
    rw [hitems]
    refine Arena.repeats_append_of_nameless fun id hid => ?_
    have hmem : id ∈ ids := hperm.mem_iff.1 (hitems ▸ List.mem_append_right _ hid)
    rw [hb.grows.definitionName_eq hs.ordered (h.index_lt hmem)]
    exact hrest id hid
  have hapart := h.pairwise_repeats hs hb hperm s.report.source
  -- the errors are about nodes in hand
  have hnew {e : Diagnostic} (he : e ∈ (b.repeats form.children).map (·.error s.report.source b)) :
      lo ≤ e.span.start.offset ∧ e.span.start.offset < s.reached := by
    obtain ⟨r, hr, rfl⟩ := List.mem_map.1 he
    obtain ⟨hid, hfound⟩ := h.exists_defines hs hb hperm hr s.report.source
    exact ⟨(h.named _ hid _ hfound).1, (h.named _ hid _ hfound).2.1⟩
  obtain ⟨report, hreported, hsource, herrors⟩ := reportRedefinitions_of_apart
    { s with arena := b } (fun _ => hb.made.index_duplicate_lt) (by rw [hchildren]; exact hapart)
  replace herrors : report.errors =
      s.report.errors ++ (b.repeats form.children).map (·.error s.report.source b) :=
    hchildren ▸ herrors
  replace hsource : report.source = s.report.source := hsource
  have hl : Advances text base lo' s _ := .built hs hb (by
      rw [hb.made.semanticErrors_new hb.position?_new hlists, hdue, hchildren])
    hsource herrors (fun e he => by obtain ⟨r, -, rfl⟩ := List.mem_map.1 he; rfl)
    (fun e he => Nat.le_trans hle (hnew he).1) hapart
  have hmem {e : Diagnostic} (he : e ∈ report.errors) : e ∈ s.report.errors ∨
      lo ≤ e.span.start.offset ∧ e.span.start.offset < s.reached := by
    rw [herrors] at he
    exact (List.mem_append.1 he).imp_right hnew
  have hcarries := h.built hb hperm hle hl.subset fun hmay => by
    obtain ⟨hlo, hlt, hreached, hne⟩ := hspan hmay
    refine ⟨hlo, hreached, fun e he hsame => ?_⟩
    rcases hmem he with he | ⟨hge, -⟩
    · exact hne e he hsame
    · rw [hsame] at hge
      exact absurd hlt (Nat.not_lt_of_le hge)
  have hall : (do
      let id ← make form span
      reportRedefinitions
      return id : Parser NodeId) s =
        .ok ⟨s.arena.size⟩ { s with arena := { b with redefinitions := [] }, report := report } :=
    (bind_eq_of_eq_ok hrun).trans ((bind_eq_of_eq_ok hreported).trans rfl)
  rw [hall]
  refine ⟨hl, hcarries, hb.made.form?_new, fun hclear e he => ?_⟩
  exact (hmem he).elim (hclear e) fun hbehind =>
    Nat.lt_of_lt_of_le hbehind.2 hs.reached_le_ahead

/-- A new node that opens a scope and defines no name, over the nodes in hand, which are its list
children. -/
theorem reports_scoped_nameless {form : Form} {span : Span} {scope : ScopeId}
    (hs : s.Settled text) (h : Carries base lo s ids) (hscope : form.scope? = some scope)
    (hopens : Opens base s scope) (hchildren : form.children = ids) (hitems : form.items = ids)
    (hmay : form.mayDefine = false) :
    Reports text base lo s ((do
      let id ← make form span
      reportRedefinitions
      return id : Parser NodeId) s) fun id t => Carries base lo t [id] ∧
        t.arena.definitionName id = none ∧ (s.Clear → t.Clear) := by
  have hall : form.children = form.items ++ [] := by rw [hchildren, hitems, List.append_nil]
  have hdue := form.arityErrors_of_mayDefine hmay s.report.source
    (Token.nameSpan (tokenize text) span.start)
  refine (reports_scoped hs h (.of_eq hchildren) hscope hopens hall (List.forall_mem_nil _) hdue
    (Nat.le_refl _) fun htrue => Bool.noConfusion (hmay.symm.trans htrue)).mono fun id t _ hid => ?_
  exact ⟨hid.1, Arena.definitionName_eq_none hid.2.1 hmay, hid.2.2⟩

/-! ## Synchronization points and scopes -/

namespace Reports

/-- Consuming the closing brace for which a parse has gone on, unless the source ends. -/
theorem bind_rightBrace {f : Token → Parser β} {stop : Expectation} (hs : s.Settled text)
    (h : s.Between stop) (hle : lo ≤ s.ahead) (hstop : stop.accepts .endOfFile = false)
    (hkind : s.tape.peek.kind = .rightBrace ∨ s.tape.peek.kind = .endOfFile)
    (hf : s.tape.peek.kind = .rightBrace →
      Reports text base lo s.advanced (f s.tape.peek s.advanced) R) :
    Reports text base lo s ((Parser.expectKind .rightBrace >>= f) s) R := by
  rcases hkind with hkind | hkind
  · have haccepts : (Expectation.kind .rightBrace).accepts s.tape.peek.kind = true := by
      rw [hkind]
      rfl
    rw [expectKind, bind_eq_of_eq_ok (expect_of_accepts haccepts)]
    exact .after (.advanced hs) (hf hkind)
  · have haccepts : (Expectation.kind .rightBrace).accepts s.tape.peek.kind = false := by
      rw [hkind]
      rfl
    rw [expectKind, bind_eq_of_eq_error (expect_of_not_accepts haccepts)]
    exact ⟨.refl hs, h.raises (by rw [hkind]; exact hstop) hle rfl rfl ⟨rfl, rfl⟩⟩

/-- Recovery from an error: it stands, or the parse goes on behind it. -/
theorem recoverFrom (hs : s.Settled text) (hd : s.Raises lo d) (stop : Expectation) (mark : Nat) :
    Reports text base lo s (Parser.recoverFrom d stop mark s) fun _ t =>
      t.Between stop ∧ t.Wrong := by
  have hrecorded : Advances text base lo s (s.recorded d) := hd.advances hs
  have hwrong := hd.wrong_recorded
  rw [Simulates.recoverFrom_eq]
  split
  · exact ⟨.refl hs, hd⟩
  · dsimp only
    split
    · rename_i hlimit
      exact ⟨hrecorded, hd.le, hd.isError, hd.topic, .inr (.inr ⟨hlimit, hwrong,
        exists_getLast?_recordIn s.report hd.isError⟩)⟩
    · rename_i hlimit
      obtain ⟨hnear, hended⟩ := hd.near_recorded hlimit
      obtain ⟨hskipped, hbetween⟩ := between_skip hrecorded.settled hnear hended stop mark
      exact ⟨hrecorded.trans hskipped, hbetween, hwrong⟩

/-- A synchronization point.  After an error what was in hand is not missed. -/
theorem synchronized {p : Parser NodeId} (stop : Expectation)
    (hp : Reports text s.arena s.ahead s (p s) fun id t => Rests text s.arena s.ahead t [id]) :
    Reports text s.arena s.ahead s (Parser.synchronized stop p s) fun id? t =>
      Carries s.arena s.ahead t id?.toList ∧ t.Between stop := by
  rw [Simulates.synchronized_eq]
  refine .attempt_bind hp (fun id t ht hid => ⟨ht, hid.carries, .inl (.inl hid.clear)⟩) ?_
  intro d t ht hd
  refine .after ht ((recoverFrom ht.settled hd stop _).bind fun _ u hu hbetween => ?_)
  exact .pure hu.settled ⟨.lost (ht.trans hu) hbetween.2, hbetween.1⟩

/-- A rule inside a new scope, which binds no name while the rule runs.  What else is said of its
end may not be about open scopes. -/
theorem inScope {hands : α → List NodeId} {Q : α → ParserState → Prop} (hs : s.Settled text)
    (h : s.Clear) (hp : ∀ u : ParserState, u.Settled text → u.Clear →
      Reports text u.arena u.ahead u (p u) fun a t =>
        Carries u.arena u.ahead t (hands a) ∧ Q a t)
    (hq : ∀ a t scopes, Q a t → Q a { t with scopes := scopes }) :
    Reports text s.arena s.ahead s (Parser.inScope p s) fun x t =>
      Carries s.arena s.ahead t (hands x.2) ∧ Opens s.arena t x.1 ∧ Q x.2 t := by
  let u : ParserState := { s with
    arena := (s.arena.newScope s.scopes.head?).2
    scopes := (s.arena.newScope s.scopes.head?).1 :: s.scopes }
  have hgrows : Arena.Grows s.arena s.arena u.arena := Arena.grows_newScope ..
  have hu : u.Settled text := hs.opened ..
  have hl : Advances text s.arena s.ahead s u := ⟨hu, Nat.le_refl _, Nat.le_refl _,
    fun _ _ => id, hgrows, List.Subset.refl _, fun _ he => .inl he, rfl⟩
  refine .after hl (.attempt_bind (hp u hu h) ?_ ?_)
  · intro a t ht ha
    refine ⟨(ht.weaken hgrows.holds (Nat.le_refl _)).inside _,
      (ha.1.rebase hgrows.holds rfl).inside _, ⟨Nat.le_refl _, s.scopes.head?, ?_⟩, hq _ _ _ ha.2⟩
    refine (ht.grows.scope_eq _ ?_).trans (Arena.get_newScope ..)
    show s.arena.scopes.size < (s.arena.newScope s.scopes.head?).2.scopes.size
    simp [Arena.newScope]
  · intro d t ht hd
    exact ⟨(ht.weaken hgrows.holds (Nat.le_refl _)).inside _, hd.inside _⟩

end Reports

/-! ## Rules for nodes -/

/-- A rule that adds a node to those in hand. -/
def Appends (text : String) (p : Parser NodeId) : Prop :=
  ∀ {base lo s ids}, Rests text base lo s ids →
    Reports text base lo s (p s) fun id t => Rests text base lo t (ids ++ [id])

/-- A rule for a node adds that to what there is in hand. -/
theorem appends_of_alone {p : Parser NodeId} (hp : ∀ s, s.Settled text → s.Clear →
    Reports text s.arena s.ahead s (p s) fun id t => Rests text s.arena s.ahead t [id]) :
    Appends text p := by
  intro base lo s ids h
  have halone : Reports text s.arena s.ahead s (p s) fun id t =>
      Rests text s.arena s.ahead t [id] ∧ True :=
    (hp s h.settled h.clear).mono fun _ _ _ hid => ⟨hid, trivial⟩
  exact (Reports.behind_rests halone h).mono fun _ _ _ hid => hid.1

/-- A rule for a node that defines no name.  It may begin with a token that an error is about only
if that is a token of one kind. -/
def Expresses (text : String) (p : Parser NodeId) : Prop :=
  ∀ s, s.Settled text → s.Awaits (.kind .wordIf) →
    Reports text s.arena s.ahead s (p s) (Nameless text s.arena s.ahead)

namespace Expresses

variable {p : Parser NodeId}

/-- The node is added to those in hand. -/
theorem append (hp : Expresses text p) (h : Rests text base lo s ids) :
    Reports text base lo s (p s) fun id t =>
      Rests text base lo t (ids ++ [id]) ∧ t.arena.definitionName id = none :=
  .behind_rests (hp s h.settled (.inl h.clear)) h

/-- The node is added to those in hand. -/
theorem appends (hp : Expresses text p) : Appends text p :=
  fun h => (hp.append h).mono fun _ _ _ hid => hid.1

end Expresses

end ExprLang.Parser
