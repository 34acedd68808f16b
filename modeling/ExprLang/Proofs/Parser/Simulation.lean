import ExprLang.Proofs.Parser.Ensures
import ExprLang.Proofs.Reader.Tape
import ExprLang.Proofs.Tree.Scoping

/-!
# Parsers and readers

A parser does what a reader does: run from a state, it meets no fault, keeps
what the state already holds, and ends in a value that stands for the value of
the reader, or stops where the reader stops.  The reader speaks of parses that
go on after errors; the rest holds of every parse.

Main definitions:

- Definition {lit}`ParserState.Leads`: what every rule keeps.
- Definition {lit}`Parser.Simulates`: a parser does what a reader does.

Main results:

- Theorem {lit}`Parser.Simulates.bind`: two rules in sequence.
- Theorem {lit}`Parser.Simulates.loop`: repetition.
- Theorem {lit}`Parser.Simulates.synchronized`: synchronization points.
-/

namespace ExprLang

/-! ## States -/

namespace ParserState

/-- A state between two rules: the tape is regular, every redefinition has been reported, and no
two nodes open the same scope. -/
structure Valid (s : ParserState) : Prop where
  regular : s.tape.Regular
  redefinitions : s.arena.redefinitions = []
  apart : s.arena.ScopesApart

/-- No error has been recorded. -/
def NoErrors (s : ParserState) : Prop := s.report.errors = []

/-- The parse goes on after every error. -/
def Lenient (s : ParserState) : Prop := s.options = {}

/-- Where the parse stands among the words of the source. -/
def spot (s : ParserState) : Spot := s.tape.spot

/-- The number of words still to come. -/
def remaining (s : ParserState) : Nat := s.tape.words.length

/-- The state after the next token. -/
def advanced (s : ParserState) : ParserState := { s with tape := s.tape.advance.2 }

/-- The parse goes from `s` to `t`: it moves forward, and it changes nothing that `base` already
holds. -/
structure Leads (base : Arena) (s t : ParserState) : Prop where
  options : t.options = s.options
  scopes : t.scopes = s.scopes
  grows : Arena.Grows base s.arena t.arena
  moves : s.tape.Moves t.tape
  noErrors : t.NoErrors → s.NoErrors
  valid : t.Valid

namespace Leads

variable {base : Arena} {s t u : ParserState}

/-- A parse may stay where it is. -/
theorem refl (h : s.Valid) : Leads base s s :=
  ⟨rfl, rfl, .refl .., .refl _, id, h⟩

/-- A parse goes in steps. -/
theorem trans (h : Leads base s t) (h' : Leads base t u) : Leads base s u where
  options := h'.options.trans h.options
  scopes := h'.scopes.trans h.scopes
  grows := h.grows.trans h'.grows
  moves := h.moves.trans h'.moves
  noErrors hu := h.noErrors (h'.noErrors hu)
  valid := h'.valid

/-- What keeps more keeps less. -/
theorem weaken {base' : Arena} (h : Leads base' s t) (hb : base'.Holds base) :
    Leads base s t :=
  { h with grows := h.grows.weaken hb }

/-- What a parse does it does whatever scopes are open. -/
theorem inside (h : Leads base s t) (scopes : List ScopeId) :
    Leads base { s with scopes := scopes } { t with scopes := scopes } :=
  ⟨h.options, rfl, h.grows, h.moves, h.noErrors,
    ⟨h.valid.regular, h.valid.redefinitions, h.valid.apart⟩⟩

/-- The arena loses nothing. -/
theorem holds (h : Leads base s t) : t.arena.Holds s.arena := h.grows.holds

/-- No word comes back. -/
theorem remaining_le (h : Leads base s t) : t.remaining ≤ s.remaining :=
  h.moves.length_words_le

/-- The options stay. -/
theorem lenient (h : Leads base s t) (hs : s.Lenient) : t.Lenient := h.options.trans hs

/-- The next token can be consumed. -/
theorem advanced (h : s.Valid) : Leads base s s.advanced where
  options := rfl
  scopes := rfl
  grows := .refl ..
  moves := .advance _
  noErrors := id
  valid := ⟨h.regular.advance, h.redefinitions, h.apart⟩

end Leads

variable {s : ParserState}

/-- Consuming a token uses up a word unless the source has ended. -/
theorem remaining_advanced_lt (h : s.Valid) (hk : s.tape.peek.kind ≠ .endOfFile) :
    s.advanced.remaining < s.remaining := by
  unfold remaining
  rw [h.regular.words_eq_cons hk]
  exact Nat.lt_succ_self _

@[simp] theorem spot_advanced (h : s.Valid) : s.advanced.spot = s.spot.advance :=
  h.regular.spot_advance

end ParserState

namespace Parser

open ParserState

variable {α β γ δ : Type}

/-- A parser does what a reader does: what it ends in stands for what the reader ends in, in the
sense of `R`, and it stops where the reader stops. -/
def Simulates (base : Arena) (p : Parser α) (r : Reader β) (s : ParserState)
    (R : α → β → ParserState → Prop) : Prop :=
  p.Ensures s
    (fun a t => Leads base s t ∧ ∃ b, R a b t ∧ (s.Lenient → ∃ clean,
      r s.spot = ⟨some b, clean, t.spot⟩ ∧ (t.NoErrors ↔ s.NoErrors ∧ clean = true)))
    (fun d t => Leads base s t ∧ d.isError = true ∧
      (s.Lenient → ∃ clean, r s.spot = ⟨none, clean, t.spot⟩))

namespace Simulates

variable {base : Arena} {p : Parser α} {r : Reader β} {s t : ParserState}
  {R R' : α → β → ParserState → Prop}

/-- The values may be related in a weaker sense. -/
theorem mono (h : p.Simulates base r s R)
    (hrel : ∀ a b t, Leads base s t → R a b t → R' a b t) : p.Simulates base r s R' := by
  refine Ensures.mono h ?_ fun _ _ hd => hd
  rintro a t ⟨hl, b, hb, hc⟩
  exact ⟨hl, b, hrel a b t hl hb, hc⟩

/-- What keeps more keeps less. -/
theorem weaken {base' : Arena} (h : p.Simulates base' r s R) (hb : base'.Holds base) :
    p.Simulates base r s R := by
  refine Ensures.mono h ?_ ?_
  · rintro a t ⟨hl, hc⟩
    exact ⟨hl.weaken hb, hc⟩
  · rintro d t ⟨hl, hc⟩
    exact ⟨hl.weaken hb, hc⟩

/-- A value stands for a value. -/
theorem pure {a : α} {b : β} (hs : s.Valid) (h : R a b s) :
    (Pure.pure a : Parser α).Simulates base (Pure.pure b) s R := by
  refine ensures_of_eq_ok (a := a) (t := s) rfl ⟨.refl hs, b, h, fun _ => ⟨true, rfl, ?_⟩⟩
  simp

/-- Stopping with an error. -/
theorem fail {d : Diagnostic} (hs : s.Valid) (hd : d.isError = true) :
    (Parser.fail d : Parser α).Simulates base (Reader.fail : Reader β) s R :=
  ensures_of_eq_error (d := d) (t := s) rfl ⟨.refl hs, hd, fun _ => ⟨true, rfl⟩⟩

/-- Two parsers in sequence do what two readers do. -/
theorem bind {f : α → Parser γ} {g : β → Reader δ} {R' : γ → δ → ParserState → Prop}
    (hp : p.Simulates base r s R)
    (hf : ∀ a b t, Leads base s t → R a b t → (f a).Simulates base (g b) t R') :
    (p >>= f).Simulates base (r >>= g) s R' := by
  refine Ensures.bind (Ensures.mono hp (fun _ _ h => h) ?_) ?_
  · rintro d t ⟨hl, hd, hc⟩
    refine ⟨hl, hd, fun hs => ?_⟩
    obtain ⟨clean, hr⟩ := hc hs
    exact ⟨clean, Reader.bind_apply_of_none hr⟩
  · rintro a t ⟨hl, b, hb, hc⟩
    refine Ensures.mono (hf a b t hl hb) ?_ ?_
    · rintro c u ⟨hl', d, hd, hc'⟩
      refine ⟨hl.trans hl', d, hd, fun hs => ?_⟩
      obtain ⟨clean, hr, hclean⟩ := hc hs
      obtain ⟨clean', hr', hclean'⟩ := hc' (hl.lenient hs)
      refine ⟨clean && clean', ?_, ?_⟩
      · rw [Reader.bind_apply_of_some hr, hr']
      · rw [hclean', hclean, Bool.and_eq_true, and_assoc]
    · rintro d u ⟨hl', hd, hc'⟩
      refine ⟨hl.trans hl', hd, fun hs => ?_⟩
      obtain ⟨clean, hr, -⟩ := hc hs
      obtain ⟨clean', hr'⟩ := hc' (hl.lenient hs)
      exact ⟨clean && clean', by rw [Reader.bind_apply_of_some hr, hr']⟩

/-- A rule inside a rule starts from an arena that may hold more. -/
theorem bind_rule {f : α → Parser γ} {g : β → Reader δ} {R' : γ → δ → ParserState → Prop}
    (hb : s.arena.Holds base) (hp : p.Simulates s.arena r s R)
    (hf : ∀ a b t, Leads s.arena s t → R a b t → (f a).Simulates base (g b) t R') :
    (p >>= f).Simulates base (r >>= g) s R' := by
  refine bind (R := fun a b t => Leads s.arena s t ∧ R a b t) ?_ ?_
  · refine weaken ?_ hb
    exact hp.mono fun a b t hl hr => ⟨hl, hr⟩
  · intro a b t _ h
    exact hf a b t h.1 h.2

/-- Looking at the state is looking at the words. -/
theorem bind_look {f : α → Parser γ} {g : β → Reader δ} {R' : γ → δ → ParserState → Prop}
    {a : α} {b : β} (hp : p s = .ok a s) (hr : r s.spot = ⟨some b, true, s.spot⟩)
    (hf : (f a).Simulates base (g b) s R') : (p >>= f).Simulates base (r >>= g) s R' := by
  have hbind : (p >>= f) s = f a s := bind_eq_of_eq_ok hp
  have hread : (r >>= g) s.spot = g b s.spot := by
    rw [Reader.bind_apply_of_some hr]
    rfl
  unfold Simulates Ensures at hf ⊢
  rw [hbind, hread]
  exact hf

/-- A step of the parser that the reader does not take. -/
theorem bind_left {f : α → Parser γ} {r : Reader δ} {R' : γ → δ → ParserState → Prop} {a : α}
    (hp : p s = .ok a t) (hl : Leads base s t) (hspot : t.spot = s.spot)
    (herr : t.NoErrors ↔ s.NoErrors) (hf : (f a).Simulates base r t R') :
    (p >>= f).Simulates base r s R' := by
  refine Ensures.bind (ensures_of_eq_ok (P := fun b u => b = a ∧ u = t) hp ⟨rfl, rfl⟩) ?_
  rintro _ _ ⟨rfl, rfl⟩
  refine Ensures.mono hf ?_ ?_
  · rintro c u ⟨hl', d, hd, hc⟩
    refine ⟨hl.trans hl', d, hd, fun hs => ?_⟩
    obtain ⟨clean, hr, hclean⟩ := hc (hl.lenient hs)
    exact ⟨clean, hspot ▸ hr, by rw [hclean, herr]⟩
  · rintro d u ⟨hl', hd, hc⟩
    refine ⟨hl.trans hl', hd, fun hs => ?_⟩
    obtain ⟨clean, hr⟩ := hc (hl.lenient hs)
    exact ⟨clean, hspot ▸ hr⟩

/-- Looking at the state is no step of the reader. -/
theorem bind_left_look {f : α → Parser γ} {r : Reader δ} {R' : γ → δ → ParserState → Prop}
    {a : α} (hs : s.Valid) (hp : p s = .ok a s) (hf : (f a).Simulates base r s R') :
    (p >>= f).Simulates base r s R' :=
  bind_left hp (.refl hs) rfl Iff.rfl hf

/-- Only the run from the present state counts. -/
theorem of_eq {q : Parser α} {m : Reader β} (hp : p s = q s) (hr : r s.spot = m s.spot)
    (h : q.Simulates base m s R) : p.Simulates base r s R := by
  unfold Simulates Ensures at h ⊢
  rw [hp, hr]
  exact h

/-- Looking at the words is no step of the parser. -/
theorem bind_right_look {g : β → Reader δ} {p : Parser γ} {R' : γ → δ → ParserState → Prop}
    {b : β} (hr : r s.spot = ⟨some b, true, s.spot⟩) (h : p.Simulates base (g b) s R') :
    p.Simulates base (r >>= g) s R' := by
  refine of_eq rfl ?_ h
  rw [Reader.bind_apply_of_some hr]
  rfl

/-- A step of the parser for which the reader has its value already. -/
theorem bind_silent {f : α → Parser γ} {r : Reader δ} {R' : γ → δ → ParserState → Prop} {b : β}
    {R : α → ParserState → Prop}
    (hp : p.Simulates base (Pure.pure b) s fun a b' t => b' = b ∧ R a t)
    (hf : ∀ a t, Leads base s t → R a t → (f a).Simulates base r t R') :
    (p >>= f).Simulates base r s R' := by
  refine of_eq (q := p >>= f) (m := Pure.pure b >>= fun _ => r) rfl rfl ?_
  exact bind hp fun a _ t hl h => hf a t hl h.2

/-- A change of the values. -/
theorem map {f : α → γ} {g : β → δ} {R' : γ → δ → ParserState → Prop}
    (hp : p.Simulates base r s fun a b t => R' (f a) (g b) t) :
    (f <$> p).Simulates base (g <$> r) s R' := by
  have hmap (clean : Bool) (q : Spot) (b : Option β) (h : r s.spot = ⟨b, clean, q⟩) :
      (g <$> r) s.spot = ⟨b.map g, clean, q⟩ := by
    show (r >>= fun b => Pure.pure (g b)) s.spot = _
    cases b with
    | none => exact Reader.bind_apply_of_none h
    | some b => rw [Reader.bind_apply_of_some h, Reader.pure_apply, Bool.and_true]; rfl
  refine Ensures.map (Ensures.mono hp ?_ ?_)
  · rintro a t ⟨hl, b, hb, hc⟩
    refine ⟨hl, g b, hb, fun hs => ?_⟩
    obtain ⟨clean, hr, hclean⟩ := hc hs
    exact ⟨clean, hmap _ _ _ hr, hclean⟩
  · rintro d t ⟨hl, hd, hc⟩
    refine ⟨hl, hd, fun hs => ?_⟩
    obtain ⟨clean, hr⟩ := hc hs
    exact ⟨clean, hmap _ _ _ hr⟩

/-! ## Repetition -/

/-- What a step of a repetition ends in: both go on, having used up a word, or both end. -/
def StepRel (inv : α → β → ParserState → Prop) (R : γ → δ → ParserState → Prop)
    (remaining : Nat) (x : α ⊕ γ) (y : β ⊕ δ) (t : ParserState) : Prop :=
  match x, y with
  | .inl a, .inl b => inv a b t ∧ t.remaining < remaining
  | .inr c, .inr d => R c d t
  | _, _ => False

/-- A repetition does what a repetition does if each step does and uses up a word; neither
reaches its bound. -/
theorem loop {step : α → Parser (α ⊕ γ)} {step' : β → Reader (β ⊕ δ)}
    {R : γ → δ → ParserState → Prop} (inv : α → β → ParserState → Prop)
    (hstep : ∀ a b t, Leads base s t → inv a b t →
      (step a).Simulates base (step' b) t (StepRel inv R t.remaining))
    {n m : Nat} {a : α} {b : β} (hs : s.Valid) (hab : inv a b s) (hn : s.remaining < n)
    (hm : s.remaining < m) :
    (Parser.loop step n a).Simulates base (Reader.loop step' m b) s R := by
  have hall : ∀ n m a b t, Leads base s t → inv a b t → t.remaining < n → t.remaining < m →
      (Parser.loop step n a).Simulates base (Reader.loop step' m b) t R := by
    intro n
    induction n with
    | zero => intro m a b t _ _ hn; exact absurd hn (Nat.not_lt_zero _)
    | succ n ih =>
      intro m a b t hl hab hn hm
      cases m with
      | zero => exact absurd hm (Nat.not_lt_zero _)
      | succ m =>
        refine (hstep a b t hl hab).bind fun x y u hl' hxy => ?_
        match x, y with
        | .inl a, .inl b =>
          have hu : u.remaining < t.remaining := hxy.2
          exact ih m a b u (hl.trans hl') hxy.1 (by omega) (by omega)
        | .inr c, .inr d => exact .pure hl'.valid hxy
        | .inl _, .inr _ => exact hxy.elim
        | .inr _, .inl _ => exact hxy.elim
  exact hall n m a b s (.refl hs) hab hn hm

/-- The bounds of the parser and of the reader are both sufficient. -/
theorem bind_bound {f : Nat → Parser γ} {g : Nat → Reader δ} {R' : γ → δ → ParserState → Prop}
    (hf : ∀ n m, s.remaining < n → s.remaining < m → (f n).Simulates base (g m) s R') :
    (bound >>= f).Simulates base (Reader.bound >>= g) s R' := by
  refine bind_look (a := s.tape.pending.length + 1) (b := s.tape.words.length + 1) rfl rfl ?_
  refine hf _ _ ?_ (Nat.lt_succ_self _)
  exact Nat.lt_succ_of_le (Tape.Regular.length_words_le s.tape)

/-! ## Recovery -/

/-- What a synchronization point ends in: related values, or none on both sides, with words used
up if there were any. -/
def SyncRel (R : α → β → ParserState → Prop) (remaining : Nat) (x : Option α) (y : Option β)
    (t : ParserState) : Prop :=
  match x, y with
  | some a, some b => R a b t
  | none, none => remaining ≠ 0 → t.remaining < remaining
  | _, _ => False

/-- Recording an error leaves an error. -/
theorem errors_recordIn_ne_nil (report : Report) {d : Diagnostic} (hd : d.isError = true) :
    (recordIn report d).errors ≠ [] := by
  unfold recordIn
  split
  · rename_i last hlast
    split
    · intro he
      rw [he] at hlast
      cases hlast
    · simp [hd]
  · simp [hd]

/-- Recovery fails, or records the error and skips tokens. -/
theorem recoverFrom_eq (d : Diagnostic) (stop : Expectation) (mark : Nat) (t : ParserState) :
    recoverFrom d stop mark t =
      if t.options.recover = false then .error (.failed d) t
      else
        let recorded := { t with report := recordIn t.report d }
        if (t.options.maxErrors.elim false fun limit =>
            decide (limit ≤ recorded.report.errorCount)) = true then .error (.failed d) recorded
        else .ok () { recorded with tape := t.tape.skip stop mark } := by
  unfold recoverFrom
  refine (bind_eq_of_eq_ok (p := get) (a := t) (t := t) rfl).trans ?_
  cases h : t.options.recover with
  | false => rfl
  | true =>
    refine (bind_eq_of_eq_ok (p := Parser.record d) (a := ())
      (t := { t with report := recordIn t.report d }) rfl).trans ?_
    refine (bind_eq_of_eq_ok (p := limitReached)
      (t := { t with report := recordIn t.report d }) rfl).trans ?_
    dsimp only
    split
    · rw [if_neg (by simp)]
      rfl
    · rw [if_neg (by simp)]
      rfl

/-- A synchronization point takes up the error of its rule at the place where the rule began. -/
theorem synchronized_eq (stop : Expectation) (p : Parser α) (t : ParserState) :
    Parser.synchronized stop p t = (attempt p >>= fun
      | .ok a => Pure.pure (some a)
      | .error d => do
        Parser.recoverFrom d stop t.tape.consumedCount
        Pure.pure none) t := rfl

/-- What a rule whose diagnostic is handed out has to do with its reader. -/
def Attempted (r : Reader β) (s : ParserState) (R : α → β → ParserState → Prop) :
    Except Diagnostic α → ParserState → Prop
  | .ok a, t => ∃ b, R a b t ∧ (s.Lenient → ∃ clean,
    r s.spot = ⟨some b, clean, t.spot⟩ ∧ (t.NoErrors ↔ s.NoErrors ∧ clean = true))
  | .error d, t => d.isError = true ∧
    (s.Lenient → ∃ clean, r s.spot = ⟨none, clean, t.spot⟩)

/-- A synchronization point of the parser is one of the reader. -/
theorem synchronized (stop : Expectation) (hs : s.Valid) (hp : p.Simulates base r s R) :
    (Parser.synchronized stop p).Simulates base (Reader.synchronized stop r) s
      (SyncRel R s.remaining) := by
  show Ensures (Parser.attempt p >>= fun result => _) s _ _
  refine Ensures.bind (Ensures.attempt (P := fun result t => Leads base s t ∧
    Attempted r s R result t) hp) ?_
  rintro result t ⟨hl, h⟩
  cases result with
  | ok a =>
    obtain ⟨b, hb, hc⟩ := h
    refine Ensures.pure ⟨hl, some b, hb, fun hlen => ?_⟩
    obtain ⟨clean, hr, hclean⟩ := hc hlen
    exact ⟨clean, by simp only [Reader.synchronized, hr], hclean⟩
  | error d =>
    obtain ⟨hd, hc⟩ := h
    have herror (u : ParserState) (hu : u.report = recordIn t.report d) : ¬ u.NoErrors := by
      unfold NoErrors
      rw [hu]
      exact errors_recordIn_ne_nil _ hd
    have hrec := recoverFrom_eq d stop s.tape.consumedCount t
    split at hrec
    · -- recovery is off
      rename_i hoff
      refine Ensures.bind (ensures_of_eq_error hrec ⟨hl, hd, fun hlen => ?_⟩)
        (M := fun _ _ => False) fun _ _ h => h.elim
      have hopt := hl.lenient hlen
      unfold Lenient at hopt
      rw [hopt] at hoff
      cases hoff
    dsimp only at hrec
    split at hrec
    · -- as many errors are recorded as the options allow
      rename_i hlimit
      refine Ensures.bind (ensures_of_eq_error hrec ⟨?_, hd, fun hlen => ?_⟩)
        (M := fun _ _ => False) fun _ _ h => h.elim
      · exact { hl with
          noErrors := fun hu => absurd hu (herror _ rfl)
          valid := ⟨hl.valid.regular, hl.valid.redefinitions, hl.valid.apart⟩ }
      · have hopt := hl.lenient hlen
        unfold Lenient at hopt
        rw [hopt] at hlimit
        cases hlimit
    · obtain ⟨hregular, hmoves, hspot⟩ :=
        Tape.Regular.skip hs.regular hl.valid.regular hl.moves
      refine Ensures.bind (ensures_of_eq_ok hrec rfl) (M := fun _ u => u = _) ?_
      rintro _ u rfl
      refine Ensures.pure ⟨?_, none, ?_, fun hlen => ⟨false, ?_, ?_⟩⟩
      · exact { hl with
          moves := hmoves
          noErrors := fun hu => absurd hu (herror _ rfl)
          valid := ⟨hregular, hl.valid.redefinitions, hl.valid.apart⟩ }
      · intro hne
        have hlt := Spot.length_skip_lt (p := t.spot) stop hne hl.remaining_le
        have hwords := congrArg (fun p : Spot => p.words.length) hspot
        exact Nat.lt_of_le_of_lt (Nat.le_of_eq hwords) hlt
      · obtain ⟨clean, hr⟩ := hc hlen
        simp only [Reader.synchronized, hr]
        exact congrArg _ hspot.symm
      · constructor
        · intro hu
          exact absurd hu (herror _ rfl)
        · intro h
          exact absurd h.2 (by simp)

end Simulates

end Parser

end ExprLang
