import ExprLang.Parser.Basic

/-!
# What a parser ensures

A statement about a run of a parser says in which states it may end with a
value, and in which states it may stop with a diagnostic.  A run that meets a
fault satisfies no such statement.

Main results:

- Definition {lit}`Parser.Ensures`: what a run from a state ends in.
- Theorem {lit}`Parser.Ensures.exists_run`: a run of which something is ensured comes back.
- Theorem {lit}`Parser.Ensures.bind`: statements about two parsers in sequence.
-/

namespace ExprLang.Parser

variable {α β : Type}

/-- From the state `s` the parser ends with a value and a state that `P` accepts, or stops
with a diagnostic and a state that `Q` accepts; it meets no fault. -/
def Ensures (p : Parser α) (s : ParserState) (P : α → ParserState → Prop)
    (Q : Diagnostic → ParserState → Prop) : Prop :=
  match p s with
  | .ok a t => P a t
  | .error (.failed d) t => Q d t
  | .error (.fault _) _ => False

section

variable {p : Parser α} {s t : ParserState} {P P' : α → ParserState → Prop}
  {Q Q' : Diagnostic → ParserState → Prop}

/-- A run that ends with a value is all there is to see. -/
theorem ensures_of_eq_ok {a : α} (h : p s = .ok a t) (ha : P a t) : p.Ensures s P Q := by
  unfold Ensures
  rw [h]
  exact ha

/-- A run that stops with a diagnostic is all there is to see. -/
theorem ensures_of_eq_error {d : Diagnostic} (h : p s = .error (.failed d) t) (hd : Q d t) :
    p.Ensures s P Q := by
  unfold Ensures
  rw [h]
  exact hd

/-- What is ensured holds of the value with which a run ends. -/
theorem Ensures.of_eq_ok (h : p.Ensures s P Q) {a : α} (hp : p s = .ok a t) : P a t := by
  unfold Ensures at h
  rwa [hp] at h

/-- What is ensured holds of the diagnostic with which a run stops. -/
theorem Ensures.of_eq_error (h : p.Ensures s P Q) {d : Diagnostic}
    (hp : p s = .error (.failed d) t) : Q d t := by
  unfold Ensures at h
  rwa [hp] at h

/-- A run of which anything is ensured meets no fault. -/
theorem Ensures.ne_fault (h : p.Ensures s P Q) (f : Fault) :
    p s ≠ .error (.fault f) t := by
  intro hp
  unfold Ensures at h
  rw [hp] at h
  exact h

/-- A run of which anything is ensured comes back. -/
theorem Ensures.exists_run (h : p.Ensures s P Q) :
    (∃ a t, p.run s = .ok (.ok a, t) ∧ P a t) ∨ ∃ d t, p.run s = .ok (.error d, t) ∧ Q d t := by
  cases hend : p s with
  | ok a t => exact .inl ⟨a, t, run_eq_ok_ok.2 hend, h.of_eq_ok hend⟩
  | error stop t =>
    cases stop with
    | failed d => exact .inr ⟨d, t, run_eq_ok_error.2 hend, h.of_eq_error hend⟩
    | fault f => exact absurd hend (h.ne_fault f)

/-- Statements about runs can be weakened. -/
theorem Ensures.mono (h : p.Ensures s P Q) (ho : ∀ a t, P a t → P' a t)
    (hs : ∀ d t, Q d t → Q' d t) : p.Ensures s P' Q' := by
  unfold Ensures at h ⊢
  split at h
  · exact ho _ _ h
  · exact hs _ _ h
  · exact h

end

/-! ## Parsers in sequence -/

variable {s : ParserState} {Q : Diagnostic → ParserState → Prop}

/-- A value satisfies what holds of it. -/
theorem Ensures.pure {a : α} {P : α → ParserState → Prop} (h : P a s) :
    (Pure.pure a : Parser α).Ensures s P Q := h

/-- A diagnostic satisfies what holds of it. -/
theorem Ensures.fail {d : Diagnostic} {P : α → ParserState → Prop} (h : Q d s) :
    (Parser.fail d : Parser α).Ensures s P Q := h

/-- In a sequence the second parser starts where the first one ends. -/
theorem bind_eq_of_eq_ok {p : Parser α} {f : α → Parser β} {a : α} {t : ParserState}
    (h : p s = .ok a t) : (p >>= f) s = f a t := by
  show EStateM.bind p f s = f a t
  unfold EStateM.bind
  rw [h]

/-- A sequence stops where its first parser stops. -/
theorem bind_eq_of_eq_error {p : Parser α} {f : α → Parser β} {e : Stop} {t : ParserState}
    (h : p s = .error e t) : (p >>= f) s = .error e t := by
  show EStateM.bind p f s = .error e t
  unfold EStateM.bind
  rw [h]

/-- Where a parser ends with a value, what takes up its diagnostics goes on with the value. -/
theorem attempt_bind_of_eq_ok {p : Parser α} {f : Except Diagnostic α → Parser β} {a : α}
    {t : ParserState} (h : p s = .ok a t) : (attempt p >>= f) s = f (.ok a) t :=
  bind_eq_of_eq_ok (attempt_eq_ok_ok.2 h)

/-- Where it stops with a diagnostic, that is taken up. -/
theorem attempt_bind_of_failed {p : Parser α} {f : Except Diagnostic α → Parser β} {d : Diagnostic}
    {t : ParserState} (h : p s = .error (.failed d) t) : (attempt p >>= f) s = f (.error d) t :=
  bind_eq_of_eq_ok (attempt_eq_ok_error.2 h)

/-- Where it stops with a fault, nothing is taken up. -/
theorem attempt_bind_of_fault {p : Parser α} {f : Except Diagnostic α → Parser β} {e : Fault}
    {t : ParserState} (h : p s = .error (.fault e) t) :
    (attempt p >>= f) s = .error (.fault e) t :=
  bind_eq_of_eq_error (attempt_eq_error_fault.2 h)

/-- In a sequence the second parser ends the run that the first one has begun. -/
theorem exists_of_bind {p : Parser α} {f : α → Parser β} {b : β}
    {t : ParserState} (h : (p >>= f) s = .ok b t) : ∃ a u, p s = .ok a u ∧ f a u = .ok b t := by
  cases hp : p s with
  | ok a u => exact ⟨a, u, rfl, (bind_eq_of_eq_ok hp).symm.trans h⟩
  | error e u =>
    rw [bind_eq_of_eq_error hp] at h
    cases h

/-- What the first parser of a sequence ensures is where the second one starts from. -/
theorem Ensures.bind {p : Parser α} {f : α → Parser β} {M : α → ParserState → Prop}
    {P : β → ParserState → Prop} (hp : p.Ensures s M Q)
    (hf : ∀ a t, M a t → (f a).Ensures t P Q) : (p >>= f).Ensures s P Q := by
  cases h : p s with
  | ok a t =>
    have hm : M a t := hp.of_eq_ok h
    unfold Ensures
    rw [bind_eq_of_eq_ok h]
    exact hf a t hm
  | error e t =>
    cases e with
    | failed d =>
      have hd : Q d t := hp.of_eq_error h
      unfold Ensures
      rw [bind_eq_of_eq_error h]
      exact hd
    | fault f => exact absurd h (hp.ne_fault f)

/-- A change of the value keeps what is ensured of the state. -/
theorem Ensures.map {p : Parser α} {f : α → β} {P : β → ParserState → Prop}
    (hp : p.Ensures s (fun a t => P (f a) t) Q) : (f <$> p).Ensures s P Q := by
  cases h : p s with
  | ok a t =>
    have ha : P (f a) t := hp.of_eq_ok h
    have hm : (f <$> p) s = .ok (f a) t := by
      show EStateM.map f p s = _
      unfold EStateM.map
      rw [h]
    exact ensures_of_eq_ok hm ha
  | error e t =>
    have hm : (f <$> p) s = .error e t := by
      show EStateM.map f p s = _
      unfold EStateM.map
      rw [h]
    cases e with
    | failed d => exact ensures_of_eq_error hm (hp.of_eq_error h)
    | fault f => exact absurd h (hp.ne_fault f)

/-- A diagnostic that is handed out leaves the state as it was when the parser stopped. -/
theorem Ensures.attempt {p : Parser α} {P : Except Diagnostic α → ParserState → Prop}
    (hp : p.Ensures s (fun a t => P (.ok a) t) fun d t => P (.error d) t) :
    (attempt p).Ensures s P Q := by
  cases h : p s with
  | ok a t => exact ensures_of_eq_ok (attempt_eq_ok_ok.2 h) (hp.of_eq_ok h)
  | error e t =>
    cases e with
    | failed d => exact ensures_of_eq_ok (attempt_eq_ok_error.2 h) (hp.of_eq_error h)
    | fault f => exact absurd h (hp.ne_fault f)

end ExprLang.Parser
