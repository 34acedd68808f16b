import ExprLang.Proofs.Reader.Rules

/-!
# Reading known words

What a reader does is told from its parts: each consumes the words that it is
meant for, whatever words follow.  Errors are kept apart: there is none if the
tree that is read is tidy.

Main definitions:

- Definition {lit}`Reader.Reads`: a reader ends with a value and the words that
  it leaves.

Main results:

- Theorem {lit}`Reader.Reads.bind`: readers in sequence.
- Theorem {lit}`Reader.Reads.loop_next`: one more round of a repetition.
-/

namespace ExprLang

/-- The kind of the first of some words. -/
def nextKind (ws : List Word) : TokenKind := (ws.headD .endOfFile).kind

@[simp] theorem nextKind_nil : nextKind [] = .endOfFile := rfl

@[simp] theorem nextKind_cons (w : Word) (ws : List Word) : nextKind (w :: ws) = w.kind := rfl

/-- A word that comes next is of no other kind. -/
theorem nextKind_cons_ne {w : Word} {ws : List Word} {kind : TokenKind} (h : w.kind ≠ kind) :
    nextKind (w :: ws) ≠ kind := h

/-- The next word is the first of the words to come. -/
@[simp] theorem Spot.kind_peek (ws : List Word) (flag : Bool) :
    (Spot.mk ws flag).peek.kind = nextKind ws := by
  cases ws <;> rfl

namespace Reader

variable {p q : Prop} {ws mid rest : List Word}

/-- A reader ends with a value before the words {lit}`rest`, without an error if {lit}`p`
holds. -/
def Reads (p : Prop) (r : Reader α) (ws : List Word) (a : α) (rest : List Word) : Prop :=
  ∀ flag, ∃ clean flag', r ⟨ws, flag⟩ = ⟨some a, clean, ⟨rest, flag'⟩⟩ ∧ (p → clean = true)

namespace Reads

/-- A value. -/
theorem pure (a : α) : Reads p (pure a) ws a ws :=
  fun flag => ⟨true, flag, rfl, fun _ => rfl⟩

/-- Readers in sequence. -/
theorem bind {r : Reader α} {f : α → Reader β} {a : α} {b : β} (hr : Reads p r ws a mid)
    (hf : Reads p (f a) mid b rest) : Reads p (r >>= f) ws b rest := by
  intro flag
  obtain ⟨clean, flag', he, hclean⟩ := hr flag
  obtain ⟨clean', flag'', he', hclean'⟩ := hf flag'
  refine ⟨clean && clean', flag'', ?_, fun h => ?_⟩
  · rw [bind_apply_of_some he, he']
  · rw [hclean h, hclean' h]
    rfl

/-- What is made of a value. -/
theorem map {r : Reader α} {a : α} (h : Reads p r ws a rest) (f : α → β) :
    Reads p (f <$> r) ws (f a) rest :=
  h.bind (.pure (f a))

/-- A reader that answers something about the words to come. -/
theorem answer {r : Reader α} {a : α} (h : ∀ flag, r ⟨ws, flag⟩ = ⟨some a, true, ⟨ws, flag⟩⟩) :
    Reads p r ws a ws :=
  fun flag => ⟨true, flag, h flag, fun _ => rfl⟩

/-- A look at the next word. -/
theorem peek {w : Word} : Reads p peek (w :: ws) w (w :: ws) :=
  answer fun _ => rfl

/-- A look at the next word, or at the end of the words. -/
theorem look : Reads p Reader.peek ws (ws.headD .endOfFile) ws :=
  answer fun _ => by cases ws <;> rfl

/-- The next word is consumed. -/
theorem advance {w : Word} : Reads p advance (w :: ws) w ws :=
  fun _ => ⟨true, _, rfl, fun _ => rfl⟩

/-- Whether the next word fits. -/
theorem check (e : Expectation) : Reads p (check e) ws (e.accepts (nextKind ws)) ws :=
  answer fun flag => by
    rw [← Spot.kind_peek ws flag]
    rfl

/-- A word that fits is consumed. -/
theorem accept {e : Expectation} {w : Word} (h : e.accepts w.kind = true) :
    Reads p (accept? e) (w :: ws) (some w) ws := by
  refine bind (check e) ?_
  rw [nextKind_cons, h]
  exact bind advance (.pure _)

/-- A word that does not fit is left. -/
theorem refuse {e : Expectation} (h : e.accepts (nextKind ws) = false) :
    Reads p (accept? e) ws none ws := by
  refine bind (check e) ?_
  rw [h]
  exact .pure _

/-- A word of some kind is consumed. -/
theorem skipKind {kind : TokenKind} {w : Word} (h : w.kind = kind) :
    Reads p (skipKind kind) (w :: ws) true ws :=
  (accept (e := .kind kind) (by simp [Expectation.accepts, h])).bind (.pure _)

/-- A word of another kind is left. -/
theorem skipKind_of_ne {kind : TokenKind} (h : nextKind ws ≠ kind) :
    Reads p (Reader.skipKind kind) ws false ws :=
  (refuse (e := .kind kind) (by simpa [Expectation.accepts] using Ne.symm h)).bind
    (.pure _)

/-- A word that has to fit. -/
theorem expect {e : Expectation} {w : Word} (h : e.accepts w.kind = true) :
    Reads p (expect e) (w :: ws) w ws := by
  refine bind (check e) ?_
  rw [nextKind_cons, h]
  exact advance

/-- A word that has to be of some kind. -/
theorem expectKind {kind : TokenKind} {w : Word} (h : w.kind = kind) :
    Reads p (expectKind kind) (w :: ws) w ws :=
  expect (e := .kind kind) (by simp [Expectation.accepts, h])

/-- No error is found where what is required holds. -/
theorem require {b : Bool} (h : p → b = true) : Reads p (require b) ws () ws :=
  fun flag => ⟨b, flag, rfl, h⟩

/-- The bound of a repetition. -/
theorem bound : Reads p bound ws (ws.length + 1) ws :=
  answer fun _ => rfl

/-- A synchronization point where nothing stops. -/
theorem synchronized {r : Reader α} {a : α} (h : Reads p r ws a rest) (stop : Expectation) :
    Reads p (synchronized stop r) ws (some a) rest := by
  intro flag
  obtain ⟨clean, flag', he, hclean⟩ := h flag
  refine ⟨clean, flag', ?_, hclean⟩
  unfold Reader.synchronized
  rw [he]

/-! ## Repetition -/

variable {step : α → Reader (α ⊕ β)} {a a' : α} {b : β}

/-- The last round of a repetition. -/
theorem loop_end {n : Nat} (hn : ws.length < n) (h : Reads p (step a) ws (.inr b) rest) :
    Reads p (loop step n a) ws b rest := by
  cases n with
  | zero => exact absurd hn (Nat.not_lt_zero _)
  | succ n => exact h.bind (.pure b)

/-- One more round of a repetition, which consumes words. -/
theorem loop_next {n : Nat} (hn : ws.length < n) (h : Reads p (step a) ws (.inl a') mid)
    (hmid : mid.length < ws.length)
    (hloop : ∀ m, mid.length < m → Reads p (loop step m a') mid b rest) :
    Reads p (loop step n a) ws b rest := by
  cases n with
  | zero => exact absurd hn (Nat.not_lt_zero _)
  | succ n => exact h.bind (hloop n (by omega))

/-- A repetition within the bound. -/
theorem bind_bound {f : Nat → Reader β} (h : ∀ n, ws.length < n → Reads p (f n) ws b rest) :
    Reads p (Reader.bound >>= f) ws b rest :=
  bound.bind (h _ (Nat.lt_succ_self _))

end Reads

end Reader

end ExprLang
