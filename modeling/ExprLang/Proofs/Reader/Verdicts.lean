import ExprLang.Proofs.Grammar.Scanning
import ExprLang.Proofs.Reader.Expressions

/-!
# Readers that keep to a scan

A scan of the words to come gives a verdict on them.  A reader that keeps to the
verdict goes on to words on which the scan, from where it is by then, gives the same
one, and stops only if the verdict is no.

Main definitions:

- Definition {lit}`Reader.Decides`: a reader that keeps to a verdict.
- Definition {lit}`Faces`: words on which the scan gives the verdict.

Main results:

- Theorem {lit}`Reader.Decides.bind`: readers in sequence.
- Theorem {lit}`Reader.Decides.loop`: repetition.
- Theorem {lit}`Faces.decides_expect`: words that have to fit.
-/

namespace ExprLang

/-- A word that comes next. -/
theorem exists_cons_of_nextKind {ws : List Word} {kind : TokenKind} (h : nextKind ws = kind)
    (hk : kind ≠ .endOfFile) : ∃ w rest, ws = w :: rest ∧ w.kind = kind := by
  cases ws with
  | nil => exact absurd h.symm hk
  | cons w ws => exact ⟨w, ws, rfl, h⟩

namespace Reader

variable {α β : Type} {verdict : Bool} {ws mid rest : List Word}

/-- A reader ends without an error, with a value and a rest as described, or it stops and the
verdict is no. -/
def Decides (verdict : Bool) (r : Reader α) (ws : List Word) (Q : α → List Word → Prop) : Prop :=
  ∀ flag, (∃ a rest flag', r ⟨ws, flag⟩ = ⟨some a, true, ⟨rest, flag'⟩⟩ ∧ Q a rest) ∨
    (r ⟨ws, flag⟩).value = none ∧ verdict = false

namespace Decides

variable {r : Reader α} {f : α → Reader β} {a : α} {Q : α → List Word → Prop}
  {R : β → List Word → Prop}

/-- A reader that is known to end. -/
theorem of_reads (h : Reads True r ws a rest) (hQ : Q a rest) : Decides verdict r ws Q := by
  intro flag
  obtain ⟨clean, flag', he, hclean⟩ := h flag
  cases hclean trivial
  exact .inl ⟨a, rest, flag', he, hQ⟩

/-- Less can be said of the value and the rest. -/
theorem mono {Q' : α → List Word → Prop} (h : Decides verdict r ws Q)
    (hQ : ∀ a rest, Q a rest → Q' a rest) : Decides verdict r ws Q' := by
  intro flag
  rcases h flag with ⟨a, rest, flag', he, ha⟩ | hno
  · exact .inl ⟨a, rest, flag', he, hQ a rest ha⟩
  · exact .inr hno

/-- A value. -/
theorem pure (hQ : Q a ws) : Decides verdict (pure a) ws Q :=
  of_reads (.pure a) hQ

/-- A reader that stops. -/
theorem fail (h : verdict = false) : Decides verdict (fail : Reader α) ws Q :=
  fun _ => .inr ⟨rfl, h⟩

/-- Readers in sequence. -/
theorem bind (hr : Decides verdict r ws Q)
    (hf : ∀ a rest, Q a rest → Decides verdict (f a) rest R) :
    Decides verdict (r >>= f) ws R := by
  intro flag
  rcases hr flag with ⟨a, mid, flag', he, hQ⟩ | ⟨hnone, hno⟩
  · rw [bind_apply_of_some he]
    rcases hf a mid hQ flag' with ⟨b, rest, flag'', he', hR⟩ | ⟨hnone, hno⟩
    · exact .inl ⟨b, rest, flag'', by rw [he']; rfl, hR⟩
    · exact .inr ⟨hnone, hno⟩
  · refine .inr ⟨?_, hno⟩
    rw [bind_apply]
    generalize r ⟨ws, flag⟩ = o at hnone
    obtain ⟨value, clean, p⟩ := o
    cases hnone
    rfl

/-- A reader after one that is known to end. -/
theorem bind_reads (hr : Reads True r ws a mid) (hf : Decides verdict (f a) mid R) :
    Decides verdict (r >>= f) ws R :=
  bind (Q := fun b rest => b = a ∧ rest = mid) (of_reads hr ⟨rfl, rfl⟩)
    fun _ _ ⟨hb, hrest⟩ => hb ▸ hrest ▸ hf

/-- A repetition within the bound. -/
theorem bind_bound {f : Nat → Reader β} (h : ∀ n, ws.length < n → Decides verdict (f n) ws R) :
    Decides verdict (bound >>= f) ws R :=
  bind_reads .bound (h _ (Nat.lt_succ_self _))

/-- A repetition, every round of which consumes words. -/
theorem loop {step : α → Reader (α ⊕ β)} {I : α → List Word → Prop}
    (hstep : ∀ a ws, I a ws → Decides verdict (step a) ws fun next rest =>
      next.elim (fun a => I a rest ∧ rest.length < ws.length) fun b => R b rest)
    {n : Nat} (hn : ws.length < n) (h : I a ws) : Decides verdict (loop step n a) ws R := by
  induction n generalizing a ws with
  | zero => exact absurd hn (Nat.not_lt_zero _)
  | succ n ih =>
    refine bind (hstep a ws h) fun next rest hnext => ?_
    cases next with
    | inl a => exact ih (by have := hnext.2; omega) hnext.1
    | inr b => exact .pure hnext

end Decides

end Reader

/-! ## Words under a scan -/

/-- A word that stands for itself: it begins no string and no block, and if it is a number, it is
in the range of its type, also after a minus sign. -/
structure Word.Plain (w : Word) : Prop where
  ne_endOfFile : w.kind ≠ .endOfFile
  ne_string : w.kind ≠ .stringStart
  ne_block : w.kind ≠ .leftBrace
  literal : w.kind.isLiteral = true → ∃ value, Literal.ofToken w.kind w.text = .ok (.ok value)
  negated : w.kind.isNumber = true →
    ∃ value, Literal.ofToken w.kind ("-" ++ w.text) = .ok (.ok value)

/-- Fewer than so many words, on which a scan gives a verdict. -/
structure Faces (verdict : Bool) (n : Nat) (s : Scan) (ws : List Word) : Prop where
  length_lt : ws.length < n
  plain : ∀ w ∈ ws, w.Plain
  accepts : s.accepts (ws.map Word.kind) = verdict

namespace Faces

open Reader

variable {verdict : Bool} {n m : Nat} {s t : Scan} {w : Word} {ws : List Word} {kind : TokenKind}

/-- More words may be allowed. -/
theorem mono (h : Faces verdict n s ws) (hm : n ≤ m) : Faces verdict m s ws :=
  ⟨Nat.lt_of_lt_of_le h.length_lt hm, h.plain, h.accepts⟩

/-- No more words have to be allowed than there are. -/
theorem tight (h : Faces verdict n s ws) : Faces verdict (ws.length + 1) s ws :=
  ⟨Nat.lt_succ_self _, h.plain, h.accepts⟩

/-- One word is passed, and there are fewer words behind it. -/
theorem step_succ (h : Faces verdict (n + 1) s (w :: ws)) (hs : s.step? w.kind = some t) :
    Faces verdict n t ws :=
  ⟨Nat.lt_of_succ_lt_succ h.length_lt, fun v hv => h.plain v (List.mem_cons_of_mem _ hv),
    (Scan.accepts_of_step? hs _).symm.trans h.accepts⟩

/-- One word is passed. -/
theorem step (h : Faces verdict n s (w :: ws)) (hs : s.step? w.kind = some t) :
    Faces verdict n t ws :=
  (h.mono (Nat.le_succ n)).step_succ hs

/-- Places that the next word leads on from in the same way. -/
theorem congr (h : Faces verdict n s ws) (hs : s.step? (nextKind ws) = t.step? (nextKind ws))
    (hd : s.isDone = t.isDone) : Faces verdict n t ws := by
  refine ⟨h.length_lt, h.plain, Eq.trans ?_ h.accepts⟩
  cases ws with
  | nil => exact hd.symm
  | cons w ws =>
    rw [List.map_cons, Scan.accepts, Scan.accepts, Scan.run?_cons, Scan.run?_cons]
    rw [nextKind_cons] at hs
    rw [hs]

/-- A word that cannot come is not accepted. -/
theorem eq_false (h : Faces verdict n s ws) (hs : s.step? (nextKind ws) = none)
    (hd : s.isDone = false) : verdict = false := by
  rw [← h.accepts]
  cases ws with
  | nil => exact hd
  | cons w ws => exact Scan.not_accepts_of_step? hs _

/-- A word that has to fit. -/
theorem decides_expect (h : Faces verdict n s ws) {e : Expectation}
    (hs : ∀ kind, e.accepts kind = true → s.step? kind = some t)
    (hno : e.accepts (nextKind ws) = false → verdict = false) :
    Decides verdict (expect e) ws fun w rest =>
      ws = w :: rest ∧ e.accepts w.kind = true ∧ Faces verdict n t rest := by
  cases hfits : e.accepts (nextKind ws) with
  | false =>
    refine fun flag => .inr ⟨?_, hno hfits⟩
    rw [expect_apply, Spot.kind_peek, hfits]
    rfl
  | true =>
    cases ws with
    | nil => exact absurd rfl (Scan.kind_ne_of_step? (hs _ hfits)).1
    | cons w ws => exact .of_reads (.expect hfits) ⟨rfl, hfits, h.step (hs _ hfits)⟩

/-- A word that has to be of some kind. -/
theorem decides_expectKind (h : Faces verdict n s ws) (hs : s.step? kind = some t)
    (hno : nextKind ws ≠ kind → verdict = false) :
    Decides verdict (expectKind kind) ws fun w rest =>
      ws = w :: rest ∧ w.kind = kind ∧ Faces verdict n t rest := by
  have hfits (k : TokenKind) : (Expectation.kind kind).accepts k = true → kind = k := by
    simp [Expectation.accepts]
  refine (h.decides_expect (fun k hk => hfits k hk ▸ hs) fun hk => hno fun he => ?_).mono
    fun w rest hw => ⟨hw.1, (hfits _ hw.2.1).symm, hw.2.2⟩
  simp [Expectation.accepts, he] at hk

/-- The name of a member. -/
theorem decides_name {pending : Nat} {outer : List (Parenthesis × Nat)}
    (h : Faces verdict n ⟨.member, pending, outer⟩ ws) :
    Decides verdict name ws fun w rest => ws = w :: rest ∧ w.kind.isReference = true ∧
      Faces verdict n ⟨.operator, pending, outer⟩ rest := by
  have hfits (k : TokenKind) : (Expectation.category [.name]).accepts k = k.isReference := by
    cases k <;> rfl
  simp only [← hfits]
  refine h.decides_expect (fun k hk => Scan.step?_member (hfits k ▸ hk)) fun hk => h.eq_false ?_ rfl
  rw [hfits] at hk
  exact if_neg (by rw [hk]; decide)

end Faces

end ExprLang
