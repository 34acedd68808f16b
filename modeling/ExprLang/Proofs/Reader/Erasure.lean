import ExprLang.Proofs.Reader.Enclosures

/-!
# Reading without a semicolon

Two readers side by side: one of a source with a semicolon behind a closing brace,
the other of the source without it.  Where the first reads without an error so does
the second, and they stay beside each other, as long as no rule takes the word
behind the semicolon for one that goes on with what the brace ends.

Main definitions:

- Definition {lit}`Erasable`: a semicolon that can be left out.
- Definition {lit}`Beside`: places in the two sources that correspond.
- Definition {lit}`Reader.Matches`: what one reader reads without an error the other
  reads in the source without the semicolon.

Main results:

- Theorem {lit}`Reader.MatchesAt.bind`: two readers in sequence.
- Theorem {lit}`Reader.matchesAt_loop`: repetition.
-/

namespace ExprLang

/-! ## Semicolons that can be left out -/

/-- Whether a token can come behind the end of a statement or of a declaration: it begins one, or
it closes the block or the source. -/
def TokenKind.followsEnd (kind : TokenKind) : Bool :=
  (StartRule.ofKind? kind).isSome || kind.isAnyOf [.statementStart, .declarationStart] ||
    kind == .rightBrace || kind == .endOfFile

/-- A semicolon before words of which the first neither goes on with an expression nor belongs to
what the semicolon ends. -/
structure Erasable (semicolon : Word) (back : List Word) : Prop where
  kind_eq : semicolon.kind = .semicolon
  follows : (Spot.start back).peek.kind.followsEnd = true
  ends : ContinueRule.ofKind? (Spot.start back).peek.kind = none

/-! ## Two places -/

/-- Places with the same next word before and after it: in a source with a semicolon behind a
closing brace, and in the source without it. -/
inductive Aligned (semicolon : Word) (back : List Word) : Spot → Spot → Prop
  | ahead {front : List Word} {brace : Word} {flag : Bool} (hbrace : brace.kind = .rightBrace) :
    Aligned semicolon back ⟨front ++ brace :: semicolon :: back, flag⟩
      ⟨front ++ brace :: back, flag⟩
  /-- Behind the semicolon, which the other source does not have. -/
  | passed : Aligned semicolon back ⟨back, false⟩ ⟨back, !back.isEmpty⟩
  | behind (p : Spot) : Aligned semicolon back p p

/-- Places that correspond: aligned ones, and those before the semicolon, which the other source
does not have. -/
inductive Beside (semicolon : Word) (back : List Word) : Spot → Spot → Prop
  | aligned {p p' : Spot} (h : Aligned semicolon back p p') : Beside semicolon back p p'
  | here : Beside semicolon back ⟨semicolon :: back, true⟩ ⟨back, !back.isEmpty⟩

section

variable {semicolon : Word} {back : List Word} {p p' : Spot}

namespace Aligned

/-- At aligned places the same word comes next. -/
theorem peek_eq (h : Aligned semicolon back p p') : p'.peek = p.peek := by
  cases h with
  | @ahead front brace flag hbrace => cases front <;> rfl
  | passed => rfl
  | behind => rfl

/-- At aligned places a closing brace comes last in the source without the semicolon if it does in
the other one. -/
theorem afterBrace_of_afterBrace (h : Aligned semicolon back p p') (hp : p.afterBrace = true) :
    p'.afterBrace = true := by
  cases h with
  | ahead => exact hp
  | passed => cases hp
  | behind => exact hp

/-- Behind the next word the places are aligned unless it is the closing brace before the
semicolon. -/
theorem advance_cases (h : Aligned semicolon back p p') :
    Aligned semicolon back p.advance p'.advance ∨
      p.peek.kind = .rightBrace ∧ p.advance = ⟨semicolon :: back, true⟩ ∧
        p'.advance = ⟨back, !back.isEmpty⟩ := by
  cases h with
  | @ahead front brace flag hbrace =>
    cases front with
    | nil =>
      have hflag : (brace.kind == .rightBrace) = true := beq_iff_eq.2 hbrace
      refine .inr ⟨hbrace, ?_, ?_⟩
      · simp [Spot.advance, hflag]
      · simp [Spot.advance, hflag]
    | cons w front =>
      have hne (ws : List Word) : (front ++ brace :: ws).isEmpty = false := by
        cases front <;> rfl
      simp only [List.cons_append, Spot.advance, hne]
      exact .inl (.ahead hbrace)
  | passed =>
    cases back with
    | nil => exact .inl (.behind _)
    | cons w back => exact .inl (.behind _)
  | behind => exact .inl (.behind _)

/-- Behind the next word the places correspond. -/
theorem advance (h : Aligned semicolon back p p') :
    Beside semicolon back p.advance p'.advance := by
  rcases h.advance_cases with h | ⟨-, hp, hp'⟩
  · exact .aligned h
  · rw [hp, hp']
    exact .here

/-- Behind a word that is no closing brace the places are aligned. -/
theorem aligned_advance (h : Aligned semicolon back p p') (hk : p.peek.kind ≠ .rightBrace) :
    Aligned semicolon back p.advance p'.advance :=
  h.advance_cases.resolve_right fun hbrace => hk hbrace.1

/-- At aligned places the word after the next one is the same unless the next is a closing
brace. -/
theorem lookAhead_eq (h : Aligned semicolon back p p') (hk : p.peek.kind ≠ .rightBrace) :
    p'.lookAhead 1 = p.lookAhead 1 := by
  cases h with
  | @ahead front brace flag hbrace =>
    rcases front with _ | ⟨v, _ | ⟨w, front⟩⟩
    · exact absurd hbrace hk
    · rfl
    · rfl
  | passed => rfl
  | behind => rfl

/-- A test of the next two words that no closing brace passes gives the same at aligned places. -/
theorem test_eq (h : Aligned semicolon back p p') {test : Word → Word → Bool}
    (ht : ∀ v w, v.kind = .rightBrace → test v w = false) :
    test p'.peek (p'.lookAhead 1) = test p.peek (p.lookAhead 1) := by
  by_cases hk : p.peek.kind = .rightBrace
  · rw [h.peek_eq, ht _ _ hk, ht _ _ hk]
  · rw [h.peek_eq, h.lookAhead_eq hk]

end Aligned

/-- Places that correspond are aligned if no semicolon is next. -/
theorem Beside.aligned_of_ne (h : Beside semicolon back p p') (hs : semicolon.kind = .semicolon)
    (hk : p.peek.kind ≠ .semicolon) : Aligned semicolon back p p' := by
  cases h with
  | aligned h => exact h
  | here => exact absurd hs hk

/-- Places that correspond are aligned where the last word was no closing brace. -/
theorem Beside.aligned_of_not_afterBrace (h : Beside semicolon back p p')
    (hflag : p.afterBrace = false) : Aligned semicolon back p p' := by
  cases h with
  | aligned h => exact h
  | here => cases hflag

/-- No semicolon comes behind the semicolon. -/
theorem Erasable.kind_ne (h : Erasable semicolon back) (flag : Bool) :
    (Spot.mk back flag).peek.kind ≠ .semicolon := by
  intro hk
  have hfollows := h.follows
  rw [show (Spot.start back).peek.kind = .semicolon from hk] at hfollows
  cases hfollows

/-- Behind the semicolon the places are aligned. -/
theorem Erasable.aligned_advance (h : Erasable semicolon back) :
    Aligned semicolon back (Spot.mk (semicolon :: back) true).advance ⟨back, !back.isEmpty⟩ := by
  have hflag : (semicolon.kind == .rightBrace) = false := by
    rw [h.kind_eq]
    rfl
  simpa [Spot.advance, hflag] using Aligned.passed

end

/-! ## Two readers -/

namespace Reader

/-- In a sequence the second reader goes on from the first one. -/
theorem bind_apply_of_clean {α β : Type} {r : Reader α} {f : α → Reader β} {p q : Spot} {a : α}
    (h : r p = ⟨some a, true, q⟩) : (r >>= f) p = f a q := by
  rw [bind_apply_of_some h]
  rfl

/-- A sequence that ends without an error is one of readers that do. -/
theorem exists_of_bind {α β : Type} {r : Reader α} {f : α → Reader β} {p q : Spot} {b : β}
    (h : (r >>= f) p = ⟨some b, true, q⟩) :
    ∃ a m, r p = ⟨some a, true, m⟩ ∧ f a m = ⟨some b, true, q⟩ := by
  rcases hr : r p with ⟨_ | a, clean, m⟩
  · rw [bind_apply_of_none hr] at h
    cases h
  · rw [bind_apply_of_some hr] at h
    rcases hf : f a m with ⟨value, clean', q'⟩
    rw [hf] at h
    simp only [Reading.mk.injEq, Bool.and_eq_true] at h
    obtain ⟨rfl, ⟨rfl, rfl⟩, rfl⟩ := h
    exact ⟨a, m, rfl, hf⟩

section

variable (semicolon : Word) (back : List Word)

/-- What one reader reads from a place without an error the other one reads from the other place;
they end at corresponding places, the other one with less words to come than a bound. -/
def MatchesAt {α : Type} (r r' : Reader α) (left : α → Nat) (p p' : Spot) : Prop :=
  ∀ a q, r p = ⟨some a, true, q⟩ →
    ∃ q', r' p' = ⟨some a, true, q'⟩ ∧ Beside semicolon back q q' ∧ q'.words.length < left a

/-- What one reader reads without an error the other one reads from the corresponding place, where
less words than a bound are to come. -/
def Matches {α : Type} (bound : Nat) (r r' : Reader α) : Prop :=
  ∀ p p', Beside semicolon back p p' → p'.words.length < bound →
    MatchesAt semicolon back r r' (fun _ => p'.words.length + 1) p p'

end

variable {semicolon : Word} {back : List Word} {α β : Type} {n : Nat} {p p' : Spot}
  {r r' : Reader α} {f f' : α → Reader β} {left : α → Nat} {last : β → Nat}

/-! ## Sequences -/

theorem MatchesAt.mono {more : α → Nat} (h : MatchesAt semicolon back r r' left p p')
    (hle : ∀ a, left a ≤ more a) : MatchesAt semicolon back r r' more p p' := by
  intro a q hr
  obtain ⟨q', hr', hq, hlt⟩ := h a q hr
  exact ⟨q', hr', hq, Nat.lt_of_lt_of_le hlt (hle a)⟩

/-- Two readers in sequence. -/
theorem MatchesAt.bind (hr : MatchesAt semicolon back r r' left p p')
    (hf : ∀ a q q', r p = ⟨some a, true, q⟩ → Beside semicolon back q q' →
      q'.words.length < left a → MatchesAt semicolon back (f a) (f' a) last q q') :
    MatchesAt semicolon back (r >>= f) (r' >>= f') last p p' := by
  intro b q h
  obtain ⟨a, m, hra, hfa⟩ := exists_of_bind h
  obtain ⟨m', hra', hm, hlt⟩ := hr a m hra
  obtain ⟨q', hfa', hq⟩ := hf a m m' hra hm hlt b q hfa
  exact ⟨q', by rw [bind_apply_of_some hra', hfa']; rfl, hq⟩

/-- Two readers in sequence. -/
theorem Matches.bind (hr : Matches semicolon back n r r')
    (hf : ∀ a, Matches semicolon back n (f a) (f' a)) :
    Matches semicolon back n (r >>= f) (r' >>= f') := by
  intro p p' hp hn
  refine (hr p p' hp hn).bind fun a q q' _ hq hlt => ?_
  exact (hf a q q' hq (by omega)).mono fun _ => by omega

/-- The first readers end in the same value without an error. -/
theorem MatchesAt.bind_clean {a : α} {q q' : Spot} (hr : r p = ⟨some a, true, q⟩)
    (hr' : r' p' = ⟨some a, true, q'⟩) (hf : MatchesAt semicolon back (f a) (f' a) last q q') :
    MatchesAt semicolon back (r >>= f) (r' >>= f') last p p' := by
  intro b m hb
  rw [bind_apply_of_clean hr] at hb
  obtain ⟨m', hb', hm⟩ := hf b m hb
  exact ⟨m', by rw [bind_apply_of_clean hr', hb'], hm⟩

/-- The first readers count the words to come. -/
theorem MatchesAt.bind_bound {f f' : Nat → Reader β}
    (hf : MatchesAt semicolon back (f (p.words.length + 1)) (f' (p'.words.length + 1)) last p p') :
    MatchesAt semicolon back (bound >>= f) (bound >>= f') last p p' := by
  intro b q hb
  have hbound (p : Spot) : bound p = ⟨some (p.words.length + 1), true, p⟩ := rfl
  rw [bind_apply_of_clean (hbound p)] at hb
  obtain ⟨q', hb', hq⟩ := hf b q hb
  exact ⟨q', by rw [bind_apply_of_clean (hbound p'), hb'], hq⟩

/-- A look at the next word comes first. -/
theorem MatchesAt.bind_peek {f f' : Word → Reader β} (hp : Aligned semicolon back p p')
    (hf : MatchesAt semicolon back (f p.peek) (f' p.peek) last p p') :
    MatchesAt semicolon back (peek >>= f) (peek >>= f') last p p' :=
  have hpeek : peek p' = ⟨some p.peek, true, p'⟩ := by
    rw [← hp.peek_eq]
    rfl
  .bind_clean rfl hpeek hf

/-- A look whether the next word fits comes first. -/
theorem MatchesAt.bind_check {f f' : Bool → Reader β} {e : Expectation}
    (hp : Aligned semicolon back p p')
    (hf : MatchesAt semicolon back (f (e.accepts p.peek.kind)) (f' (e.accepts p.peek.kind)) last
      p p') :
    MatchesAt semicolon back (check e >>= f) (check e >>= f') last p p' :=
  .bind_clean (check_apply e p) (by rw [check_apply, hp.peek_eq]) hf

/-- The next word is passed over first. -/
theorem MatchesAt.bind_advance {f f' : Word → Reader β} (hp : Aligned semicolon back p p')
    (hf : MatchesAt semicolon back (f p.peek) (f' p.peek) last p.advance p'.advance) :
    MatchesAt semicolon back (advance >>= f) (advance >>= f') last p p' := by
  have hadvance : Reader.advance p' = ⟨some p.peek, true, p'.advance⟩ := by
    rw [← hp.peek_eq]
    rfl
  exact .bind_clean rfl hadvance hf

/-- Where the first reader does not read without an error nothing is to be shown. -/
theorem MatchesAt.of_fails (h : ∀ a q, r p ≠ ⟨some a, true, q⟩) :
    MatchesAt semicolon back r r' left p p' :=
  fun a q hr => absurd hr (h a q)

/-- A reader that goes nowhere and does the same at both places. -/
theorem MatchesAt.of_rest (hp : Beside semicolon back p p') (hleft : ∀ a, p'.words.length < left a)
    (h : ∀ a q, r p = ⟨some a, true, q⟩ → q = p ∧ r' p' = ⟨some a, true, p'⟩) :
    MatchesAt semicolon back r r' left p p' := by
  intro a q hr
  obtain ⟨rfl, hr'⟩ := h a q hr
  exact ⟨p', hr', hp, hleft a⟩

theorem matchesAt_pure (a : α) (hp : Beside semicolon back p p')
    (hleft : p'.words.length < left a) :
    MatchesAt semicolon back (pure a) (pure a) left p p' := by
  intro b q hb
  cases hb
  exact ⟨p', rfl, hp, hleft⟩

theorem matches_pure (a : α) : Matches semicolon back n (pure a) (pure a) :=
  fun _ _ hp _ => matchesAt_pure a hp (Nat.lt_succ_self _)

theorem matches_fail : Matches semicolon back n (fail : Reader α) r' :=
  fun _ _ _ _ => .of_fails fun _ _ h => by cases h

theorem matches_require (holds : Bool) :
    Matches semicolon back n (require holds) (require holds) :=
  fun _ p' hp _ => .of_rest hp (fun _ => Nat.lt_succ_self _) fun a q h => by
    cases h
    exact ⟨rfl, rfl⟩

theorem Matches.ite {c : Prop} [Decidable c] {other other' : Reader α}
    (h : Matches semicolon back n r r') (ho : Matches semicolon back n other other') :
    Matches semicolon back n (if c then r else other) (if c then r' else other') := by
  split
  · exact h
  · exact ho

theorem Matches.map (g : α → β) (h : Matches semicolon back n r r') :
    Matches semicolon back n (g <$> r) (g <$> r') :=
  h.bind fun a => matches_pure (g a)

/-! ## Repetition -/

/-- Words left after one step of a repetition from a place: fewer unless the repetition ends. -/
def stepLeft (p : Spot) : α ⊕ β → Nat
  | .inl _ => p.words.length
  | .inr _ => p.words.length + 1

/-- Repetition: each step that does not end it uses up words. -/
theorem matchesAt_loop {step step' : α → Reader (α ⊕ β)}
    (hstep : ∀ a p p', Beside semicolon back p p' → p'.words.length < n →
      MatchesAt semicolon back (step a) (step' a) (stepLeft p') p p')
    {k k' : Nat} (a : α) (hp : Beside semicolon back p p') (hn : p'.words.length < n)
    (hk : p'.words.length < k') :
    MatchesAt semicolon back (loop step k a) (loop step' k' a) (fun _ => p'.words.length + 1)
      p p' := by
  induction k generalizing k' a p p' with
  | zero => exact matches_fail p p' hp hn
  | succ k ih =>
    cases k' with
    | zero => omega
    | succ k' =>
      refine (hstep a p p' hp hn).bind fun x q q' _ hq hlt => ?_
      cases x with
      | inl a =>
        have hlt : q'.words.length < p'.words.length := hlt
        exact (ih a hq (by omega) (by omega)).mono fun _ => by omega
      | inr b => exact matchesAt_pure b hq hlt

/-- Repetition with enough steps for the words to come. -/
theorem matches_loop {step step' : α → Reader (α ⊕ β)}
    (hstep : ∀ a p p', Beside semicolon back p p' → p'.words.length < n →
      MatchesAt semicolon back (step a) (step' a) (stepLeft p') p p') (a : α) :
    Matches semicolon back n (bound >>= fun k => loop step k a)
      (bound >>= fun k => loop step' k a) := by
  intro p p' hp hn
  exact .bind_bound (matchesAt_loop hstep a hp hn (Nat.lt_succ_self _))

/-! ## Words -/

/-- A look at the next word that is the same at the semicolon as behind it. -/
theorem matches_check (h : Erasable semicolon back) {e : Expectation}
    (hs : e.accepts .semicolon = false)
    (he : ∀ kind : TokenKind, kind.followsEnd = true → e.accepts kind = false) :
    Matches semicolon back n (check e) (check e) := by
  intro p p' hp hn
  refine .of_rest hp (fun _ => Nat.lt_succ_self _) fun a q hcheck => ?_
  have hsame : e.accepts p'.peek.kind = e.accepts p.peek.kind := by
    cases hp with
    | aligned hp => rw [hp.peek_eq]
    | here =>
      rw [Spot.peek_cons, h.kind_eq, hs]
      exact he _ h.follows
  simp only [check_apply, Reading.mk.injEq] at hcheck
  obtain ⟨hvalue, -, rfl⟩ := hcheck
  exact ⟨rfl, by rw [check_apply, hsame, hvalue]⟩

/-- Behind a word there are no more words to come than before it. -/
theorem length_words_advance_lt (p : Spot) : p.advance.words.length < p.words.length + 1 := by
  rw [Spot.words_advance, List.length_tail]
  omega

/-- Words to come after a word of some kind has been passed over if there was one. -/
def skipLeft (p : Spot) (found : Bool) : Nat :=
  if found then p.words.length else p.words.length + 1

theorem skipLeft_le (p : Spot) (found : Bool) : skipLeft p found ≤ p.words.length + 1 := by
  cases found with
  | true => exact Nat.le_succ _
  | false => exact Nat.le_refl _

/-- At aligned places a word of some kind is passed over if there is one. -/
theorem matchesAt_skipKind (hp : Aligned semicolon back p p') {kind : TokenKind}
    (hend : kind ≠ .endOfFile) :
    MatchesAt semicolon back (skipKind kind) (skipKind kind) (skipLeft p') p p' := by
  intro found q hskip
  rw [skipKind_apply] at hskip ⊢
  rw [hp.peek_eq]
  split at hskip
  · rename_i hkind
    cases hskip
    rw [if_pos hkind]
    have hwords := words_eq_cons (p := p') (by rw [hp.peek_eq, ← hkind]; exact hend)
    exact ⟨_, rfl, hp.advance, by rw [skipLeft, if_pos rfl, hwords]; exact Nat.lt_succ_self _⟩
  · rename_i hkind
    cases hskip
    rw [if_neg hkind]
    exact ⟨_, rfl, .aligned hp, Nat.lt_succ_self _⟩

/-- A word of a kind that comes neither at the semicolon nor behind it is passed over if there is
one. -/
theorem matchesAt_skipKind_of_not_followsEnd (h : Erasable semicolon back)
    (hp : Beside semicolon back p p') {kind : TokenKind} (hk : kind ≠ .semicolon)
    (hf : kind.followsEnd = false) :
    MatchesAt semicolon back (skipKind kind) (skipKind kind) (skipLeft p') p p' := by
  cases hp with
  | aligned hp =>
    refine matchesAt_skipKind hp ?_
    rintro rfl
    cases hf
  | here =>
    intro found q hskip
    rw [skipKind_apply, Spot.peek_cons, h.kind_eq, if_neg hk] at hskip
    cases hskip
    rw [skipKind_apply, if_neg]
    · exact ⟨_, rfl, .here, Nat.lt_succ_self _⟩
    · intro hkind
      have hback : (Spot.start back).peek.kind.followsEnd = true := h.follows
      rw [show (Spot.start back).peek.kind = kind from hkind.symm, hf] at hback
      cases hback

/-- A word of a kind that comes neither at the semicolon nor behind it is passed over if there is
one. -/
theorem matches_skipKind (h : Erasable semicolon back) {kind : TokenKind}
    (hk : kind ≠ .semicolon) (hf : kind.followsEnd = false) :
    Matches semicolon back n (skipKind kind) (skipKind kind) :=
  fun _ p' hp _ => (matchesAt_skipKind_of_not_followsEnd h hp hk hf).mono (skipLeft_le p')

/-- Past a word that fits where neither a semicolon nor a closing brace does the places are
aligned. -/
theorem MatchesAt.bind_expect (h : Erasable semicolon back) {e : Expectation}
    (he : ∀ kind, e.accepts kind = true →
      kind ≠ .semicolon ∧ kind ≠ .rightBrace ∧ kind ≠ .endOfFile) {f f' : Word → Reader β}
    (hp : Beside semicolon back p p')
    (hf : Aligned semicolon back p.advance p'.advance →
      p'.advance.words.length < p'.words.length →
        MatchesAt semicolon back (f p.peek) (f' p.peek) last p.advance p'.advance) :
    MatchesAt semicolon back (expect e >>= f) (expect e >>= f') last p p' := by
  by_cases hk : e.accepts p.peek.kind = true
  · obtain ⟨hsemicolon, hbrace, hend⟩ := he _ hk
    have hp := hp.aligned_of_ne h.kind_eq hsemicolon
    have hexpect (p : Spot) (hk : e.accepts p.peek.kind = true) :
        expect e p = ⟨some p.peek, true, p.advance⟩ := by rw [expect_apply, if_pos hk]
    have hwords := words_eq_cons (p := p') (by rwa [hp.peek_eq])
    have hexpect' := hexpect p' (by rwa [hp.peek_eq])
    intro b q hb
    rw [bind_apply_of_clean (hexpect p hk)] at hb
    obtain ⟨q', hfa', hq⟩ := hf (hp.aligned_advance hbrace)
      (by rw [hwords]; exact Nat.lt_succ_self _) b q hb
    exact ⟨q', by rw [bind_apply_of_some hexpect', hp.peek_eq, hfa']; rfl, hq⟩
  · refine .of_fails fun b q hb => ?_
    rw [bind_apply_of_none (by rw [expect_apply, if_neg hk])] at hb
    cases hb

/-- A word that fits is passed over where no semicolon fits. -/
theorem matches_expect (h : Erasable semicolon back) {e : Expectation}
    (he : e.accepts .semicolon = false) :
    Matches semicolon back n (expect e) (expect e) := by
  intro p p' hp hn a q hexpect
  rw [expect_apply] at hexpect ⊢
  cases hp with
  | aligned hp =>
    rw [hp.peek_eq]
    split at hexpect
    · rename_i hkind
      cases hexpect
      rw [if_pos hkind]
      exact ⟨_, rfl, hp.advance, length_words_advance_lt p'⟩
    · cases hexpect
  | here =>
    rw [Spot.peek_cons, h.kind_eq, he] at hexpect
    cases hexpect

/-- A word of a kind other than a semicolon is passed over. -/
theorem matches_expectKind (h : Erasable semicolon back) {kind : TokenKind}
    (hk : kind ≠ .semicolon) :
    Matches semicolon back n (expectKind kind) (expectKind kind) :=
  matches_expect h (by simpa using hk)

/-- A name is passed over. -/
theorem matches_name (h : Erasable semicolon back) : Matches semicolon back n name name :=
  matches_expect h rfl

/-! ## Recovery -/

/-- Where the parse recovers from no error a synchronization point changes nothing. -/
theorem MatchesAt.synchronized {m : Nat} (h : MatchesAt semicolon back r r' (fun _ => m) p p')
    (stop : Expectation) :
    MatchesAt semicolon back (synchronized stop r) (synchronized stop r') (fun _ => m) p p' := by
  intro value q hr
  rcases hread : r p with ⟨_ | a, clean, m⟩
  · simp only [Reader.synchronized, hread] at hr
    cases hr
  · simp only [Reader.synchronized, hread, Reading.mk.injEq] at hr
    obtain ⟨hvalue, rfl, rfl⟩ := hr
    cases hvalue
    obtain ⟨q', hread', hq⟩ := h a m hread
    exact ⟨q', by simp only [Reader.synchronized, hread'], hq⟩

/-- Where the parse recovers from no error a synchronization point changes nothing. -/
theorem Matches.synchronized (h : Matches semicolon back n r r') (stop : Expectation) :
    Matches semicolon back n (synchronized stop r) (synchronized stop r') :=
  fun p p' hp hn => (h p p' hp hn).synchronized stop

end Reader

end ExprLang
