import ExprLang.Parser.Recovery
import ExprLang.Proofs.Reader.Basic
import ExprLang.Proofs.Token.Proper

/-!
# Tapes as words

A tape stands at a place among the words of its source.  Moving on the tape
moves that place; tokens for the end of the source, which may be consumed and
given back any number of times, do not count.

Main definitions:

- Definition {lit}`Tape.spot`: where a tape stands.
- Definition {lit}`Tape.Regular`: proper tokens, then the end of the source.
- Definition {lit}`Tape.Moves`: moving forward on a tape.

Main results:

- Theorem {lit}`Tape.Regular.spot_advance`: moving forward by one token.
- Theorem {lit}`Tape.Regular.skip`: skipping tokens after an error.
-/

namespace ExprLang.Tape

/-- The words still to come. -/
def words (t : Tape) : List Word :=
  (t.pending.filter (·.kind != .endOfFile)).map Token.word

/-- Where a tape stands. -/
def spot (t : Tape) : Spot :=
  ⟨t.words, !t.words.isEmpty && t.consumed.head?.any (·.kind == .rightBrace)⟩

@[simp] theorem words_spot (t : Tape) : t.spot.words = t.words := rfl

/-- What is to come on a tape are proper tokens and then only the end of the source. -/
def Regular (t : Tape) : Prop :=
  ∃ tokens m, t.pending = tokens ++ List.replicate m (.endOfFile t.finish) ∧
    ∀ token ∈ tokens, token.Proper

namespace Regular

variable {t : Tape}

/-- A tape at the end of the source, or before a proper token. -/
theorem cases_peek (h : t.Regular) :
    (t.words = [] ∧ t.peek = .endOfFile t.finish ∧ t.advance.2.words = [] ∧
        t.advance.2.Regular) ∨
      (t.peek.Proper ∧ t.words = t.peek.word :: t.advance.2.words ∧ t.advance.2.Regular ∧
        t.pending = t.peek :: t.advance.2.pending) := by
  obtain ⟨consumed, pending, finish⟩ := t
  obtain ⟨tokens, m, hpending, hproper⟩ := h
  dsimp only at hpending
  subst hpending
  cases tokens with
  | nil =>
    left
    have hwords (n : Nat) (consumed : List Token) :
        words ⟨consumed, List.replicate n (.endOfFile finish), finish⟩ = [] := by
      simp [words, Token.endOfFile]
    cases m with
    | zero => exact ⟨hwords 0 _, rfl, hwords 0 _, [], 0, rfl, nofun⟩
    | succ m => exact ⟨hwords _ _, rfl, hwords m _, [], m, rfl, nofun⟩
  | cons token tokens =>
    right
    have hp : token.Proper := hproper token (List.mem_cons_self ..)
    have ht : ∀ token ∈ tokens, token.Proper := fun other ho =>
      hproper other (List.mem_cons_of_mem _ ho)
    refine ⟨hp, ?_, ⟨tokens, m, rfl, ht⟩, rfl⟩
    have hkind : (token.kind != .endOfFile) = true := by simpa using hp.kind_ne
    simp [words, advance, peek, lookAhead, hkind]

/-- The tape stays regular when it moves forward. -/
theorem advance (h : t.Regular) : t.advance.2.Regular := by
  rcases h.cases_peek with ⟨-, -, -, h⟩ | ⟨-, -, h, -⟩
  · exact h
  · exact h

/-- The next token is the next word. -/
theorem word_peek (h : t.Regular) : t.peek.word = t.spot.peek := by
  rcases h.cases_peek with ⟨hw, hp, -, -⟩ | ⟨-, hw, -, -⟩
  · rw [hp]
    simp [spot, hw, Spot.peek, Spot.lookAhead, Token.word, Token.endOfFile, Word.endOfFile]
  · simp [spot, hw, Spot.peek, Spot.lookAhead]

/-- The kind of the next token is that of the next word. -/
theorem kind_peek (h : t.Regular) : t.spot.peek.kind = t.peek.kind := by
  rw [← h.word_peek]
  rfl

/-- The next token is proper unless the source ends. -/
theorem proper_peek (h : t.Regular) (hk : t.peek.kind ≠ .endOfFile) : t.peek.Proper := by
  rcases h.cases_peek with ⟨-, hp, -, -⟩ | ⟨hp, -, -, -⟩
  · exact absurd (by rw [hp]; rfl) hk
  · exact hp

/-- The words after a token that is not the end of the source. -/
theorem words_eq_cons (h : t.Regular) (hk : t.peek.kind ≠ .endOfFile) :
    t.words = t.peek.word :: t.advance.2.words := by
  rcases h.cases_peek with ⟨-, hp, -, -⟩ | ⟨-, hw, -, -⟩
  · exact absurd (by rw [hp]; rfl) hk
  · exact hw

/-- There are no words exactly at the end of the source. -/
theorem words_eq_nil_iff (h : t.Regular) : t.words = [] ↔ t.peek.kind = .endOfFile := by
  rcases h.cases_peek with ⟨hw, hp, -, -⟩ | ⟨hp, hw, -, -⟩
  · simp [hw, hp, Token.endOfFile]
  · simp [hw, hp.kind_ne]

/-- Moving forward by one token moves past one word. -/
theorem spot_advance (h : t.Regular) : t.advance.2.spot = t.spot.advance := by
  rcases h.cases_peek with ⟨hw, hp, ha, -⟩ | ⟨-, hw, -, -⟩
  · simp [spot, hw, ha, Spot.advance]
  · simp [spot, hw, Spot.advance]

/-- A token further ahead is a word further ahead. -/
theorem word_lookAhead (h : t.Regular) (n : Nat) : (t.lookAhead n).word = t.spot.lookAhead n := by
  induction n generalizing t with
  | zero => exact h.word_peek
  | succ n ih =>
    have hnext := ih h.advance
    rw [lookAhead_advance] at hnext
    rw [hnext, h.spot_advance]
    unfold Spot.advance Spot.lookAhead
    split <;> rename_i hw <;> rw [hw] <;> rfl

/-- The words to come are no more than the tokens to come. -/
theorem length_words_le (t : Tape) : t.words.length ≤ t.pending.length := by
  unfold words
  rw [List.length_map]
  exact List.length_filter_le ..

end Regular

/-! ## Moving forward -/

/-- Moving forward on a tape: some tokens of the endless sequence have been consumed. -/
def Moves (s t : Tape) : Prop :=
  t.finish = s.finish ∧ ∃ used m,
    s.pending ++ List.replicate m (.endOfFile s.finish) = used ++ t.pending ∧
      t.consumed = used.reverse ++ s.consumed

namespace Moves

variable {s t u : Tape}

/-- A tape may stay where it is. -/
theorem refl (t : Tape) : t.Moves t := ⟨rfl, [], 0, by simp, by simp⟩

/-- Moving forward in steps. -/
theorem trans (h : s.Moves t) (h' : t.Moves u) : s.Moves u := by
  obtain ⟨hf, used, m, hp, hc⟩ := h
  obtain ⟨hf', used', m', hp', hc'⟩ := h'
  refine ⟨hf'.trans hf, used ++ used', m + m', ?_, ?_⟩
  · rw [← List.replicate_append_replicate, ← List.append_assoc, hp, List.append_assoc,
      ← hf, hp', List.append_assoc]
  · rw [hc', hc, List.reverse_append, List.append_assoc]

/-- Moving forward by one token. -/
theorem advance (t : Tape) : t.Moves t.advance.2 := by
  obtain ⟨consumed, pending, finish⟩ := t
  cases pending with
  | nil => exact ⟨rfl, [.endOfFile finish], 1, rfl, rfl⟩
  | cons token pending => exact ⟨rfl, [token], 0, by simp [Tape.advance, peek, lookAhead], rfl⟩

/-- No token is given back. -/
theorem consumedCount_le (h : s.Moves t) : s.consumedCount ≤ t.consumedCount := by
  obtain ⟨-, used, m, -, hc⟩ := h
  simp [consumedCount, hc]

/-- No word comes back. -/
theorem length_words_le (h : s.Moves t) : t.words.length ≤ s.words.length := by
  obtain ⟨-, used, m, hp, -⟩ := h
  have hwords := congrArg (fun tokens : List Token =>
    (tokens.filter (·.kind != .endOfFile)).length) hp
  simp only [List.filter_append, List.length_append, List.filter_replicate, Token.endOfFile,
    bne_self_eq_false, Bool.false_eq_true, if_false, List.length_nil] at hwords
  unfold words
  simp only [List.length_map]
  omega

/-- Where tokens were consumed, words were consumed or there were none. -/
theorem length_words_lt_iff (h : s.Moves t) (hs : s.Regular) (hw : s.words ≠ []) :
    t.words.length < s.words.length ↔ s.consumedCount < t.consumedCount := by
  obtain ⟨-, used, m, hp, hc⟩ := h
  have hwords := congrArg (fun tokens : List Token =>
    (tokens.filter (·.kind != .endOfFile)).length) hp
  simp only [List.filter_append, List.length_append, List.filter_replicate, Token.endOfFile,
    bne_self_eq_false, Bool.false_eq_true, if_false, List.length_nil] at hwords
  simp only [words, List.length_map, consumedCount, hc, List.length_append, List.length_reverse]
  cases used with
  | nil =>
    simp only [List.filter_nil, List.length_nil] at hwords ⊢
    omega
  | cons token used =>
    -- the first token that was consumed is the first one that was to come
    have hproper : (token.kind != .endOfFile) = true := by
      rcases hs.cases_peek with ⟨hnil, -⟩ | ⟨hproper, -, -, hpending⟩
      · exact absurd hnil hw
      · rw [hpending] at hp
        simp only [List.cons_append, List.cons.injEq] at hp
        rw [← hp.1]
        simpa using hproper.kind_ne
    rw [List.filter_cons, if_pos hproper] at hwords
    simp only [List.length_cons] at hwords ⊢
    omega

/-- Where no token was consumed, the tape stands where it stood. -/
theorem spot_eq_of_consumedCount_eq (h : s.Moves t) (hc : t.consumedCount = s.consumedCount) :
    t.spot = s.spot := by
  obtain ⟨-, used, m, hp, hcon⟩ := h
  have hused : used = [] := by
    simpa [consumedCount, hcon] using hc
  subst hused
  have hwords : t.words = s.words := by
    have := congrArg (fun tokens : List Token =>
      (tokens.filter (·.kind != .endOfFile)).map Token.word) hp
    simpa [List.filter_append, Token.endOfFile, words] using this.symm
  simp only [List.reverse_nil, List.nil_append] at hcon
  simp [spot, hwords, hcon]

end Moves

/-! ## Skipping -/

namespace Regular

variable {s t : Tape} {stop : Expectation}

/-- Skipping tokens within a sufficient bound is skipping words. -/
theorem skipWithin (h : t.Regular) {n : Nat} (hn : t.words.length < n) (mayStop : Bool)
    (depth : Nat) :
    (t.skipWithin stop n mayStop depth).Regular ∧ t.Moves (t.skipWithin stop n mayStop depth) ∧
      (t.skipWithin stop n mayStop depth).spot =
        Spot.skipWords stop mayStop depth t.words t.spot.afterBrace := by
  induction n generalizing t mayStop depth with
  | zero => exact absurd hn (Nat.not_lt_zero _)
  | succ n ih =>
    rw [Tape.skipWithin]
    rcases h.cases_peek with ⟨hw, hp, ha, hr⟩ | ⟨hp, hw, hr, -⟩
    · have hkind : t.peek.kind = .endOfFile := by
        rw [hp]
        rfl
      have hspot : t.spot = ⟨[], false⟩ := by simp [spot, hw]
      have hspot' : t.advance.2.spot = ⟨[], false⟩ := by simp [spot, ha]
      simp only [hkind, hw, Spot.skipWords]
      split
      · exact ⟨h, .refl t, hspot⟩
      · exact ⟨hr, .advance t, hspot'⟩
    · -- the next token is a word: both skip it, or both stop before it
      have hkind : (t.peek.kind == .endOfFile) = false := by simpa using hp.kind_ne
      have hstay : t.spot = ⟨t.peek.word :: t.advance.2.words, t.spot.afterBrace⟩ := by
        rw [← hw]
        rfl
      have hpast : t.advance.2.spot = ⟨t.advance.2.words,
          !t.advance.2.words.isEmpty && t.peek.kind == .rightBrace⟩ := by
        simp [spot]
      have hlt : t.advance.2.words.length < n := by
        rw [hw, List.length_cons] at hn
        omega
      have hnext (depth : Nat) :
          (t.advance.2.skipWithin stop n true depth).Regular ∧
            t.Moves (t.advance.2.skipWithin stop n true depth) ∧
            (t.advance.2.skipWithin stop n true depth).spot =
              Spot.skipWords stop true depth t.advance.2.words
                (!t.advance.2.words.isEmpty && t.peek.kind == .rightBrace) := by
        obtain ⟨hreg, hmove, hsame⟩ := ih hr hlt true depth
        exact ⟨hreg, (Moves.advance t).trans hmove, by rw [hsame, hpast]⟩
      simp only [hw, Spot.skipWords, hkind, Bool.false_or, Bool.and_assoc, Token.kind_word]
      split
      · exact ⟨h, .refl t, hstay⟩
      · cases hk : t.peek.kind with
        | endOfFile => exact absurd hk hp.kind_ne
        | semicolon =>
          by_cases hd : depth = 0
          · simp only [if_pos hd]
            refine ⟨hr, .advance t, ?_⟩
            rw [hpast, hk]
          · simp only [if_neg hd]
            rw [hk] at hnext
            exact hnext depth
        | _ =>
          rw [hk] at hnext
          exact hnext _

/-- Skipping after an error is skipping words.  The error is one of what began on the tape `s`. -/
theorem skip (hs : s.Regular) (h : t.Regular) (hm : s.Moves t) :
    (t.skip stop s.consumedCount).Regular ∧ s.Moves (t.skip stop s.consumedCount) ∧
      (t.skip stop s.consumedCount).spot = t.spot.skip stop s.words.length := by
  have hn : t.words.length < t.pending.length + 1 := Nat.lt_succ_of_le (length_words_le t)
  obtain ⟨hr, hmove, hspot⟩ :=
    h.skipWithin hn (decide (s.consumedCount < t.consumedCount)) 0
  refine ⟨hr, hm.trans hmove, hspot.trans ?_⟩
  unfold Spot.skip
  rw [words_spot]
  cases hw : t.words with
  | nil => rfl
  | cons w ws =>
    have hs0 : s.words ≠ [] := fun e => by
      have := hm.length_words_le
      rw [e, hw] at this
      simp at this
    rw [← hw, decide_eq_decide.2 (hm.length_words_lt_iff hs hs0)]

end Regular

end ExprLang.Tape

namespace ExprLang.Spot

/-- Skipping leaves no more words, and fewer if it may not stop at once. -/
theorem length_skipWords_lt (stop : Expectation) (depth : Nat) (ws : List Word)
    (afterBrace mayStop : Bool) :
    (skipWords stop mayStop depth ws afterBrace).words.length ≤ ws.length ∧
      (mayStop = false → ws ≠ [] →
        (skipWords stop mayStop depth ws afterBrace).words.length < ws.length) := by
  induction ws generalizing mayStop depth afterBrace with
  | nil => exact ⟨Nat.le_refl _, fun _ h => absurd rfl h⟩
  | cons w ws ih =>
    have hlt (depth : Nat) (afterBrace : Bool) :
        (skipWords stop true depth ws afterBrace).words.length < (w :: ws).length :=
      Nat.lt_succ_of_le (ih depth afterBrace true).1
    have hrest (afterBrace : Bool) :
        (Spot.mk ws afterBrace).words.length < (w :: ws).length := Nat.lt_succ_self _
    rw [skipWords]
    split
    · rename_i hstop
      refine ⟨Nat.le_refl _, fun hm => ?_⟩
      simp [hm] at hstop
    · dsimp only
      split
      · split
        · exact ⟨Nat.le_of_lt (hrest _), fun _ _ => hrest _⟩
        · exact ⟨Nat.le_of_lt (hlt ..), fun _ _ => hlt ..⟩
      all_goals exact ⟨Nat.le_of_lt (hlt ..), fun _ _ => hlt ..⟩

/-- After an error words have been used up, if there were any. -/
theorem length_skip_lt {p : Spot} (stop : Expectation) {mark : Nat} (hm : mark ≠ 0)
    (h : p.words.length ≤ mark) : (p.skip stop mark).words.length < mark := by
  obtain ⟨hle, hlt⟩ := length_skipWords_lt stop 0 p.words p.afterBrace
    (decide (p.words.length < mark))
  unfold skip
  by_cases hmark : p.words.length < mark
  · omega
  · have hne : p.words ≠ [] := fun e => by
      rw [e] at h hmark
      simp at hmark
      omega
    have := hlt (decide_eq_false hmark) hne
    omega

end ExprLang.Spot
