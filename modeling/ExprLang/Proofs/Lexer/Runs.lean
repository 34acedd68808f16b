import ExprLang.Proofs.Lexer.Words

/-!
# Runs of a lexer

A lexer is asked for one token after the other.  What it gives and where it gets
depends on one match at a time, however many matches a call allows for.

Main definitions:

- Definition {lit}`Lexer.Gives`: the tokens of the first calls and the lexer after
  them.

Main results:

- Theorem {lit}`Lexer.step_induct`: induction along the matches of a lexer.
- Theorems {lit}`Lexer.tokens_of_next_some` and {lit}`Lexer.tokens_of_next_none`: a
  call gives the first of the tokens that are still to come, or none is.
-/

namespace ExprLang.Lexer

variable {l m after : Lexer} {token : Token} {token? : Option Token}

/-! ## Matches -/

/-- A match uses up a character. -/
theorem length_rest_lt_of_step? (h : l.step? = some (token?, after)) :
    after.cursor.rest.length < l.cursor.rest.length := by
  rw [step?_eq] at h
  rcases Option.map_eq_some_iff.1 h with ⟨p, hp, hafter⟩
  cases hafter
  exact Grammar.length_rest_lt_of_piece? hp

/-- A match leaves the grammar. -/
theorem grammar_of_step? (hs : l.step? = some (token?, after)) : after.grammar = l.grammar := by
  rw [step?_eq] at hs
  obtain ⟨p, -, hpast⟩ := Option.map_eq_some_iff.1 hs
  cases hpast
  rfl

/-- There is no match only where no text is left. -/
theorem rest_eq_nil_of_step? (h : l.step? = none) : l.cursor.rest = [] := by
  rcases hrest : l.cursor.rest with _ | ⟨c, cs⟩
  · rfl
  · have hsome := isSome_step? (l := l) (by simp [hrest])
    rw [h] at hsome
    cases hsome

/-- What holds of a lexer at the end of the text, and of each lexer before a match if it holds
after the match, holds of every lexer. -/
theorem step_induct {P : Lexer → Prop} (stop : ∀ l, l.step? = none → P l)
    (move : ∀ l token? after, l.step? = some (token?, after) → P after → P l) (l : Lexer) :
    P l := by
  induction hn : l.cursor.rest.length using Nat.strongRecOn generalizing l with
  | _ n ih =>
    cases hs : l.step? with
    | none => exact stop l hs
    | some found =>
      rcases found with ⟨token?, after⟩
      have hlt := length_rest_lt_of_step? hs
      exact move l token? after hs (ih _ (hn ▸ hlt) after rfl)

/-! ## Calls -/

/-- Every number of matches that the text is no longer than is sufficient for a token. -/
theorem nextWithin_eq_next {n : Nat} (h : l.cursor.rest.length ≤ n) : nextWithin n l = l.next := by
  have hall (l : Lexer) : ∀ n k, l.cursor.rest.length ≤ n → l.cursor.rest.length ≤ k →
      nextWithin n l = nextWithin k l := by
    induction l using step_induct with
    | stop l hs =>
      intro n k _ _
      cases n <;> cases k <;> simp [nextWithin, hs]
    | move l token? after hs ih =>
      intro n k hn hk
      have hlt := length_rest_lt_of_step? hs
      cases n with
      | zero => omega
      | succ n =>
        cases k with
        | zero => omega
        | succ k =>
          have hnext := ih n k (by omega) (by omega)
          cases token? <;> simp [nextWithin, hs, hnext]
  exact hall l n _ h (Nat.le_refl _)

/-- At the end of the text a call gives nothing. -/
theorem next_of_step?_none (h : l.step? = none) : l.next = (none, l) := by
  simp [next, rest_eq_nil_of_step? h, nextWithin]

/-- A match that is dropped is passed over by a call. -/
theorem next_of_step?_drop (h : l.step? = some (none, after)) : l.next = after.next := by
  have hlt := length_rest_lt_of_step? h
  rw [← nextWithin_eq_next (Nat.le_succ _), nextWithin, h]
  exact nextWithin_eq_next (by omega)

/-- A match that becomes a token is what a call gives. -/
theorem next_of_step?_token (h : l.step? = some (some token, after)) :
    l.next = (some token, after) := by
  rw [← nextWithin_eq_next (Nat.le_succ _), nextWithin, h]

/-- A call leaves the grammar. -/
theorem grammar_of_next (h : l.next = (token?, after)) : after.grammar = l.grammar := by
  induction l using step_induct with
  | stop l hs =>
    rw [next_of_step?_none hs] at h
    cases h
    rfl
  | move l found? middle hs ih =>
    rw [← grammar_of_step? hs]
    cases found? with
    | none => exact ih (next_of_step?_drop hs ▸ h)
    | some found =>
      rw [next_of_step?_token hs] at h
      cases h
      rfl

/-! ## Tokens to come -/

/-- At the end of the text no token is to come. -/
theorem tokens_of_rest_nil (h : l.cursor.rest = []) : l.tokens = [] := by
  simp [tokens, h, tokensWithin]

/-- Every number of matches that the text is no longer than is sufficient for all tokens. -/
theorem tokensWithin_eq_tokens {n : Nat} (h : l.cursor.rest.length ≤ n) :
    tokensWithin n l = l.tokens := by
  have hall (l : Lexer) : ∀ n k, l.cursor.rest.length ≤ n → l.cursor.rest.length ≤ k →
      tokensWithin n l = tokensWithin k l := by
    induction l using step_induct with
    | stop l hs =>
      intro n k _ _
      cases n <;> cases k <;> simp [tokensWithin, hs]
    | move l token? after hs ih =>
      intro n k hn hk
      have hlt := length_rest_lt_of_step? hs
      cases n with
      | zero => omega
      | succ n =>
        cases k with
        | zero => omega
        | succ k =>
          have hnext := ih n k (by omega) (by omega)
          cases token? <;> simp [tokensWithin, hs, hnext]
  exact hall l n _ h (Nat.le_refl _)

/-- A match that is dropped leaves the tokens that are to come. -/
theorem tokens_of_step?_drop (h : l.step? = some (none, after)) : l.tokens = after.tokens := by
  have hlt := length_rest_lt_of_step? h
  rw [← tokensWithin_eq_tokens (Nat.le_succ _), tokensWithin, h]
  exact tokensWithin_eq_tokens (by omega)

/-- A match that becomes a token is the first of those that are to come. -/
theorem tokens_of_step?_token (h : l.step? = some (some token, after)) :
    l.tokens = token :: after.tokens := by
  have hlt := length_rest_lt_of_step? h
  rw [← tokensWithin_eq_tokens (Nat.le_succ _), tokensWithin, h]
  exact congrArg (token :: ·) (tokensWithin_eq_tokens (by omega))

/-- A call that gives a token gives the first of those that are to come. -/
theorem tokens_of_next_some (h : l.next = (some token, after)) :
    l.tokens = token :: after.tokens := by
  induction l using step_induct with
  | stop l hs =>
    rw [next_of_step?_none hs] at h
    cases h
  | move l token? middle hs ih =>
    cases token? with
    | none =>
      rw [next_of_step?_drop hs] at h
      rw [tokens_of_step?_drop hs]
      exact ih h
    | some found =>
      rw [next_of_step?_token hs] at h
      cases h
      exact tokens_of_step?_token hs

/-- A call that gives nothing has come to the end of the text, and nothing was to come. -/
theorem tokens_of_next_none (h : l.next = (none, after)) :
    l.tokens = [] ∧ after.cursor.rest = [] := by
  induction l using step_induct with
  | stop l hs =>
    rw [next_of_step?_none hs] at h
    cases h
    exact ⟨tokens_of_rest_nil (rest_eq_nil_of_step? hs), rest_eq_nil_of_step? hs⟩
  | move l token? middle hs ih =>
    cases token? with
    | none =>
      rw [next_of_step?_drop hs] at h
      rw [tokens_of_step?_drop hs]
      exact ih h
    | some found =>
      rw [next_of_step?_token hs] at h
      cases h

/-! ## Calls one after the other -/

/-- The tokens that the first calls give, and the lexer after them. -/
inductive Gives (l : Lexer) : List Token → Lexer → Prop
  | nil : Gives l [] l
  | snoc {tokens : List Token} {m after : Lexer} {token : Token} (h : Gives l tokens m)
    (hnext : m.next = (some token, after)) : Gives l (tokens ++ [token]) after

/-- Calls leave the grammar. -/
theorem Gives.grammar_eq {tokens : List Token} (h : l.Gives tokens m) : m.grammar = l.grammar := by
  induction h with
  | nil => rfl
  | snoc _ hnext ih => exact (grammar_of_next hnext).trans ih

/-- The first calls give the first of the tokens that are to come. -/
theorem Gives.append_tokens {tokens : List Token} (h : l.Gives tokens m) :
    tokens ++ m.tokens = l.tokens := by
  induction h with
  | nil => rfl
  | snoc _ hnext ih => rw [← ih, tokens_of_next_some hnext, List.append_assoc]; rfl

end ExprLang.Lexer
