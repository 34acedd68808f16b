import ExprLang.Lexer.Reference
import ExprLang.Proofs.Lexer.Runs
import ExprLang.Token.Stream
import ExprLang.Token.Tape

/-!
# Token streams as places in a sequence

The tokens of a lexer are the beginning of an endless sequence, which goes on with
tokens for the end of the source.  A stream over the lexer and a tape over its
tokens stand at a place of that sequence, and every call does there what the place
alone decides, however much was looked at or given back before.

Main definitions:

- Definition {lit}`Token.endless`: the endless sequence.
- Definition {lit}`TokenCall`: what can be asked of a stream.
- Definition {lit}`TokenCall.runAt`: what a place in the sequence answers.
- Definition {lit}`TokenStream.StandsAt` and {lit}`Tape.StandsAt`: the place of a
  stream and of a tape.

Main results:

- Theorem {lit}`TokenStream.answersAlike_run`: one call.
- Theorem {lit}`TokenStream.answers_ofText`: any calls on the stream of a text.
- Theorem {lit}`Tape.answers_ofTokens`: any calls on the tape of its tokens.
-/

namespace ExprLang

/-! ## The sequence -/

namespace Token

/-- Where the last of some tokens ends: the start of the text if there is none. -/
def finish (tokens : List Token) : Point :=
  tokens.getLast?.elim Point.zero (·.span.stop)

/-- The tokens of a text and then endlessly many for the end of the source, of empty text, which
stand where the last token ends. -/
def endless (tokens : List Token) (i : Nat) : Token :=
  tokens.getD i ⟨.endOfFile, "", ⟨finish tokens, finish tokens⟩⟩

/-- The items of the sequence from the place `i` to before the place `i + n`. -/
def items (tokens : List Token) (i n : Nat) : List Token :=
  (List.range' i n).map (endless tokens)

variable {tokens : List Token} {i n : Nat}

@[simp] theorem length_items : (items tokens i n).length = n := by
  simp [items]

@[simp] theorem items_zero : items tokens i 0 = [] := rfl

/-- The first item comes before the others. -/
theorem items_succ : items tokens i (n + 1) = endless tokens i :: items tokens (i + 1) n := rfl

/-- The last item comes after the others. -/
theorem items_concat : items tokens i (n + 1) = items tokens i n ++ [endless tokens (i + n)] := by
  simp [items, List.range'_concat]

/-- The first items are the first tokens. -/
theorem items_eq_take (h : n ≤ tokens.length) : items tokens 0 n = tokens.take n := by
  induction n with
  | zero => rfl
  | succ n ih =>
    have hlt : n < tokens.length := by omega
    rw [items_concat, ih (by omega), List.take_add_one, List.getElem?_eq_getElem hlt]
    simp [endless, hlt]

/-- An item that does not stand for the end of the source is a token. -/
theorem lt_length_of_endless_kind_ne (h : (endless tokens i).kind ≠ .endOfFile) :
    i < tokens.length := by
  rcases Nat.lt_or_ge i tokens.length with hlt | hle
  · exact hlt
  · apply absurd _ h
    simp [endless, List.getElem?_eq_none hle]

theorem getElem_items {k : Nat} (h : k < (items tokens i n).length) :
    (items tokens i n)[k] = endless tokens (i + k) := by
  simp [items]

end Token

open Token

/-! ## Calls -/

/-- What can be asked of a sequence of tokens. -/
inductive TokenCall where
  | lookAhead (n : Nat)
  | peek
  | advance
  | giveBack
  | previous
  | hasPrevious
  | isAtEnd
  | consumedCount
deriving DecidableEq, Repr

/-- What a call answers. -/
inductive TokenAnswer where
  | done
  | token (token : Token)
  | truth (b : Bool)
  | count (n : Nat)
deriving DecidableEq, Repr

namespace TokenCall

variable {σ τ : Type}

/-- The answers to calls one after another, or the fault that ends them. -/
def answers (run : TokenCall → σ → Except Fault (TokenAnswer × σ)) :
    List TokenCall → σ → Except Fault (List TokenAnswer)
  | [], _ => pure []
  | call :: calls, s => do
    let (answer, s) ← run call s
    let answers ← answers run calls s
    return answer :: answers

/-- What the place `c` of the endless sequence answers to a call, and the place after it: the
items ahead of the place are yet to come, those before it are consumed. -/
def runAt (tokens : List Token) : TokenCall → Nat → Except Fault (TokenAnswer × Nat)
  | lookAhead n, c => .ok (.token (endless tokens (c + n)), c)
  | peek, c => .ok (.token (endless tokens c), c)
  | advance, c => .ok (.token (endless tokens c), c + 1)
  | giveBack, 0 => .error .nothingToGiveBack
  | giveBack, c + 1 => .ok (.done, c)
  | previous, 0 => .error .nothingConsumed
  | previous, c + 1 => .ok (.token (endless tokens c), c + 1)
  | hasPrevious, c => .ok (.truth (decide (0 < c)), c)
  | isAtEnd, c => .ok (.truth ((endless tokens c).kind == .endOfFile), c)
  | consumedCount, c => .ok (.count c, c)

/-- Two calls end with the same fault, or with the same answer and in related states. -/
inductive AnswersAlike (R : σ → τ → Prop) :
    Except Fault (TokenAnswer × σ) → Except Fault (TokenAnswer × τ) → Prop
  | error (f : Fault) : AnswersAlike R (.error f) (.error f)
  | ok (answer : TokenAnswer) {s : σ} {t : τ} (h : R s t) :
    AnswersAlike R (.ok (answer, s)) (.ok (answer, t))

/-- Where each call is answered alike in related states, so are any calls. -/
theorem answers_congr {run : TokenCall → σ → Except Fault (TokenAnswer × σ)}
    {run' : TokenCall → τ → Except Fault (TokenAnswer × τ)} {R : σ → τ → Prop}
    (hrun : ∀ call s t, R s t → AnswersAlike R (run call s) (run' call t))
    (calls : List TokenCall) {s : σ} {t : τ} (h : R s t) :
    answers run calls s = answers run' calls t := by
  induction calls generalizing s t with
  | nil => rfl
  | cons call calls ih =>
    simp only [answers]
    have hcall := hrun call s t h
    generalize run call s = result at hcall
    generalize run' call t = result' at hcall
    cases hcall with
    | error f => rfl
    | ok answer h =>
      show (do let answers ← answers run calls _; pure (answer :: answers)) = _
      rw [ih h]
      rfl

end TokenCall

open TokenCall

/-! ## Streams -/

namespace TokenStream

variable {tokens : List Token} {c : Nat} {s : TokenStream}

/-- Carries out a call. -/
def run : TokenCall → TokenStream → Except Fault (TokenAnswer × TokenStream)
  | .lookAhead n, s => .ok (.token (s.lookAhead n).1, (s.lookAhead n).2)
  | .peek, s => .ok (.token s.peek.1, s.peek.2)
  | .advance, s => .ok (.token s.advance.1, s.advance.2)
  | .giveBack, s => do
    let s ← s.giveBack
    return (.done, s)
  | .previous, s => do
    let token ← s.previous
    return (.token token, s)
  | .hasPrevious, s => .ok (.truth s.hasPrevious, s)
  | .isAtEnd, s => .ok (.truth s.isAtEnd.1, s.isAtEnd.2)
  | .consumedCount, s => .ok (.count s.consumedCount, s)

/-- A lexer that has given as many tokens as there are before the place `k`, and the end of the
last of them. -/
structure Pulls (tokens : List Token) (k : Nat) (s : TokenStream) : Prop where
  tokens_eq : s.lexer.tokens = tokens.drop k
  finish_eq : s.finish = Token.finish (tokens.take k)

/-- A stream stands at the place `c`: what is consumed and what is pending are the items before
and from that place, and the lexer goes on behind them. -/
structure StandsAt (tokens : List Token) (c : Nat) (s : TokenStream) : Prop where
  consumed_eq : s.consumed = (items tokens 0 c).reverse
  pending_eq : s.pending = items tokens c s.pending.length
  pulls : s.Pulls tokens (c + s.pending.length)

/-- A stream over a lexer starts at the first place. -/
theorem standsAt_ofLexer (l : Lexer) : (ofLexer l).StandsAt l.tokens 0 :=
  ⟨rfl, rfl, rfl, rfl⟩

/-- The lexer gives the next item of the sequence, also where it has come to the end. -/
theorem Pulls.pull {k : Nat} (h : s.Pulls tokens k) :
    s.pull.1 = endless tokens k ∧ s.pull.2.Pulls tokens (k + 1) := by
  have htokens := h.tokens_eq
  unfold TokenStream.pull
  split
  · rename_i token after hnext
    rw [Lexer.tokens_of_next_some hnext] at htokens
    have hk : tokens[k]? = some token := by
      rw [← List.head?_drop, ← htokens]
      rfl
    have hdrop : tokens.drop (k + 1) = after.tokens := by
      rw [← List.tail_drop, ← htokens]
      rfl
    have hfinish : Token.finish (tokens.take (k + 1)) = token.span.stop := by
      simp [Token.finish, List.take_add_one, hk]
    exact ⟨by simp [endless, hk], hdrop.symm, hfinish.symm⟩
  · rename_i after hnext
    have hnil := (Lexer.tokens_of_next_none hnext).1
    rw [htokens] at hnil
    have hlength := List.drop_eq_nil_iff.1 hnil
    have hfinish := h.finish_eq
    rw [List.take_of_length_le hlength] at hfinish
    constructor
    · simp [endless, List.getElem?_eq_none hlength, hfinish, endOfFile, Point.toSpan]
    · constructor
      · rw [List.drop_eq_nil_of_le (by omega)]
        exact Lexer.tokens_of_rest_nil (Lexer.tokens_of_next_none hnext).2
      · rw [List.take_of_length_le (by omega)]
        exact hfinish

/-- One more item can be pending. -/
theorem StandsAt.pulled (h : s.StandsAt tokens c) : s.pulled.StandsAt tokens c := by
  obtain ⟨htoken, hpulls⟩ := h.pulls.pull
  obtain ⟨hpending, hconsumed⟩ := s.pull_buffers
  constructor
  · exact hconsumed.trans h.consumed_eq
  · rw [length_pending_pulled, items_concat, ← h.pending_eq, ← htoken, ← hpending]
    rfl
  · rw [length_pending_pulled]
    exact ⟨hpulls.tokens_eq, hpulls.finish_eq⟩

/-- Any number of items can be pending. -/
theorem StandsAt.fill (h : s.StandsAt tokens c) (n : Nat) : (s.fill n).StandsAt tokens c := by
  fun_induction TokenStream.fill s n with
  | case1 s _ ih => exact ih h.pulled
  | case2 s _ => exact h

/-- Looking ahead shows the item there and leaves the place. -/
theorem StandsAt.lookAhead (h : s.StandsAt tokens c) (n : Nat) :
    (s.lookAhead n).1 = endless tokens (c + n) ∧ (s.lookAhead n).2.StandsAt tokens c := by
  have hfill := h.fill n
  refine ⟨?_, hfill⟩
  unfold TokenStream.lookAhead
  rw [List.get_eq_getElem, List.getElem_of_eq hfill.pending_eq, getElem_items]

/-- Consuming an item leads to the next place. -/
theorem StandsAt.advance (h : s.StandsAt tokens c) :
    s.advance.1 = endless tokens c ∧ s.advance.2.StandsAt tokens (c + 1) := by
  obtain ⟨lexer, pending, consumed, finish⟩ := s
  have hconsumed := h.consumed_eq
  dsimp only at hconsumed
  have hnext (token : Token) (htoken : token = endless tokens c) :
      token :: consumed = (items tokens 0 (c + 1)).reverse := by
    simp [items_concat, htoken, hconsumed]
  cases pending with
  | nil =>
    obtain ⟨htoken, hpulls⟩ := h.pulls.pull
    obtain ⟨hpending, hbefore⟩ := pull_buffers ⟨lexer, [], consumed, finish⟩
    dsimp only [TokenStream.advance]
    refine ⟨htoken, ?_, ?_, ?_⟩
    · rw [hbefore]
      exact hnext _ htoken
    · rw [hpending]
      rfl
    · rw [hpending]
      exact ⟨hpulls.tokens_eq, hpulls.finish_eq⟩
  | cons token pending =>
    have hpending := h.pending_eq
    simp only [List.length_cons, items_succ, List.cons.injEq] at hpending
    obtain ⟨htoken, hpending⟩ := hpending
    have hpulls := h.pulls
    have hplace : c + (pending.length + 1) = c + 1 + pending.length := by omega
    rw [List.length_cons, hplace] at hpulls
    exact ⟨htoken, hnext token htoken, hpending, hpulls.tokens_eq, hpulls.finish_eq⟩

/-- Giving an item back leads to the place before. -/
theorem StandsAt.giveBack (h : s.StandsAt tokens (c + 1)) :
    ∃ before, s.giveBack = .ok before ∧ before.StandsAt tokens c := by
  obtain ⟨lexer, pending, consumed, finish⟩ := s
  have hconsumed := h.consumed_eq
  simp only [items_concat, List.reverse_append, List.reverse_singleton, List.singleton_append,
    Nat.zero_add] at hconsumed
  subst hconsumed
  refine ⟨_, rfl, rfl, ?_, ?_⟩
  · rw [List.length_cons, items_succ, ← h.pending_eq]
  · rw [List.length_cons, ← Nat.add_assoc, Nat.add_right_comm]
    exact ⟨h.pulls.tokens_eq, h.pulls.finish_eq⟩

/-- The place is the number of items consumed. -/
theorem StandsAt.length_consumed (h : s.StandsAt tokens c) : s.consumed.length = c := by
  rw [h.consumed_eq, List.length_reverse, length_items]

/-- A stream answers a call as its place in the sequence does, and then stands at the place after
the call. -/
theorem answersAlike_run (call : TokenCall) (h : s.StandsAt tokens c) :
    AnswersAlike (StandsAt tokens · ·) (call.runAt tokens c) (run call s) := by
  cases call with
  | lookAhead n =>
    obtain ⟨htoken, hafter⟩ := h.lookAhead n
    rw [runAt, run, htoken]
    exact .ok _ hafter
  | peek =>
    obtain ⟨htoken, hafter⟩ := h.lookAhead 0
    rw [runAt, run, peek, htoken, Nat.add_zero]
    exact .ok _ hafter
  | advance =>
    obtain ⟨htoken, hafter⟩ := h.advance
    rw [runAt, run, htoken]
    exact .ok _ hafter
  | giveBack =>
    cases c with
    | zero =>
      rw [run, TokenStream.giveBack, h.consumed_eq]
      exact .error _
    | succ c =>
      obtain ⟨before, hback, hbefore⟩ := h.giveBack
      rw [run, hback]
      exact .ok _ hbefore
  | previous =>
    cases c with
    | zero =>
      rw [run, previous, h.consumed_eq]
      exact .error _
    | succ c =>
      rw [run, previous, h.consumed_eq, items_concat, List.reverse_append, Nat.zero_add]
      exact .ok _ h
  | hasPrevious =>
    have htruth : s.hasPrevious = decide (0 < c) := by
      rw [hasPrevious, h.consumed_eq]
      cases c <;> simp [items_succ]
    rw [run, htruth]
    exact .ok _ h
  | isAtEnd =>
    obtain ⟨htoken, hafter⟩ := h.lookAhead 0
    have htruth : s.isAtEnd.1 = ((endless tokens c).kind == .endOfFile) := by
      show ((s.lookAhead 0).1.kind == .endOfFile) = _
      rw [htoken, Nat.add_zero]
    rw [run, htruth]
    exact .ok _ hafter
  | consumedCount =>
    rw [run, consumedCount, h.length_consumed]
    exact .ok _ h

/-- Any calls on the stream over a lexer are answered as a place in the endless sequence of its
tokens answers them, first at the start of the sequence. -/
theorem answers_ofLexer (l : Lexer) (calls : List TokenCall) :
    answers run calls (ofLexer l) = answers (runAt l.tokens) calls 0 :=
  (answers_congr (fun call _ _ h => answersAlike_run call h) calls (standsAt_ofLexer l)).symm

/-- Any calls on the stream of a text, in any order, are answered as a place in one fixed sequence
answers them: the tokens of the text, followed by endlessly many for the end of the source.  Only
giving back and asking for the last token meet a fault, and only where nothing is consumed. -/
theorem answers_ofText (text : String) (calls : List TokenCall) :
    answers run calls (ofLexer (.ofText reference text)) =
      answers (runAt (tokenize text)) calls 0 :=
  answers_ofLexer (.ofText reference text) calls

end TokenStream

/-! ## Tapes -/

namespace Tape

variable {tokens : List Token} {c : Nat} {t : Tape}

/-- Carries out a call. -/
def run : TokenCall → Tape → Except Fault (TokenAnswer × Tape)
  | .lookAhead n, t => .ok (.token (t.lookAhead n), t)
  | .peek, t => .ok (.token t.peek, t)
  | .advance, t => .ok (.token t.advance.1, t.advance.2)
  | .giveBack, t => do
    let t ← t.giveBack
    return (.done, t)
  | .previous, t => do
    let token ← t.previous
    return (.token token, t)
  | .hasPrevious, t => .ok (.truth t.hasPrevious, t)
  | .isAtEnd, t => .ok (.truth t.isAtEnd, t)
  | .consumedCount, t => .ok (.count t.consumedCount, t)

/-- A tape stands at the place `c`: what is consumed are the items before it, and what is ahead are
the items from it. -/
structure StandsAt (tokens : List Token) (c : Nat) (t : Tape) : Prop where
  consumed_eq : t.consumed = (items tokens 0 c).reverse
  lookAhead_eq : ∀ n, t.lookAhead n = endless tokens (c + n)

/-- A tape over tokens starts at the first place. -/
theorem standsAt_ofTokens (tokens : List Token) : (ofTokens tokens).StandsAt tokens 0 := by
  constructor
  · rfl
  · intro n
    rw [Nat.zero_add]
    rfl

/-- Consuming an item leads to the next place. -/
theorem StandsAt.advance (h : t.StandsAt tokens c) : t.advance.2.StandsAt tokens (c + 1) := by
  constructor
  · have hpeek : t.peek = endless tokens c := h.lookAhead_eq 0
    simp [items_concat, hpeek, h.consumed_eq]
  · intro n
    rw [lookAhead_advance, h.lookAhead_eq, Nat.add_right_comm, Nat.add_assoc]

/-- Giving an item back leads to the place before. -/
theorem StandsAt.giveBack (h : t.StandsAt tokens (c + 1)) :
    ∃ before, t.giveBack = .ok before ∧ before.StandsAt tokens c := by
  obtain ⟨consumed, pending, finish⟩ := t
  have hconsumed := h.consumed_eq
  simp only [items_concat, List.reverse_append, List.reverse_singleton, List.singleton_append,
    Nat.zero_add] at hconsumed
  subst hconsumed
  refine ⟨_, rfl, rfl, ?_⟩
  intro n
  cases n with
  | zero => rfl
  | succ n =>
    rw [← Nat.add_assoc, Nat.add_right_comm]
    exact h.lookAhead_eq n

/-- A tape answers a call as its place in the sequence does, and then stands at the place after the
call. -/
theorem answersAlike_run (call : TokenCall) (h : t.StandsAt tokens c) :
    AnswersAlike (StandsAt tokens · ·) (call.runAt tokens c) (run call t) := by
  have hpeek : t.peek = endless tokens c := h.lookAhead_eq 0
  cases call with
  | lookAhead n =>
    rw [runAt, run, h.lookAhead_eq]
    exact .ok _ h
  | peek =>
    rw [runAt, run, hpeek]
    exact .ok _ h
  | advance =>
    rw [runAt, run, advance_token, hpeek]
    exact .ok _ h.advance
  | giveBack =>
    cases c with
    | zero =>
      rw [run, Tape.giveBack, h.consumed_eq]
      exact .error _
    | succ c =>
      obtain ⟨before, hback, hbefore⟩ := h.giveBack
      rw [run, hback]
      exact .ok _ hbefore
  | previous =>
    cases c with
    | zero =>
      rw [run, previous, h.consumed_eq]
      exact .error _
    | succ c =>
      rw [run, previous, h.consumed_eq, items_concat, List.reverse_append, Nat.zero_add]
      exact .ok _ h
  | hasPrevious =>
    have htruth : t.hasPrevious = decide (0 < c) := by
      rw [hasPrevious, h.consumed_eq]
      cases c <;> simp [items_succ]
    rw [run, htruth]
    exact .ok _ h
  | isAtEnd =>
    rw [runAt, run, isAtEnd, hpeek]
    exact .ok _ h
  | consumedCount =>
    have hcount : t.consumedCount = c := by
      rw [consumedCount, h.consumed_eq, List.length_reverse, length_items]
    rw [run, hcount]
    exact .ok _ h

/-- The tape that a parser reads answers any calls as the stream over the lexer does. -/
theorem answers_ofTokens (l : Lexer) (calls : List TokenCall) :
    answers run calls (ofTokens l.tokens) = answers TokenStream.run calls (.ofLexer l) := by
  rw [TokenStream.answers_ofLexer]
  exact (answers_congr (fun call _ _ h => answersAlike_run call h) calls
    (standsAt_ofTokens l.tokens)).symm

end Tape

end ExprLang
