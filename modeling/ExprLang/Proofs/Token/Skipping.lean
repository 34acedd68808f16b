import ExprLang.Parser.Recovery
import ExprLang.Proofs.Token.Nesting
import Mathlib.Data.Nat.Find

/-!
# What skipping skips

Skipping after an error moves on, ends at the first token where it may, and passes
over braces as a whole.  It ends at the end of the source, behind a semicolon, or
before a token where the parse can go on; where it does not end at the end of the
source, every brace that was opened on the way is closed again.

Main definitions:

- Definition {lit}`Tape.Passes`: the next tokens of a tape, up to a later place.
- Definition {lit}`ClosesBrace`: which token closes a brace.
- Definition {lit}`Skips`: how tokens are skipped.

Main results:

- Theorem {lit}`exists_closesBrace`: where counting finds no open brace, each has
  been closed.
- Theorem {lit}`Tape.exists_skips_skipWithin`: skipping within a sufficient bound.
- Theorem {lit}`Tape.exists_passes_skip`: skipping after an error.
-/

namespace ExprLang

/-! ## Braces that are closed -/

/-- The token with the number `j` closes the brace that the token with the number `i` opens: counted
from the opening brace on, it is the first one behind which no brace is open. -/
def ClosesBrace (kinds : List TokenKind) (i j : Nat) : Prop :=
  i < j ∧ kinds[j]? = some .rightBrace ∧ openBraces ((kinds.drop i).take (j + 1 - i)) = 0 ∧
    ∀ k, i ≤ k → k < j → openBraces ((kinds.drop i).take (k + 1 - i)) ≠ 0

/-- A token changes a greater number of open braces to one that is no less. -/
theorem braceStep_mono {n m : Nat} (h : n ≤ m) (kind : TokenKind) :
    braceStep n kind ≤ braceStep m kind := by
  unfold braceStep
  split <;> omega

/-- Counting from a greater number of open braces gives no less. -/
theorem foldl_braceStep_mono (kinds : List TokenKind) {n m : Nat} (h : n ≤ m) :
    kinds.foldl braceStep n ≤ kinds.foldl braceStep m := by
  induction kinds generalizing n m with
  | nil => exact h
  | cons kind kinds ih => exact ih (braceStep_mono h kind)

/-- The last open brace is closed by a closing brace only. -/
theorem eq_rightBrace_of_braceStep {n : Nat} {kind : TokenKind} (hn : n ≠ 0)
    (h : braceStep n kind = 0) : kind = .rightBrace := by
  unfold braceStep at h
  split at h
  · omega
  · rfl
  · exact absurd h hn

/-- Where no brace is open after some tokens, each one that they open they close. -/
theorem exists_closesBrace {kinds : List TokenKind} (h : openBraces kinds = 0) {i : Nat}
    (hi : kinds[i]? = some .leftBrace) : ∃ j, ClosesBrace kinds i j := by
  have hall : openBraces (kinds.drop i) = 0 := by
    have hsplit : openBraces kinds =
        (kinds.drop i).foldl braceStep (openBraces (kinds.take i)) := by
      rw [openBraces, openBraces, ← List.foldl_append, List.take_append_drop]
    have hle := foldl_braceStep_mono (kinds.drop i) (Nat.zero_le (openBraces (kinds.take i)))
    rw [← hsplit, h] at hle
    exact Nat.le_zero.1 hle
  have hexists : ∃ n, openBraces ((kinds.drop i).take (n + 1)) = 0 :=
    ⟨kinds.length, by rwa [List.take_of_length_le (by rw [List.length_drop]; omega)]⟩
  have hfirst : (kinds.drop i)[0]? = some .leftBrace := by simpa using hi
  -- the first number of tokens, from the opening brace on, behind which no brace is open
  obtain ⟨n, hzero, hleast⟩ : ∃ n, openBraces ((kinds.drop i).take (n + 1)) = 0 ∧
      ∀ m < n, openBraces ((kinds.drop i).take (m + 1)) ≠ 0 :=
    ⟨Nat.find hexists, Nat.find_spec hexists, fun m hm => Nat.find_min hexists hm⟩
  cases n with
  | zero => simp [List.take_add_one, hfirst, openBraces, braceStep] at hzero
  | succ n =>
    have hbefore := hleast n (Nat.lt_succ_self n)
    rw [List.take_add_one] at hzero
    cases hlast : (kinds.drop i)[n + 1]? with
    | none => simp [hlast, hbefore] at hzero
    | some kind =>
      have hstep : braceStep (openBraces ((kinds.drop i).take (n + 1))) kind = 0 := by
        simpa [hlast, openBraces] using hzero
      obtain rfl := eq_rightBrace_of_braceStep hbefore hstep
      refine ⟨i + (n + 1), by omega, by simpa using hlast, ?_, fun k hik hk => ?_⟩
      · rw [show i + (n + 1) + 1 - i = n + 1 + 1 by omega, List.take_add_one]
        exact hzero
      · rw [show k + 1 - i = k - i + 1 by omega]
        exact hleast (k - i) (by omega)

/-! ## Passing over tokens -/

/-- Some tokens are the next ones on a tape, and behind them stands another tape. -/
inductive Tape.Passes : Tape → List Token → Tape → Prop
  | nil (t : Tape) : Passes t [] t
  | cons {t u : Tape} {tokens : List Token} (h : Passes t.advance.2 tokens u) :
    Passes t (t.peek :: tokens) u

/-- How tokens of some kinds are skipped, where so many braces are open, before a token of the kind
`next`.  `mayStop` says whether the first of them could have been left. -/
structure Skips (stop : Expectation) (mayStop : Bool) (depth : Nat) (kinds : List TokenKind)
    (next : TokenKind) : Prop where
  /-- One token is skipped at least unless none has to be. -/
  moves : mayStop = false → kinds ≠ []
  /-- Skipping ends at the end of the source, or where no brace is open: behind a semicolon, or
  before a token where the parse can go on. -/
  ends : kinds.getLast? = some .endOfFile ∨ next = .endOfFile ∨
    kinds.foldl braceStep depth = 0 ∧
      (kinds.getLast? = some .semicolon ∨ stop.accepts next = true)
  /-- The end of the source is only skipped if that has to be. -/
  source : ∀ i, kinds[i]? = some .endOfFile → i = 0 ∧ mayStop = false
  /-- Where no brace is open, a token where the parse can go on is only skipped if that has to
  be. -/
  stops : ∀ i kind, kinds[i]? = some kind → (kinds.take i).foldl braceStep depth = 0 →
    stop.accepts kind = true → i = 0 ∧ mayStop = false
  /-- Where no brace is open, no token is skipped behind a semicolon. -/
  semicolon : ∀ i, kinds[i]? = some .semicolon → (kinds.take i).foldl braceStep depth = 0 →
    i + 1 = kinds.length

namespace Skips

variable {stop : Expectation} {mayStop : Bool} {depth : Nat} {kind next : TokenKind}
  {kinds : List TokenKind}

/-- Nothing is skipped before a token that ends skipping. -/
theorem nil (h : next = .endOfFile ∨ depth = 0 ∧ stop.accepts next = true) :
    Skips stop true depth [] next where
  moves := nofun
  ends := .inr (h.imp_right fun h => ⟨h.1, .inr h.2⟩)
  source _ h := by simp at h
  stops _ _ h := by simp at h
  semicolon _ h := by simp at h

/-- A token where skipping could have ended has to be skipped. -/
theorem mayStop_eq_false
    (hgoes : mayStop = true → kind ≠ .endOfFile ∧ (depth = 0 → stop.accepts kind = false))
    (hdepth : depth = 0) (hstop : stop.accepts kind = true) : mayStop = false := by
  refine Bool.eq_false_iff.2 fun hm => ?_
  rw [(hgoes hm).2 hdepth] at hstop
  cases hstop

/-- One token is skipped that ends skipping behind it. -/
theorem single
    (hgoes : mayStop = true → kind ≠ .endOfFile ∧ (depth = 0 → stop.accepts kind = false))
    (h : kind = .endOfFile ∨ kind = .semicolon ∧ depth = 0) :
    Skips stop mayStop depth [kind] next where
  moves _ := List.cons_ne_nil _ _
  ends := by
    rcases h with rfl | ⟨rfl, rfl⟩
    · exact .inl rfl
    · exact .inr (.inr ⟨rfl, .inl rfl⟩)
  source i hi := by
    cases i with
    | zero =>
      obtain rfl : kind = .endOfFile := by simpa using hi
      exact ⟨rfl, Bool.eq_false_iff.2 fun hm => (hgoes hm).1 rfl⟩
    | succ i => simp at hi
  stops i other hi hdepth hstop := by
    cases i with
    | zero =>
      obtain rfl : kind = other := by simpa using hi
      exact ⟨rfl, mayStop_eq_false hgoes hdepth hstop⟩
    | succ i => simp at hi
  semicolon i hi _ := by
    cases i with
    | zero => rfl
    | succ i => simp at hi

/-- One more token is skipped first. -/
theorem cons
    (hgoes : mayStop = true → kind ≠ .endOfFile ∧ (depth = 0 → stop.accepts kind = false))
    (hkind : kind ≠ .endOfFile) (hsemicolon : kind = .semicolon → depth ≠ 0)
    (h : Skips stop true (braceStep depth kind) kinds next) :
    Skips stop mayStop depth (kind :: kinds) next where
  moves _ := List.cons_ne_nil _ _
  ends := by
    rw [List.foldl_cons]
    have hlast {last : TokenKind} (h : kinds.getLast? = some last) :
        (kind :: kinds).getLast? = some last := by
      rw [List.getLast?_cons, h]
      rfl
    exact h.ends.imp hlast (Or.imp_right fun h => ⟨h.1, h.2.imp_left hlast⟩)
  source i hi := by
    cases i with
    | zero => exact absurd (by simpa using hi) hkind
    | succ i => exact absurd (h.source i (by simpa using hi)).2 (by decide)
  stops i other hi hdepth hstop := by
    cases i with
    | zero =>
      obtain rfl : kind = other := by simpa using hi
      exact ⟨rfl, mayStop_eq_false hgoes hdepth hstop⟩
    | succ i =>
      exact absurd (h.stops i other (by simpa using hi) hdepth hstop).2 (by decide)
  semicolon i hi hdepth := by
    cases i with
    | zero => exact absurd hdepth (hsemicolon (by simpa using hi))
    | succ i =>
      rw [List.length_cons, h.semicolon i (by simpa using hi) hdepth]

end Skips

/-! ## Skipping -/

namespace Tape

/-- Skipping within a sufficient bound. -/
theorem exists_skips_skipWithin (stop : Expectation) {t : Tape} {n : Nat}
    (hn : t.pending.length < n) (mayStop : Bool) (depth : Nat) :
    ∃ skipped, t.Passes skipped (t.skipWithin stop n mayStop depth) ∧
      Skips stop mayStop depth (skipped.map Token.kind)
        (t.skipWithin stop n mayStop depth).peek.kind := by
  induction n generalizing t mayStop depth with
  | zero => exact absurd hn (Nat.not_lt_zero _)
  | succ n ih =>
    rw [skipWithin]
    by_cases hstop : (mayStop && (t.peek.kind == .endOfFile ||
        (depth == 0 && stop.accepts t.peek.kind))) = true
    · rw [if_pos hstop]
      simp only [Bool.and_eq_true, Bool.or_eq_true, beq_iff_eq] at hstop
      obtain ⟨rfl, hstop⟩ := hstop
      exact ⟨[], .nil t, .nil hstop⟩
    · rw [if_neg hstop]
      have hgoes (hm : mayStop = true) :
          t.peek.kind ≠ .endOfFile ∧ (depth = 0 → stop.accepts t.peek.kind = false) := by
        simpa [hm] using hstop
      have hmore (hend : t.peek.kind ≠ .endOfFile)
          (hsemicolon : t.peek.kind = .semicolon → depth ≠ 0) :
          ∃ skipped,
            t.Passes skipped (t.advance.2.skipWithin stop n true (braceStep depth t.peek.kind)) ∧
            Skips stop mayStop depth (skipped.map Token.kind)
              (t.advance.2.skipWithin stop n true (braceStep depth t.peek.kind)).peek.kind := by
        have hlength : t.advance.2.pending.length < n := by
          obtain ⟨consumed, pending, finish⟩ := t
          cases pending with
          | nil => exact absurd rfl hend
          | cons token pending => exact Nat.lt_of_succ_lt_succ hn
        obtain ⟨skipped, hpasses, hskips⟩ := ih hlength true (braceStep depth t.peek.kind)
        exact ⟨t.peek :: skipped, hpasses.cons, .cons hgoes hend hsemicolon hskips⟩
      have hone (h : t.peek.kind = .endOfFile ∨ t.peek.kind = .semicolon ∧ depth = 0) :
          ∃ skipped, t.Passes skipped t.advance.2 ∧
            Skips stop mayStop depth (skipped.map Token.kind) t.advance.2.peek.kind :=
        ⟨[t.peek], (Passes.nil _).cons, .single hgoes h⟩
      cases hk : t.peek.kind with
      | endOfFile => exact hone (.inl hk)
      | semicolon =>
        by_cases hd : depth = 0
        · simp only [if_pos hd]
          exact hone (.inr ⟨hk, hd⟩)
        · rw [hk] at hmore
          simp only [if_neg hd]
          exact hmore (by decide) fun _ => hd
      | _ =>
        rw [hk] at hmore
        exact hmore (by decide) fun h => absurd h (by decide)

/-- Skipping tokens after an error of what began when `mark` tokens were consumed.  More tokens are
consumed then; skipping has ended behind the end of the source or before it, or it has ended behind
a semicolon or before a token where the parse can go on, and has passed over braces as a whole; and
of the tokens where it could have ended none is skipped but a first one that had to be. -/
theorem exists_passes_skip (t : Tape) (stop : Expectation) {mark : Nat}
    (h : mark ≤ t.consumedCount) :
    ∃ skipped kinds next, t.Passes skipped (t.skip stop mark) ∧ kinds = skipped.map Token.kind ∧
      next = (t.skip stop mark).peek.kind ∧
      -- skipping is progressive
      mark < (t.skip stop mark).consumedCount ∧
      (kinds.getLast? = some .endOfFile ∨ next = .endOfFile ∨
        (kinds.getLast? = some .semicolon ∨ stop.accepts next = true) ∧
          -- it is brace-safe
          ∀ i, kinds[i]? = some .leftBrace → ∃ j, ClosesBrace kinds i j) ∧
      -- it is minimal
      ∀ i kind, kinds[i]? = some kind →
        (kind = .endOfFile → i = 0 ∧ mark = t.consumedCount) ∧
        (openBraces (kinds.take i) = 0 →
          (stop.accepts kind = true → i = 0 ∧ mark = t.consumedCount) ∧
          (kind = .semicolon → i + 1 = kinds.length)) := by
  obtain ⟨skipped, hpasses, hskips⟩ := exists_skips_skipWithin stop
    (Nat.lt_succ_self t.pending.length) (decide (mark < t.consumedCount)) 0
  have hforced (hm : decide (mark < t.consumedCount) = false) : mark = t.consumedCount :=
    Nat.le_antisymm h (Nat.not_lt.1 (of_decide_eq_false hm))
  refine ⟨skipped, _, _, hpasses, rfl, rfl, t.lt_consumedCount_skip stop h, ?_, ?_⟩
  · refine hskips.ends.imp_right (Or.imp_right fun ⟨hdepth, hends⟩ => ⟨hends, fun i hi => ?_⟩)
    exact exists_closesBrace hdepth hi
  · intro i kind hi
    refine ⟨fun hk => ?_, fun hdepth => ⟨fun hstop => ?_, fun hk => ?_⟩⟩
    · exact (hskips.source i (hk ▸ hi)).imp_right hforced
    · exact (hskips.stops i kind hi hdepth hstop).imp_right hforced
    · exact hskips.semicolon i (hk ▸ hi) hdepth

/-- Behind a statement that has failed at a parenthesis a group in braces is skipped, and skipping
ends before the brace that closes the block. -/
theorem exists_passes_skip_group : ∃ t : Tape, 1 ≤ t.consumedCount ∧
    ∃ skipped kinds next,
      t.Passes skipped (t.skip (.kind .rightBrace) 1) ∧ kinds = skipped.map Token.kind ∧
      next = (t.skip (.kind .rightBrace) 1).peek.kind ∧
      1 < (t.skip (.kind .rightBrace) 1).consumedCount ∧
      (kinds.getLast? = some .endOfFile ∨ next = .endOfFile ∨
        (kinds.getLast? = some .semicolon ∨ (Expectation.kind .rightBrace).accepts next = true) ∧
          ∀ i, kinds[i]? = some .leftBrace → ∃ j, ClosesBrace kinds i j) ∧
      ∀ i kind, kinds[i]? = some kind →
        (kind = .endOfFile → i = 0 ∧ 1 = t.consumedCount) ∧
        (openBraces (kinds.take i) = 0 →
          ((Expectation.kind .rightBrace).accepts kind = true → i = 0 ∧ 1 = t.consumedCount) ∧
          (kind = .semicolon → i + 1 = kinds.length)) :=
  ⟨⟨[⟨.leftBrace, "\x7b", .zero⟩], [⟨.rightParen, ")", .zero⟩, ⟨.leftBrace, "\x7b", .zero⟩,
    ⟨.semicolon, ";", .zero⟩, ⟨.rightBrace, "\x7d", .zero⟩, ⟨.rightBrace, "\x7d", .zero⟩], .zero⟩,
    Nat.le_refl 1, exists_passes_skip _ _ (Nat.le_refl 1)⟩

end Tape

end ExprLang
