import ExprLang.Proofs.Errors.Rules
import ExprLang.Proofs.Parser.Entry
import ExprLang.Proofs.Reader.Isolation
import ExprLang.Proofs.Token.Skipping

/-!
# Broken placeholders

An expression in a placeholder that fails has not gone past the end of the
placeholder, and its error is a new one.  From there tokens are skipped, and the
string goes on behind the first of them that ends a part of some string.  So it goes
on behind its own placeholder exactly if no token that is skipped ends the skipping
before.

Main definitions:

- Definition {lit}`Nest.Balanced`: tokens that close all that they open.
- Definition {lit}`Expectation.SkipsOver`: tokens that skipping passes over.

Main results:

- Theorem {lit}`Reader.exists_left_of_placeholder`: where an expression in a
  placeholder stops.
- Theorem {lit}`Skips.reaches_iff`: which tokens are skipped up to their end.
- Theorem {lit}`Parser.stringStep_resumes_iff`: where a string goes on behind a
  broken placeholder.
-/

namespace ExprLang

/-! ## Inside a placeholder -/

/-- Tokens that close what they open and nothing else: whatever is open before them is open behind
them. -/
def Nest.Balanced (kinds : List TokenKind) : Prop :=
  ∀ nest : Nest, nest.run? kinds = some nest

/-- Behind some of the tokens that close what they open, the others leave no brace open. -/
theorem Nest.Balanced.openBraces_eq_zero {read left : List TokenKind}
    (h : Balanced (read ++ left)) : openBraces left = 0 := by
  have hrun : (run? [] read).bind (run? · left) = some [] := by
    have hall := h []
    rwa [run?, List.foldlM_append] at hall
  obtain ⟨middle, -, hleft⟩ := Option.bind_eq_some_iff.1 hrun
  have hle := foldl_braceStep_mono left (Nat.zero_le (middle.count Bracket.brace))
  rw [← count_brace_of_run? hleft] at hle
  exact Nat.le_zero.1 hle

/-- The first of the tokens that close what they open ends no part of a string. -/
theorem Nest.Balanced.accepts_partStop {kind : TokenKind} {kinds : List TokenKind}
    (h : Balanced (kind :: kinds)) : partStop.accepts kind = false := by
  have hnext := h []
  rw [run?_cons] at hnext
  cases kind <;> first | rfl | cases hnext

/-- No rule inside a placeholder reads or skips past the token that closes the placeholder. -/
theorem Before.enclosure_placeholder (words : List Word) :
    Enclosure fun nest ws => Before words (nest ++ [.placeholder]) ws where
  inner h ho := by
    obtain ⟨front, rfl⟩ := ho
    exact h.inner ⟨front, by rw [List.append_assoc]⟩
  pass {nest _ _} h hw := by
    refine h.pass (h.ne_of_ne_nil (by simp)) fun bracket hc => ?_
    obtain ⟨innermost, hhead, hne⟩ := hw.2 bracket hc
    rw [List.head?_append, Option.mem_def.1 hhead]
    simpa using hne
  opened h hw := h.opened (h.ne_of_ne_nil (by simp)) hw
  closed h hw := h.closed hw
  skip_statement h mayStop hw afterBrace := h.skip_statement mayStop hw afterBrace
  skip_part h mayStop afterBrace := h.skip_part mayStop afterBrace

/-- However an expression in a placeholder ends, the token that closes the placeholder is still to
come. -/
theorem Reader.exists_left_of_placeholder {p : Spot} {inside back : List Word} {closing : Word}
    (hp : p.words = inside ++ closing :: back) (hclosing : closing.kind = .templateEnd)
    (hinside : Nest.Balanced (inside.map Word.kind)) (n : Nat) (min : Precedence) :
    ∃ read left, inside = read ++ left ∧
      (expressionWithin n min p).rest.words = left ++ closing :: back := by
  have hplace : Before back ([] ++ [.placeholder]) p.words := by
    refine ⟨inside ++ [closing], [.placeholder], by simp [hp], ?_, .refl _, ?_⟩
    · rw [List.map_append, List.map_singleton, Nest.run?_concat, hinside, hclosing]
      rfl
    · simp [hclosing]
  have henclosure := Before.enclosure_placeholder back
  obtain ⟨⟨read, hread⟩, broken, opened, hbroken, hrun, hsub, -⟩ :=
    stays_expressionWithin (P := fun nest ws => Before back (nest ++ [.placeholder]) ws) n min []
      p hplace
  -- what is to come before `back` is not empty, since something is open there
  rcases List.eq_nil_or_concat broken with rfl | ⟨left, last, rfl⟩
  · cases hrun
    cases hsub
  · have hwords : (read ++ left) ++ last :: back = inside ++ closing :: back := by
      rw [← hp, ← hread, hbroken]
      simp
    obtain ⟨hinside, hlast⟩ := List.append_inj' hwords rfl
    refine ⟨read, left, hinside.symm, ?_⟩
    rw [hbroken, (List.cons.inj hlast).1]
    simp

/-! ## Places -/

namespace Tape

open Token

variable {t u : Tape} {tokens passed : List Token} {c : Nat}

/-- What is to come on a tape are the tokens from its place on. -/
theorem StandsAt.words_eq (h : t.StandsAt tokens c) (hr : t.Regular)
    (htokens : ∀ token ∈ tokens, token.kind ≠ .endOfFile) :
    t.words = (tokens.drop c).map Token.word := by
  have hpeek {t : Tape} {c : Nat} (h : t.StandsAt tokens c) : t.peek = endless tokens c :=
    h.lookAhead_eq 0
  induction hw : t.words generalizing t c with
  | nil =>
    have hend := (hr.words_eq_nil_iff).1 hw
    have hle : tokens.length ≤ c := by
      by_contra hlt
      have hc : c < tokens.length := Nat.lt_of_not_le hlt
      refine htokens tokens[c] (List.getElem_mem hc) ?_
      simpa [hpeek h, endless, hc] using hend
    rw [List.drop_eq_nil_of_le hle, List.map_nil]
  | cons w ws ih =>
    have hkind : t.peek.kind ≠ .endOfFile := fun hend => by
      rw [(hr.words_eq_nil_iff).2 hend] at hw
      cases hw
    have hc : c < tokens.length := lt_length_of_endless_kind_ne (hpeek h ▸ hkind)
    have htoken : t.peek = tokens[c] := by simp [hpeek h, endless, hc]
    obtain ⟨hword, hws⟩ := List.cons.inj ((hr.words_eq_cons hkind).symm.trans hw)
    rw [List.drop_eq_getElem_cons hc, List.map_cons, ← ih h.advance hr.advance hws, ← hword, htoken]

/-- What is passed over are the items up to the place behind them. -/
theorem Passes.items_eq (hp : t.Passes passed u) (h : t.StandsAt tokens c) :
    passed = items tokens c passed.length ∧ u.StandsAt tokens (c + passed.length) := by
  induction hp generalizing c with
  | nil => exact ⟨rfl, h⟩
  | @cons t u passed _ ih =>
    obtain ⟨hpassed, hu⟩ := ih h.advance
    rw [List.length_cons]
    refine ⟨?_, by rwa [Nat.add_right_comm] at hu⟩
    have hpeek : t.peek = endless tokens c := h.lookAhead_eq 0
    rw [items_succ, ← hpeek, ← hpassed]

/-- Two places on a tape are one. -/
theorem StandsAt.place_eq {c' : Nat} (h : t.StandsAt tokens c) (h' : t.StandsAt tokens c') :
    c = c' := by
  simpa [h'.consumed_eq] using (congrArg List.length h.consumed_eq).symm

end Tape

/-! ## Skipping -/

/-- Tokens that skipping passes over: where no brace is open none of them is one where the parse
can go on, and only the last one may be a semicolon. -/
def Expectation.SkipsOver (stop : Expectation) (kinds : List TokenKind) : Prop :=
  ∀ i kind, kinds[i]? = some kind → openBraces (kinds.take i) = 0 →
    stop.accepts kind = false ∧ (kind = .semicolon → i + 1 = kinds.length)

/-- Skipping passes over tokens none of which can end it. -/
theorem Expectation.skipsOver_of_forall {stop : Expectation} {kinds : List TokenKind}
    (h : ∀ kind ∈ kinds, stop.accepts kind = false ∧ kind ≠ .semicolon) : stop.SkipsOver kinds :=
  fun _ kind hi _ => (h kind (List.mem_of_getElem? hi)).imp_right fun hne heq => absurd heq hne

/-- Skipping ends before a token where the parse can go on, or behind it if that is the first one
and has to be skipped, exactly if it passes over all tokens before. -/
theorem Skips.reaches_iff {mayStop : Bool} {f : Nat → TokenKind} {k m : Nat}
    (h : Skips partStop mayStop 0 ((List.range k).map f) (f k)) (hclosing : f m = .templateEnd)
    (hopen : openBraces ((List.range m).map f) = 0) (hend : ∀ i ≤ m, f i ≠ .endOfFile)
    (hfirst : mayStop = false → m ≠ 0 → partStop.accepts (f 0) = false) :
    (k = m ∨ k = m + 1 ∧ f k = .stringEnd) ↔
      partStop.SkipsOver ((List.range m).map f) ∧
        (mayStop = false → m = 0 → f 1 = .stringEnd) := by
  have hskipped {i : Nat} (hi : i < k) : ((List.range k).map f)[i]? = some (f i) := by
    simp [hi]
  have hlast (hk : k ≠ 0) : ((List.range k).map f).getLast? = some (f (k - 1)) := by
    obtain ⟨k, rfl⟩ := Nat.exists_eq_succ_of_ne_zero hk
    simp [List.range_succ]
  have htake {i n : Nat} (hi : i ≤ n) : ((List.range n).map f).take i = (List.range i).map f := by
    simp [← List.map_take, List.take_range, Nat.min_eq_left hi]
  have hforced (hlt : m < k) : m = 0 ∧ mayStop = false :=
    h.stops m _ (hskipped hlt) (by rw [htake (Nat.le_of_lt hlt)]; exact hopen)
      (by rw [hclosing]; rfl)
  constructor
  · rintro (rfl | ⟨rfl, hnext⟩)
    · refine ⟨fun i kind hi hbraces => ?_, fun hmay hk => absurd ?_ (h.moves hmay)⟩
      · have hlt : i < k := by simpa using (List.getElem?_eq_some_iff.1 hi).1
        obtain rfl : f i = kind := Option.some.inj ((hskipped hlt).symm.trans hi)
        refine ⟨Bool.eq_false_iff.2 fun hstop => ?_, ?_⟩
        · obtain ⟨rfl, hmay⟩ := h.stops i _ hi hbraces hstop
          rw [hfirst hmay (by omega)] at hstop
          cases hstop
        · intro hsemicolon
          exact h.semicolon i (hsemicolon ▸ hi) hbraces
      · rw [hk]
        rfl
    · obtain ⟨rfl, -⟩ := hforced (Nat.lt_succ_self m)
      exact ⟨fun i kind hi => by simp at hi, fun _ _ => hnext⟩
  · rintro ⟨hskips, hempty⟩
    rcases Nat.lt_trichotomy k m with hlt | rfl | hlt
    · have hover {i : Nat} (hi : i < m) (hbraces : openBraces ((List.range i).map f) = 0) :=
        hskips i (f i) (by simp [hi]) (by rwa [htake (Nat.le_of_lt hi)])
      rcases h.ends with hsource | hsource | ⟨hbraces, hsemicolon | hstop⟩
      · have hk : k ≠ 0 := by rintro rfl; simp at hsource
        exact absurd (Option.some.inj ((hlast hk).symm.trans hsource)) (hend _ (by omega))
      · exact absurd hsource (hend k (by omega))
      · have hk : k ≠ 0 := by rintro rfl; simp at hsemicolon
        obtain ⟨j, rfl⟩ := Nat.exists_eq_succ_of_ne_zero hk
        have hkind : f j = .semicolon := Option.some.inj ((hlast hk).symm.trans hsemicolon)
        -- a semicolon opens and closes no brace
        rw [List.range_succ, List.map_append, List.foldl_append] at hbraces
        simp only [List.map_cons, List.map_nil, List.foldl_cons, List.foldl_nil, hkind] at hbraces
        have hlength := (hover (by omega) hbraces).2 hkind
        simp only [List.length_map, List.length_range] at hlength
        omega
      · rw [(hover hlt hbraces).1] at hstop
        cases hstop
    · exact .inl rfl
    · obtain ⟨rfl, hmay⟩ := hforced hlt
      have hnext := hempty hmay rfl
      refine .inr ?_
      rcases Nat.lt_or_ge 1 k with hmore | hle
      · have hbraces : (((List.range k).map f).take 1).foldl braceStep 0 = 0 := by
          rw [htake hlt]
          simp [hclosing, braceStep]
        have hone := (h.stops 1 _ (hskipped hmore) hbraces (by rw [hnext]; rfl)).1
        omega
      · obtain rfl : k = 1 := by omega
        exact ⟨rfl, hnext⟩

/-- Skipping on a tape, up to the end of a placeholder. -/
theorem Tape.StandsAt.exists_skip_iff {t : Tape} {tokens left back : List Token} {closing : Token}
    {c : Nat} (h : t.StandsAt tokens c) (htokens : tokens.drop c = left ++ closing :: back)
    (hkinds : ∀ token ∈ tokens, token.kind ≠ .endOfFile) (hclosing : closing.kind = .templateEnd)
    (hopen : openBraces (left.map Token.kind) = 0)
    (mark : Nat) (hfirst : c ≤ mark → ∀ token ∈ left.head?, partStop.accepts token.kind = false) :
    ∃ k, (t.skip partStop mark).StandsAt tokens (c + k) ∧
      (k = left.length ∨ k = left.length + 1 ∧ (t.skip partStop mark).peek.kind = .stringEnd ↔
        partStop.SkipsOver (left.map Token.kind) ∧
          (c ≤ mark → left = [] → ∃ next ∈ back.head?, next.kind = .stringEnd)) := by
  obtain ⟨skipped, hpasses, hskips⟩ := exists_skips_skipWithin partStop
    (Nat.lt_succ_self t.pending.length) (decide (mark < t.consumedCount)) 0
  obtain ⟨hitems, hplace⟩ := hpasses.items_eq h
  let f (i : Nat) : TokenKind := (Token.endless tokens (c + i)).kind
  have hf (i : Nat) : f i = ((left ++ closing :: back)[i]?.elim .endOfFile Token.kind) := by
    rw [← htokens, List.getElem?_drop]
    simp only [f, Token.endless, List.getD_eq_getElem?_getD]
    cases tokens[c + i]? <;> rfl
  have hpeek : (t.skip partStop mark).peek.kind = f skipped.length :=
    congrArg Token.kind (hplace.lookAhead_eq 0)
  have hskipped : skipped.map Token.kind = (List.range skipped.length).map f := by
    conv_lhs => rw [hitems]
    simp [Token.items, List.range'_eq_map_range, f]
  have hleft : left.map Token.kind = (List.range left.length).map f := by
    refine List.ext_getElem (by simp) fun i hi _ => ?_
    have hi : i < left.length := by simpa using hi
    simp [hf, List.getElem?_append_left hi, hi]
  have hend (i : Nat) (hi : i ≤ left.length) : f i ≠ .endOfFile := by
    have hlt : i < (left ++ closing :: back).length := by simp; omega
    have hmem : (left ++ closing :: back)[i] ∈ tokens.drop c := by
      rw [htokens]
      exact List.getElem_mem hlt
    rw [hf, List.getElem?_eq_getElem hlt]
    exact hkinds _ (List.mem_of_mem_drop hmem)
  have hmay : decide (mark < t.consumedCount) = false ↔ c ≤ mark := by
    simp [consumedCount, h.consumed_eq]
  have hreaches := Skips.reaches_iff (f := f) (k := skipped.length) (m := left.length)
    (by rw [← hskipped, ← hpeek]; exact hskips) (by simp [hf, hclosing]) (hleft ▸ hopen) hend ?_
  · refine ⟨skipped.length, hplace, ?_⟩
    rw [hpeek, hreaches, hleft, hmay, List.length_eq_zero_iff]
    refine and_congr_right fun _ => forall_congr' fun _ => forall_congr' fun hnil => ?_
    rw [hf, hnil]
    cases back <;> simp
  · intro hforced hne
    rw [hf]
    cases left with
    | nil => exact absurd rfl hne
    | cons token left => exact hfirst (hmay.1 hforced) token rfl

/-! ## Strings -/

namespace Parser

open ParserState Token

variable {text : String} {s t u : ParserState} {E : ExpressionRule} {body flushed : StringBody}
  {d : Diagnostic} {n : Nat}

/-- Ending the present text of a string leaves the parse between two rules, at the same place. -/
theorem settled_flush (hs : s.Settled text) (hv : s.Valid) (hclear : s.Clear)
    (h : flush body s = .ok flushed t) :
    t.Settled text ∧ t.Valid ∧ t.options = s.options ∧ t.tape = s.tape ∧ t.report = s.report := by
  obtain ⟨parts, ⟨chars, span?⟩, interpolated⟩ := body
  unfold flush at h
  cases span? with
  | none =>
    cases h
    exact ⟨hs, hv, rfl, rfl, rfl⟩
  | some span =>
    obtain ⟨id, u, hmake, hpure⟩ := exists_of_bind h
    cases hpure
    have hreports : Reports text s.arena s.ahead s
        (make (.literal (.string (String.ofList chars))) span s) _ :=
      reports_make (.nil hs hclear) (.refl _) rfl nofun
    have hformed : Formed s.arena s .expression (.literal (.string (String.ofList chars)))
        (.literal (.string (String.ofList chars))) :=
      ⟨⟨rfl, .nil, .nil⟩, .literal trivial, rfl⟩
    rw [hmake] at hreports
    have hsimulates : Simulates s.arena
        (make (.literal (.string (String.ofList chars))) span) _ s _ :=
      .make hv (.refl _) hformed.shows rfl
    obtain ⟨hl, -⟩ := hsimulates.of_eq_ok hmake
    exact ⟨hreports.1.settled, hl.valid, hl.options, hreports.2.2.2.2⟩

/-- After an error in a placeholder a string goes on behind the next token if that closes a
placeholder, at the next token if that closes a string, and otherwise not at all. -/
theorem stringStep_of_broken (start : Token) (hs : s.tape.peek.kind = .templateStart)
    (hflush : flush { body with interpolated := true } s.advanced = .ok flushed t)
    (hpart : synchronized partStop (E .lowest) t = .ok none u) :
    ∃ d, stringStep E start body s =
      if u.tape.peek.kind = .templateEnd then .ok (.inl flushed) u.advanced
      else if u.tape.peek.kind = .stringEnd then .ok (.inl flushed) u
      else .error (.failed d) u := by
  have hbroken : ∃ d, placeholder E body s.advanced =
      if u.tape.peek.kind = .templateEnd then .ok flushed u.advanced
      else if u.tape.peek.kind = .stringEnd then .ok flushed u
      else .error (.failed d) u := by
    unfold placeholder
    refine ⟨unexpectedAt u "`\x7d`",
      (bind_eq_of_eq_ok hflush).trans ((bind_eq_of_eq_ok hpart).trans ?_)⟩
    simp only [Option.toList_none, List.append_nil]
    by_cases hend : u.tape.peek.kind = .templateEnd
    · have hskip : skipKind .templateEnd u = .ok true u.advanced :=
        bind_eq_of_eq_ok (accept?_of_accepts (by simp [hend]))
      rw [bind_eq_of_eq_ok hskip, if_pos hend]
      rfl
    · have hskip : skipKind .templateEnd u = .ok false u :=
        bind_eq_of_eq_ok (accept?_of_not_accepts (by simpa using Ne.symm hend))
      have hcheck : checkKind .stringEnd u = .ok (.stringEnd == u.tape.peek.kind) u := rfl
      rw [bind_eq_of_eq_ok hskip, if_neg hend, if_neg Bool.false_ne_true, bind_eq_of_eq_ok hcheck]
      by_cases hquote : u.tape.peek.kind = .stringEnd
      · rw [if_pos (by simp [hquote]), if_pos hquote]
        rfl
      · rw [if_neg (by simpa using Ne.symm hquote), if_neg hquote, fail_unexpected_eq]
  obtain ⟨d, hplaceholder⟩ := hbroken
  refine ⟨d, (bind_eq_of_eq_ok (p := advance) (a := s.tape.peek) (t := s.advanced) rfl).trans ?_⟩
  simp only [hs]
  split at hplaceholder
  · rename_i hend
    rw [if_pos hend]
    exact bind_eq_of_eq_ok hplaceholder
  · rename_i hend
    rw [if_neg hend]
    split at hplaceholder
    · rename_i hquote
      rw [if_pos hquote]
      exact bind_eq_of_eq_ok hplaceholder
    · rename_i hquote
      rw [if_neg hquote]
      exact bind_eq_of_eq_error hplaceholder

/-- A synchronization point at which parsing goes on after every error records the error of its rule
and skips tokens. -/
theorem synchronized_of_failed {p : Parser α} {stop : Expectation}
    (hp : p s = .error (.failed d) t) (hoptions : t.options = {}) :
    synchronized stop p s =
      .ok none { t.recorded d with tape := t.tape.skip stop s.tape.consumedCount } := by
  have hrecover : recoverFrom d stop s.tape.consumedCount t =
      .ok () { t.recorded d with tape := t.tape.skip stop s.tape.consumedCount } := by
    rw [Simulates.recoverFrom_eq, if_neg (by simp [hoptions])]
    dsimp only
    rw [if_neg (by simp [hoptions])]
    rfl
  rw [Simulates.synchronized_eq, attempt_bind_of_failed hp]
  exact bind_eq_of_eq_ok hrecover

variable {inside back : List Token} {closing : Token} {c : Nat}

/-- An expression in a placeholder that fails stops at one of the tokens inside or at the one that
closes the placeholder, and its error is a new one. -/
theorem exists_left_of_failed (hs : s.Settled text) (hv : s.Valid) (hoptions : s.options = {})
    (hclear : s.Clear) (hplace : s.tape.StandsAt (tokenize text) c)
    (htokens : (tokenize text).drop c = inside ++ closing :: back)
    (hclosing : closing.kind = .templateEnd) (hinside : Nest.Balanced (inside.map Token.kind))
    (hn : s.remaining < n) (hfail : expressionWithin n .lowest s = .error (.failed d) t) :
    t.options = {} ∧ (∃ read left, inside = read ++ left ∧
      t.tape.StandsAt (tokenize text) (c + read.length)) ∧
      (recordIn t.report d).errors = t.report.errors ++ [d] := by
  have hkinds : ∀ token ∈ tokenize text, token.kind ≠ .endOfFile := fun token htoken =>
    (proper_of_mem_tokenize htoken).kind_ne
  have hwords : s.tape.words = inside.map Token.word ++ closing.word :: back.map Token.word := by
    rw [hplace.words_eq hv.regular hkinds, htokens, List.map_append, List.map_cons]
  obtain ⟨hl, -, hstops⟩ := Ensures.of_eq_error
    (expressionWithin_simulates n n .lowest s hv (by rwa [Nat.min_self])) hfail
  obtain ⟨clean, hreads⟩ := hstops hoptions
  obtain ⟨read, left, hsplit, hrest⟩ := Reader.exists_left_of_placeholder (p := s.spot) hwords
    hclosing (by rwa [List.map_map]) n .lowest
  have hleft : t.tape.words = left ++ closing.word :: back.map Token.word := by
    rwa [hreads] at hrest
  have hreports : Reports text s.arena s.ahead s (expressionWithin n .lowest s) _ :=
    expresses_expressionWithin n .lowest s hs (.inl hclear)
  rw [hfail] at hreports
  obtain ⟨hadvances, hraises⟩ := hreports
  refine ⟨hl.options.trans hoptions, ?_, ?_⟩
  · obtain ⟨c', hc'⟩ := hadvances.settled.place
    obtain ⟨read, left, rfl, rfl, rfl⟩ := List.map_eq_append_iff.1 hsplit
    -- the tokens to come are those from the place on, so their number tells the place
    have hlength := congrArg List.length ((hc'.words_eq hl.valid.regular hkinds).symm.trans hleft)
    have hlength' := congrArg List.length htokens
    simp only [List.length_map, List.length_drop, List.length_append, List.length_cons]
      at hlength hlength'
    obtain rfl : c' = c + read.length := by omega
    exact ⟨read, left, rfl, hc'⟩
  · refine errors_recordIn_of_apart hraises.isError ?_
    rcases hraises.cause with hplain | ⟨hended, -⟩ | ⟨hlimit, -⟩
    · exact hplain.apart
    · have hend := (hl.valid.regular.words_eq_nil_iff).2 hended.kind_eq
      rw [hleft] at hend
      cases left <;> cases hend
    · rw [LimitReached, hl.options, hoptions] at hlimit
      cases hlimit

/-- A broken placeholder costs only itself where the tokens from its error to its end are skipped.
The expression stops inside its own placeholder.  Right behind that the string goes on, with the
parts before it and with one error more, exactly if, where no brace is open, none of the tokens that
are left ends a part of another string and none but the last is a semicolon; and a placeholder
without tokens, whose end is skipped as well, has to be the last thing in the string. -/
theorem stringStep_resumes_iff (start : Token) (body : StringBody) {front : List Token}
    {opening : Token}
    -- a parse of the text that goes on after every error, between two tokens of a string
    (hs : s.Settled text) (hv : s.Valid) (hoptions : s.options = {}) (hclear : s.Clear)
    -- the next token begins a placeholder, which is closed
    (htokens : tokenize text = front ++ opening :: (inside ++ closing :: back))
    (hplace : s.tape.StandsAt (tokenize text) front.length)
    (hopening : opening.kind = .templateStart) (hclosing : closing.kind = .templateEnd)
    (hinside : Nest.Balanced (inside.map Token.kind))
    -- its expression fails in the state `u` with the error `d`
    (hflush : flush { body with interpolated := true } s.advanced = .ok flushed t)
    (hfail : expressionWithin n .lowest t = .error (.failed d) u) (hn : s.remaining ≤ n) :
    ∃ read left, inside = read ++ left ∧
      u.tape.StandsAt (tokenize text) (front.length + 1 + read.length) ∧
      ((∃ v, stringStep (expressionWithin n) start body s = .ok (.inl flushed) v ∧
          v.tape.StandsAt (tokenize text) (front.length + 1 + inside.length + 1) ∧
          v.report.errors = u.report.errors ++ [d]) ↔
        partStop.SkipsOver (left.map Token.kind) ∧
          (inside = [] → ∃ next ∈ back.head?, next.kind = .stringEnd)) := by
  have hpeek : s.tape.peek = opening := by
    rw [show s.tape.peek = _ from hplace.lookAhead_eq 0, htokens]
    simp [endless]
  have hkind : s.tape.peek.kind = .templateStart := hpeek ▸ hopening
  obtain ⟨hts, htv, hto, htape, hreport⟩ :=
    settled_flush hs.advanced hv.advanced (hclear.advanced hs) hflush
  have htplace : t.tape.StandsAt (tokenize text) (front.length + 1) := htape ▸ hplace.advance
  have hdrop : (tokenize text).drop (front.length + 1) = inside ++ closing :: back := by
    simp [htokens, List.drop_append]
  have htclear : t.Clear := by
    have hadvanced := hclear.advanced hs
    unfold Clear ahead at hadvanced ⊢
    rwa [hreport, htape]
  have htn : t.remaining < n := by
    have hlt := remaining_advanced_lt hv (by rw [hkind]; decide)
    unfold remaining at hlt hn ⊢
    rw [htape]
    omega
  obtain ⟨huo, ⟨read, left, rfl, huplace⟩, herrors⟩ := exists_left_of_failed hts htv
    (hto.trans hoptions) htclear htplace hdrop hclosing hinside htn hfail
  refine ⟨read, left, rfl, huplace, ?_⟩
  have hleft : (tokenize text).drop (front.length + 1 + read.length) = left ++ closing :: back := by
    rw [← List.drop_drop, hdrop, List.append_assoc, List.drop_left]
  rw [List.map_append] at hinside
  have hcount : t.tape.consumedCount = front.length + 1 := by
    simp [Tape.consumedCount, htplace.consumed_eq]
  have hread : front.length + 1 + read.length ≤ t.tape.consumedCount ↔ read = [] := by
    rw [hcount, ← List.length_eq_zero_iff]
    omega
  obtain ⟨k, hskip, hiff⟩ := huplace.exists_skip_iff hleft
    (fun token htoken => (proper_of_mem_tokenize htoken).kind_ne) hclosing
    hinside.openBraces_eq_zero t.tape.consumedCount fun hforced token htoken => by
      obtain rfl := hread.1 hforced
      obtain ⟨left, rfl⟩ := List.head?_eq_some_iff.1 htoken
      exact hinside.accepts_partStop
  obtain ⟨e, hstep⟩ := stringStep_of_broken (E := expressionWithin n) start hkind hflush
    (synchronized_of_failed hfail huo)
  have hempty : (read ++ left = [] → ∃ next ∈ back.head?, next.kind = .stringEnd) ↔
      (front.length + 1 + read.length ≤ t.tape.consumedCount → left = [] →
        ∃ next ∈ back.head?, next.kind = .stringEnd) := by
    rw [hread, List.append_eq_nil_iff, and_imp]
  rw [hstep, hempty, ← hiff, List.length_append]
  constructor
  · rintro ⟨v, hresumes, hvplace, -⟩
    split at hresumes
    · cases hresumes
      have hplaces := hvplace.place_eq hskip.advance
      exact .inl (by omega)
    · split at hresumes
      · rename_i hquote
        cases hresumes
        have hplaces := hvplace.place_eq hskip
        exact .inr ⟨by omega, hquote⟩
      · cases hresumes
  · rintro (rfl | ⟨rfl, hquote⟩)
    · have hpeek : (u.tape.skip partStop t.tape.consumedCount).peek = closing := by
        have hclosing := congrArg (·[left.length]?) hleft
        simp only [List.getElem?_drop, List.getElem?_append_right (Nat.le_refl _), Nat.sub_self,
          List.getElem?_cons_zero] at hclosing
        refine (hskip.lookAhead_eq 0).trans ?_
        simp [endless, hclosing]
      rw [if_pos (by rw [hpeek, hclosing])]
      refine ⟨_, rfl, ?_, herrors⟩
      rw [← Nat.add_assoc]
      exact hskip.advance
    · rw [if_neg (by rw [hquote]; decide), if_pos hquote]
      refine ⟨_, rfl, ?_, herrors⟩
      rw [← Nat.add_assoc]
      exact hskip

/-- Behind a placeholder with half a sum a string goes on with one error. -/
theorem exists_stringStep_resumes_sum : ∃ (start : Token) (s v : ParserState),
    stringStep (expressionWithin 9) start .empty s = .ok (.inl ⟨[], .empty, true⟩) v ∧
      v.tape.StandsAt (tokenize "\"\\\x7b 1 + \x7d b\"") 5 ∧ v.report.errors.length = 1 := by
  have hkinds : (tokenize "\"\\\x7b 1 + \x7d b\"").map Token.kind = [.stringStart, .templateStart,
      .intLiteral, .plus, .templateEnd, .stringContent, .stringEnd] := by decide +kernel
  simp only [List.map_eq_cons_iff] at hkinds
  obtain ⟨start, _, hstart, -, opening, _, rfl, hopening, one, _, rfl, hone, plus, _, rfl, hplus,
    closing, back, rfl, hclosing, -⟩ := hkinds
  have htokens : tokenize "\"\\\x7b 1 + \x7d b\"" =
      [start] ++ opening :: ([one, plus] ++ closing :: back) := hstart
  have hfailed : (match expressionWithin 9 .lowest
      (ofText "\"\\\x7b 1 + \x7d b\"" "" {}).advanced.advanced with
    | .error (.failed _) u => u.report.errors.isEmpty
    | _ => false) = true := by decide +kernel
  split at hfailed
  · rename_i d u hfail
    have hinside : Nest.Balanced ([one, plus].map Token.kind) := by
      simp only [List.map_cons, hone, hplus]
      exact fun _ => rfl
    obtain ⟨read, left, hsplit, -, hiff⟩ := stringStep_resumes_iff start .empty
      (settled_ofText _ "" {}).advanced (.advanced valid_ofText) rfl nofun htokens
      (Tape.standsAt_ofTokens _).advance hopening hclosing hinside rfl hfail (by decide +kernel)
    have hover : partStop.SkipsOver (left.map Token.kind) := by
      refine Expectation.skipsOver_of_forall fun kind hkind => ?_
      obtain ⟨token, htoken, rfl⟩ := List.mem_map.1 hkind
      have hmem : token ∈ [one, plus] := hsplit ▸ List.mem_append_right read htoken
      rcases List.mem_pair.1 hmem with rfl | rfl
      · rw [hone]; decide
      · rw [hplus]; decide
    obtain ⟨v, hstep, hplace, herrors⟩ := hiff.2 ⟨hover, nofun⟩
    refine ⟨start, _, v, hstep, hplace, ?_⟩
    rw [herrors, List.isEmpty_iff.1 hfailed]
    rfl
  · cases hfailed

/-- A string in a placeholder, behind an error there, ends the skipping: what is left of the
placeholder ends the whole string, with a second error. -/
theorem exists_parseText_errors_of_placeholder :
    (tokenize "\"\\\x7b ) \"x\" \x7d b\"").map Token.kind = [.stringStart, .templateStart,
      .rightParen, .stringStart, .stringContent, .stringEnd, .templateEnd, .stringContent,
      .stringEnd] ∧
    ∃ answer, parseText .expression {} "" "\"\\\x7b ) \"x\" \x7d b\"" = .ok answer ∧
      (handedBack answer).errors.map (·.message) =
        ["expected expression, but found `)`", "expected end of file, but found `\x7d`"] := by
  obtain ⟨answer, hanswer, herrors⟩ := exists_parseText_of_any .expression {}
    "\"\\\x7b ) \"x\" \x7d b\""
    (fun r => decide (r.errors.map (·.message) =
      ["expected expression, but found `)`", "expected end of file, but found `\x7d`"]))
    (by decide +kernel)
  exact ⟨by decide +kernel, answer, hanswer, of_decide_eq_true herrors⟩

end Parser

end ExprLang
