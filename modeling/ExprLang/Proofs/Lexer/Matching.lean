import ExprLang.Proofs.Lexer.Shapes
import ExprLang.Proofs.Lexer.Soundness

/-!
# Matching in place

A matcher has one cursor and moves it while it works.  A sequence works on a copy of the
cursor and hands it over in the end; a choice and a repetition work on the cursor itself, so
the second fragment of a choice starts where the first one has left the cursor, and a
repetition goes on for as long as its item matches and the match is not empty.  There is no
bound on the number of matches: that a run exists is to say that it ends.

Main definitions:

- Definition {lit}`Fragment.Runs`: a run of the matcher, with where it leaves the cursor.
- Definition {lit}`Fragment.FindsWithin`: what is asked of searches.

Main results:

- Theorem {lit}`Fragment.agrees_runs`: a run answers and moves as the fragment that is
  evaluated does.
- Theorem {lit}`Fragment.match_atomic`: every run ends, is atomic and exact, and depends
  on what is left of the text only.
-/

namespace ExprLang

variable {c after : Cursor} {answer : Option Lexeme} {lexeme : Lexeme}

/-! ## Steps of a matcher -/

namespace Cursor

/-- The cursor moves over so many characters one by one, which are the answer. -/
def Commits (c : Cursor) (n : Nat) (answer : Option Lexeme) (after : Cursor) : Prop :=
  c.advance n = .ok after ∧ answer = some ⟨⟨c.point, after.point⟩, c.rest.take n⟩

/-- There is no match, and the cursor is where it was. -/
def Refuses (c : Cursor) (answer : Option Lexeme) (after : Cursor) : Prop :=
  answer = none ∧ after = c

/-- Moving over the characters of a beginning of what is left is moving over that. -/
theorem commits_iff {text rest : List Char} (h : text ++ rest = c.rest) :
    c.Commits text.length answer after ↔
      answer = some (c.take text rest).1 ∧ after = (c.take text rest).2 := by
  have htext : c.rest.take text.length = text := by rw [← h, List.take_left]
  rw [Commits, advance_take h.symm, htext, Except.ok.injEq, eq_comm, and_comm]
  refine and_congr_left fun hafter => ?_
  rw [hafter]
  rfl

end Cursor

namespace Fragment

/-- A repetition that has matched something so far: what it has matched in the end, and where it
leaves the cursor. -/
inductive Repeats (item : Cursor → Option Lexeme → Cursor → Prop) :
    Lexeme → Cursor → Lexeme → Cursor → Prop
  | refused {sofar : Lexeme} {c after : Cursor} (h : item c none after) :
    Repeats item sofar c sofar after
  | empty {sofar next : Lexeme} {c after : Cursor} (h : item c (some next) after)
    (hempty : next.span.isEmpty = true) : Repeats item sofar c sofar after
  | more {sofar next whole : Lexeme} {c middle after : Cursor} (h : item c (some next) middle)
    (hmore : next.span.isEmpty = false)
    (hrest : Repeats item (sofar.append next) middle whole after) :
    Repeats item sofar c whole after

/-- A run of the matcher for a fragment from a cursor: its answer, and where it leaves the
cursor. -/
def Runs : Fragment → Cursor → Option Lexeme → Cursor → Prop
  | .literal text, c, answer, after =>
    if text <+: c.rest then c.Commits text.length answer after else c.Refuses answer after
  | .pattern p, c, answer, after =>
    match p.matchStart? c.rest with
    | some (text, _) => c.Commits text.length answer after
    | none => c.Refuses answer after
  | .search find?, c, answer, after =>
    match find? c.rest with
    | some (0, n) => c.Commits n answer after
    | _ => c.Refuses answer after
  | .both first second, c, answer, after =>
    -- the cursor that moves is a copy, which is dropped unless both match
    ∃ a? middle, first.Runs c a? middle ∧
      match a? with
      | none => c.Refuses answer after
      | some a => ∃ b? last, second.Runs middle b? last ∧
        match b? with
        | none => c.Refuses answer after
        | some b => answer = some (a.append b) ∧ after = last
  | .either first second, c, answer, after =>
    ∃ a? middle, first.Runs c a? middle ∧
      match a? with
      | some a => answer = some a ∧ after = middle
      | none => second.Runs middle answer after
  | .zeroOrMore item, c, answer, after =>
    ∃ whole, Repeats item.Runs (.empty c.point) c whole after ∧ answer = some whole
  | .oneOrMore item, c, answer, after =>
    ∃ a? middle, item.Runs c a? middle ∧
      match a? with
      | none => answer = none ∧ after = middle
      | some first => ∃ whole, Repeats item.Runs first middle whole after ∧ answer = some whole

/-- What a search in a fragment finds is inside the text that it was given. -/
def FindsWithin : Fragment → Prop
  | .literal _ | .pattern _ => True
  | .search find? => ∀ cs start n, find? cs = some (start, n) → start + n ≤ cs.length
  | .both first second | .either first second => first.FindsWithin ∧ second.FindsWithin
  | .zeroOrMore item | .oneOrMore item => item.FindsWithin

/-! ## What runs are -/

/-- The runs of a matcher are the matches: the cursor gets behind the match, or it stays where it
was if there is none. -/
def Agrees (runs : Cursor → Option Lexeme → Cursor → Prop)
    (match? : Cursor → Option (Lexeme × Cursor)) : Prop :=
  ∀ c answer after, runs c answer after ↔
    match match? c with
    | some (lexeme, behind) => answer = some lexeme ∧ after = behind
    | none => c.Refuses answer after

variable {runs : Cursor → Option Lexeme → Cursor → Prop}
  {match? : Cursor → Option (Lexeme × Cursor)} {next : Option Lexeme → Cursor → Prop}
  {sofar whole : Lexeme} {behind : Cursor}

/-- What follows a run follows the match, or starts where the run did if there is none. -/
theorem Agrees.exists_iff (h : Agrees runs match?) :
    (∃ a? middle, runs c a? middle ∧ next a? middle) ↔
      match match? c with
      | some (lexeme, behind) => next (some lexeme) behind
      | none => next none c := by
  simp only [h c]
  cases match? c with
  | none =>
    constructor
    · rintro ⟨_, _, ⟨rfl, rfl⟩, hnext⟩
      exact hnext
    · exact fun hnext => ⟨_, _, ⟨rfl, rfl⟩, hnext⟩
  | some found =>
    constructor
    · rintro ⟨_, _, ⟨rfl, rfl⟩, hnext⟩
      exact hnext
    · exact fun hnext => ⟨_, _, ⟨rfl, rfl⟩, hnext⟩

/-- A repetition makes one match, and goes on behind it unless there is none or it is empty. -/
theorem repeats_iff : Repeats runs sofar c whole after ↔ ∃ a? middle, runs c a? middle ∧
    match a? with
    | none => whole = sofar ∧ after = middle
    | some next =>
      if next.span.isEmpty then whole = sofar ∧ after = middle
      else Repeats runs (sofar.append next) middle whole after := by
  constructor
  · intro h
    cases h with
    | refused h => exact ⟨_, _, h, rfl, rfl⟩
    | empty h hempty => exact ⟨_, _, h, by simp [hempty]⟩
    | more h hmore hrest => exact ⟨_, _, h, by simpa [hmore] using hrest⟩
  · rintro ⟨a?, middle, h, hnext⟩
    cases a? with
    | none =>
      obtain ⟨rfl, rfl⟩ := hnext
      exact .refused h
    | some next =>
      dsimp only at hnext
      split at hnext
      · rename_i hempty
        obtain ⟨rfl, rfl⟩ := hnext
        exact .empty h hempty
      · rename_i hmore
        exact .more h (Bool.eq_false_iff.2 hmore) hnext

/-- A match that is empty leaves the cursor, and any other uses up a character. -/
theorem eq_or_length_lt_of_match? {f : Fragment} (h : f.match? c = some (lexeme, behind)) :
    lexeme.span.isEmpty = true ∧ behind = c ∨
      lexeme.span.isEmpty = false ∧ behind.rest.length < c.rest.length := by
  rw [f.match?_eq c] at h
  obtain ⟨⟨text, rest⟩, hs, htake⟩ := Option.map_eq_some_iff.1 h
  have happend := f.append_of_split? _ _ _ hs
  obtain ⟨rfl, rfl⟩ : (c.take text rest).1 = lexeme ∧ (c.take text rest).2 = behind :=
    Prod.mk.injEq .. ▸ htake
  rw [Cursor.isEmpty_span_take, Cursor.take_rest]
  cases text with
  | nil =>
    obtain rfl : rest = c.rest := happend
    exact .inl ⟨rfl, rfl⟩
  | cons d ds =>
    refine .inr ⟨rfl, ?_⟩
    rw [← happend, List.length_append, List.length_cons]
    omega

/-- A repetition without a bound is the repetition with one: every match but the last uses up a
character. -/
theorem repeats_iff_repeatFrom {f : Fragment} (h : Agrees runs f.match?) {bound : List Char}
    (hbound : c.rest.length ≤ bound.length) : Repeats runs sofar c whole after ↔
      whole = (repeatFrom f.match? bound sofar c).1 ∧
      after = (repeatFrom f.match? bound sofar c).2 := by
  induction bound generalizing sofar c with
  | nil =>
    rw [repeats_iff, h.exists_iff]
    cases hm : f.match? c with
    | none => rfl
    | some found =>
      obtain ⟨next, behind⟩ := found
      rcases eq_or_length_lt_of_match? hm with ⟨hempty, rfl⟩ | ⟨-, hlt⟩
      · simp only [hempty, if_true]
        rfl
      · exact absurd (Nat.lt_of_lt_of_le hlt hbound) (Nat.not_lt_zero _)
  | cons _ bound ih =>
    rw [repeats_iff, h.exists_iff, repeatFrom]
    cases hm : f.match? c with
    | none => rfl
    | some found =>
      obtain ⟨next, behind⟩ := found
      rcases eq_or_length_lt_of_match? hm with ⟨hempty, rfl⟩ | ⟨hmore, hlt⟩
      · simp only [hempty, if_true]
      · simp only [hmore, Bool.false_eq_true, if_false]
        exact ih (Nat.le_of_lt_succ (Nat.lt_of_lt_of_le hlt hbound))

/-- What a repetition answers in the end. -/
theorem exists_repeats_iff {f : Fragment} (h : Agrees runs f.match?) :
    (∃ whole, Repeats runs sofar c whole after ∧ answer = some whole) ↔
      answer = some (repeatFrom f.match? c.rest sofar c).1 ∧
      after = (repeatFrom f.match? c.rest sofar c).2 := by
  simp only [repeats_iff_repeatFrom h (Nat.le_refl _)]
  constructor
  · rintro ⟨_, ⟨rfl, hafter⟩, rfl⟩
    exact ⟨rfl, hafter⟩
  · rintro ⟨rfl, hafter⟩
    exact ⟨_, ⟨rfl, hafter⟩, rfl⟩

/-- What is moved over character by character is what the fragment splits off. -/
theorem commits_iff_of_split? {f : Fragment} {text rest : List Char}
    (h : f.split? c.rest = some (text, rest)) : c.Commits text.length answer after ↔
      match f.match? c with
      | some (lexeme, behind) => answer = some lexeme ∧ after = behind
      | none => c.Refuses answer after := by
  rw [f.match?_eq c, h]
  exact Cursor.commits_iff (f.append_of_split? _ _ _ h)

/-- Where nothing is split off there is no match. -/
theorem refuses_iff_of_split? {f : Fragment} (h : f.split? c.rest = none) :
    c.Refuses answer after ↔
      match f.match? c with
      | some (lexeme, behind) => answer = some lexeme ∧ after = behind
      | none => c.Refuses answer after := by
  rw [f.match?_eq c, h]
  rfl

/-- A fixed text is matched where it stands. -/
theorem agrees_literal (text : List Char) :
    Agrees (Fragment.literal text).Runs (Fragment.literal text).match? := by
  intro c answer after
  rw [Runs]
  cases hs : (Fragment.literal text).split? c.rest with
  | some pieces =>
    obtain ⟨found, rest⟩ := pieces
    obtain rfl := eq_of_split?_literal hs
    rw [if_pos ⟨rest, append_of_split? _ _ _ _ hs⟩]
    exact commits_iff_of_split? hs
  | none =>
    have hprefix : ¬ text <+: c.rest := by
      rintro ⟨rest, hrest⟩
      rw [← hrest, split?_literal_append] at hs
      cases hs
    rw [if_neg hprefix]
    exact refuses_iff_of_split? hs

/-- What a search finds at the cursor is matched. -/
theorem agrees_search {find? : List Char → Option (Nat × Nat)}
    (hfind : (Fragment.search find?).FindsWithin) :
    Agrees (Fragment.search find?).Runs (Fragment.search find?).match? := by
  intro c answer after
  rw [Runs]
  split
  · rename_i n hfound
    have hlength : (c.rest.take n).length = n := by
      rw [List.length_take]
      have := hfind _ _ _ hfound
      omega
    have hs : (Fragment.search find?).split? c.rest = some (c.rest.take n, c.rest.drop n) := by
      have hsplit := Cursor.splitExactly?_append (c.rest.take n) (c.rest.drop n)
      rw [hlength, List.take_append_drop] at hsplit
      rw [split?, hfound]
      exact hsplit
    rw [← commits_iff_of_split? hs, hlength]
  · rename_i hfound
    refine refuses_iff_of_split? ?_
    rw [split?]
    split
    · rename_i n hn
      exact absurd hn (hfound n)
    · rfl

/-- Whatever a fragment is, the runs of the matcher are its matches. -/
theorem agrees_runs {f : Fragment} (hf : f.FindsWithin) : Agrees f.Runs f.match? := by
  induction f with
  | literal text => exact agrees_literal text
  | pattern p =>
    intro c answer after
    rw [Runs]
    cases hm : p.matchStart? c.rest with
    | none => exact refuses_iff_of_split? (f := .pattern p) hm
    | some pieces => exact commits_iff_of_split? (f := .pattern p) hm
  | search find? => exact agrees_search hf
  | both first second ihf ihs =>
    intro c answer after
    rw [Runs, (ihf hf.1).exists_iff, match?]
    cases first.match? c with
    | none => rfl
    | some found =>
      refine (ihs hf.2).exists_iff.trans ?_
      dsimp only
      cases second.match? found.2 <;> rfl
  | either first second ihf ihs =>
    intro c answer after
    rw [Runs, (ihf hf.1).exists_iff, match?]
    cases first.match? c with
    | none => exact ihs hf.2 c answer after
    | some found => rfl
  | zeroOrMore item ih =>
    intro c answer after
    rw [Runs, exists_repeats_iff (ih hf)]
    rfl
  | oneOrMore item ih =>
    intro c answer after
    rw [Runs, (ih hf).exists_iff, match?]
    cases item.match? c with
    | none => rfl
    | some found => exact exists_repeats_iff (ih hf)

/-! ## Every fragment -/

/-- Provided that searches find what is in the text that they are given: whatever a fragment is and
wherever the cursor stands in a text, the matcher ends, in one way only.  Without a match the
cursor is exactly where it was.  A match is the piece of the text between the points where the
cursor was and where it is, which are the ends of its span.  What is matched, if anything, depends
on what is left of the text and not on the place. -/
theorem match_atomic {f : Fragment} (hf : f.FindsWithin) (before rest : List Char) :
    ∃ answer after, f.Runs ⟨rest, .behind before⟩ answer after ∧
      (∀ answer' after', f.Runs ⟨rest, .behind before⟩ answer' after' →
        answer' = answer ∧ after' = after) ∧
      f.match? ⟨rest, .behind before⟩ = answer.map (·, after) ∧
      (answer = none → after = ⟨rest, .behind before⟩) ∧
      (∀ lexeme, answer = some lexeme →
        lexeme.span = ⟨.behind before, after.point⟩ ∧
        rest = lexeme.text ++ after.rest ∧ after.point = .behind (before ++ lexeme.text) ∧
        (String.ofList (before ++ rest)).toByteArray.extract
            lexeme.span.start.offset lexeme.span.stop.offset =
          (String.ofList lexeme.text).toByteArray) ∧
      ∀ point answer' after', f.Runs ⟨rest, point⟩ answer' after' →
        answer'.map Lexeme.text = answer.map Lexeme.text ∧ after'.rest = after.rest := by
  have hagrees := agrees_runs hf
  have hmatch (point : Point) := f.match?_eq ⟨rest, point⟩
  cases hs : f.split? rest with
  | none =>
    have hruns (point : Point) (answer : Option Lexeme) (after : Cursor) :
        f.Runs ⟨rest, point⟩ answer after ↔ answer = none ∧ after = ⟨rest, point⟩ := by
      rw [hagrees, hmatch, hs]
      rfl
    refine ⟨none, _, (hruns _ _ _).2 ⟨rfl, rfl⟩, fun _ _ h => (hruns _ _ _).1 h, ?_, fun _ => rfl,
      nofun, fun point answer' after' h => ?_⟩
    · rw [hmatch, hs]
      rfl
    · obtain ⟨rfl, rfl⟩ := (hruns _ _ _).1 h
      exact ⟨rfl, rfl⟩
  | some pieces =>
    obtain ⟨text, left⟩ := pieces
    have happend : text ++ left = rest := f.append_of_split? _ _ _ hs
    have hruns (point : Point) (answer : Option Lexeme) (after : Cursor) :
        f.Runs ⟨rest, point⟩ answer after ↔
          answer = some ⟨⟨point, point.advance text⟩, text⟩ ∧
            after = ⟨left, point.advance text⟩ := by
      rw [hagrees, hmatch, hs]
      rfl
    refine ⟨_, _, (hruns _ _ _).2 ⟨rfl, rfl⟩, fun _ _ h => (hruns _ _ _).1 h, ?_, nofun, ?_,
      fun point answer' after' h => ?_⟩
    · rw [hmatch, hs]
      rfl
    · rintro lexeme ⟨⟩
      refine ⟨rfl, happend.symm, (Point.behind_append before text).symm, ?_⟩
      rw [← happend, ← List.append_assoc, ← Point.behind_append]
      exact Point.extract_behind before text left
    · obtain ⟨rfl, rfl⟩ := (hruns _ _ _).1 h
      exact ⟨rfl, rfl⟩

/-- A search for the digits at the start of a text. -/
def findDigits (cs : List Char) : Option (Nat × Nat) :=
  if cs.takeWhile Char.isDigit = [] then none else some (0, (cs.takeWhile Char.isDigit).length)

/-- The digits that are found are in the text. -/
theorem findsWithin_digits : (Fragment.search findDigits).FindsWithin := by
  intro cs start n h
  rw [findDigits] at h
  split at h
  · cases h
  · cases h
    rw [Nat.zero_add]
    exact (List.takeWhile_prefix _).length_le

/-- Optional numbers with a semicolon, again and again, in the second line of a text: the item
matches twice, and then nothing, as no semicolon follows the last number. -/
theorem match_atomic_digits :
    (Fragment.zeroOrMore (.optional (.both (.search findDigits) (.literal [';'])))).FindsWithin ∧
      ∃ answer after,
        (Fragment.zeroOrMore (.optional (.both (.search findDigits) (.literal [';'])))).Runs
          ⟨['1', '2', ';', '3', ';', '4'], .behind ['é', '\n']⟩ answer after ∧
        (∀ answer' after',
          (Fragment.zeroOrMore (.optional (.both (.search findDigits) (.literal [';'])))).Runs
            ⟨['1', '2', ';', '3', ';', '4'], .behind ['é', '\n']⟩ answer' after' →
          answer' = answer ∧ after' = after) ∧
        answer = some ⟨⟨⟨1, 0, 3⟩, ⟨1, 5, 8⟩⟩, ['1', '2', ';', '3', ';']⟩ ∧
        after = ⟨['4'], ⟨1, 5, 8⟩⟩ ∧
        "é\n12;3;4".toByteArray.extract 3 8 = "12;3;".toByteArray := by
  have hf : (Fragment.zeroOrMore
      (.optional (.both (.search findDigits) (.literal [';'])))).FindsWithin :=
    ⟨⟨findsWithin_digits, trivial⟩, trivial⟩
  obtain ⟨answer, after, hruns, hunique, hmatch, -, hexact, -⟩ :=
    match_atomic hf ['é', '\n'] ['1', '2', ';', '3', ';', '4']
  have hmatch' : (Fragment.zeroOrMore
      (.optional (.both (.search findDigits) (.literal [';'])))).match?
        ⟨['1', '2', ';', '3', ';', '4'], .behind ['é', '\n']⟩ =
      some (⟨⟨⟨1, 0, 3⟩, ⟨1, 5, 8⟩⟩, ['1', '2', ';', '3', ';']⟩, ⟨['4'], ⟨1, 5, 8⟩⟩) := by
    decide +kernel
  obtain ⟨lexeme, rfl, hlexeme⟩ := Option.map_eq_some_iff.1 (hmatch.symm.trans hmatch')
  obtain ⟨rfl, rfl⟩ := Prod.mk.injEq .. ▸ hlexeme
  obtain ⟨-, -, -, hslice⟩ := hexact _ rfl
  exact ⟨hf, _, _, hruns, hunique, rfl, rfl, hslice⟩

end Fragment

end ExprLang
