import ExprLang.Proofs.Lexer.Endings
import ExprLang.Proofs.Lexer.Numbers
import ExprLang.Proofs.Lexer.Quotes
import ExprLang.Proofs.Lexer.Trivia

/-!
# Texts that are cut off and go on

A match that ends in some text is there too if the text ends behind it.  The other
way round, what is matched in a text is matched where the text goes on, if it goes
on with a character that the fragment avoids, or if the match has ended before.

Main definitions:

- Definition {lit}`Fragment.avoids`: a fragment moves over no such character.
- Definition {lit}`Fragment.Cuts`: what a fragment matches it matches also where the
  text ends behind it.
- Definition {lit}`Fragment.Settles`: a match that ends before some character stays
  where the text goes on.

Main results:

- Theorem {lit}`Fragment.split?_of_avoids`: what a fragment matches before a
  character that it avoids.
- Theorem {lit}`Fragment.cuts_pattern`: patterns match where a text is cut off.
- Theorem {lit}`Fragment.matchesAlike_of_settles`: what matches the same before two
  endings up to matches that reach them.
-/

namespace ExprLang

/-! ## Characters outside of patterns -/

/-- Whether no character that a pattern moves over is a given one. -/
def Pattern.avoids (c : Char) : Pattern → Bool
  | .empty => true
  | .one s | .many s _ => !s.contains c
  | .seq first second | .alt first second => first.avoids c && second.avoids c

/-- Whether no character that a fragment moves over is a given one. -/
def Fragment.avoids (c : Char) : Fragment → Bool
  | .literal text => !text.contains c
  | .pattern p => p.avoids c
  | .both first second | .either first second => first.avoids c && second.avoids c
  | .search _ | .zeroOrMore _ | .oneOrMore _ => false

variable {c : Char} {cs text rest tail tail' : List Char}

/-- Runs of a set that a character is outside of end before it. -/
theorem CharSet.runs_of_avoids {s : CharSet} (h : s.contains c = false) (cs tail : List Char) :
    s.runs (cs ++ c :: tail) = (s.runs cs).map (· ++ c :: tail) := by
  induction cs with
  | nil => simp [runs, h]
  | cons d cs ih =>
    by_cases hd : s.contains d = true
    · simp [runs, hd, ih]
    · simp [runs, hd]

/-- What a pattern leaves over before a character that it avoids. -/
theorem Pattern.rests_of_avoids {p : Pattern} (h : p.avoids c = true) (cs tail : List Char) :
    p.rests (cs ++ c :: tail) = (p.rests cs).map (· ++ c :: tail) := by
  induction p generalizing cs with
  | empty => rfl
  | one s =>
    have hs : s.contains c = false := by simpa [avoids] using h
    cases cs with
    | nil => simp [rests, hs]
    | cons d cs => by_cases hd : s.contains d = true <;> simp [rests, hd]
  | many s greedy =>
    have hruns := CharSet.runs_of_avoids (by simpa [avoids] using h) cs tail
    cases greedy with
    | true => simp [rests, hruns]
    | false => simp [rests, hruns]
  | seq first second ihf ihs =>
    obtain ⟨hf, hs⟩ := Bool.and_eq_true_iff.1 h
    rw [rests, rests, ihf hf, List.flatMap_map, List.map_flatMap]
    exact List.flatMap_congr fun middle _ => ihs hs middle
  | alt first second ihf ihs =>
    obtain ⟨hf, hs⟩ := Bool.and_eq_true_iff.1 h
    rw [rests, rests, ihf hf, ihs hs, List.map_append]

/-! ## Patterns and cut texts -/

/-- Of the runs of a set in a text, those that leave over an ending are the runs before it. -/
theorem CharSet.filter_runs_append (s : CharSet) (cs tail : List Char) :
    (s.runs (cs ++ tail)).filter (tail.length ≤ ·.length) = (s.runs cs).map (· ++ tail) := by
  induction cs with
  | nil =>
    cases tail with
    | nil => rfl
    | cons d ds =>
      have hshort : (s.runs ds).filter ((d :: ds).length ≤ ·.length) = [] := by
        refine List.filter_eq_nil_iff.2 fun rest hrest => ?_
        have hle := (suffix_of_mem_runs hrest).length_le
        simp only [List.length_cons, decide_eq_true_eq]
        omega
      by_cases hd : s.contains d = true
      · simpa [runs, hd] using hshort
      · simp [runs, hd]
  | cons d cs ih =>
    by_cases hd : s.contains d = true
    · simpa [runs, hd, Nat.le_succ_of_le (Nat.le_add_left ..)] using ih
    · simp [runs, hd, Nat.le_succ_of_le (Nat.le_add_left ..)]

namespace Pattern

/-- Of what a pattern leaves over of a text, that which contains an ending is what it leaves over
before the ending. -/
theorem filter_rests_append (p : Pattern) (cs tail : List Char) :
    (p.rests (cs ++ tail)).filter (tail.length ≤ ·.length) = (p.rests cs).map (· ++ tail) := by
  induction p generalizing cs with
  | empty => simp [rests]
  | one s =>
    cases cs with
    | nil =>
      cases tail with
      | nil => rfl
      | cons d ds => by_cases hd : s.contains d = true <;> simp [rests, hd]
    | cons d cs => by_cases hd : s.contains d = true <;> simp [rests, hd]
  | many s greedy =>
    have hruns := CharSet.filter_runs_append s cs tail
    cases greedy with
    | true => simp only [rests, if_pos, List.filter_reverse, hruns, List.map_reverse]
    | false => simpa [rests] using hruns
  | seq first second ihf ihs =>
    -- a match of the first that reaches into the ending leaves too little over
    have hshort (middle : List Char) (h : ¬ tail.length ≤ middle.length) :
        (second.rests middle).filter (tail.length ≤ ·.length) = [] := by
      refine List.filter_eq_nil_iff.2 fun rest hrest => ?_
      have hle := (suffix_of_mem_rests hrest).length_le
      simp only [decide_eq_true_eq]
      omega
    have hlong (middles : List (List Char)) :
        middles.flatMap (fun middle => (second.rests middle).filter (tail.length ≤ ·.length)) =
          (middles.filter (tail.length ≤ ·.length)).flatMap fun middle =>
            (second.rests middle).filter (tail.length ≤ ·.length) := by
      induction middles with
      | nil => rfl
      | cons middle middles ih =>
        by_cases h : tail.length ≤ middle.length
        · simp [h, ih]
        · simp [h, ih, hshort middle h]
    rw [rests, rests, List.filter_flatMap, hlong, ihf, List.flatMap_map, List.map_flatMap]
    exact List.flatMap_congr fun middle _ => ihs middle
  | alt first second ihf ihs => simp [rests, ihf, ihs]

/-- A pattern that matches a text matches where the text goes on. -/
theorem rests_eq_nil_of_append {p : Pattern} (h : p.rests (cs ++ tail) = []) : p.rests cs = [] := by
  have hfilter := p.filter_rests_append cs tail
  rw [h] at hfilter
  exact List.map_eq_nil_iff.1 hfilter.symm

/-- What a pattern leaves over, it leaves over where the text is cut off behind the match. -/
theorem head?_rests_of_append {p : Pattern}
    (h : (p.rests (cs ++ tail)).head? = some (rest ++ tail)) : (p.rests cs).head? = some rest := by
  obtain ⟨others, hrests⟩ := List.head?_eq_some_iff.1 h
  have hfilter := p.filter_rests_append cs tail
  rw [hrests, List.filter_cons_of_pos (by simp)] at hfilter
  cases hcut : p.rests cs with
  | nil => rw [hcut] at hfilter; cases hfilter
  | cons found left =>
    rw [hcut, List.map_cons] at hfilter
    rw [List.head?_cons, List.append_cancel_right (List.cons.inj hfilter).1]

end Pattern

namespace Fragment

variable {f first second : Fragment} {before : Char → Prop} {last : List Char → Prop}

/-! ## Characters outside of fragments -/

/-- What a fragment matches before a character that it avoids. -/
theorem split?_of_avoids (h : f.avoids c = true) (cs tail : List Char) :
    f.split? (cs ++ c :: tail) =
      (f.split? cs).map fun (text, rest) => (text, rest ++ c :: tail) := by
  induction f generalizing cs with
  | literal text =>
    have htext : c ∉ text := by simpa [avoids] using h
    induction text generalizing cs with
    | nil => simp [split?, Cursor.splitExactly?, Option.filter]
    | cons d ds ih =>
      obtain ⟨hd, hds⟩ : c ≠ d ∧ c ∉ ds := by simpa using htext
      cases cs with
      | nil =>
        rw [List.nil_append, split?_literal_cons, if_neg hd]
        rfl
      | cons e cs =>
        rw [List.cons_append, split?_literal_cons, split?_literal_cons]
        split
        · rw [ih (by simpa [avoids] using hds) cs hds, Option.map_map, Option.map_map]
          rfl
        · rfl
  | pattern p =>
    rw [split?, split?, Pattern.matchStart?, Pattern.matchStart?, Pattern.rests_of_avoids h]
    cases p.rests cs with
    | nil => rfl
    | cons rest others =>
      have hlength : (cs ++ c :: tail).length - (rest ++ c :: tail).length =
          cs.length - rest.length := by
        simp only [List.length_append]
        omega
      simp only [List.map_cons, List.head?_cons, Option.map_some, hlength,
        List.take_append_of_le_length (Nat.sub_le ..)]
  | both first second ihf ihs =>
    obtain ⟨hf, hs⟩ := Bool.and_eq_true_iff.1 h
    rw [split?, split?, ihf hf]
    cases first.split? cs with
    | none => rfl
    | some pieces =>
      dsimp only [Option.map_some]
      rw [ihs hs]
      cases second.split? pieces.2 <;> rfl
  | either first second ihf ihs =>
    obtain ⟨hf, hs⟩ := Bool.and_eq_true_iff.1 h
    rw [split?, split?, ihf hf, ihs hs]
    cases first.split? cs <;> rfl
  | search => cases h
  | zeroOrMore => cases h
  | oneOrMore => cases h

/-- What is matched before a character that the fragment avoids is matched where the text is cut
off there. -/
theorem matchesAlike_nil_of_avoids (h : f.avoids c = true) :
    f.MatchesAlike cs (c :: tail) [] last where
  of_none hs := by
    rw [split?_of_avoids h] at hs
    rw [List.append_nil, Option.map_eq_none_iff.1 hs]
  of_some text rest _ _ hs := by
    rw [split?_of_avoids h] at hs
    obtain ⟨⟨found, left⟩, hfound, hpieces⟩ := Option.map_eq_some_iff.1 hs
    obtain ⟨rfl, hleft⟩ := Prod.mk.inj hpieces
    rw [List.append_nil, List.append_nil, hfound, List.append_cancel_right hleft]

/-- What is matched of a text is matched where the text goes on with a character that the fragment
avoids. -/
theorem matchesAlike_of_avoids (h : f.avoids c = true) :
    f.MatchesAlike cs [] (c :: tail) last where
  of_none hs := by
    rw [List.append_nil] at hs
    rw [split?_of_avoids h, hs]
    rfl
  of_some text rest _ _ hs := by
    rw [List.append_nil, List.append_nil] at hs
    rw [split?_of_avoids h, hs]
    rfl

/-! ## Cut texts -/

/-- What a fragment matches of a text it matches also where the text is cut off behind it, and
where it matches a text it matches the texts that go on with it. -/
def Cuts (f : Fragment) : Prop :=
  ∀ cs tail, f.MatchesAlike cs tail [] fun _ => True

/-- A fixed text. -/
theorem cuts_literal (text : List Char) : (literal text).Cuts := by
  refine fun cs tail => ⟨fun h => ?_, fun found rest happend _ h => ?_⟩
  · cases hs : (literal text).split? (cs ++ []) with
    | none => rfl
    | some pieces =>
      obtain ⟨found, rest⟩ := pieces
      obtain rfl := eq_of_split?_literal hs
      have happend := append_of_split? _ _ _ _ hs
      rw [List.append_nil] at happend
      rw [← happend, List.append_assoc, split?_literal_append] at h
      cases h
  · rw [eq_of_split?_literal h] at happend ⊢
    rw [← happend, List.append_assoc, split?_literal_append]

/-- A pattern. -/
theorem cuts_pattern (p : Pattern) : (pattern p).Cuts := by
  refine fun cs tail => ⟨fun h => ?_, fun text rest happend _ h => ?_⟩
  · have hrests := List.head?_eq_none_iff.1 (Option.map_eq_none_iff.1 h)
    rw [List.append_nil, split?, Pattern.matchStart?, Pattern.rests_eq_nil_of_append hrests]
    rfl
  · have hhead := Pattern.head?_rests_of_append (Reference.exists_of_matchStart? h)
    subst happend
    rw [List.append_nil, List.append_nil]
    exact Reference.matchStart?_append hhead

/-- One of two fragments. -/
theorem Cuts.either (hf : first.Cuts) (hs : second.Cuts) : (Fragment.either first second).Cuts :=
  fun cs tail => (hf cs tail).either (hs cs tail)

/-- Two fragments one after the other, if they match wherever they match a text that goes on. -/
theorem Cuts.both (hf : first.Cuts) (hs : second.Cuts)
    (hgoes : ∀ cs a middle b rest, first.split? cs = some (a, middle) →
      second.split? middle = some (b, rest) → ∀ tail,
        (Fragment.both first second).split? (cs ++ tail) ≠ none) :
    (Fragment.both first second).Cuts := by
  refine fun cs tail => ⟨fun h => ?_, fun text rest happend _ h => ?_⟩
  · rw [List.append_nil]
    cases hsplit : (Fragment.both first second).split? cs with
    | none => rfl
    | some pieces =>
      obtain ⟨a, middle, b, ha, hb, -⟩ := exists_of_split?_both hsplit
      exact absurd h (hgoes cs a middle b _ ha hb tail)
  · obtain ⟨a, middle, b, ha, hb, rfl⟩ := exists_of_split?_both h
    obtain rfl : b ++ (rest ++ tail) = middle := second.append_of_split? _ _ _ hb
    rw [← List.append_assoc] at ha hb
    have hfirst := (hf cs tail).of_some a (b ++ rest) (by rw [← happend, List.append_assoc])
      (fun _ => trivial) ha
    exact split?_both hfirst ((hs _ tail).of_some b rest rfl (fun _ => trivial) hb)

/-- A fragment and one that may be missing. -/
theorem Cuts.both_optional (hf : first.Cuts) (hs : second.Cuts) :
    (Fragment.both first (.optional second)).Cuts := by
  refine hf.both (hs.either (cuts_literal [])) fun cs a middle b rest ha _ tail h => ?_
  cases hfirst : first.split? (cs ++ tail) with
  | none =>
    have hnone := (hf cs tail).of_none hfirst
    rw [List.append_nil, ha] at hnone
    cases hnone
  | some pieces =>
    cases hsecond : second.split? pieces.2 with
    | none => simp [split?_both hfirst (split?_optional_of_none hsecond)] at h
    | some found => simp [split?_both hfirst (split?_optional hsecond)] at h

/-! ## Matches that have ended -/

/-- What a fragment matches of a text before some character it matches also where the text goes
on. -/
def Settles (f : Fragment) (before : Char → Prop) : Prop :=
  ∀ cs text c rest, before c → f.split? cs = some (text, c :: rest) →
    ∀ tail, f.split? (cs ++ tail) = some (text, c :: (rest ++ tail))

/-- A fixed text. -/
theorem settles_literal (text : List Char) (before : Char → Prop) :
    (literal text).Settles before := by
  intro cs found c rest _ h tail
  obtain rfl := eq_of_split?_literal h
  rw [← append_of_split? _ _ _ _ h, List.append_assoc, split?_literal_append]
  rfl

/-- A pattern, by what it leaves over. -/
theorem settles_pattern {p : Pattern} (h : ∀ cs c rest, (p.rests cs).head? = some (c :: rest) →
    ∀ tail, (p.rests (cs ++ tail)).head? = some (c :: (rest ++ tail))) :
    (pattern p).Settles before := by
  intro cs text c rest _ hs tail
  have hhead := h cs c rest (Reference.exists_of_matchStart? hs) tail
  rw [← Pattern.append_of_matchStart? hs, List.append_assoc] at hhead ⊢
  exact Reference.matchStart?_append hhead

/-- A run of a set that ends before the end of a text ends there where the text goes on. -/
theorem head?_rests_many_append {s : CharSet} (h : ((Pattern.many s true).rests cs).head? =
    some (c :: rest)) (tail : List Char) :
    ((Pattern.many s true).rests (cs ++ tail)).head? = some (c :: (rest ++ tail)) := by
  simp only [Pattern.rests, if_pos, List.head?_reverse, CharSet.getLast?_runs] at h ⊢
  rw [List.dropWhile_append, Option.some.inj h]
  rfl

/-- A character and a run of others. -/
theorem settles_run (s t : CharSet) :
    (pattern (.seq (.one s) (.many t true))).Settles before := by
  refine settles_pattern fun cs c rest h tail => ?_
  cases cs with
  | nil => cases h
  | cons d cs =>
    rw [List.cons_append]
    by_cases hd : s.contains d = true
    · rw [Pattern.rests, Pattern.rests, if_pos hd, List.flatMap_singleton] at h ⊢
      exact head?_rests_many_append h tail
    · rw [Pattern.rests, Pattern.rests, if_neg hd] at h
      cases h

/-- Where something is left over there was something. -/
theorem exists_cons_of_split? (h : f.split? cs = some (text, c :: rest)) :
    ∃ d more, cs = d :: more := by
  refine List.exists_cons_of_ne_nil fun e => ?_
  have happend := f.append_of_split? _ _ _ h
  rw [e] at happend
  exact absurd (List.append_eq_nil_iff.1 happend).2 (List.cons_ne_nil _ _)

/-- Two fragments one after the other. -/
theorem Settles.both (hf : first.Settles fun _ => True) (hs : second.Settles before) :
    (Fragment.both first second).Settles before := by
  intro cs text c rest hc h tail
  obtain ⟨a, middle, b, ha, hb, rfl⟩ := exists_of_split?_both h
  obtain ⟨d, more, rfl⟩ := exists_cons_of_split? hb
  exact split?_both (hf cs a d more trivial ha tail) (hs _ b c rest hc hb tail)

/-- A fragment that may be missing, before characters that it refuses. -/
theorem Settles.optional (hf : f.Settles before)
    (hrefuses : ∀ c, before c → f.refuses c = true) : (optional f).Settles before := by
  intro cs text c rest hc h tail
  cases hs : f.split? cs with
  | none =>
    rw [split?_optional_of_none hs] at h
    cases h
    exact split?_optional_of_none (split?_of_refuses (hrefuses c hc) _)
  | some pieces =>
    obtain ⟨found, left⟩ := pieces
    rw [split?_optional hs] at h
    cases h
    exact split?_optional (hf cs text c rest hc hs tail)

/-- Two fragments one after the other of which the second begins only where the first has ended. -/
theorem Cuts.both_of_settles (hf : first.Cuts) (hs : second.Cuts) (hsettles : first.Settles before)
    (hnil : second.split? [] = none) (hrefuses : ∀ c, ¬ before c → second.refuses c = true) :
    (Fragment.both first second).Cuts := by
  refine hf.both hs fun cs a middle b rest ha hb tail h => ?_
  cases middle with
  | nil => rw [hnil] at hb; cases hb
  | cons c more =>
    have hc : before c := by
      by_contra hc
      rw [split?_of_refuses (hrefuses c hc)] at hb
      cases hb
    have hfirst := hsettles cs a c more hc ha tail
    cases hsecond : second.split? (c :: more ++ tail) with
    | none =>
      have hnone := (hs (c :: more) tail).of_none hsecond
      rw [List.append_nil, hb] at hnone
      cases hnone
    | some pieces =>
      rw [split?_both hfirst hsecond] at h
      cases h

/-- What has ended before the end of a text matches the same before any two endings of it. -/
theorem matchesAlike_of_settles (hcuts : f.Cuts) (hsettles : f.Settles fun _ => True)
    (hnone : f.split? (cs ++ tail) = none → f.split? (cs ++ tail') = none) :
    f.MatchesAlike cs tail tail' fun _ => False where
  of_none := hnone
  of_some text rest happend hlast h := by
    obtain ⟨c, more, rfl⟩ := List.exists_cons_of_ne_nil (l := rest) hlast
    have hcut := (hcuts cs tail).of_some text _ happend (fun _ => trivial) h
    rw [List.append_nil, List.append_nil] at hcut
    exact hsettles cs text c more trivial hcut tail'

end Fragment

end ExprLang
