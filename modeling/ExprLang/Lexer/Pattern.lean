/-!
# Patterns of characters

A pattern is a small regular expression over characters.  It is read as a
preference among the beginnings of a text: {lit}`Pattern.rests` lists what each
possible match leaves over, the preferred match first.  Patterns also have the
usual written form, which {lit}`Pattern.ofString?` reads.

Main definitions:

- Definition {lit}`Pattern.rests`: every match of a pattern, the preferred first.
- Definition {lit}`Pattern.matchStart?`: the preferred match.
- Definition {lit}`Pattern.ofString?`: the pattern that a text writes.
-/

namespace ExprLang

/-! ## Sets of characters -/

/-- A set of characters: what lies in one of the ranges, or what lies in none. -/
structure CharSet where
  negated : Bool
  ranges : List (Char × Char)
deriving DecidableEq, Repr, Inhabited

namespace CharSet

/-- Whether a character belongs to a set. -/
def contains (s : CharSet) (c : Char) : Bool :=
  (s.ranges.any fun (low, high) => low ≤ c && c ≤ high) != s.negated

/-- The set of one character. -/
def only (c : Char) : CharSet := ⟨false, [(c, c)]⟩

/-- The set of some characters. -/
def ofList (cs : List Char) : CharSet := ⟨false, cs.map fun c => (c, c)⟩

/-- The set of all characters but some. -/
def except (cs : List Char) : CharSet := ⟨true, cs.map fun c => (c, c)⟩

/-- The set of all characters. -/
def any : CharSet := ⟨true, []⟩

/-- What is left of a text after zero, one, two and more characters of the set. -/
def runs (s : CharSet) : List Char → List (List Char)
  | [] => [[]]
  | c :: cs => (c :: cs) :: if s.contains c then s.runs cs else []

@[simp] theorem contains_any (c : Char) : any.contains c = true := rfl

@[simp] theorem contains_only (c d : Char) : (only c).contains d = (d == c) := by
  rw [Bool.eq_iff_iff, beq_iff_eq, eq_comm (a := d), ← Std.le_antisymm_iff (a := c)]
  simp [only, contains]

@[simp] theorem contains_ofList (cs : List Char) (c : Char) :
    (ofList cs).contains c = cs.contains c := by
  rw [Bool.eq_iff_iff]
  simp [ofList, contains, List.any_map, Function.comp_def, Std.le_antisymm_iff]

@[simp] theorem contains_except (cs : List Char) (c : Char) :
    (except cs).contains c = !cs.contains c := by
  have h : (ofList cs).contains c = cs.contains c := contains_ofList cs c
  simp only [contains, ofList, Bool.bne_false] at h
  simp [except, contains, h]

/-- What is left after some characters is an end of the text. -/
theorem suffix_of_mem_runs {s : CharSet} {cs rest : List Char} (h : rest ∈ s.runs cs) :
    rest <:+ cs := by
  induction cs with
  | nil => simp_all [runs]
  | cons c cs ih =>
    simp only [runs, List.mem_cons] at h
    rcases h with rfl | h
    · exact List.suffix_refl _
    · split at h
      · exact (ih h).trans (List.suffix_cons ..)
      · simp at h

end CharSet

/-! ## Patterns -/

/-- A regular expression over characters. -/
inductive Pattern where
  /-- Nothing. -/
  | empty
  /-- One character of a set. -/
  | one (set : CharSet)
  /-- Any number of characters of a set, preferably as many as possible if `greedy`
  and as few as possible if not. -/
  | many (set : CharSet) (greedy : Bool)
  /-- One pattern after another. -/
  | seq (first second : Pattern)
  /-- One of two patterns, preferably the first. -/
  | alt (first second : Pattern)
deriving DecidableEq, Repr, Inhabited

namespace Pattern

/-- At least one character of a set, and as many as possible. -/
def many1 (set : CharSet) : Pattern :=
  .seq (.one set) (.many set true)

/-- A pattern or nothing, preferably the pattern. -/
def optional (p : Pattern) : Pattern :=
  .alt p .empty

/-- A pattern a fixed number of times. -/
def times (p : Pattern) : Nat → Pattern
  | 0 => .empty
  | n + 1 => .seq p (p.times n)

/-- What each match at the start of a text leaves over, the preferred match first. -/
def rests : Pattern → List Char → List (List Char)
  | .empty, cs => [cs]
  | .one _, [] => []
  | .one set, c :: cs => if set.contains c then [cs] else []
  | .many set greedy, cs => if greedy then (set.runs cs).reverse else set.runs cs
  | .seq first second, cs => (first.rests cs).flatMap second.rests
  | .alt first second, cs => first.rests cs ++ second.rests cs

/-- The preferred match at the start of a text, with what it leaves over. -/
def matchStart? (p : Pattern) (cs : List Char) : Option (List Char × List Char) :=
  (p.rests cs).head?.map fun rest => (cs.take (cs.length - rest.length), rest)

/-- What a match leaves over is an end of the text. -/
theorem suffix_of_mem_rests {p : Pattern} {cs rest : List Char} (h : rest ∈ p.rests cs) :
    rest <:+ cs := by
  induction p generalizing cs rest with
  | empty => simp_all [rests]
  | one set =>
    cases cs with
    | nil => simp [rests] at h
    | cons c cs =>
      simp only [rests] at h
      split at h <;> simp_all
  | many set greedy =>
    have h : rest ∈ set.runs cs := by
      simp only [rests] at h
      split at h <;> simpa using h
    exact CharSet.suffix_of_mem_runs h
  | seq first second ihf ihs =>
    simp only [rests, List.mem_flatMap] at h
    obtain ⟨middle, hm, hr⟩ := h
    exact (ihs hr).trans (ihf hm)
  | alt first second ihf ihs =>
    simp only [rests, List.mem_append] at h
    exact h.elim ihf ihs

/-- A match and what it leaves over are the text. -/
theorem append_of_matchStart? {p : Pattern} {cs text rest : List Char}
    (h : p.matchStart? cs = some (text, rest)) : text ++ rest = cs := by
  simp only [matchStart?, Option.map_eq_some_iff] at h
  obtain ⟨found, hf, he⟩ := h
  have hs := suffix_of_mem_rests (List.mem_of_mem_head? hf)
  cases he
  obtain ⟨front, rfl⟩ := hs
  simp

/-! ## Written patterns -/

/-- The characters of a bracketed set up to its closing bracket. -/
def readRanges : List Char → List (Char × Char) → Option (List (Char × Char) × List Char)
  | [], _ => none
  | ']' :: cs, found => some (found.reverse, cs)
  | '\\' :: c :: cs, found => do
    let c ← escaped? c
    readRanges cs ((c, c) :: found)
  | low :: '-' :: high :: cs, found =>
    if high = ']' then some ((('-', '-') :: (low, low) :: found).reverse, cs)
    else readRanges cs ((low, high) :: found)
  | c :: cs, found => readRanges cs ((c, c) :: found)
where
  /-- The character that is written by a backslash and `c`. -/
  escaped? (c : Char) : Option Char :=
    if c = 'n' then some '\n'
    else if c = 't' then some '\t'
    else if c = 'r' then some '\r'
    else if c.isAlphanum then none
    else some c

/-- Reads what may follow a pattern to say how often it occurs. -/
def readCount (p : Pattern) : List Char → Option (Pattern × List Char)
  | '*' :: '?' :: cs => (setOf? p).map fun set => (.many set false, cs)
  | '*' :: cs => (setOf? p).map fun set => (.many set true, cs)
  | '+' :: '?' :: cs => (setOf? p).map fun set => (.seq (.one set) (.many set false), cs)
  | '+' :: cs => (setOf? p).map fun set => (.many1 set, cs)
  | '?' :: '?' :: cs => some (.alt .empty p, cs)
  | '?' :: cs => some (.optional p, cs)
  | '\x7b' :: cs =>
    let digits := cs.takeWhile Char.isDigit
    match cs.dropWhile Char.isDigit, (String.ofList digits).toNat? with
    | '\x7d' :: rest, some n => some (p.times n, rest)
    | _, _ => none
  | cs => some (p, cs)
where
  /-- The set of a pattern for one character. -/
  setOf? : Pattern → Option CharSet
    | .one set => some set
    | _ => none

/-- Reads alternatives up to a closing parenthesis or the end.  The first argument
bounds the number of steps, `dotAll` says whether a dot stands for a newline too, and
`sofar` is what precedes in the same alternative. -/
def readAlternatives : Nat → Bool → Pattern → List Char → Option (Pattern × List Char)
  | 0, _, _, _ => none
  | _ + 1, _, sofar, [] => some (sofar, [])
  | _ + 1, _, sofar, ')' :: cs => some (sofar, ')' :: cs)
  | n + 1, dotAll, sofar, '|' :: cs => do
    let (second, rest) ← readAlternatives n dotAll .empty cs
    some (.alt sofar second, rest)
  | n + 1, _, sofar, '(' :: '?' :: 's' :: ')' :: cs => readAlternatives n true sofar cs
  | n + 1, dotAll, sofar, '(' :: cs => do
    let (inside, cs) :=
      match cs with
      | '?' :: 's' :: ':' :: cs => (true, cs)
      | '?' :: ':' :: cs => (dotAll, cs)
      | cs => (dotAll, cs)
    match ← readAlternatives n inside .empty cs with
    | (group, ')' :: rest) => item n dotAll sofar group rest
    | _ => none
  | n + 1, dotAll, sofar, '[' :: cs => do
    let (negated, cs) := match cs with
      | '^' :: cs => (true, cs)
      | cs => (false, cs)
    let (ranges, rest) ← readRanges cs []
    item n dotAll sofar (.one ⟨negated, ranges⟩) rest
  | n + 1, dotAll, sofar, '.' :: cs =>
    item n dotAll sofar (.one (if dotAll then .any else .except ['\n'])) cs
  | n + 1, dotAll, sofar, '\\' :: c :: cs => do
    let c ← readRanges.escaped? c
    item n dotAll sofar (.one (.only c)) cs
  | n + 1, dotAll, sofar, c :: cs => item n dotAll sofar (.one (.only c)) cs
where
  /-- Adds a pattern, with how often it occurs, and reads on. -/
  item (n : Nat) (dotAll : Bool) (sofar p : Pattern) (cs : List Char) :
      Option (Pattern × List Char) := do
    let (p, rest) ← readCount p cs
    let sofar := if sofar = .empty then p else .seq sofar p
    readAlternatives n dotAll sofar rest

/-- The pattern that a text writes. -/
def ofString? (text : String) : Option Pattern :=
  match readAlternatives (text.length + 1) false .empty text.toList with
  | some (p, []) => some p
  | _ => none

end Pattern

end ExprLang
