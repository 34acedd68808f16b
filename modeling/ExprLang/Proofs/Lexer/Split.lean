import ExprLang.Lexer.Grammar

/-!
# Matches without places

What a fragment matches depends on the text alone: it splits the text, and the
cursor moves over the first piece.  So a match never runs past the end of the
text, and its span ends where the cursor goes on.

Main definitions:

- Definition {lit}`Fragment.split?`: how a fragment splits a text.
- Definition {lit}`firstSplit?`: how the first rule that applies splits a text.

Main results:

- Theorem {lit}`Fragment.match?_eq`: a match moves over what the fragment splits
  off.
- Theorem {lit}`Cursor.advance_take`: moving over a piece of the text is moving
  over its characters one by one.
-/

namespace ExprLang

/-! ## Cursors -/

namespace Cursor

/-- Moving over two pieces one after the other is moving over both. -/
theorem take_take (c : Cursor) (a b middle rest : List Char) :
    (((c.take a middle).1.append ((c.take a middle).2.take b rest).1),
      ((c.take a middle).2.take b rest).2) = c.take (a ++ b) rest := by
  simp [take, Lexeme.append, Span.through, Point.advance_append]

/-- A piece takes up no bytes exactly if it has no characters. -/
@[simp] theorem isEmpty_span_take (c : Cursor) (text rest : List Char) :
    (c.take text rest).1.span.isEmpty = text.isEmpty := by
  cases text with
  | nil => simp [Span.isEmpty, Span.byteLength]
  | cons d ds =>
    have hpos : 0 < d.utf8Size := d.utf8Size_pos
    simp only [take_span, Span.isEmpty, Span.byteLength, Point.advance_offset, List.foldr_cons,
      List.isEmpty_cons, beq_eq_false_iff_ne]
    omega

/-- Moving over a piece of the text is moving over its characters one by one. -/
theorem advance_take {c : Cursor} {text rest : List Char} (h : c.rest = text ++ rest) :
    c.advance text.length = .ok (c.take text rest).2 := by
  obtain ⟨cs, point⟩ := c
  dsimp only at h
  subst h
  induction text generalizing point with
  | nil => rfl
  | cons d ds ih => exact ih (point.next d)

/-- A piece that is all that is left, or is followed by something, is split off by its length. -/
theorem splitExactly?_append (text rest : List Char) :
    splitExactly? text.length (text ++ rest) = some (text, rest) := by
  induction text with
  | nil => rfl
  | cons c cs ih => simp [splitExactly?, ih]

end Cursor

/-! ## Fragments -/

namespace Fragment

/-- Extends `sofar` by what `item` splits off until there is nothing or an empty piece.  The first
argument bounds the number of pieces. -/
def splitRepeat (item : List Char → Option (List Char × List Char)) :
    List Char → List Char → List Char → List Char × List Char
  | [], sofar, cs => (sofar, cs)
  | _ :: bound, sofar, cs =>
    match item cs with
    | none => (sofar, cs)
    | some (next, rest) =>
      if next.isEmpty then (sofar, rest) else splitRepeat item bound (sofar ++ next) rest

/-- What a fragment matches at the start of a text, and what it leaves over. -/
def split? : Fragment → List Char → Option (List Char × List Char)
  | .literal text, cs =>
    (Cursor.splitExactly? text.length cs).filter fun (found, _) => found == text
  | .pattern p, cs => p.matchStart? cs
  | .search find?, cs =>
    match find? cs with
    | some (0, n) => Cursor.splitExactly? n cs
    | _ => none
  | .both first second, cs =>
    match first.split? cs with
    | none => none
    | some (a, middle) =>
      match second.split? middle with
      | none => none
      | some (b, rest) => some (a ++ b, rest)
  | .either first second, cs => (first.split? cs).or (second.split? cs)
  | .zeroOrMore item, cs => some (splitRepeat item.split? cs [] cs)
  | .oneOrMore item, cs =>
    match item.split? cs with
    | none => none
    | some (first, rest) => some (splitRepeat item.split? rest first rest)

/-- A fragment splits the text. -/
def Splits (split : List Char → Option (List Char × List Char)) : Prop :=
  ∀ cs text rest, split cs = some (text, rest) → text ++ rest = cs

/-- Repetition splits the text if each item does. -/
theorem append_splitRepeat {item : List Char → Option (List Char × List Char)}
    (hitem : Splits item) (bound sofar cs : List Char) :
    (splitRepeat item bound sofar cs).1 ++ (splitRepeat item bound sofar cs).2 = sofar ++ cs := by
  induction bound generalizing sofar cs with
  | nil => rfl
  | cons _ bound ih =>
    simp only [splitRepeat]
    cases hi : item cs with
    | none => rfl
    | some pieces =>
      obtain ⟨next, rest⟩ := pieces
      have happend := hitem cs next rest hi
      dsimp only
      split
      · rename_i hempty
        rw [List.isEmpty_iff.1 hempty, List.nil_append] at happend
        rw [happend]
      · rw [ih, List.append_assoc, happend]

/-- What two fragments match one after the other. -/
theorem exists_of_split?_both {first second : Fragment} {cs text rest : List Char}
    (h : (both first second).split? cs = some (text, rest)) :
    ∃ a middle b, first.split? cs = some (a, middle) ∧ second.split? middle = some (b, rest) ∧
      text = a ++ b := by
  simp only [split?] at h
  cases hf : first.split? cs with
  | none => rw [hf] at h; cases h
  | some pieces =>
    obtain ⟨a, middle⟩ := pieces
    rw [hf] at h
    cases hs : second.split? middle with
    | none => simp only [hs] at h; cases h
    | some pieces =>
      obtain ⟨b, rest'⟩ := pieces
      simp only [hs, Option.some.injEq, Prod.mk.injEq] at h
      obtain ⟨rfl, rfl⟩ := h
      exact ⟨a, middle, b, rfl, hs, rfl⟩

/-- What one of two fragments matches. -/
theorem or_of_split?_either {first second : Fragment} {cs text rest : List Char}
    (h : (either first second).split? cs = some (text, rest)) :
    first.split? cs = some (text, rest) ∨ second.split? cs = some (text, rest) :=
  (Option.or_eq_some_iff.1 h).imp id (·.2)

/-- What a fragment matches and what it leaves over are the text. -/
theorem append_of_split? (f : Fragment) : Splits f.split? := by
  induction f with
  | literal text =>
    intro cs found rest h
    exact (Cursor.append_of_splitExactly? (Option.filter_eq_some_iff.1 h).1).1
  | pattern p => exact fun cs text rest h => Pattern.append_of_matchStart? h
  | search find? =>
    intro cs text rest h
    simp only [split?] at h
    split at h
    · exact (Cursor.append_of_splitExactly? h).1
    · cases h
  | both first second ihf ihs =>
    intro cs text rest h
    obtain ⟨a, middle, b, hf, hs, rfl⟩ := exists_of_split?_both h
    rw [List.append_assoc, ihs _ _ _ hs, ihf _ _ _ hf]
  | either first second ihf ihs =>
    intro cs text rest h
    rcases or_of_split?_either h with h | h
    · exact ihf _ _ _ h
    · exact ihs _ _ _ h
  | zeroOrMore item ih =>
    intro cs text rest h
    have happend := append_splitRepeat ih cs [] cs
    rw [Option.some.inj h] at happend
    exact happend
  | oneOrMore item ih =>
    intro cs text rest h
    simp only [split?] at h
    cases hi : item.split? cs with
    | none => rw [hi] at h; cases h
    | some pieces =>
      obtain ⟨first, rest'⟩ := pieces
      simp only [hi] at h
      have happend := append_splitRepeat ih rest' first rest'
      rw [Option.some.inj h] at happend
      rw [happend, ih _ _ _ hi]

/-- An item of a repetition moves over what it splits off. -/
def MovesOver (item : Cursor → Option (Lexeme × Cursor))
    (split : List Char → Option (List Char × List Char)) : Prop :=
  ∀ c, item c = (split c.rest).map fun (text, rest) => c.take text rest

/-- Repetition moves over what it splits off. -/
theorem repeatFrom_eq {item : Cursor → Option (Lexeme × Cursor)}
    {split : List Char → Option (List Char × List Char)} (hitem : MovesOver item split)
    (c : Cursor) (bound sofar cs : List Char) :
    repeatFrom item bound (c.take sofar cs).1 (c.take sofar cs).2 =
      c.take (splitRepeat split bound sofar cs).1 (splitRepeat split bound sofar cs).2 := by
  induction bound generalizing sofar cs with
  | nil => rfl
  | cons _ bound ih =>
    rw [repeatFrom, hitem, Cursor.take_rest, splitRepeat]
    cases hs : split cs with
    | none => rfl
    | some pieces =>
      obtain ⟨next, rest⟩ := pieces
      dsimp only [Option.map_some]
      rw [Cursor.isEmpty_span_take]
      have htake := Cursor.take_take c sofar next cs rest
      have hlexeme := congrArg Prod.fst htake
      have hcursor := congrArg Prod.snd htake
      dsimp only at hlexeme hcursor
      by_cases hempty : next.isEmpty = true
      · rw [if_pos hempty, if_pos hempty, hcursor, List.isEmpty_iff.1 hempty, List.append_nil]
        rfl
      · rw [if_neg hempty, if_neg hempty, hlexeme, hcursor]
        exact ih ..

/-- A match moves over what the fragment splits off. -/
theorem match?_eq (f : Fragment) : MovesOver f.match? f.split? := by
  induction f with
  | literal text =>
    intro c
    simp only [match?, Cursor.consumeSegment?, split?]
    cases Cursor.splitExactly? text.length c.rest with
    | none => rfl
    | some pieces =>
      obtain ⟨found, rest⟩ := pieces
      dsimp only
      by_cases h : found == text
      · simp [Option.filter, h]
      · simp [Option.filter, h]
  | pattern p => exact fun c => rfl
  | search find? =>
    intro c
    simp only [match?, Cursor.consumeFound?, Cursor.consumeSegment?, split?]
    cases find? c.rest with
    | none => rfl
    | some found =>
      obtain ⟨start, n⟩ := found
      cases start with
      | zero => cases h : Cursor.splitExactly? n c.rest <;> simp [h]
      | succ => rfl
  | both first second ihf ihs =>
    intro c
    simp only [match?, ihf c, split?]
    cases hf : first.split? c.rest with
    | none => rfl
    | some pieces =>
      obtain ⟨a, middle⟩ := pieces
      simp only [Option.map_some, ihs (c.take a middle).2, Cursor.take_rest]
      cases hs : second.split? middle with
      | none => rfl
      | some pieces =>
        obtain ⟨b, rest⟩ := pieces
        exact congrArg some (Cursor.take_take c a b middle rest)
  | either first second ihf ihs =>
    intro c
    simp only [match?, ihf c, ihs c, split?]
    cases first.split? c.rest <;> rfl
  | zeroOrMore item ih =>
    intro c
    exact congrArg some (repeatFrom_eq ih c c.rest [] c.rest)
  | oneOrMore item ih =>
    intro c
    simp only [match?, ih c, split?]
    cases item.split? c.rest with
    | none => rfl
    | some pieces =>
      obtain ⟨first, rest⟩ := pieces
      exact congrArg some (repeatFrom_eq ih c rest first rest)

end Fragment

/-! ## Rules -/

/-- The action of the first rule that applies to a text, with what it matches and what it leaves
over. -/
def firstSplit? : List Rule → List Char → Option (Action × List Char × List Char)
  | [], _ => none
  | rule :: rules, cs =>
    match rule.fragment.split? cs with
    | none => firstSplit? rules cs
    | some (text, rest) =>
      if text.isEmpty then firstSplit? rules cs else some (rule.action, text, rest)

/-- The rule that applies at a cursor moves over what it splits off. -/
theorem firstMatch?_eq (rules : List Rule) (c : Cursor) :
    firstMatch? rules c = (firstSplit? rules c.rest).map fun (action, text, rest) =>
      (action, c.take text rest) := by
  induction rules with
  | nil => rfl
  | cons rule rules ih =>
    simp only [firstMatch?, rule.fragment.match?_eq c, firstSplit?]
    cases rule.fragment.split? c.rest with
    | none => exact ih
    | some pieces =>
      obtain ⟨text, rest⟩ := pieces
      simp only [Option.map_some, Cursor.isEmpty_span_take]
      split
      · exact ih
      · rfl

/-- A rule that applies splits a piece off the text that is not empty. -/
theorem append_of_firstSplit? {rules : List Rule} {cs text rest : List Char} {action : Action}
    (h : firstSplit? rules cs = some (action, text, rest)) : text ++ rest = cs ∧ text ≠ [] := by
  induction rules with
  | nil => cases h
  | cons rule rules ih =>
    simp only [firstSplit?] at h
    cases hs : rule.fragment.split? cs with
    | none => rw [hs] at h; exact ih h
    | some pieces =>
      obtain ⟨text', rest'⟩ := pieces
      simp only [hs] at h
      split at h
      · exact ih h
      · rename_i hne
        cases h
        exact ⟨rule.fragment.append_of_split? cs _ _ hs, by simpa using hne⟩

/-- The rule that applies is one of the rules. -/
theorem exists_mem_of_firstSplit? {rules : List Rule} {cs text rest : List Char} {action : Action}
    (h : firstSplit? rules cs = some (action, text, rest)) :
    ∃ rule ∈ rules, rule.action = action ∧ rule.fragment.split? cs = some (text, rest) := by
  induction rules with
  | nil => cases h
  | cons rule rules ih =>
    have hlater (h : firstSplit? rules cs = some (action, text, rest)) :
        ∃ found ∈ rule :: rules, found.action = action ∧
          found.fragment.split? cs = some (text, rest) := by
      obtain ⟨found, hfound, hs⟩ := ih h
      exact ⟨found, List.mem_cons_of_mem _ hfound, hs⟩
    simp only [firstSplit?] at h
    cases hs : rule.fragment.split? cs with
    | none => rw [hs] at h; exact hlater h
    | some pieces =>
      obtain ⟨text', rest'⟩ := pieces
      simp only [hs] at h
      split at h
      · exact hlater h
      · cases h
        exact ⟨rule, List.mem_cons_self .., rfl, hs⟩

end ExprLang
