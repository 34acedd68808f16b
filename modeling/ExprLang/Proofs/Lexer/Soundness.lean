import ExprLang.Proofs.Lexer.Safety
import Mathlib.Data.List.Chain

/-!
# Lexers cover their text

Whatever the grammar, the tokens of a lexer are pieces of the text one after the
other, each at its place, and the lexer ends with the text.

Main definitions:

- Definition {lit}`Point.behind`: the point behind a text, by what the coordinates
  of a point mean.
- Definition {lit}`Token.StandsIn`: a token is a piece of a text at its place.
- Definition {lit}`Token.Layout`: tokens one after the other in a text.

Main results:

- Theorem {lit}`Point.behind_append`: walking over a text leads to the point behind it.
- Theorem {lit}`Lexer.Gives.exists_layout`: the tokens of a run are laid out in the
  text before the cursor.
- Theorem {lit}`Lexer.run_covers_text`: every lexer covers its text with tokens.
-/

namespace ExprLang

/-! ## Points -/

namespace Point

/-- The point behind a text: the newlines in it, the characters since the last one, the bytes. -/
def behind (cs : List Char) : Point where
  line := cs.count '\n'
  column := (cs.reverse.takeWhile (· != '\n')).length
  offset := (String.ofList cs).utf8ByteSize

/-- One more character leads to the next point. -/
theorem behind_concat (cs : List Char) (c : Char) : behind (cs ++ [c]) = (behind cs).next c := by
  by_cases hc : c = '\n'
  · subst hc
    simp only [behind, next_newline, List.count_append, List.reverse_append, String.ofList_append,
      String.utf8ByteSize_append]
    rfl
  · simp [behind, next, hc, List.count_append]

/-- Walking over a text leads to the point behind it. -/
theorem behind_append (cs ds : List Char) : behind (cs ++ ds) = (behind cs).advance ds := by
  induction ds generalizing cs with
  | nil => simp
  | cons d ds ih =>
    rw [List.append_cons, ih, behind_concat]
    rfl

/-- What stands between the points behind two beginnings of a text, cut out by their offsets. -/
theorem extract_behind (before text after : List Char) :
    (String.ofList (before ++ text ++ after)).toByteArray.extract (behind before).offset
      (behind (before ++ text)).offset = (String.ofList text).toByteArray := by
  simp only [behind, String.ofList_append, String.toByteArray_append, String.utf8ByteSize]
  rw [ByteArray.extract_append, ByteArray.extract_append_eq_right rfl ByteArray.size_append]
  simp

/-- A longer text has its end no earlier. -/
theorem offset_behind_le (cs ds : List Char) :
    (behind cs).offset ≤ (behind (cs ++ ds)).offset := by
  rw [behind_append, advance_offset]
  omega

end Point

/-! ## Tokens in a text -/

namespace Token

/-- A token is a piece of a text at its place: it is not empty, it is what stands between its
offsets, which count bytes, and its span is from the point behind what stands before it to the
point behind it. -/
structure StandsIn (text : String) (token : Token) : Prop where
  nonempty : token.span.start.offset < token.span.stop.offset
  slice : text.toByteArray.extract token.span.start.offset token.span.stop.offset =
    token.text.toByteArray
  placed : ∃ before after : List Char, text.toList = before ++ token.text.toList ++ after ∧
    token.span = ⟨.behind before, .behind (before ++ token.text.toList)⟩

/-- A token ends before another starts, in bytes and in lines and columns. -/
def Before (a b : Token) : Prop :=
  a.span.stop.offset ≤ b.span.start.offset ∧ a.span.stop.compare b.span.start ≠ .gt

/-- The token of a piece of a text with something before it. -/
def piece (kind : TokenKind) (before text : List Char) : Token :=
  ⟨kind, String.ofList text, ⟨.behind before, .behind (before ++ text)⟩⟩

/-- Tokens one after the other, with skipped text between them, up to the end of the last. -/
inductive Layout : List Char → List Token → Prop
  | nil : Layout [] []
  | snoc {covered : List Char} {tokens : List Token} (h : Layout covered tokens)
    (kind : TokenKind) (skipped text : List Char) (hne : text ≠ []) :
    Layout (covered ++ skipped ++ text) (tokens ++ [piece kind (covered ++ skipped) text])

variable {kind : TokenKind} {before text covered : List Char} {tokens : List Token}

/-- A piece of a text stands in it. -/
theorem standsIn_piece (hne : text ≠ []) (after : List Char) :
    (piece kind before text).StandsIn (String.ofList (before ++ text ++ after)) where
  nonempty := by
    have hlength : (String.ofList text).utf8ByteSize ≠ 0 := by simp [hne]
    simp only [piece, Point.behind, String.ofList_append, String.utf8ByteSize_append]
    omega
  slice := Point.extract_behind before text after
  placed := ⟨before, after, by simp [piece], by simp [piece]⟩

/-- Tokens laid out in a text stand in it, whatever comes after them. -/
theorem Layout.standsIn (h : Layout covered tokens) (after : List Char) :
    ∀ token ∈ tokens, token.StandsIn (String.ofList (covered ++ after)) := by
  induction h generalizing after with
  | nil => exact nofun
  | snoc _ kind skipped text hne ih =>
    intro token htoken
    rcases List.mem_append.1 htoken with hbefore | hlast
    · have hstands := ih (skipped ++ text ++ after) token hbefore
      simpa only [List.append_assoc] using hstands
    · rw [List.mem_singleton.1 hlast]
      exact standsIn_piece hne after

/-- There are no more tokens than characters. -/
theorem Layout.length_le (h : Layout covered tokens) : tokens.length ≤ covered.length := by
  induction h with
  | nil => exact Nat.le_refl _
  | snoc _ kind skipped text hne ih =>
    have hpos := List.length_pos_iff.2 hne
    simp only [List.length_append, List.length_singleton]
    omega

/-- The last token ends where the layout does. -/
theorem Layout.stop_getLast (h : Layout covered tokens) :
    ∀ token ∈ tokens.getLast?, token.span.stop = .behind covered := by
  cases h with
  | nil => exact nofun
  | snoc _ kind skipped text hne =>
    intro token htoken
    rw [List.getLast?_concat, Option.mem_some_iff] at htoken
    rw [← htoken]
    rfl

/-- Of two tokens in a row the first ends before the second starts. -/
theorem Layout.isChain (h : Layout covered tokens) : tokens.IsChain Before := by
  induction h with
  | nil => exact .nil
  | @snoc covered tokens hlayout kind skipped text hne ih =>
    rw [List.isChain_append]
    refine ⟨ih, .singleton _, ?_⟩
    intro last hlast token htoken
    rw [List.head?_cons, Option.mem_some_iff] at htoken
    rw [Before, hlayout.stop_getLast last hlast, ← htoken]
    constructor
    · exact Point.offset_behind_le covered skipped
    · show (Point.behind covered).compare (.behind (covered ++ skipped)) ≠ .gt
      rw [Point.behind_append]
      exact Point.compare_advance_ne_gt _ _

end Token

/-! ## Runs -/

namespace Lexer

variable {l m after : Lexer} {token : Token} {token? : Option Token} {before : List Char}

/-- A match moves over a piece of the text, which becomes a token, if any, at its place. -/
theorem exists_of_step? (h : l.step? = some (token?, after))
    (hpoint : l.cursor.point = .behind before) :
    ∃ text, text ≠ [] ∧ l.cursor.rest = text ++ after.cursor.rest ∧
      after.cursor.point = .behind (before ++ text) ∧
      ∀ token ∈ token?, ∃ kind, token = .piece kind before text := by
  rw [step?_eq] at h
  rcases Option.map_eq_some_iff.1 h with ⟨p, hp, hafter⟩
  cases hafter
  have happend := Grammar.append_of_piece? hp
  have hafter : l.cursor.point.advance p.text = .behind (before ++ p.text) := by
    rw [hpoint, Point.behind_append]
  refine ⟨p.text, happend.2, happend.1.symm, hafter, ?_⟩
  intro token htoken
  rcases Option.map_eq_some_iff.1 htoken with ⟨kind, -, rfl⟩
  exact ⟨kind, by rw [tokenOf, Cursor.take_span, Cursor.take_text, hafter, hpoint]; rfl⟩

/-- A call that gives a token skips a piece of the text and moves over the next one, which the
token is. -/
theorem exists_of_next_some (h : l.next = (some token, after))
    (hpoint : l.cursor.point = .behind before) :
    ∃ kind skipped text, text ≠ [] ∧ l.cursor.rest = skipped ++ text ++ after.cursor.rest ∧
      after.cursor.point = .behind (before ++ skipped ++ text) ∧
      token = .piece kind (before ++ skipped) text := by
  induction l using step_induct generalizing before with
  | stop l hs =>
    rw [next_of_step?_none hs] at h
    cases h
  | move l token? middle hs ih =>
    obtain ⟨text, hne, hrest, hmiddle, htoken⟩ := exists_of_step? hs hpoint
    cases token? with
    | none =>
      rw [next_of_step?_drop hs] at h
      obtain ⟨kind, skipped, found, hfound, hmore, hafter, rfl⟩ := ih h hmiddle
      refine ⟨kind, text ++ skipped, found, hfound, ?_, ?_, ?_⟩
      · rw [hrest, hmore]
        simp only [List.append_assoc]
      · rw [hafter]
        simp only [List.append_assoc]
      · rw [List.append_assoc]
    | some found =>
      rw [next_of_step?_token hs] at h
      cases h
      obtain ⟨kind, rfl⟩ := htoken token rfl
      exact ⟨kind, [], text, hne, hrest, by rw [List.append_nil]; exact hmiddle,
        by rw [List.append_nil]⟩

/-- A call that gives nothing has moved over all that was left. -/
theorem cursor_of_next_none (h : l.next = (none, after))
    (hpoint : l.cursor.point = .behind before) :
    after.cursor = ⟨[], .behind (before ++ l.cursor.rest)⟩ := by
  induction l using step_induct generalizing before with
  | stop l hs =>
    rw [next_of_step?_none hs] at h
    cases h
    calc after.cursor = ⟨after.cursor.rest, after.cursor.point⟩ := rfl
      _ = ⟨[], .behind (before ++ after.cursor.rest)⟩ := by
        rw [rest_eq_nil_of_step? hs, hpoint, List.append_nil]
  | move l token? middle hs ih =>
    obtain ⟨text, -, hrest, hmiddle, -⟩ := exists_of_step? hs hpoint
    cases token? with
    | none =>
      rw [next_of_step?_drop hs] at h
      rw [ih h hmiddle, hrest, List.append_assoc]
    | some found =>
      rw [next_of_step?_token hs] at h
      cases h

/-- The tokens of a run are laid out in the text before the cursor. -/
theorem Gives.exists_layout {g : Grammar} {text : String} {tokens : List Token}
    (h : (ofText g text).Gives tokens l) :
    ∃ covered, text.toList = covered ++ l.cursor.rest ∧ l.cursor.point = .behind covered ∧
      Token.Layout covered tokens := by
  induction h with
  | nil => exact ⟨[], rfl, rfl, .nil⟩
  | snoc _ hnext ih =>
    obtain ⟨covered, htext, hpoint, hlayout⟩ := ih
    obtain ⟨kind, skipped, piece, hne, hrest, hafter, rfl⟩ := exists_of_next_some hnext hpoint
    refine ⟨covered ++ skipped ++ piece, ?_, hafter, .snoc hlayout kind skipped piece hne⟩
    rw [htext, hrest]
    simp only [List.append_assoc]

/-- A call that gives a token uses up a character. -/
theorem length_rest_lt_of_next (h : l.next = (some token, after)) :
    after.cursor.rest.length < l.cursor.rest.length := by
  induction l using step_induct with
  | stop l hs =>
    rw [next_of_step?_none hs] at h
    cases h
  | move l token? middle hs ih =>
    have hlt := length_rest_lt_of_step? hs
    cases token? with
    | none =>
      rw [next_of_step?_drop hs] at h
      exact Nat.lt_trans (ih h) hlt
    | some found =>
      rw [next_of_step?_token hs] at h
      cases h
      exact hlt

/-- Every run goes on to a call that gives nothing. -/
theorem Gives.exists_last {tokens : List Token} (h : l.Gives tokens m) :
    ∃ more last after, l.Gives (tokens ++ more) last ∧ last.next = (none, after) := by
  induction hn : m.cursor.rest.length using Nat.strongRecOn generalizing m tokens with
  | _ n ih =>
    cases hnext : m.next with
    | mk token? after =>
      cases token? with
      | none => exact ⟨[], m, after, by rwa [List.append_nil], hnext⟩
      | some token =>
        have hlt := length_rest_lt_of_next hnext
        obtain ⟨more, last, final, hmore, hlast⟩ := ih _ (hn ▸ hlt) (.snoc h hnext) rfl
        exact ⟨token :: more, last, final, by rwa [List.append_cons], hlast⟩

/-- A call leaves the grammar and leads to states that exist. -/
theorem admits_of_next {g : Grammar} (hg : g.WellFormed) (hl : l.grammar = g ∧ g.Admits l.stack)
    (h : l.next = (token?, after)) : after.grammar = g ∧ g.Admits after.stack := by
  induction l using step_induct with
  | stop l hs =>
    rw [next_of_step?_none hs] at h
    cases h
    exact hl
  | move l found? middle hs ih =>
    have hmiddle := admits_of_step? hg hl hs
    cases found? with
    | none =>
      rw [next_of_step?_drop hs] at h
      exact ih hmiddle h
    | some found =>
      rw [next_of_step?_token hs] at h
      cases h
      exact hmiddle

/-- Wherever a run gets, the active states exist. -/
theorem Gives.admits {g : Grammar} (hg : g.WellFormed) {text : String} {tokens : List Token}
    (h : (ofText g text).Gives tokens l) : l.grammar = g ∧ g.Admits l.stack := by
  induction h with
  | nil => exact ⟨rfl, hg.admits_ofRoot⟩
  | snoc _ hnext ih => exact admits_of_next hg ih hnext

end Lexer

/-! ## Every grammar -/

namespace Lexer

/-- Let every state that a grammar names exist, and let fallbacks run in no circle.  Then, for every
text: the rule that applies in a state is found by trying its own rules and then its fallbacks in
turn.  Calls for tokens come to one that gives nothing after no more calls than there are
characters.  Wherever they get, the current state exists; a call gives nothing only by reaching the
end of the text; the tokens are pieces of the text at their places; and of two tokens in a row the
first ends before the second starts. -/
theorem run_covers_text {g : Grammar} (hg : g.WellFormed) (text : String) :
    (∀ id state, g.state? id = some state → ∀ c, g.firstMatch? id c =
      (firstMatch? state.rules c).or (state.fallbacks.findSome? (g.firstMatch? · c))) ∧
    (∃ tokens l after, (ofText g text).Gives tokens l ∧ l.next = (none, after)) ∧
    ∀ tokens l, (ofText g text).Gives tokens l →
      tokens.length ≤ text.toList.length ∧
      (l.grammar = g ∧ (g.state? l.stack.current).isSome = true) ∧
      (∀ after, l.next = (none, after) → after.cursor = ⟨[], .behind text.toList⟩) ∧
      (∀ token ∈ tokens, token.StandsIn text) ∧
      tokens.IsChain Token.Before := by
  refine ⟨fun id state hs c => hg.firstMatch?_eq hs c, ?_, ?_⟩
  · obtain ⟨more, last, after, hgives, hlast⟩ := Gives.exists_last (.nil (l := ofText g text))
    exact ⟨more, last, after, hgives, hlast⟩
  · intro tokens l hgives
    obtain ⟨covered, htext, hpoint, hlayout⟩ := hgives.exists_layout
    obtain ⟨hgrammar, hadmits⟩ := hgives.admits hg
    refine ⟨?_, ⟨hgrammar, hadmits.current⟩, ?_, ?_, hlayout.isChain⟩
    · have hlength := hlayout.length_le
      rw [htext, List.length_append]
      omega
    · intro after hnext
      rw [cursor_of_next_none hnext hpoint, htext]
    · have hstands := hlayout.standsIn l.cursor.rest
      rwa [← htext, String.ofList_toList] at hstands

/-- The grammar of the language on two lines with a character of two bytes. -/
theorem run_covers_text_reference :
    reference.WellFormed ∧ ∃ tokens l after,
      (ofText reference "x\n+ é").Gives tokens l ∧ l.next = (none, after) ∧
        after.cursor = ⟨[], ⟨1, 3, 6⟩⟩ ∧ ∀ token ∈ tokens, token.StandsIn "x\n+ é" := by
  obtain ⟨-, ⟨tokens, l, after, hgives, hlast⟩, hrun⟩ :=
    run_covers_text Reference.wellFormed "x\n+ é"
  obtain ⟨-, -, hcursor, hstands, -⟩ := hrun tokens l hgives
  refine ⟨Reference.wellFormed, tokens, l, after, hgives, hlast, ?_, hstands⟩
  rw [hcursor after hlast]
  rfl

end Lexer

end ExprLang
