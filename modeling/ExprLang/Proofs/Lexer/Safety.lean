import ExprLang.Lexer.Reference
import ExprLang.Proofs.Lexer.Fallbacks
import ExprLang.Proofs.Lexer.Runs

/-!
# The lexer stays inside its text

Whatever the lexer tries, it moves over characters that are there, in a state
that exists, and it ends with the text.

Main definitions:

- Definition {lit}`Lexeme.Genuine`: a lexeme is a piece of the text.
- Definition {lit}`Lexer.Safe`: nothing that the lexer may try goes wrong.

Main results:

- Theorem {lit}`Fragment.genuine_of_match?`: every match is a piece of the text.
- Theorem {lit}`Reference.wellFormed`: every state that the grammar of the language
  names exists.
- Theorem {lit}`Lexer.safe_of_reaches`: a lexer of the language is safe wherever
  it gets.
-/

namespace ExprLang

/-! ## Points -/

namespace Point

/-- Moving forward leads to a later line, or to a later column of the line. -/
theorem le_advance (p : Point) (cs : List Char) :
    p.line < (p.advance cs).line ∨
      p.line = (p.advance cs).line ∧ p.column ≤ (p.advance cs).column := by
  induction cs generalizing p with
  | nil => exact .inr ⟨rfl, Nat.le_refl _⟩
  | cons c cs ih =>
    have hrest := ih (p.next c)
    rw [advance_cons]
    by_cases hc : c = '\n'
    · have hline : (p.next c).line = p.line + 1 := by simp [next, hc]
      exact .inl (by omega)
    · have hline : (p.next c).line = p.line := by simp [next, hc]
      have hcolumn : (p.next c).column = p.column + 1 := by simp [next, hc]
      omega

/-- No point comes before one that it is reached from. -/
theorem compare_advance_ne_gt (p : Point) (cs : List Char) :
    p.compare (p.advance cs) ≠ .gt := by
  unfold compare
  rcases p.le_advance cs with hlt | ⟨heq, hle⟩
  · rw [Nat.compare_eq_lt.2 hlt]
    exact nofun
  · rw [← heq, Nat.compare_eq_eq.2 rfl]
    exact Nat.compare_ne_gt.2 hle

end Point

/-! ## Lexemes -/

/-- A lexeme is a piece of the text: moving over its characters one by one leads from the cursor
before it to the cursor after it, and its span does not end before it starts. -/
structure Lexeme.Genuine (lexeme : Lexeme) (c after : Cursor) : Prop where
  advance_eq : c.advance lexeme.text.length = .ok after
  span_eq : lexeme.span = ⟨c.point, after.point⟩
  ordered : lexeme.span.start.compare lexeme.span.stop ≠ .gt

/-- What a cursor moves over is a piece of the text if the text begins with it. -/
theorem Cursor.genuine_take {c : Cursor} {text rest : List Char} (h : text ++ rest = c.rest) :
    (c.take text rest).1.Genuine c (c.take text rest).2 :=
  ⟨advance_take h.symm, rfl, c.point.compare_advance_ne_gt text⟩

/-- Every match is a piece of the text. -/
theorem Fragment.genuine_of_match? {f : Fragment} {c after : Cursor} {lexeme : Lexeme}
    (h : f.match? c = some (lexeme, after)) : lexeme.Genuine c after := by
  rw [f.match?_eq c] at h
  obtain ⟨⟨text, rest⟩, hsplit, htake⟩ := Option.map_eq_some_iff.1 h
  have hgenuine := Cursor.genuine_take (f.append_of_split? _ _ _ hsplit)
  dsimp only at htake
  rw [htake] at hgenuine
  exact hgenuine

/-! ## States -/

namespace Grammar

/-- A state exists, with those that it falls back on. -/
def Knows (g : Grammar) (id : StateId) : Prop :=
  ∃ state, g.state? id = some state ∧ ∀ other ∈ state.fallbacks, (g.state? other).isSome = true

variable {g : Grammar}

/-- A state that exists is known where everything that the grammar names exists. -/
theorem WellFormed.knows (h : g.WellFormed) {id : StateId} (hid : (g.state? id).isSome = true) :
    g.Knows id := by
  obtain ⟨state, hs⟩ := Option.isSome_iff_exists.1 hid
  exact ⟨state, hs, h.fallbacks state (List.mem_of_getElem? hs)⟩

/-- The first state exists. -/
theorem WellFormed.admits_ofRoot (h : g.WellFormed) : g.Admits (.ofRoot g.initial) := by
  intro id hid
  rw [List.mem_singleton.1 hid]
  exact h.initial

/-- A piece of a text leads to states that exist. -/
theorem WellFormed.admits_of_piece? (h : g.WellFormed) {stack : StateStack} {cs : List Char}
    {p : Piece} (hstack : g.Admits stack) (hp : g.piece? stack cs = some p) : g.Admits p.stack := by
  cases cs with
  | nil => cases hp
  | cons c cs =>
    simp only [piece?] at hp
    split at hp
    · rename_i hs
      cases hp
      obtain ⟨rule, hrule, rfl, -⟩ := exists_mem_of_firstSplit? hs
      exact h.run hstack hrule _
    · cases hp
      exact hstack

end Grammar

namespace Reference

/-- The states of the language are four. -/
theorem isSome_state? {id : StateId} (h : id.index < 4) : (reference.state? id).isSome = true := by
  obtain ⟨n⟩ := id
  match n with
  | 0 | 1 | 2 | 3 => rfl

/-- Whether an action enters one of the four states, if any. -/
def entersKnown : Action → Bool
  | .push _ state => decide (state.index < 4)
  | _ => true

/-- In the grammar of the language the code of placeholders falls back on code, and code on
nothing. -/
theorem eq_code_of_fallsBack {id other : StateId} (h : reference.FallsBack id other) :
    id ≠ code ∧ other = code := by
  obtain ⟨state, hs, ho⟩ := h
  obtain ⟨n⟩ := id
  match n with
  | 0 => cases hs; cases ho
  | 1 => cases hs; cases ho
  | 2 => cases hs; exact ⟨by decide, List.mem_singleton.1 ho⟩
  | 3 => cases hs; exact ⟨by decide, List.mem_singleton.1 ho⟩
  | _ + 4 => cases hs

/-- The states of the language exist, and their fallbacks run in no circle. -/
theorem wellFormed : reference.WellFormed where
  initial := rfl
  fallbacks := by decide
  pushes := by
    intro state hstate rule hrule kind id haction
    have hall : ∀ state ∈ reference.states, ∀ rule ∈ state.rules,
        entersKnown rule.action = true := by
      decide
    have hentered := hall state hstate rule hrule
    rw [haction] at hentered
    exact isSome_state? (of_decide_eq_true hentered)
  acyclic := by
    intro id hcircle
    obtain ⟨other, hfirst, -⟩ := Relation.TransGen.head'_iff.1 hcircle
    obtain ⟨another, -, hlast⟩ := Relation.TransGen.tail'_iff.1 hcircle
    exact (eq_code_of_fallsBack hfirst).1 (eq_code_of_fallsBack hlast).2

end Reference

/-! ## Lexers -/

namespace Lexer

/-- The lexers that matches lead to. -/
inductive Reaches (l : Lexer) : Lexer → Prop
  | refl : Reaches l l
  | step {m n : Lexer} {token? : Option Token} (h : Reaches l m)
    (hs : m.step? = some (token?, n)) : Reaches l n

/-- Nothing that the lexer may try at its place goes wrong: its state exists, every match is a
piece of the text, so is a character that nothing matches, and there are no more tokens than
those within the bound. -/
structure Safe (l : Lexer) : Prop where
  knows : l.grammar.Knows l.stack.current
  genuine : ∀ rule ∈ l.grammar.rules l.stack.current, ∀ lexeme after,
    rule.fragment.match? l.cursor = some (lexeme, after) → lexeme.Genuine l.cursor after
  unmatched : ∀ c rest, l.cursor.rest = c :: rest →
    (l.cursor.take [c] rest).1.Genuine l.cursor (l.cursor.take [c] rest).2
  complete : ∀ n, l.cursor.rest.length ≤ n → tokensWithin n l = l.tokens

/-- A match leaves the grammar and leads to states that exist. -/
theorem admits_of_step? {g : Grammar} (hg : g.WellFormed) {l after : Lexer}
    {token? : Option Token} (hl : l.grammar = g ∧ g.Admits l.stack)
    (h : l.step? = some (token?, after)) : after.grammar = g ∧ g.Admits after.stack := by
  obtain ⟨hgrammar, hadmits⟩ := hl
  rw [step?_eq, hgrammar] at h
  obtain ⟨p, hp, hpast⟩ := Option.map_eq_some_iff.1 h
  cases hpast
  exact ⟨hgrammar, hg.admits_of_piece? hadmits hp⟩

/-- A lexer of the language is safe wherever it gets. -/
theorem safe_of_reaches {text : String} {l : Lexer} (h : Reaches (.ofText reference text) l) :
    l.Safe := by
  have hadmits : l.grammar = reference ∧ reference.Admits l.stack := by
    induction h with
    | refl => exact ⟨rfl, Reference.wellFormed.admits_ofRoot⟩
    | step _ hs ih => exact admits_of_step? Reference.wellFormed ih hs
  obtain ⟨hgrammar, hadmits⟩ := hadmits
  exact {
    knows := hgrammar ▸ Reference.wellFormed.knows hadmits.current
    genuine := fun _ _ _ _ hm => Fragment.genuine_of_match? hm
    unmatched := fun _ _ hrest => Cursor.genuine_take hrest.symm
    complete := fun _ hn => tokensWithin_eq_tokens hn }

end Lexer

end ExprLang
