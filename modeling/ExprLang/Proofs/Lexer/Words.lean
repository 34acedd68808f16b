import ExprLang.Lexer.Basic
import ExprLang.Proofs.Lexer.Split
import ExprLang.Proofs.Reader.Basic

/-!
# Words of a text

Apart from the places, the tokens of a text depend on the states of the lexer
and on the characters to come.

Main definitions:

- Definition {lit}`Grammar.piece?`: one match without its place.
- Definition {lit}`Grammar.words`: the words of a text.

Main results:

- Theorem {lit}`Lexer.step?_eq`: a match of the lexer is a piece of the text.
- Theorem {lit}`Lexer.map_word_tokens`: the tokens of a text are its words.
- Theorem {lit}`Grammar.words_of_firstSplit?`: the words of a text whose first
  piece is known.
-/

namespace ExprLang

/-- A match without its place. -/
structure Piece where
  /-- The kind of token that it becomes, if any. -/
  kind? : Option TokenKind
  text : List Char
  /-- The states after it. -/
  stack : StateStack
  rest : List Char

/-- The word that a piece becomes, if any. -/
def Piece.word? (p : Piece) : Option Word :=
  p.kind?.map (⟨·, String.ofList p.text⟩)

namespace Grammar

variable {g : Grammar} {stack : StateStack} {cs : List Char}

/-- The first piece of a text. -/
def piece? (g : Grammar) (stack : StateStack) : List Char → Option Piece
  | [] => none
  | c :: rest =>
    match firstSplit? (g.rules stack.current) (c :: rest) with
    | some (action, text, rest) =>
      some ⟨(action.run text stack).1, text, (action.run text stack).2, rest⟩
    | none => some ⟨some .unexpectedCharacter, [c], stack, rest⟩

/-- A piece is not empty, and nothing is lost. -/
theorem append_of_piece? {p : Piece} (h : g.piece? stack cs = some p) :
    p.text ++ p.rest = cs ∧ p.text ≠ [] := by
  cases cs with
  | nil => cases h
  | cons c rest =>
    simp only [piece?] at h
    split at h
    · rename_i hs
      cases h
      exact append_of_firstSplit? hs
    · cases h
      exact ⟨rfl, List.cons_ne_nil _ _⟩

/-- A piece leaves less over than there was. -/
theorem length_rest_lt_of_piece? {p : Piece} (h : g.piece? stack cs = some p) :
    p.rest.length < cs.length := by
  obtain ⟨happend, hne⟩ := append_of_piece? h
  have hpos := List.length_pos_iff.2 hne
  rw [← happend, List.length_append]
  omega

/-- The words within a number of matches. -/
def wordsWithin (g : Grammar) : Nat → StateStack → List Char → List Word
  | 0, _, _ => []
  | n + 1, stack, cs =>
    match g.piece? stack cs with
    | none => []
    | some p => p.word?.toList ++ g.wordsWithin n p.stack p.rest

/-- The words of a text that begins in some states. -/
def words (g : Grammar) (stack : StateStack) (cs : List Char) : List Word :=
  g.wordsWithin cs.length stack cs

/-- Every number of matches that the text is no longer than is sufficient. -/
theorem wordsWithin_eq_words {n : Nat} (h : cs.length ≤ n) :
    g.wordsWithin n stack cs = g.words stack cs := by
  have hall : ∀ n m stack cs, cs.length ≤ n → cs.length ≤ m →
      g.wordsWithin n stack cs = g.wordsWithin m stack cs := by
    intro n
    induction n with
    | zero =>
      intro m stack cs hn _
      rw [List.length_eq_zero_iff.1 (Nat.le_zero.1 hn)]
      cases m <;> rfl
    | succ n ih =>
      intro m stack cs hn hm
      cases m with
      | zero =>
        rw [List.length_eq_zero_iff.1 (Nat.le_zero.1 hm)]
        rfl
      | succ m =>
        simp only [wordsWithin]
        cases hp : g.piece? stack cs with
        | none => rfl
        | some p =>
          have hlt := length_rest_lt_of_piece? hp
          dsimp only
          rw [ih m p.stack p.rest (by omega) (by omega)]
  exact hall n cs.length stack cs h (Nat.le_refl _)

@[simp] theorem words_nil : g.words stack [] = [] := rfl

/-- The words of a text with a first piece. -/
theorem words_of_piece? {p : Piece} (h : g.piece? stack cs = some p) :
    g.words stack cs = p.word?.toList ++ g.words p.stack p.rest := by
  have hlt := length_rest_lt_of_piece? h
  unfold words
  cases hcs : cs.length with
  | zero => omega
  | succ n =>
    rw [wordsWithin, h]
    dsimp only
    rw [wordsWithin_eq_words (by omega)]
    rfl

/-- The words of a text to which a rule applies. -/
theorem words_of_firstSplit? {action : Action} {text rest : List Char}
    (h : firstSplit? (g.rules stack.current) cs = some (action, text, rest)) :
    g.words stack cs = ((action.run text stack).1.map (⟨·, String.ofList text⟩)).toList ++
      g.words (action.run text stack).2 rest := by
  obtain ⟨happend, hne⟩ := append_of_firstSplit? h
  cases cs with
  | nil => exact absurd (List.append_eq_nil_iff.1 happend).1 hne
  | cons c cs =>
    have hp : g.piece? stack (c :: cs) =
        some ⟨(action.run text stack).1, text, (action.run text stack).2, rest⟩ := by
      simp only [piece?, h]
    rw [words_of_piece? hp]
    rfl

end Grammar

namespace Lexer

variable {l : Lexer}

/-- The lexer after a piece. -/
def past (l : Lexer) (p : Piece) : Lexer :=
  { l with cursor := (l.cursor.take p.text p.rest).2, stack := p.stack }

/-- The token that a piece becomes, if any. -/
def tokenOfPiece? (l : Lexer) (p : Piece) : Option Token :=
  p.kind?.map (tokenOf · (l.cursor.take p.text p.rest).1)

/-- A match of the lexer is a piece of the text. -/
theorem step?_eq (l : Lexer) :
    l.step? = (l.grammar.piece? l.stack l.cursor.rest).map fun p =>
      (l.tokenOfPiece? p, l.past p) := by
  unfold step? Grammar.piece?
  cases hrest : l.cursor.rest with
  | nil => rfl
  | cons c rest =>
    simp only [Grammar.firstMatch?, firstMatch?_eq, hrest]
    cases firstSplit? (l.grammar.rules l.stack.current) (c :: rest) with
    | none => rfl
    | some found => rfl

/-- The token of a piece is its word. -/
theorem map_word_tokenOfPiece? (l : Lexer) (p : Piece) :
    (l.tokenOfPiece? p).map Token.word = p.word? := by
  unfold tokenOfPiece? Piece.word?
  rw [Option.map_map]
  rfl

/-- The tokens within a number of matches are the words. -/
theorem map_word_tokensWithin (n : Nat) (l : Lexer) :
    (tokensWithin n l).map Token.word = l.grammar.wordsWithin n l.stack l.cursor.rest := by
  induction n generalizing l with
  | zero => rfl
  | succ n ih =>
    rw [tokensWithin, Grammar.wordsWithin, step?_eq]
    cases l.grammar.piece? l.stack l.cursor.rest with
    | none => rfl
    | some p =>
      have hnext := ih (l.past p)
      have hword := l.map_word_tokenOfPiece? p
      dsimp only [Option.map_some]
      cases htoken : l.tokenOfPiece? p with
      | none =>
        rw [htoken] at hword
        rw [← hword]
        exact hnext
      | some token =>
        rw [htoken] at hword
        rw [← hword]
        exact congrArg (token.word :: ·) hnext

/-- The tokens of a text are its words. -/
theorem map_word_tokens (l : Lexer) :
    l.tokens.map Token.word = l.grammar.words l.stack l.cursor.rest :=
  map_word_tokensWithin ..

end Lexer

end ExprLang
