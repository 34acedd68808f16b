import ExprLang.Proofs.Lexer.Shapes
import ExprLang.Proofs.Lexer.Words
import ExprLang.Proofs.Reader.Tape

/-!
# Tokens of the language

The lexer writes tokens of each kind as the parser expects them.

Main definitions:

- Definition {lit}`Reference.Writes`: what is matched for tokens of some kind.

Main results:

- Theorem {lit}`writes_of_mem_tokenize`: every token of a text is matched by a rule.
- Theorem {lit}`proper_of_mem_tokenize`: every token of a text is proper.
- Theorem {lit}`Tape.regular_ofText`: the tape of a text is regular.
-/

namespace ExprLang

open Decimal

/-- A word is an identifier or one of the keywords. -/
theorem TokenKind.ofWord_mem (text : String) :
    ofWord text ∈ identifier :: keywords.map Prod.snd := by
  unfold ofWord keyword?
  cases h : keywords.lookup text with
  | none => exact List.mem_cons_self ..
  | some kind =>
    obtain ⟨before, after, hsplit, -⟩ := List.lookup_eq_some_iff.1 h
    have hmem : (text, kind) ∈ keywords := by
      rw [hsplit]
      exact List.mem_append_right _ (List.mem_cons_self ..)
    exact List.mem_cons_of_mem _ (List.mem_map_of_mem hmem)

/-! ## Texts of fragments -/

namespace Fragment

/-- What a pattern of one character matches. -/
theorem exists_of_split?_one {s : CharSet} {cs text rest : List Char}
    (h : (pattern (.one s)).split? cs = some (text, rest)) :
    ∃ c, text = [c] ∧ s.contains c = true := by
  cases cs with
  | nil => cases h
  | cons c cs =>
    simp only [split?, Pattern.matchStart?_one] at h
    split at h
    · cases h
      exact ⟨c, rfl, by assumption⟩
    · cases h

/-- What a pattern of one character and a run matches. -/
theorem exists_of_split?_run {s t : CharSet} {cs text rest : List Char}
    (h : (pattern (.seq (.one s) (.many t true))).split? cs = some (text, rest)) :
    ∃ c run, text = c :: run ∧ s.contains c = true ∧ ∀ d ∈ run, t.contains d = true := by
  cases cs with
  | nil => cases h
  | cons c cs =>
    simp only [split?, Pattern.matchStart?_run] at h
    split at h
    · cases h
      exact ⟨c, _, rfl, by assumption, List.all_eq_true.1 (List.all_takeWhile ..)⟩
    · cases h

end Fragment

namespace Reference

/-- Digits begin with a digit. -/
theorem beginsWithDigit_of_digits {cs text rest : List Char}
    (h : digits.split? cs = some (text, rest)) : BeginsWithDigit text := by
  obtain ⟨c, run, rfl, hc, -⟩ := Fragment.exists_of_split?_run h
  exact ⟨c, run, rfl, by simpa [CharSet.contains, isDigit] using hc⟩

/-- What begins with digits begins with a digit. -/
theorem beginsWithDigit_of_both {f g : Fragment} {cs text rest : List Char}
    (hf : ∀ {cs text rest}, f.split? cs = some (text, rest) → BeginsWithDigit text)
    (h : (Fragment.both f g).split? cs = some (text, rest)) : BeginsWithDigit text := by
  obtain ⟨a, middle, b, ha, -, rfl⟩ := Fragment.exists_of_split?_both h
  obtain ⟨c, more, rfl, hc⟩ := hf ha
  exact ⟨c, more ++ b, rfl, hc⟩

/-- A number with a fraction begins with a digit. -/
theorem beginsWithDigit_of_withFraction {cs text rest : List Char}
    (h : withFraction.split? cs = some (text, rest)) : BeginsWithDigit text :=
  beginsWithDigit_of_both (beginsWithDigit_of_both beginsWithDigit_of_digits) h

/-- A number with a suffix: the suffix takes up one byte. -/
theorem exists_of_suffix {P : List Char → Prop} {f : Fragment} {s : List Char}
    {cs text rest : List Char} (hf : ∀ {cs text rest}, f.split? cs = some (text, rest) → P text)
    (hs : s.all (·.utf8Size == 1) = true)
    (h : (Fragment.both f (.pattern (.one (.ofList s)))).split? cs = some (text, rest)) :
    ∃ front c, text = front ++ [c] ∧ c.utf8Size = 1 ∧ P front := by
  obtain ⟨a, middle, b, ha, hb, rfl⟩ := Fragment.exists_of_split?_both h
  obtain ⟨c, rfl, hc⟩ := Fragment.exists_of_split?_one hb
  have hsize := List.all_eq_true.1 hs c (by simpa using hc)
  exact ⟨a, c, rfl, beq_iff_eq.1 hsize, hf ha⟩

/-- An identifier is a word. -/
theorem isWord_of_identifier {cs text rest : List Char}
    (h : identifier.split? cs = some (text, rest)) : IsWord text := by
  obtain ⟨c, run, rfl, hc, hrun⟩ := Fragment.exists_of_split?_run h
  exact ⟨hc, hrun⟩

/-! ## Rules -/

/-- A word with a span is a proper token. -/
def ProperText (kind : TokenKind) (text : List Char) : Prop :=
  ∀ span, (Token.mk kind (String.ofList text) span).Proper

/-- The kinds of tokens that may be written in any way. -/
def isFree : TokenKind → Bool
  | .endOfFile | .identifier | .wordAs | .wordInfix | .symbolLiteral | .intLiteral | .longLiteral
  | .floatLiteral | .doubleLiteral => false
  | _ => true

/-- A token of such a kind is proper. -/
theorem properText_of_isFree {kind : TokenKind} {text : List Char} (h : isFree kind = true) :
    ProperText kind text := by
  intro span
  cases kind <;> trivial

/-- What a rule matches becomes a proper token, if it becomes one. -/
def WritesProper (rule : Rule) : Prop :=
  ∀ stack cs text rest kind, rule.fragment.split? cs = some (text, rest) →
    (rule.action.run text stack).1 = some kind → ProperText kind text

/-- Whether an action makes tokens that may be written in any way. -/
def isFreeAction : Action → Bool
  | .skip => true
  | .emit kind | .push kind _ | .pop kind => isFree kind
  | .emitWord => false

/-- It makes tokens of such kinds. -/
theorem isFree_of_run {action : Action} {text : List Char} {stack : StateStack} {kind : TokenKind}
    (h : isFreeAction action = true) (hkind : (action.run text stack).1 = some kind) :
    isFree kind = true := by
  cases action with
  | skip => cases hkind
  | emitWord => cases h
  | emit kind => cases hkind; exact h
  | push kind state => cases hkind; exact h
  | pop kind => cases hkind; exact h

/-- A rule for tokens that may be written in any way. -/
theorem writesProper_of_isFree {rule : Rule} (h : isFreeAction rule.action = true) :
    WritesProper rule :=
  fun _ _ _ _ _ _ hkind => properText_of_isFree (isFree_of_run h hkind)

/-- A rule that emits what it matches. -/
theorem writesProper_emit {f : Fragment} {kind : TokenKind}
    (h : ∀ {cs text rest}, f.split? cs = some (text, rest) → ProperText kind text) :
    WritesProper ⟨f, .emit kind⟩ := by
  intro stack cs text rest _ hs hkind
  cases hkind
  exact h hs

/-- The rules for tokens that are written in a certain way. -/
def boundRules : List Rule :=
  [⟨floatNumber, .emit .floatLiteral⟩, ⟨doubleNumber, .emit .doubleLiteral⟩,
    ⟨longNumber, .emit .longLiteral⟩, ⟨digits, .emit .intLiteral⟩,
    ⟨.both (.literal ['\'']) identifier, .emit .symbolLiteral⟩, ⟨identifier, .emitWord⟩]

/-- They write proper tokens. -/
theorem writesProper_of_mem_boundRules : ∀ rule ∈ boundRules, WritesProper rule := by
  have hfloat : WritesProper ⟨floatNumber, .emit .floatLiteral⟩ := by
    refine writesProper_emit fun h span => ?_
    show NumberText .floatLiteral (String.ofList _).toList
    rw [String.toList_ofList]
    refine exists_of_suffix (s := ['f', 'F']) (fun h => ?_) rfl h
    exact (Fragment.or_of_split?_either h).elim beginsWithDigit_of_withFraction
      (beginsWithDigit_of_both beginsWithDigit_of_digits)
  have hdouble : WritesProper ⟨doubleNumber, .emit .doubleLiteral⟩ := by
    refine writesProper_emit fun h span => ?_
    show BeginsWithDigit (String.ofList _).toList
    rw [String.toList_ofList]
    exact (Fragment.or_of_split?_either h).elim beginsWithDigit_of_withFraction
      (beginsWithDigit_of_both beginsWithDigit_of_digits)
  have hlong : WritesProper ⟨longNumber, .emit .longLiteral⟩ := by
    refine writesProper_emit fun h span => ?_
    show NumberText .longLiteral (String.ofList _).toList
    rw [String.toList_ofList]
    exact exists_of_suffix (s := ['l', 'L']) beginsWithDigit_of_digits rfl h
  have hint : WritesProper ⟨digits, .emit .intLiteral⟩ := by
    refine writesProper_emit fun h span => ?_
    show BeginsWithDigit (String.ofList _).toList
    rw [String.toList_ofList]
    exact beginsWithDigit_of_digits h
  have hsymbol : WritesProper ⟨.both (.literal ['\'']) identifier, .emit .symbolLiteral⟩ := by
    refine writesProper_emit fun h span => ?_
    obtain ⟨a, middle, name, ha, hname, rfl⟩ := Fragment.exists_of_split?_both h
    obtain rfl := Fragment.eq_of_split?_literal ha
    exact ⟨name, String.toList_ofList, isWord_of_identifier hname⟩
  have hword : WritesProper ⟨identifier, .emitWord⟩ := by
    intro stack cs text rest kind hs hkind span
    cases hkind
    have hw := isWord_of_identifier hs
    have hboth : IsWord (String.ofList text).toList := by rwa [String.toList_ofList]
    generalize hk : TokenKind.ofWord (String.ofList text) = kind
    unfold Token.Proper
    cases kind <;> first | trivial | exact ⟨hboth, hk⟩ | skip
    -- no keyword is of one of the other kinds
    all_goals
      have hkeyword := TokenKind.ofWord_mem (String.ofList text)
      rw [hk] at hkeyword
      exact absurd hkeyword (by decide)
  intro rule hrule
  simp only [boundRules, List.mem_cons, List.not_mem_nil, or_false] at hrule
  rcases hrule with rfl | rfl | rfl | rfl | rfl | rfl <;> assumption

/-- A rule of code is one of those, or it is free. -/
theorem mem_codeRules {rule : Rule} (h : rule ∈ codeRules) :
    rule ∈ boundRules ∨ isFreeAction rule.action = true := by
  have hsplit : codeRules = codeRules.take 4 ++ (boundRules ++ codeRules.drop 10) := rfl
  have hother : ∀ rule ∈ codeRules.take 4 ++ codeRules.drop 10,
      isFreeAction rule.action = true := by
    decide
  rw [hsplit] at h
  rcases List.mem_append.1 h with hbefore | h
  · exact .inr (hother rule (List.mem_append_left _ hbefore))
  · exact (List.mem_append.1 h).imp id fun hafter => hother rule (List.mem_append_right _ hafter)

/-- So is every rule that applies in some state. -/
theorem mem_rules {id : StateId} {rule : Rule} (h : rule ∈ reference.rules id) :
    rule ∈ boundRules ∨ isFreeAction rule.action = true := by
  have hother : ∀ rule ∈ stringRules ++ (braceRules .templateEnd ++ braceRules .rightBrace),
      isFreeAction rule.action = true := by
    decide
  obtain ⟨n⟩ := id
  match n with
  | 0 =>
    rw [show reference.rules ⟨0⟩ = _ from rules_code] at h
    exact mem_codeRules h
  | 1 =>
    rw [show reference.rules ⟨1⟩ = _ from rules_string] at h
    exact .inr (hother rule (List.mem_append_left _ h))
  | 2 =>
    rw [show reference.rules ⟨2⟩ = _ from rules_template] at h
    refine (List.mem_append.1 h).elim (fun h => .inr (hother rule ?_)) mem_codeRules
    exact List.mem_append_right _ (List.mem_append_left _ h)
  | 3 =>
    rw [show reference.rules ⟨3⟩ = _ from rules_brace] at h
    refine (List.mem_append.1 h).elim (fun h => .inr (hother rule ?_)) mem_codeRules
    exact List.mem_append_right _ (List.mem_append_right _ h)
  | _ + 4 => cases h

/-- Every rule writes proper tokens. -/
theorem writesProper {id : StateId} {rule : Rule} (h : rule ∈ reference.rules id) :
    WritesProper rule :=
  (mem_rules h).elim (writesProper_of_mem_boundRules rule) writesProper_of_isFree

/-- A text is what some rule matches for a token of some kind, or the token stands for a character
that no rule matches. -/
def Writes (kind : TokenKind) (text : List Char) : Prop :=
  (∃ id, ∃ rule ∈ reference.rules id, ∃ stack cs rest,
    rule.fragment.split? cs = some (text, rest) ∧ (rule.action.run text stack).1 = some kind) ∨
    kind = .unexpectedCharacter

/-- The text of a piece is matched for the token that the piece becomes. -/
theorem writes_of_piece? {stack : StateStack} {cs : List Char} {p : Piece} {kind : TokenKind}
    (h : reference.piece? stack cs = some p) (hk : p.kind? = some kind) : Writes kind p.text := by
  cases cs with
  | nil => cases h
  | cons c cs =>
    simp only [Grammar.piece?] at h
    split at h
    · rename_i hs
      cases h
      obtain ⟨rule, hrule, rfl, hsplit⟩ := exists_mem_of_firstSplit? hs
      exact .inl ⟨_, rule, hrule, stack, _, _, hsplit, hk⟩
    · cases h
      cases hk
      exact .inr rfl

/-- A text that is matched for a token makes it proper. -/
theorem properText_of_writes {kind : TokenKind} {text : List Char} (h : Writes kind text) :
    ProperText kind text := by
  rcases h with ⟨id, rule, hrule, stack, cs, rest, hsplit, hkind⟩ | rfl
  · exact writesProper hrule stack cs text rest kind hsplit hkind
  · exact properText_of_isFree rfl

end Reference

/-! ## Tokens of a text -/

/-- The text of every token of the language is matched for it. -/
theorem Lexer.writes_of_mem_tokensWithin {n : Nat} {l : Lexer} (hl : l.grammar = reference) :
    ∀ token ∈ tokensWithin n l, Reference.Writes token.kind token.text.toList := by
  induction n generalizing l with
  | zero => exact List.forall_mem_nil _
  | succ n ih =>
    rw [tokensWithin, step?_eq, hl]
    cases hp : reference.piece? l.stack l.cursor.rest with
    | none => exact List.forall_mem_nil _
    | some p =>
      have hrest := ih (l := l.past p) hl
      dsimp only [Option.map_some]
      cases htoken : l.tokenOfPiece? p with
      | none => exact hrest
      | some token =>
        intro other hother
        rcases List.mem_cons.1 hother with rfl | hother
        · obtain ⟨kind, hkind, rfl⟩ := Option.map_eq_some_iff.1 htoken
          show Reference.Writes kind (String.ofList p.text).toList
          rw [String.toList_ofList]
          exact Reference.writes_of_piece? hp hkind
        · exact hrest other hother

/-- The text of every token of a text is matched for it. -/
theorem writes_of_mem_tokenize {text : String} {token : Token} (h : token ∈ tokenize text) :
    Reference.Writes token.kind token.text.toList :=
  Lexer.writes_of_mem_tokensWithin (l := .ofText reference text) rfl token h

/-- Every token of a text is proper. -/
theorem proper_of_mem_tokenize {text : String} {token : Token} (h : token ∈ tokenize text) :
    token.Proper := by
  have hproper := Reference.properText_of_writes (writes_of_mem_tokenize h) token.span
  rwa [String.ofList_toList] at hproper

/-- The words of a source text. -/
def sourceWords (text : List Char) : List Word :=
  reference.words (.ofRoot Reference.code) text

/-- The tokens of a text are its words at their places. -/
theorem map_word_tokenize (text : String) :
    (tokenize text).map Token.word = sourceWords text.toList :=
  Lexer.map_word_tokens (.ofText reference text)

namespace Tape

/-- The tape of a text is regular. -/
theorem regular_ofText (text : String) : (ofTokens (tokenize text)).Regular :=
  ⟨tokenize text, 0, (List.append_nil _).symm, fun _ h => proper_of_mem_tokenize h⟩

/-- The words on the tape of a text are the words of the text. -/
theorem words_ofText (text : String) :
    (ofTokens (tokenize text)).words = sourceWords text.toList := by
  have hproper : (tokenize text).filter (·.kind != .endOfFile) = tokenize text :=
    List.filter_eq_self.2 fun token h => by simpa using (proper_of_mem_tokenize h).kind_ne
  show ((tokenize text).filter (·.kind != .endOfFile)).map Token.word = _
  rw [hproper]
  exact map_word_tokenize text

/-- Before the first word of a text. -/
theorem spot_ofText (text : String) :
    (ofTokens (tokenize text)).spot = .start (sourceWords text.toList) := by
  rw [← words_ofText]
  simp [spot, Spot.start, ofTokens]

end Tape

end ExprLang
