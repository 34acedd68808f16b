import ExprLang.Proofs.Lexer.Nesting

/-!
# States of the lexer from kinds of tokens

The kinds of the tokens that the lexer has given say in which states it is, and
each state allows for some kinds of tokens only.  So what a token closes is what
was opened last, and all between the two is balanced.

Main definitions:

- Definition {lit}`Balanced`: tokens that close whatever they open.
- Definition {lit}`Reference.statesAfter`: the states after some tokens, by their
  kinds.
- Definition {lit}`Reference.permits`: the kinds of tokens that a state allows for.

Main results:

- Theorem {lit}`Reference.of_piece?`: a match changes the states as the kind of its
  token says.
- Theorem {lit}`Lexer.states_eq_statesAfter`: the kinds of the tokens determine the
  states, and strings, placeholders and the braces in them are well nested.
-/

namespace ExprLang

/-! ## Balanced tokens -/

/-- Tokens that open and close the same things, properly nested. -/
inductive Balanced : List TokenKind → Prop
  | nil : Balanced []
  | plain {kind : TokenKind} (h : kind.isPlain = true) : Balanced [kind]
  | enclosed {inside : List TokenKind} {opening closing : TokenKind} {bracket : Bracket}
    (h : Balanced inside) (ho : opening.opens? = some bracket)
    (hc : closing.closes? = some bracket) : Balanced (opening :: inside ++ [closing])
  | append {front back : List TokenKind} (hf : Balanced front) (hb : Balanced back) :
    Balanced (front ++ back)

/-- Balanced tokens have as many opening braces as closing ones. -/
theorem Balanced.count_brace {kinds : List TokenKind} (h : Balanced kinds) :
    kinds.count .leftBrace = kinds.count .rightBrace := by
  induction h with
  | nil => rfl
  | @plain kind h => cases kind <;> first | rfl | cases h
  | @enclosed inside opening closing bracket _ ho hc ih =>
    have hpair : [opening, closing].count .leftBrace = [opening, closing].count .rightBrace := by
      cases bracket <;> cases opening <;> cases ho <;> cases closing <;> cases hc <;> rfl
    simp only [List.cons_append, List.count_cons, List.count_append, List.count_nil] at hpair ⊢
    omega
  | append _ _ ihf ihb => rw [List.count_append, List.count_append, ihf, ihb]

namespace Reference

/-! ## States by kinds of tokens -/

/-- The state that a token enters, if any: a brace does so only inside a placeholder. -/
def enters? (state : StateId) : TokenKind → Option StateId
  | .stringStart => some string
  | .templateStart => some template
  | .leftBrace => if state = template ∨ state = brace then some brace else none
  | _ => none

/-- Whether a token leaves the innermost state. -/
def leaves (state : StateId) : TokenKind → Bool
  | .stringEnd | .templateEnd => true
  | .rightBrace => state == brace
  | _ => false

/-- The states after a token. -/
def follow (stack : StateStack) (kind : TokenKind) : StateStack :=
  match enters? stack.current kind with
  | some state => stack.push state
  | none => if leaves stack.current kind then stack.pop else stack

/-- The states after some tokens, which begin in code. -/
def statesAfter (kinds : List TokenKind) : StateStack :=
  kinds.foldl follow (.ofRoot code)

/-- Whether a state allows for tokens of a kind. -/
def permits (state : StateId) : TokenKind → Bool
  | .stringContent | .stringEscape | .templateStart | .stringEnd => state == string
  | .templateEnd => state == template
  | .rightBrace => state != string && state != template
  | .unexpectedCharacter => true
  | _ => state != string

/-! ## Rules -/

/-- Whether what an action does in a state is what the kind of its token says. -/
def agrees (state : StateId) : Action → Bool
  | .skip => true
  | .emitWord => state != string
  | .emit kind => permits state kind && (enters? state kind).isNone && !leaves state kind
  | .push kind entered => permits state kind && enters? state kind == some entered
  | .pop kind => permits state kind && (enters? state kind).isNone && leaves state kind

variable {c : Char} {cs text rest : List Char} {action : Action} {state : StateId}
  {stack : StateStack} {kind closing : TokenKind}

/-- A word is allowed for outside strings, and it changes no state. -/
theorem permits_ofWord (hstate : state ≠ string) (text : String) :
    permits state (.ofWord text) = true ∧ enters? state (.ofWord text) = none ∧
      leaves state (.ofWord text) = false := by
  have hwords : ∀ kind ∈ TokenKind.identifier :: TokenKind.keywords.map Prod.snd,
      permits state kind = true ∧ enters? state kind = none ∧ leaves state kind = false := by
    simp [TokenKind.keywords, permits, enters?, leaves, hstate]
  exact hwords _ (TokenKind.ofWord_mem text)

/-- An action that agrees changes the states as the kind of its token says. -/
theorem run_of_agrees (h : agrees stack.current action = true) (text : List Char)
    (hkind : (action.run text stack).1 = some kind) :
    permits stack.current kind = true ∧ (action.run text stack).2 = follow stack kind := by
  cases action with
  | skip => cases hkind
  | emitWord =>
    cases hkind
    obtain ⟨hpermits, henters, hleaves⟩ :=
      permits_ofWord (by simpa [agrees] using h) (String.ofList text)
    exact ⟨hpermits, by simp [follow, henters, hleaves, Action.run]⟩
  | emit emitted =>
    cases hkind
    simp only [agrees, Bool.and_eq_true, Option.isNone_iff_eq_none, Bool.not_eq_true'] at h
    exact ⟨h.1.1, by simp [follow, h.1.2, h.2, Action.run]⟩
  | push pushed entered =>
    cases hkind
    simp only [agrees, Bool.and_eq_true, beq_iff_eq] at h
    exact ⟨h.1, by simp [follow, h.2, Action.run]⟩
  | pop popped =>
    cases hkind
    simp only [agrees, Bool.and_eq_true, Option.isNone_iff_eq_none] at h
    exact ⟨h.1.1, by simp [follow, h.1.2, h.2, Action.run]⟩

/-- The rules of code agree. -/
theorem agrees_codeRules : ∀ rule ∈ codeRules, agrees code rule.action = true := by
  decide

/-- The rules of the body of a string agree. -/
theorem agrees_stringRules : ∀ rule ∈ stringRules, agrees string rule.action = true := by
  decide

/-- A plain action that agrees in code does so outside strings. -/
theorem agrees_of_isPlainAction (h : agrees code action = true)
    (hplain : isPlainAction action = true) (hstate : state = template ∨ state = brace) :
    agrees state action = true := by
  cases action with
  | skip => rfl
  | emitWord => rcases hstate with rfl | rfl <;> rfl
  | emit kind =>
    rcases hstate with rfl | rfl <;> cases kind <;> first | rfl | (cases h; done) | cases hplain
  | push kind entered =>
    obtain ⟨hkind, hentered⟩ := Bool.and_eq_true_iff.1 hplain
    rw [eq_of_beq hkind, eq_of_beq hentered]
    rcases hstate with rfl | rfl <;> rfl
  | pop kind => cases hplain

/-- Where braces have rules of their own, what applies agrees. -/
theorem agrees_of_braceRules (hstate : state = template ∨ state = brace)
    (hclosing : agrees state (.pop closing) = true)
    (h : firstSplit? (braceRules closing ++ codeRules) (c :: cs) = some (action, text, rest)) :
    agrees state action = true := by
  have hopening : agrees state (.push .leftBrace brace) = true := by
    rcases hstate with rfl | rfl <;> rfl
  rcases action_of_braceRules h with rfl | rfl | hplain
  · exact hclosing
  · exact hopening
  · obtain ⟨rule, hrule, rfl, -⟩ := exists_mem_of_firstSplit? h
    rcases List.mem_append.1 hrule with hbrace | hcode
    · simp only [braceRules, List.mem_cons, List.not_mem_nil, or_false] at hbrace
      rcases hbrace with rfl | rfl
      · exact hclosing
      · exact hopening
    · exact agrees_of_isPlainAction (agrees_codeRules rule hcode) hplain hstate

/-- The rule that applies in a state agrees. -/
theorem agrees_of_firstSplit? (hstate : (reference.state? state).isSome = true)
    (h : firstSplit? (reference.rules state) (c :: cs) = some (action, text, rest)) :
    agrees state action = true := by
  obtain ⟨_ | _ | _ | _ | n⟩ := state
  · rw [show reference.rules ⟨0⟩ = _ from rules_code] at h
    obtain ⟨rule, hrule, rfl, -⟩ := exists_mem_of_firstSplit? h
    exact agrees_codeRules rule hrule
  · rw [show reference.rules ⟨1⟩ = _ from rules_string] at h
    obtain ⟨rule, hrule, rfl, -⟩ := exists_mem_of_firstSplit? h
    exact agrees_stringRules rule hrule
  · rw [show reference.rules ⟨2⟩ = _ from rules_template] at h
    exact agrees_of_braceRules (.inl rfl) rfl h
  · rw [show reference.rules ⟨3⟩ = _ from rules_brace] at h
    exact agrees_of_braceRules (.inr rfl) rfl h
  · cases hstate

/-- A match changes the states as the kind of its token says. -/
theorem of_piece? {p : Piece} (hstate : (reference.state? stack.current).isSome = true)
    (hp : reference.piece? stack cs = some p) (hkind : p.kind? = some kind) :
    permits stack.current kind = true ∧ p.stack = follow stack kind := by
  cases cs with
  | nil => cases hp
  | cons c cs =>
    simp only [Grammar.piece?] at hp
    split at hp
    · rename_i hs
      cases hp
      exact run_of_agrees (agrees_of_firstSplit? hstate hs) _ hkind
    · cases hp
      cases hkind
      exact ⟨rfl, rfl⟩

/-! ## What the states have been entered by -/

/-- What stands before and behind the tokens that have entered some states: all behind one of
them, up to the next, is balanced. -/
inductive Opened : List StateId → List TokenKind → Prop
  | root (kinds : List TokenKind) : Opened [] kinds
  | enter {ids : List StateId} {outer inside : List TokenKind} {id : StateId}
    {opening : TokenKind} {bracket : Bracket} (h : Opened ids outer)
    (hid : bracket? id = some bracket) (ho : opening.opens? = some bracket)
    (hi : Balanced inside) : Opened (id :: ids) (outer ++ opening :: inside)

variable {ids : List StateId} {kinds : List TokenKind} {bracket : Bracket}

/-- Balanced tokens enter no state. -/
theorem Opened.append (h : Opened ids kinds) {more : List TokenKind} (hm : Balanced more) :
    Opened ids (kinds ++ more) := by
  cases h with
  | root => exact .root _
  | enter h hid ho hi =>
    rw [List.append_assoc, List.cons_append]
    exact .enter h hid ho (hi.append hm)

/-- A state is left by what closes what has been opened to enter it. -/
theorem Opened.leave (h : Opened (state :: ids) kinds) (hstate : bracket? state = some bracket)
    (hc : closing.closes? = some bracket) : Opened ids (kinds ++ [closing]) := by
  cases h with
  | enter h hid ho hi =>
    cases hid.symm.trans hstate
    rw [List.append_assoc]
    exact h.append (.enclosed hi ho hc)

/-- A token that enters a state opens what the state is inside of. -/
theorem exists_bracket_of_enters? {entered : StateId} (h : enters? state kind = some entered) :
    ∃ bracket, bracket? entered = some bracket ∧ kind.opens? = some bracket := by
  unfold enters? at h
  split at h
  · cases h
    exact ⟨_, rfl, rfl⟩
  · cases h
    exact ⟨_, rfl, rfl⟩
  · split at h <;> cases h
    exact ⟨_, rfl, rfl⟩
  · cases h

/-- A token that leaves a state closes what the state is inside of. -/
theorem closes?_of_leaves (hstate : bracket? state = some bracket)
    (hp : permits state kind = true) (hl : leaves state kind = true) :
    kind.closes? = some bracket := by
  obtain ⟨_ | _ | _ | _ | n⟩ := state <;> cases hstate <;> cases kind <;>
    first | rfl | (cases hl; done) | cases hp

/-- What an entered state allows for is plain if it neither enters nor leaves a state. -/
theorem isPlain_of_permits (hstate : bracket? state = some bracket)
    (hp : permits state kind = true) (he : enters? state kind = none)
    (hl : leaves state kind = false) : kind.isPlain = true := by
  obtain ⟨_ | _ | _ | _ | n⟩ := state <;> cases hstate <;> cases kind <;>
    first | rfl | (cases hl; done) | (cases he; done) | cases hp

/-- A token that a state allows for keeps states and tokens in step. -/
theorem Opened.follow (h : Opened stack.entered kinds) (hp : permits stack.current kind = true) :
    Opened (follow stack kind).entered (kinds ++ [kind]) := by
  unfold Reference.follow
  cases he : enters? stack.current kind with
  | some entered =>
    obtain ⟨bracket, hid, ho⟩ := exists_bracket_of_enters? he
    exact h.enter hid ho .nil
  | none =>
    obtain ⟨root, ids⟩ := stack
    cases ids with
    | nil =>
      dsimp only
      split <;> exact .root _
    | cons id ids =>
      obtain ⟨bracket, hid⟩ : ∃ bracket, bracket? id = some bracket := by
        cases h with
        | enter h hid ho hi => exact ⟨_, hid⟩
      dsimp only
      split
      · rename_i hl
        exact h.leave hid (closes?_of_leaves hid hp hl)
      · rename_i hl
        exact h.append (.plain (isPlain_of_permits hid hp he (Bool.not_eq_true _ ▸ hl)))

/-- A token that leaves a state closes what has been opened to enter the state. -/
theorem Opened.exists_opening (h : Opened stack.entered kinds)
    (hn : ∃ nest, Nests stack nest) (hp : permits stack.current kind = true)
    (hl : leaves stack.current kind = true) :
    ∃ outer inside opening bracket, kinds = outer ++ opening :: inside ∧
      opening.opens? = some bracket ∧ kind.closes? = some bracket ∧ Balanced inside := by
  obtain ⟨nest, hn⟩ := hn
  cases hn with
  | code n => cases kind <;> first | (cases hl; done) | cases hp
  | enter _ hid =>
    cases h with
    | enter h hid' ho hi =>
      cases hid.symm.trans hid'
      exact ⟨_, _, _, _, rfl, ho, closes?_of_leaves hid hp hl, hi⟩

end Reference

namespace Lexer

open Reference

variable {l after : Lexer} {token : Token} {text : String} {tokens : List Token}

/-! ## Runs -/

/-- A call for a token changes the states as the kind of the token says. -/
theorem follow_of_next (hg : l.grammar = reference ∧ reference.Admits l.stack)
    (h : l.next = (some token, after)) :
    permits l.stack.current token.kind = true ∧ after.stack = follow l.stack token.kind := by
  obtain ⟨m, hdrops, hstep⟩ := exists_drops_of_next h
  obtain ⟨hgrammar, hstack⟩ := hdrops.stack_eq
  rw [step?_eq, hgrammar, hg.1, hstack] at hstep
  obtain ⟨p, hp, hpast⟩ := Option.map_eq_some_iff.1 hstep
  obtain ⟨htoken, rfl⟩ := Prod.mk.injEq .. ▸ hpast
  have hkind : p.kind? = some token.kind := by
    obtain ⟨kind, hkind, rfl⟩ := Option.map_eq_some_iff.1 htoken
    exact hkind
  exact of_piece? hg.2.current hp hkind

/-- The kinds of the tokens of a run determine the states, and what has been opened to enter
them is known. -/
theorem Gives.states (h : (ofText reference text).Gives tokens l) :
    l.stack = statesAfter (tokens.map Token.kind) ∧
      Opened l.stack.entered (tokens.map Token.kind) := by
  induction h with
  | nil => exact ⟨rfl, .root _⟩
  | snoc hbefore hnext ih =>
    obtain ⟨hpermits, hfollow⟩ := follow_of_next (hbefore.admits wellFormed) hnext
    rw [List.map_append, List.map_singleton, statesAfter, List.foldl_concat]
    rw [hfollow]
    exact ⟨congrArg (follow · _) ih.1, ih.2.follow hpermits⟩

/-- The last token of a run comes from a call. -/
theorem Gives.exists_of_concat {before : List Token}
    (h : l.Gives (before ++ [token]) after) :
    ∃ m, l.Gives before m ∧ m.next = (some token, after) := by
  generalize hall : before ++ [token] = all at h
  cases h with
  | nil => simp at hall
  | snoc hgives hnext =>
    obtain ⟨rfl, hlast⟩ := List.append_inj' hall rfl
    cases hlast
    exact ⟨_, hgives, hnext⟩

/-- A run has come from each of its beginnings. -/
theorem Gives.exists_of_append {before more : List Token} (h : l.Gives (before ++ more) after) :
    ∃ m, l.Gives before m := by
  induction more using List.reverseRecOn generalizing after with
  | nil => exact ⟨after, by rwa [List.append_nil] at h⟩
  | append_singleton more token ih =>
    rw [← List.append_assoc] at h
    obtain ⟨m, hm, -⟩ := h.exists_of_concat
    exact ih hm

/-- Every beginning of the tokens of a text is what a run gives. -/
theorem exists_gives_of_tokenize {before more : List Token}
    (h : tokenize text = before ++ more) : ∃ m, (ofText reference text).Gives before m := by
  obtain ⟨all, last, final, hall, hlast⟩ := Gives.exists_last (.nil (l := ofText reference text))
  have happend := hall.append_tokens
  rw [(tokens_of_next_none hlast).1, List.append_nil] at happend
  rw [happend, show (ofText reference text).tokens = before ++ more from h] at hall
  exact hall.exists_of_append

/-- Tokens whose kinds are a list with one of them in it. -/
theorem exists_of_map_kind {outer inside : List TokenKind} {opening : TokenKind}
    (h : tokens.map Token.kind = outer ++ opening :: inside) :
    ∃ before start between, tokens = before ++ start :: between ∧
      before.map Token.kind = outer ∧ start.kind = opening ∧
      between.map Token.kind = inside := by
  obtain ⟨before, rest, rfl, hbefore, hrest⟩ := List.map_eq_append_iff.1 h
  obtain ⟨start, between, rfl, hstart, hbetween⟩ := List.map_eq_cons_iff.1 hrest
  exact ⟨before, start, between, rfl, hbefore, hstart, hbetween⟩

/-- Each token in turn comes from a lexer that has given those before it.  Wherever a run gets, the
states are those that the kinds of its tokens say; the innermost one allows for the next token; and
if that leaves the state, then it closes what one of the tokens before it opened, and the tokens
between the two are balanced, with as many opening as closing braces. -/
theorem states_eq_statesAfter (text : String) :
    (∀ before more, tokenize text = before ++ more →
      ∃ l, (ofText reference text).Gives before l) ∧
    ∀ tokens l, (ofText reference text).Gives tokens l →
      l.stack = statesAfter (tokens.map Token.kind) ∧
      ∀ token after, l.next = (some token, after) →
        permits l.stack.current token.kind = true ∧
        (leaves l.stack.current token.kind = true →
          ∃ outer start inside bracket, tokens = outer ++ start :: inside ∧
            start.kind.opens? = some bracket ∧ token.kind.closes? = some bracket ∧
            Balanced (inside.map Token.kind) ∧
            (inside.map Token.kind).count .leftBrace =
              (inside.map Token.kind).count .rightBrace) := by
  refine ⟨fun before more => exists_gives_of_tokenize, ?_⟩
  intro tokens l hgives
  obtain ⟨hstack, hopened⟩ := hgives.states
  refine ⟨hstack, ?_⟩
  intro token after hnext
  obtain ⟨hpermits, -⟩ := follow_of_next (hgives.admits wellFormed) hnext
  refine ⟨hpermits, fun hleaves => ?_⟩
  obtain ⟨outer, inside, opening, bracket, hkinds, hopens, hcloses, hbalanced⟩ :=
    hopened.exists_opening (hgives.nests.2.imp fun _ => And.right) hpermits hleaves
  obtain ⟨before, start, between, rfl, -, rfl, rfl⟩ := exists_of_map_kind hkinds
  exact ⟨before, start, between, bracket, rfl, hopens, hcloses, hbalanced, hbalanced.count_brace⟩

/-- Before the end of a placeholder with braces in it. -/
theorem states_eq_statesAfter_placeholder :
    ∃ tokens l token after, (ofText reference "\"\\\x7b\x7bb\x7d\x7d\"").Gives tokens l ∧
      l.next = (some token, after) ∧ token.kind = .templateEnd ∧
      l.stack = ⟨code, [template, string]⟩ ∧
      ∃ outer start inside, tokens = outer ++ start :: inside ∧
        start.kind.opens? = some .placeholder ∧ Balanced (inside.map Token.kind) := by
  obtain ⟨hbegins, hrun⟩ := states_eq_statesAfter "\"\\\x7b\x7bb\x7d\x7d\""
  have hkinds : (tokenize "\"\\\x7b\x7bb\x7d\x7d\"").map Token.kind =
      [.stringStart, .templateStart, .leftBrace, .identifier, .rightBrace] ++
        .templateEnd :: [.stringEnd] := by
    decide +kernel
  obtain ⟨before, token, more, hsplit, hbefore, htoken, -⟩ := exists_of_map_kind hkinds
  obtain ⟨after, hafter⟩ := hbegins (before ++ [token]) more (by simpa using hsplit)
  obtain ⟨l, hgives, hnext⟩ := hafter.exists_of_concat
  obtain ⟨hstack, hnextRun⟩ := hrun before l hgives
  obtain ⟨-, hmatched⟩ := hnextRun token after hnext
  obtain ⟨outer, start, inside, bracket, hopen, hstart, hclose, hbalanced, -⟩ :=
    hmatched (by rw [htoken]; rfl)
  rw [htoken] at hclose
  cases hclose
  refine ⟨before, l, token, after, hgives, hnext, htoken, ?_, outer, start, inside, hopen, hstart,
    hbalanced⟩
  rw [hstack, hbefore]
  rfl

end Lexer

end ExprLang
