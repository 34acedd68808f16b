import ExprLang.Proofs.Lexer.Soundness
import ExprLang.Proofs.Lexer.Spelling
import ExprLang.Proofs.Token.Nesting

/-!
# States of the lexer and what is open

The states that the lexer has entered are the strings and placeholders that its
tokens have opened, and the braces inside placeholders.  Braces in code outside
strings are open without a state of their own.

Main definitions:

- Definition {lit}`Reference.Nests`: what is open where some states are active.

Main results:

- Theorem {lit}`Reference.Nests.of_piece?`: a match keeps states and brackets in
  step.
- Theorem {lit}`Lexer.Gives.run?_eq_nil`: where no state is entered and every brace
  is closed, nothing is open.
- Theorem {lit}`Lexer.Gives.sourceWords_append`: from a token in code on, the words
  of a text are those of the rest of the text alone.
-/

namespace ExprLang

namespace Reference

/-! ## States -/

/-- The bracket inside which a state is. -/
def bracket? (id : StateId) : Option Bracket :=
  match id.index with
  | 1 => some .string
  | 2 => some .placeholder
  | 3 => some .brace
  | _ => none

/-- What is open where some states are active: braces in code, and inside them a bracket for each
state that was entered. -/
inductive Nests : StateStack → Nest → Prop
  | code (n : Nat) : Nests (.ofRoot Reference.code) (List.replicate n .brace)
  | enter {stack : StateStack} {nest : Nest} {id : StateId} {bracket : Bracket}
    (h : Nests stack nest) (hid : bracket? id = some bracket) :
    Nests (stack.push id) (bracket :: nest)

/-! ## Rules -/

/-- Whether an action opens at most a string and closes nothing. -/
def isPlainAction : Action → Bool
  | .skip | .emitWord => true
  | .emit kind => kind.isPlain
  | .push kind state => kind == .stringStart && state == string
  | .pop _ => false

/-- Whether a rule of code is one for a brace. -/
def isBraceRule (rule : Rule) (text : List Char) (kind : TokenKind) : Bool :=
  sameSimple rule.fragment (.literal text) && rule.action == .emit kind

variable {c : Char} {cs text rest : List Char} {action : Action} {closing : TokenKind}
  {stack : StateStack} {nest : Nest}

/-- Of the rules of code only those for braces open or close more than a string. -/
theorem isPlainAction_or_isBraceRule : ∀ rule ∈ codeRules,
    isPlainAction rule.action = true ∨ isBraceRule rule ['\x7b'] .leftBrace = true ∨
      isBraceRule rule ['\x7d'] .rightBrace = true := by
  decide

/-- Of the rules of the body of a string only those for placeholders and for the end of the string
open or close anything. -/
theorem action_of_mem_stringRules : ∀ rule ∈ stringRules,
    isPlainAction rule.action = true ∨ rule.action = .push .templateStart template ∨
      rule.action = .pop .stringEnd := by
  decide

/-- A word is a plain token. -/
theorem isPlain_ofWord (text : String) : (TokenKind.ofWord text).isPlain = true := by
  have hall : ∀ kind ∈ TokenKind.identifier :: TokenKind.keywords.map Prod.snd,
      kind.isPlain = true := by
    decide
  exact hall _ (TokenKind.ofWord_mem text)

/-- Where braces have rules of their own, what else applies opens at most a string. -/
theorem action_of_braceRules
    (h : firstSplit? (braceRules closing ++ codeRules) (c :: cs) = some (action, text, rest)) :
    action = .pop closing ∨ action = .push .leftBrace brace ∨ isPlainAction action = true := by
  have hliteral (d : Char) : (Fragment.literal [d]).split? ([d] ++ cs) = some ([d], cs) :=
    Fragment.split?_literal_append [d] cs
  by_cases hclose : c = '\x7d'
  · subst hclose
    rw [braceRules, List.cons_append, firstSplit?_cons_of_split? (hliteral _) (by simp)] at h
    cases h
    exact .inl rfl
  by_cases hopen : c = '\x7b'
  · subst hopen
    have hnone : (Fragment.literal ['\x7d']).split? ('\x7b' :: cs) = none :=
      Fragment.split?_of_refuses (by decide) cs
    rw [braceRules, List.cons_append, firstSplit?_cons_of_none hnone, List.cons_append,
      firstSplit?_cons_of_split? (hliteral _) (by simp)] at h
    cases h
    exact .inr (.inl rfl)
  · have hrefuses (d : Char) (hd : c ≠ d) : (Fragment.literal [d]).split? (c :: cs) = none :=
      Fragment.split?_of_refuses (by simpa [Fragment.refuses] using hd) cs
    rw [firstSplit?_append_of_none (by simp [braceRules, hrefuses, hclose, hopen])] at h
    obtain ⟨rule, hrule, rfl, hsplit⟩ := exists_mem_of_firstSplit? h
    refine .inr (.inr ?_)
    rcases isPlainAction_or_isBraceRule rule hrule with hplain | hbrace | hbrace
    · exact hplain
    · rw [eq_of_sameSimple (Bool.and_eq_true_iff.1 hbrace).1, hrefuses _ hopen] at hsplit
      cases hsplit
    · rw [eq_of_sameSimple (Bool.and_eq_true_iff.1 hbrace).1, hrefuses _ hclose] at hsplit
      cases hsplit

/-! ## Matches -/

/-- A match keeps the states and what is open in step. -/
def Follows (nest : Nest) (kind? : Option TokenKind) (stack : StateStack) : Prop :=
  ∃ after, nest.run? kind?.toList = some after ∧ Nests stack after

/-- A token keeps in step if what is open after it goes with the states. -/
theorem follows_some {kind : TokenKind} {after : Nest} (h : nest.next? kind = some after)
    (hn : Nests stack after) : Follows nest (some kind) stack :=
  ⟨after, by rw [Option.toList_some, Nest.run?_cons, h]; rfl, hn⟩

/-- A plain action keeps in step. -/
theorem Nests.follows_of_isPlainAction (h : Nests stack nest) (ha : isPlainAction action = true)
    (text : List Char) :
    Follows nest (action.run text stack).1 (action.run text stack).2 := by
  cases action with
  | skip => exact ⟨nest, rfl, h⟩
  | emitWord => exact follows_some (Nest.next?_of_isPlain (isPlain_ofWord _)) h
  | emit kind => exact follows_some (Nest.next?_of_isPlain ha) h
  | push kind state =>
    obtain ⟨hkind, hstate⟩ := Bool.and_eq_true_iff.1 ha
    rw [eq_of_beq hkind, eq_of_beq hstate]
    exact follows_some rfl (h.enter rfl)
  | pop kind => cases ha

/-- A match in code keeps in step. -/
theorem follows_code {n : Nat}
    (h : firstSplit? codeRules (c :: cs) = some (action, text, rest)) :
    Follows (List.replicate n .brace) (action.run text (.ofRoot code)).1
      (action.run text (.ofRoot code)).2 := by
  obtain ⟨rule, hrule, rfl, -⟩ := exists_mem_of_firstSplit? h
  rcases isPlainAction_or_isBraceRule rule hrule with hplain | hbrace | hbrace
  · exact (Nests.code n).follows_of_isPlainAction hplain text
  · rw [eq_of_beq (Bool.and_eq_true_iff.1 hbrace).2]
    exact follows_some rfl (.code (n + 1))
  · rw [eq_of_beq (Bool.and_eq_true_iff.1 hbrace).2]
    cases n with
    | zero => exact follows_some rfl (.code 0)
    | succ n => exact follows_some rfl (.code n)

/-- A match keeps states and brackets in step. -/
theorem Nests.of_piece? {p : Piece} (h : Nests stack nest)
    (hp : reference.piece? stack cs = some p) : Follows nest p.kind? p.stack := by
  cases cs with
  | nil => cases hp
  | cons c cs =>
    simp only [Grammar.piece?] at hp
    split at hp
    case h_2 =>
      cases hp
      exact follows_some rfl h
    rename_i action text rest hs
    cases hp
    cases h with
    | code n =>
      rw [show reference.rules (StateStack.ofRoot Reference.code).current = _ from rules_code] at hs
      exact follows_code hs
    | @enter stack nest id bracket h hid =>
      have hstack : Nests (stack.push id) (bracket :: nest) := h.enter hid
      -- Of the states, only those in strings, templates and braces open a bracket.
      obtain ⟨_ | _ | _ | _ | n⟩ := id
      · cases hid
      · cases hid
        rw [show reference.rules (stack.push ⟨1⟩).current = _ from rules_string] at hs
        obtain ⟨rule, hrule, rfl, -⟩ := exists_mem_of_firstSplit? hs
        rcases action_of_mem_stringRules rule hrule with hplain | hopen | hclose
        · exact hstack.follows_of_isPlainAction hplain text
        · rw [hopen]
          exact follows_some rfl (hstack.enter rfl)
        · rw [hclose]
          exact follows_some rfl h
      · cases hid
        rw [show reference.rules (stack.push ⟨2⟩).current = _ from rules_template] at hs
        rcases action_of_braceRules hs with rfl | rfl | hplain
        · exact follows_some rfl h
        · exact follows_some rfl (hstack.enter rfl)
        · exact hstack.follows_of_isPlainAction hplain text
      · cases hid
        rw [show reference.rules (stack.push ⟨3⟩).current = _ from rules_brace] at hs
        rcases action_of_braceRules hs with rfl | rfl | hplain
        · exact follows_some rfl h
        · exact follows_some rfl (hstack.enter rfl)
        · exact hstack.follows_of_isPlainAction hplain text
      · cases hid

end Reference

namespace Lexer

open Reference

variable {l m after : Lexer} {token : Token} {token? : Option Token} {nest : Nest}

/-! ## Runs -/

/-- A match of the lexer keeps states and brackets in step. -/
theorem follows_of_step? (hg : l.grammar = reference) (h : Nests l.stack nest)
    (hs : l.step? = some (token?, after)) :
    after.grammar = reference ∧ Follows nest (token?.map Token.kind) after.stack := by
  rw [step?_eq, hg] at hs
  obtain ⟨p, hp, hpast⟩ := Option.map_eq_some_iff.1 hs
  cases hpast
  refine ⟨hg, ?_⟩
  have hkind : (l.tokenOfPiece? p).map Token.kind = p.kind? := by
    unfold tokenOfPiece?
    rw [Option.map_map]
    exact Option.map_id'
  rw [hkind]
  exact h.of_piece? hp

/-- A match that is dropped leaves the states. -/
theorem stack_of_step?_drop (hs : l.step? = some (none, after)) :
    after.grammar = l.grammar ∧ after.stack = l.stack := by
  rw [step?_eq] at hs
  obtain ⟨p, hp, hpast⟩ := Option.map_eq_some_iff.1 hs
  obtain ⟨htoken, rfl⟩ := Prod.mk.injEq .. ▸ hpast
  refine ⟨rfl, ?_⟩
  show p.stack = l.stack
  have hkind : p.kind? = none := Option.map_eq_none_iff.1 htoken
  cases hrest : l.cursor.rest with
  | nil =>
    rw [hrest] at hp
    cases hp
  | cons c cs =>
    simp only [hrest, Grammar.piece?] at hp
    split at hp
    · cases hp
      rename_i action _ _ _
      cases action <;> first | rfl | cases hkind
    · cases hp
      rfl

/-- Matches that are dropped lead from one lexer to another. -/
inductive Drops : Lexer → Lexer → Prop
  | refl (l : Lexer) : Drops l l
  | step {l middle m : Lexer} (hs : l.step? = some (none, middle)) (h : Drops middle m) :
    Drops l m

/-- A call that gives a token drops matches first, and the next match becomes the token. -/
theorem exists_drops_of_next (h : l.next = (some token, after)) :
    ∃ m, l.Drops m ∧ m.step? = some (some token, after) := by
  induction l using step_induct with
  | stop l hs =>
    rw [next_of_step?_none hs] at h
    cases h
  | move l found? middle hs ih =>
    cases found? with
    | none =>
      rw [next_of_step?_drop hs] at h
      obtain ⟨m, hdrops, hstep⟩ := ih h
      exact ⟨m, .step hs hdrops, hstep⟩
    | some found =>
      rw [next_of_step?_token hs] at h
      cases h
      exact ⟨l, .refl l, hs⟩

namespace Drops

/-- Dropped matches leave the states. -/
theorem stack_eq (h : l.Drops m) : m.grammar = l.grammar ∧ m.stack = l.stack := by
  induction h with
  | refl => exact ⟨rfl, rfl⟩
  | step hs _ ih =>
    obtain ⟨hgrammar, hstack⟩ := stack_of_step?_drop hs
    exact ⟨ih.1.trans hgrammar, ih.2.trans hstack⟩

/-- Dropped matches leave the tokens that are to come. -/
theorem tokens_eq (h : l.Drops m) : m.tokens = l.tokens := by
  induction h with
  | refl => rfl
  | step hs _ ih => rw [ih, tokens_of_step?_drop hs]

/-- Dropped matches move over a piece of the text. -/
theorem exists_skipped (h : l.Drops m) {before : List Char}
    (hpoint : l.cursor.point = .behind before) :
    ∃ skipped, l.cursor.rest = skipped ++ m.cursor.rest ∧
      m.cursor.point = .behind (before ++ skipped) := by
  induction h generalizing before with
  | refl => exact ⟨[], rfl, by rw [List.append_nil, hpoint]⟩
  | step hs _ ih =>
    obtain ⟨text, -, hrest, hmiddle, -⟩ := exists_of_step? hs hpoint
    obtain ⟨skipped, hskipped, hlast⟩ := ih hmiddle
    exact ⟨text ++ skipped, by rw [hrest, hskipped, List.append_assoc],
      by rw [hlast, List.append_assoc]⟩

end Drops

/-- Wherever a run gets, the states and what its tokens have opened are in step. -/
theorem Gives.nests {text : String} {tokens : List Token}
    (h : (ofText reference text).Gives tokens l) :
    l.grammar = reference ∧
      ∃ nest, Nest.run? [] (tokens.map Token.kind) = some nest ∧ Nests l.stack nest := by
  induction h with
  | nil => exact ⟨rfl, [], rfl, .code 0⟩
  | snoc _ hnext ih =>
    obtain ⟨hgrammar, nest, hrun, hnests⟩ := ih
    obtain ⟨m, hdrops, hstep⟩ := exists_drops_of_next hnext
    obtain ⟨hg, hstack⟩ := hdrops.stack_eq
    obtain ⟨hafter, final, hfinal, hfollows⟩ :=
      follows_of_step? (hg.trans hgrammar) (hstack ▸ hnests) hstep
    refine ⟨hafter, final, ?_, hfollows⟩
    rw [List.map_append, List.map_singleton, Nest.run?_concat, hrun]
    rw [Option.map_some, Option.toList_some, Nest.run?_cons] at hfinal
    simpa using hfinal

/-- Where no state is entered and every brace is closed, nothing is open. -/
theorem Gives.run?_eq_nil {text : String} {tokens : List Token}
    (h : (ofText reference text).Gives tokens l) (hdepth : l.depth = 1)
    (hbraces : openBraces (tokens.map Token.kind) = 0) :
    Nest.run? [] (tokens.map Token.kind) = some [] ∧ l.stack = .ofRoot code := by
  obtain ⟨-, nest, hrun, hnests⟩ := h.nests
  have hcount := Nest.count_brace_of_run? hrun
  rw [depth] at hdepth
  generalize l.stack = stack at hdepth hnests ⊢
  cases hnests with
  | code n =>
    have hn : n = 0 := by
      rw [List.count_replicate_self] at hcount
      rw [hcount]
      exact hbraces
    rw [hn] at hrun
    exact ⟨hrun, rfl⟩
  | enter h hid => simp [StateStack.depth, StateStack.push] at hdepth

/-! ## The rest of a text -/

/-- Of two beginnings of a text that take up as many bytes one is the other. -/
theorem eq_of_utf8ByteSize {a b c d : List Char} (h : a ++ b = c ++ d)
    (hsize : (String.ofList a).utf8ByteSize = (String.ofList c).utf8ByteSize) : a = c := by
  have hnil {e : List Char} (he : (String.ofList e).utf8ByteSize = 0) : e = [] := by
    simpa using he
  rcases List.append_eq_append_iff.1 h with ⟨e, rfl, -⟩ | ⟨e, rfl, -⟩
  · rw [String.ofList_append, String.utf8ByteSize_append] at hsize
    rw [hnil (e := e) (by omega), List.append_nil]
  · rw [String.ofList_append, String.utf8ByteSize_append] at hsize
    rw [hnil (e := e) (by omega), List.append_nil]

/-- From a token in code on, the words of a text are those of the rest of the text alone. -/
theorem Gives.sourceWords_append {front suffix : String} {before : List Token}
    (h : (ofText reference (front ++ suffix)).Gives before l) (hstack : l.stack = .ofRoot code)
    (hnext : l.next = (some token, after))
    (hstart : token.span.start.offset = front.utf8ByteSize) :
    sourceWords (front ++ suffix).toList = before.map Token.word ++ sourceWords suffix.toList ∧
      (sourceWords suffix.toList).head? = some token.word := by
  obtain ⟨covered, htext, hpoint, -⟩ := h.exists_layout
  obtain ⟨m, hdrops, hstep⟩ := exists_drops_of_next hnext
  obtain ⟨hgrammar, hm⟩ := hdrops.stack_eq
  obtain ⟨skipped, hskipped, hbehind⟩ := hdrops.exists_skipped hpoint
  have hrest : m.cursor.rest = suffix.toList := by
    obtain ⟨text, -, -, -, hpiece⟩ := exists_of_step? hstep hbehind
    obtain ⟨kind, rfl⟩ := hpiece token rfl
    have hsplit : front.toList ++ suffix.toList = covered ++ skipped ++ m.cursor.rest := by
      rw [← String.toList_append, htext, hskipped, List.append_assoc]
    have hfront : front.toList = covered ++ skipped :=
      eq_of_utf8ByteSize hsplit (by rw [String.ofList_toList]; exact hstart.symm)
    rw [hfront] at hsplit
    exact (List.append_cancel_left hsplit).symm
  have htokens : m.tokens.map Token.word = sourceWords suffix.toList := by
    rw [map_word_tokens, hgrammar, h.nests.1, hm, hstack, hrest]
    rfl
  constructor
  · have hall := map_word_tokens (ofText reference (front ++ suffix))
    rw [← h.append_tokens, List.map_append, ← hdrops.tokens_eq, htokens] at hall
    exact hall.symm
  · rw [← htokens, tokens_of_step?_token hstep]
    rfl

end Lexer

end ExprLang
