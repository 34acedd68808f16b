import ExprLang.Proofs.Layout.Units
import ExprLang.Proofs.Lexer.Soundness
import ExprLang.Proofs.Parser.Options
import ExprLang.Proofs.RoundTrip

/-!
# Layout does not matter

Two texts with the same words in the same order parse alike, wherever the words stand
in them: into trees with the same shape and with the same warnings, or with the same
diagnostics.  Points correspond that belong to the same token.  As the tokens of a
text start one after the other, and end one after the other, no point corresponds to
two.

Main definitions:

- Definition {lit}`Token.Ascending`: tokens that are not empty, one after the other.
- Definition {lit}`Alignment.ofTokens`: points that belong to the same token.

Main results:

- Theorem {lit}`parseText_layout`: texts with the same words parse alike.
-/

namespace ExprLang

/-! ## Points of tokens -/

namespace Point

/-- Points at the same place of two lists. -/
def Beside (ps qs : List Point) (p q : Point) : Prop :=
  ∃ i : Nat, ps[i]? = some p ∧ qs[i]? = some q

/-- Where no point comes twice, none stands beside two. -/
theorem biUnique_beside {ps qs : List Point} (hp : ps.Nodup) (hq : qs.Nodup) :
    Relator.BiUnique (Beside ps qs) := by
  have hindex {ps : List Point} (hp : ps.Nodup) {i j : Nat} {p : Point} (hi : ps[i]? = some p)
      (hj : ps[j]? = some p) : i = j :=
    (List.getElem?_inj (List.getElem?_eq_some_iff.1 hi).1 hp).1 (hi.trans hj.symm)
  constructor
  · rintro p p' q ⟨i, hi, hi'⟩ ⟨j, hj, hj'⟩
    obtain rfl := hindex hq hi' hj'
    exact Option.some.inj (hi.symm.trans hj)
  · rintro p q q' ⟨i, hi, hi'⟩ ⟨j, hj, hj'⟩
    obtain rfl := hindex hp hi hj
    exact Option.some.inj (hi'.symm.trans hj')

/-- No point comes twice where each comes after the one before it. -/
theorem nodup_of_isChain {ps : List Point} (h : ps.IsChain fun p q => p.offset < q.offset) :
    ps.Nodup := by
  have : IsTrans Point fun p q => p.offset < q.offset := ⟨fun _ _ _ => Nat.lt_trans⟩
  refine (List.isChain_iff_pairwise.1 h).imp fun {p q} hlt heq => ?_
  rw [heq] at hlt
  exact Nat.lt_irrefl _ hlt

end Point

namespace Token

/-- Tokens that are not empty, each of them before the next one. -/
structure Ascending (tokens : List Token) : Prop where
  isChain : tokens.IsChain Before
  nonempty : ∀ token ∈ tokens, token.span.start.offset < token.span.stop.offset

/-- Where some tokens start, and where the last one ends. -/
def startPoints (tokens : List Token) : List Point :=
  tokens.map (·.span.start) ++ [(Tape.ofTokens tokens).finish]

/-- The start of a text, and where some tokens end. -/
def stopPoints (tokens : List Token) : List Point :=
  Point.zero :: tokens.map (·.span.stop)

variable {tokens : List Token}

/-- A token starts at its place. -/
theorem getElem?_startPoints {i : Nat} (hi : i < tokens.length) :
    (startPoints tokens)[i]? = some tokens[i].span.start := by
  simp [startPoints, List.getElem?_append_left, hi]

/-- A token ends at its place. -/
theorem getElem?_stopPoints {i : Nat} (hi : i < tokens.length) :
    (stopPoints tokens)[i + 1]? = some tokens[i].span.stop := by
  simp [stopPoints, hi]

/-- Behind the starts of all tokens comes the end of the last one. -/
theorem getElem?_startPoints_length (tokens : List Token) :
    (startPoints tokens)[tokens.length]? = some (Tape.ofTokens tokens).finish := by
  simp [startPoints]

/-- The last one of the ends is the end of the last token. -/
theorem getElem?_stopPoints_length (tokens : List Token) :
    (stopPoints tokens)[tokens.length]? = some (Tape.ofTokens tokens).finish := by
  have hlast := List.getLast?_eq_getElem? (l := stopPoints tokens)
  rw [stopPoints, List.getLast?_cons, List.getLast?_map] at hlast
  have hlength : (Point.zero :: tokens.map (·.span.stop)).length - 1 = tokens.length := by simp
  rw [hlength] at hlast
  rw [stopPoints, ← hlast, Tape.ofTokens]
  cases tokens.getLast? <;> rfl

/-- The tokens of a text are laid out in it. -/
theorem exists_layout_tokenize (text : String) :
    ∃ covered rest, text.toList = covered ++ rest ∧ Layout covered (tokenize text) := by
  obtain ⟨more, last, after, hgives, hlast⟩ :=
    Lexer.Gives.exists_last (.nil (l := Lexer.ofText reference text))
  have hall : [] ++ more = tokenize text := by
    have happend := hgives.append_tokens
    rwa [(Lexer.tokens_of_next_none hlast).1, List.append_nil] at happend
  obtain ⟨covered, htext, -, hlayout⟩ := hgives.exists_layout
  rw [hall] at hlayout
  exact ⟨covered, last.cursor.rest, htext, hlayout⟩

/-- The tokens of a text stand in it. -/
theorem standsIn_of_mem_tokenize {text : String} {token : Token} (h : token ∈ tokenize text) :
    token.StandsIn text := by
  obtain ⟨covered, rest, htext, hlayout⟩ := exists_layout_tokenize text
  have hstands := hlayout.standsIn rest token h
  rwa [← htext, String.ofList_toList] at hstands

/-- The tokens of a text come one after the other. -/
theorem ascending_tokenize (text : String) : Ascending (tokenize text) := by
  obtain ⟨covered, rest, -, hlayout⟩ := exists_layout_tokenize text
  exact ⟨hlayout.isChain, fun token htoken => (standsIn_of_mem_tokenize htoken).nonempty⟩

namespace Ascending

/-- The tokens behind the first one. -/
theorem tail {token : Token} (h : Ascending (token :: tokens)) : Ascending tokens :=
  ⟨h.isChain.tail, fun other hother => h.nonempty other (List.mem_cons_of_mem _ hother)⟩

/-- The tokens start one after the other. -/
theorem nodup_startPoints (h : Ascending tokens) : (startPoints tokens).Nodup := by
  refine Point.nodup_of_isChain ?_
  unfold startPoints
  induction tokens with
  | nil => exact .singleton _
  | cons token tokens ih =>
    have hnext := ih h.tail
    have hlt := h.nonempty token List.mem_cons_self
    cases tokens with
    | nil => exact .cons_cons hlt (.singleton _)
    | cons other tokens =>
      have hbefore : token.Before other := (List.isChain_cons_cons.1 h.isChain).1
      exact .cons_cons (Nat.lt_of_lt_of_le hlt hbefore.1) hnext

/-- The tokens end one after the other. -/
theorem nodup_stopPoints (h : Ascending tokens) : (stopPoints tokens).Nodup := by
  refine Point.nodup_of_isChain ?_
  have hall (p : Point) (hp : ∀ token ∈ tokens.head?, p.offset ≤ token.span.start.offset) :
      (p :: tokens.map (·.span.stop)).IsChain fun p q => p.offset < q.offset := by
    induction tokens generalizing p with
    | nil => exact .singleton _
    | cons token tokens ih =>
      have hlt := h.nonempty token List.mem_cons_self
      refine .cons_cons (Nat.lt_of_le_of_lt (hp token rfl) hlt) (ih h.tail _ ?_)
      intro other hother
      cases tokens with
      | nil => cases hother
      | cons next tokens =>
        cases hother
        exact (List.isChain_cons_cons.1 h.isChain).1.1
  exact hall Point.zero fun _ _ => Nat.zero_le _

end Ascending

end Token

/-! ## Texts of the same words -/

/-- Points that belong to the same token of two sequences, or to the start or the end of both. -/
def Alignment.ofTokens {tokens tokens' : List Token} (h : Token.Ascending tokens)
    (h' : Token.Ascending tokens') : Alignment where
  starts := Point.Beside (Token.startPoints tokens) (Token.startPoints tokens')
  stops := Point.Beside (Token.stopPoints tokens) (Token.stopPoints tokens')
  biUnique_starts := Point.biUnique_beside h.nodup_startPoints h'.nodup_startPoints
  biUnique_stops := Point.biUnique_beside h.nodup_stopPoints h'.nodup_stopPoints

/-- Tapes of tokens of the same kinds and texts. -/
theorem Tape.alike_ofTokens {tokens tokens' : List Token} (h : Token.Ascending tokens)
    (h' : Token.Ascending tokens')
    (hsame : tokens'.map (fun token => (token.kind, token.text)) =
      tokens.map fun token => (token.kind, token.text)) :
    (Tape.ofTokens tokens).Alike (.ofTokens h h') (Tape.ofTokens tokens') := by
  have hlength : tokens'.length = tokens.length := by simpa using congrArg List.length hsame
  refine ⟨.nil, ?_, ?_⟩
  · refine List.forall₂_iff_get.2 ⟨hlength.symm, fun i hi hi' => ?_⟩
    have hword : (tokens'[i].kind, tokens'[i].text) = (tokens[i].kind, tokens[i].text) := by
      have hget := List.getElem_of_eq hsame (i := i) (by rwa [List.length_map])
      rwa [List.getElem_map, List.getElem_map] at hget
    obtain ⟨hkind, htext⟩ := Prod.mk.inj hword
    refine ⟨hkind, htext, ⟨i, ?_, ?_⟩, ⟨i + 1, ?_, ?_⟩⟩
    · exact Token.getElem?_startPoints hi
    · exact Token.getElem?_startPoints hi'
    · exact Token.getElem?_stopPoints hi
    · exact Token.getElem?_stopPoints hi'
  · refine ⟨⟨tokens.length, ?_, ?_⟩, ⟨tokens.length, ?_, ?_⟩⟩
    · exact Token.getElem?_startPoints_length tokens
    · exact hlength ▸ Token.getElem?_startPoints_length tokens'
    · exact Token.getElem?_stopPoints_length tokens
    · exact hlength ▸ Token.getElem?_stopPoints_length tokens'

/-- The start of the parse of a text, and of another one of the same words. -/
theorem ParserState.alike_ofText {text text' : String}
    (hsame : (tokenize text').map (fun token => (token.kind, token.text)) =
      (tokenize text).map fun token => (token.kind, token.text))
    (description description' : String) (o : ParseOptions) :
    (ofText text description o).Alike
      (.ofTokens (Token.ascending_tokenize text) (Token.ascending_tokenize text'))
      (ofText text' description' o) where
  tape := Tape.alike_ofTokens _ _ hsame
  arena := .empty
  orderly := .empty
  report := .nil
  scopes := rfl
  options := rfl

/-! ## Entries -/

namespace Parser

variable {l : Alignment} {s s' : ParserState}

/-- Runs that end with the same node, or stop with diagnostics that correspond. -/
inductive EndsAlike (l : Alignment) :
    EStateM.Result Stop ParserState NodeId → EStateM.Result Stop ParserState NodeId → Prop
  | ok {id : NodeId} {t t' : ParserState} (ht : t.Alike l t') : EndsAlike l (.ok id t) (.ok id t')
  | failed {d d' : Diagnostic} {t t' : ParserState} (ht : t.Alike l t') (hd : d.Alike l d') :
    EndsAlike l (.error (.failed d) t) (.error (.failed d') t')
  | fault (f f' : Fault) (t t' : ParserState) :
    EndsAlike l (.error (.fault f) t) (.error (.fault f') t')

/-- Runs that end in the same way end with the same node. -/
theorem Agree.endsAlike {x x' : EStateM.Result Stop ParserState NodeId} (h : Agree l s x x') :
    EndsAlike l x x' := by
  cases h with
  | ok _ ht ha =>
    cases Placeless.eq_of_alike ha
    exact .ok ht
  | failed _ ht hd => exact .failed ht hd.1
  | fault => exact .fault ..

/-- The end of the source, behind which there is nothing to consume. -/
theorem expectEnd_of_endOfFile (h : s.tape.peek.kind = .endOfFile) :
    expectEnd s = .ok () s.advanced := by
  unfold expectEnd
  refine bind_eq_of_eq_ok (a := s.tape.peek) (t := s.advanced) ?_
  exact expect_of_accepts (by rw [h]; rfl)

/-- A token that is not the end of the source is an error there. -/
theorem expectEnd_of_ne_endOfFile (h : s.tape.peek.kind ≠ .endOfFile) :
    expectEnd s =
      .error (.failed (unexpectedAt s (Expectation.kind .endOfFile).describe)) s := by
  unfold expectEnd
  refine bind_eq_of_eq_error ?_
  exact expect_of_not_accepts (by simpa using Ne.symm h)

/-- What has to span the whole source. -/
theorem EndsAlike.toEnd {p p' : Parser NodeId} (h : EndsAlike l (p s) (p' s')) :
    EndsAlike l ((do let root ← p; expectEnd; return root) s)
      ((do let root ← p'; expectEnd; return root) s') := by
  generalize hx : p s = x at h
  generalize hx' : p' s' = x' at h
  cases h with
  | @ok id t t' ht =>
    rw [bind_eq_of_eq_ok hx, bind_eq_of_eq_ok hx']
    have hkind : t'.tape.peek.kind = t.tape.peek.kind := ht.tape.peek.kind
    by_cases hend : t.tape.peek.kind = .endOfFile
    · rw [bind_eq_of_eq_ok (expectEnd_of_endOfFile hend),
        bind_eq_of_eq_ok (expectEnd_of_endOfFile (hkind.trans hend))]
      exact .ok ht.advanced
    · rw [bind_eq_of_eq_error (expectEnd_of_ne_endOfFile hend),
        bind_eq_of_eq_error (expectEnd_of_ne_endOfFile (hkind ▸ hend))]
      refine .failed ht ⟨?_, ht.tape.peek.span⟩
      exact congrArg (Severity.error, Topic.grammar, ·)
        (Follows.message_unexpected ht.tape.peek _)
  | failed ht hd =>
    rw [bind_eq_of_eq_error hx, bind_eq_of_eq_error hx']
    exact .failed ht hd
  | fault =>
    rw [bind_eq_of_eq_error hx, bind_eq_of_eq_error hx']
    exact .fault ..

/-- The rule for an entry does the same in both layouts. -/
theorem entry_endsAlike (e : Entry) (hs : s.Alike l s') :
    EndsAlike l (entry e s) (entry e s') := by
  have hn : 0 ≤ s.arena.size := Nat.zero_le _
  cases e with
  | unit => exact (Follows.compilationUnit s s' hs hn).endsAlike
  | expression => exact .toEnd (Follows.expression .lowest s s' hs hn).endsAlike
  | statement => exact .toEnd (Follows.statement s s' hs hn).endsAlike

/-- A parse with errors hands back what is reported. -/
theorem finish_of_hasErrors {t : ParserState} {id : NodeId} (h : t.report.hasErrors = true) :
    finish t (.ok id) = .error t.report := if_pos h

/-- A parse without errors hands back its tree. -/
theorem finish_of_not_hasErrors {t : ParserState} {id : NodeId} (h : t.report.hasErrors = false) :
    finish t (.ok id) = .ok ⟨t.arena, id, t.report⟩ := if_neg (Bool.eq_false_iff.1 h)

end Parser

/-! ## Parses -/

section

variable {e : Entry} {o : ParseOptions} {description text : String} {t : ParserState}

/-- The answer for a text whose parse ends with a node. -/
theorem parseText_of_ok {id : NodeId}
    (h : Parser.entry e (.ofText text description o) = .ok id t) :
    parseText e o description text = .ok (Parser.finish t (.ok id)) :=
  parseText_of_run (Parser.run_eq_ok_ok.2 h)

/-- The answer for a text whose parse stops with a diagnostic. -/
theorem parseText_of_failed {d : Diagnostic}
    (h : Parser.entry e (.ofText text description o) = .error (.failed d) t) :
    parseText e o description text = .ok (.error (Parser.recordIn t.report d)) :=
  parseText_of_run (Parser.run_eq_ok_error.2 h)

end

/-- Nodes of the same forms stand for the same trees. -/
theorem Arena.Alike.denotes {l : Alignment} {a b : Arena} (h : a.Alike l b) {id : NodeId}
    {tree : Tree} (hid : a.Denotes id tree) : b.Denotes id tree :=
  hid.mono fun other _ hform => (h.form? other).trans hform

/-- Texts with the same words in the same order parse alike from every entry and under all options,
wherever the words stand: into trees that are equivalent, with the same warnings, or with the same
diagnostics. -/
theorem parseText_layout (e : Entry) (o : ParseOptions) {text text' : String}
    (description description' : String)
    (hsame : (tokenize text').map (fun token => (token.kind, token.text)) =
      (tokenize text).map fun token => (token.kind, token.text)) :
    (∃ p p', parseText e o description text = .ok (.ok p) ∧
      parseText e o description' text' = .ok (.ok p') ∧
      p.arena.equivalent p.root p'.arena p'.root = true ∧
      p'.warnings.records.map Diagnostic.outline = p.warnings.records.map Diagnostic.outline) ∨
    ∃ r r', parseText e o description text = .ok (.error r) ∧
      parseText e o description' text' = .ok (.error r') ∧
      r'.records.map Diagnostic.outline = r.records.map Diagnostic.outline := by
  have hs := ParserState.alike_ofText hsame description description' o
  have hends := Parser.entry_endsAlike e hs
  have hsim := Parser.entry_simulates e
    (show (ParserState.ofText text description o).Valid from ParserState.valid_ofText)
  generalize hx : Parser.entry e (.ofText text description o) = x at hends
  generalize hx' : Parser.entry e (.ofText text' description' o) = x' at hends
  cases hends with
  | @ok id t t' ht =>
    have hparse := parseText_of_ok hx
    have hparse' := parseText_of_ok hx'
    rw [hparse, hparse']
    cases herrors : t.report.hasErrors with
    | false =>
      have herrors' : t'.report.hasErrors = false := ht.report.hasErrors.trans herrors
      obtain ⟨-, tree, hbuilt, -⟩ := Parser.Ensures.of_eq_ok hsim hx
      have hdenotes := hbuilt.kept.denotes
      rw [Parser.finish_of_not_hasErrors herrors, Parser.finish_of_not_hasErrors herrors']
      refine .inl ⟨_, _, rfl, rfl, ?_, ht.report.outline⟩
      exact (hdenotes.equivalent_iff (ht.arena.denotes hdenotes)).2 hbuilt.written.agrees_self
    | true =>
      have herrors' : t'.report.hasErrors = true := ht.report.hasErrors.trans herrors
      rw [Parser.finish_of_hasErrors herrors, Parser.finish_of_hasErrors herrors']
      exact .inr ⟨_, _, rfl, rfl, ht.report.outline⟩
  | @failed d d' t t' ht hd =>
    have houtline := (ht.report.recordIn hd).outline
    exact .inr ⟨_, _, parseText_of_failed hx, parseText_of_failed hx', houtline⟩
  | fault f f' t t' => exact absurd hx (Parser.Ensures.ne_fault hsim f)

/-- A sum with and without a line break in it. -/
theorem parseText_layout_sum :
    (tokenize "x\n + 1").map (fun token => (token.kind, token.text)) =
      (tokenize "x+1").map (fun token => (token.kind, token.text)) ∧
    ∃ p p', parseText .expression {} "" "x+1" = .ok (.ok p) ∧
      parseText .expression {} "" "x\n + 1" = .ok (.ok p') ∧
      p.arena.equivalent p.root p'.arena p'.root = true ∧
      p'.warnings.records.map Diagnostic.outline = p.warnings.records.map Diagnostic.outline := by
  have hsame : (tokenize "x\n + 1").map (fun token => (token.kind, token.text)) =
      (tokenize "x+1").map (fun token => (token.kind, token.text)) := by decide +kernel
  have hsome : (parsed? .expression "x+1").isSome = true := by decide +kernel
  obtain ⟨q, hq⟩ := Option.isSome_iff_exists.1 hsome
  refine ⟨hsame, ?_⟩
  rcases parseText_layout .expression {} "" "" hsame with h | ⟨r, r', hr, -⟩
  · exact h
  · rw [parseText_of_parsed? hq] at hr
    cases hr

end ExprLang
