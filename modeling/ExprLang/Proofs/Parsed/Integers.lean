import ExprLang.Proofs.Parsed.Strings
import ExprLang.Proofs.Parser.Options
import ExprLang.Proofs.Reader.Operators
import ExprLang.Proofs.Token.Integers

/-!
# Integers in expressions

An integer alone is an expression, with a minus sign or without one, exactly if its
type holds the value that is written.  A minus sign before an integer belongs to it,
so the least value of a type can be written.  Where a member or a call binds the
integer first, the minus sign negates what comes of that, and the integer has to be
a value of its type without the sign.

Main definitions:

- Definition {lit}`Link`: what may follow an expression and binds it.
- Definition {lit}`HasSyntaxError`: sources that are refused.

Main results:

- Theorem {lit}`parseText_signed`: sources of an integer alone.
- Theorem {lit}`parseText_negated`: sources of a negated integer that something else
  binds first.
- Theorem {lit}`parseText_integer`: sources of integers.
-/

namespace ExprLang

open Reference Literal

/-! ## Words -/

/-- An integer is read as a whole. -/
theorem Lexes.integer {d : String} (h : IsGrouped d.toList) (type : IntegerType) :
    Lexes (d ++ type.suffix).toList [⟨type.kind, d ++ type.suffix⟩] := by
  intro stack rest hs hrest
  obtain ⟨hint, hlong⟩ := words_grouped hs h hrest
  cases type with
  | int => simpa [IntegerType.suffix, IntegerType.kind] using hint
  | long => simpa [IntegerType.suffix, IntegerType.kind, String.ofList_append] using hlong

/-- A minus sign before an integer. -/
theorem Lexes.minus {ds cs : List Char} {ws : List Word} (h : Lexes (ds ++ cs) ws)
    (hd : IsGrouped ds) : Lexes ('-' :: (ds ++ cs)) (.mark .minus :: ws) := by
  have hminus : IsMark "-" .minus := by decide
  obtain ⟨c, run, rfl, hc, -⟩ := hd
  exact h.operator hminus fun rest =>
    plain_of_wordRest (wordRest_of_digit (contains_of_isDigit hc)) _

/-- A link after an expression: the access to a member, or a call without arguments. -/
inductive Link where
  | member (name : String)
  | call
deriving DecidableEq, Repr

namespace Link

/-- The text of a link. -/
def text : Link → String
  | member name => "." ++ name
  | call => "()"

/-- The words of a link. -/
def words : Link → List Word
  | member name => [.mark .dot, Word.ofText name]
  | call => [.mark .leftParen, .mark .rightParen]

/-- What a link makes of the tree before it. -/
def apply (tree : Tree) : Link → Tree
  | member name => .memberAccess tree name
  | call => .anonymousInvocation tree []

/-- Whether the member that a link is about has a name. -/
def Proper : Link → Prop
  | member name => IsName name
  | call => True

/-- What stands before a link goes on with neither a word nor a number. -/
theorem boundary_text {link : Link} (h : link.Proper) (rest : List Char) :
    boundary (link.text.toList ++ rest) = true := by
  cases link with
  | member name =>
    rw [text, String.toList_append]
    exact Lexes.boundary_dot (IsName.isWord h) rest
  | call => rfl

/-- A link is read as its words. -/
theorem lexes {link : Link} (h : link.Proper) :
    Lexes link.text.toList link.words := by
  cases link with
  | member name =>
    rw [text, String.toList_append]
    exact Lexes.dot (IsName.isWord h)
  | call => exact Lexes.grouped .nil

/-- One link after the other is read. -/
theorem lexes_join {links : List Link} (h : ∀ link ∈ links, link.Proper) :
    Lexes (String.join (links.map text)).toList (links.flatMap words) ∧
      ∀ rest, boundary rest = true →
        boundary ((String.join (links.map text)).toList ++ rest) = true := by
  induction links with
  | nil => exact ⟨.nil, fun _ hrest => hrest⟩
  | cons link links ih =>
    obtain ⟨hfirst, hothers⟩ := List.forall_mem_cons.1 h
    obtain ⟨hlexes, hboundary⟩ := ih hothers
    simp only [List.map_cons, String.join_cons, String.toList_append, List.flatMap_cons,
      List.append_assoc]
    exact ⟨(lexes hfirst).append hlexes hboundary, fun rest _ => boundary_text hfirst _⟩

/-- Links begin with a dot or a parenthesis. -/
theorem exists_first {links : List Link} (h : links ≠ []) :
    ∃ w ws, links.flatMap words = w :: ws ∧ (w.kind = .dot ∨ w.kind = .leftParen) := by
  obtain ⟨link, links, rfl⟩ := List.exists_cons_of_ne_nil h
  cases link with
  | member name => exact ⟨_, _, rfl, .inl rfl⟩
  | call => exact ⟨_, _, rfl, .inr rfl⟩

end Link

/-! ## Negated integers, read -/

namespace Reader

variable {E : ExpressionReader} {min : Precedence} {type : IntegerType} {text : String}
  {value : Literal} {tree : Tree} {ws : List Word} {p : Prop} {links : List Link}

/-- An integer at the head of an expression. -/
theorem heads_integer (h : ofToken type.kind text = .ok (.ok value)) :
    Heads p E min false [⟨type.kind, text⟩] (.literal value) :=
  heads_of_start (show StartRule.ofKind? type.kind = some .literal by cases type <;> rfl)
    fun _ _ => reads_literal h

/-- A link at the head of an expression. -/
theorem Heads.link (h : Heads p E min false ws tree) (hmin : min ≠ .postfixCall) {link : Link}
    (hl : link.Proper) (ht : ∀ name, tree ≠ .reference name) :
    Heads p E min false (ws ++ link.words) (link.apply tree) := by
  cases link with
  | member name => exact heads_member h hmin hl
  | call =>
    have hcall : tree.call [] = .anonymousInvocation tree [] := by
      cases tree <;> first
        | rfl
        | exact absurd rfl (ht _)
    refine h.extend (continuation?_leftParen hmin) fun rest _ => ?_
    have hread : Reads p (invocation E tree) (.mark .rightParen :: rest) (tree.call []) rest :=
      reads_invocation rfl
    rwa [hcall] at hread

/-- Links at the head of an expression. -/
theorem Heads.chain (h : Heads p E min false ws tree) (hmin : min ≠ .postfixCall)
    (hl : ∀ link ∈ links, link.Proper) (ht : ∀ name, tree ≠ .reference name) :
    Heads p E min false (ws ++ links.flatMap Link.words) (links.foldl Link.apply tree) := by
  induction links generalizing ws tree with
  | nil => rwa [List.flatMap_nil, List.append_nil]
  | cons link links ih =>
    obtain ⟨hfirst, hothers⟩ := List.forall_mem_cons.1 hl
    have hnext := ih (h.link hmin hfirst ht) hothers fun name => by cases link <;> exact nofun
    rwa [List.append_assoc] at hnext

/-- A minus sign before an integer with links after it negates what the links make of the
integer. -/
theorem reads_negated (hne : links ≠ []) (hl : ∀ link ∈ links, link.Proper)
    (h : ofToken type.kind text = .ok (.ok value)) :
    Reads p (expression .lowest)
      (.mark .minus :: ⟨type.kind, text⟩ :: links.flatMap Link.words)
      (.unary .negate (links.foldl Link.apply (.literal value))) [] := by
  refine .bind_bound fun n hn => ?_
  obtain ⟨n, rfl⟩ : ∃ m, n = m + 2 := by
    rw [List.length_cons, List.length_cons] at hn
    exact ⟨n - 2, by omega⟩
  have hoperand : Heads p (expressionWithin n) .unary false
      (⟨type.kind, text⟩ :: links.flatMap Link.words) (links.foldl Link.apply (.literal value)) :=
    (heads_integer h).chain (by decide) hl fun _ => nofun
  have hheads : Heads p (expressionWithin (n + 1)) .lowest true
      (.mark .minus :: ⟨type.kind, text⟩ :: links.flatMap Link.words)
      (.unary .negate (links.foldl Link.apply (.literal value))) := by
    refine heads_of_start (show StartRule.ofKind? .minus = some .unary from rfl) fun rest hs => ?_
    refine .bind reads_negativeNumberFollows ?_
    -- the word behind the integer keeps the sign from it
    obtain ⟨w, ws, hlinks, hw⟩ := Link.exists_first hne
    have hnext : (nextKind (links.flatMap Link.words ++ rest) == .dot ||
        nextKind (links.flatMap Link.words ++ rest) == .leftParen) = true := by
      rw [hlinks, List.cons_append, nextKind_cons]
      rcases hw with hw | hw <;> rw [hw] <;> rfl
    rw [List.cons_append, List.tail_cons, hnext, Bool.not_true, Bool.and_false]
    exact .bind (hoperand.reads ⟨(hs rfl).1, nofun⟩) (.pure _)
  have hread := hheads.reads (show Stops true (nextKind []) from ⟨rfl, fun _ => by decide⟩)
  rwa [List.append_nil] at hread

end Reader

/-! ## Parses of integers -/

/-- The start of a parse of some tokens. -/
def ParserState.ofTokens (tokens : List Token) (description : String) (options : ParseOptions) :
    ParserState where
  tape := .ofTokens tokens
  arena := .empty
  report := .empty description
  scopes := []
  options := options

namespace Parser

variable {s t : ParserState} {rule : StartRule} {token : Token} {tokens : List Token}
  {stop : Stop} {type : IntegerType} {text : String} {value : Literal} {error : LiteralError}

/-- An expression of which the beginning stops. -/
theorem expressionRule_of_start_error {E : ExpressionRule} {min : Precedence}
    (hs : s.tape.pending = token :: tokens) (hrule : StartRule.ofKind? token.kind = some rule)
    (h : startRule E token rule s.advanced = .error stop t) :
    expressionRule E min s = .error stop t :=
  (expressionRule_eq hs hrule).trans (bind_eq_of_eq_error h)

/-- Where the beginning of an expression stops there is no expression. -/
theorem entry_expression_of_start_error (hs : s.tape.pending = token :: tokens)
    (hrule : StartRule.ofKind? token.kind = some rule)
    (h : startRule (expressionWithin s.tape.pending.length) token rule s.advanced =
      .error stop t) : Parser.entry .expression s = .error stop t :=
  bind_eq_of_eq_error (p := expression .lowest) (expressionRule_of_start_error hs hrule h)

/-- A number that is a literal. -/
theorem literalRule_of_ok {kind : TokenKind} (h : ofToken kind text = .ok (.ok value))
    (span : Span) : literalRule kind text span s = make (.literal value) span s := by
  unfold literalRule
  rw [h]
  rfl

/-- A number that is none. -/
theorem literalRule_of_error {kind : TokenKind} (h : ofToken kind text = .ok (.error error))
    (span : Span) : literalRule kind text span s = .error (.failed
      ⟨s.report.source, .error, .grammar, span, (Complaint.badLiteral error).message⟩) s := by
  unfold literalRule
  rw [h]
  rfl

/-- An expression stops with an error of grammar, and nothing else is reported. -/
def Refuses (s : ParserState) : Prop :=
  ∃ d t, Parser.entry .expression s = .error (.failed d) t ∧ d.severity = .error ∧
    d.topic = .grammar ∧ t.report = .empty d.source

/-! ### Integers alone -/

/-- A minus sign, or no word. -/
def signWords (negative : Bool) : List Word := if negative then [.mark .minus] else []

/-- An integer alone is converted with the minus sign before it, if there is one. -/
theorem exists_startRule_signed {negative : Bool}
    (h : tokens.map Token.word = signWords negative ++ [⟨type.kind, text⟩]) (description : String)
    (options : ParseOptions) : ∃ token others rule span s, tokens = token :: others ∧
      StartRule.ofKind? token.kind = some rule ∧
      (∀ E, startRule E token rule (ParserState.ofTokens tokens description options).advanced =
        literalRule type.kind (sign negative ++ text) span s) ∧
      s.tape.peek.kind = .endOfFile ∧ s.arena = .empty ∧ s.report = .empty description := by
  cases negative with
  | false =>
    obtain ⟨⟨kind, text, span⟩, rfl, hnumber⟩ := List.map_eq_singleton_iff.1 h
    cases hnumber
    have hkind : StartRule.ofKind? type.kind = some .literal := by cases type <;> rfl
    have htext : sign false ++ text = text := String.empty_append
    rw [htext]
    exact ⟨_, [], .literal, span, _, rfl, hkind, fun _ => rfl, rfl, rfl, rfl⟩
  | true =>
    obtain ⟨⟨kind, minus, a⟩, tokens, rfl, hminus, hnumber⟩ := List.map_eq_cons_iff.1 h
    obtain ⟨⟨kind, text, b⟩, rfl, hnumber⟩ := List.map_eq_singleton_iff.1 hnumber
    cases hminus
    cases hnumber
    cases type <;> exact ⟨_, _, .unary, a.through b, _, rfl, rfl, fun _ => rfl, rfl, rfl, rfl⟩

/-- An integer alone that its type holds is a single node. -/
theorem entry_signed {negative : Bool}
    (htokens : tokens.map Token.word = signWords negative ++ [⟨type.kind, text⟩])
    (description : String) (options : ParseOptions)
    (h : ofToken type.kind (sign negative ++ text) = .ok (.ok value)) : ∃ span t,
      Parser.entry .expression (.ofTokens tokens description options) = .ok ⟨0⟩ t ∧
        t.arena = .single (.literal value) span ∧ t.report = .empty description := by
  obtain ⟨token, others, rule, span, s, hs, hrule, hstart, hend, harena, hreport⟩ :=
    exists_startRule_signed htokens description options
  have hmake := (literalRule_of_ok h span).trans (make_literal value span harena)
  refine ⟨span, _, entry_expression_of_start hs hrule ((hstart _).trans hmake) hend, rfl, hreport⟩

/-- An integer alone that its type does not hold is an error. -/
theorem entry_signed_error {negative : Bool}
    (htokens : tokens.map Token.word = signWords negative ++ [⟨type.kind, text⟩])
    (description : String) (options : ParseOptions)
    (h : ofToken type.kind (sign negative ++ text) = .ok (.error error)) :
    Refuses (.ofTokens tokens description options) := by
  obtain ⟨token, others, rule, span, s, hs, hrule, hstart, -, -, hreport⟩ :=
    exists_startRule_signed htokens description options
  have hstop := entry_expression_of_start_error hs hrule
    ((hstart _).trans (literalRule_of_error h span))
  refine ⟨_, s, hstop, rfl, rfl, ?_⟩
  show s.report = .empty s.report.source
  rw [hreport]
  rfl

/-! ### Negated integers -/

/-- A minus sign before an integer with something after it that binds the integer first has an
operand. -/
theorem startRule_negated {E : ExpressionRule} {minus number w : Token}
    (hs : s.tape.pending = number :: w :: tokens) (hminus : minus.kind = .minus)
    (hnumber : number.kind = type.kind) (hw : w.kind = .dot ∨ w.kind = .leftParen) :
    startRule E minus .unary s = (do
      let operand ← E .unary
      make (.unary .negate (some operand)) (minus.span.through (← spanOf operand))) s := by
  obtain ⟨⟨consumed, pending, finish⟩, arena, report, scopes, options⟩ := s
  obtain ⟨kind, text, span⟩ := minus
  obtain ⟨kind, text, span⟩ := number
  obtain ⟨kind, text, span⟩ := w
  cases hs
  cases hminus
  cases hnumber
  rcases hw with rfl | rfl <;> cases type <;> rfl

/-- A negated integer that its type does not hold is an error. -/
theorem entry_negated_error {w : Word} {ws : List Word} (hw : w.kind = .dot ∨ w.kind = .leftParen)
    (htokens : tokens.map Token.word = .mark .minus :: ⟨type.kind, text⟩ :: w :: ws)
    (description : String) (options : ParseOptions)
    (h : ofToken type.kind text = .ok (.error error)) :
    Refuses (.ofTokens tokens description options) := by
  obtain ⟨minus, tokens, rfl, hminus, htokens⟩ := List.map_eq_cons_iff.1 htokens
  obtain ⟨number, tokens, rfl, hnumber, htokens⟩ := List.map_eq_cons_iff.1 htokens
  obtain ⟨follower, tokens, rfl, rfl, htokens⟩ := List.map_eq_cons_iff.1 htokens
  let s := ParserState.ofTokens (minus :: number :: follower :: tokens) description options
  have hminus : minus.kind = .minus := congrArg Word.kind hminus
  have hkind : number.kind = type.kind := congrArg Word.kind hnumber
  have htext : number.text = text := congrArg Word.text hnumber
  rw [← hkind, ← htext] at h
  have hrule : StartRule.ofKind? number.kind = some .literal := by
    rw [hkind]
    cases type <;> rfl
  have hoperand : expressionWithin (tokens.length + 3) .unary s.advanced = .error _ _ :=
    expressionRule_of_start_error rfl hrule (literalRule_of_error h number.span)
  have hstart := (startRule_negated (s := s.advanced) rfl hminus hkind hw).trans
    (bind_eq_of_eq_error hoperand)
  have hstop := entry_expression_of_start_error (s := s) rfl (by rw [hminus]; rfl) hstart
  exact ⟨_, _, hstop, rfl, rfl, rfl⟩

end Parser

/-! ## Sources -/

section

variable {d : String} {links : List Link}

/-- The words of an integer with a minus sign before it, if there is one. -/
theorem sourceWords_signed (h : IsGrouped d.toList) (type : IntegerType) (negative : Bool) :
    sourceWords (sign negative ++ (d ++ type.suffix)).toList =
      Parser.signWords negative ++ [⟨type.kind, d ++ type.suffix⟩] := by
  have hlexes := Lexes.integer h type
  cases negative with
  | false =>
    rw [sign, if_neg Bool.false_ne_true, String.empty_append]
    exact hlexes.sourceWords_eq
  | true =>
    rw [String.toList_append] at hlexes
    rw [String.toList_append, String.toList_append]
    exact (hlexes.minus h).sourceWords_eq

/-- The words of an integer with a minus sign before it and links after it. -/
theorem sourceWords_negated (h : IsGrouped d.toList) (type : IntegerType)
    (hl : ∀ link ∈ links, link.Proper) :
    sourceWords ("-" ++ (d ++ type.suffix ++ String.join (links.map Link.text))).toList =
      .mark .minus :: ⟨type.kind, d ++ type.suffix⟩ :: links.flatMap Link.words := by
  obtain ⟨hlinks, hboundary⟩ := Link.lexes_join hl
  have hlexes := (Lexes.integer h type).append hlinks hboundary
  rw [String.toList_append, List.append_assoc] at hlexes
  rw [String.toList_append, String.toList_append, String.toList_append, List.append_assoc]
  exact (hlexes.minus h).sourceWords_eq

end

/-- A source is no expression: there is one error, which is one of grammar. -/
def HasSyntaxError (options : ParseOptions) (description text : String) : Prop :=
  ∃ d, parseText .expression options description text = .ok (.error (.single d)) ∧
    d.severity = .error ∧ d.topic = .grammar

/-- The error with which an expression stops is the only one. -/
theorem Parser.Refuses.hasSyntaxError {options : ParseOptions} {description text : String}
    (h : Refuses (.ofText text description options)) :
    HasSyntaxError options description text := by
  obtain ⟨d, t, hentry, hseverity, htopic, hreport⟩ := h
  refine ⟨d, ?_, hseverity, htopic⟩
  rw [parseText_of_failed hentry, hreport]
  rfl

/-- An integer alone, with a minus sign before it or without one, parses to a single literal
exactly if its type holds the value that is written. -/
theorem parseText_signed {d : String} (h : IsGrouped d.toList) (type : IntegerType)
    (negative : Bool) (options : ParseOptions) (description : String) :
    (type.Holds (signed negative (groupedValue d.toList)) → ∃ span,
      parseText .expression options description (sign negative ++ (d ++ type.suffix)) =
        .ok (.ok ⟨.single (.literal (type.literal (signed negative (groupedValue d.toList)))) span,
          ⟨0⟩, .empty description⟩)) ∧
      (¬ type.Holds (signed negative (groupedValue d.toList)) →
        HasSyntaxError options description (sign negative ++ (d ++ type.suffix))) := by
  obtain ⟨hholds, hexceeds⟩ := ofToken_integer h negative type
  have hwords := (map_word_tokenize _).trans (sourceWords_signed h type negative)
  refine ⟨fun hrange => ?_, fun hrange => ?_⟩
  · obtain ⟨span, t, hentry, harena, hreport⟩ :=
      Parser.entry_signed hwords description options (hholds hrange)
    have hno : t.report.hasErrors = false := by
      rw [hreport]
      rfl
    refine ⟨span, (parseText_of_ok hentry).trans ?_⟩
    rw [Parser.finish_of_not_hasErrors hno, harena, hreport]
  · obtain ⟨error, herror⟩ := hexceeds hrange
    have hrefuses := Parser.entry_signed_error hwords description options herror
    exact hrefuses.hasSyntaxError

/-- A minus sign before an integer with links after it negates what the links make of the integer,
exactly if its type holds the value without the sign. -/
theorem parseText_negated {d : String} (h : IsGrouped d.toList) (type : IntegerType)
    {links : List Link} (hne : links ≠ []) (hl : ∀ link ∈ links, link.Proper)
    (options : ParseOptions) (description : String) :
    (type.Holds (groupedValue d.toList) → ∃ p,
      parseText .expression options description
          ("-" ++ (d ++ type.suffix ++ String.join (links.map Link.text))) = .ok (.ok p) ∧
        p.arena.Denotes p.root (.unary .negate
          (links.foldl Link.apply (.literal (type.literal (groupedValue d.toList)))))) ∧
      (¬ type.Holds (groupedValue d.toList) → HasSyntaxError options description
        ("-" ++ (d ++ type.suffix ++ String.join (links.map Link.text)))) := by
  obtain ⟨hholds, hexceeds⟩ := ofToken_integer h false type
  rw [sign, if_neg Bool.false_ne_true, String.empty_append] at hholds hexceeds
  have hwords := sourceWords_negated h type hl
  refine ⟨fun hrange => ?_, fun hrange => ?_⟩
  · have hreads : Reader.Reads True (Reader.expression .lowest) _ _ [] :=
      Reader.reads_negated hne hl (hholds hrange)
    obtain ⟨clean, flag, hread, hclean⟩ := hreads false
    cases hclean trivial
    rw [← hwords] at hread
    have hentry : Reader.entry .expression (.start (sourceWords _)) = ⟨some _, true, ⟨[], flag⟩⟩ :=
      (Reader.bind_apply_of_some hread).trans rfl
    obtain ⟨p, hparse, hdenotes⟩ := parseText_of_read description hentry
    exact ⟨p, (parseText_eq_ok_iff options).2 hparse, hdenotes⟩
  · obtain ⟨error, herror⟩ := hexceeds hrange
    obtain ⟨w, ws, hlinks, hw⟩ := Link.exists_first hne
    rw [hlinks] at hwords
    have hrefuses := Parser.entry_negated_error hw ((map_word_tokenize _).trans hwords) description
      options herror
    exact hrefuses.hasSyntaxError

/-- An integer is exact.  Alone, with a minus sign before it or without one, it parses to a single
literal of the value that is written if its type holds that value, and is a syntax error otherwise.
With links after it, a minus sign negates what they make of the integer if its type holds the value
without the sign, and otherwise there is a syntax error too. -/
theorem parseText_integer {d : String} (h : IsGrouped d.toList) (type : IntegerType)
    (options : ParseOptions) (description : String) :
    (∀ negative, (type.Holds (signed negative (groupedValue d.toList)) → ∃ span,
        parseText .expression options description (sign negative ++ (d ++ type.suffix)) =
          .ok (.ok ⟨.single
            (.literal (type.literal (signed negative (groupedValue d.toList)))) span,
              ⟨0⟩, .empty description⟩)) ∧
      (¬ type.Holds (signed negative (groupedValue d.toList)) →
        HasSyntaxError options description (sign negative ++ (d ++ type.suffix)))) ∧
      ∀ links : List Link, links ≠ [] → (∀ link ∈ links, link.Proper) →
        (type.Holds (groupedValue d.toList) → ∃ p,
          parseText .expression options description
              ("-" ++ (d ++ type.suffix ++ String.join (links.map Link.text))) = .ok (.ok p) ∧
            p.arena.Denotes p.root (.unary .negate
              (links.foldl Link.apply (.literal (type.literal (groupedValue d.toList)))))) ∧
        (¬ type.Holds (groupedValue d.toList) → HasSyntaxError options description
          ("-" ++ (d ++ type.suffix ++ String.join (links.map Link.text)))) :=
  ⟨fun negative => parseText_signed h type negative options description,
    fun _ hne hl => parseText_negated h type hne hl options description⟩

/-- The least value of a type needs the sign. -/
theorem parseText_integer_least : HasSyntaxError {} "" "2147483648" ∧
    (∃ span, parseText .expression {} "" "-2147483648" =
      .ok (.ok ⟨.single (.literal (.int (-2147483648))) span, ⟨0⟩, .empty ""⟩)) ∧
    HasSyntaxError {} "" "-2147483648()" ∧
    ∃ p, parseText .expression {} "" "-2147483648L.e()" = .ok (.ok p) ∧
      p.arena.Denotes p.root (.unary .negate
        (.anonymousInvocation (.memberAccess (.literal (.long 2147483648)) "e") [])) := by
  have hdigits : "147483648".toList.all Decimal.isDigit = true := by decide
  have hgrouped : IsGrouped "2147483648".toList :=
    ⟨'2', _, rfl, rfl, fun c hc => .inl (List.all_eq_true.1 hdigits c hc)⟩
  have hvalue : groupedValue "2147483648".toList = 2147483648 := by rfl
  have hint := parseText_integer hgrouped .int {} ""
  have hlong := parseText_integer hgrouped .long {} ""
  rw [hvalue] at hint hlong
  obtain ⟨halone, hlinks⟩ := hint
  refine ⟨(halone false).2 (by decide), (halone true).1 (by decide), ?_, ?_⟩
  · exact (hlinks [.call] (by decide) (by simp [Link.Proper])).2 (by decide)
  · have hname : IsName "e" := ⟨by decide, rfl⟩
    exact (hlong.2 [.member "e", .call] (by decide) (by simp [Link.Proper, hname])).1 (by decide)

end ExprLang
