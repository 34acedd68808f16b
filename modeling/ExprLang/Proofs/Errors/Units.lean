import ExprLang.Proofs.Errors.Rules
import ExprLang.Proofs.Parser.Declarations

/-!
# Errors of units

The rules for imports and functions come to rest as those for expressions do, with their
nodes in hand; the error about the number of a function's arguments is about its name, and so
repeats none.  A unit ends with its node in hand alone: all nodes that were built hang on
that one, unless there is an error of grammar.

Main results:

- Theorem {lit}`Parser.reports_functionRule`: functions.
- Theorem {lit}`Parser.reports_compilationUnit`: units.
- Theorem {lit}`Parser.reports_entry`: whatever a source is parsed as.
-/

namespace ExprLang.Parser

open ParserState

variable {text : String} {base : Arena} {lo : Nat} {ids : List NodeId} {s : ParserState}
  {e : ExpressionRule}

/-! ## Imports -/

/-- The other name that an imported name is given, if any. -/
theorem reports_optionalRename {imported : Token} (h : Rests text base lo s ids) :
    Reports text base lo s (optionalRename imported s) fun _ t => Rests text base lo t ids := by
  unfold optionalRename
  refine .bind_skipKind h.settled (fun _ => ?_) fun _ => .pure h.settled h
  refine .bind_name h.advanced fun _ h => .ite (fun _ => ?_) fun _ => .pure h.settled h
  exact (Reports.warnAt h).bind fun _ t ht h => .pure ht.settled h

/-- An imported name. -/
theorem appends_importEntry : Appends text importEntry := by
  refine appends_of_alone fun s hs h => ?_
  unfold importEntry
  refine .bind_name (.nil hs h) fun _ hrests => ?_
  refine (reports_optionalRename hrests).bind fun rename t ht hrests => ?_
  exact reports_spanned hrests (.refl _) rfl nofun

/-- One more imported name, or the end of the names. -/
theorem reports_importStep (h : Rests text base lo s ids) :
    Reports text base lo s (importStep ids s) fun r t =>
      r.elim (Rests text base lo t) (Rests text base lo t) := by
  unfold importStep
  refine .bind_look rfl (.ite (fun _ => .pure h.settled h) fun _ => ?_)
  refine (appends_importEntry h).bind fun entry t ht hmore => ?_
  exact .bind_skipKind ht.settled (fun _ => .pure ht.settled.advanced hmore.advanced)
    fun _ => .pure ht.settled hmore

/-- The imported names in braces, if there are braces. -/
theorem reports_importEntries (h : Rests text base lo s []) :
    Reports text base lo s (importEntries s) fun entries t => Rests text base lo t entries := by
  unfold importEntries
  cases haccept : (Expectation.kind .leftBrace).accepts s.tape.peek.kind with
  | false => exact .bind_look (accept?_of_not_accepts haccept) (.pure h.settled h)
  | true =>
    rw [bind_eq_of_eq_ok (accept?_of_accepts haccept)]
    refine .after (.advanced h.settled) (.bind_look rfl ?_)
    have hloop : Reports text base lo s.advanced _ fun ids t => Rests text base lo t ids :=
      .loop (I := fun ids t => Rests text base lo t ids) (fun _ _ _ hids => reports_importStep hids)
        (s.advanced.tape.pending.length + 1) h.settled.advanced (a := []) h.advanced
    refine hloop.bind fun entries t ht hrests => .bind_expectKind hrests fun _ hrests => ?_
    refine .ite (fun _ => ?_) fun _ => .pure hrests.settled hrests
    exact (Reports.warnAt hrests).bind fun _ u hu hrests => .pure hu.settled hrests

/-- The path of an import.  Its string gives rise to nothing and need not be kept in hand. -/
theorem reports_importPath (he : ∀ min, Expresses text (e min)) (h : Rests text base lo s []) :
    Reports text base lo s (importPath e s) fun _ t => Rests text base lo t [] := by
  have halone : Reports text s.arena s.ahead s (importPath e s) fun _ t =>
      Rests text s.arena s.ahead t [] ∧ True := by
    unfold importPath
    have hspares : s.advanced.Spares s.ahead := h.clear.spares
    refine .bind_expectKind (.nil h.settled h.clear) fun hkind hrests => ?_
    have hlt := h.settled.ahead_lt (by rw [hkind]; decide)
    refine (reports_stringRule he hrests rfl hspares hlt).bind
      fun node t ht ⟨hrests, _, hspares, span, hposition, hstart⟩ => ?_
    have hstart : span.start.offset = s.ahead := congrArg (·.offset) hstart
    have hfails : Reports text s.arena s.ahead t
        ((do failAt (← spanOf node) .pathWithPlaceholder : Parser String) t) fun _ t =>
          Rests text s.arena s.ahead t [] ∧ True := by
      refine .bind_spanOf fun found hfound => ?_
      obtain rfl : found = some span := hfound.symm.trans hposition
      exact .failAt ht.settled hrests.clear (Nat.le_of_eq hstart.symm)
        (hstart ▸ Nat.lt_of_lt_of_le hlt ht.ahead_le) fun e he hsame => hspares e he
          (hsame ▸ hstart)
    refine .bind_formOf fun form hform => ?_
    cases form with
    | literal value =>
      cases value with
      | string path =>
        exact .pure ht.settled
          ⟨⟨hrests.settled, hrests.clear, hrests.carries.drop hform rfl⟩, trivial⟩
      | _ => exact hfails
    | _ => exact hfails
  have hbehind : Reports text base lo s (importPath e s) fun _ t =>
      Rests text base lo t ([] ++ []) ∧ True := .behind_rests halone h
  exact hbehind.mono fun _ _ _ hid => hid.1

/-- An import. -/
theorem reports_importRule (he : ∀ min, Expresses text (e min)) (hs : s.Settled text)
    (h : s.Near) (hkind : s.tape.peek.kind = .wordImport) :
    Reports text s.arena s.ahead s (importRule e s) fun id t =>
      Rests text s.arena s.ahead t [id] := by
  unfold importRule
  refine .bind_awaited hs (.inr ⟨h, by rw [hkind]; rfl⟩) (Nat.le_refl _) fun _ => ?_
  have hrests : Rests text s.arena s.ahead s.advanced [] := .start hs h (by rw [hkind]; decide)
  refine (reports_importPath he hrests).bind fun path t ht hrests => ?_
  refine (reports_importEntries hrests).bind fun entries u hu hrests => ?_
  have hchildren : (Form.importPath path entries).children.Perm entries :=
    .of_eq (by simp [Form.children, Form.childGroups, ChildGroup.children])
  have hmay : ¬(Form.importPath path entries).mayDefine = true := Bool.false_ne_true
  refine .bind_skipKind hu.settled (fun _ => ?_) fun _ => ?_
  · exact reports_spanned hrests.advanced hchildren rfl fun h => absurd h hmay
  · exact reports_spanned hrests hchildren rfl fun h => absurd h hmay

/-! ## Arguments -/

/-- A pattern for the value of the caller. -/
theorem appends_patternArgument (he : ∀ min, Expresses text (e min)) :
    Appends text (patternArgument e) := by
  refine appends_of_alone fun s hs h => ?_
  unfold patternArgument
  refine (he .lowest s hs (.inl h)).bind fun pattern t ht hpattern => .bind_spanOf fun _ _ => ?_
  exact (reports_nameless hpattern.1 (.refl _) rfl rfl).mono fun _ _ _ hid => hid.1

/-- A name with an optional type and default. -/
theorem appends_namedArgument (he : ∀ min, Expresses text (e min)) :
    Appends text (namedArgument e) := by
  refine appends_of_alone fun s hs h => ?_
  unfold namedArgument
  refine .bind_name (.nil hs h) fun hkind hrests => ?_
  have hlt := hs.ahead_lt hkind
  have hspares : s.advanced.Spares s.ahead := h.spares
  -- what follows the name adds errors behind it only
  refine .bind_rule (.refl s.arena) (Nat.le_of_lt hlt)
    (reports_optionalType (.nil hrests.settled hrests.clear)) fun type t ht hrests => ?_
  refine .bind_rule (.refl s.arena) (Nat.le_of_lt hlt)
    (reports_optionalExpression (he .assignment) .assign hrests) fun default? u hu hrests => ?_
  have hspares := (hspares.later ht hlt).later hu hlt
  have hreached : s.ahead < u.reached := Nat.lt_of_lt_of_le (hs.ahead_lt_reached hkind)
    (Nat.le_trans ht.reached_le hu.reached_le)
  refine reports_spanned (hrests.mono (Nat.le_of_lt hlt)) ?_ ?_ fun _ =>
    ⟨Nat.le_refl _, hreached, hspares.unmarked⟩
  · cases default? <;> exact .refl _
  · cases default? <;> rfl

/-- An argument of a function. -/
theorem appends_argument (he : ∀ min, Expresses text (e min)) : Appends text (argument e) := by
  intro base lo s ids h
  unfold argument
  refine .bind_look rfl (.ite (fun _ => ?_) fun _ => ?_)
  · exact appends_namedArgument he h
  · exact appends_patternArgument he h

/-! ## Functions -/

/-- The body of a function. -/
theorem reports_functionBody (he : ∀ min, Expresses text (e min)) (h : Rests text base lo s ids) :
    Reports text base lo s (functionBody e s) fun id t =>
      Rests text base lo t (ids ++ [id]) ∧ t.arena.definitionName id = none := by
  have halone : Reports text s.arena s.ahead s (functionBody e s)
      (Nameless text s.arena s.ahead) := by
    have hrests : Rests text s.arena s.ahead s [] := .nil h.settled h.clear
    unfold functionBody
    refine .bind_look (a := s.tape.peek) rfl ?_
    cases hk : s.tape.peek.kind
    case leftBrace => exact .bind_advance h.settled (reports_blockRule he hrests.advanced)
    case assign =>
      refine .bind_advance h.settled (((he .lowest).append hrests.advanced).bind
        fun body t ht ⟨hrests, hname⟩ => ?_)
      refine (reports_terminator hrests).bind fun _ u hu ⟨hrests, harena, _⟩ =>
        .pure hu.settled ⟨hrests, ?_⟩
      rw [harena]
      exact hname
    all_goals exact .fail_unexpected h.settled h.clear (Nat.le_refl _)
  exact .behind_rests halone h

/-- The arguments and the body of a function. -/
theorem reports_functionRest (he : ∀ min, Expresses text (e min)) (h : Rests text base lo s []) :
    Reports text base lo s (functionRest e s) fun parts t =>
      Rests text base lo t (parts.1 ++ [parts.2.2]) ∧
        t.arena.definitionName parts.2.2 = none := by
  unfold functionRest
  refine .bind_expectKind h fun _ hrests => ?_
  refine (reports_argumentList (appends_argument he) hrests).bind
    fun arguments t ht hrests => ?_
  refine (reports_optionalType hrests).bind fun type u hu hrests => ?_
  exact (reports_functionBody he hrests).bind fun body v hv hbody => .pure hv.settled hbody

section

variable {name : Token} {isInfix : Bool} {arguments : List NodeId} {returnType : Option String}
  {body : NodeId} {scope : ScopeId} {start : Span}

/-- The node of a function whose arguments and body are in hand, once the error that is due to it is
recorded.  No error is about the stretch that it takes up. -/
theorem reports_functionForm {due : List Diagnostic} (hs : s.Accounts text due) (hclear : s.Clear)
    (h : Carries base lo s (arguments ++ [body])) (hopens : Opens base s scope)
    (hbody : s.arena.definitionName body = none) (hlt : start.start.offset < lo)
    (hreached : start.start.offset < s.reached) (hunmarked : s.Unmarked start.start.offset)
    (hdue : (Form.function name.text isInfix arguments returnType (some body) scope).arityErrors
      s.report.source (Token.nameSpan (tokenize text) start.start) = due) :
    Reports text base start.start.offset s ((do
      let span ← spanFrom start
      let function ← make (.function name.text isInfix arguments returnType (some body) scope) span
      reportRedefinitions
      return function : Parser NodeId) s) fun id t =>
        Rests text base start.start.offset t [id] := by
  let form : Form := .function name.text isInfix arguments returnType (some body) scope
  have hchildren : form.children = arguments ++ [body] := by
    simp [form, Form.children, Form.childGroups, ChildGroup.children]
  have hitems : form.children = form.items ++ [body] := by
    simp [form, Form.children, Form.items, Form.childGroups, ChildGroup.children, ChildGroup.items]
  have hnone (id : NodeId) (hid : id ∈ [body]) : s.arena.definitionName id = none :=
    List.mem_singleton.1 hid ▸ hbody
  refine .bind_spanFrom fun span hfrom hto => ?_
  refine (reports_scoped hs h (.of_eq hchildren) rfl hopens hitems hnone (hfrom ▸ hdue)
    (Nat.le_of_lt hlt) fun _ => ?_).mono fun id t ht hid => ⟨ht.settled, hid.2.2 hclear, hid.1⟩
  rw [hfrom]
  exact ⟨Nat.le_refl _, hlt, hreached, hunmarked.span_ne (congrArg (·.offset) hfrom) hto⟩

/-- The same with the errors that it gives rise to.  No error is about the name either. -/
theorem reports_functionNode (h : Rests text base lo s (arguments ++ [body]))
    (hopens : Opens base s scope) (hbody : s.arena.definitionName body = none)
    (hstart : start.start.offset < name.span.start.offset) (hname : name.span.start.offset < lo)
    (hreached : start.start.offset < s.reached) (hspares : s.Spares name.span.start.offset)
    (hunmarked : s.Unmarked start.start.offset)
    (hspan : isInfix = true → Token.nameSpan (tokenize text) start.start = name.span) :
    Reports text base start.start.offset s ((do
      if isInfix && arguments.length != 2 then
        record (← errorAt .semantic name.span (.infixArity name.text))
      let span ← spanFrom start
      let function ← make (.function name.text isInfix arguments returnType (some body) scope) span
      reportRedefinitions
      return function : Parser NodeId) s) fun id t =>
        Rests text base start.start.offset t [id] := by
  have hlt := Nat.lt_trans hstart hname
  refine .ite (fun hwrong => .bind_look rfl ?_) fun hright => ?_
  · let d : Diagnostic := ⟨s.report.source, .error, .semantic, name.span,
      (Complaint.infixArity name.text).message⟩
    have hsettled := h.settled.recorded (d := d) rfl fun e he =>
      Diagnostic.apart_of_span_ne fun hsame => hspares e he (congrArg (·.start.offset) hsame)
    refine .of_recorded (d := d) (reports_functionForm hsettled ?_ ?_ hopens hbody hlt hreached
      ?_ ?_) rfl (Nat.le_of_lt hstart)
    · exact fun e he => (mem_errors_recorded rfl he).elim (h.clear e)
        (by rintro rfl; exact Nat.lt_of_lt_of_le hname h.carries.le)
    · refine h.carries.recorded rfl fun id hid span hfound hsame => ?_
      have hge := (h.carries.named id hid span hfound).1
      rw [← hsame] at hge
      exact absurd hname (Nat.not_lt_of_le hge)
    · exact fun e he => (mem_errors_recorded rfl he).elim (hunmarked e)
        (by rintro rfl; exact fun hsame => absurd hsame (Nat.ne_of_gt hstart))
    · simp only [Bool.and_eq_true, bne_iff_ne] at hwrong
      obtain ⟨rfl, hlength⟩ := hwrong
      have hsource : (s.recorded d).report.source = s.report.source := source_recordIn ..
      rw [hspan rfl, hsource]
      exact if_neg hlength
  · refine reports_functionForm h.settled h.clear h.carries hopens hbody hlt hreached hunmarked ?_
    cases isInfix with
    | false => rfl
    | true => exact if_pos (by simpa using hright)

end

/-- What is left of a function after the word that makes it one for use between arguments.  Once its
name is consumed, no error is about a stretch from the start of the function up to there. -/
theorem reports_functionFrom (he : ∀ min, Expresses text (e min)) {start : Span} {isInfix : Bool}
    (hs : s.Settled text) (h : s.Awaits (.kind .wordFun)) (hle : start.start.offset ≤ s.ahead)
    (hunmarked : s.advanced.tape.peek.kind ≠ .endOfFile →
      s.advanced.advanced.Unmarked start.start.offset)
    (hspan : s.advanced.tape.peek.kind ≠ .endOfFile → isInfix = true →
      Token.nameSpan (tokenize text) start.start = s.advanced.tape.peek.span) :
    Reports text s.arena start.start.offset s (functionFrom e start isInfix s) fun id t =>
      Rests text s.arena start.start.offset t [id] := by
  unfold functionFrom
  refine .bind_awaited hs h hle fun haccepts => ?_
  have hfun : s.tape.peek.kind ≠ .endOfFile := fun hend => by
    rw [hend] at haccepts
    cases haccepts
  have hrests : Rests text s.arena start.start.offset s.advanced [] :=
    (Rests.start hs h.near hfun).mono hle
  refine .bind_name hrests fun hname hnamed => ?_
  have hstart : start.start.offset < s.advanced.ahead := Nat.lt_of_le_of_lt hle (hs.ahead_lt hfun)
  have hlt : s.advanced.ahead < s.advanced.advanced.ahead := hs.advanced.ahead_lt hname
  have hrest (u : ParserState) (hu : u.Settled text) (hclear : u.Clear) :
      Reports text u.arena u.ahead u (functionRest e u) fun parts t =>
        Carries u.arena u.ahead t (parts.1 ++ [parts.2.2]) ∧ t.Clear ∧
          t.arena.definitionName parts.2.2 = none :=
    (reports_functionRest he (.nil hu hclear)).mono fun parts t ht hparts =>
      ⟨hparts.1.carries, hparts.1.clear, hparts.2⟩
  -- arguments and body add errors behind the name only
  refine .bind_rule (.refl s.arena) (Nat.le_of_lt (Nat.lt_trans hstart hlt))
    (.inScope (p := functionRest e) hnamed.settled hnamed.clear hrest fun _ _ _ hq => hq)
    fun x t ht hx => ?_
  obtain ⟨scope, arguments, returnType, body⟩ := x
  obtain ⟨hcarries, hopens, hclear, hbody⟩ := hx
  have hspares : s.advanced.advanced.Spares s.advanced.ahead := hrests.clear.spares
  refine reports_functionNode ⟨ht.settled, hclear, hcarries⟩ hopens hbody hstart hlt ?_
    (hspares.later ht hlt) ((hunmarked hname).later ht (Nat.lt_trans hstart hlt)) (hspan hname)
  exact Nat.lt_of_lt_of_le (Nat.lt_of_lt_of_le hstart hs.advanced.ahead_le_reached) ht.reached_le

/-- A function. -/
theorem reports_functionRule (he : ∀ min, Expresses text (e min)) (hs : s.Settled text)
    (h : s.Near) (hkind : s.tape.peek.kind = .wordFun ∨ s.tape.peek.kind = .wordInfix) :
    Reports text s.arena s.ahead s (functionRule e s) fun id t =>
      Rests text s.arena s.ahead t [id] := by
  have hfirst : s.tape.peek.kind ≠ .endOfFile := by
    rcases hkind with hkind | hkind <;> rw [hkind] <;> decide
  show Reports text s.arena s.ahead s ((peek >>= fun first =>
    skipKind .wordInfix >>= functionFrom e first.span) s) fun id t =>
      Rests text s.arena s.ahead t [id]
  refine .bind_look (a := s.tape.peek) rfl (.bind_skipKind hs (fun _ => ?_) fun hinfix => ?_)
  · refine reports_functionFrom he hs.advanced (.inl (h.advanced hs hfirst)) hs.ahead_le
      (fun hname => ?_) fun hname _ => ?_
    · have hl : Advances text s.arena s.advanced.ahead s.advanced s.advanced.advanced.advanced :=
        .trans (.advanced hs.advanced) (.advanced hs.advanced.advanced)
      refine h.unmarked hl (hs.ahead_lt hfirst) ?_
      exact Nat.lt_of_le_of_lt (Nat.le_trans hs.advanced.reached_le_ahead hs.advanced.ahead_le)
        (hs.advanced.advanced.ahead_lt_reached hname)
    · obtain ⟨c, hc, hpeek⟩ := hs.exists_peek_eq
      have hthird : s.advanced.advanced.tape.peek = Token.endless (tokenize text) (c + 2) :=
        hc.advance.advance.lookAhead_eq 0
      rw [hpeek, hthird]
      exact Token.nameSpan_endless (hthird ▸ hname)
  · have hfun : s.tape.peek.kind = .wordFun := hkind.resolve_right hinfix
    refine reports_functionFrom he hs (.inr ⟨h, by rw [hfun]; rfl⟩) (Nat.le_refl _)
      (fun hname => ?_) nofun
    have hl : Advances text s.arena s.advanced.ahead s.advanced s.advanced.advanced :=
      .advanced hs.advanced
    refine h.unmarked hl (hs.ahead_lt hfirst) ?_
    exact Nat.lt_of_le_of_lt hs.advanced.reached_le_ahead (hs.advanced.ahead_lt_reached hname)

/-! ## Units -/

/-- An import or a function. -/
theorem reports_topLevel (he : ∀ min, Expresses text (e min)) (hs : s.Settled text)
    (h : s.Awaits (.category [.declarationStart])) :
    Reports text s.arena s.ahead s (topLevel e s) fun id t =>
      Rests text s.arena s.ahead t [id] := by
  unfold topLevel
  refine .bind_look (a := s.tape.peek) rfl ?_
  cases hk : s.tape.peek.kind
  case wordImport => exact reports_importRule he hs h.near hk
  case wordFun => exact reports_functionRule he hs h.near (.inl hk)
  case wordInfix => exact reports_functionRule he hs h.near (.inr hk)
  all_goals exact .fail_unexpected hs (h.clear (by rw [hk]; rfl)) (Nat.le_refl _)

/-- The items of a unit are in hand. -/
def Collected (base : Arena) (lo : Nat) (items : UnitItems) (s : ParserState) : Prop :=
  Carries base lo s (items.imports ++ items.declarations) ∧
    s.Between (.category [.declarationStart])

/-- One more item of a unit, or its end. -/
theorem reports_unitStep {items : UnitItems} (hs : s.Settled text) (h : Collected base lo items s) :
    Reports text base lo s (unitStep items s) fun r t =>
      r.elim (Collected base lo · t) (Collected base lo · t) := by
  unfold unitStep
  refine .bind_look rfl (.ite (fun _ => .pure hs h) fun hmore => ?_)
  have hawaits : s.Awaits (.category [.declarationStart]) :=
    h.2.resolve_right fun hended => hmore (by
      show (Expectation.kind .endOfFile).accepts s.tape.peek.kind = true
      rw [hended.kind_eq]
      rfl)
  have hitem : Reports text s.arena s.ahead s ((do topLevel (expressionWithin (← bound))) s)
      fun id t => Rests text s.arena s.ahead t [id] :=
    .bind_look rfl (reports_topLevel (expresses_expressionWithin _) hs hawaits)
  refine .bind_rule h.1.holds h.1.le (.synchronized _ hitem) fun item t ht ⟨hitem, hbetween⟩ => ?_
  have hcarries := h.1.append hs ht hitem
  cases item with
  | none =>
    rw [Option.toList_none, List.append_nil] at hcarries
    exact .pure ht.settled ⟨hcarries, hbetween⟩
  | some id =>
    exact .bind_formOf fun form _ => .pure ht.settled
      ⟨hcarries.perm (perm_push items id form), hbetween⟩

/-- The stretch of a unit. -/
theorem bind_unitSpan {β : Type} {f : Span → Parser β} {R : β → ParserState → Prop}
    {items : UnitItems} (hf : ∀ span, Reports text base lo s (f span s) R) :
    Reports text base lo s ((unitSpan items >>= f) s) R := by
  unfold unitSpan
  cases items.imports.head?.or items.declarations.head? with
  | none => exact .bind_look (a := s.tape.peek.span) rfl (hf _)
  | some first =>
    rw [bind_assoc]
    exact .bind_spanOf fun _ _ => .bind_spanFrom fun span _ _ => hf span

/-- A whole unit. -/
theorem reports_compilationUnit (hs : s.Settled text) (h : s.Clear) :
    Reports text s.arena s.ahead s (compilationUnit s) fun id t =>
      Carries s.arena s.ahead t [id] := by
  have hitems (u : ParserState) (hu : u.Settled text) (hclear : u.Clear) :
      Reports text u.arena u.ahead u ((do loop unitStep (← bound) ⟨[], []⟩) u) fun items t =>
        Carries u.arena u.ahead t (items.imports ++ items.declarations) ∧
          t.Between (.category [.declarationStart]) :=
    .bind_look rfl (.loop (fun _ _ ht hitems => reports_unitStep ht hitems) _ hu
      ⟨.nil u, .inl (.inl hclear)⟩)
  unfold compilationUnit
  refine (Reports.inScope (p := do loop unitStep (← bound) ⟨[], []⟩) hs h hitems
    fun _ _ scopes hq => hq.inside scopes).bind fun x t ht hx => ?_
  obtain ⟨scope, items⟩ := x
  refine bind_unitSpan fun span => (reports_scoped_nameless ht.settled hx.1 rfl hx.2.1 ?_ ?_
    rfl).mono fun id u hu hid => hid.1
  · simp [Form.children, Form.childGroups, ChildGroup.children]
  · simp [Form.items, Form.childGroups, ChildGroup.items]

/-! ## Entries -/

/-- The end of the source. -/
theorem reports_expectEnd (h : Rests text base lo s ids) :
    Reports text base lo s (expectEnd s) fun _ _ => True :=
  .bind_expectKind h fun _ h => .pure h.settled trivial

/-- The rule for an entry. -/
theorem reports_entry (hs : s.Settled text) (h : s.Clear) (e : Entry) :
    Reports text s.arena s.ahead s (entry e s) fun _ _ => True := by
  have htoEnd {p : Parser NodeId} (hp : Reports text s.arena s.ahead s (p s) fun id t =>
      Rests text s.arena s.ahead t [id]) : Reports text s.arena s.ahead s
        ((do let root ← p; expectEnd; return root : Parser NodeId) s) fun _ _ => True :=
    hp.bind fun _ _ _ hroot => (reports_expectEnd hroot).bind fun _ _ ht _ =>
      .pure ht.settled trivial
  cases e with
  | unit => exact (reports_compilationUnit hs h).mono fun _ _ _ _ => trivial
  | expression =>
    exact htoEnd ((expresses_expression .lowest s hs (.inl h)).mono fun _ _ _ hid => hid.1)
  | statement => exact htoEnd (reports_statement hs (.inl h))

end ExprLang.Parser
