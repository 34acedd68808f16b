import ExprLang.Proofs.Parser.Calls
import ExprLang.Proofs.Places.Rules

/-!
# Where the nodes of units lie

Imports and functions lie where their rules have run, with their children inside.  A unit
starts with its first import, or else with its first function, and ends with the last
token.  Its imports lie one behind another, and so do its functions, but a function may lie
before the first import and so before the unit.

Main definitions:

- Definition {lit}`Parser.UnitItems.Within`: where the items of a unit lie.

Main results:

- Theorem {lit}`Parser.locates_functionRule`: functions.
- Theorem {lit}`Parser.lands_compilationUnit`: units.
- Theorems {lit}`Parser.moves_entry` and {lit}`Parser.moves_call`: whatever a caller asks
  for.
-/

namespace ExprLang.Parser

open ParserState

variable {text : String} {s : ParserState} {e : ExpressionRule} {lo : Nat} {ids : List NodeId}

/-! ## Imports -/

/-- The other name that an imported name is given, if any. -/
theorem lands_optionalRename {imported : Token} (hs : s.Sound text)
    (h : Behind text s imported.span) :
    Lands text s (optionalRename imported s) fun _ _ => True := by
  unfold optionalRename
  refine .bind_skipKind hs (fun _ => ?_) (.pure hs trivial)
  refine .bind_name hs.advanced fun _ => ?_
  have hs' := hs.advanced.advanced
  refine .ite (fun _ => ?_) fun _ => .pure hs' trivial
  have hspan := ((h.later hs.onward_advanced).through_peek hs.advanced).genuine
  exact (Lands.warnAt hs' hspan).bind fun _ t ht _ _ => .pure ht trivial

/-- An imported name. -/
theorem locates_importEntry : Locates text importEntry := by
  intro s hs
  unfold importEntry
  refine .bind_name hs fun hkind => ?_
  have himported := hs.behind_peek hkind
  refine (lands_optionalRename hs.advanced himported).bind fun rename t ht hl _ => ?_
  have hbehind := himported.later hl
  exact lands_spanned ht hbehind.genuine hbehind.start_lt (.nil (Nat.le_of_lt hbehind.start_lt))

/-- One more imported name, or the end of the names. -/
theorem lands_importStep (hs : s.Sound text) (hrows : s.Rows lo ids) :
    Lands text s (importStep ids s) fun r t => r.elim (t.Rows lo) (t.Rows lo) := by
  unfold importStep
  refine .bind_look rfl (.ite (fun _ => .pure hs hrows) fun _ => ?_)
  refine (locates_importEntry.append hs hrows).bind fun entry t ht _ hmore => ?_
  exact .bind_skipKind ht (fun _ => .pure ht.advanced (hmore.later ht.onward_advanced))
    (.pure ht hmore)

/-- The imported names in braces, if there are braces. -/
theorem lands_importEntries (hs : s.Sound text) (hlo : lo ≤ s.reached) :
    Lands text s (importEntries s) fun entries t => t.Rows lo entries := by
  unfold importEntries
  cases haccept : (Expectation.kind .leftBrace).accepts s.tape.peek.kind with
  | false => exact .bind_look (accept?_of_not_accepts haccept) (.pure hs (.nil hlo))
  | true =>
    rw [bind_eq_of_eq_ok (accept?_of_accepts haccept)]
    refine .after hs.onward_advanced (.bind_look rfl ?_)
    have hs' := hs.advanced
    have hkind : s.tape.peek.kind = .leftBrace := (eq_of_beq haccept).symm
    have hbrace := hs.behind_peek (by rw [hkind]; decide)
    have hnil : s.advanced.Rows lo [] := .nil (Nat.le_trans hlo hs.onward_advanced.reached_le)
    have hloop := Lands.loop (I := fun ids t => t.Rows lo ids) (R := fun ids t => t.Rows lo ids)
      (fun _ _ ht hids => lands_importStep ht hids) (s.advanced.tape.pending.length + 1) hs' hnil
    refine hloop.bind fun entries t ht hl hrows => .bind_expectKind ht fun _ => ?_
    have hmore := hrows.later ht.onward_advanced
    refine .ite (fun _ => ?_) fun _ => .pure ht.advanced hmore
    have hspan := ((hbrace.later hl).through_peek ht).genuine
    exact (Lands.warnAt ht.advanced hspan).bind fun _ u hu hl' _ => .pure hu (hmore.later hl')

/-- The path of an import. -/
theorem moves_importPath (he : ∀ min, Locates text (e min)) : Moves text (importPath e) := by
  intro s hs
  unfold importPath
  refine .bind_expectKind hs fun hkind => ?_
  have hquote := hs.behind_peek (by rw [hkind]; decide)
  refine (lands_stringRule he hs.advanced hquote).bind fun node t ht _ hnode => ?_
  obtain ⟨span, hspan, -⟩ := hnode.exists_span
  have hfails : Lands text t ((do failAt (← spanOf node) .pathWithPlaceholder : Parser String) t)
      fun _ _ => True :=
    .bind_spanOf hspan (.failAt ht (ht.nests.genuine _ _ hspan))
  refine .bind_lift fun form _ => ?_
  cases form with
  | literal value =>
    cases value with
    | string path => exact .pure ht trivial
    | _ => exact hfails
  | _ => exact hfails

/-- An import. -/
theorem locates_importRule (he : ∀ min, Locates text (e min)) : Locates text (importRule e) := by
  intro s hs
  unfold importRule
  refine .bind_expectKind hs fun hkind => ?_
  have hstart := hs.behind_peek (by rw [hkind]; decide)
  refine (moves_importPath he _ hs.advanced).bind fun path t ht hl _ => ?_
  have hlt := (hstart.later hl).start_lt
  refine (lands_importEntries ht (Nat.le_of_lt hlt)).bind fun entries u hu hl' hrows => ?_
  have hlt' := Nat.lt_of_lt_of_le hlt hl'.reached_le
  have hchildren : (Form.importPath path entries).children = entries := by
    simp [Form.children, Form.childGroups, ChildGroup.children]
  rw [← hchildren] at hrows
  refine .bind_skipKind hu (fun _ => ?_) (lands_spanned hu hstart.genuine hlt' hrows)
  exact lands_spanned hu.advanced hstart.genuine
    (Nat.lt_of_lt_of_le hlt' hu.onward_advanced.reached_le) (hrows.later hu.onward_advanced)

/-! ## Functions -/

/-- A pattern for the value of the caller is where its expression is. -/
theorem locates_patternArgument (he : ∀ min, Locates text (e min)) :
    Locates text (patternArgument e) := by
  intro s hs
  unfold patternArgument
  refine (he .lowest s hs).bind fun pattern t ht _ hpattern => ?_
  obtain ⟨span, hspan, hlo, hlt, hhi⟩ := hpattern.exists_span
  refine .bind_spanOf hspan ?_
  refine (lands_node ht ⟨ht.nests.genuine _ _ hspan, hlt, hhi⟩ ?_).mono
    fun _ _ _ _ h => h.mono hlo
  exact .singleton hspan (Nat.le_refl _) hlt (Nat.le_refl _)

/-- A name with an optional type and default. -/
theorem locates_namedArgument (he : ∀ min, Locates text (e min)) :
    Locates text (namedArgument e) := by
  intro s hs
  unfold namedArgument
  refine .bind_name hs fun hkind => ?_
  have hname := hs.behind_peek hkind
  refine (moves_optionalType _ hs.advanced).bind fun type t ht hl _ => ?_
  have hlt := (hname.later hl).start_lt
  refine (lands_optionalExpression (he .assignment) _ ht (.nil (Nat.le_of_lt hlt))).bind
    fun default? u hu hl' hrows => ?_
  refine lands_spanned hu hname.genuine (Nat.lt_of_lt_of_le hlt hl'.reached_le) ?_
  cases default? <;> exact hrows

/-- An argument of a function. -/
theorem locates_argument (he : ∀ min, Locates text (e min)) : Locates text (argument e) := by
  intro s hs
  unfold argument
  refine .bind_look rfl (.ite (fun _ => ?_) fun _ => ?_)
  · exact locates_namedArgument he s hs
  · exact locates_patternArgument he s hs

/-- The body of a function. -/
theorem locates_functionBody (he : ∀ min, Locates text (e min)) :
    Locates text (functionBody e) := by
  intro s hs
  unfold functionBody
  refine .bind_look (a := s.tape.peek) rfl ?_
  cases hk : s.tape.peek.kind
  case leftBrace =>
    have hbrace := hs.behind_peek (by rw [hk]; decide)
    exact .bind_advance hs (lands_blockRule he hs.advanced hbrace)
  case assign =>
    have hle : s.ahead ≤ s.advanced.ahead :=
      Nat.le_trans hs.genuine_peek.offset_le hs.advanced.reached_le_ahead
    refine .bind_advance hs ((he .lowest _ hs.advanced).bind fun body t ht _ hbody => ?_)
    exact (moves_terminator t ht).bind fun _ u hu hl _ => .pure hu ((hbody.later hl).mono hle)
  all_goals exact .fail_unexpected hs

/-- The arguments and the body of a function lie one behind another. -/
theorem lands_functionRest (he : ∀ min, Locates text (e min)) (hs : s.Sound text) :
    Lands text s (functionRest e s) fun x t => t.Rows s.reached (x.1 ++ [x.2.2]) := by
  unfold functionRest
  refine .bind_expectKind hs fun _ => ?_
  have hnil : s.advanced.Rows s.reached [] := .nil hs.onward_advanced.reached_le
  refine (lands_argumentList (locates_argument he) hs.advanced hnil).bind
    fun arguments t ht _ harguments => ?_
  refine (moves_optionalType t ht).bind fun type u hu hl _ => ?_
  refine ((locates_functionBody he).append hu (harguments.later hl)).bind
    fun body v hv _ hrows => .pure hv ?_
  rwa [List.nil_append] at hrows

/-- The node of a function, with the errors that its arguments give rise to. -/
theorem lands_functionNode {name : Token} {isInfix : Bool} {arguments : List NodeId}
    {returnType : Option String} {body : NodeId} {scope : ScopeId} {start : Span}
    (hs : s.Sound text) (hname : name.span.Genuine text) (hstart : start.Genuine text)
    (hlt : start.start.offset < s.reached)
    (hrows : s.Rows start.start.offset (arguments ++ [body])) :
    Lands text s ((do
      if isInfix && arguments.length != 2 then
        record (← errorAt .semantic name.span (.infixArity name.text))
      let span ← spanFrom start
      let function ← make (.function name.text isInfix arguments returnType (some body) scope) span
      reportRedefinitions
      return function : Parser NodeId) s) fun id t => t.Rows start.start.offset [id] := by
  have hchildren : (Form.function name.text isInfix arguments returnType (some body)
      scope).children = arguments ++ [body] := by
    simp [Form.children, Form.childGroups, ChildGroup.children]
  rw [← hchildren] at hrows
  refine .ite (fun _ => ?_) fun _ => lands_reported hs hstart hlt hrows
  refine .bind_errorAt ((Lands.record hs hname).bind fun _ t ht hl _ => ?_)
  exact lands_reported ht hstart (Nat.lt_of_lt_of_le hlt hl.reached_le) (hrows.later hl)

/-- What is left of a function after the word that makes it one for use between arguments. -/
theorem lands_functionFrom (he : ∀ min, Locates text (e min)) (hs : s.Sound text) {start : Span}
    (hstart : start.Genuine text) (hle : start.start.offset ≤ s.ahead) (isInfix : Bool) :
    Lands text s (functionFrom e start isInfix s) fun id t => t.Rows start.start.offset [id] := by
  unfold functionFrom
  refine .bind_expectKind hs fun hkind => ?_
  have hlt : start.start.offset < s.advanced.reached :=
    Nat.lt_of_le_of_lt hle (ahead_lt_reached hs (by rw [hkind]; decide))
  refine .bind_name hs.advanced fun _ => ?_
  have hname := hs.advanced.genuine_peek
  have hnamed := hs.advanced.advanced
  have hlt := Nat.lt_of_lt_of_le hlt hs.advanced.onward_advanced.reached_le
  refine (Lands.inScope hnamed (p := functionRest e)
    (M := fun parts t => t.Rows s.advanced.advanced.reached (parts.1 ++ [parts.2.2]))
    (fun t ht _ htape => ?_) fun _ _ _ h => h).bind fun x t ht hl hrows => ?_
  · have hreached : t.reached = s.advanced.advanced.reached := by rw [reached, reached, htape]
    rw [← hreached]
    exact lands_functionRest he ht
  · obtain ⟨scope, arguments, returnType, body⟩ := x
    exact lands_functionNode ht hname hstart (Nat.lt_of_lt_of_le hlt hl.reached_le)
      (hrows.mono (Nat.le_of_lt hlt))

/-- A function. -/
theorem locates_functionRule (he : ∀ min, Locates text (e min)) :
    Locates text (functionRule e) := by
  intro s hs
  show Lands text s ((peek >>= fun first =>
    skipKind .wordInfix >>= functionFrom e first.span) s) fun id t => t.Rows s.ahead [id]
  refine .bind_look (a := s.tape.peek) rfl (.bind_skipKind hs (fun _ => ?_) ?_)
  · have hle : s.ahead ≤ s.advanced.ahead :=
      Nat.le_trans hs.genuine_peek.offset_le hs.advanced.reached_le_ahead
    exact lands_functionFrom he hs.advanced hs.genuine_peek hle true
  · exact lands_functionFrom he hs hs.genuine_peek (Nat.le_refl _) false

/-! ## Units -/

/-- An import or a function. -/
theorem locates_topLevel (he : ∀ min, Locates text (e min)) : Locates text (topLevel e) := by
  intro s hs
  unfold topLevel
  refine .bind_look (a := s.tape.peek) rfl ?_
  cases s.tape.peek.kind
  case wordImport => exact locates_importRule he s hs
  case wordFun | wordInfix => exact locates_functionRule he s hs
  all_goals exact .fail_unexpected hs

/-- The items of a unit are behind the last token.  Each of the two lists is in the order of the
source, and no node is in both. -/
structure UnitItems.Placed (items : UnitItems) (s : ParserState) : Prop where
  imports : s.Rows 0 items.imports
  declarations : s.Rows 0 items.declarations
  nodup : (items.imports ++ items.declarations).Nodup

namespace UnitItems.Placed

variable {t : ParserState} {items : UnitItems} {id : NodeId}

/-- At first there are no items. -/
theorem nil (s : ParserState) : Placed ⟨[], []⟩ s :=
  ⟨.nil (Nat.zero_le _), .nil (Nat.zero_le _), .nil⟩

/-- The items of a unit stay where they are. -/
theorem later (h : items.Placed s) (hl : s.Onward t) : items.Placed t :=
  ⟨h.imports.later hl, h.declarations.later hl, h.nodup⟩

/-- Open scopes do not matter. -/
theorem inside (h : items.Placed s) (scopes : List ScopeId) :
    items.Placed { s with scopes := scopes } :=
  ⟨h.imports, h.declarations, h.nodup⟩

/-- An item starts before the end of the last token. -/
theorem exists_span (h : items.Placed s) (hid : id ∈ items.imports ++ items.declarations) :
    ∃ span, s.arena.position? id = some span ∧ span.start.offset < s.reached := by
  rcases List.mem_append.1 hid with hid | hid
  · obtain ⟨span, hspan, -, hlt, hhi⟩ := h.imports.exists_span_of_mem hid
    exact ⟨span, hspan, Nat.lt_of_lt_of_le hlt hhi⟩
  · obtain ⟨span, hspan, -, hlt, hhi⟩ := h.declarations.exists_span_of_mem hid
    exact ⟨span, hspan, Nat.lt_of_lt_of_le hlt hhi⟩

/-- A node behind all the items is none of them. -/
theorem not_mem (h : items.Placed s) (hl : s.Onward t) (hid : t.Rows s.reached [id]) :
    id ∉ items.imports ++ items.declarations := by
  intro hmem
  obtain ⟨span, hspan, hlo, -⟩ := Arena.Row.exists_span hid
  obtain ⟨old, hold, hlt⟩ := h.exists_span hmem
  cases hspan.symm.trans (hl.places id old hold)
  exact absurd hlo (Nat.not_le_of_lt hlt)

/-- One more item, behind the others. -/
theorem push (h : items.Placed s) (hl : s.Onward t) (hid : t.Rows s.reached [id])
    (form : Form) : (items.push id form).Placed t := by
  have hnodup : (id :: (items.imports ++ items.declarations)).Nodup :=
    List.nodup_cons.2 ⟨h.not_mem hl hid, h.nodup⟩
  have hperm : (id :: (items.imports ++ items.declarations)).Perm
      ((items.push id form).imports ++ (items.push id form).declarations) :=
    (List.perm_append_singleton ..).symm.trans (perm_push items id form)
  cases form with
  | importPath =>
    exact ⟨h.imports.append hl hid, h.declarations.later hl, hperm.nodup_iff.1 hnodup⟩
  | _ => exact ⟨h.imports.later hl, h.declarations.append hl hid, hperm.nodup_iff.1 hnodup⟩

end UnitItems.Placed

/-- One more item of a unit, or its end. -/
theorem lands_unitStep {items : UnitItems} (hs : s.Sound text) (h : items.Placed s) :
    Lands text s (unitStep items s) fun r t => r.elim (·.Placed t) (·.Placed t) := by
  have hitem : Lands text s ((do topLevel (expressionWithin (← bound))) s)
      fun id t => t.Rows s.ahead [id] :=
    .bind_look rfl (locates_topLevel (locates_expressionWithin _) s hs)
  unfold unitStep
  refine .bind_look rfl (.ite (fun _ => .pure hs h) fun _ => ?_)
  refine (Lands.synchronized _ hitem).bind fun item t ht hl hitem => ?_
  cases item with
  | none => exact .pure ht (h.later hl)
  | some id =>
    refine .bind_lift fun form _ => .pure ht (h.push hl ?_ form)
    exact (hitem id rfl).mono hs.reached_le_ahead

/-- The items of a unit lie before the end of its span in two rows.  The span starts where the
first import does, or else the first declaration. -/
structure UnitItems.Within (items : UnitItems) (a : Arena) (span : Span) : Prop where
  imports : a.Row 0 items.imports span.stop.offset
  declarations : a.Row 0 items.declarations span.stop.offset
  start : ∀ first, items.imports.head?.or items.declarations.head? = some first →
    ∃ range, a.position? first = some range ∧ span.start = range.start

/-- The items of a unit stay where they are. -/
theorem UnitItems.Within.places {items : UnitItems} {a b : Arena} {span : Span}
    (h : items.Within a span) (hp : a.Places b) : items.Within b span :=
  ⟨h.imports.places hp, h.declarations.places hp, fun first hfirst =>
    let ⟨range, hrange, hstart⟩ := h.start first hfirst
    ⟨range, hp first range hrange, hstart⟩⟩

/-- The stretch of a unit. -/
theorem lands_unitSpan {items : UnitItems} (hs : s.Sound text) (h : items.Placed s) :
    Lands text s (unitSpan items s) fun span t =>
      t = s ∧ span.Genuine text ∧ items.Within s.arena span := by
  unfold unitSpan
  cases hfirst : items.imports.head?.or items.declarations.head? with
  | none =>
    obtain ⟨himports, hdeclarations⟩ := Option.or_eq_none_iff.1 hfirst
    rw [List.head?_eq_none_iff] at himports hdeclarations
    refine .bind_look rfl (.pure hs ⟨rfl, hs.genuine_peek, ?_, ?_, ?_⟩)
    · exact himports ▸ .nil (Nat.zero_le _)
    · exact hdeclarations ▸ .nil (Nat.zero_le _)
    · exact fun first he => by cases hfirst.symm.trans he
  | some first =>
    have hmem : first ∈ items.imports ++ items.declarations :=
      List.mem_of_mem_head? (by rw [List.head?_append, hfirst]; rfl)
    obtain ⟨span, hspan, hlt⟩ := h.exists_span hmem
    refine .bind_spanOf hspan ((Lands.spanFrom hs (hs.nests.genuine _ _ hspan) hlt).mono ?_)
    rintro whole t - - ⟨rfl, hwhole, hstart, hstop⟩
    refine ⟨rfl, hwhole.genuine, hstop ▸ h.imports, hstop ▸ h.declarations, fun other he => ?_⟩
    cases hfirst.symm.trans he
    exact ⟨span, hspan, hstart⟩

/-- The arena holds a unit whose items are placed as the two lists say. -/
def HoldsUnit (a : Arena) (id : NodeId) : Prop :=
  ∃ (items : UnitItems) (scope : ScopeId) (span : Span),
    a.form? id = some (.compilationUnit items.imports items.declarations scope) ∧
      a.position? id = some span ∧ items.Within a span

/-- A whole unit.  In the arena of a parse it keeps all the items that were found. -/
theorem lands_compilationUnit (hs : s.Sound text) :
    Lands text s (compilationUnit s) fun id t => s.arena.Orderly → HoldsUnit t.arena id := by
  have hitems (u : ParserState) (hu : u.Sound text) :
      Lands text u ((do loop unitStep (← bound) ⟨[], []⟩) u) fun items t => items.Placed t :=
    .bind_look rfl (.loop (fun _ _ ht h => lands_unitStep ht h) _ hu (.nil u))
  have hkeeps : Keeps Arena.Orderly (inScope (do loop unitStep (← bound) ⟨[], []⟩)) :=
    (inferInstance : Has (fun _ p => Keeps Arena.Orderly p) _).out
  unfold compilationUnit
  refine ((Lands.inScope hs (fun u hu _ _ => hitems u hu)
    fun _ _ scopes h => h.inside scopes).keeping hkeeps).bind fun x t ht _ ⟨h, horderly⟩ => ?_
  obtain ⟨scope, items⟩ := x
  refine (lands_unitSpan ht h).bind ?_
  rintro span _ - - ⟨rfl, hspan, hwithin⟩
  refine (lands_make ht hspan fun hunit => by cases hunit).bind
    fun unit v hv hl ⟨_, hposition, hform⟩ => ?_
  refine (lands_reportRedefinitions hv).bind fun _ w hw hl' hnodes => .pure hw fun ho => ?_
  have hnodup : (Form.compilationUnit items.imports items.declarations scope).children.Nodup := by
    simpa [Form.children, Form.childGroups, ChildGroup.children] using h.nodup
  refine ⟨items, scope, span, ?_, hl'.places unit span hposition,
    (hwithin.places hl.places).places hl'.places⟩
  rw [Arena.form?, Arena.node?, hnodes]
  exact hform (horderly ho).owned hnodup

/-- A whole unit moves onward. -/
theorem moves_compilationUnit : Moves text compilationUnit :=
  fun _ hs => (lands_compilationUnit hs).mono fun _ _ _ _ _ => trivial

/-! ## Entries and calls -/

/-- The end of the source. -/
theorem moves_expectEnd : Moves text expectEnd :=
  fun _ hs => .bind_expectKind hs fun _ => .pure hs.advanced trivial

/-- The rule for an entry. -/
theorem moves_entry (e : Entry) : Moves text (entry e) := by
  have htoEnd {p : Parser NodeId} (hp : Locates text p) :
      Moves text (do let root ← p; expectEnd; return root) := fun s hs =>
    (hp s hs).bind fun _ t ht _ _ => (moves_expectEnd t ht).bind fun _ u hu _ _ => .pure hu trivial
  cases e with
  | unit => exact moves_compilationUnit
  | expression => exact htoEnd (locates_expression .lowest)
  | statement => exact htoEnd locates_statement

/-- Whatever a caller asks for. -/
theorem moves_call (call : Call) : Moves text call.run := by
  -- the answer to a call is dropped
  have hdrop {α : Type} {p : Parser α} {M : ParserState → α → ParserState → Prop}
      (hp : ∀ s, s.Sound text → Lands text s (p s) (M s)) :
      Moves text (do let _ ← p; return ()) :=
    fun s hs => (hp s hs).bind fun _ t ht _ _ => .pure ht trivial
  induction call with
  | expression min => exact hdrop (locates_expression min)
  | statement => exact hdrop locates_statement
  | compilationUnit => exact hdrop moves_compilationUnit
  | synchronized stop body ih => exact hdrop fun s hs => .synchronized stop (ih s hs)
  | check e => exact fun s hs => .bind_look rfl (.pure hs trivial)
  | accept e =>
    intro s hs
    cases h : e.accepts s.tape.peek.kind with
    | false => exact .bind_look (accept?_of_not_accepts h) (.pure hs trivial)
    | true =>
      unfold Call.run
      rw [bind_eq_of_eq_ok (accept?_of_accepts h)]
      exact .after hs.onward_advanced (.pure hs.advanced trivial)
  | expect e => exact fun s hs => .bind_expect hs fun _ => .pure hs.advanced trivial
  | unexpected expected => exact fun s hs => .bind_look rfl (.pure hs trivial)
  | expectEnd => exact moves_expectEnd

end ExprLang.Parser
