import ExprLang.Proofs.Layout.Rules

/-!
# Units in two layouts

Imports, functions and units come out the same in both layouts.

Main results:

- Theorem {lit}`Parser.Follows.functionRule`: functions.
- Theorem {lit}`Parser.Follows.compilationUnit`: units.
-/

namespace ExprLang.Parser.Follows

open ParserState

variable {l : Alignment} {n : Nat} {e : ExpressionRule}

/-! ## Imports -/

/-- The other name that an imported name is given, if any. -/
theorem optionalRename {imported imported' : Token} (h : imported.Alike l imported') :
    Follows l n (Parser.optionalRename imported) (Parser.optionalRename imported') := by
  unfold Parser.optionalRename
  refine (skipKind rfl).bind_same fun _ _ _ _ => .ite Iff.rfl ?_ (.pure .none)
  refine name.bind fun _ rename rename' _ hrename => ?_
  rw [hrename.text, h.text]
  refine .ite Iff.rfl ?_ (.pure (.some rfl))
  exact (warnAt (h.span.through hrename.span) rfl).bind_same fun _ _ _ _ => .pure (.some rfl)

/-- An imported name. -/
theorem importEntry : Follows l n Parser.importEntry Parser.importEntry := by
  unfold Parser.importEntry
  refine name.bind fun _ imported imported' _ h => ?_
  refine (optionalRename h).bind_same fun _ rename _ _ => ?_
  rw [h.text]
  exact (spanFrom h.span).bind fun _ _ _ _ hspan => make _ hspan

/-- One more imported name, or the end of the names. -/
theorem importStep {ids ids' : List NodeId} (h : Alike l n ids ids') :
    Follows l n (Parser.importStep ids) (Parser.importStep ids') := by
  unfold Parser.importStep
  refine (checkKind _).bind_same fun _ _ hm _ => ?_
  have h := Comparable.mono h hm
  refine .ite Iff.rfl (.pure (.inr h)) ?_
  refine importEntry.bind fun _ id id' hm hid => ?_
  have h := alike_concat (Comparable.mono h hm) hid
  refine (skipKind rfl).bind_same fun _ _ hm _ => ?_
  exact .ite Iff.rfl (.pure (.inl (Comparable.mono h hm))) (.pure (.inr (Comparable.mono h hm)))

/-- The imported names in braces, if there are braces. -/
theorem importEntries : Follows l n Parser.importEntries Parser.importEntries := by
  unfold Parser.importEntries
  refine (accept? (isValid_of_accepts_kind rfl)).bind fun _ start? start?' _ hstart => ?_
  cases hstart with
  | none => exact .pure .nil
  | some hstart =>
    refine bound.bind_same fun _ k _ _ => ?_
    refine (loop (fun _ _ _ _ h => importStep h) k .nil).bind_same fun _ ids _ hids => ?_
    refine (expectKind rfl).bind fun _ _ _ hm hfinish => ?_
    have hids := Comparable.mono hids hm
    refine .ite Iff.rfl ?_ (.pure hids)
    exact (warnAt (Span.Alike.through (Token.Alike.span hstart) hfinish.span) rfl).bind_same
      fun _ _ hm _ => .pure (Comparable.mono hids hm)

/-- The path of an import. -/
theorem importPath (he : ∀ min m, Follows l m (e min) (e min)) :
    Follows l n (Parser.importPath e) (Parser.importPath e) := by
  unfold Parser.importPath
  refine (expectKind rfl).bind fun _ _ _ _ hquote => ?_
  refine (stringRule he hquote).bind_same fun _ id _ hid => ?_
  refine (formOf id).bind_same fun m form hm _ => ?_
  have hfails : Follows l m
      (Parser.spanOf id >>= fun span => Parser.failAt span .pathWithPlaceholder : Parser String)
      (Parser.spanOf id >>= fun span => Parser.failAt span .pathWithPlaceholder) :=
    (spanOf (Nat.lt_of_lt_of_le hid.2 hm)).bind fun _ _ _ _ hspan => failAt hspan rfl
  cases form with
  | literal value =>
    cases value with
    | string path => exact .pure rfl
    | _ => exact hfails
  | _ => exact hfails

/-- An import. -/
theorem importRule (he : ∀ min m, Follows l m (e min) (e min)) :
    Follows l n (Parser.importRule e) (Parser.importRule e) := by
  unfold Parser.importRule
  refine (expectKind rfl).bind fun _ _ _ _ hstart => ?_
  refine (importPath he).bind_same fun _ path _ _ => importEntries.bind_same fun _ ids _ _ => ?_
  refine (skipKind rfl).bind_same fun _ _ _ _ => ?_
  exact (spanFrom hstart.span).bind fun _ _ _ _ hspan => make _ hspan

/-! ## Functions -/

/-- Whether a name follows that is an argument of its own. -/
theorem namedArgumentFollows :
    Follows l n Parser.namedArgumentFollows Parser.namedArgumentFollows := by
  unfold Parser.namedArgumentFollows
  refine (check _).bind_same fun _ _ _ _ => (lookAhead 1).bind fun _ _ _ _ htoken => ?_
  rw [htoken.kind]
  exact .pure rfl

/-- An argument of a function. -/
theorem argument (he : ∀ min m, Follows l m (e min) (e min)) :
    Follows l n (Parser.argument e) (Parser.argument e) := by
  unfold Parser.argument
  refine namedArgumentFollows.bind_same fun m _ _ _ => .ite Iff.rfl ?_ ?_
  · unfold namedArgument
    refine name.bind fun _ name name' _ hname => optionalType.bind_same fun _ type _ _ => ?_
    refine (optionalExpression (he .assignment) rfl).bind_same fun _ default? _ _ => ?_
    rw [hname.text]
    exact (spanFrom hname.span).bind fun _ _ _ _ hspan => make _ hspan
  · unfold patternArgument
    refine (he .lowest m).bind_same fun _ pattern _ hpattern => ?_
    exact (spanOf hpattern.2).bind fun _ _ _ _ hspan => make _ hspan

/-- The body of a function. -/
theorem functionBody (he : ∀ min m, Follows l m (e min) (e min)) :
    Follows l n (Parser.functionBody e) (Parser.functionBody e) := by
  intro s s' hs hn
  unfold Parser.functionBody
  refine .bind_peek ?_
  rw [hs.tape.peek.kind]
  cases hk : s.tape.peek.kind
  case leftBrace =>
    refine .bind_advance (by rw [hk]; rfl) (.of_follows (n := n) ?_ hs.advanced hn)
    exact blockRule he hs.tape.peek
  case assign =>
    refine .bind_advance (by rw [hk]; rfl) (.of_follows (n := n) ?_ hs.advanced hn)
    refine (he .lowest n).bind fun _ body body' _ hbody => ?_
    exact terminator.bind_same fun _ _ hm _ => .pure (Comparable.mono hbody hm)
  all_goals exact .of_follows (fail_unexpected _) hs hn

/-- The arguments, the type of the result, and the body of a function. -/
theorem functionRest (he : ∀ min m, Follows l m (e min) (e min)) :
    Follows l n (Parser.functionRest e) (Parser.functionRest e) := by
  unfold Parser.functionRest
  refine (expectKind rfl).bind fun _ _ _ _ _ => ?_
  refine (argumentList fun _ => argument he).bind fun _ ids ids' _ hids => ?_
  refine optionalType.bind_same fun _ type hm htype => ?_
  refine (functionBody he).bind fun _ body body' hm' hbody => ?_
  exact .pure ⟨Comparable.mono hids (Nat.le_trans hm hm'), Comparable.mono htype hm', hbody⟩

/-- A function. -/
theorem functionRule (he : ∀ min m, Follows l m (e min) (e min)) :
    Follows l n (Parser.functionRule e) (Parser.functionRule e) := by
  unfold Parser.functionRule
  refine peek.bind fun _ start start' _ hstart => ?_
  refine (skipKind rfl).bind_same fun _ isInfix _ _ => (expectKind rfl).bind fun _ _ _ _ _ => ?_
  refine name.bind fun _ name name' _ hname => ?_
  refine (inScope (functionRest he)).bind_same fun m x _ _ => ?_
  obtain ⟨scope, arguments, returnType, body⟩ := x
  have hrest {m : Nat} : Follows l m
      (do
        let span ← Parser.spanFrom start.span
        let function ← Parser.make
          (.function name.text isInfix arguments returnType (some body) scope) span
        Parser.reportRedefinitions
        return function)
      (do
        let span ← Parser.spanFrom start'.span
        let function ← Parser.make
          (.function name.text isInfix arguments returnType (some body) scope) span
        Parser.reportRedefinitions
        return function) := by
    refine (spanFrom hstart.span).bind fun _ span span' _ hspan => ?_
    refine (make _ hspan).bind fun _ id id' _ hid => ?_
    exact reportRedefinitions.bind_same fun _ _ hm _ => .pure (Comparable.mono hid hm)
  rw [hname.text]
  refine .ite Iff.rfl ?_ hrest
  exact bind_record hname.span rfl fun _ _ => hrest

/-! ## Units -/

/-- An import or a function. -/
theorem topLevel (he : ∀ min m, Follows l m (e min) (e min)) :
    Follows l n (Parser.topLevel e) (Parser.topLevel e) := by
  unfold Parser.topLevel
  refine peek.bind fun m token token' _ htoken => ?_
  rw [htoken.kind]
  cases token.kind
  case wordImport => exact importRule he
  case wordFun | wordInfix => exact functionRule he
  all_goals exact fail_unexpected _

/-- One more item of a unit, or its end. -/
theorem unitStep {u u' : UnitItems} (h : Alike l n u u') :
    Follows l n (Parser.unitStep u) (Parser.unitStep u') := by
  unfold Parser.unitStep
  refine (checkKind _).bind_same fun m _ hm _ => ?_
  have h := Comparable.mono h hm
  refine .ite Iff.rfl (.pure (.inr h)) ?_
  have hitem : Follows l m (do Parser.topLevel (Parser.expressionWithin (← Parser.bound)))
      (do Parser.topLevel (Parser.expressionWithin (← Parser.bound))) :=
    bound.bind_same fun _ k _ _ => topLevel (expressionWithin k)
  refine (synchronized _ hitem).bind fun _ item item' hm hitem => ?_
  have h := Comparable.mono h hm
  cases hitem with
  | none => exact .pure (.inl h)
  | @some id id' hid =>
    cases Placeless.eq_of_alike hid
    refine (formOf id).bind_same fun _ form hm _ => .pure (.inl ?_)
    exact UnitItems.alike_push (Comparable.mono h hm) (Comparable.mono hid hm) form

/-- The stretch of a unit. -/
theorem unitSpan {u u' : UnitItems} (h : Alike l n u u') :
    Follows l n (Parser.unitSpan u) (Parser.unitSpan u') := by
  obtain ⟨imports, declarations⟩ := u
  obtain ⟨imports', declarations'⟩ := u'
  obtain ⟨himports, hdeclarations⟩ := h
  unfold Parser.unitSpan
  have hpeek : Follows l n (do return (← Parser.peek).span) (do return (← Parser.peek).span) :=
    peek.bind fun _ _ _ _ htoken => .pure htoken.span
  have hfrom {id id' : NodeId} (hid : Alike l n id id') : Follows l n
      (do Parser.spanFrom (← Parser.spanOf id)) (do Parser.spanFrom (← Parser.spanOf id')) := by
    cases Placeless.eq_of_alike hid
    exact (spanOf hid.2).bind fun _ _ _ _ hspan => spanFrom hspan
  cases himports with
  | cons hid _ => exact hfrom hid
  | nil =>
    cases hdeclarations with
    | cons hid _ => exact hfrom hid
    | nil => exact hpeek

/-- A whole unit. -/
theorem compilationUnit : Follows l n Parser.compilationUnit Parser.compilationUnit := by
  have hitems {m : Nat} : Follows l m (do Parser.loop Parser.unitStep (← Parser.bound) ⟨[], []⟩)
      (do Parser.loop Parser.unitStep (← Parser.bound) ⟨[], []⟩) :=
    bound.bind_same fun _ k _ _ => loop (fun _ _ _ _ h => unitStep h) k ⟨.nil, .nil⟩
  unfold Parser.compilationUnit
  refine (inScope hitems).bind fun _ x x' _ hx => ?_
  obtain ⟨scope, imports, declarations⟩ := x
  obtain ⟨scope', imports', declarations'⟩ := x'
  obtain ⟨rfl, hitems⟩ := hx
  refine (unitSpan hitems).bind fun _ span span' hm hspan => ?_
  cases Placeless.eq_of_alike hitems.1
  cases Placeless.eq_of_alike hitems.2
  refine (make _ hspan).bind fun _ id id' _ hid => ?_
  exact reportRedefinitions.bind_same fun _ _ hm _ => .pure (Comparable.mono hid hm)

end ExprLang.Parser.Follows
