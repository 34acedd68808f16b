import ExprLang.Parser.Declarations
import ExprLang.Proofs.Parser.Imports

/-!
# Declarations and units, parsed and read

The rules for functions and units do what their readers do.

Main results:

- Theorem {lit}`Parser.functionRule_simulates`: a function.
- Theorem {lit}`Parser.compilationUnit_simulates`: a whole unit.
-/

namespace ExprLang.Parser

open ParserState

variable {base base' : Arena} {s t u : ParserState} {n : Nat} {e : ExpressionRule}
  {e' : ExpressionReader}

/-! ## Arguments -/

/-- Whether a name follows that is an argument of its own. -/
theorem namedArgumentFollows_simulates (hs : s.Valid) :
    namedArgumentFollows.Simulates base Reader.namedArgumentFollows s
      fun a b t => b = a ∧ t = s :=
  .bind_check hs (.bind_lookAhead hs (.pure hs ⟨rfl, rfl⟩))

/-- A name with an optional type and default. -/
theorem namedArgument_simulates (he : Expressions n e e') :
    Within .argument n (namedArgument e) (Reader.namedArgument e') := by
  intro s hs hn
  unfold namedArgument Reader.namedArgument
  refine .bind_name hs fun hname hend => ?_
  have hlt := remaining_advanced_lt hs hend
  have hl : Leads s.arena s s.advanced := .advanced hs
  refine .bind (optionalType_simulates hl.valid) fun _ type t ht htype => ?_
  obtain ⟨rfl, htype⟩ := htype
  have hrem := ht.remaining_le
  refine .bind_rule (hl.trans ht).holds (optionalExpression_simulates ht.valid fun u hu => ?_)
    fun init init' u hu hinit => ?_
  · have hrem' := hu.remaining_le
    exact (he .assignment u hu.valid (by omega)).mono fun _ _ _ _ h => h.1
  have hlead := ht.trans (hu.weaken ht.holds)
  have hless : u.remaining < s.remaining := Nat.lt_of_le_of_lt hlead.remaining_le hlt
  obtain ⟨span, hspan⟩ := exists_spanFrom s.tape.peek.span ((began_advanced s).later hlead)
  refine .bind_left_look hu.valid hspan ?_
  match init, init' with
  | none, none =>
    have hformed : Formed s.arena u .argument (.basicArgument s.tape.peek.text type)
        (.basicArgument s.tape.peek.word.text type) :=
      ⟨⟨rfl, .nil, .nil⟩, .basicArgument hname htype, rfl⟩
    exact (Simulates.build hu.valid hlead.holds hformed).mono fun id tree v _ h =>
      ⟨h.1, h.2 ▸ hless⟩
  | some init, some init' =>
    have hbuilt : Built t.arena u .expression init init' := hinit
    have hformed : Formed s.arena u .argument
        (.defaultArgument s.tape.peek.text type (some init))
        (.defaultArgument s.tape.peek.word.text type init') :=
      ⟨⟨rfl, .cons (.cons (hbuilt.kept.weaken (hl.trans ht).holds) .nil) .nil,
        List.nodup_singleton _⟩, .defaultArgument hname htype hbuilt.written, rfl⟩
    exact (Simulates.build hu.valid hlead.holds hformed).mono fun id tree v _ h =>
      ⟨h.1, h.2 ▸ hless⟩
  | some _, none => exact hinit.elim
  | none, some _ => exact hinit.elim

/-- A pattern for the value of the caller. -/
theorem patternArgument_simulates (he : Expressions n e e') :
    Within .argument n (patternArgument e)
      (do return .patternArgument (← e' .lowest)) := by
  intro s hs hn
  refine .bind (he .lowest s hs hn) fun id tree t ht hbuilt => ?_
  refine .bind_left_look ht.valid (spanOf_eq hbuilt.1.kept.index_lt) ?_
  have hformed : Formed s.arena t .argument (.patternArgument (some id))
      (.patternArgument tree) :=
    ⟨⟨rfl, .cons (.cons hbuilt.1.kept .nil) .nil, List.nodup_singleton _⟩,
      .patternArgument hbuilt.1.written, rfl⟩
  exact (Simulates.build ht.valid ht.holds hformed).mono fun id tree u _ h =>
    ⟨h.1, h.2 ▸ hbuilt.2⟩

/-- An argument of a function. -/
theorem argument_simulates (he : Expressions n e e') :
    Within .argument n (argument e) (Reader.argument e') := by
  intro s hs hn
  refine .bind (namedArgumentFollows_simulates hs) fun _ named t _ h => ?_
  obtain ⟨rfl, rfl⟩ := h
  cases named with
  | true => exact namedArgument_simulates he t hs hn
  | false => exact patternArgument_simulates he t hs hn

/-! ## Functions -/

/-- The body of a function. -/
theorem functionBody_simulates (he : Expressions n e e') (hs : s.Valid) (hn : s.remaining < n) :
    Gives .expression (functionBody e) (Reader.functionBody e') s := by
  unfold functionBody Reader.functionBody
  have hl : Leads s.arena s s.advanced := .advanced hs
  have hrem := hl.remaining_le
  refine .bind_peek hs ?_
  cases hk : s.tape.peek.kind <;> simp only [Token.kind_word, hk]
  case leftBrace =>
    refine .bind_advance hs ?_
    exact blockRule_simulates s.tape.peek he hl.valid (began_advanced s) (by omega)
  case assign =>
    refine .bind_advance hs ?_
    refine .bind (he .lowest s.advanced hl.valid (by omega)) fun id tree t ht h => ?_
    refine .bind_rule ht.holds (terminator_simulates ht.valid) fun _ _ u hu _ => ?_
    exact .pure hu.valid ⟨h.1.kept.later hu, h.1.written⟩
  all_goals exact .fail_unexpected hs

/-- The arguments, the type of the result, and the body of a function stand for such. -/
structure FunctionParts (base : Arena) (t : ParserState)
    (parts : List NodeId × Option String × NodeId) (parts' : List Tree × Option String × Tree) :
    Prop where
  arguments : BuiltAll base t .argument parts.1 parts'.1
  type_eq : parts'.2.1 = parts.2.1
  type : ∀ text, parts.2.1 = some text → IsType text
  body : Built base t .expression parts.2.2 parts'.2.2
  nodup : (parts.1 ++ [parts.2.2]).Nodup

/-- The arguments, the type of the result, and the body of a function. -/
theorem functionRest_simulates (he : Expressions n e e') (hs : s.Valid) (hn : s.remaining < n) :
    (functionRest e).Simulates s.arena (Reader.functionRest e') s
      fun parts parts' t => FunctionParts s.arena t parts parts' := by
  unfold functionRest Reader.functionRest
  refine .bind_expectKind hs fun _ => ?_
  have hl : Leads s.arena s s.advanced := .advanced hs
  have hrem := hl.remaining_le
  refine .bind (argumentList_simulates (argument_simulates he) hl.valid (by omega))
    fun ids trees t ht hall => ?_
  have hrem' := ht.remaining_le
  refine .bind_rule (hl.trans ht).holds (optionalType_simulates ht.valid)
    fun _ type u hu htype => ?_
  obtain ⟨rfl, htype⟩ := htype
  have hlead := ht.trans (hu.weaken ht.holds)
  have hrem'' := hu.remaining_le
  refine .bind_rule hlead.holds (functionBody_simulates he hu.valid (by omega))
    fun id tree v hv hbody => ?_
  have hargs := hall.later hu
  have hkept := hargs.kept.append hv hbody.kept hlead.holds
  exact .pure hv.valid ⟨hargs.later hv, rfl, htype, ⟨hbody.kept.weaken hlead.holds, hbody.written⟩,
    hkept.nodup⟩

/-- The form of a function shows its tree. -/
theorem FunctionParts.shows {name : String} {isInfix : Bool} {scope : ScopeId}
    {parts : List NodeId × Option String × NodeId} {parts' : List Tree × Option String × Tree}
    (h : FunctionParts base t parts parts') :
    Shows base t (.function name isInfix parts.1 parts.2.1 (some parts.2.2) scope)
      (.function name isInfix parts'.1 parts'.2.1 parts'.2.2) := by
  obtain ⟨harguments, htype, -, hbody, hnodup⟩ := h
  refine ⟨?_, .cons harguments.kept.kept (.cons (.cons hbody.kept .nil) .nil), ?_⟩
  · rw [htype]
    rfl
  · simpa [Form.children, Form.childGroups, ChildGroup.children] using hnodup

/-- What the parts of a function stand for stays whatever other rules do. -/
theorem FunctionParts.later {parts : List NodeId × Option String × NodeId}
    {parts' : List Tree × Option String × Tree} (h : FunctionParts base t parts parts')
    (hl : Leads t.arena t u) : FunctionParts base u parts parts' :=
  { h with
    arguments := h.arguments.later hl
    body := ⟨h.body.kept.later hl, h.body.written⟩ }

/-- What is newer than more is newer than less. -/
theorem FunctionParts.weaken {parts : List NodeId × Option String × NodeId}
    {parts' : List Tree × Option String × Tree} (h : FunctionParts base' t parts parts')
    (hb : base'.Holds base) : FunctionParts base t parts parts' :=
  { h with
    arguments := h.arguments.weaken hb
    body := ⟨h.body.kept.weaken hb, h.body.written⟩ }

/-- Building the node of a function, with the errors that its arguments give rise to. -/
theorem functionNode_simulates {name : Token} {isInfix : Bool} {scope : ScopeId} {start : Span}
    {parts : List NodeId × Option String × NodeId} {parts' : List Tree × Option String × Tree}
    (hs : s.Valid) (hbegan : s.Began) (hb : s.arena.Holds base) (hname : IsName name.text)
    (hopened : Opened base s scope)
    (h : FunctionParts base { s with scopes := scope :: s.scopes } parts parts') :
    (do
      if isInfix && parts.1.length != 2 then
        record (← errorAt .semantic name.span (.infixArity name.text))
      let span ← spanFrom start
      let function ← make (.function name.text isInfix parts.1 parts.2.1 (some parts.2.2) scope)
        span
      reportRedefinitions
      return function : Parser NodeId).Simulates base
      (Reader.tidied (.function name.text isInfix parts'.1 parts'.2.1 parts'.2.2)) s
      fun id tree t => Built base t .function id tree ∧ t.remaining = s.remaining := by
  have hwritten : Tree.Written .function
      (.function name.text isInfix parts'.1 parts'.2.1 parts'.2.2) :=
    .function hname h.arguments.written (fun text he => h.type text (h.type_eq ▸ he)) h.body.written
  have hlength : parts.1.length = parts'.1.length := h.arguments.kept.kept.length_eq
  have htidy : (Tree.function name.text isInfix parts'.1 parts'.2.1 parts'.2.2).isTidy =
      (decide (Tree.definedNames (Tree.function name.text isInfix parts'.1 parts'.2.1
        parts'.2.2).children).Nodup && !(isInfix && parts.1.length != 2)) := by
    simp [Tree.isTidy, Tree.children, Tree.groups, hlength]
  -- the state after the error about the number of arguments, if there is one
  have hafter (t : ParserState) (hl : ∀ base, Leads base s t) (hspot : t.spot = s.spot)
      (herrors : t.NoErrors ↔ s.NoErrors ∧ (!(isInfix && parts.1.length != 2)) = true) :
      (do
        let span ← spanFrom start
        let function ← make (.function name.text isInfix parts.1 parts.2.1 (some parts.2.2) scope)
          span
        reportRedefinitions
        return function : Parser NodeId).Ensures t
        (fun id u => Leads base s u ∧ ∃ tree, (Built base u .function id tree ∧
          u.remaining = s.remaining) ∧ (s.Lenient → ∃ clean,
            Reader.tidied (.function name.text isInfix parts'.1 parts'.2.1 parts'.2.2) s.spot =
              ⟨some tree, clean, u.spot⟩ ∧ (u.NoErrors ↔ s.NoErrors ∧ clean = true)))
        fun _ _ => False := by
    obtain ⟨span, hspan⟩ := exists_spanFrom start (hbegan.later (hl base))
    refine Ensures.bind (ensures_of_eq_ok hspan (And.intro rfl rfl))
      (M := fun x u => x = span ∧ u = t) ?_
    rintro _ _ ⟨rfl, rfl⟩
    refine Ensures.mono (Simulates.makeTidied (hl base) hspot herrors
      ((hl s.arena).holds.trans hb) ?_ rfl (hopened.later (hl _)) htidy) ?_ fun _ _ h => h
    · rw [(hl base).scopes]
      exact (h.later ((hl _).inside _)).shows
    · rintro id u ⟨hlu, _, ⟨rfl, hkept, hrem⟩, hc⟩
      exact ⟨hlu, _, ⟨⟨hkept, hwritten⟩, hrem⟩, hc⟩
  cases hc : isInfix && parts.1.length != 2 with
  | false =>
    exact Ensures.mono (hafter s (fun _ => .refl hs) rfl (by simp [hc])) (fun _ _ h => h)
      fun _ _ h => h.elim
  | true =>
    let d : Diagnostic := ⟨s.report.source, .error, .semantic, name.span,
      (Complaint.infixArity name.text).message⟩
    have herrors := not_noErrors_recorded s (d := d) rfl
    exact Ensures.mono (hafter (s.recorded d) (fun _ => .recorded hs rfl) rfl
      (by simp [hc, herrors])) (fun _ _ h => h) fun _ _ h => h.elim

/-- What is left of a function after the word that makes it one for use between arguments. -/
def functionFrom (expression : ExpressionRule) (start : Span) (isInfix : Bool) :
    Parser NodeId := do
  let _ ← expectKind .wordFun
  let name ← name
  let (scope, arguments, returnType, body) ← inScope (functionRest expression)
  if isInfix && arguments.length != 2 then
    record (← errorAt .semantic name.span (.infixArity name.text))
  let span ← spanFrom start
  let function ← make (.function name.text isInfix arguments returnType (some body) scope) span
  reportRedefinitions
  return function

/-- A function. -/
theorem functionRule_simulates (he : Expressions n e e') :
    Within .function n (functionRule e) (Reader.function e') := by
  intro s hs hn
  show Simulates s.arena (peek >>= fun first => skipKind .wordInfix >>= functionFrom e first.span)
    (Reader.skipKind .wordInfix >>= Reader.functionFrom e') s _
  refine .bind_left_look hs (a := s.tape.peek) rfl ?_
  have hrest (isInfix : Bool) (t : ParserState) (ht : Leads s.arena s t) :
      (functionFrom e s.tape.peek.span isInfix).Simulates s.arena
        (Reader.functionFrom e' isInfix)
        t fun id tree u => Built s.arena u .function id tree ∧ u.remaining < s.remaining := by
    refine .bind_expectKind ht.valid fun hk => ?_
    have hlt := remaining_advanced_lt ht.valid (by simp [hk])
    have hfun : Leads s.arena t t.advanced := .advanced ht.valid
    refine .bind_name hfun.valid fun hname _ => ?_
    have hwords := (ht.trans hfun).trans (.advanced hfun.valid)
    have hless : t.advanced.advanced.remaining < s.remaining := by
      have hrem := ht.remaining_le
      have hadvanced : Leads s.arena _ _ := .advanced hfun.valid
      have hrem' := hadvanced.remaining_le
      omega
    refine .bind_rule hwords.holds (Simulates.inScope hwords.valid
      (R := fun parts parts' u => FunctionParts t.advanced.advanced.arena u parts parts')
      fun u hu hholds hrem => ?_) ?_
    · refine (functionRest_simulates he hu (by omega)).mono fun parts parts' v _ h => ?_
      exact h.weaken hholds
    · rintro ⟨scope, parts⟩ parts' u hu ⟨hopened, hparts⟩
      have hbegan := (began_advanced t.advanced).later hu
      refine (functionNode_simulates hu.valid hbegan (hu.holds.trans hwords.holds) hname
        { hopened with fresh := Nat.le_trans hwords.grows.scopeCount_le hopened.fresh }
        (hparts.weaken hwords.holds)).mono fun id tree v _ h => ⟨h.1, ?_⟩
      exact h.2 ▸ Nat.lt_of_le_of_lt hu.remaining_le hless
  refine .bind_skipKind hs (fun _ => hrest true _ (.advanced hs)) fun _ => ?_
  exact hrest false s (.refl hs)

/-! ## Units -/

/-- An import or a function, and its tree. -/
def TopLevel (base : Arena) (t : ParserState) (id : NodeId) (tree : Tree) : Prop :=
  Built base t .importPath id tree ∨ Built base t .function id tree

/-- An import or a function. -/
theorem topLevel_simulates (he : Expressions n e e') (hs : s.Valid) (hn : s.remaining < n) :
    (topLevel e).Simulates s.arena (Reader.topLevel e') s
      fun id tree t => TopLevel s.arena t id tree ∧ t.remaining < s.remaining := by
  unfold topLevel Reader.topLevel
  refine .bind_peek hs ?_
  cases hk : s.tape.peek.kind <;> simp only [Token.kind_word, hk]
  case wordImport =>
    exact (importRule_simulates he s hs hn).mono fun _ _ _ _ h => ⟨.inl h.1, h.2⟩
  case wordFun | wordInfix =>
    exact (functionRule_simulates he s hs hn).mono fun _ _ _ _ h => ⟨.inr h.1, h.2⟩
  all_goals exact .fail_unexpected hs

/-- One more item is added to one of the two lists. -/
theorem perm_push (items : UnitItems) (id : NodeId) (form : Form) :
    ((items.imports ++ items.declarations) ++ [id]).Perm
      ((items.push id form).imports ++ (items.push id form).declarations) := by
  cases form with
  | importPath =>
    simp only [UnitItems.push, List.append_assoc]
    exact List.Perm.append_left _ List.perm_append_comm
  | _ => exact .of_eq (List.append_assoc ..)

/-- The items of a unit stand for trees. -/
structure Items (base : Arena) (t : ParserState) (items : UnitItems) (items' : TreeItems) :
    Prop where
  imports : BuiltAll base t .importPath items.imports items'.imports
  declarations : BuiltAll base t .function items.declarations items'.declarations
  disjoint : items.imports.Disjoint items.declarations
  began : items.imports ++ items.declarations ≠ [] → t.Began

namespace Items

variable {items : UnitItems} {items' : TreeItems}

/-- No items. -/
theorem empty (base : Arena) (t : ParserState) : Items base t ⟨[], []⟩ ⟨[], []⟩ :=
  ⟨.nil .., .nil .., List.disjoint_nil_left _, fun h => absurd rfl h⟩

/-- Items stand for the same trees after what another rule does. -/
theorem later (h : Items base t items items') (hl : Leads t.arena t u) :
    Items base u items items' :=
  { h with
    imports := h.imports.later hl
    declarations := h.declarations.later hl
    began := fun hne => (h.began hne).later hl }

/-- One more item. -/
theorem push {id : NodeId} {tree : Tree} {form : Form} (h : Items base t items items')
    (hl : Leads t.arena t u) (hb : t.arena.Holds base) (hitem : TopLevel t.arena u id tree)
    (hform : form.bare = tree.shape) (hbegan : u.Began) :
    Items base u (items.push id form) (items'.push tree) := by
  have hfresh : t.arena.size ≤ id.index := by
    rcases hitem with hitem | hitem
    · exact hitem.kept.fresh
    · exact hitem.kept.fresh
  have hnew {role : Role} {ids : List NodeId} {trees : List Tree}
      (hall : BuiltAll base t role ids trees) : id ∉ ids := fun hid =>
    Nat.not_le_of_lt (hall.kept.index_lt hid) hfresh
  rcases hitem with hitem | hitem
  · have hkind : items.push id form = { items with imports := items.imports ++ [id] } ∧
        items'.push tree = { items' with imports := items'.imports ++ [tree] } := by
      cases hitem.written
      cases form <;> cases hform
      exact ⟨rfl, rfl⟩
    rw [hkind.1, hkind.2]
    refine ⟨h.imports.append hl hitem hb, h.declarations.later hl, ?_, fun _ => hbegan⟩
    exact List.disjoint_append_left.2
      ⟨h.disjoint, List.singleton_disjoint.2 (hnew h.declarations)⟩
  · have hkind : items.push id form = { items with declarations := items.declarations ++ [id] } ∧
        items'.push tree = { items' with declarations := items'.declarations ++ [tree] } := by
      cases hitem.written
      cases form <;> cases hform
      exact ⟨rfl, rfl⟩
    rw [hkind.1, hkind.2]
    refine ⟨h.imports.later hl, h.declarations.append hl hitem hb, ?_, fun _ => hbegan⟩
    exact List.disjoint_append_right.2
      ⟨h.disjoint, List.disjoint_singleton.2 (hnew h.imports)⟩

end Items

/-- One more item of a unit, or its end. -/
theorem unitStep_simulates {items : UnitItems} {items' : TreeItems} (hs : s.Valid)
    (hb : s.arena.Holds base) (h : Items base s items items') :
    (unitStep items).Simulates base (Reader.unitStep items') s
      (Simulates.StepRel (fun items items' t => Items base t items items')
        (fun items items' t => Items base t items items') s.remaining) := by
  unfold unitStep Reader.unitStep
  refine .bind_checkKind hs (fun _ => .pure hs h) fun hend => ?_
  have hne : s.remaining ≠ 0 := fun h0 =>
    hend (hs.regular.words_eq_nil_iff.1 (List.length_eq_zero_iff.1 h0))
  refine .bind_rule hb (.synchronized _ hs (.bind_bound fun n m hn hm =>
    topLevel_simulates (expressionWithin_simulates n m) hs (Nat.lt_min.2 ⟨hn, hm⟩)))
    fun id? tree? t hl hsync => ?_
  match id?, tree? with
  | none, none => exact .pure hl.valid ⟨h.later hl, hsync hne⟩
  | some id, some tree =>
    obtain ⟨hitem, hlt⟩ : TopLevel s.arena t id tree ∧ t.remaining < s.remaining := hsync
    have hform : ∃ form, formOf id t = .ok form t ∧ form.bare = tree.shape := by
      rcases hitem with hitem | hitem
      · exact hitem.kept.exists_formOf
      · exact hitem.kept.exists_formOf
    obtain ⟨form, hform, hbare⟩ := hform
    refine .bind_left_look hl.valid hform ?_
    exact .pure hl.valid ⟨h.push hl hb hitem hbare (hl.began hlt), hlt⟩
  | some _, none => exact hsync.elim
  | none, some _ => exact hsync.elim

/-- A whole unit. -/
theorem compilationUnit_simulates (hs : s.Valid) :
    Gives .unit compilationUnit Reader.compilationUnit s := by
  unfold compilationUnit Reader.compilationUnit
  refine .bind (Simulates.inScope (r := Reader.unitItems) hs
    (R := fun items items' t => Items s.arena t items items') fun u hu hholds _ => ?_) ?_
  · refine .bind_bound fun n m hn hm => ?_
    refine .mono (.loop (fun items items' t => Items u.arena t items items')
      (fun items items' t hl h => unitStep_simulates hl.valid hl.holds h) hu (.empty ..) hn hm)
      fun items items' t _ h => ?_
    exact ⟨h.imports.weaken hholds, h.declarations.weaken hholds, h.disjoint, h.began⟩
  · rintro ⟨scope, items⟩ items' t hl ⟨hopened, hitems⟩
    have hspan : ∃ span, unitSpan items t = .ok span t := by
      unfold unitSpan
      cases hfirst : items.imports.head?.or items.declarations.head? with
      | none => exact ⟨t.tape.peek.span, rfl⟩
      | some first =>
        have hmem : first ∈ items.imports ++ items.declarations :=
          List.mem_of_head? (by rw [List.head?_append, hfirst])
        have hlt : first.index < t.arena.size := (List.mem_append.1 hmem).elim
          hitems.imports.kept.index_lt hitems.declarations.kept.index_lt
        have hbegan : t.Began := hitems.began (List.ne_nil_of_mem hmem)
        obtain ⟨span, hspan⟩ := exists_spanFrom ((t.arena.position? first).getD Span.zero) hbegan
        exact ⟨span, (bind_eq_of_eq_ok (spanOf_eq hlt)).trans hspan⟩
    obtain ⟨span, hspan⟩ := hspan
    refine .bind_left_look hl.valid hspan ?_
    have hshows : Shows s.arena { t with scopes := scope :: t.scopes }
        (.compilationUnit items.imports items.declarations scope)
        (.compilationUnit items'.imports items'.declarations) := by
      refine ⟨rfl, .cons hitems.imports.kept.kept (.cons hitems.declarations.kept.kept .nil), ?_⟩
      have hnodup := List.nodup_append'.2 ⟨hitems.imports.kept.nodup,
        hitems.declarations.kept.nodup, hitems.disjoint⟩
      simpa [Form.children, Form.childGroups, ChildGroup.children] using hnodup
    refine (Simulates.buildTidied hl.valid hl.holds hshows
      (.compilationUnit hitems.imports.written hitems.declarations.written) rfl hopened ?_).mono
      fun id tree u _ h => h.1
    simp [Tree.isTidy, Tree.children, Tree.groups]

end ExprLang.Parser
