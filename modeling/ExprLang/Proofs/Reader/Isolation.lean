import ExprLang.Proofs.Reader.Brackets
import ExprLang.Proofs.Reader.Tape

/-!
# Declarations after broken text

Words before a declaration that leave nothing open are over where the declaration
begins: no rule reads or skips past that place, however malformed they are.  So a
reader of units comes to the declaration, and reads it and all that follows as if
nothing were before it.

Main definitions:

- Definition {lit}`Before`: places before a declaration.
- Definition {lit}`Reader.Holds`: what a unit holds from a place on.

Main results:

- Theorem {lit}`Before.skipWords`: skipping after an error does not go past the
  declaration.
- Theorem {lit}`Before.enclosure`: no rule inside a declaration does.
- Theorem {lit}`Reader.exists_holds_append`: a unit ends with what it holds from the
  declaration on.
-/

namespace ExprLang

/-! ## Places before a declaration -/

/-- Words that begin with a declaration. -/
def BeginsDeclaration (words : List Word) : Prop :=
  ∃ w ws, words = w :: ws ∧ w.kind.isDeclaration = true

/-- The words to come are some that close whatever is open, and then those of a declaration and
what follows it.  Some brackets that are open there are given.  The last of the words before the
declaration does not belong to it. -/
def Before (words : List Word) (nest : Nest) (ws : List Word) : Prop :=
  ∃ (broken : List Word) (opened : Nest), ws = broken ++ words ∧
    opened.run? (broken.map Word.kind) = some [] ∧ nest.Sublist opened ∧
      ∀ w ∈ broken.getLast?, w.kind ≠ .wordInfix

namespace Before

variable {words ws : List Word} {nest : Nest} {w : Word} {stop : Expectation}

/-- Where something is given as open the declaration has not begun. -/
theorem ne_of_ne_nil (h : Before words nest ws) (hne : nest ≠ []) : ws ≠ words := by
  obtain ⟨broken, opened, rfl, hrun, hsub, -⟩ := h
  intro heq
  obtain rfl : broken = [] := List.append_left_eq_self.1 heq
  cases hrun
  exact hne (List.sublist_nil.1 hsub)

/-- The word that makes a function one for use between arguments is not the last one before the
declaration. -/
theorem ne_of_wordInfix (h : Before words nest (w :: ws)) (hne : w :: ws ≠ words)
    (hw : w.kind = .wordInfix) : ws ≠ words := by
  obtain ⟨broken, opened, heq, -, -, hlast⟩ := h
  rintro rfl
  cases broken with
  | nil => exact hne heq
  | cons v broken =>
    obtain ⟨rfl, hws⟩ := List.cons.inj heq
    obtain rfl : broken = [] := List.append_left_eq_self.1 hws.symm
    exact hlast w rfl hw

/-- Before the declaration has begun there is a next word, and what it does not close stays
open. -/
theorem next (h : Before words nest (w :: ws)) (hne : w :: ws ≠ words) :
    ∃ opened after : Nest, nest.Sublist opened ∧ opened.next? w.kind = some after ∧
      ∀ inner : Nest, inner.Sublist after → Before words inner ws := by
  obtain ⟨broken, opened, heq, hrun, hsub, hlast⟩ := h
  cases broken with
  | nil => exact absurd heq hne
  | cons v broken =>
    rw [List.cons_append, List.cons.injEq] at heq
    obtain ⟨rfl, rfl⟩ := heq
    rw [List.map_cons, Nest.run?_cons] at hrun
    obtain ⟨after, hnext, hrest⟩ := Option.bind_eq_some_iff.1 hrun
    refine ⟨opened, after, hsub, hnext, fun inner hinner => ⟨broken, after, rfl, hrest, hinner, ?_⟩⟩
    intro u hu
    refine hlast u ?_
    rw [List.getLast?_cons, Option.mem_some_iff]
    cases broken with
    | nil => cases hu
    | cons x xs => simpa [List.getLast?_cons] using hu

/-- A word that is passed over leaves open what it does not close. -/
theorem pass (h : Before words nest (w :: ws)) (hne : w :: ws ≠ words)
    (hw : ∀ bracket, w.kind.closes? = some bracket → nest.head? ≠ some bracket) :
    Before words nest ws := by
  obtain ⟨opened, after, hsub, hnext, hall⟩ := h.next hne
  exact hall nest (Nest.sublist_of_next? hnext hsub hw)

/-- A word that is passed over opens a bracket. -/
theorem opened {bracket : Bracket} (h : Before words nest (w :: ws)) (hne : w :: ws ≠ words)
    (hw : w.kind.opens? = some bracket) : Before words (bracket :: nest) ws := by
  obtain ⟨opened, after, hsub, hnext, hall⟩ := h.next hne
  rw [Nest.next?_of_opens? hw] at hnext
  cases hnext
  exact hall _ (hsub.cons_cons bracket)

/-- A word that is passed over closes a bracket. -/
theorem closed {bracket : Bracket} (h : Before words (bracket :: nest) (w :: ws))
    (hw : w.kind.closes? = some bracket) : Before words nest ws := by
  obtain ⟨opened, after, hsub, hnext, hall⟩ := h.next (h.ne_of_ne_nil (by simp))
  exact hall _ (Nest.sublist_of_close hnext hw hsub)

/-- Less may be given as open. -/
theorem inner {outer : Nest} (h : Before words nest ws) (ho : outer <:+ nest) :
    Before words outer ws := by
  obtain ⟨broken, opened, heq, hrun, hsub, hlast⟩ := h
  exact ⟨broken, opened, heq, hrun, ho.sublist.trans hsub, hlast⟩

/-! ## Skipping -/

/-- Skipping stops before what closes the innermost bracket, and before the declaration where
nothing is open. -/
structure Stops (stop : Expectation) (nest : Nest) (words : List Word) : Prop where
  closing : ∀ kind bracket, kind.closes? = some bracket → nest.head? = some bracket →
    stop.accepts kind = true
  declaration : nest = [] → ∀ w ∈ words.head?, stop.accepts w.kind = true

/-- Skipping after an error does not go past the declaration, nor past what closes the innermost
bracket.  Unless it may stop at once, the next word must not be either of these. -/
theorem skipWords (hs : Stops stop nest words) {mayStop : Bool} {depth : Nat}
    (h : Before words (List.replicate depth .brace ++ nest) ws)
    (hfirst : mayStop = false → depth = 0 ∧ ws ≠ words ∧ ∀ w ∈ ws.head?, ∀ bracket,
      w.kind.closes? = some bracket → nest.head? ≠ some bracket) (afterBrace : Bool) :
    Before words nest (Spot.skipWords stop mayStop depth ws afterBrace).words := by
  induction ws generalizing mayStop depth afterBrace with
  | nil => exact h.inner (List.suffix_append ..)
  | cons w ws ih =>
    rw [Spot.skipWords]
    split
    · exact h.inner (List.suffix_append ..)
    · rename_i hgoes
      have hcloses : depth = 0 → ∀ bracket, w.kind.closes? = some bracket →
          nest.head? ≠ some bracket := by
        rintro rfl bracket hk hhead
        cases mayStop with
        | true => exact hgoes (by simp [hs.closing _ _ hk hhead])
        | false => exact (hfirst rfl).2.2 w rfl bracket hk hhead
      have hne : w :: ws ≠ words := by
        intro heq
        cases mayStop with
        | false => exact (hfirst rfl).2.1 heq
        | true =>
          have hnil : List.replicate depth Bracket.brace ++ nest = [] := by
            by_contra hne
            exact h.ne_of_ne_nil hne heq
          obtain ⟨hdepth, hnest⟩ := List.append_eq_nil_iff.1 hnil
          have hzero : depth = 0 := by simpa using hdepth
          exact hgoes (by simp [hzero, hs.declaration hnest w (by rw [← heq]; rfl)])
      have hstays (hk : w.kind ≠ .rightBrace) :
          Before words (List.replicate depth .brace ++ nest) ws := by
        refine h.pass hne fun bracket hc => ?_
        cases depth with
        | zero => exact hcloses rfl bracket hc
        | succ depth =>
          rintro ⟨⟩
          cases hkind : w.kind <;> rw [hkind] at hc hk <;> cases hc
          exact hk rfl
      have hnext (depth : Nat) (hb : Before words (List.replicate depth .brace ++ nest) ws)
          (afterBrace : Bool) :
          Before words nest (Spot.skipWords stop true depth ws afterBrace).words :=
        ih hb (fun hf => absurd hf (by decide)) afterBrace
      dsimp only
      split
      · rename_i hk
        split
        · exact (hstays (by rw [hk]; decide)).inner (List.suffix_append ..)
        · exact hnext depth (hstays (by rw [hk]; decide)) _
      · rename_i hk
        exact hnext (depth + 1) (h.opened hne (by rw [hk]; rfl)) _
      · rename_i hk
        refine hnext (depth - 1) ?_ _
        cases depth with
        | zero => exact h.pass hne (hcloses rfl)
        | succ depth => exact h.closed (by rw [hk]; rfl)
      · rename_i hk
        exact hnext depth (hstays hk) _

/-- A token that closes a brace is a closing brace. -/
theorem eq_rightBrace_of_closes? {kind : TokenKind} (h : kind.closes? = some .brace) :
    kind = .rightBrace := by
  cases kind <;> first | rfl | cases h

/-- Skipping after an error in a statement stays inside the block. -/
theorem skip_statement (h : Before words (.brace :: nest) ws) (mayStop : Bool)
    (hw : mayStop = false → ∀ w ∈ ws.head?, w.kind ≠ .rightBrace) (afterBrace : Bool) :
    Before words (.brace :: nest)
      (Spot.skipWords statementStop mayStop 0 ws afterBrace).words := by
  have hstops : Stops statementStop (.brace :: nest) words := by
    refine ⟨fun kind bracket hk hhead => ?_, nofun⟩
    cases hhead
    rw [eq_rightBrace_of_closes? hk]
    rfl
  have hinside : Before words (List.replicate 0 .brace ++ .brace :: nest) ws := h
  refine skipWords hstops hinside (fun hfirst => ⟨rfl, h.ne_of_ne_nil (by simp), ?_⟩) afterBrace
  intro w hmem bracket hk hhead
  cases hhead
  exact hw hfirst w hmem (eq_rightBrace_of_closes? hk)

/-- Skipping stops before what ends a part of a string. -/
theorem stops_partStop {bracket : Bracket} (hb : bracket ≠ .brace) :
    Stops partStop (bracket :: nest) words := by
  refine ⟨fun kind other hk hhead => ?_, nofun⟩
  cases hhead
  cases kind <;> cases hk <;> first | rfl | exact absurd rfl hb

/-- Skipping after an error in a placeholder stays inside the string.  It goes past the end of the
placeholder where there is nothing in the placeholder. -/
theorem skip_part (h : Before words (.placeholder :: .string :: nest) ws)
    (mayStop afterBrace : Bool) :
    Before words (.string :: nest) (Spot.skipWords partStop mayStop 0 ws afterBrace).words := by
  by_cases hend : mayStop = false ∧ ∃ w ∈ ws.head?, w.kind = .templateEnd
  · obtain ⟨rfl, w, hw, hk⟩ := hend
    cases ws with
    | nil => cases hw
    | cons v ws =>
      cases hw
      have hclosed : Before words (.string :: nest) ws := h.closed (by rw [hk]; rfl)
      rw [Spot.skipWords, if_neg (by simp)]
      simp only [hk]
      exact skipWords (stops_partStop (by decide)) hclosed (fun hf => absurd hf (by decide)) _
  · refine inner (skipWords (stops_partStop (by decide)) h (fun hfirst => ?_) afterBrace)
      (List.suffix_cons ..)
    refine ⟨rfl, h.ne_of_ne_nil (by simp), ?_⟩
    intro w hw bracket hk hhead
    cases hhead
    refine hend ⟨hfirst, w, hw, ?_⟩
    cases hkind : w.kind <;> rw [hkind] at hk <;> first | rfl | cases hk

/-- No rule inside a declaration reads or skips past the place where the next declaration begins
that nothing is open before. -/
theorem enclosure (hb : BeginsDeclaration words) : Enclosure (Before words) := by
  have hne {v : Word} {vs : List Word} (hv : v.kind.isDeclaration = false) : v :: vs ≠ words := by
    obtain ⟨w, ws, rfl, hw⟩ := hb
    intro heq
    rw [(List.cons.inj heq).1, hw] at hv
    cases hv
  have hopens {kind : TokenKind} {bracket : Bracket} (hk : kind.opens? = some bracket) :
      kind.isDeclaration = false := by
    cases kind <;> first | rfl | cases hk
  exact {
    inner := fun h ho => h.inner ho
    pass := fun h hw => h.pass (hne hw.1) fun _ hc => hw.head?_ne hc
    opened := fun h hw => h.opened (hne (hopens hw)) hw
    closed := fun h hw => h.closed hw
    skip_statement := fun h mayStop hw afterBrace => h.skip_statement mayStop hw afterBrace
    skip_part := fun h mayStop afterBrace => h.skip_part mayStop afterBrace }

end Before

/-- Of every place it holds that something holds of it: what it means to move forward alone. -/
theorem enclosure_true : Enclosure fun _ _ => True where
  inner _ _ := trivial
  pass _ _ := trivial
  opened _ _ := trivial
  closed _ _ := trivial
  skip_statement _ _ _ _ := trivial
  skip_part _ _ _ := trivial

namespace Reader

variable {p q : Spot} {n : Nat}

/-! ## Declarations -/

/-- A reader stays inside brackets, whatever holds on inside them. -/
def Confined (r : Reader α) : Prop :=
  ∀ P, Enclosure P → Stays P r

/-- A confined reader moves forward. -/
theorem Confined.suffix {r : Reader α} (h : Confined r) (p : Spot) :
    (r p).rest.words <:+ p.words :=
  (h _ enclosure_true [] p trivial).1

/-- A confined reader does not go past the next declaration. -/
theorem Confined.before {r : Reader α} (h : Confined r) {words : List Word}
    (hb : BeginsDeclaration words) (hp : Before words [] p.words) :
    Before words [] (r p).rest.words :=
  (h _ (Before.enclosure hb) [] p hp).2

/-- Where a word has to come, what comes after it goes on behind it. -/
theorem expectKind_bind_of_peek {kind : TokenKind} (r : Reader α) (h : p.peek.kind = kind) :
    (expectKind kind >>= fun _ => r) p = r p.advance := by
  have hword : expectKind kind p = ⟨some p.peek, true, p.advance⟩ := by
    rw [expectKind, expect_apply, if_pos (by simp [h])]
  rw [bind_apply_of_some hword]
  rfl

/-- Where another word comes, nothing comes after it. -/
theorem expectKind_bind_of_peek_ne {kind : TokenKind} (r : Reader α) (h : p.peek.kind ≠ kind) :
    (expectKind kind >>= fun _ => r) p = ⟨none, true, p⟩ := by
  have hword : expectKind kind p = ⟨none, true, p⟩ := by
    rw [expectKind, expect_apply, if_neg (by simpa using Ne.symm h)]
  exact bind_apply_of_none hword

variable {E : ExpressionReader}

/-- What a declaration is depends on the next word. -/
theorem topLevel_apply (E : ExpressionReader) (p : Spot) :
    topLevel E p = (match p.peek.kind with
      | .wordImport => importRule E
      | .wordFun | .wordInfix => function E
      | _ => fail : Reader Tree) p := rfl

/-- An import goes on behind its first word. -/
theorem topLevel_of_wordImport (h : p.peek.kind = .wordImport) :
    topLevel E p = importTail E p.advance := by
  rw [topLevel_apply, h]
  exact expectKind_bind_of_peek (importTail E) h

/-- A function goes on behind its first word. -/
theorem topLevel_of_wordFun (h : p.peek.kind = .wordFun) :
    topLevel E p = functionTail E false p.advance := by
  have hskip : skipKind .wordInfix p = ⟨some false, true, p⟩ := by
    rw [skipKind_apply, h]
    rfl
  rw [topLevel_apply, h]
  refine (bind_apply_of_some hskip).trans ?_
  exact expectKind_bind_of_peek (functionTail E false) h

/-- A function for use between arguments goes on behind its first word with another one. -/
theorem topLevel_of_wordInfix (h : p.peek.kind = .wordInfix) :
    topLevel E p = (expectKind .wordFun >>= fun _ => functionTail E true) p.advance := by
  have hskip : skipKind .wordInfix p = ⟨some true, true, p.advance⟩ := by
    rw [skipKind_apply, h]
    rfl
  rw [topLevel_apply, h]
  exact bind_apply_of_some hskip

/-- A declaration that begins with words of some kinds does not depend on the word before it. -/
theorem topLevel_congr (h : p.peek.kind.isDeclaration = true) (hwords : p.words = q.words) :
    topLevel E p = topLevel E q := by
  obtain ⟨_ | ⟨w, ws⟩, flag⟩ := p
  · cases h
  obtain ⟨vs, flag'⟩ := q
  cases hwords
  rcases Bool.or_eq_true_iff.1 h with hfun | himport
  · have hkind (flag : Bool) : (Spot.mk (w :: ws) flag).peek.kind = .wordFun := eq_of_beq hfun
    exact (topLevel_of_wordFun (hkind flag)).trans (topLevel_of_wordFun (hkind flag')).symm
  · have hkind (flag : Bool) : (Spot.mk (w :: ws) flag).peek.kind = .wordImport :=
      eq_of_beq himport
    exact (topLevel_of_wordImport (hkind flag)).trans (topLevel_of_wordImport (hkind flag')).symm

/-- Where a declaration goes on after the words that begin it. -/
inductive Started (p : Spot) : Spot → Prop
  | one (h : p.peek.kind.isDeclaration = true ∨ p.peek.kind = .wordInfix) : Started p p.advance
  | two (h : p.peek.kind = .wordInfix) (hfun : p.advance.peek.kind = .wordFun) :
    Started p p.advance.advance

/-- A declaration goes on after the words that begin it with a confined reader, unless there are
none. -/
theorem exists_started (n : Nat) (p : Spot) :
    (topLevel (expressionWithin n) p = ⟨none, true, p⟩) ∨
      ∃ (r : Reader Tree) (q : Spot), Confined r ∧ Started p q ∧
        topLevel (expressionWithin n) p = r q := by
  have hE {P : Nest → List Word → Prop} (hP : Enclosure P) (min : Precedence) :
      Stays P (expressionWithin n min) := stays_expressionWithin n min
  cases hk : p.peek.kind with
  | wordImport =>
    have hr : Confined (importTail (expressionWithin n)) := fun P hP => stays_importTail (hE hP)
    exact .inr ⟨_, _, hr, .one (.inl (by rw [hk]; rfl)), topLevel_of_wordImport hk⟩
  | wordFun =>
    have hr : Confined (functionTail (expressionWithin n) false) :=
      fun P hP => stays_functionTail (hE hP) false
    exact .inr ⟨_, _, hr, .one (.inl (by rw [hk]; rfl)), topLevel_of_wordFun hk⟩
  | wordInfix =>
    by_cases hfun : p.advance.peek.kind = .wordFun
    · have hr : Confined (functionTail (expressionWithin n) true) :=
        fun P hP => stays_functionTail (hE hP) true
      refine .inr ⟨_, _, hr, .two hk hfun, ?_⟩
      rw [topLevel_of_wordInfix hk, expectKind_bind_of_peek _ hfun]
    · have hr : Confined (fail : Reader Tree) := fun P hP => stays_fail
      refine .inr ⟨_, _, hr, .one (.inr hk), ?_⟩
      rw [topLevel_of_wordInfix hk, expectKind_bind_of_peek_ne _ hfun]
      rfl
  | _ =>
    left
    rw [topLevel_apply, hk]
    rfl

/-- The words that begin a declaration are passed over. -/
theorem Started.suffix (h : Started p q) :
    q.words <:+ p.words ∧ q.words.length < p.words.length := by
  obtain ⟨_ | ⟨w, ws⟩, flag⟩ := p
  · cases h with
    | one h => rcases h with h | h <;> cases h
    | two h _ => cases h
  · cases h with
    | one h => exact ⟨List.suffix_cons .., Nat.lt_succ_self _⟩
    | two h hfun =>
      rw [Spot.words_advance, Spot.words_advance]
      refine ⟨(List.tail_suffix ws).trans (List.suffix_cons ..), ?_⟩
      simp only [List.tail_cons, List.length_tail, List.length_cons]
      omega

/-- The words that begin a broken declaration are before the next one. -/
theorem Started.before {words : List Word} (h : Started p q) (hp : Before words [] p.words)
    (hne : p.words ≠ words) : Before words [] q.words := by
  have hnext {p : Spot} (hp : Before words [] p.words) (hne : p.words ≠ words) :
      Before words [] p.advance.words := by
    obtain ⟨_ | ⟨w, ws⟩, flag⟩ := p
    · exact hp
    · exact hp.pass hne nofun
  cases h with
  | one h => exact hnext hp hne
  | two h hfun =>
    refine hnext (hnext hp hne) ?_
    obtain ⟨_ | ⟨w, ws⟩, flag⟩ := p
    · cases h
    · exact hp.ne_of_wordInfix hne h

/-! ## Items of a unit -/

/-- Where the parse of a unit goes on after an error. -/
def declarationStop : Expectation := .category [.declarationStart]

/-- An item of a unit, or none after an error. -/
def unitItem : Reader (Option Tree) :=
  synchronized declarationStop do topLevel (expressionWithin (← bound))

/-- At the end of the source a unit ends. -/
theorem unitStep_of_end (items : TreeItems) (hp : p.peek.kind = .endOfFile) :
    unitStep items p = ⟨some (.inr items), true, p⟩ := by
  unfold unitStep checkKind
  rw [bind_apply_of_some (check_apply (.kind .endOfFile) p), hp]
  rfl

/-- Elsewhere a unit goes on with an item. -/
theorem unitStep_of_item (items : TreeItems) (hp : p.peek.kind ≠ .endOfFile) :
    unitStep items p = (do
      let item ← unitItem
      return .inl (item.elim items items.push) : Reader (TreeItems ⊕ TreeItems)) p := by
  have hkind : (Expectation.kind .endOfFile).accepts p.peek.kind = false := by
    simpa using Ne.symm hp
  unfold unitStep checkKind
  rw [bind_apply_of_some (check_apply (.kind .endOfFile) p), hkind, if_neg Bool.false_ne_true]
  simp only [Bool.true_and]
  rfl

/-- What an item is read from. -/
theorem unitItem_apply (p : Spot) :
    unitItem p =
      synchronized declarationStop (topLevel (expressionWithin (p.words.length + 1))) p := by
  have hread : (do topLevel (expressionWithin (← bound)) : Reader Tree) p =
      topLevel (expressionWithin (p.words.length + 1)) p := by
    rw [bind_apply_of_some (show bound p = ⟨some (p.words.length + 1), true, p⟩ from rfl)]
    simp only [Bool.true_and]
  unfold unitItem synchronized
  rw [hread]

/-- An item uses up words, if there are any. -/
theorem exists_unitItem (p : Spot) (hp : p.words ≠ []) :
    ∃ item clean rest, unitItem p = ⟨some item, clean, rest⟩ ∧ rest.words <:+ p.words ∧
      rest.words.length < p.words.length := by
  have hskip {q : Spot} (hq : q.words <:+ p.words) :
      (q.skip declarationStop p.words.length).words <:+ p.words ∧
        (q.skip declarationStop p.words.length).words.length < p.words.length :=
    ⟨(Spot.words_skipWords_suffix ..).trans hq,
      Spot.length_skip_lt declarationStop (by simpa using hp) hq.length_le⟩
  rw [unitItem_apply]
  unfold synchronized
  rcases exists_started (p.words.length + 1) p with hnone | ⟨r, q, hr, hstart, htop⟩
  · rw [hnone]
    exact ⟨none, false, _, rfl, hskip List.suffix_rfl⟩
  · rw [htop]
    have hsuffix := (hr.suffix q).trans hstart.suffix.1
    have hlt := Nat.lt_of_le_of_lt (hr.suffix q).length_le hstart.suffix.2
    rcases hrq : r q with ⟨_ | tree, clean, rest⟩
    · rw [hrq] at hsuffix
      exact ⟨none, false, _, rfl, hskip hsuffix⟩
    · rw [hrq] at hsuffix hlt
      exact ⟨some tree, clean, rest, rfl, hsuffix, hlt⟩

/-- An item that begins before a declaration ends before it. -/
theorem before_unitItem {words : List Word} (hb : BeginsDeclaration words)
    (hp : Before words [] p.words) (hne : p.words ≠ words) :
    Before words [] (unitItem p).rest.words := by
  have hstops : Before.Stops declarationStop [] words := by
    refine ⟨nofun, fun _ w hw => ?_⟩
    obtain ⟨v, vs, rfl, hv⟩ := hb
    cases hw
    cases hk : w.kind <;> rw [hk] at hv <;> first | rfl | cases hv
  -- where no word was used up, the place is the one where the item began
  have hskip {q : Spot} (hq : Before words [] q.words) (hsuffix : q.words <:+ p.words) :
      Before words [] (q.skip declarationStop p.words.length).words := by
    have hinside : Before words (List.replicate 0 .brace ++ []) q.words := hq
    refine Before.skipWords hstops hinside (fun hfirst => ⟨rfl, ?_, nofun⟩) _
    have hwords : q.words = p.words :=
      hsuffix.eq_of_length_le (Nat.not_lt.1 (of_decide_eq_false hfirst))
    rwa [hwords]
  rw [unitItem_apply]
  unfold synchronized
  rcases exists_started (p.words.length + 1) p with hnone | ⟨r, q, hr, hstart, htop⟩
  · rw [hnone]
    exact hskip hp List.suffix_rfl
  · rw [htop]
    have hrest := hr.before hb (hstart.before hp hne)
    have hsuffix := (hr.suffix q).trans hstart.suffix.1
    rcases hrq : r q with ⟨_ | tree, clean, rest⟩
    · rw [hrq] at hrest hsuffix
      exact hskip hrest hsuffix
    · rw [hrq] at hrest
      exact hrest

end Reader

namespace TreeItems

/-- No items. -/
def empty : TreeItems := ⟨[], []⟩

/-- The items of one list and then those of another, imports and declarations apart. -/
def append (items more : TreeItems) : TreeItems :=
  ⟨items.imports ++ more.imports, items.declarations ++ more.declarations⟩

@[simp] theorem append_empty (items : TreeItems) : items.append empty = items := by
  simp [append, empty]

@[simp] theorem empty_append (items : TreeItems) : empty.append items = items := rfl

theorem append_assoc (a b c : TreeItems) : (a.append b).append c = a.append (b.append c) := by
  simp [append]

/-- One more item is an item after the others. -/
theorem push_eq (items : TreeItems) (tree : Tree) :
    items.push tree = items.append (empty.push tree) := by
  cases tree <;> simp [push, append, empty]

end TreeItems

namespace Reader

variable {p q : Spot} {items : TreeItems}

/-- From a place on the steps of a unit read some items, whatever was read before, within every
bound that the words to come are below. -/
def Holds (p : Spot) (items : TreeItems) : Prop :=
  ∃ clean rest, ∀ n before, p.words.length < n →
    loop unitStep n before p = ⟨some (before.append items), clean, rest⟩

/-- At the end of the source there are no items. -/
theorem holds_end (hp : p.peek.kind = .endOfFile) : Holds p .empty := by
  refine ⟨true, p, fun n before hn => ?_⟩
  cases n with
  | zero => exact absurd hn (Nat.not_lt_zero _)
  | succ n =>
    rw [loop, bind_apply_of_some (unitStep_of_end before hp), TreeItems.append_empty]
    rfl

/-- One item and then the others. -/
theorem Holds.step {item : Option Tree} {clean : Bool} (hp : p.peek.kind ≠ .endOfFile)
    (hitem : unitItem p = ⟨some item, clean, q⟩) (hlt : q.words.length < p.words.length)
    (h : Holds q items) : Holds p ((item.elim .empty TreeItems.empty.push).append items) := by
  obtain ⟨clean', rest, hrest⟩ := h
  refine ⟨clean && clean', rest, fun n before hn => ?_⟩
  cases n with
  | zero => exact absurd hn (Nat.not_lt_zero _)
  | succ n =>
    have hstep : unitStep before p = ⟨some (.inl (item.elim before before.push)), clean, q⟩ := by
      rw [unitStep_of_item before hp, bind_apply_of_some hitem]
      simp [pure_apply]
    have hitems : item.elim before before.push =
        before.append (item.elim .empty TreeItems.empty.push) := by
      cases item with
      | none => rw [Option.elim_none, Option.elim_none, TreeItems.append_empty]
      | some tree => exact before.push_eq tree
    rw [loop, bind_apply_of_some hstep]
    dsimp only
    rw [hrest n _ (by omega), hitems, TreeItems.append_assoc]

/-- A unit holds items from every place on. -/
theorem exists_holds (p : Spot) : ∃ items, Holds p items := by
  induction hn : p.words.length using Nat.strongRecOn generalizing p with
  | _ n ih =>
    by_cases hp : p.peek.kind = .endOfFile
    · exact ⟨_, holds_end hp⟩
    · have hne : p.words ≠ [] := by
        rw [words_eq_cons hp]
        simp
      obtain ⟨item, clean, rest, hitem, -, hlt⟩ := exists_unitItem p hne
      obtain ⟨items, hitems⟩ := ih _ (hn ▸ hlt) rest rfl
      exact ⟨_, hitems.step hp hitem hlt⟩

/-- What a unit holds from a declaration on does not depend on the word before it. -/
theorem Holds.congr (h : Holds p items) (hp : BeginsDeclaration p.words)
    (hwords : p.words = q.words) : Holds q items := by
  obtain ⟨w, ws, hcons, hw⟩ := hp
  have hpeek {r : Spot} (hr : r.words = w :: ws) : r.peek = w := by
    simp [Spot.peek, Spot.lookAhead, hr]
  have hend : w.kind ≠ .endOfFile := by
    intro he
    rw [he] at hw
    cases hw
  have hitem : unitItem p = unitItem q := by
    have htop : topLevel (expressionWithin (p.words.length + 1)) p =
        topLevel (expressionWithin (p.words.length + 1)) q :=
      topLevel_congr (by rw [hpeek hcons, hw]) hwords
    rw [unitItem_apply, unitItem_apply, ← hwords]
    unfold synchronized
    rw [htop, hwords]
  have hstep (before : TreeItems) : unitStep before p = unitStep before q := by
    rw [unitStep_of_item before (by rwa [hpeek hcons]),
      unitStep_of_item before (by rwa [hpeek (hwords ▸ hcons)]), bind_apply, hitem]
    rfl
  obtain ⟨clean, rest, hrest⟩ := h
  refine ⟨clean, rest, fun n before hn => ?_⟩
  rw [← hrest n before (hwords ▸ hn)]
  cases n with
  | zero => exact absurd hn (Nat.not_lt_zero _)
  | succ n => rw [loop, bind_apply, bind_apply, hstep]

/-- Before a declaration that nothing is open before, a unit holds some items and then those that
it holds from the declaration on. -/
theorem exists_holds_append {words : List Word} (hb : BeginsDeclaration words)
    (hp : Before words [] p.words) (hkinds : ∀ w ∈ p.words, w.kind ≠ .endOfFile)
    (h : Holds (.start words) items) : ∃ first, Holds p (TreeItems.append first items) := by
  induction hn : p.words.length using Nat.strongRecOn generalizing p with
  | _ n ih =>
    by_cases hne : p.words = words
    · refine ⟨.empty, ?_⟩
      rw [TreeItems.empty_append]
      exact h.congr hb hne.symm
    · have hnil : p.words ≠ [] := by
        intro hnil
        obtain ⟨broken, -, heq, -⟩ := hp
        rw [hnil] at heq
        exact hne (hnil.trans (List.append_eq_nil_iff.1 heq.symm).2.symm)
      have hend : p.peek.kind ≠ .endOfFile := by
        obtain ⟨_ | ⟨w, ws⟩, flag⟩ := p
        · exact absurd rfl hnil
        · exact hkinds w (List.mem_cons_self ..)
      obtain ⟨item, clean, rest, hitem, hsuffix, hlt⟩ := exists_unitItem p hnil
      have hbefore := before_unitItem hb hp hne
      rw [hitem] at hbefore
      obtain ⟨first, hfirst⟩ := ih _ (hn ▸ hlt) hbefore
        (fun w hw => hkinds w (hsuffix.mem hw)) rfl
      refine ⟨(item.elim .empty TreeItems.empty.push).append first, ?_⟩
      rw [TreeItems.append_assoc]
      exact hfirst.step hend hitem hlt

/-- The reader for units reads the items from its place on. -/
theorem exists_compilationUnit (h : Holds p items) :
    ∃ clean rest, compilationUnit p =
      ⟨some (.compilationUnit items.imports items.declarations), clean, rest⟩ := by
  obtain ⟨clean, rest, hitems⟩ := h
  have hread : unitItems p = ⟨some items, clean, rest⟩ := by
    unfold unitItems
    rw [bind_apply_of_some (show bound p = ⟨some (p.words.length + 1), true, p⟩ from rfl),
      hitems _ _ (Nat.lt_succ_self _), Bool.true_and]
    rfl
  unfold compilationUnit
  rw [bind_apply_of_some hread]
  exact ⟨_, _, rfl⟩

end Reader

end ExprLang
