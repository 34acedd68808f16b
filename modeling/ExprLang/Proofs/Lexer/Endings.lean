import ExprLang.Proofs.Lexer.Nesting

/-!
# Texts with another ending

Two texts that begin alike have the same words up to their endings, provided that no
rule looks behind the ending for what it matches before it.

Main definitions:

- Definition {lit}`Fragment.MatchesAlike`: a fragment matches the same before two
  endings.
- Definition {lit}`Grammar.ReadsAlike`: so does every rule of a grammar.

Main results:

- Theorem {lit}`firstSplit?_alike`: the rule that applies before two endings.
- Theorem {lit}`Lexer.Gives.words_alike`: the words before two endings.
-/

namespace ExprLang

variable {cs tail tail' : List Char} {last : Option TokenKind → Prop}

/-! ## Fragments -/

/-- What a fragment matches of some characters before one ending of a text it matches of them
before another one.  Matches that reach the ending are left out unless `last` holds of them. -/
structure Fragment.MatchesAlike (f : Fragment) (cs tail tail' : List Char)
    (last : List Char → Prop) : Prop where
  of_none : f.split? (cs ++ tail) = none → f.split? (cs ++ tail') = none
  of_some : ∀ text rest, text ++ rest = cs → (rest = [] → last text) →
    f.split? (cs ++ tail) = some (text, rest ++ tail) →
    f.split? (cs ++ tail') = some (text, rest ++ tail')

namespace Fragment.MatchesAlike

variable {f first second : Fragment} {middle : List Char} {last last' : List Char → Prop}

/-- What matches the same before one ending and another, and before that and a third. -/
theorem trans (h : f.MatchesAlike cs tail middle last)
    (h' : f.MatchesAlike cs middle tail' last) : f.MatchesAlike cs tail tail' last where
  of_none hs := h'.of_none (h.of_none hs)
  of_some text rest happend hlast hs :=
    h'.of_some text rest happend hlast (h.of_some text rest happend hlast hs)

/-- More matches that reach the ending may be left out. -/
theorem mono (h : f.MatchesAlike cs tail tail' last) (hlast : ∀ text, last' text → last text) :
    f.MatchesAlike cs tail tail' last' where
  of_none := h.of_none
  of_some text rest happend hreach := h.of_some text rest happend fun e => hlast _ (hreach e)

/-- If both endings begin with the same text, no match before it reaches what follows it. -/
theorem of_append {sep : List Char} (hsep : sep ≠ [])
    (h : f.MatchesAlike (cs ++ sep) tail tail' fun _ => False) :
    f.MatchesAlike cs (sep ++ tail) (sep ++ tail') last where
  of_none hs := by
    rw [← List.append_assoc] at hs ⊢
    exact h.of_none hs
  of_some text rest happend _ hs := by
    simp only [← List.append_assoc] at hs ⊢
    exact h.of_some text (rest ++ sep) (by rw [← happend, List.append_assoc])
      (fun e => hsep (List.append_eq_nil_iff.1 e).2) hs

/-- One of two fragments. -/
theorem either (hf : first.MatchesAlike cs tail tail' last)
    (hs : second.MatchesAlike cs tail tail' last) :
    (Fragment.either first second).MatchesAlike cs tail tail' last where
  of_none h := by
    obtain ⟨hfirst, hsecond⟩ := Option.or_eq_none_iff.1 h
    exact Option.or_eq_none_iff.2 ⟨hf.of_none hfirst, hs.of_none hsecond⟩
  of_some text rest happend hlast h := by
    refine Option.or_eq_some_iff.2 ((Option.or_eq_some_iff.1 h).imp ?_ ?_)
    · exact hf.of_some text rest happend hlast
    · exact fun ⟨hfirst, hsecond⟩ =>
        ⟨hf.of_none hfirst, hs.of_some text rest happend hlast hsecond⟩

/-- A fragment that matches no more than the empty text matches no more before another ending. -/
theorem eq_nil (h : f.MatchesAlike cs tail tail' last) (hcs : cs ≠ [])
    (hempty : ∀ text rest, f.split? (cs ++ tail) = some (text, rest) → text = [])
    {text rest : List Char} (hs : f.split? (cs ++ tail') = some (text, rest)) : text = [] := by
  cases hsplit : f.split? (cs ++ tail) with
  | none =>
    rw [h.of_none hsplit] at hs
    cases hs
  | some pieces =>
    obtain ⟨found, left⟩ := pieces
    obtain rfl := hempty found left hsplit
    obtain rfl : left = cs ++ tail := f.append_of_split? _ _ _ hsplit
    have hs' := h.of_some [] cs rfl (fun e => absurd e hcs) hsplit
    cases hs'.symm.trans hs
    rfl

end Fragment.MatchesAlike

/-! ## Rules -/

/-- The rule that applies before two endings is the same if every rule matches the same. -/
theorem firstSplit?_alike {rules : List Rule} {stack : StateStack} (hcs : cs ≠ [])
    (h : ∀ rule ∈ rules, rule.fragment.MatchesAlike cs tail tail'
      fun text => last (rule.action.run text stack).1) :
    (firstSplit? rules (cs ++ tail) = none → firstSplit? rules (cs ++ tail') = none) ∧
      ∀ action text rest, text ++ rest = cs → (rest = [] → last (action.run text stack).1) →
        firstSplit? rules (cs ++ tail) = some (action, text, rest ++ tail) →
        firstSplit? rules (cs ++ tail') = some (action, text, rest ++ tail') := by
  induction rules with
  | nil => exact ⟨fun _ => rfl, nofun⟩
  | cons rule rules ih =>
    have halike := h rule (List.mem_cons_self ..)
    obtain ⟨hnone, hsome⟩ := ih fun other ho => h other (List.mem_cons_of_mem _ ho)
    -- either the rule is passed over before both endings, or it applies before the first
    by_cases hempty : ∀ text rest, rule.fragment.split? (cs ++ tail) = some (text, rest) → text = []
    · rw [firstSplit?_cons_of_empty hempty,
        firstSplit?_cons_of_empty fun _ _ => halike.eq_nil hcs hempty]
      exact ⟨hnone, hsome⟩
    · push Not at hempty
      obtain ⟨text, rest, hs, hne⟩ := hempty
      rw [firstSplit?_cons_of_split? hs hne rules]
      refine ⟨nofun, fun action text rest happend hlast hfound => ?_⟩
      cases hfound
      exact firstSplit?_cons_of_split? (halike.of_some _ rest happend hlast hs) hne rules

namespace Grammar

variable {g : Grammar} {stack : StateStack}

/-- A piece before an ending is the same before another one. -/
theorem piece?_alike {p : Piece} {rest : List Char}
    (h : ∀ rule ∈ g.rules stack.current, rule.fragment.MatchesAlike (p.text ++ rest) tail tail'
      fun text => last (rule.action.run text stack).1)
    (hp : g.piece? stack (p.text ++ rest ++ tail) = some p) (hrest : p.rest = rest ++ tail)
    (hlast : rest = [] → last p.kind?) :
    g.piece? stack (p.text ++ rest ++ tail') = some { p with rest := rest ++ tail' } := by
  obtain ⟨kind?, text, after, left⟩ := p
  have hne : text ≠ [] := (append_of_piece? hp).2
  dsimp only at h hp hrest hlast ⊢
  subst hrest
  obtain ⟨hnone, hsome⟩ := firstSplit?_alike (fun e => hne (List.append_eq_nil_iff.1 e).1) h
  obtain ⟨c, cs, rfl⟩ := List.exists_cons_of_ne_nil hne
  simp only [List.cons_append, piece?] at hp hnone hsome ⊢
  split at hp
  · rename_i action found left hs
    cases hp
    rw [hsome action (c :: cs) rest rfl hlast hs]
  · rename_i hs
    cases hp
    rw [hnone hs]
    rfl

/-- Every rule of a grammar matches the same before two endings, wherever text is left before the
ending.  A match that reaches the ending has to become what `last` holds of. -/
def ReadsAlike (g : Grammar) (tail tail' : List Char) (last : Option TokenKind → Prop) : Prop :=
  ∀ stack : StateStack, ∀ rule ∈ g.rules stack.current, ∀ cs, cs ≠ [] →
    rule.fragment.MatchesAlike cs tail tail' fun text => last (rule.action.run text stack).1

end Grammar

/-! ## Runs -/

namespace Lexer

variable {g : Grammar} {l m after : Lexer} {token : Token} {tokens : List Token} {rest : List Char}

/-- A match before an ending is the same before another one. -/
theorem words_of_step?_alike {token? : Option Token} (h : g.ReadsAlike tail tail' last)
    (hg : l.grammar = g) (hs : l.step? = some (token?, after))
    (hafter : after.cursor.rest = rest ++ tail)
    (hlast : rest = [] → last (token?.map Token.kind)) :
    ∃ text ≠ [], l.cursor.rest = text ++ rest ++ tail ∧
      g.words l.stack (text ++ rest ++ tail') =
        (token?.map Token.word).toList ++ g.words after.stack (rest ++ tail') := by
  rw [step?_eq, hg] at hs
  obtain ⟨p, hp, hpast⟩ := Option.map_eq_some_iff.1 hs
  obtain ⟨rfl, rfl⟩ := Prod.mk.injEq .. ▸ hpast
  have hrest : p.rest = rest ++ tail := hafter
  obtain ⟨happend, hne⟩ := Grammar.append_of_piece? hp
  rw [hrest, ← List.append_assoc] at happend
  have hkind : (l.tokenOfPiece? p).map Token.kind = p.kind? := by
    rw [tokenOfPiece?, Option.map_map]
    exact Option.map_id_apply
  rw [hkind] at hlast
  have hp' := Grammar.piece?_alike
    (fun rule hrule => h l.stack rule hrule _ fun e => hne (List.append_eq_nil_iff.1 e).1)
    (happend ▸ hp) hrest hlast
  refine ⟨p.text, hne, happend.symm, ?_⟩
  rw [map_word_tokenOfPiece?, Grammar.words_of_piece? hp']
  rfl

/-- Dropped matches before an ending are the same before another one. -/
theorem Drops.words_alike (hd : l.Drops m) (h : g.ReadsAlike tail tail' last)
    (hg : l.grammar = g) (hm : m.cursor.rest = rest ++ tail) (hlast : rest = [] → last none) :
    ∃ text, l.cursor.rest = text ++ rest ++ tail ∧
      g.words l.stack (text ++ rest ++ tail') = g.words m.stack (rest ++ tail') := by
  induction hd with
  | refl => exact ⟨[], hm, rfl⟩
  | step hs _ ih =>
    obtain ⟨text, hmiddle, hwords⟩ := ih ((stack_of_step?_drop hs).1.trans hg) hm
    obtain ⟨front, -, hrest, hfront⟩ := words_of_step?_alike h hg hs hmiddle
      fun e => hlast (List.append_eq_nil_iff.1 e).2
    refine ⟨front ++ text, by rw [hrest]; simp, ?_⟩
    rw [← hwords, List.append_assoc front, hfront]
    rfl

/-- A call before an ending is the same before another one. -/
theorem words_of_next_alike (h : g.ReadsAlike tail tail' last) (hg : l.grammar = g)
    (hnext : l.next = (some token, after)) (hafter : after.cursor.rest = rest ++ tail)
    (hlast : rest = [] → last (some token.kind)) :
    ∃ text ≠ [], l.cursor.rest = text ++ rest ++ tail ∧
      g.words l.stack (text ++ rest ++ tail') =
        token.word :: g.words after.stack (rest ++ tail') := by
  obtain ⟨m, hdrops, hstep⟩ := exists_drops_of_next hnext
  obtain ⟨text, hne, hm, htext⟩ :=
    words_of_step?_alike h (hdrops.stack_eq.1.trans hg) hstep hafter hlast
  obtain ⟨front, hl, hfront⟩ := hdrops.words_alike h hg hm
    fun e => absurd (List.append_eq_nil_iff.1 e).1 hne
  refine ⟨front ++ text, fun e => hne (List.append_eq_nil_iff.1 e).2, by rw [hl]; simp, ?_⟩
  rw [List.append_assoc front, hfront, htext]
  rfl

/-- The words before an ending are the same before another one. -/
theorem Gives.words_alike {text : String} (hgives : (ofText g text).Gives tokens l)
    (h : g.ReadsAlike tail tail' last) (hl : l.cursor.rest = rest ++ tail)
    (hlast : rest = [] → ∀ token ∈ tokens.getLast?, last (some token.kind)) :
    ∃ covered, text.toList = covered ++ rest ++ tail ∧
      g.words (.ofRoot g.initial) (covered ++ rest ++ tail') =
        tokens.map Token.word ++ g.words l.stack (rest ++ tail') := by
  induction hgives generalizing rest with
  | nil => exact ⟨[], hl, rfl⟩
  | snoc hbefore hnext ih =>
    obtain ⟨front, hne, hm, hfront⟩ := words_of_next_alike h hbefore.grammar_eq hnext hl
      fun e => hlast e _ (by simp)
    obtain ⟨covered, htext, hwords⟩ := ih hm fun e => absurd (List.append_eq_nil_iff.1 e).1 hne
    refine ⟨covered ++ front, by rw [htext]; simp, ?_⟩
    rw [List.append_assoc covered, hwords, hfront, List.map_append, List.append_assoc]
    rfl

end Lexer

end ExprLang
