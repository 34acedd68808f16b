import ExprLang.Parser.Imports
import ExprLang.Proofs.Parser.Expression

/-!
# Imports, parsed and read

The rules for imports do what their readers do; the warnings of the parser are
nothing to a reader.

Main results:

- Theorem {lit}`Parser.importRule_simulates`: an import.
-/

namespace ExprLang.Parser

open ParserState

variable {base : Arena} {s t u : ParserState} {n : Nat} {e : ExpressionRule}
  {e' : ExpressionReader}

/-- The other name that an imported name is given. -/
theorem optionalRename_simulates (imported : Token) (hs : s.Valid) :
    (optionalRename imported).Simulates base Reader.optionalRename s
      fun a b _ => b = a ∧ ∀ text, a = some text → IsName text := by
  refine .bind_skipKind hs (fun _ => ?_) fun _ => .pure hs ⟨rfl, nofun⟩
  have hl : Leads base s s.advanced := .advanced hs
  refine .bind_name hl.valid fun hname _ => ?_
  have hl' : Leads base s.advanced s.advanced.advanced := .advanced hl.valid
  have hrel (text : String) (h : some s.advanced.tape.peek.text = some text) : IsName text := by
    cases h
    exact hname
  by_cases hsame : s.advanced.tape.peek.text = imported.text
  · simp only [if_pos hsame]
    refine .bind_warn hl'.valid fun t ht _ => ?_
    exact .pure (ht base).valid ⟨rfl, hrel⟩
  · simp only [if_neg hsame]
    exact .pure hl'.valid ⟨rfl, hrel⟩

/-- An imported name. -/
theorem importEntry_simulates (hs : s.Valid) :
    Uses .importEntry importEntry Reader.importEntry s := by
  unfold importEntry Reader.importEntry
  refine .bind_name hs fun hname hend => ?_
  have hlt := remaining_advanced_lt hs hend
  have hl : Leads s.arena s s.advanced := .advanced hs
  refine .bind (optionalRename_simulates s.tape.peek hl.valid) fun rename rename' t ht h => ?_
  obtain ⟨rfl, hrename⟩ := h
  have hrem : t.remaining < s.remaining := Nat.lt_of_le_of_lt ht.remaining_le hlt
  obtain ⟨span, hspan⟩ := exists_spanFrom s.tape.peek.span ((began_advanced s).later ht)
  refine .bind_left_look ht.valid hspan ?_
  have hformed : Formed s.arena t .importEntry (.importEntry s.tape.peek.text rename')
      (.importEntry s.tape.peek.word.text rename') :=
    ⟨⟨rfl, .nil, .nil⟩, .importEntry hname hrename, rfl⟩
  exact (Simulates.build ht.valid ht.holds hformed).mono fun id tree u _ h => ⟨h.1, h.2 ▸ hrem⟩

/-- One more imported name, or the end of the names. -/
theorem importStep_simulates {ids : List NodeId} {trees : List Tree} (hs : s.Valid)
    (hb : s.arena.Holds base) (h : BuiltAll base s .importEntry ids trees) :
    (importStep ids).Simulates base (Reader.importStep trees) s
      (Simulates.StepRel (fun ids trees t => BuiltAll base t .importEntry ids trees)
        (fun ids trees t => BuiltAll base t .importEntry ids trees) s.remaining) := by
  refine .bind_checkKind hs (fun _ => .pure hs h) fun _ => ?_
  refine .bind_rule hb (importEntry_simulates hs) fun id tree t hl hbuilt => ?_
  have hall := h.append hl hbuilt.1 hb
  refine .bind_skipKind hl.valid (fun _ => ?_) fun _ => .pure hl.valid hall
  have hl' : Leads t.arena t t.advanced := .advanced hl.valid
  exact .pure hl'.valid ⟨hall.later hl', Nat.lt_of_le_of_lt hl'.remaining_le hbuilt.2⟩

/-- The imported names in braces. -/
theorem importEntries_simulates (hs : s.Valid) :
    importEntries.Simulates s.arena Reader.importEntries s
      fun ids trees t => BuiltAll s.arena t .importEntry ids trees := by
  unfold importEntries Reader.importEntries
  refine .bind_accept? hs (fun _ => ?_) fun _ => .pure hs (.nil ..)
  have hl : Leads s.arena s s.advanced := .advanced hs
  refine .bind_bound fun a b ha hb => ?_
  refine .bind (R := fun ids trees t => BuiltAll s.arena t .importEntry ids trees) ?_
    fun ids trees t ht h => ?_
  · exact .loop (s := s.advanced) (fun ids trees t => BuiltAll s.arena t .importEntry ids trees)
      (fun ids trees t ht h => importStep_simulates ht.valid ht.holds h) hl.valid (.nil ..) ha hb
  · refine .bind_expectKind ht.valid fun _ => ?_
    have ht' : Leads t.arena t t.advanced := .advanced ht.valid
    by_cases hempty : ids.isEmpty = true
    · simp only [if_pos hempty]
      refine .bind_warn ht'.valid fun u hu _ => ?_
      exact .pure (hu s.arena).valid ((h.later ht').later (hu _))
    · simp only [if_neg hempty]
      exact .pure ht'.valid (h.later ht')

/-- The path of an import. -/
theorem importPath_simulates (he : Expressions n e e') (hs : s.Valid) (hn : s.remaining < n) :
    (importPath e).Simulates s.arena (Reader.importPath e') s fun a b _ => b = a := by
  unfold importPath Reader.importPath
  refine .bind_expectKind hs fun _ => ?_
  have hl : Leads s.arena s s.advanced := .advanced hs
  have hrem := hl.remaining_le
  refine .bind (stringRule_simulates s.tape.peek he hl.valid (began_advanced s) (by omega))
    fun id tree t ht hbuilt => ?_
  obtain ⟨form, hform, hbare⟩ := hbuilt.kept.exists_formOf
  refine .bind_left_look ht.valid hform ?_
  by_cases hpath : ∃ path, tree = .literal (.string path)
  · obtain ⟨path, rfl⟩ := hpath
    cases form <;> cases hbare
    exact .pure ht.valid rfl
  · have hne : ∀ path, form ≠ .literal (.string path) := by
      rintro path rfl
      cases tree <;> cases hbare
      exact hpath ⟨path, rfl⟩
    split
    · exact absurd rfl (hne _)
    · split
      · exact absurd ⟨_, rfl⟩ hpath
      · exact .bind_left_look ht.valid (spanOf_eq hbuilt.kept.index_lt) (.failAt ht.valid)

/-- An import. -/
theorem importRule_simulates (he : Expressions n e e') :
    Within .importPath n (importRule e) (Reader.importRule e') := by
  intro s hs hn
  unfold importRule Reader.importRule
  refine .bind_expectKind hs fun hk => ?_
  have hlt := remaining_advanced_lt hs (by simp [hk])
  have hl : Leads s.arena s s.advanced := .advanced hs
  refine .bind (importPath_simulates he hl.valid (by omega)) fun _ path t ht hpath => ?_
  subst hpath
  have hlead := hl.trans ht
  refine .bind_rule hlead.holds (importEntries_simulates ht.valid) fun ids trees u hu hall => ?_
  -- the semicolon changes nothing but the place
  have hdone (v : ParserState) (hv : Leads u.arena u v) :
      (spanFrom s.tape.peek.span >>= make (.importPath path ids)).Simulates s.arena
        (pure (.importPath path trees)) v fun id tree v =>
          Built s.arena v .importPath id tree ∧ v.remaining < s.remaining := by
    have hv' := hu.trans (hv.weaken hu.holds)
    have hlast := ht.trans (hv'.weaken ht.holds)
    obtain ⟨span, hspan⟩ := exists_spanFrom s.tape.peek.span ((began_advanced s).later hlast)
    refine .bind_left_look hv.valid hspan ?_
    have hkept := (hall.later hv).weaken hlead.holds
    have hformed : Formed s.arena v .importPath (.importPath path ids) (.importPath path trees) :=
      ⟨.of_list rfl rfl rfl hkept.kept, .importPath hkept.written, rfl⟩
    refine (Simulates.build hv.valid hlast.holds hformed).mono fun id tree w _ h => ⟨h.1, ?_⟩
    exact Nat.lt_of_le_of_lt (Nat.le_trans (Nat.le_of_eq h.2) hlast.remaining_le) hlt
  refine .bind_skipKind hu.valid (fun _ => ?_) fun _ => ?_
  · exact hdone _ (.advanced hu.valid)
  · exact hdone _ (.refl hu.valid)

end ExprLang.Parser
