import ExprLang.Proofs.Parser.Nodes

/-!
# Strings, parsed and read

The rules for strings do what their readers do.

Main results:

- Theorem {lit}`Parser.stringRule_simulates`: a string after its opening quote.
-/

namespace ExprLang.Parser

open ParserState

variable {base : Arena} {s t u : ParserState} {n : Nat} {e : ExpressionRule}
  {e' : ExpressionReader}

/-! ## Strings under way -/

/-- A string under way stands for one under way. -/
structure Drafts (base : Arena) (body : StringBody) (draft : StringDraft) (t : ParserState) :
    Prop where
  parts : BuiltAll base t .expression body.parts draft.parts
  text : draft.text = body.chunk.span.map fun _ => body.chunk.text
  blank : body.chunk.span = none → body.chunk.text = []
  interpolated : draft.interpolated = body.interpolated

namespace Drafts

variable {body : StringBody} {draft : StringDraft}

/-- The start of a string. -/
theorem empty (base : Arena) (t : ParserState) : Drafts base .empty .empty t :=
  ⟨.nil base t _, rfl, fun _ => rfl, rfl⟩

/-- A string under way stays so whatever other rules do. -/
theorem later (h : Drafts base body draft t) (hl : Leads t.arena t u) :
    Drafts base body draft u :=
  { h with parts := h.parts.later hl }

/-- The text of a string without placeholders. -/
theorem text_getD (h : Drafts base body draft t) : draft.text.getD [] = body.chunk.text := by
  rw [h.text]
  cases hspan : body.chunk.span with
  | none => exact (h.blank hspan).symm
  | some span => rfl

/-- More text. -/
theorem push (h : Drafts base body draft t) (cs : List Char) (span : Span) :
    Drafts base { body with chunk := body.chunk.push cs span } (draft.push cs) t := by
  refine ⟨h.parts, ?_, nofun, h.interpolated⟩
  simp [StringDraft.push, Chunk.push, h.text_getD]

end Drafts

/-! ## Rules -/

/-- Ending the present text. -/
theorem flush_simulates {body : StringBody} {draft : StringDraft} (hs : s.Valid)
    (hb : s.arena.Holds base) (h : Drafts base body draft s) :
    (flush body).Simulates base (pure draft.flush) s fun body' draft' t =>
      draft' = draft.flush ∧ Drafts base body' draft.flush t ∧ t.remaining = s.remaining := by
  unfold flush
  cases hspan : body.chunk.span with
  | none =>
    refine .pure hs ⟨rfl, ⟨?_, rfl, fun _ => rfl, h.interpolated⟩, rfl⟩
    simpa [StringDraft.flush, h.text, hspan] using h.parts
  | some span =>
    have htext : draft.text = some body.chunk.text := by simp [h.text, hspan]
    have hformed : Formed s.arena s .expression (.literal (.string (String.ofList body.chunk.text)))
        (.literal (.string (String.ofList body.chunk.text))) :=
      ⟨⟨rfl, .nil, .nil⟩, .literal trivial, rfl⟩
    refine .bind_silent (b := Tree.literal (.string (String.ofList body.chunk.text)))
      (R := fun id t => Leads s.arena s t ∧ t.remaining = s.remaining ∧
        Built s.arena t .expression id (.literal (.string (String.ofList body.chunk.text)))) ?_ ?_
    · refine Simulates.weaken ?_ hb
      refine (Simulates.make hs (.refl _) hformed.shows rfl).mono fun id tree t hl h => ?_
      exact ⟨h.1, hl, h.2.2, h.2.1, hformed.written⟩
    · rintro id t - ⟨hl, hrem, hbuilt⟩
      refine .pure hl.valid ⟨rfl, ⟨?_, rfl, fun _ => rfl, h.interpolated⟩, hrem⟩
      simpa [StringDraft.flush, htext] using h.parts.append hl hbuilt hb

/-- A placeholder after its opening brace. -/
theorem placeholder_simulates {body : StringBody} {draft : StringDraft}
    (he : Expressions n e e') (hs : s.Valid) (hn : s.remaining < n) (hb : s.arena.Holds base)
    (h : Drafts base body draft s) :
    (placeholder e body).Simulates base (Reader.placeholder e' draft) s fun body draft t =>
      Drafts base body draft t := by
  have hstart : Drafts base { body with interpolated := true }
      { draft with interpolated := true } s := ⟨h.parts, h.text, h.blank, rfl⟩
  refine .bind_silent (flush_simulates hs hb hstart) fun body t hl ⟨hdraft, hrem⟩ => ?_
  have hbt := hl.holds.trans hb
  refine .bind_rule hbt (.synchronized _ hl.valid (he .lowest t hl.valid (hrem ▸ hn)))
    fun part part' u hl' hpart => ?_
  have hdone : Drafts base { body with parts := body.parts ++ part.toList }
      { StringDraft.flush { draft with interpolated := true } with
        parts := (StringDraft.flush { draft with interpolated := true }).parts ++ part'.toList }
      u :=
    { hdraft.later hl' with
      parts := hdraft.parts.append_toList hl' hpart (fun _ _ h => h.1) hbt }
  have hv := hl'.valid
  refine .bind_skipKind hv (fun _ => .pure hv.advanced ?_) fun _ => ?_
  · exact hdone.later (.advanced hv)
  · refine .bind_checkKind hv (fun _ => .pure hv hdone) fun _ => ?_
    exact .fail_unexpected hv

/-- One token of a string. -/
theorem stringStep_simulates {body : StringBody} {draft : StringDraft} (start : Token)
    (he : Expressions n e e') (hs : s.Valid) (hn : s.remaining ≤ n) (hb : s.arena.Holds base)
    (h : Drafts base body draft s) :
    (stringStep e start body).Simulates base (Reader.stringStep e' draft) s
      (Simulates.StepRel (Drafts base) (Drafts base) s.remaining) := by
  unfold stringStep Reader.stringStep
  refine .right_peek hs ?_
  have hv : s.advanced.Valid := hs.advanced
  have hlater : Drafts base body draft s.advanced := h.later (.advanced hs)
  have hlt (hk : s.tape.peek.kind ≠ .endOfFile) := remaining_advanced_lt hs hk
  cases hk : s.tape.peek.kind <;> simp only [Token.kind_word, hk]
  case stringContent =>
    refine .bind_advance hs ?_
    simp only [hk]
    exact .pure hv ⟨hlater.push _ _, hlt (by simp [hk])⟩
  case stringEscape =>
    refine .bind_advance hs ?_
    simp only [hk, Token.text_word]
    cases Text.unescape? s.tape.peek.text.toList with
    | some c => exact .pure hv ⟨hlater.push _ _, hlt (by simp [hk])⟩
    | none =>
      refine .bind_record hv fun t hl hrem => .pure (hl base).valid ⟨hlater.later (hl _), ?_⟩
      exact hrem ▸ hlt (by simp [hk])
  case templateStart =>
    refine .bind_advance hs ?_
    simp only [hk]
    have hlt := hlt (by simp [hk])
    refine .bind (placeholder_simulates he hv (by omega) hb hlater) fun body draft t hl h => ?_
    exact .pure hl.valid ⟨h, Nat.lt_of_le_of_lt hl.remaining_le hlt⟩
  case stringEnd =>
    refine .bind_advance hs ?_
    simp only [hk]
    exact .pure hv hlater
  case unexpectedCharacter =>
    refine .bind_advance hs ?_
    simp only [hk]
    refine .bind_record hv fun t hl hrem => .pure (hl base).valid ⟨hlater.later (hl _), ?_⟩
    exact hrem ▸ hlt (by simp [hk])
  all_goals
    refine .advance_giveBack (p := failAt start.span .openString) hs (by simp only [hk]) ?_
    exact .failAt hs.restored

/-- A string after its opening quote. -/
theorem stringRule_simulates (start : Token) (he : Expressions n e e') (hs : s.Valid)
    (hbegan : s.Began) (hn : s.remaining ≤ n) :
    Gives .expression (stringRule e start) (Reader.string e') s := by
  unfold stringRule Reader.string
  refine .bind_bound fun a b ha hb => ?_
  refine .bind (R := fun body draft t => Drafts s.arena body draft t) ?_
    fun body draft t hl h => ?_
  · refine .loop (Drafts s.arena) (fun body draft t hl h => ?_) hs (.empty ..) ha hb
    exact stringStep_simulates start he hl.valid (Nat.le_trans hl.remaining_le hn) hl.holds h
  obtain ⟨span, hspan⟩ := exists_spanFrom start.span (hbegan.later hl)
  refine .bind_left_look hl.valid hspan ?_
  rw [← h.interpolated]
  cases hi : draft.interpolated with
  | true =>
    refine .bind_silent (flush_simulates hl.valid hl.holds h) fun body' u hl' ⟨hdraft, _⟩ => ?_
    have hfinish : draft.finish = .stringTemplate draft.flush.parts := by
      simp [StringDraft.finish, hi]
    have hformed : Formed s.arena u .expression (.stringTemplate body'.parts)
        (.stringTemplate draft.flush.parts) :=
      ⟨.of_list rfl rfl rfl hdraft.parts.kept, .stringTemplate hdraft.parts.written, rfl⟩
    rw [hfinish]
    exact (Simulates.build hl'.valid (hl'.holds.trans hl.holds) hformed).mono
      fun id tree v _ h => h.1
  | false =>
    have hfinish : draft.finish = .literal (.string (String.ofList body.chunk.text)) := by
      simp [StringDraft.finish, hi, h.text_getD]
    have hformed : Formed s.arena t .expression (.literal (.string (String.ofList body.chunk.text)))
        (.literal (.string (String.ofList body.chunk.text))) :=
      ⟨⟨rfl, .nil, .nil⟩, .literal trivial, rfl⟩
    rw [hfinish]
    exact (Simulates.build hl.valid hl.holds hformed).mono fun id tree v _ h => h.1

end ExprLang.Parser
