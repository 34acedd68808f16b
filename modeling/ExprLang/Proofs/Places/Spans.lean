import ExprLang.Proofs.Layout.Texts
import ExprLang.Proofs.Token.Stream

/-!
# Genuine places

A point of a text is genuine if it is the point behind a beginning of the text, so that
its line, its column and its offset agree with each other and with the text.  A span is
genuine if both its ends are and are in order.

The tokens of a text have genuine spans, one after the other; so have the tokens for the
end of the source, which are empty and stand where the last token ends.

Main definitions:

- Definitions {lit}`Point.Genuine` and {lit}`Span.Genuine`: places of a text.
- Definition {lit}`Point.NotAfter`: the order of points, by bytes and by lines and
  columns.

Main results:

- Theorem {lit}`Point.Genuine.notAfter`: points of one text are ordered by lines and
  columns as they are by bytes.
- Theorem {lit}`Span.Genuine.through`: what lies between two genuine spans.
- Theorem {lit}`Token.genuine_endless`: the spans of tokens.
-/

namespace ExprLang

variable {text : String}

/-! ## Points -/

namespace Point

/-- A point of a text: the point behind a beginning of it. -/
def Genuine (text : String) (p : Point) : Prop :=
  ∃ before after : List Char, text.toList = before ++ after ∧ p = .behind before

/-- One point is not after another, neither in bytes nor in lines and columns. -/
structure NotAfter (p q : Point) : Prop where
  offset_le : p.offset ≤ q.offset
  compare_ne : p.compare q ≠ .gt

variable {p q : Point}

/-- Every text has a start. -/
theorem genuine_zero (text : String) : zero.Genuine text := ⟨[], text.toList, rfl, rfl⟩

/-- Only the empty text leads no further. -/
theorem offset_lt_behind_append (cs : List Char) {ds : List Char} (h : ds ≠ []) :
    (behind cs).offset < (behind (cs ++ ds)).offset := by
  have hsize : (String.ofList ds).utf8ByteSize ≠ 0 := by simp [h]
  simp only [behind, String.ofList_append, String.utf8ByteSize_append]
  omega

/-- A point of a text with no smaller offset is behind a text that goes on from the other. -/
theorem Genuine.exists_between (hp : p.Genuine text) (hq : q.Genuine text)
    (hle : p.offset ≤ q.offset) :
    ∃ before middle after : List Char, text.toList = before ++ middle ++ after ∧
      p = .behind before ∧ q = .behind (before ++ middle) := by
  obtain ⟨before, after, htext, rfl⟩ := hp
  obtain ⟨before', after', htext', rfl⟩ := hq
  rcases List.append_eq_append_iff.1 (htext.symm.trans htext') with
    ⟨middle, rfl, -⟩ | ⟨middle, rfl, -⟩
  · exact ⟨before, middle, after', htext', rfl, rfl⟩
  · -- the second point is not before the first one, so nothing is between them
    have hnil : middle = [] := by
      by_contra hne
      exact absurd hle (Nat.not_le_of_lt (offset_lt_behind_append before' hne))
    subst hnil
    exact ⟨before', [], after', by rw [List.append_nil, htext'], by rw [List.append_nil],
      by rw [List.append_nil]⟩

/-- Points of one text are ordered by lines and columns as they are by bytes. -/
theorem Genuine.notAfter (hp : p.Genuine text) (hq : q.Genuine text)
    (hle : p.offset ≤ q.offset) : p.NotAfter q := by
  obtain ⟨before, middle, -, -, rfl, rfl⟩ := hp.exists_between hq hle
  refine ⟨hle, ?_⟩
  rw [behind_append]
  exact compare_advance_ne_gt _ _

end Point

/-! ## Spans -/

namespace Span

/-- A span of a text: it starts and ends at points of the text, and does not end before it
starts. -/
structure Genuine (text : String) (s : Span) : Prop where
  start : s.start.Genuine text
  stop : s.stop.Genuine text
  notAfter : s.start.NotAfter s.stop

variable {s t : Span}

/-- Points of a text in order are the ends of a span of it. -/
theorem genuine_of_points (hstart : s.start.Genuine text) (hstop : s.stop.Genuine text)
    (hle : s.start.offset ≤ s.stop.offset) : s.Genuine text :=
  ⟨hstart, hstop, hstart.notAfter hstop hle⟩

namespace Genuine

/-- The offsets of a span are in order. -/
theorem offset_le (h : s.Genuine text) : s.start.offset ≤ s.stop.offset := h.notAfter.offset_le

/-- From the start of one span to the end of another that does not end before. -/
theorem through (hs : s.Genuine text) (ht : t.Genuine text)
    (hle : s.start.offset ≤ t.stop.offset) : (s.through t).Genuine text :=
  genuine_of_points hs.start ht.stop hle

end Genuine

/-- The empty span at a point of a text. -/
theorem genuine_toSpan {p : Point} (h : p.Genuine text) : p.toSpan.Genuine text :=
  genuine_of_points h h (Nat.le_refl _)

end Span

/-! ## Tokens -/

namespace Token

variable {i : Nat}

/-- Tokens of a text have spans of it. -/
theorem genuine_of_mem_tokenize {token : Token} (h : token ∈ tokenize text) :
    token.span.Genuine text := by
  obtain ⟨before, after, htext, hspan⟩ := (standsIn_of_mem_tokenize h).placed
  rw [hspan]
  refine Span.genuine_of_points ⟨before, token.text.toList ++ after, ?_, rfl⟩
    ⟨before ++ token.text.toList, after, htext, rfl⟩ (Point.offset_behind_le ..)
  rw [htext, List.append_assoc]

/-- The last token ends at a point of the text. -/
theorem genuine_finish (text : String) : (finish (tokenize text)).Genuine text := by
  unfold finish
  cases hlast : (tokenize text).getLast? with
  | none => exact Point.genuine_zero text
  | some token => exact (genuine_of_mem_tokenize (List.mem_of_getLast? hlast)).stop

/-- Behind the tokens there are empty ones where the last of them ends. -/
theorem endless_of_length_le {tokens : List Token} (h : tokens.length ≤ i) :
    endless tokens i = .endOfFile (finish tokens) := by
  rw [endless, List.getD_eq_getElem?_getD, List.getElem?_eq_none h]
  rfl

/-- A token in its place. -/
theorem endless_of_lt {tokens : List Token} (h : i < tokens.length) :
    endless tokens i = tokens[i] := by
  simp [endless, h]

/-- The spans of the tokens and of the ends of the source are spans of the text. -/
theorem genuine_endless (text : String) (i : Nat) :
    (endless (tokenize text) i).span.Genuine text := by
  rcases Nat.lt_or_ge i (tokenize text).length with hlt | hge
  · rw [endless_of_lt hlt]
    exact genuine_of_mem_tokenize (List.getElem_mem hlt)
  · rw [endless_of_length_le hge]
    exact Span.genuine_toSpan (genuine_finish text)

/-- A token that is not the end of the source is not empty. -/
theorem nonempty_endless (h : (endless (tokenize text) i).kind ≠ .endOfFile) :
    (endless (tokenize text) i).span.start.offset <
      (endless (tokenize text) i).span.stop.offset := by
  have hlt := lt_length_of_endless_kind_ne h
  rw [endless_of_lt hlt]
  exact (standsIn_of_mem_tokenize (List.getElem_mem hlt)).nonempty

/-- Each token ends before the next one starts. -/
theorem stop_le_endless_succ (text : String) (i : Nat) :
    (endless (tokenize text) i).span.stop.offset ≤
      (endless (tokenize text) (i + 1)).span.start.offset := by
  rcases Nat.lt_trichotomy (i + 1) (tokenize text).length with hlt | heq | hgt
  · rw [endless_of_lt hlt, endless_of_lt (Nat.lt_of_succ_lt hlt)]
    exact ((ascending_tokenize text).isChain.getElem i hlt).1
  · have hlt : i < (tokenize text).length := heq ▸ Nat.lt_succ_self i
    have hlast : (tokenize text).getLast? = some (tokenize text)[i] := by
      rw [List.getLast?_eq_getElem?, show (tokenize text).length - 1 = i by omega]
      exact List.getElem?_eq_getElem hlt
    rw [endless_of_lt hlt, endless_of_length_le (Nat.le_of_eq heq.symm), finish, hlast]
    exact Nat.le_refl _
  · rw [endless_of_length_le (Nat.le_of_lt_succ hgt),
      endless_of_length_le (Nat.le_of_lt hgt)]
    exact Nat.le_refl _

end Token

end ExprLang
