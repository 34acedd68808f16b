import ExprLang.Proofs.Reader.Reads
import ExprLang.Proofs.Tree.Reparsed
import ExprLang.Proofs.Tree.Words

/-!
# Reading lists, types and strings

Repetitions of the grammar on the words of what they are meant for: lists whose
items are separated by commas, types, and the bodies of strings.

Main results:

- Theorem {lit}`Reader.reads_list`: items separated by commas.
- Theorem {lit}`Reader.reads_typeName`: names separated by dots.
- Theorem {lit}`Reader.reads_segments`: texts and placeholders.
-/

namespace ExprLang

namespace Reader

open ExprLang.Tree

variable {p : Prop} {ws rest : List Word}

/-! ## Lists -/

/-- One more item of a list, or the end of the list before a closing word. -/
def listStep (closing : TokenKind) (item : Reader Tree) (items : List Tree) :
    Reader (List Tree ⊕ List Tree) := do
  if ← checkKind closing then return .inr items
  let items := items ++ [← item]
  if ← skipKind .comma then return .inl items else return .inr items

/-- An item of a list is read from its words wherever the list can go on or end. -/
structure Listed (p : Prop) (closing : TokenKind) (item : Reader Tree) (ws : List Word)
    (tree : Tree) : Prop where
  ne_nil : ws ≠ []
  first : nextKind ws ≠ closing
  reads : ∀ rest, nextKind rest = .comma ∨ nextKind rest = closing →
    Reads p item (ws ++ rest) tree rest

/-- The first of some words is that of the words before others. -/
theorem nextKind_append (h : ws ≠ []) (rest : List Word) :
    nextKind (ws ++ rest) = nextKind ws := by
  cases ws with
  | nil => exact absurd rfl h
  | cons w ws => rfl

/-- An item before what follows it in a list. -/
theorem reads_listStep {closing : TokenKind} {item : Reader Tree} {tree : Tree}
    {done : List Tree} {step : List Tree ⊕ List Tree} {mid : List Word}
    (h : Listed p closing item ws tree)
    (hmid : nextKind mid = .comma ∨ nextKind mid = closing)
    (hstep : Reads p (skipKind .comma >>= fun more => if more then
      pure (.inl (done ++ [tree])) else pure (.inr (done ++ [tree]))) mid step rest) :
    Reads p (listStep closing item done) (ws ++ mid) step rest := by
  have hfirst : (Expectation.kind closing).accepts (nextKind (ws ++ mid)) = false := by
    rw [nextKind_append h.ne_nil]
    simpa using Ne.symm h.first
  refine .bind (.check (.kind closing)) ?_
  rw [hfirst, if_neg Bool.false_ne_true]
  exact .bind (h.reads mid hmid) hstep

/-- Items separated by commas are read up to the closing word. -/
theorem reads_list {closing : TokenKind} (hclosing : closing ≠ .comma) {item : Reader Tree}
    {lists : List (List Word)} {trees : List Tree}
    (h : List.Forall₂ (Listed p closing item) lists trees) {w : Word} (hw : w.kind = closing)
    {n : Nat} (done : List Tree) (hn : (commaWords lists ++ w :: rest).length < n) :
    Reads p (loop (listStep closing item) n done) (commaWords lists ++ w :: rest)
      (done ++ trees) (w :: rest) := by
  induction h generalizing n done with
  | nil =>
    refine .loop_end hn (.bind (.check (.kind closing)) ?_)
    have hend : (Expectation.kind closing).accepts (nextKind (w :: rest)) = true := by simp [hw]
    rw [List.append_nil]
    simp only [commaWords_nil, List.nil_append, hend, if_true]
    exact .pure _
  | @cons ws tree lists trees hfirst hothers ih =>
    cases hothers with
    | nil =>
      rw [commaWords_singleton] at hn ⊢
      refine .loop_end hn (reads_listStep hfirst (.inr hw) ?_)
      exact .bind (.skipKind_of_ne (by rwa [nextKind_cons, hw])) (.pure _)
    | @cons vs next lists trees hnext hothers =>
      rw [commaWords_cons_cons, List.append_assoc, List.cons_append] at hn ⊢
      refine .loop_next hn (reads_listStep hfirst (.inl rfl) (.bind (.skipKind rfl) (.pure _)))
        ?_ fun m hm => ?_
      · have hpos := List.length_pos_iff.2 hfirst.ne_nil
        simp only [List.length_append, List.length_cons]
        omega
      · have hrest := ih (done ++ [tree]) hm
        rwa [List.append_assoc] at hrest

/-! ## Names and types -/

/-- A name is consumed where a name is expected. -/
theorem reads_name {text : String} (h : IsName text) :
    Reads p name (Word.ofText text :: rest) (Word.ofText text) rest := by
  refine .expect ?_
  simpa [Expectation.accepts, TokenKind.isAnyOf, Word.ofText] using h.isName

/-- The names of a type are read one after the other. -/
theorem reads_typeName_then {text : String} (h : IsType text) {b : String} {out : List Word}
    (hloop : ∀ n, rest.length < n → Reads p (loop typeStep n text) rest b out) :
    Reads p typeName (sourceWords text.toList ++ rest) b out := by
  induction h generalizing rest with
  | name h =>
    rw [(Lexes.word h.isWord).sourceWords_eq]
    exact .bind (reads_name h) (.bind_bound hloop)
  | @dot path text hp h ih =>
    have hwords : sourceWords (path ++ "." ++ text).toList =
        sourceWords path.toList ++ [.mark .dot, Word.ofText text] := by
      refine Lexes.sourceWords_eq ?_
      rw [String.toList_append, String.toList_append, List.append_assoc]
      exact (Lexes.type hp).append (.dot h.isWord) fun rest _ => Lexes.boundary_dot h.isWord rest
    rw [hwords, List.append_assoc]
    refine ih fun n hn => .loop_next hn ?_ ?_ hloop
    · exact .bind (.skipKind rfl) (.bind (reads_name h) (.pure _))
    · simp only [List.cons_append, List.nil_append, List.length_cons]
      omega

/-- A type is read up to a word that does not go on with it. -/
theorem reads_typeName {text : String} (h : IsType text) (hrest : nextKind rest ≠ .dot) :
    Reads p typeName (sourceWords text.toList ++ rest) text rest :=
  reads_typeName_then h fun _ hn =>
    .loop_end hn (.bind (.skipKind_of_ne hrest) (.pure _))

/-- A colon and a type, or nothing. -/
theorem reads_optionalType {type : Option String} (h : ∀ text, type = some text → IsType text)
    (hdot : nextKind rest ≠ .dot) (hcolon : nextKind rest ≠ .colon) :
    Reads p optionalType (typeWords type ++ rest) type rest := by
  cases type with
  | none => exact .bind (.skipKind_of_ne hcolon) (.pure _)
  | some text => exact .bind (.skipKind rfl) (.bind (reads_typeName (h text rfl) hdot) (.pure _))

/-! ## Strings -/

section

variable {E : ExpressionReader} {d : StringDraft} {b : StringDraft} {out : List Word}

/-- Characters that stand for themselves. -/
theorem reads_runWords {run : List Char} {n : Nat} (hn : (runWords run ++ rest).length < n)
    (h : ∀ m, rest.length < m → Reads p (loop (stringStep E) m (d.extend run)) rest b out) :
    Reads p (loop (stringStep E) n d) (runWords run ++ rest) b out := by
  unfold runWords at hn ⊢
  split
  · rename_i hrun
    rw [hrun] at h
    rw [if_pos hrun] at hn
    exact h n hn
  · rename_i hrun
    rw [if_neg hrun] at hn
    have hextend : d.push (String.ofList run).toList = d.extend run := by
      simp [StringDraft.extend, hrun]
    refine .loop_next hn (.bind .peek (.bind .advance (.pure _))) (by simp) ?_
    rwa [hextend]

/-- The body of a string whose first characters stand for themselves. -/
theorem reads_textWordsFrom {run cs : List Char} {n : Nat}
    (hn : (textWordsFrom run cs ++ rest).length < n)
    (h : ∀ m, rest.length < m → Reads p (loop (stringStep E) m (d.extend (run ++ cs))) rest b out) :
    Reads p (loop (stringStep E) n d) (textWordsFrom run cs ++ rest) b out := by
  induction cs generalizing run d n with
  | nil =>
    rw [List.append_nil] at h
    exact reads_runWords hn h
  | cons c cs ih =>
    rw [textWordsFrom] at hn ⊢
    split
    · rename_i hc
      rw [if_pos hc] at hn
      refine ih hn ?_
      rwa [List.append_assoc]
    · rename_i hc
      rw [if_neg hc, List.append_assoc, List.cons_append] at hn
      rw [List.append_assoc, List.cons_append]
      refine reads_runWords hn fun m hm => ?_
      have hread : Text.unescape? (String.ofList (Text.escapeChar c)).toList = some c := by
        rw [String.toList_ofList]
        exact (Text.unescape?_escapeChar c).resolve_right hc
      have hstep (rest : List Word) : Reads p (stringStep E (d.extend run))
          (⟨.stringEscape, String.ofList (Text.escapeChar c)⟩ :: rest)
          (.inl ((d.extend run).extend [c])) rest := by
        refine .bind .peek (.bind .advance ?_)
        dsimp only
        rw [hread]
        exact .pure _
      refine .loop_next hm (hstep _) (Nat.lt_succ_self _) fun m hm => ih hm ?_
      rw [List.nil_append, ← StringDraft.extend_append, ← StringDraft.extend_append]
      exact h

/-- The body of a string. -/
theorem reads_textWords {cs : List Char} {n : Nat} (hn : (textWords cs ++ rest).length < n)
    (h : ∀ m, rest.length < m → Reads p (loop (stringStep E) m (d.extend cs)) rest b out) :
    Reads p (loop (stringStep E) n d) (textWords cs ++ rest) b out :=
  reads_textWordsFrom hn h

/-- A placeholder is read up to its closing brace. -/
theorem reads_placeholder {tree : Tree}
    (h : ∀ rest, nextKind rest = .templateEnd → Reads p (E .lowest) (ws ++ rest) tree rest) :
    Reads p (placeholder E d) (ws ++ ⟨.templateEnd, "\x7d"⟩ :: rest) (d.add (none, tree)) rest :=
  .bind ((h _ rfl).synchronized _) (.bind (.skipKind rfl) (.pure _))

/-- The rest of a template, before which some text stands. -/
theorem reads_segments {parts : List (Option String × List Word)}
    {trees : List (Option String × Tree)}
    (h : List.Forall₂ (fun part tree => part.1 = tree.1 ∧ (part.1 = none → ∀ rest,
      nextKind rest = .templateEnd → Reads p (E .lowest) (part.2 ++ rest) tree.2 rest)) parts trees)
    {w : Word} (hw : w.kind = .stringEnd) (text : List Char) {n : Nat}
    (hn : (segmentWords text parts ++ w :: rest).length < n) :
    Reads p (loop (stringStep E) n d) (segmentWords text parts ++ w :: rest)
      (trees.foldl .add (d.extend text)) rest := by
  induction h generalizing text d n with
  | nil =>
    refine reads_textWords hn fun m hm => .loop_end hm (.bind .peek ?_)
    rw [hw]
    exact .bind .advance (.pure _)
  | @cons part tree parts trees hpart hparts ih =>
    obtain ⟨content, ws⟩ := part
    obtain ⟨content', tree⟩ := tree
    obtain ⟨rfl, hplaceholder⟩ := hpart
    cases content with
    | some more =>
      have hextend : (d.extend text).add (some more, tree) = d.extend (text ++ more.toList) :=
        (d.extend_append text more.toList).symm
      rw [List.foldl_cons, hextend]
      exact ih (text ++ more.toList) hn
    | none =>
      rw [segmentWords, List.append_assoc, List.cons_append, List.append_assoc,
        List.cons_append] at hn ⊢
      refine reads_textWords hn fun m hm => ?_
      refine .loop_next hm (.bind .peek (.bind .advance (.bind (reads_placeholder
        (hplaceholder rfl)) (.pure _)))) ?_ fun m hm => ih [] hm
      simp only [List.length_cons, List.length_append]
      omega

/-- A string after its opening quote. -/
theorem reads_string {parts : List (Option String × List Word)}
    {trees : List (Option String × Tree)}
    (h : List.Forall₂ (fun part tree => part.1 = tree.1 ∧ (part.1 = none → ∀ rest,
      nextKind rest = .templateEnd → Reads p (E .lowest) (part.2 ++ rest) tree.2 rest))
        parts trees) :
    Reads p (string E) (segmentWords [] parts ++ ⟨.stringEnd, "\""⟩ :: rest)
      (draft trees).finish rest :=
  .bind_bound fun _ hn => .bind (reads_segments h rfl [] hn) (.pure _)

end

end Reader

end ExprLang
