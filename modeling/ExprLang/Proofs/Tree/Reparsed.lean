import ExprLang.Proofs.Reader.Rules
import ExprLang.Proofs.Tree.Source

/-!
# What the text of a tree is read as

The text of a template shows neither where one text part ends and the next one
begins nor an empty part, and a template without placeholders looks like a
string.  A name as a pattern looks like an argument.  All other trees are read
as what they are.

Main definitions:

- Definition {lit}`Tree.reparsed`: what the text of a tree is read as.
- Definition {lit}`Tree.Printable`: trees whose text says all of them.

Main results:

- Theorem {lit}`Tree.reparsed_eq_of_printable`: printable trees are read as
  themselves.
- Theorem {lit}`Tree.printable_of_agrees`: other trees are not.
-/

namespace ExprLang

namespace StringDraft

/-- Adds text, if there is any. -/
def extend (d : StringDraft) (cs : List Char) : StringDraft :=
  if cs = [] then d else d.push cs

/-- Adds a part of a template, which is text or a tree. -/
def add (d : StringDraft) : Option String × Tree → StringDraft
  | (some text, _) => d.extend text.toList
  | (none, tree) => ⟨d.flush.parts ++ [tree], none, true⟩

@[simp] theorem extend_nil (d : StringDraft) : d.extend [] = d := rfl

/-- Text is added in pieces. -/
theorem extend_append (d : StringDraft) (a b : List Char) :
    d.extend (a ++ b) = (d.extend a).extend b := by
  unfold extend
  by_cases ha : a = []
  · simp [ha]
  · by_cases hb : b = []
    · simp [ha, hb]
    · simp [ha, hb, push]

end StringDraft

/-- Whether text parts of a template are not empty and not next to each other.  The first
argument says whether text precedes. -/
def Spaced : Bool → List (Option String) → Prop
  | _, [] => True
  | after, some text :: parts => after = false ∧ text ≠ "" ∧ Spaced true parts
  | _, none :: parts => Spaced false parts

namespace Tree

/-! ## Reading back -/

/-- What is read for a pattern: a name is an argument of its own. -/
def asArgument : Tree → Tree
  | reference name => basicArgument name none
  | pattern => patternArgument pattern

/-- The text of a template as a string under way. -/
def draft (parts : List (Option String × Tree)) : StringDraft :=
  parts.foldl .add .empty

/-- What the text of a tree is read as. -/
def reparsed : Tree → Tree
  | compilationUnit imports declarations =>
    compilationUnit (imports.map reparsed) (declarations.map reparsed)
  | importPath path entries => importPath path (entries.map reparsed)
  | block statements => block (statements.map reparsed)
  | stringTemplate parts =>
    (draft (parts.map fun part => (part.stringText?, reparsed part))).finish
  | unary operator operand => unary operator (reparsed operand)
  | binary left operator right => binary (reparsed left) operator (reparsed right)
  | assignment target operator value => assignment (reparsed target) operator (reparsed value)
  | memberAccess receiver member => memberAccess (reparsed receiver) member
  | function name isInfix arguments returnType body =>
    function name isInfix (arguments.map reparsed) returnType (reparsed body)
  | namedInvocation name arguments => namedInvocation name (arguments.map reparsed)
  | anonymousInvocation target arguments =>
    anonymousInvocation (reparsed target) (arguments.map reparsed)
  | infixInvocation left name right => infixInvocation (reparsed left) name (reparsed right)
  | defaultArgument name type default => defaultArgument name type (reparsed default)
  | patternArgument pattern => asArgument (reparsed pattern)
  | conditional condition thenBranch none =>
    conditional (reparsed condition) (reparsed thenBranch) none
  | conditional condition thenBranch (some elseBranch) =>
    conditional (reparsed condition) (reparsed thenBranch) (some (reparsed elseBranch))
  | localVariable name isMutable type none => localVariable name isMutable type none
  | localVariable name isMutable type (some initializer) =>
    localVariable name isMutable type (some (reparsed initializer))
  | returnStatement none => returnStatement none
  | returnStatement (some value) => returnStatement (some (reparsed value))
  | expressionStatement expression => expressionStatement (reparsed expression)
  | importEntry name rename => importEntry name rename
  | literal value => literal value
  | reference name => reference name
  | basicArgument name type => basicArgument name type

/-- Whether the text of a tree tells the tree from others, apart from its children. -/
def Prints : Tree → Prop
  | stringTemplate parts =>
    Spaced false (parts.map stringText?) ∧ ∃ part ∈ parts, part.stringText? = none
  | patternArgument (reference _) => False
  | _ => True

/-- Whether the text of a tree tells it from all others. -/
abbrev Printable (tree : Tree) : Prop := tree.All Prints

end Tree

/-! ## Templates -/

namespace StringDraft

variable {d : StringDraft} {parts : List (Option String × Tree)}

/-- The parts of a template that are not changed. -/
def given : Option String × Tree → Tree
  | (some text, _) => .literal (.string text)
  | (none, tree) => tree

/-- The present text becomes a part if there is any. -/
theorem length_flush (d : StringDraft) :
    d.flush.parts.length = d.parts.length + if d.text.isSome then 1 else 0 := by
  cases h : d.text <;> simp [flush, h]

/-- Adding a part adds one part at most, and one exactly if it is spaced. -/
theorem length_add (d : StringDraft) (part : Option String × Tree) :
    (d.add part).flush.parts.length ≤ d.flush.parts.length + 1 ∧
      ((d.add part).flush.parts.length = d.flush.parts.length + 1 →
        Spaced d.text.isSome [part.1] ∧ (d.add part).text.isSome = part.1.isSome) := by
  obtain ⟨_ | text, tree⟩ := part
  · simp [add, length_flush, Spaced]
  · by_cases he : text = ""
    · simp [add, he]
    · cases htext : d.text <;> simp [add, extend, he, length_flush, push, htext, Spaced]

/-- No more parts are read than there are, and as many only if the text parts are spaced. -/
theorem length_foldl (d : StringDraft) (parts : List (Option String × Tree)) :
    (parts.foldl add d).flush.parts.length ≤ d.flush.parts.length + parts.length ∧
      ((parts.foldl add d).flush.parts.length = d.flush.parts.length + parts.length →
        Spaced d.text.isSome (parts.map (·.1))) := by
  induction parts generalizing d with
  | nil => exact ⟨Nat.le_refl _, fun _ => trivial⟩
  | cons part parts ih =>
    obtain ⟨hle, hspaced⟩ := length_add d part
    obtain ⟨hle', hspaced'⟩ := ih (d.add part)
    simp only [List.foldl_cons, List.length_cons, List.map_cons]
    refine ⟨by omega, fun h => ?_⟩
    obtain ⟨hpart, htext⟩ := hspaced (by omega)
    have hparts := hspaced' (by omega)
    rw [htext] at hparts
    obtain ⟨_ | text, tree⟩ := part
    · exact hparts
    · exact ⟨hpart.1, hpart.2.1, hparts⟩

/-- Parts whose text parts are spaced are read as they are. -/
theorem parts_foldl_of_spaced (h : Spaced d.text.isSome (parts.map (·.1))) :
    (parts.foldl add d).flush.parts = d.flush.parts ++ parts.map given := by
  induction parts generalizing d with
  | nil => simp
  | cons part parts ih =>
    obtain ⟨_ | text, tree⟩ := part
    · have hadd : (d.add (none, tree)).flush.parts = d.flush.parts ++ [tree] := by
        simp [add, flush]
      rw [List.foldl_cons, ih h, hadd, List.append_assoc]
      rfl
    · obtain ⟨hnone, hne, hspaced⟩ := h
      have htext : d.text = none := by simpa using hnone
      have hadd : d.add (some text, tree) = ⟨d.parts, some text.toList, d.interpolated⟩ := by
        simp [add, extend, hne, push, htext]
      have hflush : (d.add (some text, tree)).flush.parts =
          d.flush.parts ++ [.literal (.string text)] := by
        rw [hadd]
        simp [flush, htext]
      rw [List.foldl_cons, ih (by rw [hadd]; exact hspaced), hflush, List.append_assoc]
      rfl

/-- A string has a placeholder if one of its parts is no text. -/
theorem interpolated_foldl (d : StringDraft) (parts : List (Option String × Tree)) :
    (parts.foldl add d).interpolated = (d.interpolated || parts.any (·.1.isNone)) := by
  induction parts generalizing d with
  | nil => simp
  | cons part parts ih =>
    rw [List.foldl_cons, ih]
    obtain ⟨_ | text, tree⟩ := part
    · simp [add]
    · simp only [add, extend]
      split <;> simp [push]

end StringDraft

namespace Tree

variable {tree : Tree}

/-- The parts of a template as they are given. -/
theorem given_part (part : Tree) :
    StringDraft.given (part.stringText?, part.reparsed) =
      if part.stringText?.isSome then part else part.reparsed := by
  cases htext : part.stringText? with
  | none => rfl
  | some text =>
    have hpart : part = literal (.string text) := by
      unfold stringText? at htext
      split at htext
      · cases htext
        rfl
      · cases htext
    rw [hpart]
    rfl

/-- What a template is read as if it has placeholders and its text parts are spaced. -/
theorem reparsed_stringTemplate {parts : List Tree}
    (hspaced : Spaced false (parts.map stringText?))
    (hany : ∃ part ∈ parts, part.stringText? = none) :
    (stringTemplate parts).reparsed =
      stringTemplate (parts.map fun part =>
        if part.stringText?.isSome then part else part.reparsed) := by
  have hinterpolated : (draft (parts.map fun part =>
      (part.stringText?, part.reparsed))).interpolated = true := by
    rw [draft, StringDraft.interpolated_foldl]
    obtain ⟨part, hmem, htext⟩ := hany
    simp only [StringDraft.empty, Bool.false_or, List.any_map, List.any_eq_true]
    exact ⟨part, hmem, by simp [htext]⟩
  have hgiven : Spaced StringDraft.empty.text.isSome
      ((parts.map fun part => (part.stringText?, part.reparsed)).map (·.1)) := by
    simpa [StringDraft.empty, Function.comp_def] using hspaced
  have hparts := StringDraft.parts_foldl_of_spaced hgiven
  rw [reparsed, StringDraft.finish, if_pos hinterpolated, draft, hparts]
  simp [StringDraft.empty, StringDraft.flush, given_part, Function.comp_def]

/-- Only a name is read as a name. -/
theorem eq_of_reparsed_eq_reference {name : String} (h : tree.reparsed = reference name) :
    tree = reference name := by
  cases tree with
  | reference => rwa [reparsed] at h
  | stringTemplate parts =>
    rw [reparsed, StringDraft.finish] at h
    split at h <;> cases h
  | patternArgument pattern =>
    rw [reparsed] at h
    unfold asArgument at h
    split at h <;> cases h
  | conditional _ _ elseBranch => cases elseBranch <;> (rw [reparsed] at h; cases h)
  | localVariable _ _ _ initializer => cases initializer <;> (rw [reparsed] at h; cases h)
  | returnStatement value => cases value <;> (rw [reparsed] at h; cases h)
  | _ => rw [reparsed] at h; cases h

/-- What is read for a pattern that is no name. -/
theorem asArgument_of_ne {pattern : Tree} (h : ∀ name, pattern ≠ reference name) :
    pattern.asArgument = patternArgument pattern := by
  cases pattern with
  | reference name => exact absurd rfl (h name)
  | _ => rfl

/-- A tree is what its shape and its children are. -/
theorem eq_of_shape_eq {t u : Tree} (hs : t.shape = u.shape) (hg : t.groups = u.groups) :
    t = u := by
  have hslot {x y : Option Tree} : x.toList = y.toList ↔ x = y := by
    cases x <;> cases y <;> simp
  cases t <;> cases u <;> first
    | (cases hs; done)
    | (cases hs
       simp only [groups, List.cons.injEq, and_true, hslot] at hg
       simp_all)

/-- Trees other than templates and patterns keep their shapes, and their children are read. -/
theorem groups_reparsed (ht : ∀ parts, tree ≠ stringTemplate parts)
    (hp : ∀ pattern, tree ≠ patternArgument pattern) :
    tree.reparsed.shape = tree.shape ∧
      tree.reparsed.groups = tree.groups.map fun group => group.map reparsed := by
  cases tree with
  | stringTemplate parts => exact absurd rfl (ht parts)
  | patternArgument pattern => exact absurd rfl (hp pattern)
  | conditional _ _ elseBranch => cases elseBranch <;> simp [reparsed, shape, groups]
  | localVariable _ _ _ initializer => cases initializer <;> simp [reparsed, shape, groups]
  | returnStatement value => cases value <;> simp [reparsed, shape, groups]
  | _ => simp [reparsed, shape, groups]

/-- Printable trees are read as themselves. -/
theorem reparsed_eq_of_printable (h : tree.Printable) : tree.reparsed = tree := by
  induction tree using Tree.induct with
  | step tree ih =>
    obtain ⟨here, below⟩ := all_iff.1 h
    have hchild : ∀ child ∈ tree.children, child.reparsed = child := fun child hc =>
      ih child hc (below child hc)
    by_cases ht : ∃ parts, tree = stringTemplate parts
    · obtain ⟨parts, rfl⟩ := ht
      obtain ⟨hspaced, hany⟩ := here
      rw [reparsed_stringTemplate hspaced hany]
      congr 1
      refine (List.map_congr_left fun part hpart => ?_).trans (List.map_id parts)
      rw [hchild part (by simpa [children, groups] using hpart), ite_self]
      rfl
    · by_cases hp : ∃ pattern, tree = patternArgument pattern
      · obtain ⟨pattern, rfl⟩ := hp
        rw [reparsed, hchild pattern (by simp [children, groups])]
        refine asArgument_of_ne fun name hname => ?_
        rw [hname] at here
        exact here
      · obtain ⟨hshape, hgroups⟩ := groups_reparsed (fun parts h => ht ⟨parts, h⟩)
          fun pattern h => hp ⟨pattern, h⟩
        refine eq_of_shape_eq hshape (hgroups.trans ?_)
        refine (List.map_congr_left fun group hgroup => ?_).trans (List.map_id _)
        refine (List.map_congr_left fun child hc => ?_).trans (List.map_id group)
        exact hchild child (mem_children_of_mem_group hgroup hc)

/-- Trees that agree have the same shape. -/
theorem Agrees.cases {t u : Tree} (h : t.Agrees u) :
    t.shape.sameShape u.shape = true ∧ List.Forall₂ (List.Forall₂ Agrees) t.groups u.groups := by
  obtain ⟨hshape, hgroups⟩ := h
  exact ⟨hshape, hgroups⟩

/-- Where lists of children agree with what they are read as, each child does. -/
theorem forall_of_map_agrees {trees : List Tree} {f : Tree → Tree}
    (h : List.Forall₂ Agrees (trees.map f) trees) : ∀ tree ∈ trees, (f tree).Agrees tree :=
  List.forall₂_same.1 (List.forall₂_map_left_iff.1 h)

/-- A text part of a template is printable. -/
theorem printable_of_isSome (h : tree.stringText?.isSome = true) : tree.Printable := by
  cases tree with
  | literal value => exact .intro trivial nofun
  | _ => cases h

/-- Only a template that tells its parts agrees with what it is read as, and then its parts
do. -/
theorem prints_of_agrees_template {parts : List Tree}
    (h : (stringTemplate parts).reparsed.Agrees (stringTemplate parts)) :
    (stringTemplate parts).Prints ∧
      ∀ part ∈ parts, part.stringText?.isSome = true ∨ part.reparsed.Agrees part := by
  have hprints : (stringTemplate parts).Prints := by
    obtain ⟨hshape, hgroups⟩ := h.cases
    rw [reparsed, StringDraft.finish] at hshape hgroups
    split at hshape
    · rename_i hinterpolated
      rw [if_pos hinterpolated] at hgroups
      have hlength := (List.forall₂_cons.1 hgroups).1.length_eq
      constructor
      · have hspaced := (StringDraft.length_foldl .empty
          (parts.map fun part => (part.stringText?, part.reparsed))).2 (by
            rw [List.length_map, ← hlength]
            simp [draft, StringDraft.empty, StringDraft.flush])
        simpa [Function.comp_def, StringDraft.empty] using hspaced
      · rw [draft, StringDraft.interpolated_foldl, List.any_map] at hinterpolated
        simp only [StringDraft.empty, Bool.false_or, List.any_eq_true] at hinterpolated
        obtain ⟨part, hmem, htext⟩ := hinterpolated
        exact ⟨part, hmem, by simpa using htext⟩
    · cases hshape
  refine ⟨hprints, ?_⟩
  rw [reparsed_stringTemplate hprints.1 hprints.2] at h
  intro part hpart
  have hagrees := forall_of_map_agrees (List.forall₂_cons.1 h.cases.2).1 part hpart
  split at hagrees
  · exact .inl ‹_›
  · exact .inr hagrees

/-- Only a pattern that is no name agrees with what it is read as, and then the pattern does. -/
theorem prints_of_agrees_pattern {pattern : Tree}
    (h : (patternArgument pattern).reparsed.Agrees (patternArgument pattern)) :
    (patternArgument pattern).Prints ∧ pattern.reparsed.Agrees pattern := by
  rw [reparsed] at h
  have hne : ∀ name, pattern.reparsed ≠ reference name := by
    intro name hname
    rw [hname] at h
    cases h.cases.1
  rw [asArgument_of_ne hne] at h
  constructor
  · cases pattern with
    | reference name => exact hne name (by rw [reparsed])
    | _ => trivial
  · exact (List.forall₂_cons.1 (List.forall₂_cons.1 h.cases.2).1).1

/-- Only printable trees agree with what they are read as. -/
theorem printable_of_agrees (h : tree.reparsed.Agrees tree) : tree.Printable := by
  induction tree using Tree.induct with
  | step tree ih =>
    by_cases ht : ∃ parts, tree = stringTemplate parts
    · obtain ⟨parts, rfl⟩ := ht
      obtain ⟨hprints, hparts⟩ := prints_of_agrees_template h
      refine .intro hprints fun part hpart => ?_
      rcases hparts part (by simpa [children, groups] using hpart) with htext | hagrees
      · exact printable_of_isSome htext
      · exact ih part hpart hagrees
    · by_cases hp : ∃ pattern, tree = patternArgument pattern
      · obtain ⟨pattern, rfl⟩ := hp
        obtain ⟨hprints, hagrees⟩ := prints_of_agrees_pattern h
        refine .intro hprints fun child hc => ?_
        obtain rfl : child = pattern := by simpa [children, groups] using hc
        exact ih child hc hagrees
      · obtain ⟨hshape, hgroups⟩ := groups_reparsed (fun parts h => ht ⟨parts, h⟩)
          fun pattern h => hp ⟨pattern, h⟩
        have hagrees := h.cases.2
        rw [hgroups] at hagrees
        refine .intro ?_ fun child hc => ?_
        · cases tree with
          | stringTemplate parts => exact absurd ⟨parts, rfl⟩ ht
          | patternArgument pattern => exact absurd ⟨pattern, rfl⟩ hp
          | _ => trivial
        · obtain ⟨group, hgroup, hmem⟩ := List.mem_flatten.1 hc
          have hgroup := List.forall₂_same.1 (List.forall₂_map_left_iff.1 hagrees) group hgroup
          exact ih child hc (forall_of_map_agrees hgroup child hmem)

end Tree

end ExprLang
