import ExprLang.Proofs.Tree.Outline
import ExprLang.Tree.Render

/-!
# Equivalence as equality

Nodes are compared field by field, their forms apart from their children.  For
finite trees this comes down to the equality of their outlines, as long as every
value is equal to itself and to no other, which numbers with a fraction need not be.
So equivalence is reflexive, symmetric and transitive, and nothing that is written
depends on what it leaves out.

Main definitions:

- Definition {lit}`Literal.isFraction`: numbers with a fraction.
- Definition {lit}`Arena.IsExact`: finite trees without such numbers.

Main results:

- Theorem {lit}`Arena.equivalentWithin_iff_outlineWithin`: equivalence of nodes.
- Theorem {lit}`Arena.renderWithin_eq_of_outlineWithin`: the text of a tree depends on
  its outline.
- Theorem {lit}`Arena.IsExact.equivalence`: equivalence of trees.
-/

namespace ExprLang

/-- Whether a literal is a number with a fraction. -/
def Literal.isFraction : Literal → Bool
  | .float _ | .double _ => true
  | _ => false

/-- Values other than numbers with a fraction agree exactly if they are equal. -/
theorem Literal.agrees_iff {value other : Literal} (h : value.isFraction = false) :
    value.agrees other = true ↔ value = other := by
  cases value <;> first
    | cases h; done
    | simp [agrees]

/-- Forms without such a number have the same shape exactly if they are equal without their
children. -/
theorem Form.sameShape_iff {f g : Form}
    (h : ∀ value, f = .literal value → value.isFraction = false) :
    f.sameShape g = true ↔ f.bare = g.bare := by
  cases f with
  | literal value =>
    cases g with
    | literal other => simp [sameShape, bare, Literal.agrees_iff (h value rfl)]
    | _ => simp [sameShape]
  | _ => simp [sameShape]

/-- A relation between the children of two forms, field by field, can be replaced by another one
that the children satisfy. -/
theorem Form.forall₂_groups_imp {f g : Form} {p q : NodeId → NodeId → Prop}
    (hpq : ∀ c ∈ f.children, ∀ d ∈ g.children, p c d → q c d)
    (h : List.Forall₂ (List.Forall₂ p) (f.childGroups.map ChildGroup.children)
      (g.childGroups.map ChildGroup.children)) :
    List.Forall₂ (List.Forall₂ q) (f.childGroups.map ChildGroup.children)
      (g.childGroups.map ChildGroup.children) := by
  simp only [children_eq_flatten] at hpq
  refine Arena.forall₂_imp_of_mem h fun group hgroup group' hgroup' hitems => ?_
  exact Arena.forall₂_imp_of_mem hitems fun c hc d hd =>
    hpq c (List.mem_flatten.2 ⟨group, hgroup, hc⟩) d (List.mem_flatten.2 ⟨group', hgroup', hd⟩)

namespace Arena

variable {a b : Arena} {x y : NodeId} {n m : Nat}

/-- The root of a finite tree without numbers with a fraction. -/
structure IsExact (a : Arena) (x : NodeId) : Prop extends a.IsTree x where
  isFraction_eq : ∀ y value, a.HasBelow x y → a.form? y = some (.literal value) →
    value.isFraction = false

/-- A child of such a root is one. -/
theorem IsExact.child (h : a.IsExact x) {c : NodeId} (hc : a.HasChild x c) : a.IsExact c :=
  ⟨h.toIsTree.child hc, fun _ _ hy => h.isFraction_eq _ _ (.head hc hy)⟩

/-- Nodes are equivalent to a sufficient depth exactly if their outlines are equal. -/
theorem equivalentWithin_iff_outlineWithin (hx : a.IsExact x) (hn : a.NoDeeper n x)
    (hm : b.NoDeeper m y) : equivalentWithin a b n x y = true ↔
      a.outlineWithin n x = b.outlineWithin m y := by
  induction n generalizing x m y with
  | zero => exact hn.elim
  | succ n ih =>
    cases m with
    | zero => exact hm.elim
    | succ m =>
      obtain ⟨f, hf, hfchildren⟩ := hn
      obtain ⟨g, hg, hgchildren⟩ := hm
      have hshape : f.sameShape g = true ↔ f.bare = g.bare :=
        Form.sameShape_iff fun value hv => hx.isFraction_eq x value .refl (hv ▸ hf)
      have hagree : ∀ c ∈ f.children, ∀ d ∈ g.children, equivalentWithin a b n c d = true ↔
          a.outlineWithin n c = b.outlineWithin m d := fun c hc d hd =>
        ih (hx.child ⟨f, hf, hc⟩) (hfchildren c hc) (hgchildren d hd)
      simp only [equivalentWithin, outlineWithin, hf, hg, Option.elim_some, Bool.and_eq_true,
        Form.outline_eq_iff]
      rw [← hshape]
      refine and_congr_right fun hs => ?_
      rw [allGroupsAgree_iff (Form.isSlot_childGroups_eq hs)]
      exact ⟨Form.forall₂_groups_imp fun c hc d hd => (hagree c hc d hd).1,
        Form.forall₂_groups_imp fun c hc d hd => (hagree c hc d hd).2⟩

end Arena

/-! ## Texts -/

namespace Form

variable {form? form?' : NodeId → Option Form} {text text' : NodeId → String} {x y : NodeId}
  {slot slot' : Option NodeId} {items items' : List NodeId} {f g : Form}

/-- Nodes look the same to what is above them: their forms are the same without the children, and
so are their texts. -/
structure LooksSame (form? form?' : NodeId → Option Form) (text text' : NodeId → String)
    (x y : NodeId) : Prop where
  bare : (form? x).map Form.bare = (form?' y).map Form.bare
  text : text x = text' y

namespace LooksSame

/-- What is asked of the forms of such nodes has the same answer, if it is not about their
children. -/
theorem elim_eq {α : Type} {p : Form → α} (h : LooksSame form? form?' text text' x y)
    (hp : ∀ form, p (Form.bare form) = p form) (d : α) :
    (form? x).elim d p = (form?' y).elim d p := by
  have hbare (o : Option Form) : o.elim d p = (o.map Form.bare).elim d p := by
    cases o <;> simp [hp]
  rw [hbare, hbare (form?' y), h.bare]

/-- The texts of such nodes are the same, one by one. -/
theorem map_eq (h : List.Forall₂ (LooksSame form? form?' text text') items items') :
    items.map text = items'.map text' :=
  map_eq_map_iff_forall₂.2 (h.imp fun _ _ hi => hi.text)

/-- So are their texts as parts of a template. -/
theorem map_part_eq (h : List.Forall₂ (LooksSame form? form?' text text') items items') :
    items.map (source.part form? text) = items'.map (source.part form?' text') := by
  refine map_eq_map_iff_forall₂.2 (h.imp fun x y hi => ?_)
  have hpart (o : Option Form) : o.bind stringText? = o.elim none stringText? := by
    cases o <;> rfl
  have hstring := hi.elim_eq (p := stringText?) (fun form => by cases form <;> rfl) none
  simp only [source.part, hpart, hstring, hi.text]

/-- Slots that hold such nodes are both empty, or both filled. -/
theorem cases_slot (h : List.Forall₂ (LooksSame form? form?' text text') slot.toList slot'.toList) :
    (slot = none ∧ slot' = none) ∨
      ∃ x y, slot = some x ∧ slot' = some y ∧ LooksSame form? form?' text text' x y := by
  cases slot <;> cases slot' <;> simp_all

/-- What is asked of the form in such slots has the same answer. -/
theorem elim_bind_eq {α : Type} {p : Form → α}
    (h : List.Forall₂ (LooksSame form? form?' text text') slot.toList slot'.toList)
    (hp : ∀ form, p (Form.bare form) = p form) (d : α) :
    (slot.bind form?).elim d p = (slot'.bind form?').elim d p := by
  rcases cases_slot h with ⟨rfl, rfl⟩ | ⟨x, y, rfl, rfl, hxy⟩
  · rfl
  · exact hxy.elim_eq hp d

/-- The texts in such slots are the same. -/
theorem slot_eq (h : List.Forall₂ (LooksSame form? form?' text text') slot.toList slot'.toList) :
    source.slot text slot = source.slot text' slot' := by
  rcases cases_slot h with ⟨rfl, rfl⟩ | ⟨x, y, rfl, rfl, hxy⟩
  · rfl
  · exact hxy.text

/-- They are parenthesized alike. -/
theorem operand_eq
    (h : List.Forall₂ (LooksSame form? form?' text text') slot.toList slot'.toList) :
    source.operand form? text slot = source.operand form?' text' slot' := by
  unfold source.operand
  rw [elim_bind_eq h (fun form => by cases form <;> rfl), slot_eq h]

/-- Both hold a number, or none does. -/
theorem isNumberAt_eq
    (h : List.Forall₂ (LooksSame form? form?' text text') slot.toList slot'.toList) :
    source.isNumberAt form? slot = source.isNumberAt form?' slot' :=
  elim_bind_eq h (fun form => by cases form <;> rfl) false

end LooksSame

open LooksSame

/-- The text of a form depends on the form without its children and on how the children look. -/
theorem source_congr (hbare : f.bare = g.bare)
    (hgroups : List.Forall₂ (List.Forall₂ (LooksSame form? form?' text text'))
      (f.childGroups.map ChildGroup.children) (g.childGroups.map ChildGroup.children)) :
    f.source form? text = g.source form?' text' := by
  cases f <;> cases g <;> cases hbare <;>
    simp only [childGroups, List.map_cons, List.map_nil, ChildGroup.children, List.forall₂_cons,
      List.forall₂_nil_left_iff, and_true] at hgroups
  case compilationUnit.compilationUnit =>
    simp only [source, List.map_append, map_eq hgroups.1, map_eq hgroups.2]
  case importPath.importPath path entries entries' =>
    have hempty : entries.isEmpty = entries'.isEmpty := by
      have hlength := hgroups.length_eq
      cases entries <;> cases entries' <;> first
        | rfl
        | cases hlength
    simp only [source, hempty, map_eq hgroups]
  case importEntry.importEntry name rename => cases rename <;> rfl
  case block.block => simp only [source, map_eq hgroups]
  case literal.literal => rfl
  case stringTemplate.stringTemplate => simp only [source, map_part_eq hgroups]
  case reference.reference => rfl
  case unary.unary => simp only [source, isNumberAt_eq hgroups, slot_eq hgroups]
  case binary.binary => simp only [source, operand_eq hgroups.1, slot_eq hgroups.2]
  case assignment.assignment => simp only [source, operand_eq hgroups.1, slot_eq hgroups.2]
  case memberAccess.memberAccess => simp only [source, operand_eq hgroups]
  case function.function =>
    have hblock := elim_bind_eq hgroups.2 (p := isBlock) (fun form => by cases form <;> rfl) true
    simp only [source, map_eq hgroups.1, hblock, slot_eq hgroups.2]
  case namedInvocation.namedInvocation => simp only [source, map_eq hgroups]
  case anonymousInvocation.anonymousInvocation =>
    simp only [source, operand_eq hgroups.1, map_eq hgroups.2]
  case infixInvocation.infixInvocation =>
    simp only [source, operand_eq hgroups.1, slot_eq hgroups.2]
  case basicArgument.basicArgument => rfl
  case defaultArgument.defaultArgument => simp only [source, slot_eq hgroups]
  case patternArgument.patternArgument => simp only [source, slot_eq hgroups]
  case conditional.conditional =>
    obtain ⟨hcondition, hthen, helse⟩ := hgroups
    rcases cases_slot helse with ⟨rfl, rfl⟩ | ⟨x, y, rfl, rfl, hxy⟩
    · simp only [source, slot_eq hcondition, slot_eq hthen]
    · simp only [source, slot_eq hcondition, operand_eq hthen, hxy.text]
  case localVariable.localVariable =>
    rcases cases_slot hgroups with ⟨rfl, rfl⟩ | ⟨x, y, rfl, rfl, hxy⟩
    · rfl
    · simp only [source, hxy.text]
  case returnStatement.returnStatement =>
    rcases cases_slot hgroups with ⟨rfl, rfl⟩ | ⟨x, y, rfl, rfl, hxy⟩
    · rfl
    · simp only [source, hxy.text]
  case expressionStatement.expressionStatement => simp only [source, slot_eq hgroups]

end Form

/-! ## Trees -/

namespace Arena

variable {a b : Arena} {x y : NodeId} {n m : Nat}

/-- The form of a node without its children is the shape of its outline. -/
theorem NoDeeper.map_bare_eq (h : a.NoDeeper n x) :
    (a.form? x).map Form.bare = some (a.outlineWithin n x).shape := by
  cases n with
  | zero => exact h.elim
  | succ n =>
    obtain ⟨form, hform, -⟩ := h
    simp [outlineWithin, hform]

/-- Trees with the same outline have the same text. -/
theorem renderWithin_eq_of_outlineWithin (hn : a.NoDeeper n x) (hm : b.NoDeeper m y)
    (h : a.outlineWithin n x = b.outlineWithin m y) :
    a.renderWithin n x = b.renderWithin m y := by
  induction n generalizing m x y with
  | zero => exact hn.elim
  | succ n ih =>
    cases m with
    | zero => exact hm.elim
    | succ m =>
      obtain ⟨f, hf, hfchildren⟩ := hn
      obtain ⟨g, hg, hgchildren⟩ := hm
      simp only [outlineWithin, hf, hg, Option.elim_some, Form.outline_eq_iff] at h
      simp only [renderWithin, hf, hg, Option.elim_some]
      refine Form.source_congr h.1 (Form.forall₂_groups_imp (fun c hc d hd hcd => ?_) h.2)
      refine ⟨?_, ih (hfchildren c hc) (hgchildren d hd) hcd⟩
      rw [(hfchildren c hc).map_bare_eq, (hgchildren d hd).map_bare_eq, hcd]

/-- The depth at which comparing and writing stop is below a finite tree. -/
theorem IsTree.noDeeper_succ (h : a.IsTree x) : a.NoDeeper (a.size + 1) x :=
  h.noDeeper.mono (Nat.le_succ _)

namespace IsExact

/-- A node above such roots is one, unless it is such a number. -/
theorem of_children {form : Form} (hf : a.form? x = some form)
    (hl : ∀ value, form = .literal value → value.isFraction = false)
    (h : ∀ c ∈ form.children, a.IsExact c) : a.IsExact x := by
  refine ⟨.of_children hf fun c hc => (h c hc).toIsTree, fun y value hy hvalue => ?_⟩
  rcases hy.cases_head with rfl | ⟨c, ⟨form', hf', hc⟩, hy⟩
  · exact hl value (Option.some.inj (hf.symm.trans hvalue))
  · cases hf.symm.trans hf'
    exact (h c hc).isFraction_eq y value hy hvalue

/-- Finite trees are equivalent exactly if their outlines are equal. -/
theorem equivalent_iff (hx : a.IsExact x) (hy : b.IsTree y) :
    a.equivalent x b y = true ↔ a.outline x = b.outline y :=
  equivalentWithin_iff_outlineWithin hx hx.noDeeper_succ hy.noDeeper_succ

/-- Equivalence of finite trees without numbers with a fraction is equality of what is left of them
without the numbers of nodes and scopes, and without parents, positions and types.  So it is
reflexive, symmetric and transitive, and equivalent trees have the same text. -/
theorem equivalence (hx : a.IsExact x) (hy : b.IsExact y) :
    (a.equivalent x b y = true ↔ a.outline x = b.outline y) ∧
      a.equivalent x a x = true ∧
      (a.equivalent x b y = true → b.equivalent y a x = true) ∧
      (∀ (c : Arena) (z : NodeId), c.IsExact z → a.equivalent x b y = true →
        b.equivalent y c z = true → a.equivalent x c z = true) ∧
      (a.equivalent x b y = true → a.render x = b.render y) := by
  have hxy := hx.equivalent_iff hy.toIsTree
  refine ⟨hxy, (hx.equivalent_iff hx.toIsTree).2 rfl, fun h => ?_, fun c z hz h h' => ?_,
    fun h => ?_⟩
  · exact (hy.equivalent_iff hx.toIsTree).2 (hxy.1 h).symm
  · have hyz := (hy.equivalent_iff hz.toIsTree).1 h'
    exact (hx.equivalent_iff hz.toIsTree).2 ((hxy.1 h).trans hyz)
  · exact renderWithin_eq_of_outlineWithin hx.noDeeper_succ hy.noDeeper_succ (hxy.1 h)

/-- A member of a negation without an operand, in two arenas at different places. -/
theorem equivalence_empty_slot : ∃ a b : Arena,
    a.nodes.toList.map Node.form = [.unary .negate none, .memberAccess (some ⟨0⟩) "m"] ∧
      b.nodes.toList.map Node.form =
        [.memberAccess (some ⟨2⟩) "m", .reference "r", .unary .negate none] ∧
      a.IsExact ⟨1⟩ ∧ b.IsExact ⟨0⟩ ∧ a.outline ⟨1⟩ = b.outline ⟨0⟩ ∧
      a.equivalent ⟨1⟩ b ⟨0⟩ = true ∧ a.render ⟨1⟩ = b.render ⟨0⟩ := by
  let a : Arena :=
    { nodes := #[{ form := .unary .negate none }, { form := .memberAccess (some ⟨0⟩) "m" }] }
  let b : Arena :=
    { nodes := #[{ form := .memberAccess (some ⟨2⟩) "m" }, { form := .reference "r" },
        { form := .unary .negate none }] }
  have ha : a.IsExact ⟨1⟩ := by
    have hleaf : a.IsExact ⟨0⟩ := .of_children rfl nofun nofun
    exact .of_children rfl nofun fun c hc => List.mem_singleton.1 hc ▸ hleaf
  have hb : b.IsExact ⟨0⟩ := by
    have hleaf : b.IsExact ⟨2⟩ := .of_children rfl nofun nofun
    exact .of_children rfl nofun fun c hc => List.mem_singleton.1 hc ▸ hleaf
  obtain ⟨houtline, -, -, -, hrender⟩ := ha.equivalence hb
  have hequivalent : a.equivalent ⟨1⟩ b ⟨0⟩ = true := by decide
  exact ⟨a, b, rfl, rfl, ha, hb, houtline.1 hequivalent, hequivalent, hrender hequivalent⟩

end IsExact

end Arena

end ExprLang
