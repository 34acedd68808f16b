import ExprLang.Proofs.Layout.Values
import ExprLang.Proofs.Parser.Primitives
import ExprLang.Proofs.Tree.Placed

/-!
# States in two layouts

What is done to the tapes, the arenas and the reports of two parses that differ in
layout only leaves them so.  Nodes have the same numbers, forms and parents in both,
scopes bind the same names, and positions correspond.

Main definitions:

- Definition {lit}`Tape.Alike` and {lit}`Arena.Alike`: tapes and arenas that differ in
  layout only.
- Definition {lit}`ParserState.Alike`: states of parses that do.

Main results:

- Theorem {lit}`Tape.Alike.skip`: recovery skips the same tokens.
- Theorem {lit}`Arena.Alike.alloc`: a new node takes over its children in both arenas.
-/

namespace ExprLang

variable {l : Alignment}

/-! ## Tapes -/

/-- Tapes of corresponding tokens at the same place; their ends correspond. -/
structure Tape.Alike (l : Alignment) (t t' : Tape) : Prop where
  consumed : List.Forall₂ (Token.Alike l) t.consumed t'.consumed
  pending : List.Forall₂ (Token.Alike l) t.pending t'.pending
  finish : t.finish.toSpan.Alike l t'.finish.toSpan

namespace Tape.Alike

variable {t t' : Tape}

/-- Items at the same place of two lists, or what stands for them behind the ends. -/
theorem getD {α : Type} {r : α → α → Prop} {xs ys : List α} {x y : α}
    (h : List.Forall₂ r xs ys) (hx : r x y) (n : Nat) : r (xs.getD n x) (ys.getD n y) := by
  induction h generalizing n with
  | nil => exact hx
  | cons h _ ih =>
    cases n with
    | zero => exact h
    | succ n => exact ih n

/-- A token ahead. -/
theorem lookAhead (h : t.Alike l t') (n : Nat) :
    (t.lookAhead n).Alike l (t'.lookAhead n) := by
  have hend : (Token.endOfFile t.finish).Alike l (.endOfFile t'.finish) := ⟨rfl, rfl, h.finish⟩
  exact getD h.pending hend n

/-- The next token. -/
theorem peek (h : t.Alike l t') : t.peek.Alike l t'.peek := h.lookAhead 0

/-- The rest of two lists. -/
theorem tail {α : Type} {r : α → α → Prop} {xs ys : List α} (h : List.Forall₂ r xs ys) :
    List.Forall₂ r xs.tail ys.tail := by
  cases h with
  | nil => exact .nil
  | cons _ h => exact h

/-- Moving forward. -/
theorem advance (h : t.Alike l t') : t.advance.2.Alike l t'.advance.2 :=
  ⟨.cons h.peek h.consumed, tail h.pending, h.finish⟩

/-- As many tokens were consumed. -/
theorem consumedCount (h : t.Alike l t') : t'.consumedCount = t.consumedCount :=
  h.consumed.length_eq.symm

/-- Skipping within a bound. -/
theorem skipWithin (h : t.Alike l t') (stop : Expectation) (n : Nat) (mayStop : Bool)
    (depth : Nat) :
    (t.skipWithin stop n mayStop depth).Alike l (t'.skipWithin stop n mayStop depth) := by
  induction n generalizing t t' mayStop depth with
  | zero => exact h
  | succ n ih =>
    have hnext := h.advance
    have hskip (mayStop : Bool) (depth : Nat) := ih hnext mayStop depth
    simp only [Tape.skipWithin, h.peek.kind]
    split
    · exact h
    · split
      · exact hnext
      · split
        · exact hnext
        · exact hskip true depth
      all_goals exact hskip ..

/-- The same tokens are skipped after an error. -/
theorem skip (h : t.Alike l t') (stop : Expectation) (mark : Nat) :
    (t.skip stop mark).Alike l (t'.skip stop mark) := by
  unfold Tape.skip
  rw [h.consumedCount, ← h.pending.length_eq]
  exact h.skipWithin ..

end Tape.Alike

/-! ## Operations on arenas -/

/-- Two computations end with related values, or both meet a fault. -/
inductive Outcomes {α β : Type} (r : α → β → Prop) : Except Fault α → Except Fault β → Prop
  | ok {a : α} {b : β} (h : r a b) : Outcomes r (.ok a) (.ok b)
  | error (f f' : Fault) : Outcomes r (.error f) (.error f')

namespace Outcomes

variable {α β γ δ : Type} {r : α → β → Prop} {q : γ → δ → Prop} {x : Except Fault α}
  {y : Except Fault β}

/-- One computation after another. -/
theorem bind {f : α → Except Fault γ} {g : β → Except Fault δ} (h : Outcomes r x y)
    (hf : ∀ a b, r a b → Outcomes q (f a) (g b)) : Outcomes q (x >>= f) (y >>= g) := by
  cases h with
  | ok h => exact hf _ _ h
  | error f f' => exact .error f f'

/-- Values in other words. -/
theorem map {f : α → γ} {g : β → δ} (h : Outcomes r x y) (hf : ∀ a b, r a b → q (f a) (g b)) :
    Outcomes q (f <$> x) (g <$> y) := by
  cases h with
  | ok h => exact .ok (hf _ _ h)
  | error f f' => exact .error f f'

/-- The same computation. -/
theorem refl (x : Except Fault α) : Outcomes (· = ·) x x := by
  cases x with
  | ok a => exact .ok rfl
  | error f => exact .error f f

end Outcomes

/-! ## Arenas -/

/-- Nodes of the same form with the same parent whose positions correspond. -/
structure Node.Alike (l : Alignment) (x y : Node) : Prop where
  form : y.form = x.form
  parent : y.parent = x.parent
  position : Option.Rel (Span.Alike l) x.position y.position

/-- Arenas with corresponding nodes and the same scopes. -/
structure Arena.Alike (l : Alignment) (a b : Arena) : Prop where
  size_eq : b.size = a.size
  node? : ∀ id, Option.Rel (Node.Alike l) (a.node? id) (b.node? id)
  scopes : b.scopes = a.scopes
  redefinitions : b.redefinitions = a.redefinitions

namespace Arena.Alike

variable {a b : Arena} {id child : NodeId}

/-- The forms are the same. -/
theorem form? (h : a.Alike l b) (id : NodeId) : b.form? id = a.form? id := by
  have hnode := h.node? id
  unfold Arena.form?
  generalize a.node? id = x at hnode
  generalize b.node? id = y at hnode
  cases hnode with
  | none => rfl
  | some hnode => exact congrArg some hnode.form

/-- The positions correspond. -/
theorem position? (h : a.Alike l b) (id : NodeId) :
    Option.Rel (Span.Alike l) (a.position? id) (b.position? id) := by
  have hnode := h.node? id
  unfold Arena.position?
  generalize a.node? id = x at hnode
  generalize b.node? id = y at hnode
  cases hnode with
  | none => exact .none
  | some hnode => exact hnode.position

/-- Nodes define the same names. -/
theorem definitionName (h : a.Alike l b) (id : NodeId) :
    b.definitionName id = a.definitionName id :=
  definitionName_congr (h.form? id) fun child _ => h.form? child

/-- A node that has to exist. -/
theorem node (h : a.Alike l b) (id : NodeId) :
    Outcomes (Node.Alike l) (a.node id) (b.node id) := by
  have hnode := h.node? id
  unfold Arena.node
  generalize a.node? id = x at hnode
  generalize b.node? id = y at hnode
  cases hnode with
  | none => exact .error ..
  | some hnode => exact .ok hnode

/-- The form of a node that has to exist. -/
theorem form (h : a.Alike l b) (id : NodeId) : Outcomes (· = ·) (a.form id) (b.form id) :=
  (h.node id).map fun _ _ hnode => hnode.form.symm

/-- Changing a node in both arenas. -/
theorem modify (h : a.Alike l b) (id : NodeId) {change change' : Node → Node}
    (hc : ∀ x y, x.Alike l y → (change x).Alike l (change' y)) :
    (a.modify id change).Alike l (b.modify id change') := by
  refine ⟨by rw [size_modify, size_modify, h.size_eq], fun other => ?_, h.scopes, h.redefinitions⟩
  by_cases hid : other = id
  · subst hid
    rw [node?_modify_self, node?_modify_self]
    have hnode := h.node? other
    generalize a.node? other = x at hnode
    generalize b.node? other = y at hnode
    cases hnode with
    | none => exact .none
    | some hnode => exact .some (hc _ _ hnode)
  · rw [node?_modify_of_ne a change hid, node?_modify_of_ne b change' hid]
    exact h.node? other

/-- Changing the form of a node. -/
theorem setForm (h : a.Alike l b) (id : NodeId) (form : Form) :
    (a.setForm id form).Alike l (b.setForm id form) :=
  h.modify id fun _ _ hnode => ⟨rfl, hnode.parent, hnode.position⟩

/-- Changing the recorded parent of a node. -/
theorem setParent (h : a.Alike l b) (id : NodeId) (parent : Option NodeId) :
    (a.setParent id parent).Alike l (b.setParent id parent) :=
  h.modify id fun _ _ hnode => ⟨hnode.form, rfl, hnode.position⟩

/-- Binding the name of a child. -/
theorem defineChild (h : a.Alike l b) (scope : ScopeId) (child : NodeId) :
    Outcomes (Arena.Alike l) (a.defineChild scope child) (b.defineChild scope child) := by
  unfold Arena.defineChild
  rw [h.definitionName child, h.scopes]
  cases a.definitionName child with
  | none => exact .ok h
  | some name =>
    refine (Outcomes.refl _).bind ?_
    rintro result _ rfl
    cases result with
    | ok scopes => exact .ok ⟨h.size_eq, h.node?, rfl, h.redefinitions⟩
    | error existing => exact .ok ⟨h.size_eq, h.node?, rfl, by rw [h.redefinitions]⟩

/-- Removing the binding of the name of a child. -/
theorem undefineChild (h : a.Alike l b) (scope : ScopeId) (child : NodeId) :
    Outcomes (Arena.Alike l) (a.undefineChild scope child) (b.undefineChild scope child) := by
  unfold Arena.undefineChild
  rw [h.definitionName child, h.scopes]
  cases a.definitionName child with
  | none => exact .ok h
  | some name =>
    refine (Outcomes.refl _).bind ?_
    rintro result _ rfl
    exact .ok ⟨h.size_eq, h.node?, rfl, h.redefinitions⟩

/-- Taking a child out of what holds it. -/
theorem releaseFrom (h : a.Alike l b) (parent child : NodeId) :
    Outcomes (fun x y => x.2.Alike l y.2) (a.releaseFrom parent child)
      (b.releaseFrom parent child) := by
  unfold Arena.releaseFrom
  refine (h.form parent).bind ?_
  rintro form _ rfl
  split
  · exact .ok h
  · rename_i place form' _
    have hset := h.setForm parent form'
    dsimp only
    split
    · exact (hset.undefineChild ..).bind fun _ _ hundefined => .ok hundefined
    · exact .ok hset

/-- Taking over a child. -/
theorem claimChild (h : a.Alike l b) (id : NodeId) (scope? : Option ScopeId) (child : NodeId) :
    Outcomes (Arena.Alike l) (a.claimChild id scope? child) (b.claimChild id scope? child) := by
  unfold Arena.claimChild
  refine (h.node child).bind fun node node' hnode => ?_
  rw [hnode.parent]
  cases scope? with
  | none =>
    have hset (a' b' : Arena) (h' : a'.Alike l b') :=
      Outcomes.ok (h'.setParent child (some id))
    cases node.parent with
    | none => exact hset a b h
    | some parent =>
      exact ((h.releaseFrom parent child).map fun _ _ hreleased => hreleased).bind hset
  | some scope =>
    have hdefine (a' b' : Arena) (h' : a'.Alike l b') :=
      (h'.setParent child (some id)).defineChild scope child
    cases node.parent with
    | none => exact hdefine a b h
    | some parent =>
      exact ((h.releaseFrom parent child).map fun _ _ hreleased => hreleased).bind hdefine

/-- Taking over children one by one. -/
theorem claimAll (h : a.Alike l b) (id : NodeId) (scope? : Option ScopeId)
    (children : List NodeId) :
    Outcomes (Arena.Alike l) (children.foldlM (fun a child => a.claimChild id scope? child) a)
      (children.foldlM (fun a child => a.claimChild id scope? child) b) := by
  induction children generalizing a b with
  | nil => exact .ok h
  | cons child children ih =>
    rw [List.foldlM_cons, List.foldlM_cons]
    exact (h.claimChild id scope? child).bind fun _ _ h' => ih h'

/-- A new node without a parent. -/
theorem push (h : a.Alike l b) (form : Form) : (a.push form).Alike l (b.push form) := by
  refine ⟨by rw [size_push, size_push, h.size_eq], fun id => ?_, h.scopes, h.redefinitions⟩
  have hsize : b.nodes.size = a.nodes.size := h.size_eq
  have hnode := h.node? id
  simp only [Arena.node?, Arena.push, Array.getElem?_push, hsize] at hnode ⊢
  split
  · exact .some ⟨rfl, rfl, .none⟩
  · exact hnode

/-- A new node takes over its children in both arenas. -/
theorem alloc (h : a.Alike l b) (form : Form) :
    Outcomes (fun x y => x.1 = y.1 ∧ x.2.Alike l y.2) (a.alloc form) (b.alloc form) := by
  have hnext : b.next = a.next := congrArg NodeId.mk h.size_eq
  have hclaim := (h.push form).claimAll a.next form.scope? form.children
  show Outcomes _ ((form.children.foldlM (fun c child =>
      c.claimChild a.next form.scope? child) (a.push form)) >>= fun c => Pure.pure (a.next, c))
    ((form.children.foldlM (fun c child =>
      c.claimChild b.next form.scope? child) (b.push form)) >>= fun c => Pure.pure (b.next, c))
  rw [hnext]
  exact hclaim.bind fun _ _ hclaimed => .ok ⟨rfl, hclaimed⟩

/-- Saying where a node came from. -/
theorem setPosition (h : a.Alike l b) (id : NodeId) {span span' : Span} (hs : span.Alike l span') :
    Outcomes (Arena.Alike l) (a.setPosition id span) (b.setPosition id span') := by
  unfold Arena.setPosition
  refine (h.node id).bind fun node node' hnode => ?_
  have hposition := hnode.position
  generalize node.position = x at hposition
  generalize node'.position = y at hposition
  cases hposition with
  | none => exact .ok (h.modify id fun _ _ hnode => ⟨hnode.form, hnode.parent, .some hs⟩)
  | some hspan => exact .error ..

/-- Opening a scope. -/
theorem newScope (h : a.Alike l b) (parent : Option ScopeId) :
    (b.newScope parent).1 = (a.newScope parent).1 ∧
      (a.newScope parent).2.Alike l (b.newScope parent).2 := by
  unfold Arena.newScope
  rw [h.scopes]
  exact ⟨rfl, h.size_eq, h.node?, rfl, h.redefinitions⟩

/-- Taking the redefinitions. -/
theorem takeRedefinitions (h : a.Alike l b) :
    b.takeRedefinitions.1 = a.takeRedefinitions.1 ∧
      a.takeRedefinitions.2.Alike l b.takeRedefinitions.2 :=
  ⟨h.redefinitions, h.size_eq, h.node?, h.scopes, rfl⟩

/-- Arenas without nodes. -/
theorem empty : Arena.empty.Alike l Arena.empty :=
  ⟨rfl, fun _ => .none, rfl, rfl⟩

end Arena.Alike

/-! ## States -/

/-- States of two parses that differ in layout only. -/
structure ParserState.Alike (l : Alignment) (s s' : ParserState) : Prop where
  tape : s.tape.Alike l s'.tape
  arena : s.arena.Alike l s'.arena
  orderly : s.arena.Orderly
  report : s.report.Alike l s'.report
  scopes : s'.scopes = s.scopes
  options : s'.options = s.options

namespace ParserState.Alike

variable {s s' : ParserState}

/-- After the next token. -/
theorem advanced (h : s.Alike l s') : s.advanced.Alike l s'.advanced :=
  { h with tape := h.tape.advance }

/-- After a token that was given back. -/
theorem restored (h : s.Alike l s') : s.restored.Alike l s'.restored :=
  { h with tape := ⟨h.tape.consumed, .cons h.tape.peek (Tape.Alike.tail h.tape.pending),
      h.tape.finish⟩ }

/-- After an error. -/
theorem recorded (h : s.Alike l s') {d d' : Diagnostic} (hd : d.Alike l d') :
    (s.recorded d).Alike l (s'.recorded d') :=
  { h with report := h.report.recordIn hd }

end ParserState.Alike

end ExprLang
