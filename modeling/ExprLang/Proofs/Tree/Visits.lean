import ExprLang.Proofs.Tree.Depth
import ExprLang.Proofs.Tree.Walks

/-!
# Walks over finite trees

The nodes of a finite tree are listed by recursion: the root, then what is below each
of its children, one level deeper.  A walk, which has no recursion and keeps what is
left on a stack, makes the same visits in the same order.  Nothing is said of parents,
and nodes may be shared; a shared node is visited as often as it is held.

Main definitions:

- Definition {lit}`Arena.visits`: the visits below a node, by recursion.

Main results:

- Theorem {lit}`Arena.IsTree.visits_eq`: what the recursion is.
- Theorem {lit}`Arena.IsTree.walk_eq_visits`: a walk makes these visits.
-/

namespace ExprLang.Arena

variable {a : Arena} {id root : NodeId} {depth n m : Nat} {visit : Visit}

/-! ## Visits by recursion -/

/-- The visits of a tree whose root is at some depth, down to so many levels: the root, then what
is below each child. -/
def visitsWithin (a : Arena) : Nat → Nat → NodeId → List Visit
  | 0, _, _ => []
  | n + 1, depth, id => (id, depth) :: (a.children id).flatMap (a.visitsWithin n (depth + 1))

/-- The visits of a tree whose root is at some depth.  A finite tree has no more levels than there
are nodes. -/
def visits (a : Arena) (depth : Nat) (id : NodeId) : List Visit := a.visitsWithin a.size depth id

/-- What a node has as a child is one of its children. -/
theorem hasChild_iff {c : NodeId} : a.HasChild id c ↔ c ∈ a.children id := by
  unfold HasChild children
  cases a.form? id <;> simp

/-- The visits below some nodes, then those below others. -/
theorem Preorder.append {ids others : List NodeId} {visits more : List Visit}
    (h : a.Preorder depth ids visits) (h' : a.Preorder depth others more) :
    a.Preorder depth (ids ++ others) (visits ++ more) := by
  induction h with
  | nil => exact h'
  | cons hbelow _ _ ih =>
    rw [List.append_assoc]
    exact .cons hbelow (ih h')

/-- Fewer visits of a walk are the first of more. -/
theorem take_take_of_le (a : Arena) {k n : Nat} (h : k ≤ n) (w : Walk) :
    (w.take a n).take k = w.take a k := by
  induction k generalizing n w with
  | zero => rfl
  | succ k ih =>
    obtain ⟨n, rfl⟩ : ∃ m, n = m + 1 := ⟨n - 1, by omega⟩
    simp only [Walk.take]
    cases w.next? a with
    | none => rfl
    | some next => exact congrArg (next.1 :: ·) (ih (Nat.le_of_succ_le_succ h) next.2)

/-- The visits by recursion are no deeper than the levels that they come from. -/
theorem depth_lt_of_mem_visitsWithin (h : visit ∈ a.visitsWithin n depth id) :
    visit.2 < depth + n := by
  induction n generalizing depth id with
  | zero => cases h
  | succ n ih =>
    rw [visitsWithin, List.mem_cons, List.mem_flatMap] at h
    rcases h with rfl | ⟨c, -, hbelow⟩
    · exact Nat.lt_add_of_pos_right (Nat.succ_pos n)
    · have := ih hbelow
      omega

namespace NoDeeper

/-- A tree of some more levels has children with one level less. -/
theorem child {c : NodeId} (h : a.NoDeeper (n + 1) id) (hc : c ∈ a.children id) :
    a.NoDeeper n c := by
  obtain ⟨form, hform, hchildren⟩ := h
  obtain ⟨form', hform', hmem⟩ := hasChild_iff.2 hc
  cases hform.symm.trans hform'
  exact hchildren c hmem

/-- Below all levels the bound changes nothing. -/
theorem visitsWithin_eq (hn : a.NoDeeper n id) (hm : a.NoDeeper m id) :
    a.visitsWithin n depth id = a.visitsWithin m depth id := by
  induction n generalizing m depth id with
  | zero => exact hn.elim
  | succ n ih =>
    cases m with
    | zero => exact hm.elim
    | succ m =>
      rw [visitsWithin, visitsWithin]
      exact congrArg _ (List.flatMap_congr fun c hc => ih (hn.child hc) (hm.child hc))

/-- The visits by recursion are in order. -/
theorem preorder (h : a.NoDeeper n id) : a.Preorder depth [id] (a.visitsWithin n depth id) := by
  induction n generalizing depth id with
  | zero => exact h.elim
  | succ n ih =>
    have hall (children : List NodeId) (hc : ∀ c ∈ children, c ∈ a.children id) :
        a.Preorder (depth + 1) children (children.flatMap (a.visitsWithin n (depth + 1))) := by
      induction children with
      | nil => exact .nil
      | cons c rest ihrest =>
        have hfirst : a.Preorder (depth + 1) [c] (a.visitsWithin n (depth + 1) c) :=
          ih (h.child (hc c (List.mem_cons_self ..)))
        have hrest := ihrest fun d hd => hc d (List.mem_cons_of_mem _ hd)
        exact hfirst.append hrest
    have hbelow := hall (a.children id) fun _ hc => hc
    rw [visitsWithin, ← List.append_nil ((id, depth) :: _)]
    exact .cons hbelow .nil

end NoDeeper

/-! ## Finite trees -/

namespace IsTree

/-- The visits of a finite tree are that of its root, then those below its children. -/
theorem visits_eq (h : a.IsTree id) (depth : Nat) :
    a.visits depth id = (id, depth) :: (a.children id).flatMap (a.visits (depth + 1)) := by
  have hdeep : a.NoDeeper (a.size + 1) id := h.noDeeper.mono (Nat.le_succ _)
  rw [visits, h.noDeeper.visitsWithin_eq hdeep, visitsWithin]
  rfl

/-- The nodes below the root of a finite tree are roots of finite trees. -/
theorem of_hasBelow (h : a.IsTree root) (hid : a.HasBelow root id) : a.IsTree id where
  exists_form _ hy := h.exists_form _ (hid.trans hy)
  acyclic _ hy := h.acyclic _ (hid.trans hy)

/-- The visits of a finite tree are in order. -/
theorem preorder_visits (h : a.IsTree root) : a.Preorder 0 [root] (a.visits 0 root) :=
  h.noDeeper.preorder

/-- However many visits a walk is asked for, it makes the first of those that recursion gives. -/
theorem take_eq_take_visits (h : a.IsTree root) (limit : Nat) :
    (Walk.ofRoot root).take a limit = (a.visits 0 root).take limit := by
  rcases Nat.le_total (a.visits 0 root).length limit with hle | hle
  · rw [h.preorder_visits.take_of_le hle, List.take_of_length_le hle]
  · -- the walk to its end begins with the walk up to the limit
    rw [← take_take_of_le a hle, h.preorder_visits.take_of_le (Nat.le_refl _)]

/-- On a finite tree a walk, which keeps what is left on a stack, makes the visits that recursion
gives: each node before what is below its children, the children in order, one level deeper.  It
does so one by one, however many are asked for, and then it is at its end.  The children found
with another parent are those of the visited nodes, node by node in the order of the visits, and
of each node in the order of its children. -/
theorem walk_eq_visits (h : a.IsTree root) :
    (∀ id, a.HasBelow root id → ∀ depth,
      a.visits depth id = (id, depth) :: (a.children id).flatMap (a.visits (depth + 1))) ∧
    a.walk root = a.visits 0 root ∧
    (∀ limit, a.walkUpTo limit root = (a.visits 0 root).take limit) ∧
    a.parentMismatches root = (a.visits 0 root).flatMap fun (holder, _) =>
      ((a.children holder).filter (a.parent? · ≠ some holder)).map fun child =>
        ⟨child, a.parent? child, holder⟩ := by
  have hwalk : a.walk root = a.visits 0 root := by
    have hdepth (visit : Visit) (hv : visit ∈ a.visits 0 root) : visit.2 < 0 + (a.size + 1) :=
      Nat.lt_succ_of_lt (depth_lt_of_mem_visitsWithin hv)
    have hcount : a.visitCount (a.size + 1) root = (a.visits 0 root).length := by
      simpa using h.preorder_visits.sum_visitCount hdepth
    rw [walk, hcount, h.preorder_visits.take_of_le (Nat.le_refl _)]
  refine ⟨fun id hid depth => (h.of_hasBelow hid).visits_eq depth, hwalk,
    h.take_eq_take_visits, ?_⟩
  rw [parentMismatches, hwalk]
  refine List.flatMap_congr fun visit _ =>
    congrArg (List.map _) (List.filter_congr fun child _ => ?_)
  rw [Bool.eq_iff_iff, bne_iff_ne, decide_eq_true_iff]

/-- A call that holds a negation, the name that the negation holds too and is the parent of, and a
name without a parent: the shared name is visited twice and found below the call. -/
theorem walk_eq_visits_shared : ∃ a : Arena, a.nodes.toList.map Node.form =
      [.reference "x", .unary .negate (some ⟨0⟩), .reference "y",
        .namedInvocation "f" [⟨1⟩, ⟨0⟩, ⟨2⟩]] ∧
    a.IsTree ⟨3⟩ ∧ a.visits 0 ⟨3⟩ = [(⟨3⟩, 0), (⟨1⟩, 1), (⟨0⟩, 2), (⟨0⟩, 1), (⟨2⟩, 1)] ∧
    (∀ id, a.HasBelow ⟨3⟩ id → ∀ depth,
      a.visits depth id = (id, depth) :: (a.children id).flatMap (a.visits (depth + 1))) ∧
    a.walk ⟨3⟩ = a.visits 0 ⟨3⟩ ∧ (∀ limit, a.walkUpTo limit ⟨3⟩ = (a.visits 0 ⟨3⟩).take limit) ∧
    a.parentMismatches ⟨3⟩ = [⟨⟨0⟩, some ⟨1⟩, ⟨3⟩⟩, ⟨⟨2⟩, none, ⟨3⟩⟩] := by
  let a : Arena :=
    { nodes := #[{ form := .reference "x", parent := some ⟨1⟩ },
        { form := .unary .negate (some ⟨0⟩), parent := some ⟨3⟩ }, { form := .reference "y" },
        { form := .namedInvocation "f" [⟨1⟩, ⟨0⟩, ⟨2⟩] }] }
  have htree : a.IsTree ⟨3⟩ := by
    have hx : a.IsTree ⟨0⟩ := .of_children rfl nofun
    have hy : a.IsTree ⟨2⟩ := .of_children rfl nofun
    have hnegation : a.IsTree ⟨1⟩ := .of_children rfl fun c hc => List.mem_singleton.1 hc ▸ hx
    have hall : ∀ c ∈ [(⟨1⟩ : NodeId), ⟨0⟩, ⟨2⟩], a.IsTree c := by simp [hx, hy, hnegation]
    exact .of_children rfl hall
  obtain ⟨hvisits, hwalk, hlimit, hmismatches⟩ := htree.walk_eq_visits
  exact ⟨a, rfl, htree, by decide, hvisits, hwalk, hlimit, hmismatches.trans (by decide)⟩

end IsTree

end ExprLang.Arena
