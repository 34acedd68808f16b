import ExprLang.Tree.Arena

/-!
# Walking over a tree

A walk visits the nodes below a root, each node before its children and the
children in source order.  It keeps what is still to be visited on a stack.

Main definitions:

- Definition {lit}`Walk.next?`: one node of a walk.
- Definition {lit}`Arena.walk`: all nodes below a root with their depths.
- Definition {lit}`Arena.parentMismatches`: children whose recorded parent is not
  the node that holds them.
-/

namespace ExprLang

/-- A node and its depth below the root of a walk. -/
abbrev Visit := NodeId × Nat

/-- What a walk has still to visit, the next node first. -/
structure Walk where
  pending : List Visit
deriving DecidableEq, Repr, Inhabited

namespace Walk

/-- The walk from a root. -/
def ofRoot (root : NodeId) : Walk := ⟨[(root, 0)]⟩

/-- The next node and the walk after it. -/
def next? (a : Arena) (w : Walk) : Option (Visit × Walk) :=
  match w.pending with
  | [] => none
  | (id, depth) :: pending =>
    some ((id, depth), ⟨(a.children id).map (fun child => (child, depth + 1)) ++ pending⟩)

/-- The next nodes, at most so many. -/
def take (a : Arena) : Nat → Walk → List Visit
  | 0, _ => []
  | n + 1, w =>
    match w.next? a with
    | none => []
    | some (visit, w) => visit :: take a n w

/-- There are no more nodes than were asked for. -/
theorem length_take_le (a : Arena) (n : Nat) (w : Walk) : (w.take a n).length ≤ n := by
  induction n generalizing w with
  | zero => simp [take]
  | succ n ih =>
    simp only [take]
    split
    · exact Nat.zero_le _
    · exact Nat.succ_le_succ (ih _)

end Walk

namespace Arena

/-- The number of visits below a node, down to a given depth. -/
def visitCount (a : Arena) : Nat → NodeId → Nat
  | 0, _ => 0
  | n + 1, id => 1 + ((a.children id).map (a.visitCount n)).sum

/-- The nodes below a root with their depths, in the order of the walk.  A tree is no deeper
than the number of nodes. -/
def walk (a : Arena) (root : NodeId) : List Visit :=
  (Walk.ofRoot root).take a (a.visitCount (a.size + 1) root)

/-- The first nodes of the walk, at most `limit`. -/
def walkUpTo (a : Arena) (limit : Nat) (root : NodeId) : List Visit :=
  (Walk.ofRoot root).take a limit

/-- A child whose recorded parent is not the node that holds it. -/
structure Mismatch where
  child : NodeId
  recorded : Option NodeId
  holder : NodeId
deriving DecidableEq, Repr, Inhabited

/-- The children of one node whose recorded parent is another one. -/
def mismatchesAt (a : Arena) (holder : NodeId) : List Mismatch :=
  ((a.children holder).filter fun child => a.parent? child != some holder).map fun child =>
    ⟨child, a.parent? child, holder⟩

/-- Every child below a root whose recorded parent is not the node that holds it. -/
def parentMismatches (a : Arena) (root : NodeId) : List Mismatch :=
  (a.walk root).flatMap fun (id, _) => a.mismatchesAt id

end Arena

end ExprLang
