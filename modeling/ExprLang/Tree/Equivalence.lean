import ExprLang.Tree.Arena

/-!
# Equivalence of trees

Two trees, possibly of different arenas, are equivalent when their nodes have
the same forms with the same names, operators and values all the way down.
Positions, parents, scopes and types do not matter.

Main definitions:

- Definition {lit}`Arena.equivalent`: equivalence of two trees.
-/

namespace ExprLang.Arena

/-- Whether two lists have the same length and agree item by item. -/
def allPairs (agree : NodeId → NodeId → Bool) : List NodeId → List NodeId → Bool
  | [], [] => true
  | x :: xs, y :: ys => agree x y && allPairs agree xs ys
  | _, _ => false

/-- Lists agree exactly if they are of one length and every pair of items agrees. -/
theorem allPairs_eq_true_iff (agree : NodeId → NodeId → Bool) (xs ys : List NodeId) :
    allPairs agree xs ys = true ↔
      xs.length = ys.length ∧ ∀ p ∈ xs.zip ys, agree p.1 p.2 = true := by
  induction xs generalizing ys with
  | nil => cases ys <;> simp [allPairs]
  | cons x xs ih =>
    cases ys with
    | nil => simp [allPairs]
    | cons y ys =>
      simp only [allPairs, Bool.and_eq_true, ih, List.length_cons, List.zip_cons_cons,
        List.forall_mem_cons, Nat.add_right_cancel_iff]
      exact and_left_comm

/-- Whether two groups of children agree child by child. -/
def groupsAgree (agree : NodeId → NodeId → Bool) : ChildGroup → ChildGroup → Bool
  | .slot (some x), .slot (some y) => agree x y
  | .slot none, .slot none => true
  | .list xs, .list ys => allPairs agree xs ys
  | _, _ => false

/-- Whether two lists of groups agree group by group. -/
def allGroupsAgree (agree : NodeId → NodeId → Bool) :
    List ChildGroup → List ChildGroup → Bool
  | [], [] => true
  | g :: gs, h :: hs => groupsAgree agree g h && allGroupsAgree agree gs hs
  | _, _ => false

/-- Equivalence of two trees down to a given depth. -/
def equivalentWithin (a b : Arena) : Nat → NodeId → NodeId → Bool
  | 0, _, _ => false
  | n + 1, x, y =>
    match a.form? x, b.form? y with
    | some f, some g =>
      f.sameShape g && allGroupsAgree (equivalentWithin a b n) f.childGroups g.childGroups
    | _, _ => false

/-- Whether the tree at `x` in one arena is equivalent to the tree at `y` in another.  A tree
is no deeper than the number of nodes. -/
def equivalent (a : Arena) (x : NodeId) (b : Arena) (y : NodeId) : Bool :=
  equivalentWithin a b (a.size + 1) x y

end ExprLang.Arena
