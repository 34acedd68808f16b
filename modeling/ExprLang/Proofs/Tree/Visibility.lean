import ExprLang.Proofs.Tree.Changes
import ExprLang.Proofs.Tree.Scoping

/-!
# Visibility of names

Scopes are opened in none or in one that is there, so the scopes around a scope
are older than it and a chain of scopes ends.  A name is looked up along such a
chain, and the nearest scope that binds it hides the bindings farther out.  A
scope is seen from inside under a name if nothing on the way to it binds that
name: only from there does a lookup change when the scope gets or loses a binding
of the name.

Main definitions:

- Definition {lit}`ScopeEdit`: one operation on scopes.
- Definition {lit}`Scopes.Chain`: a scope and the scopes around it.
- Definition {lit}`Scopes.Sees`: what a scope binds a name to is not hidden.
- Definition {lit}`Scopes.Lexical`: how lookups go and how they change.

Main results:

- Theorem {lit}`Scopes.Older.find_eq`: a lookup goes along the chain.
- Theorems {lit}`Scopes.Rebinds.find_eq_of_sees` and
  {lit}`Scopes.Rebinds.find_eq_of_not_sees`: which lookups change.
- Theorem {lit}`ScopeEdit.lexical_of_runAll`: all of that after any operations.
-/

namespace ExprLang

/-! ## Operations -/

/-- One operation on scopes. -/
inductive ScopeEdit where
  | add (parent : Option ScopeId)
  | define (id : ScopeId) (name : String) (node : NodeId)
  | undefine (id : ScopeId) (name : String) (node : NodeId)
deriving DecidableEq, Repr, Inhabited

namespace ScopeEdit

/-- Does an operation to scopes.  Where a name is taken, the scopes stay as they are. -/
def run (s : Scopes) : ScopeEdit → Except Fault Scopes
  | add parent => pure (s.add parent).2
  | define id name node => (·.toOption.getD s) <$> s.define id name node
  | undefine id name node => (·.2) <$> s.undefine id name node

/-- Does one operation after the other. -/
def runAll (edits : List ScopeEdit) (s : Scopes) : Except Fault Scopes :=
  edits.foldlM run s

/-- Whether a scope that is opened lies in none or in one that is there. -/
def isLegal (s : Scopes) : ScopeEdit → Bool
  | add (some parent) => decide (parent.index < s.size)
  | _ => true

/-- Whether that is so for operations that are done one after the other. -/
def allLegal (s : Scopes) : List ScopeEdit → Bool
  | [] => true
  | e :: edits => e.isLegal s &&
    match e.run s with
    | .ok s => allLegal s edits
    | .error _ => true

end ScopeEdit

namespace Scopes

variable {s s' : Scopes} {scope : Scope} {t u v p : ScopeId} {x y : String} {n m : NodeId}
  {chain below above : List ScopeId}

/-! ## Chains of scopes -/

/-- What a scope itself binds a name to. -/
def binding? (s : Scopes) (x : String) (t : ScopeId) : Option NodeId :=
  (s.get t).toOption.bind (·.find? x)

/-- A scope and the scopes around it, from the inside out. -/
inductive Chain (s : Scopes) : ScopeId → List ScopeId → Prop
  | outermost {t : ScopeId} {scope : Scope} (get : s.get t = .ok scope)
    (parent : scope.parent = none) : Chain s t [t]
  | inside {t p : ScopeId} {scope : Scope} {around : List ScopeId} (get : s.get t = .ok scope)
    (parent : scope.parent = some p) (rest : Chain s p around) : Chain s t (t :: around)

/-- A scope lies on the chain of another one, and no scope below it there binds a name. -/
def Sees (s : Scopes) (x : String) (u t : ScopeId) : Prop :=
  ∃ below above, s.Chain u (below ++ t :: above) ∧ ∀ v ∈ below, s.binding? x v = none

/-- The scope around a scope is older. -/
def Older (s : Scopes) : Prop :=
  ∀ t scope p, s.get t = .ok scope → scope.parent = some p → p.index < t.index

/-- What a scope binds. -/
theorem binding?_of_get (h : s.get t = .ok scope) (x : String) :
    s.binding? x t = scope.find? x := by
  rw [binding?, h]
  rfl

/-- A scope with a number in range can be looked up. -/
theorem exists_get (h : t.index < s.size) : ∃ scope, s.get t = .ok scope := by
  have hget : s.scopes[t.index]? = some s.scopes[t.index] := Array.getElem?_eq_getElem h
  exact ⟨s.scopes[t.index], by rw [get, hget]⟩

namespace Chain

/-- A chain begins with its scope. -/
theorem exists_cons (h : s.Chain t chain) : ∃ around, chain = t :: around := by
  cases h with
  | outermost => exact ⟨[], rfl⟩
  | inside => exact ⟨_, rfl⟩

/-- A chain ends or goes on with the chain of the scope around. -/
theorem around (h : s.Chain t (t :: above)) : ∃ scope, s.get t = .ok scope ∧
    (scope.parent = none ∧ above = [] ∨ ∃ p, scope.parent = some p ∧ s.Chain p above) := by
  cases h with
  | outermost hget hparent => exact ⟨_, hget, .inl ⟨hparent, rfl⟩⟩
  | inside hget hparent hrest => exact ⟨_, hget, .inr ⟨_, hparent, hrest⟩⟩

/-- From each of its scopes on, a chain is the chain of that scope. -/
theorem suffix (h : s.Chain u (below ++ t :: above)) : s.Chain t (t :: above) := by
  induction below generalizing u with
  | nil =>
    obtain ⟨around, he⟩ := h.exists_cons
    obtain ⟨rfl, -⟩ := List.cons.inj he
    exact h
  | cons v below ih =>
    obtain ⟨around, he⟩ := h.exists_cons
    obtain ⟨rfl, -⟩ := List.cons.inj he
    obtain ⟨scope, -, ⟨-, hempty⟩ | ⟨p, -, hrest⟩⟩ := h.around
    · simp at hempty
    · exact ih hrest

/-- Farther out on a chain the scopes are older, so it meets no scope twice. -/
theorem pairwise (h : s.Chain t chain) (hs : s.Older) :
    chain.Pairwise (fun u v => v.index < u.index) ∧ ∀ u ∈ chain, u.index ≤ t.index := by
  induction h with
  | outermost => simp
  | @inside t p scope around hget hparent _ ih =>
    obtain ⟨hpairwise, hle⟩ := ih
    have hlt : ∀ u ∈ around, u.index < t.index := fun u hu =>
      Nat.lt_of_le_of_lt (hle u hu) (hs t scope p hget hparent)
    refine ⟨List.pairwise_cons.2 ⟨hlt, hpairwise⟩, ?_⟩
    intro u hu
    rcases List.mem_cons.1 hu with rfl | hu
    · exact Nat.le_refl _
    · exact Nat.le_of_lt (hlt u hu)

/-- No scope is on both sides of a scope on a chain. -/
theorem not_mem (h : s.Chain u (below ++ t :: above)) (hs : s.Older) : t ∉ below ∧ t ∉ above := by
  obtain ⟨-, hrest, hbelow⟩ := List.pairwise_append.1 (h.pairwise hs).1
  constructor
  · intro ht
    exact Nat.lt_irrefl _ (hbelow t ht t (List.mem_cons_self ..))
  · intro ht
    exact Nat.lt_irrefl _ ((List.pairwise_cons.1 hrest).1 t ht)

/-- A chain is no longer than the number of its scope allows. -/
theorem length_le (h : s.Chain t chain) (hs : s.Older) : chain.length ≤ t.index + 1 := by
  induction h with
  | outermost => simp
  | @inside t p scope around hget hparent _ ih =>
    have hlt := hs t scope p hget hparent
    rw [List.length_cons]
    omega

/-- A lookup with a sufficient bound goes along the chain. -/
theorem findWithin_eq (h : s.Chain t chain) (x : String) {bound : Nat}
    (hb : chain.length ≤ bound) :
    s.findWithin x bound t = .ok (chain.findSome? (s.binding? x)) := by
  induction h generalizing bound with
  | @outermost t scope hget hparent =>
    cases bound with
    | zero => exact absurd hb (Nat.not_succ_le_zero _)
    | succ bound =>
      rw [findWithin, hget, List.findSome?_singleton, binding?_of_get hget]
      cases hx : scope.find? x <;> simp [hx, hparent, bind, Except.bind, pure, Except.pure]
  | @inside t p scope around hget hparent _ ih =>
    cases bound with
    | zero => exact absurd hb (Nat.not_succ_le_zero _)
    | succ bound =>
      rw [findWithin, hget, List.findSome?_cons, binding?_of_get hget]
      cases hx : scope.find? x with
      | some n => simp [hx, bind, Except.bind, pure, Except.pure]
      | none =>
        simp only [hx, hparent, bind, Except.bind]
        exact ih (Nat.le_of_succ_le_succ hb)

end Chain

namespace Older

/-- Every scope has a chain. -/
theorem exists_chain (hs : s.Older) (ht : t.index < s.size) : ∃ chain, s.Chain t chain := by
  induction hi : t.index using Nat.strongRecOn generalizing t with
  | ind i ih =>
    obtain ⟨scope, hget⟩ := exists_get ht
    cases hparent : scope.parent with
    | none => exact ⟨[t], .outermost hget hparent⟩
    | some p =>
      have hlt := hs t scope p hget hparent
      obtain ⟨chain, hchain⟩ := ih p.index (hi ▸ hlt) (Nat.lt_trans hlt ht) rfl
      exact ⟨t :: chain, .inside hget hparent hchain⟩

/-- A lookup finds what the nearest scope on the chain binds. -/
theorem find_eq (hs : s.Older) (h : s.Chain t chain) (x : String) :
    s.find t x = .ok (chain.findSome? (s.binding? x)) := by
  have hlt : t.index < s.size := by
    cases h with
    | outermost hget => exact Arena.index_lt_of_get hget
    | inside hget => exact Arena.index_lt_of_get hget
  refine h.findWithin_eq x ?_
  have hle := h.length_le hs
  omega

/-- What is bound in a scope that is seen is found. -/
theorem find_eq_of_sees (hs : s.Older) (h : s.Chain u (below ++ t :: above))
    (hb : ∀ v ∈ below, s.binding? x v = none) :
    s.find u x = .ok ((s.binding? x t).or (above.findSome? (s.binding? x))) := by
  rw [hs.find_eq h, List.findSome?_append, List.findSome?_eq_none_iff.2 hb, Option.none_or,
    List.findSome?_cons]
  cases s.binding? x t <;> rfl

/-- Around a scope on a chain a lookup goes along the rest of the chain. -/
theorem find_parent_eq (hs : s.Older) (h : s.Chain t (t :: above)) (hget : s.get t = .ok scope)
    (x : String) :
    scope.parent.elim (.ok none) (s.find · x) = .ok (above.findSome? (s.binding? x)) := by
  obtain ⟨scope', hget', hrest⟩ := h.around
  cases hget.symm.trans hget'
  rcases hrest with ⟨hparent, rfl⟩ | ⟨p, hparent, hchain⟩
  · rw [hparent]
    rfl
  · rw [hparent]
    exact hs.find_eq hchain x

end Older

/-- A scope that is not there is not looked up. -/
theorem find_eq_error (h : ¬ t.index < s.size) (x : String) : s.find t x = .error .outOfBounds := by
  have hnone : s.scopes[t.index]? = none := Array.getElem?_eq_none (Nat.le_of_not_lt h)
  have hget : s.get t = .error .outOfBounds := by rw [get, hnone]
  rw [find, findWithin, hget]
  rfl

/-! ## Scopes that get or lose a binding -/

/-- Scopes that are what they were, apart from what one of them binds one name to. -/
structure Rebinds (s : Scopes) (t : ScopeId) (x : String) (s' : Scopes) : Prop where
  size_eq : s'.size = s.size
  get : ∀ u scope, s.get u = .ok scope → ∃ scope', s'.get u = .ok scope' ∧
    scope'.parent = scope.parent ∧ ∀ y, ¬ (y = x ∧ u = t) → scope'.find? y = scope.find? y

/-- A scope is replaced by one that differs in one name. -/
theorem Rebinds.set {new : Scope} (hget : s.get t = .ok scope)
    (hparent : new.parent = scope.parent) (hfind : ∀ y, y ≠ x → new.find? y = scope.find? y) :
    s.Rebinds t x (s.set t new) := by
  refine ⟨size_set .., ?_⟩
  intro u scope' hu
  by_cases hut : u = t
  · subst hut
    cases hget.symm.trans hu
    exact ⟨new, Arena.get_set_of_get hget new, hparent, fun y hy => hfind y fun he => hy ⟨he, rfl⟩⟩
  · exact ⟨scope', (get_set_of_ne s new hut).trans hu, rfl, fun _ _ => rfl⟩

namespace Rebinds

variable (h : s.Rebinds t x s')

include h

/-- Scopes can be traced back to what they were. -/
theorem get_old (hu : s'.get u = .ok scope) :
    ∃ old, s.get u = .ok old ∧ scope.parent = old.parent := by
  have hlt := Arena.index_lt_of_get hu
  rw [h.size_eq] at hlt
  obtain ⟨old, hold⟩ := exists_get hlt
  obtain ⟨scope', hnew, hparent, -⟩ := h.get u old hold
  cases hu.symm.trans hnew
  exact ⟨old, hold, hparent⟩

/-- The scopes around scopes go on being older. -/
theorem older (hs : s.Older) : s'.Older := by
  intro u scope p hu hp
  obtain ⟨old, hold, hparent⟩ := h.get_old hu
  exact hs u old p hold (hparent.symm.trans hp)

/-- Chains stay. -/
theorem of_chain (hc : s.Chain u chain) : s'.Chain u chain := by
  induction hc with
  | outermost hget hparent =>
    obtain ⟨scope', hnew, hsame, -⟩ := h.get _ _ hget
    exact .outermost hnew (hsame.trans hparent)
  | inside hget hparent _ ih =>
    obtain ⟨scope', hnew, hsame, -⟩ := h.get _ _ hget
    exact .inside hnew (hsame.trans hparent) ih

/-- The other bindings stay. -/
theorem binding?_eq (hne : ¬ (y = x ∧ u = t)) (hu : u.index < s.size) :
    s'.binding? y u = s.binding? y u := by
  obtain ⟨scope, hget⟩ := exists_get hu
  obtain ⟨scope', hnew, -, hfind⟩ := h.get u scope hget
  rw [binding?_of_get hget, binding?_of_get hnew, hfind y hne]

end Rebinds

/-- The scopes on a chain are there. -/
theorem Chain.index_lt (h : s.Chain u chain) (hv : v ∈ chain) : v.index < s.size := by
  obtain ⟨below, above, rfl⟩ := List.append_of_mem hv
  obtain ⟨scope, hget, -⟩ := h.suffix.around
  exact Arena.index_lt_of_get hget

namespace Rebinds

variable (h : s.Rebinds t x s') (hs : s.Older)

include h

/-- Along scopes of a chain that do not include the changed one a name is bound as it was. -/
theorem findSome?_eq {part : List ScopeId} (hc : s.Chain u chain) (hsub : part ⊆ chain)
    (hne : ¬ (y = x ∧ t ∈ part)) :
    part.findSome? (s'.binding? y) = part.findSome? (s.binding? y) := by
  induction part with
  | nil => rfl
  | cons v part ih =>
    obtain ⟨hv, hsub⟩ := List.cons_subset.1 hsub
    have hfirst : s'.binding? y v = s.binding? y v := by
      refine h.binding?_eq ?_ (hc.index_lt hv)
      rintro ⟨rfl, rfl⟩
      exact hne ⟨rfl, List.mem_cons_self ..⟩
    have hrest := ih hsub fun ⟨hy, ht⟩ => hne ⟨hy, List.mem_cons_of_mem _ ht⟩
    rw [List.findSome?_cons, List.findSome?_cons, hfirst, hrest]

include hs

/-- From where the scope is seen, its new binding of the name is found, and what is bound farther
out if there is none. -/
theorem find_eq_of_sees (hsees : s.Sees x u t) (hget : s.get t = .ok scope) :
    s'.find u x = (s'.binding? x t).elim (scope.parent.elim (.ok none) (s.find · x))
      fun n => .ok (some n) := by
  obtain ⟨below, above, hchain, hhidden⟩ := hsees
  obtain ⟨hbelow, habove⟩ := hchain.not_mem hs
  have hhidden' : ∀ v ∈ below, s'.binding? x v = none := by
    intro v hv
    rw [h.binding?_eq _ (hchain.index_lt (List.mem_append_left _ hv)), hhidden v hv]
    rintro ⟨-, rfl⟩
    exact hbelow hv
  rw [(h.older hs).find_eq_of_sees (h.of_chain hchain) hhidden',
    hs.find_parent_eq hchain.suffix hget,
    h.findSome?_eq hchain (fun v hv => List.mem_append_right _ (List.mem_cons_of_mem _ hv))
      fun he => habove he.2]
  cases s'.binding? x t <;> rfl

/-- Every other lookup stays. -/
theorem find_eq_of_not_sees (hne : ¬ (y = x ∧ s.Sees x u t)) : s'.find u y = s.find u y := by
  by_cases hu : u.index < s.size
  · obtain ⟨chain, hchain⟩ := hs.exists_chain hu
    rw [hs.find_eq hchain, (h.older hs).find_eq (h.of_chain hchain)]
    by_cases ht : y = x ∧ t ∈ chain
    · -- the scope is on the chain but hidden, so the answer comes from below it
      obtain ⟨rfl, ht⟩ := ht
      obtain ⟨below, above, rfl⟩ := List.append_of_mem ht
      have hbelow := h.findSome?_eq (y := y) hchain (List.subset_append_left below (t :: above))
        fun he => (hchain.not_mem hs).1 he.2
      rw [List.findSome?_append, List.findSome?_append, hbelow]
      cases hfound : below.findSome? (s.binding? y) with
      | none => exact absurd ⟨rfl, below, above, hchain, List.findSome?_eq_none_iff.1 hfound⟩ hne
      | some n => rfl
    · rw [h.findSome?_eq hchain (List.Subset.refl _) ht]
  · rw [find_eq_error hu, find_eq_error (h.size_eq ▸ hu)]

end Rebinds

/-- A name can be bound in a scope that is there, or is bound there. -/
theorem exists_define (ht : t.index < s.size) (x : String) (n : NodeId) :
    ∃ result, s.define t x n = .ok result := by
  obtain ⟨scope, hget⟩ := exists_get ht
  rw [define, hget]
  cases hx : scope.find? x <;> simp [hx, bind, Except.bind, pure, Except.pure]

/-- A binding can be removed from a scope that is there, or is not there. -/
theorem exists_undefine (ht : t.index < s.size) (x : String) (n : NodeId) :
    ∃ result, s.undefine t x n = .ok result := by
  obtain ⟨scope, hget⟩ := exists_get ht
  rw [undefine, hget]
  by_cases hx : scope.find? x = some n <;> simp [hx, bind, Except.bind, pure, Except.pure]

/-- What binding a name does. -/
theorem exists_of_define (h : s.define t x n = .ok (.ok s')) :
    s.Rebinds t x s' ∧ s'.binding? x t = some n ∧ ∃ scope, s.get t = .ok scope := by
  obtain ⟨scope, hget, h⟩ := exists_of_bind_eq_ok h
  split at h
  · cases h
  · rename_i hfree
    cases h
    refine ⟨.set hget rfl fun y hy => scope.find?_insert_of_ne n hy, ?_, scope, hget⟩
    rw [binding?_of_get (Arena.get_set_of_get hget _), Scope.find?_insert_self n hfree]

/-- What removing a binding does. -/
theorem exists_of_undefine (h : s.undefine t x n = .ok (true, s')) :
    s.Rebinds t x s' ∧ s'.binding? x t = none ∧ ∃ scope, s.get t = .ok scope := by
  obtain ⟨scope, hget, h⟩ := exists_of_bind_eq_ok h
  split at h
  · cases h
    refine ⟨.set hget rfl fun y hy => scope.find?_erase_of_ne hy, ?_, scope, hget⟩
    rw [binding?_of_get (Arena.get_set_of_get hget _), Scope.find?_erase_self]
  · cases h

/-- Removing a binding that is not there does nothing. -/
theorem eq_of_undefine (h : s.undefine t x n = .ok (false, s')) : s' = s := by
  obtain ⟨scope, hget, h⟩ := exists_of_bind_eq_ok h
  split at h
  · cases h
  · cases h
    rfl

/-- A scope that is opened is the youngest. -/
theorem Older.add (hs : s.Older) (parent : Option ScopeId)
    (hp : ∀ p, parent = some p → p.index < s.size) : (s.add parent).2.Older := by
  intro t scope p hget hparent
  by_cases ht : t.index = s.size
  · have hnew : (s.add parent).2.get t = .ok ⟨[], parent⟩ := by
      simp [Scopes.add, Scopes.get, ht, size]
    cases hnew.symm.trans hget
    exact ht ▸ hp p hparent
  · have hold : (s.add parent).2.get t = s.get t := by
      have hne : t.index ≠ s.scopes.size := ht
      simp [Scopes.add, Scopes.get, Array.getElem?_push, hne]
    exact hs t scope p (hold.symm.trans hget) hparent

/-! ## Lookups after any operations -/

/-- Lookups follow chains of scopes, and what an operation changes is seen along them. -/
structure Lexical (s : Scopes) : Prop where
  /-- A lookup ends, with what the nearest scope on the chain that binds the name binds it to. -/
  find_eq : ∀ t, t.index < s.size → ∃ chain, s.Chain t chain ∧
    ∀ x, s.find t x = .ok (chain.findSome? (s.binding? x))
  /-- A name can be bound in a scope that is there, unless it has a binding there. -/
  exists_define : ∀ t x n, t.index < s.size → ∃ result, s.define t x n = .ok result
  /-- A name that has a binding in a scope keeps it, and no lookup changes. -/
  find_of_taken : ∀ t x n m, s.define t x n = .ok (.error m) →
    ∃ s', (ScopeEdit.define t x n).run s = .ok s' ∧ ∀ u y, s'.find u y = s.find u y
  /-- A name that is bound in a scope is found from where that scope is seen; no other lookup
  changes. -/
  find_of_define : ∀ t x n s', s.define t x n = .ok (.ok s') → ∀ u,
    (s.Sees x u t → s'.find u x = .ok (some n)) ∧
      ∀ y, ¬ (y = x ∧ s.Sees x u t) → s'.find u y = s.find u y
  /-- A binding can be removed from a scope that is there, or is not there. -/
  exists_undefine : ∀ t x n, t.index < s.size → ∃ result, s.undefine t x n = .ok result
  /-- Where a scope is seen that has lost the binding of a name, a lookup goes on around that scope;
  no other lookup changes. -/
  find_of_undefine : ∀ t x n s', s.undefine t x n = .ok (true, s') →
    ∃ scope, s.get t = .ok scope ∧ ∀ u,
      (s.Sees x u t → s'.find u x = scope.parent.elim (.ok none) (s.find · x)) ∧
        ∀ y, ¬ (y = x ∧ s.Sees x u t) → s'.find u y = s.find u y

/-- Where the scopes around scopes are older, lookups follow chains of scopes. -/
theorem Older.lexical (hs : s.Older) : s.Lexical where
  find_eq t ht := by
    obtain ⟨chain, hchain⟩ := hs.exists_chain ht
    exact ⟨chain, hchain, hs.find_eq hchain⟩
  exists_define t x n ht := Scopes.exists_define ht x n
  find_of_taken t x n m h := by
    refine ⟨s, ?_, fun _ _ => rfl⟩
    rw [ScopeEdit.run, h]
    rfl
  find_of_define t x n s' h u := by
    obtain ⟨hrebinds, hbound, scope, hget⟩ := exists_of_define h
    refine ⟨fun hsees => ?_, fun y hne => hrebinds.find_eq_of_not_sees hs hne⟩
    rw [hrebinds.find_eq_of_sees hs hsees hget, hbound, Option.elim_some]
  exists_undefine t x n ht := Scopes.exists_undefine ht x n
  find_of_undefine t x n s' h := by
    obtain ⟨hrebinds, hbound, scope, hget⟩ := exists_of_undefine h
    refine ⟨scope, hget, fun u => ⟨fun hsees => ?_, fun y hne =>
      hrebinds.find_eq_of_not_sees hs hne⟩⟩
    rw [hrebinds.find_eq_of_sees hs hsees hget, hbound, Option.elim_none]

/-- In no scopes nothing is around anything. -/
theorem older_empty : empty.Older := by
  intro t scope p hget
  cases hget

/-- An operation keeps the scopes around scopes older, if a scope is opened in an older one. -/
theorem Older.edit {e : ScopeEdit} (hs : s.Older) (hl : e.isLegal s = true)
    (h : e.run s = .ok s') : s'.Older := by
  cases e with
  | add parent =>
    cases h
    refine hs.add parent ?_
    rintro p rfl
    exact of_decide_eq_true hl
  | define id name node =>
    obtain ⟨result, hdefine, rfl⟩ := exists_of_map_eq_ok h
    cases result with
    | error existing => exact hs
    | ok s' => exact (exists_of_define hdefine).1.older hs
  | undefine id name node =>
    obtain ⟨⟨found, s'⟩, hundefine, rfl⟩ := exists_of_map_eq_ok h
    cases found with
    | false =>
      rw [eq_of_undefine hundefine]
      exact hs
    | true => exact (exists_of_undefine hundefine).1.older hs

/-- So do operations one after the other. -/
theorem Older.runAll {edits : List ScopeEdit} (hs : s.Older)
    (hl : ScopeEdit.allLegal s edits = true) (h : ScopeEdit.runAll edits s = .ok s') :
    s'.Older := by
  induction edits generalizing s with
  | nil =>
    cases h
    exact hs
  | cons e edits ih =>
    rw [ScopeEdit.runAll, List.foldlM_cons] at h
    obtain ⟨after, hafter, h⟩ := exists_of_bind_eq_ok h
    rw [ScopeEdit.allLegal, Bool.and_eq_true, hafter] at hl
    exact ih (hs.edit hl.1 hafter) hl.2 h

end Scopes

/-- After any operations on no scopes, in which each scope was opened in none or in one that was
there, lookups follow chains of scopes, and what an operation changes is seen along them. -/
theorem ScopeEdit.lexical_of_runAll {edits : List ScopeEdit} {s : Scopes}
    (h : runAll edits .empty = .ok s) (hl : allLegal .empty edits = true) : s.Lexical :=
  (Scopes.older_empty.runAll hl h).lexical

/-- A name that is bound in the outermost and in the middle one of three scopes and then unbound in
the middle one. -/
theorem ScopeEdit.lexical_of_runAll_unbound :
    let s : Scopes := ⟨#[⟨[("x", ⟨7⟩)], none⟩, ⟨[("x", ⟨8⟩)], some ⟨0⟩⟩, ⟨[], some ⟨1⟩⟩]⟩
    let s' : Scopes := ⟨#[⟨[("x", ⟨7⟩)], none⟩, ⟨[], some ⟨0⟩⟩, ⟨[], some ⟨1⟩⟩]⟩
    runAll [.add none, .add (some ⟨0⟩), .add (some ⟨1⟩), .define ⟨0⟩ "x" ⟨7⟩,
      .define ⟨1⟩ "x" ⟨8⟩] .empty = .ok s ∧ s.Lexical ∧ s.find ⟨2⟩ "x" = .ok (some ⟨8⟩) ∧
    s.undefine ⟨1⟩ "x" ⟨8⟩ = .ok (true, s') ∧ s'.find ⟨2⟩ "x" = .ok (some ⟨7⟩) := by
  intro s s'
  have hrun : runAll [.add none, .add (some ⟨0⟩), .add (some ⟨1⟩), .define ⟨0⟩ "x" ⟨7⟩,
    .define ⟨1⟩ "x" ⟨8⟩] .empty = .ok s := rfl
  have hlexical : s.Lexical := lexical_of_runAll hrun (by decide)
  have hundefine : s.undefine ⟨1⟩ "x" ⟨8⟩ = .ok (true, s') := rfl
  have hsees : s.Sees "x" ⟨2⟩ ⟨1⟩ := by
    refine ⟨[⟨2⟩], [⟨0⟩], .inside rfl rfl (.inside rfl rfl (.outermost rfl rfl)), ?_⟩
    intro v hv
    cases List.mem_singleton.1 hv
    rfl
  obtain ⟨scope, hget, hfind⟩ := hlexical.find_of_undefine _ _ _ _ hundefine
  cases hget
  exact ⟨hrun, hlexical, rfl, hundefine, (hfind ⟨2⟩).1 hsees⟩

end ExprLang
