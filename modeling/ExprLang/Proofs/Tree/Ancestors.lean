import ExprLang.Proofs.Tree.Ownership
import Mathlib.Data.Fintype.Pigeonhole

/-!
# Ancestors

Parent links make up chains.  A chain that comes to a node without a parent never
comes back to where it was, so it is no longer than there are nodes.  Chains stay
so if a node gets no parent that it is above of, which is all that an operation
on an arena has to heed.

Main definitions:

- Definition {lit}`Arena.ancestor?`: so many parent links up.
- Definition {lit}`Arena.IsAbove`: a node or one of its ancestors.
- Definition {lit}`Arena.Rooted`: parent links lead to a node without a parent.
- Definition {lit}`Edit.IsLegal`: an operation that puts no node below itself.

Main results:

- Theorem {lit}`Arena.Acyclic.le_size`: how long a chain is at most.
- Theorem {lit}`Arena.Acyclic.edit`: legal operations close no chain.
- Theorem {lit}`Arena.Acyclic.runAll`: neither do any number of them.
-/

namespace ExprLang

namespace Arena

variable {a b : Arena} {id p c d n m top : NodeId} {i j k : Nat}

/-! ## Chains of parents -/

/-- The node that is so many parent links above a node. -/
def ancestor? (a : Arena) : Nat → NodeId → Option NodeId
  | 0, n => some n
  | k + 1, n => (a.parent? n).bind (a.ancestor? k)

@[simp] theorem ancestor?_zero (a : Arena) (n : NodeId) : a.ancestor? 0 n = some n := rfl

/-- A chain goes on from the parent. -/
theorem ancestor?_succ (h : a.parent? n = some p) (k : Nat) :
    a.ancestor? (k + 1) n = a.ancestor? k p := by
  simp [ancestor?, h]

/-- A chain ends at a node without a parent. -/
theorem ancestor?_succ_of_none (h : a.parent? n = none) (k : Nat) :
    a.ancestor? (k + 1) n = none := by
  simp [ancestor?, h]

/-- A chain is two chains in a row. -/
theorem ancestor?_add (a : Arena) (i j : Nat) (n : NodeId) :
    a.ancestor? (i + j) n = (a.ancestor? i n).bind (a.ancestor? j) := by
  induction i generalizing n with
  | zero => simp
  | succ i ih =>
    rw [Nat.succ_add_eq_add_succ, Nat.add_succ]
    cases hp : a.parent? n with
    | none => simp [ancestor?_succ_of_none hp]
    | some p => rw [ancestor?_succ hp, ancestor?_succ hp, ih]

/-- The last link of a chain. -/
theorem ancestor?_succ' (a : Arena) (k : Nat) (n : NodeId) :
    a.ancestor? (k + 1) n = (a.ancestor? k n).bind a.parent? := by
  rw [ancestor?_add]
  congr 1
  funext m
  simp [ancestor?]

/-- A chain passes through nodes. -/
theorem exists_ancestor?_of_le (h : a.ancestor? k n = some top) (hi : i ≤ k) :
    ∃ m, a.ancestor? i n = some m ∧ a.ancestor? (k - i) m = some top := by
  rw [← Nat.add_sub_cancel' hi, ancestor?_add] at h
  exact Option.bind_eq_some_iff.1 h

/-- A node, or a node that one of its chains passes through. -/
def IsAbove (a : Arena) (m n : NodeId) : Prop := ∃ k, a.ancestor? k n = some m

/-- A node is above itself. -/
theorem IsAbove.refl (a : Arena) (n : NodeId) : a.IsAbove n n := ⟨0, rfl⟩

/-- What is above the parent is above. -/
theorem IsAbove.up (hp : a.parent? n = some p) (h : a.IsAbove m p) : a.IsAbove m n :=
  h.imp' (· + 1) fun k hk => (ancestor?_succ hp k).trans hk

/-- A chain of more links than there are nodes passes a node twice. -/
theorem exists_ancestor?_eq (h : a.ancestor? k n = some top) (hk : a.size < k) :
    ∃ i j, i < j ∧ j < k ∧ a.ancestor? i n = a.ancestor? j n := by
  have hstep (i : Fin k) : ∃ m, a.ancestor? i n = some m ∧ m.index < a.size := by
    obtain ⟨m, hm, htop⟩ := exists_ancestor?_of_le h i.isLt.le
    obtain ⟨r, hr⟩ : ∃ r, k - i = r + 1 := ⟨k - i - 1, by omega⟩
    rw [hr] at htop
    obtain ⟨p, hp, -⟩ := Option.bind_eq_some_iff.1 htop
    exact ⟨m, hm, index_lt_of_parent? hp⟩
  choose passed hpassed hlt using hstep
  obtain ⟨i, j, hne, he⟩ := Fintype.exists_ne_map_eq_of_card_lt
    (fun i => (⟨(passed i).index, hlt i⟩ : Fin a.size)) (by simpa using hk)
  have hsame : a.ancestor? i n = a.ancestor? j n := by
    rw [hpassed, hpassed]
    exact congrArg (fun index => some (NodeId.mk index)) (Fin.val_eq_of_eq he)
  rcases lt_or_gt_of_ne (Fin.val_ne_of_ne hne) with hlt | hlt
  · exact ⟨i, j, hlt, j.isLt, hsame⟩
  · exact ⟨j, i, hlt, i.isLt, hsame.symm⟩

/-- A way up that passes a node twice can be cut short, so a node above is met within as many links
as there are nodes. -/
theorem IsAbove.exists_le (h : a.IsAbove m n) : ∃ k ≤ a.size, a.ancestor? k n = some m := by
  classical
  refine ⟨Nat.find h, ?_, Nat.find_spec h⟩
  by_contra hlt
  obtain ⟨i, j, hij, hj, he⟩ := exists_ancestor?_eq (Nat.find_spec h) (Nat.lt_of_not_le hlt)
  obtain ⟨p, hp, htop⟩ := exists_ancestor?_of_le (Nat.find_spec h) hj.le
  refine Nat.find_min h (m := i + (Nat.find h - j)) (by omega) ?_
  rw [ancestor?_add, he, hp]
  exact htop

instance : Decidable (a.IsAbove m n) :=
  decidable_of_iff (∃ k < a.size + 1, a.ancestor? k n = some m)
    ⟨fun ⟨k, _, hk⟩ => ⟨k, hk⟩,
      fun h => h.exists_le.imp fun _ hk => ⟨Nat.lt_succ_of_le hk.1, hk.2⟩⟩

/-! ## Chains that end -/

/-- Parent links lead from a node to one without a parent. -/
inductive Rooted (a : Arena) : NodeId → Prop
  | top {n : NodeId} (h : a.parent? n = none) : Rooted a n
  | link {n p : NodeId} (h : a.parent? n = some p) (hp : Rooted a p) : Rooted a n

/-- Parent links lead from every node to one without a parent. -/
def Acyclic (a : Arena) : Prop := ∀ n, a.Rooted n

namespace Rooted

/-- There is a node without a parent at the end of the chain. -/
theorem exists_top (h : a.Rooted n) :
    ∃ k top, a.ancestor? k n = some top ∧ a.parent? top = none := by
  induction h with
  | @top n h => exact ⟨0, n, rfl, h⟩
  | link h _ ih =>
    obtain ⟨k, top, hk, htop⟩ := ih
    exact ⟨k + 1, top, (ancestor?_succ h k).trans hk, htop⟩

/-- A chain that ends does not come back. -/
theorem ancestor?_ne (h : a.Rooted n) (k : Nat) : a.ancestor? (k + 1) n ≠ some n := by
  induction h with
  | top h => simp [ancestor?_succ_of_none h]
  | @link n p h _ ih =>
    intro he
    rw [ancestor?_succ h] at he
    exact ih (by rw [ancestor?_succ', he]; exact h)

end Rooted

namespace Acyclic

/-- Without circles, a node is met once on a way up. -/
theorem ancestor?_inj (h : a.Acyclic) (hi : a.ancestor? i n = some m)
    (hj : a.ancestor? j n = some m) : i = j := by
  wlog hij : i ≤ j generalizing i j
  · exact (this hj hi (Nat.le_of_not_le hij)).symm
  obtain ⟨m', hm', hback⟩ := exists_ancestor?_of_le hj hij
  cases hi.symm.trans hm'
  by_contra hne
  obtain ⟨r, hr⟩ : ∃ r, j - i = r + 1 := ⟨j - i - 1, by omega⟩
  exact (h m).ancestor?_ne r (hr ▸ hback)

/-- Without circles, there are no more links above a node than there are nodes. -/
theorem le_size (h : a.Acyclic) (hk : a.ancestor? k n = some top) : k ≤ a.size := by
  by_contra hlt
  obtain ⟨i, j, hij, hj, he⟩ := exists_ancestor?_eq hk (Nat.lt_of_not_le hlt)
  obtain ⟨m, hm, -⟩ := exists_ancestor?_of_le hk hj.le
  exact hij.ne (h.ancestor?_inj (he.trans hm) hm)

/-- Without circles, no child of a node is above another one. -/
theorem not_isAbove_sibling (h : a.Acyclic) (hn : a.parent? n = some p) (hm : a.parent? m = some p)
    (k : Nat) : a.ancestor? (k + 1) n ≠ some m := by
  intro he
  rw [ancestor?_succ hn] at he
  exact (h p).ancestor?_ne k (by rw [ancestor?_succ', he]; exact hm)

end Acyclic

/-! ## Changes of parents -/

/-- Nodes have lost parents and got none. -/
def Loosened (a b : Arena) : Prop := ∀ d, b.parent? d = a.parent? d ∨ b.parent? d = none

namespace Loosened

/-- What has lost parents twice has lost parents. -/
theorem trans {e : Arena} (h : Loosened a b) (h' : Loosened b e) : Loosened a e := fun d => by
  rcases h' d with he | he
  · rw [he]
    exact h d
  · exact .inr he

/-- A node that leaves its place. -/
theorem of_moved (h : Moved a c none b) : Loosened a b := fun d => by
  rw [h.parent?_eq]
  split <;> simp

/-- Chains get no longer. -/
theorem ancestor? (h : Loosened a b) (hk : b.ancestor? k n = some top) :
    a.ancestor? k n = some top := by
  induction k generalizing n with
  | zero => exact hk
  | succ k ih =>
    obtain ⟨p, hp, hk⟩ := Option.bind_eq_some_iff.1 hk
    rcases h n with he | he
    · exact (ancestor?_succ (he ▸ hp) k).trans (ih hk)
    · cases he.symm.trans hp

/-- What is above was above. -/
theorem isAbove (h : Loosened a b) (hm : b.IsAbove m n) : a.IsAbove m n :=
  hm.imp fun _ => h.ancestor?

/-- No circle appears. -/
theorem acyclic (h : Loosened a b) (ha : a.Acyclic) : b.Acyclic := fun n => by
  induction ha n with
  | @top n hn =>
    refine .top ?_
    rcases h n with he | he
    · exact he.trans hn
    · exact he
  | @link n p hn _ ih =>
    rcases h n with he | he
    · exact .link (he.trans hn) ih
    · exact .top he

end Loosened

namespace Acyclic

/-- The arena without nodes has no circle. -/
theorem empty : Arena.empty.Acyclic := fun _ => .top rfl

/-- A node that is put below one that it is not above of closes no circle. -/
theorem hang (h : a.Acyclic) (hp : ¬ a.IsAbove c p)
    (hc : b.parent? c = some p) (hb : ∀ d, d ≠ c → b.parent? d = a.parent? d ∨ b.parent? d = none) :
    b.Acyclic := by
  -- the chain from the new parent does not pass the node, so it is what it was or ends earlier
  have hnot (n : NodeId) (hn : ¬ a.IsAbove c n) : b.Rooted n := by
    induction h n with
    | @top n hnone =>
      have hne : n ≠ c := by
        rintro rfl
        exact hn (.refl a n)
      refine .top ?_
      rcases hb n hne with he | he
      · exact he.trans hnone
      · exact he
    | @link n q hq _ ih =>
      have hne : n ≠ c := by
        rintro rfl
        exact hn (.refl a n)
      rcases hb n hne with he | he
      · exact .link (he.trans hq) (ih fun hab => hn (.up hq hab))
      · exact .top he
  intro n
  by_cases hn : a.IsAbove c n
  · obtain ⟨k, hk⟩ := hn
    induction k generalizing n with
    | zero =>
      cases hk
      exact .link hc (hnot p hp)
    | succ k ih =>
      obtain ⟨q, hq, hk⟩ := Option.bind_eq_some_iff.1 hk
      by_cases hne : n = c
      · subst hne
        exact .link hc (hnot p hp)
      · rcases hb n hne with he | he
        · exact .link (he.trans hq) (ih q hk)
        · exact .top he
  · exact hnot n hn

/-- A new node that takes over children that were there closes no circle. -/
theorem alloc {form : Form} (h : a.Acyclic) (hlt : ∀ c ∈ form.children, c.index < a.size)
    (hb : a.alloc form = .ok (id, b)) : b.Acyclic := by
  obtain ⟨b', hclaim, hb⟩ := exists_of_bind_eq_ok hb
  cases hb
  have hparent {x y : Arena} {c : NodeId} (hc : x.claimChild a.next form.scope? c = .ok y)
      (d : NodeId) : y.parent? d = if d = c then some a.next else x.parent? d :=
    (moved_of_claimChild hc).parent?_eq d
  have hnext : b.parent? a.next = (a.push form).parent? a.next := by
    refine rel_of_claimAll (R := fun x y => y.parent? a.next = x.parent? a.next) (fun _ => rfl)
      (fun h h' => h'.trans h) (fun c hc hclaim => ?_) hclaim
    rw [hparent hclaim, if_neg]
    rintro rfl
    exact Nat.lt_irrefl _ (hlt _ hc)
  have hothers (d : NodeId) : b.parent? d = a.parent? d ∨ b.parent? d = some a.next := by
    rw [← parent?_push a form d]
    refine rel_of_claimAll (R := fun x y => y.parent? d = x.parent? d ∨ y.parent? d = some a.next)
      (fun _ => .inl rfl) (fun h h' => ?_) (fun c _ hclaim => ?_) hclaim
    · rcases h' with he | he
      · exact he ▸ h
      · exact .inr he
    · rw [hparent hclaim]
      split
      · exact .inr rfl
      · exact .inl rfl
  rw [parent?_push] at hnext
  have hfresh : a.parent? a.next = none := by
    cases hp : a.parent? a.next with
    | none => rfl
    | some p => exact absurd (index_lt_of_parent? hp) (Nat.lt_irrefl _)
  have htop : b.Rooted a.next := .top (hnext.trans hfresh)
  intro n
  induction h n with
  | @top n hn =>
    rcases hothers n with he | he
    · exact .top (he.trans hn)
    · exact .link he htop
  | @link n p hn _ ih =>
    rcases hothers n with he | he
    · exact .link (he.trans hn) ih
    · exact .link he htop

end Acyclic

/-! ## Operations -/

/-- A change of a node that keeps its parent. -/
theorem Loosened.of_modify (a : Arena) (id : NodeId) (change : Node → Node)
    (hp : ∀ node, (change node).parent = node.parent) : Loosened a (a.modify id change) :=
  fun d => .inl (a.parent?_modify id d change hp)

/-- A node whose recorded parent is cleared. -/
theorem Loosened.of_disown (h : a.disown p c = .ok b) : Loosened a b := fun d => by
  rw [(Arena.of_disown h).2]
  split <;> simp

/-- A node that is taken out of a list. -/
theorem Loosened.of_removeChild {name : ChildList} (h : a.removeChild p name i = .ok (c, b)) :
    Loosened a b := by
  obtain ⟨items, form, a', -, -, -, hsame, hdisown⟩ := sameNodes_of_removeChild h
  refine .trans (fun d => .inl ?_) (.of_disown hdisown)
  exact (hsame.parent?_eq d).trans (parent?_setForm ..)

namespace Acyclic

/-- A node that has left its place and is put into a list. -/
theorem attached {form : Form} (h : a.Acyclic) (hp : ¬ a.IsAbove c p) {a' : Arena}
    (hm : Moved a c none a') (hb : (a'.setForm p form).attachToList p c = .ok b) : b.Acyclic := by
  have hlt : c.index < (a'.setForm p form).size := by
    rw [size_setForm, hm.size_eq]
    exact hm.index_lt
  obtain ⟨-, hparent⟩ := of_attachToList hb hlt
  refine h.hang hp (by rw [hparent, if_pos rfl]) fun d hd => ?_
  rw [hparent, if_neg hd, parent?_setForm]
  exact Loosened.of_moved hm d

/-- A node that is put into a list at an index. -/
theorem insertChild {name : ChildList} (h : a.Acyclic) (hp : ¬ a.IsAbove c p)
    (hb : a.insertChild p name i c = .ok b) : b.Acyclic := by
  obtain ⟨place, a', items, form, hdetach, -, -, hb⟩ := exists_of_insertChild hb
  exact h.attached hp (moved_of_detach hdetach) hb

/-- A node that is put at the end of a list. -/
theorem pushChild {name : ChildList} (h : a.Acyclic) (hp : ¬ a.IsAbove c p)
    (hb : a.pushChild p name c = .ok b) : b.Acyclic := by
  obtain ⟨place, a', items, form, hdetach, -, -, hb⟩ := exists_of_pushChild hb
  exact h.attached hp (moved_of_detach hdetach) hb

/-- A node that takes the place of an item of a list. -/
theorem setListItem {name : ChildList} (h : a.Acyclic) (hp : ¬ a.IsAbove c p)
    (hb : a.setListItem p name i c = .ok (d, b)) : b.Acyclic := by
  obtain ⟨-, ⟨-, rfl⟩ | ⟨-, a', hremove, hinsert⟩⟩ := exists_of_setListItem hb
  · exact h
  have hloose := Loosened.of_removeChild hremove
  exact (hloose.acyclic h).insertChild (fun hab => hp (hloose.isAbove hab)) hinsert

/-- A node, or none, that is put into a slot. -/
theorem setChild {name : Slot} {child old : Option NodeId} (h : a.Acyclic)
    (hown : a.Owned True) (hp : ∀ c, child = some c → ¬ a.IsAbove c p)
    (hb : a.setChild p name child = .ok (old, b)) : b.Acyclic := by
  by_cases hne : old = child
  · subst hne
    rw [eq_of_setChild hb]
    exact h
  obtain ⟨a', form, ha', -, -, -, -, -, -, hparents⟩ := hown.exists_of_setChild hb hne
  have hloose : Loosened a a' := by
    cases child with
    | none =>
      cases ha'
      exact fun d => .inl rfl
    | some c =>
      obtain ⟨place, hdetach⟩ := ha'
      exact .of_moved (moved_of_detach hdetach)
  have hrest (d : NodeId) (hd : child ≠ some d) :
      b.parent? d = a.parent? d ∨ b.parent? d = none := by
    rw [hparents, if_neg hd]
    split
    · exact .inr rfl
    · exact hloose d
  cases child with
  | none => exact Loosened.acyclic (fun d => hrest d (by simp)) h
  | some c =>
    exact h.hang (hp c rfl) (by rw [hparents, if_pos rfl]) fun d hd =>
      hrest d fun he => hd (Option.some.inj he).symm

end Acyclic

end Arena

namespace Edit

/-- Whether an operation puts no node below itself: a new node takes over nodes that are there, a
node that is put in place is neither the new parent nor above it, and no parent is recorded on its
own. -/
def IsLegal (a : Arena) : Edit → Prop
  | adopt .. => False
  | alloc form => ∀ child ∈ form.children, child.index < a.size
  | setChild parent _ child => ∀ c ∈ child, ¬ a.IsAbove c parent
  | pushChild parent _ child => ¬ a.IsAbove child parent
  | insertChild parent _ _ child => ¬ a.IsAbove child parent
  | setListItem parent _ _ child => ¬ a.IsAbove child parent
  | _ => True

/-- Whether operations that are done one after the other put no node below itself. -/
def AllLegal (a : Arena) : List Edit → Prop
  | [] => True
  | e :: edits => e.IsLegal a ∧
    match e.run a with
    | .ok b => AllLegal b edits
    | .error _ => True

instance (a : Arena) : (e : Edit) → Decidable (e.IsLegal a)
  | adopt .. => isFalse id
  | alloc form => inferInstanceAs (Decidable (∀ child ∈ form.children, child.index < a.size))
  | setChild parent _ child => inferInstanceAs (Decidable (∀ c ∈ child, ¬ a.IsAbove c parent))
  | pushChild parent _ child => inferInstanceAs (Decidable (¬ a.IsAbove child parent))
  | insertChild parent _ _ child => inferInstanceAs (Decidable (¬ a.IsAbove child parent))
  | setListItem parent _ _ child => inferInstanceAs (Decidable (¬ a.IsAbove child parent))
  | newScope _ | detach _ | removeChild .. | setPosition .. | setResolvedType .. => isTrue trivial

instance decidableAllLegal (a : Arena) : (edits : List Edit) → Decidable (AllLegal a edits)
  | [] => isTrue trivial
  | e :: edits =>
    have : Decidable (match e.run a with
        | .ok b => AllLegal b edits
        | .error _ => True) :=
      match e.run a with
      | .ok b => decidableAllLegal b edits
      | .error _ => isTrue trivial
    inferInstanceAs (Decidable (_ ∧ _))

/-- A legal operation does not record a parent on its own. -/
theorem IsLegal.isAdopt {a : Arena} {e : Edit} (h : e.IsLegal a) : e.isAdopt = false := by
  cases e <;> first | rfl | exact h.elim

end Edit

namespace Arena.Acyclic

variable {a b : Arena} {edits : List Edit}

/-- A legal operation closes no circle. -/
theorem edit {e : Edit} (h : a.Acyclic) (hown : a.Owned True) (hl : e.IsLegal a)
    (hb : e.run a = .ok b) : b.Acyclic := by
  cases e with
  | newScope parent =>
    cases hb
    exact Loosened.acyclic (show Loosened a (a.newScope parent).2 from fun _ => .inl rfl) h
  | alloc form =>
    obtain ⟨⟨id, b'⟩, hb', rfl⟩ := exists_of_map_eq_ok hb
    exact h.alloc hl hb'
  | adopt parent child => exact hl.elim
  | detach child =>
    obtain ⟨⟨place, b'⟩, hb', rfl⟩ := exists_of_map_eq_ok hb
    exact (Loosened.of_moved (moved_of_detach hb')).acyclic h
  | setChild parent name child =>
    obtain ⟨⟨old, b'⟩, hb', rfl⟩ := exists_of_map_eq_ok hb
    exact h.setChild hown (fun c hc => hl c hc) hb'
  | pushChild parent name child => exact h.pushChild hl hb
  | insertChild parent name index child => exact h.insertChild hl hb
  | setListItem parent name index child =>
    obtain ⟨⟨old, b'⟩, hb', rfl⟩ := exists_of_map_eq_ok hb
    exact h.setListItem hl hb'
  | removeChild parent name index =>
    obtain ⟨⟨old, b'⟩, hb', rfl⟩ := exists_of_map_eq_ok hb
    exact (Loosened.of_removeChild hb').acyclic h
  | setPosition id span =>
    obtain ⟨node, -, hb⟩ := exists_of_bind_eq_ok hb
    split at hb
    · cases hb
    · cases hb
      exact Loosened.acyclic (.of_modify a id _ fun _ => rfl) h
  | setResolvedType id type =>
    obtain ⟨node, -, hb⟩ := exists_of_bind_eq_ok hb
    cases hb
    exact Loosened.acyclic (.of_modify a id _ fun _ => rfl) h

/-- Neither do legal operations one after the other, and each node stays where it is recorded. -/
theorem runAll (h : a.Acyclic) (hown : a.Owned True) (hl : Edit.AllLegal a edits)
    (hb : Edit.runAll edits a = .ok b) : b.Acyclic ∧ b.Owned True := by
  induction edits generalizing a with
  | nil =>
    cases hb
    exact ⟨h, hown⟩
  | cons e edits ih =>
    rw [Edit.runAll, List.foldlM_cons] at hb
    obtain ⟨a', ha', hb⟩ := exists_of_bind_eq_ok hb
    rw [Edit.AllLegal, ha'] at hl
    exact ih (h.edit hown hl.1 ha') (hown.edit (fun _ => hl.1.isAdopt) ha') hl.2 hb

end Arena.Acyclic

end ExprLang
