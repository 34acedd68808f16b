import ExprLang.Proofs.Tree.Ancestors
import ExprLang.Tree.Walk

/-!
# Walks end

A walk visits a node, then all below its first child, then all below the next one.
Without circles among parent links the nodes below a node are visited at the
numbers of links that they are below it, each once, and then the walk ends.

Main definitions:

- Definition {lit}`Arena.Preorder`: the visits below nodes side by side.

Main results:

- Theorem {lit}`Arena.Preorder.take_eq`: a walk makes these visits.
- Theorem {lit}`Arena.Preorder.nodup`: no node is visited twice.
- Theorem {lit}`Edit.forest_of_runAll`: what legal operations on the empty arena
  lead to.
-/

namespace ExprLang

namespace Arena

variable {a : Arena} {id p n root top : NodeId} {ids : List NodeId} {visits below more : List Visit}
  {depth i k : Nat}

/-! ## Visits in order -/

/-- The visits below a node are its own and those below its children.  The sum is written out, so
it rests on no instance for sums. -/
theorem visitCount_succ (a : Arena) (n : Nat) (id : NodeId) :
    a.visitCount (n + 1) id = 1 + ((a.children id).map (a.visitCount n)).foldr (· + ·) 0 := rfl

/-- The visits below nodes at some depth, one node after the other: each node, then what is below
its children. -/
inductive Preorder (a : Arena) : Nat → List NodeId → List Visit → Prop
  | nil {depth : Nat} : Preorder a depth [] []
  | cons {depth : Nat} {id : NodeId} {rest : List NodeId} {below more : List Visit}
      (hbelow : Preorder a (depth + 1) (a.children id) below)
      (hmore : Preorder a depth rest more) :
      Preorder a depth (id :: rest) ((id, depth) :: below ++ more)

namespace Preorder

/-- A walk that comes to some nodes visits what is below them, then it goes on. -/
theorem take_eq (h : a.Preorder depth ids visits) (k : Nat) (pending : List Visit) :
    Walk.take a (visits.length + k) ⟨ids.map (·, depth) ++ pending⟩ =
      visits ++ Walk.take a k ⟨pending⟩ := by
  induction h generalizing k pending with
  | nil => simp
  | @cons depth id rest below more _ _ ihbelow ihmore =>
    have hlength : ((id, depth) :: below ++ more).length + k =
        (below.length + (more.length + k)) + 1 := by
      simp only [List.cons_append, List.length_cons, List.length_append]
      omega
    rw [hlength]
    simp only [List.map_cons, List.cons_append, Walk.take, Walk.next?]
    rw [ihbelow, ihmore, List.append_assoc]

/-- A walk that has visited everything below its root is at its end. -/
theorem take_of_le (h : a.Preorder 0 [root] visits) (hk : visits.length ≤ k) :
    (Walk.ofRoot root).take a k = visits := by
  have htake := h.take_eq (k - visits.length) []
  rw [Nat.add_sub_cancel' hk] at htake
  refine htake.trans ?_
  cases k - visits.length <;> simp [Walk.take, Walk.next?]

/-- The visits are counted if none is too deep to be counted. -/
theorem sum_visitCount (h : a.Preorder depth ids visits) {bound : Nat}
    (hbound : ∀ visit ∈ visits, visit.2 < depth + bound) :
    (ids.map (a.visitCount bound)).foldr (· + ·) 0 = visits.length := by
  induction h generalizing bound with
  | nil => rfl
  | @cons depth id rest below more _ _ ihbelow ihmore =>
    have hid := hbound (id, depth) (by simp)
    obtain ⟨bound, rfl⟩ : ∃ b, bound = b + 1 := ⟨bound - 1, by omega⟩
    have hbelow : ((a.children id).map (a.visitCount bound)).foldr (· + ·) 0 = below.length :=
      ihbelow fun visit hv => by
        have := hbound visit (by simp [hv])
        omega
    have hmore : (rest.map (a.visitCount (bound + 1))).foldr (· + ·) 0 = more.length :=
      ihmore fun visit hv => hbound visit (by simp [hv])
    rw [List.map_cons, List.foldr_cons, hmore, visitCount_succ, hbelow]
    simp only [List.cons_append, List.length_cons, List.length_append]
    omega

/-- What is visited is below the nodes, at the depth of the visit. -/
theorem exists_ancestor? {strict : Prop} (h : a.Preorder depth ids visits) (hown : a.Owned strict)
    (hn : (n, k) ∈ visits) : ∃ id ∈ ids, depth ≤ k ∧ a.ancestor? (k - depth) n = some id := by
  induction h with
  | nil => cases hn
  | @cons depth id rest below more _ _ ihbelow ihmore =>
    simp only [List.cons_append, List.mem_cons, List.mem_append, Prod.mk.injEq] at hn
    obtain ⟨rfl, rfl⟩ | hn | hn := hn
    · exact ⟨n, List.mem_cons_self .., Nat.le_refl _, by simp⟩
    · obtain ⟨child, hchild, hle, hup⟩ := ihbelow hn
      refine ⟨id, List.mem_cons_self .., by omega, ?_⟩
      have hparent : a.parent? child = some id := hown.parent?_eq (count_pos_iff.2 hchild)
      rw [show k - depth = k - (depth + 1) + 1 by omega, ancestor?_succ', hup]
      exact hparent
    · obtain ⟨id', hid', hle, hup⟩ := ihmore hn
      exact ⟨id', List.mem_cons_of_mem _ hid', hle, hup⟩

/-- What is below the nodes is visited, at the depth at which it is. -/
theorem mem (h : a.Preorder depth ids visits) (hown : a.Owned True) (hid : id ∈ ids)
    (hup : a.ancestor? k n = some id) : (n, depth + k) ∈ visits := by
  induction h generalizing id k with
  | nil => cases hid
  | @cons depth id' rest below more _ _ ihbelow ihmore =>
    simp only [List.cons_append, List.mem_cons, List.mem_append, Prod.mk.injEq] at hid ⊢
    obtain rfl | hid := hid
    · cases k with
      | zero =>
        cases hup
        exact .inl ⟨rfl, rfl⟩
      | succ k =>
        rw [ancestor?_succ'] at hup
        obtain ⟨child, hchild, hparent⟩ := Option.bind_eq_some_iff.1 hup
        have hge := hown.ge trivial id child
        rw [owns_eq_one hparent] at hge
        have hvisit := ihbelow (count_pos_iff.1 (by omega)) hchild
        rw [Nat.add_right_comm] at hvisit
        exact .inr (.inl hvisit)
    · exact .inr (.inr (ihmore hid hup))

/-- No node is visited twice if none of the nodes that the visits start from is below another
one. -/
theorem nodup {strict : Prop} (h : a.Preorder depth ids visits) (hacyclic : a.Acyclic)
    (hown : a.Owned strict) (hids : ids.Nodup)
    (happart : ∀ id ∈ ids, ∀ id' ∈ ids, ∀ k, a.ancestor? (k + 1) id ≠ some id') :
    (visits.map Prod.fst).Nodup := by
  induction h with
  | nil => exact List.nodup_nil
  | @cons depth id rest below more hbelow hmore ihbelow ihmore =>
    obtain ⟨hid, hrest⟩ := List.nodup_cons.1 hids
    have hparent {child : NodeId} (hc : child ∈ a.children id) : a.parent? child = some id :=
      hown.parent?_eq (count_pos_iff.2 hc)
    have hnodup := ihbelow (hown.nodup_children id) fun child hc child' hc' k =>
      hacyclic.not_isAbove_sibling (hparent hc) (hparent hc') k
    have hnodup' := ihmore hrest fun id' hid' id'' hid'' =>
      happart id' (List.mem_cons_of_mem _ hid') id'' (List.mem_cons_of_mem _ hid'')
    -- what is below the first node and what is below the others are far apart
    have hnode (n : NodeId) (hn : n ∈ below.map Prod.fst) :
        ∃ k, a.ancestor? (k + 1) n = some id := by
      obtain ⟨⟨n, k⟩, hvisit, rfl⟩ := List.mem_map.1 hn
      obtain ⟨child, hc, -, hup⟩ := hbelow.exists_ancestor? hown hvisit
      exact ⟨_, (ancestor?_succ' a _ n).trans (by rw [hup]; exact hparent hc)⟩
    have hother (n : NodeId) (hn : n ∈ more.map Prod.fst) :
        ∃ k, ∃ id' ∈ rest, a.ancestor? k n = some id' := by
      obtain ⟨⟨n, k⟩, hvisit, rfl⟩ := List.mem_map.1 hn
      obtain ⟨id', hid', -, hup⟩ := hmore.exists_ancestor? hown hvisit
      exact ⟨_, id', hid', hup⟩
    have hclash {n id' : NodeId} {j k : Nat} (hup : a.ancestor? j n = some id)
        (hid' : id' ∈ rest) (hup' : a.ancestor? k n = some id') : False := by
      have hne : id ≠ id' := fun he => hid (he ▸ hid')
      rcases Nat.lt_trichotomy j k with hlt | rfl | hlt
      · obtain ⟨m, hm, hback⟩ := exists_ancestor?_of_le hup' hlt.le
        cases hup.symm.trans hm
        obtain ⟨r, hr⟩ : ∃ r, k - j = r + 1 := ⟨k - j - 1, by omega⟩
        exact happart id (List.mem_cons_self ..) id' (List.mem_cons_of_mem _ hid') r (hr ▸ hback)
      · exact hne (Option.some.inj (hup.symm.trans hup'))
      · obtain ⟨m, hm, hback⟩ := exists_ancestor?_of_le hup hlt.le
        cases hup'.symm.trans hm
        obtain ⟨r, hr⟩ : ∃ r, j - k = r + 1 := ⟨j - k - 1, by omega⟩
        exact happart id' (List.mem_cons_of_mem _ hid') id (List.mem_cons_self ..) r (hr ▸ hback)
    rw [List.cons_append, List.map_cons, List.map_append, List.nodup_cons, List.nodup_append,
      List.mem_append, not_or]
    refine ⟨⟨fun hn => ?_, fun hn => ?_⟩, hnodup, hnodup', fun n hn n' hn' he => ?_⟩
    · obtain ⟨k, hk⟩ := hnode id hn
      exact (hacyclic id).ancestor?_ne k hk
    · obtain ⟨k, id', hid', hk⟩ := hother id hn
      exact hclash (a.ancestor?_zero id) hid' hk
    · obtain ⟨j, hj⟩ := hnode n hn
      obtain ⟨k, id', hid', hk⟩ := hother n' hn'
      exact hclash hj hid' (he ▸ hk)

end Preorder

/-! ## Walks without circles -/

namespace Acyclic

/-- What is below a node can be listed. -/
theorem exists_preorder {strict : Prop} (h : a.Acyclic) (hown : a.Owned strict) (root : NodeId) :
    ∃ visits, a.Preorder 0 [root] visits := by
  -- by induction on the number of links that a chain to the root can still have
  have hbelow (room : Nat) : ∀ depth id, a.size ≤ depth + room →
      a.ancestor? depth id = some root →
        ∃ visits, a.Preorder (depth + 1) (a.children id) visits := by
    induction room with
    | zero =>
      intro depth id hle hid
      refine ⟨[], ?_⟩
      have hnone : a.children id = [] := List.eq_nil_iff_forall_not_mem.2 fun child hc => by
        have hup := (ancestor?_succ (hown.parent?_eq (count_pos_iff.2 hc)) depth).trans hid
        have := h.le_size hup
        omega
      rw [hnone]
      exact .nil
    | succ room ih =>
      intro depth id hle hid
      have hall (children : List NodeId) (hc : ∀ child ∈ children, child ∈ a.children id) :
          ∃ visits, a.Preorder (depth + 1) children visits := by
        induction children with
        | nil => exact ⟨[], .nil⟩
        | cons child rest ihrest =>
          have hparent := hown.parent?_eq (count_pos_iff.2 (hc child (List.mem_cons_self ..)))
          obtain ⟨below, hbelow⟩ := ih (depth + 1) child (by omega)
            ((ancestor?_succ hparent depth).trans hid)
          obtain ⟨more, hmore⟩ := ihrest fun c hmem => hc c (List.mem_cons_of_mem _ hmem)
          exact ⟨_, .cons hbelow hmore⟩
      exact hall _ fun _ hc => hc
  obtain ⟨below, hbelow⟩ := hbelow a.size 0 root (by omega) rfl
  exact ⟨_, .cons hbelow .nil⟩

/-- A walk is the list of what is below its root. -/
theorem preorder_walk {strict : Prop} (h : a.Acyclic) (hown : a.Owned strict) (root : NodeId) :
    a.Preorder 0 [root] (a.walk root) := by
  obtain ⟨visits, hvisits⟩ := h.exists_preorder hown root
  have hcount : a.visitCount (a.size + 1) root = visits.length := by
    have hdepth (visit : Visit) (hv : visit ∈ visits) : visit.2 < 0 + (a.size + 1) := by
      obtain ⟨id, -, -, hup⟩ := hvisits.exists_ancestor? hown hv
      have := h.le_size hup
      omega
    simpa using hvisits.sum_visitCount hdepth
  rw [walk, hcount, hvisits.take_of_le (Nat.le_refl _)]
  exact hvisits

end Acyclic

end Arena

/-- After legal operations on the empty arena, parent links lead from each node to one without a
parent.  A walk from a node visits the nodes below it and no others, as deep as they are, and none
of them twice; then it is at its end, however many more visits are asked for. -/
theorem Edit.forest_of_runAll {edits : List Edit} {a : Arena} (h : runAll edits .empty = .ok a)
    (hl : AllLegal .empty edits) (n : NodeId) :
    (∃ k top, a.ancestor? k n = some top ∧ a.parent? top = none) ∧
      (∀ limit, (a.walk n).length ≤ limit → a.walkUpTo limit n = a.walk n) ∧
      ((a.walk n).map Prod.fst).Nodup ∧
      ∀ m k, (m, k) ∈ a.walk n ↔ a.ancestor? k m = some n := by
  obtain ⟨hacyclic, hown⟩ := Arena.Acyclic.empty.runAll Arena.owned_empty hl h
  have hwalk := hacyclic.preorder_walk hown n
  refine ⟨(hacyclic n).exists_top, fun limit => hwalk.take_of_le, ?_, fun m k => ⟨fun hm => ?_,
    fun hm => ?_⟩⟩
  · refine hwalk.nodup hacyclic hown (List.nodup_singleton n) fun id hid id' hid' k => ?_
    rw [List.mem_singleton.1 hid, List.mem_singleton.1 hid']
    exact (hacyclic n).ancestor?_ne k
  · obtain ⟨id, hid, -, hup⟩ := hwalk.exists_ancestor? hown hm
    rw [List.mem_singleton.1 hid] at hup
    exact hup
  · simpa using hwalk.mem hown (List.mem_singleton_self n) hm

/-- A call takes over the left of a sum and is put in its place, the other operand goes into the
call, the number leaves it, and a call of the sum takes the number. -/
theorem Edit.forest_of_runAll_call : ∃ a,
    runAll [.alloc (.literal (.int 1)), .alloc (.reference "x"),
      .alloc (.binary (some ⟨0⟩) .plus (some ⟨1⟩)), .alloc (.namedInvocation "f" [⟨0⟩]),
      .setChild ⟨2⟩ .left (some ⟨3⟩), .setListItem ⟨3⟩ .arguments 0 ⟨1⟩,
      .alloc (.namedInvocation "g" [⟨2⟩]), .insertChild ⟨4⟩ .arguments 0 ⟨0⟩] .empty = .ok a ∧
    AllLegal .empty [.alloc (.literal (.int 1)), .alloc (.reference "x"),
      .alloc (.binary (some ⟨0⟩) .plus (some ⟨1⟩)), .alloc (.namedInvocation "f" [⟨0⟩]),
      .setChild ⟨2⟩ .left (some ⟨3⟩), .setListItem ⟨3⟩ .arguments 0 ⟨1⟩,
      .alloc (.namedInvocation "g" [⟨2⟩]), .insertChild ⟨4⟩ .arguments 0 ⟨0⟩] ∧
    a.walk ⟨4⟩ = [(⟨4⟩, 0), (⟨0⟩, 1), (⟨2⟩, 1), (⟨3⟩, 2), (⟨1⟩, 3)] ∧
    (∃ k top, a.ancestor? k ⟨4⟩ = some top ∧ a.parent? top = none) ∧
      (∀ limit, (a.walk ⟨4⟩).length ≤ limit → a.walkUpTo limit ⟨4⟩ = a.walk ⟨4⟩) ∧
      ((a.walk ⟨4⟩).map Prod.fst).Nodup ∧
      ∀ m k, (m, k) ∈ a.walk ⟨4⟩ ↔ a.ancestor? k m = some ⟨4⟩ :=
  have hl : AllLegal .empty [.alloc (.literal (.int 1)), .alloc (.reference "x"),
      .alloc (.binary (some ⟨0⟩) .plus (some ⟨1⟩)), .alloc (.namedInvocation "f" [⟨0⟩]),
      .setChild ⟨2⟩ .left (some ⟨3⟩), .setListItem ⟨3⟩ .arguments 0 ⟨1⟩,
      .alloc (.namedInvocation "g" [⟨2⟩]), .insertChild ⟨4⟩ .arguments 0 ⟨0⟩] := by
    decide +kernel
  ⟨_, rfl, hl, by decide +kernel, forest_of_runAll rfl hl ⟨4⟩⟩

end ExprLang
