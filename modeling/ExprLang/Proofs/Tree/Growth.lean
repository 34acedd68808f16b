import ExprLang.Tree.Arena
import Mathlib.Data.List.Induction
import Mathlib.Data.List.Nodup
import Mathlib.Tactic.ByContra

/-!
# Growing arenas

A parse only adds to an arena.  Nodes and scopes that existed before a rule began
stay as they are; a node made by the rule keeps its form when a later node takes
it over.

Main results:

- Definition {lit}`Arena.Grows`: what an arena keeps while it grows.
- Theorem {lit}`Arena.exists_made`: a new node over free children changes
  nothing but the parents of these children and the scope that the node opens.
-/

namespace ExprLang.Arena

variable {base a b c : Arena}

/-! ## Forms and names -/

/-- A node that exists has a form, and only such a node has. -/
theorem form?_eq_none_iff (a : Arena) (id : NodeId) : a.form? id = none ↔ a.size ≤ id.index := by
  simp [form?, node?, size]

/-- A node with a form exists. -/
theorem index_lt_of_form? {id : NodeId} {form : Form} (h : a.form? id = some form) :
    id.index < a.size := by
  by_contra hlt
  rw [(a.form?_eq_none_iff id).2 (Nat.le_of_not_lt hlt)] at h
  cases h

/-- A node that defines a name exists. -/
theorem index_lt_of_definitionName {id : NodeId} {name : String}
    (h : a.definitionName id = some name) : id.index < a.size := by
  cases hform : a.form? id with
  | none =>
    rw [definitionName, hform] at h
    cases h
  | some form => exact index_lt_of_form? hform

/-- Whether a node is a pattern depends on its form only. -/
theorem isPatternArgument_congr {id : NodeId} (h : b.form? id = a.form? id) :
    b.isPatternArgument id = a.isPatternArgument id := by
  unfold isPatternArgument
  rw [h]

/-- The name that a node defines depends on its form and those of its children only. -/
theorem definitionName_congr {id : NodeId} (h : b.form? id = a.form? id)
    (hc : ∀ child ∈ a.children id, b.form? child = a.form? child) :
    b.definitionName id = a.definitionName id := by
  unfold definitionName
  rw [h]
  cases hf : a.form? id with
  | none => rfl
  | some form =>
    cases form with
    | function name isInfix arguments returnType body scope =>
      have hany : arguments.any b.isPatternArgument = arguments.any a.isPatternArgument := by
        rw [Bool.eq_iff_iff, List.any_eq_true, List.any_eq_true]
        refine exists_congr fun argument => and_congr_right fun hargument => ?_
        rw [isPatternArgument_congr (hc argument ?_)]
        simp [Arena.children, hf, Form.children, Form.childGroups, ChildGroup.children, hargument]
      simp only [hany]
    | _ => rfl

/-! ## Growth -/

/-- The arena `a` grows to `b` without a change to what `base` already holds: older nodes and
scopes stay as they are, no node changes its form, and no new node opens an older scope. -/
structure Grows (base a b : Arena) : Prop where
  size_le : a.size ≤ b.size
  node?_eq : ∀ id : NodeId, id.index < base.size → b.node? id = a.node? id
  form?_eq : ∀ id : NodeId, id.index < a.size → b.form? id = a.form? id
  scopeCount_le : a.scopes.size ≤ b.scopes.size
  scope_eq : ∀ id : ScopeId, id.index < base.scopes.size → b.scopes.get id = a.scopes.get id
  scope_new : ∀ id form scope, a.size ≤ id.index → b.form? id = some form →
    form.scope? = some scope → base.scopes.size ≤ scope.index

/-- An arena holds at least what another one holds. -/
structure Holds (a base : Arena) : Prop where
  size_le : base.size ≤ a.size
  scopeCount_le : base.scopes.size ≤ a.scopes.size

/-- An arena holds what it holds. -/
theorem Holds.refl (a : Arena) : a.Holds a := ⟨Nat.le_refl _, Nat.le_refl _⟩

/-- Growth loses nothing. -/
theorem Grows.holds (h : Grows base a b) : b.Holds a := ⟨h.size_le, h.scopeCount_le⟩

/-- What is held by what is held is held. -/
theorem Holds.trans (h : c.Holds b) (h' : b.Holds a) : c.Holds a :=
  ⟨Nat.le_trans h'.size_le h.size_le, Nat.le_trans h'.scopeCount_le h.scopeCount_le⟩

namespace Grows

/-- Nothing has to change. -/
theorem refl (base a : Arena) : Grows base a a :=
  ⟨Nat.le_refl _, fun _ _ => rfl, fun _ _ => rfl, Nat.le_refl _, fun _ _ => rfl,
    fun _ _ _ hid hform _ => absurd (index_lt_of_form? hform) (Nat.not_lt_of_le hid)⟩

/-- Growth in steps is growth. -/
theorem trans (h : Grows base a b) (h' : Grows base b c) : Grows base a c where
  size_le := Nat.le_trans h.size_le h'.size_le
  node?_eq id hid := (h'.node?_eq id hid).trans (h.node?_eq id hid)
  form?_eq id hid :=
    (h'.form?_eq id (Nat.lt_of_lt_of_le hid h.size_le)).trans (h.form?_eq id hid)
  scopeCount_le := Nat.le_trans h.scopeCount_le h'.scopeCount_le
  scope_eq id hid := (h'.scope_eq id hid).trans (h.scope_eq id hid)
  scope_new id form scope hid hform hscope := by
    by_cases hb : b.size ≤ id.index
    · exact h'.scope_new id form scope hb hform hscope
    · refine h.scope_new id form scope hid ?_ hscope
      exact (h'.form?_eq id (Nat.lt_of_not_le hb)).symm.trans hform

/-- What keeps a larger arena keeps a smaller one. -/
theorem weaken {base' : Arena} (h : Grows base' a b) (hb : base'.Holds base) :
    Grows base a b where
  size_le := h.size_le
  node?_eq id hid := h.node?_eq id (Nat.lt_of_lt_of_le hid hb.size_le)
  form?_eq := h.form?_eq
  scopeCount_le := h.scopeCount_le
  scope_eq id hid := h.scope_eq id (Nat.lt_of_lt_of_le hid hb.scopeCount_le)
  scope_new id form scope hid hform hscope :=
    Nat.le_trans hb.scopeCount_le (h.scope_new id form scope hid hform hscope)

/-- A node keeps its form. -/
theorem form?_eq_some (h : Grows base a b) {id : NodeId} {form : Form}
    (hf : a.form? id = some form) : b.form? id = some form :=
  (h.form?_eq id (index_lt_of_form? hf)).trans hf

/-- A node older than the base keeps its parent. -/
theorem parent?_eq (h : Grows base a b) {id : NodeId} (hid : id.index < base.size) :
    b.parent? id = a.parent? id := by
  simp only [parent?, h.node?_eq id hid]

end Grows

/-! ## New scopes -/

/-- A new scope is empty. -/
theorem get_newScope (a : Arena) (parent : Option ScopeId) :
    (a.newScope parent).2.scopes.get (a.newScope parent).1 = .ok ⟨[], parent⟩ := by
  simp [newScope, Scopes.add, Scopes.get]

/-- Opening a scope changes nothing else. -/
theorem grows_newScope (a : Arena) (parent : Option ScopeId) :
    Grows a a (a.newScope parent).2 where
  size_le := Nat.le_refl _
  node?_eq _ _ := rfl
  form?_eq _ _ := rfl
  scopeCount_le := by simp [newScope]
  scope_eq id hid := by
    have hid : id.index < a.scopes.scopes.size := hid
    simp [newScope, Scopes.add, Scopes.get, Array.getElem?_push, Nat.ne_of_lt hid]
  scope_new _ _ _ hid hform _ := by
    have hlt := index_lt_of_form? hform
    exact absurd hlt (Nat.not_lt_of_le hid)

/-! ## New nodes -/

/-- A node that has no parent can become a child. -/
structure Free (a : Arena) (id : NodeId) : Prop where
  exists_node : id.index < a.size
  parent?_eq : a.parent? id = none

/-- A free node is a node without a recorded parent. -/
theorem Free.node {id : NodeId} (h : a.Free id) :
    ∃ node, a.node? id = some node ∧ node.parent = none := by
  have hlt : id.index < a.nodes.size := h.exists_node
  have hp := h.parent?_eq
  have hn : a.node? id = some a.nodes[id.index] := Array.getElem?_eq_getElem hlt
  refine ⟨_, hn, ?_⟩
  simpa [parent?, hn] using hp

/-- A node older than the base stays free. -/
theorem Free.mono {id : NodeId} (h : a.Free id) (hg : Grows base a b) (hid : id.index < base.size) :
    b.Free id :=
  ⟨Nat.lt_of_lt_of_le h.exists_node hg.size_le, (hg.parent?_eq hid).trans h.parent?_eq⟩

/-- The first of some nodes that defines a name. -/
def firstNamed? (a : Arena) (nodes : List NodeId) (name : String) : Option NodeId :=
  nodes.find? fun node => a.definitionName node == some name

/-- No node defines a name that is not among the names of all. -/
theorem firstNamed?_eq_none_iff {a : Arena} {nodes : List NodeId} {name : String} :
    a.firstNamed? nodes name = none ↔ name ∉ nodes.filterMap a.definitionName := by
  simp [firstNamed?, List.find?_eq_none, List.mem_filterMap]

/-- A node that comes last is the first with its name if no other has it. -/
theorem firstNamed?_concat {a : Arena} (nodes : List NodeId) (node : NodeId) (name : String) :
    a.firstNamed? (nodes ++ [node]) name = (a.firstNamed? nodes name).or
      (if a.definitionName node = some name then some node else none) := by
  simp [firstNamed?, List.find?_append, List.find?_cons, List.find?_nil]
  split <;> simp_all

/-- The first node with a name is about the names of the nodes only. -/
theorem firstNamed?_congr {nodes : List NodeId}
    (h : ∀ node ∈ nodes, b.definitionName node = a.definitionName node) (name : String) :
    b.firstNamed? nodes name = a.firstNamed? nodes name := by
  induction nodes with
  | nil => rfl
  | cons node nodes ih =>
    have hrest := ih fun other ho => h other (List.mem_cons_of_mem _ ho)
    rw [firstNamed?, firstNamed?] at hrest ⊢
    rw [List.find?_cons, List.find?_cons, hrest, h node (List.mem_cons_self ..)]

/-! ## Names that are defined twice -/

/-- A node after others that defines a name which one of them defines, with the first that does. -/
def repeat? (a : Arena) (earlier : List NodeId) (node : NodeId) : Option Redefinition :=
  (a.definitionName node).bind fun name =>
    (a.firstNamed? earlier name).map fun first => ⟨name, first, node⟩

/-- Of some nodes those that define a name which a node before them defines, be it one of `earlier`,
each with the first node that does. -/
def repeatsAfter (a : Arena) (earlier : List NodeId) : List NodeId → List Redefinition
  | [] => []
  | node :: nodes =>
    (a.repeat? earlier node).toList ++ a.repeatsAfter (earlier ++ [node]) nodes

/-- Of some nodes those that define a name which an earlier one of them defines, each with the first
node that does. -/
def repeats (a : Arena) (nodes : List NodeId) : List Redefinition := a.repeatsAfter [] nodes

/-- What is repeated among more nodes. -/
theorem repeatsAfter_append (a : Arena) (earlier nodes others : List NodeId) :
    a.repeatsAfter earlier (nodes ++ others) =
      a.repeatsAfter earlier nodes ++ a.repeatsAfter (earlier ++ nodes) others := by
  induction nodes generalizing earlier with
  | nil => simp [repeatsAfter]
  | cons node nodes ih => simp [repeatsAfter, ih]

/-- A last node repeats a name if one before it defines that name. -/
theorem repeats_concat (a : Arena) (nodes : List NodeId) (node : NodeId) :
    a.repeats (nodes ++ [node]) = a.repeats nodes ++ (a.repeat? nodes node).toList := by
  simp [repeats, repeatsAfter_append, repeatsAfter]

/-- What is repeated is about the names of the nodes only. -/
theorem repeatsAfter_congr {earlier nodes : List NodeId}
    (h : ∀ node ∈ earlier ++ nodes, b.definitionName node = a.definitionName node) :
    b.repeatsAfter earlier nodes = a.repeatsAfter earlier nodes := by
  induction nodes generalizing earlier with
  | nil => rfl
  | cons node nodes ih =>
    have hfirst := firstNamed?_congr fun other ho => h other (List.mem_append_left _ ho)
    have hrest : b.repeatsAfter (earlier ++ [node]) nodes =
        a.repeatsAfter (earlier ++ [node]) nodes :=
      ih (by simpa using h)
    simp only [repeatsAfter, repeat?, hrest, h node (by simp), hfirst]

/-- What repeats a name is the node and defines the name. -/
theorem of_repeat?_eq_some {earlier : List NodeId} {node : NodeId} {r : Redefinition}
    (h : a.repeat? earlier node = some r) :
    r.duplicate = node ∧ a.definitionName node = some r.name := by
  obtain ⟨name, hname, h⟩ := Option.bind_eq_some_iff.1 h
  obtain ⟨first, -, rfl⟩ := Option.map_eq_some_iff.1 h
  exact ⟨rfl, hname⟩

/-- What repeats a name is one of the nodes and defines the name. -/
theorem of_mem_repeatsAfter {earlier nodes : List NodeId} {r : Redefinition}
    (h : r ∈ a.repeatsAfter earlier nodes) :
    r.duplicate ∈ nodes ∧ a.definitionName r.duplicate = some r.name := by
  induction nodes generalizing earlier with
  | nil => cases h
  | cons node nodes ih =>
    rcases List.mem_append.1 h with h | h
    · obtain ⟨hid, hname⟩ := of_repeat?_eq_some (Option.mem_toList.1 h)
      exact ⟨hid ▸ List.mem_cons_self .., hid.symm ▸ hname⟩
    · exact ⟨List.mem_cons_of_mem _ (ih h).1, (ih h).2⟩

/-- Each node repeats a name once at most, in the order of the nodes. -/
theorem repeatsAfter_sublist (a : Arena) (earlier nodes : List NodeId) :
    ((a.repeatsAfter earlier nodes).map (·.duplicate)).Sublist nodes := by
  induction nodes generalizing earlier with
  | nil => exact .refl _
  | cons node nodes ih =>
    rw [repeatsAfter, List.map_append]
    cases h : a.repeat? earlier node with
    | none => exact (ih _).cons _
    | some r =>
      rw [← (of_repeat?_eq_some h).1]
      exact (ih _).cons_cons _

/-- A node repeats no name exactly if no node before it defines its name. -/
theorem repeat?_eq_none_iff {earlier : List NodeId} {node : NodeId} :
    a.repeat? earlier node = none ↔
      ∀ name, a.definitionName node = some name → name ∉ earlier.filterMap a.definitionName := by
  simp only [repeat?, Option.bind_eq_none_iff, Option.map_eq_none_iff, firstNamed?_eq_none_iff]

/-- No name is repeated exactly if the names are different from each other. -/
theorem repeats_eq_nil_iff {nodes : List NodeId} :
    a.repeats nodes = [] ↔ (nodes.filterMap a.definitionName).Nodup := by
  induction nodes using List.reverseRecOn with
  | nil => simp [repeats, repeatsAfter]
  | append_singleton nodes node ih =>
    rw [repeats_concat, List.append_eq_nil_iff, ih, Option.toList_eq_nil_iff, repeat?_eq_none_iff,
      List.filterMap_append, List.nodup_append']
    cases hd : a.definitionName node with
    | none => simp [hd]
    | some name => simp [hd]

/-! ## Claiming children -/

/-- What has become of an arena when a new node has taken over the children `taken`, which are
bound in `scope?` if the new node opens a scope. -/
structure Claimed (a : Arena) (scope? : Option ScopeId) (taken : List NodeId) (b : Arena) :
    Prop where
  size_eq : b.size = a.size
  form?_eq : ∀ id, b.form? id = a.form? id
  node?_eq : ∀ id : NodeId, id ∉ taken → b.node? id = a.node? id
  scopeCount_eq : b.scopes.size = a.scopes.size
  scope_eq : ∀ id, scope? ≠ some id → b.scopes.get id = a.scopes.get id
  bound : ∀ id, scope? = some id → ∃ scope, b.scopes.get id = .ok scope ∧
    a.scopes.get id = .ok ⟨[], scope.parent⟩ ∧
    ∀ name, scope.find? name = a.firstNamed? taken name
  redefinitions : b.redefinitions = scope?.elim [] fun _ => a.repeats taken

/-- Recording a parent leaves the other nodes as they are. -/
theorem node?_setParent_of_ne (a : Arena) {id other : NodeId} (parent : Option NodeId)
    (h : other ≠ id) : (a.setParent id parent).node? other = a.node? other :=
  a.node?_modify_of_ne _ h

/-- Scopes are changed one at a time. -/
theorem get_set_of_get {s : Scopes} {id : ScopeId} {scope : Scope} (h : s.get id = .ok scope)
    (new : Scope) : (s.set id new).get id = .ok new := by
  refine Scopes.get_set_self new ?_
  by_contra hlt
  have hlt : s.scopes.size ≤ id.index := Nat.le_of_not_lt hlt
  simp [Scopes.get, Array.getElem?_eq_none hlt] at h

/-! ## Children that are bound -/

section

variable {scope : ScopeId} {bound : Scope} {child existing : NodeId} {name : String}

/-- Nothing is bound for a child that defines no name. -/
theorem defineChild_of_nameless (h : a.definitionName child = none) :
    a.defineChild scope child = .ok a := by
  rw [defineChild, h]
  rfl

/-- A name that is taken is noted, and nothing is bound. -/
theorem defineChild_of_taken (h : a.definitionName child = some name)
    (hget : a.scopes.get scope = .ok bound) (hfind : bound.find? name = some existing) :
    a.defineChild scope child =
      .ok { a with redefinitions := a.redefinitions ++ [⟨name, existing, child⟩] } := by
  simp only [defineChild, h, Scopes.define, hget, hfind, bind, Except.bind, pure, Except.pure]

/-- A name that is not taken is bound. -/
theorem defineChild_of_free (h : a.definitionName child = some name)
    (hget : a.scopes.get scope = .ok bound) (hfind : bound.find? name = none) :
    a.defineChild scope child =
      .ok { a with scopes := a.scopes.set scope (bound.insert name child) } := by
  simp only [defineChild, h, Scopes.define, hget, hfind, bind, Except.bind, pure, Except.pure]

end

/-- Claiming one more free child. -/
theorem Claimed.step {scope? : Option ScopeId} {taken : List NodeId} {child : NodeId}
    (h : a.Claimed scope? taken b) (hf : a.Free child) (hn : child ∉ taken) (id : NodeId) :
    ∃ c, b.claimChild id scope? child = .ok c ∧ a.Claimed scope? (taken ++ [child]) c := by
  obtain ⟨node, hnode, hparent⟩ := hf.node
  have hb : b.node child = .ok node := by
    simp [Arena.node, h.node?_eq child hn, hnode]
  -- the child has no parent, so nothing is released
  have hclaim : b.claimChild id scope? child =
      scope?.elim (.ok (b.setParent child (some id)))
        fun scope => (b.setParent child (some id)).defineChild scope child := by
    simp only [claimChild, hb, hparent, bind, Except.bind, pure, Except.pure]
    cases scope? <;> rfl
  have hnode? (other : NodeId) (ho : other ∉ taken ++ [child]) :
      (b.setParent child (some id)).node? other = a.node? other := by
    simp only [List.mem_append, List.mem_singleton, not_or] at ho
    rw [b.node?_setParent_of_ne _ ho.2, h.node?_eq other ho.1]
  have hform? (other : NodeId) :
      (b.setParent child (some id)).form? other = a.form? other := by
    rw [form?_setParent, h.form?_eq]
  have hname : (b.setParent child (some id)).definitionName child = a.definitionName child :=
    definitionName_congr (hform? child) fun other _ => hform? other
  have hsize : (b.setParent child (some id)).size = a.size := by
    rw [setParent, size_modify, h.size_eq]
  cases hs : scope? with
  | none =>
    subst hs
    refine ⟨_, hclaim, hsize, hform?, hnode?, h.scopeCount_eq, h.scope_eq, nofun, ?_⟩
    exact h.redefinitions
  | some scope =>
    subst hs
    obtain ⟨bound, hget, hempty, hfind⟩ := h.bound scope rfl
    have hget' : (b.setParent child (some id)).scopes.get scope = .ok bound := hget
    have hr : (b.setParent child (some id)).redefinitions = a.repeats taken := h.redefinitions
    cases hd : a.definitionName child with
    | none =>
      refine ⟨_, hclaim.trans (defineChild_of_nameless (hname.trans hd)), hsize, hform?, hnode?,
        h.scopeCount_eq, h.scope_eq, ?_, ?_⟩
      · rintro _ ⟨⟩
        refine ⟨bound, hget', hempty, fun other => ?_⟩
        rw [firstNamed?_concat, hd, if_neg (by simp), Option.or_none, hfind]
      · simp [hr, repeats_concat, repeat?, hd]
    | some name =>
      cases hfree : bound.find? name with
      | some existing =>
        -- the name is taken: it is noted and nothing is bound
        have hdone := defineChild_of_taken (hname.trans hd) hget' hfree
        refine ⟨_, hclaim.trans hdone, hsize, hform?, hnode?, h.scopeCount_eq, h.scope_eq, ?_, ?_⟩
        · rintro _ ⟨⟩
          refine ⟨bound, hget', hempty, fun other => ?_⟩
          rw [firstNamed?_concat, hd, ← hfind]
          by_cases ho : name = other
          · rw [← ho, hfree, Option.some_or]
          · rw [if_neg (by simpa using ho), Option.or_none]
        · have hfirst : a.firstNamed? taken name = some existing := (hfind name).symm.trans hfree
          simp [hr, repeats_concat, repeat?, hd, hfirst]
      | none =>
        have hdone := defineChild_of_free (hname.trans hd) hget' hfree
        refine ⟨_, hclaim.trans hdone, hsize, hform?, hnode?, ?_, ?_, ?_, ?_⟩
        · exact (Scopes.size_set ..).trans h.scopeCount_eq
        · intro other ho
          have hne : other ≠ scope := fun e => ho (e ▸ rfl)
          exact (Scopes.get_set_of_ne _ _ hne).trans (h.scope_eq other ho)
        · rintro _ ⟨⟩
          refine ⟨_, get_set_of_get hget' _, hempty, fun other => ?_⟩
          rw [firstNamed?_concat, hd, ← hfind]
          by_cases ho : other = name
          · rw [ho, Scope.find?_insert_self child hfree, hfree, Option.none_or, if_pos rfl]
          · rw [Scope.find?_insert_of_ne bound child ho, if_neg (by simpa using Ne.symm ho),
              Option.or_none]
        · have hfirst : a.firstNamed? taken name = none := (hfind name).symm.trans hfree
          simp [hr, repeats_concat, repeat?, hd, hfirst]

/-- Claiming several free children. -/
theorem Claimed.foldlM {scope? : Option ScopeId} {taken children : List NodeId}
    (h : a.Claimed scope? taken b) (hf : ∀ child ∈ children, a.Free child)
    (hn : (taken ++ children).Nodup) (id : NodeId) :
    ∃ c, children.foldlM (fun b child => b.claimChild id scope? child) b = .ok c ∧
      a.Claimed scope? (taken ++ children) c := by
  induction children generalizing taken b with
  | nil => exact ⟨b, rfl, by simpa using h⟩
  | cons child children ih =>
    have hchild : child ∉ taken := fun hm =>
      (List.disjoint_of_nodup_append hn) hm (List.mem_cons_self ..)
    obtain ⟨c, hc, hclaimed⟩ := h.step (hf child (List.mem_cons_self ..)) hchild id
    have hn' : (taken ++ [child] ++ children).Nodup := by simpa using hn
    obtain ⟨d, hd, hclaimed'⟩ :=
      ih hclaimed (fun x hx => hf x (List.mem_cons_of_mem _ hx)) hn'
    refine ⟨d, ?_, by simpa using hclaimed'⟩
    rw [List.foldlM_cons, hc]
    exact hd

/-- What has become of the arena `a` when a node of a form has been added over free children. -/
structure Made (a : Arena) (form : Form) (b : Arena) : Prop where
  size_eq : b.size = a.size + 1
  node?_eq : ∀ id : NodeId, id.index < a.size → id ∉ form.children → b.node? id = a.node? id
  form?_eq : ∀ id : NodeId, id.index < a.size → b.form? id = a.form? id
  form?_new : b.form? ⟨a.size⟩ = some form
  parent?_new : b.parent? ⟨a.size⟩ = none
  scopeCount_eq : b.scopes.size = a.scopes.size
  scope_eq : ∀ id, form.scope? ≠ some id → b.scopes.get id = a.scopes.get id
  bound : ∀ id, form.scope? = some id → ∃ scope, b.scopes.get id = .ok scope ∧
    a.scopes.get id = .ok ⟨[], scope.parent⟩ ∧
    ∀ name, scope.find? name = b.firstNamed? form.children name
  redefinitions : b.redefinitions = form.scope?.elim [] fun _ => b.repeats form.children

/-- No redefinition is found exactly if there is no scope or the names are different. -/
theorem Made.redefinitions_eq_nil_iff {form : Form} (h : a.Made form b) :
    b.redefinitions = [] ↔
      form.scope? = none ∨ (form.children.filterMap b.definitionName).Nodup := by
  rw [h.redefinitions, ← repeats_eq_nil_iff]
  cases form.scope? <;> simp

/-- Every node that is found to repeat a name exists. -/
theorem Made.index_duplicate_lt {form : Form} {r : Redefinition} (h : a.Made form b)
    (hr : r ∈ b.redefinitions) : r.duplicate.index < b.size := by
  rw [h.redefinitions] at hr
  cases hscope : form.scope? with
  | none =>
    rw [hscope] at hr
    cases hr
  | some scope =>
    rw [hscope] at hr
    exact index_lt_of_definitionName (of_mem_repeatsAfter hr).2

/-- A node that is added comes after all others. -/
theorem node?_push (a : Arena) (node : Node) {id : NodeId} (h : id.index < a.size) :
    ({ a with nodes := a.nodes.push node } : Arena).node? id = a.node? id := by
  have h : id.index < a.nodes.size := h
  simp [node?, Array.getElem?_push, Nat.ne_of_lt h]

/-- A new node over free children can always be added, and can be given a position. -/
theorem exists_made {form : Form} (span : Span) (hf : ∀ child ∈ form.children, a.Free child)
    (hn : form.children.Nodup)
    (hs : ∀ id, form.scope? = some id → ∃ parent, a.scopes.get id = .ok ⟨[], parent⟩)
    (hr : a.redefinitions = []) :
    ∃ b c, a.alloc form = .ok (⟨a.size⟩, b) ∧ b.setPosition ⟨a.size⟩ span = .ok c ∧
      a.Made form c := by
  let pushed : Arena := { a with nodes := a.nodes.push { form := form } }
  have hlt (child : NodeId) (hc : child ∈ form.children) : child.index < a.size :=
    (hf child hc).exists_node
  have hfree (child : NodeId) (hc : child ∈ form.children) : pushed.Free child := by
    refine ⟨?_, ?_⟩
    · show child.index < (a.nodes.push _).size
      rw [Array.size_push]
      exact Nat.lt_succ_of_lt (hlt child hc)
    · have hnode := a.node?_push { form := form } (hlt child hc)
      have hparent := (hf child hc).parent?_eq
      unfold parent? at hparent ⊢
      rw [hnode, hparent]
  have hstart : pushed.Claimed form.scope? [] pushed := by
    refine ⟨rfl, fun _ => rfl, fun _ _ => rfl, rfl, fun _ _ => rfl, ?_, ?_⟩
    · intro id hid
      obtain ⟨parent, hget⟩ := hs id hid
      exact ⟨_, hget, hget, fun name => rfl⟩
    · have hr : pushed.redefinitions = [] := hr
      rw [hr]
      cases form.scope? <;> rfl
  obtain ⟨b, hb, hclaimed⟩ := hstart.foldlM hfree (by simpa using hn) ⟨a.size⟩
  simp only [List.nil_append] at hclaimed
  have hnew : b.node? ⟨a.size⟩ = some { form := form } := by
    have hnot : (⟨a.size⟩ : NodeId) ∉ form.children := fun hm => Nat.lt_irrefl _ (hlt _ hm)
    rw [hclaimed.node?_eq _ hnot]
    simp [pushed, node?, size]
  have halloc : a.alloc form = .ok (⟨a.size⟩, b) := by
    unfold alloc
    rw [show (⟨a.nodes.size⟩ : NodeId) = ⟨a.size⟩ from rfl]
    simp only [hb, bind, Except.bind, pure, Except.pure, pushed]
  let c : Arena := b.modify ⟨a.size⟩ fun node => { node with position := some span }
  have hset : b.setPosition ⟨a.size⟩ span = .ok c := by
    unfold setPosition Arena.node
    rw [hnew]
    rfl
  have hform (id : NodeId) : c.form? id = pushed.form? id := by
    have hc : c.form? id = b.form? id := by
      refine b.form?_modify _ id _ ?_
      intro node
      rfl
    rw [hc, hclaimed.form?_eq]
  have hname : c.definitionName = pushed.definitionName :=
    funext fun id => definitionName_congr (hform id) fun child _ => hform child
  refine ⟨b, c, halloc, hset, ?_, ?_, ?_, ?_, ?_, hclaimed.scopeCount_eq, hclaimed.scope_eq, ?_, ?_⟩
  · rw [size_modify, hclaimed.size_eq]
    exact Array.size_push ..
  · intro id hid hnot
    have hne : id ≠ ⟨a.size⟩ := fun e => Nat.ne_of_lt hid (e ▸ rfl)
    rw [b.node?_modify_of_ne _ hne, hclaimed.node?_eq id hnot, a.node?_push _ hid]
  · intro id hid
    rw [hform]
    simp only [form?, pushed, a.node?_push _ hid]
  · rw [hform]
    simp [pushed, form?, node?, size]
  · simp [c, parent?, hnew]
  · intro id hid
    obtain ⟨scope, hget, hempty, hfind⟩ := hclaimed.bound id hid
    refine ⟨scope, hget, hempty, fun name => ?_⟩
    rw [hfind, firstNamed?, firstNamed?, hname]
  · have hred : c.redefinitions = b.redefinitions := rfl
    rw [hred, hclaimed.redefinitions]
    have hrepeats : pushed.repeats form.children = c.repeats form.children :=
      repeatsAfter_congr fun id _ => congrFun hname.symm id
    rw [hrepeats]

/-- Adding a node over what is newer than the base is growth. -/
theorem Made.grows {form : Form} (h : a.Made form b) (hb : a.Holds base)
    (hc : ∀ child ∈ form.children, base.size ≤ child.index)
    (hs : ∀ id, form.scope? = some id → base.scopes.size ≤ id.index) : Grows base a b where
  size_le := by
    rw [h.size_eq]
    exact Nat.le_succ _
  node?_eq id hid :=
    h.node?_eq id (Nat.lt_of_lt_of_le hid hb.size_le) fun hm =>
      Nat.not_lt_of_le (hc id hm) hid
  form?_eq := h.form?_eq
  scopeCount_le := Nat.le_of_eq h.scopeCount_eq.symm
  scope_eq id hid := h.scope_eq id fun e => Nat.not_lt_of_le (hs id e) hid
  scope_new id form' scope hid hform hscope := by
    have hnew : id = ⟨a.size⟩ := by
      have hlt := index_lt_of_form? hform
      rw [h.size_eq] at hlt
      cases id
      exact congrArg _ (Nat.le_antisymm (Nat.le_of_lt_succ hlt) hid)
    subst hnew
    cases h.form?_new.symm.trans hform
    exact hs scope hscope

end ExprLang.Arena
