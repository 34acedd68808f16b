import ExprLang.Parser.Complaint
import ExprLang.Proofs.Lookup
import ExprLang.Proofs.Places.Nodes

/-!
# Errors of nodes

Two things can be wrong with a node that follows the grammar: its list children
define a name twice, if it opens a scope, and it may be a function for use
between its arguments that has not two of them.  What is wrong with a node is
read off the arena when the node is there, and stays as it is.

Main definitions:

- Definition {lit}`Arena.semanticErrors`: the errors that a node gives rise to.
- Definition {lit}`Token.nameSpan`: where the name of such a function stands.

Main results:

- Theorem {lit}`Token.nameSpan_endless`: it is the second token after the first
  one of the function.
- Theorem {lit}`Arena.semanticErrors_eq`: what is wrong with a node stays.
- Theorem {lit}`Arena.Made.semanticErrors_new`: what is wrong with a new node.
-/

namespace ExprLang

/-! ## Names of functions -/

namespace Token

variable {text : String} {i j : Nat}

/-- The span of the second token after the one that starts at a point: of the name of a function
that starts there with the word that makes it one for use between arguments. -/
def nameSpan (tokens : List Token) (start : Point) : Span :=
  tokens[tokens.findIdx (·.span.start == start) + 2]?.elim Span.zero (·.span)

/-- No token starts before one that comes earlier, and a token that is not empty keeps the later
ones behind its start. -/
theorem start_lt_start_endless (hkind : (endless (tokenize text) i).kind ≠ .endOfFile)
    (h : i < j) : (endless (tokenize text) i).span.start.offset <
      (endless (tokenize text) j).span.start.offset := by
  induction j with
  | zero => exact absurd h (Nat.not_lt_zero _)
  | succ j ih =>
    have hnext := stop_le_endless_succ text j
    rcases Nat.lt_succ_iff_lt_or_eq.1 h with hlt | rfl
    · have hj := (genuine_endless text j).offset_le
      have := ih hlt
      omega
    · have := nonempty_endless hkind
      omega

/-- Behind the end of the source there is the end of the source. -/
theorem endless_add_of_kind_eq (h : (endless (tokenize text) i).kind = .endOfFile) (k : Nat) :
    endless (tokenize text) (i + k) = endless (tokenize text) i := by
  have hle : (tokenize text).length ≤ i := by
    by_contra hlt
    rw [endless_of_lt (Nat.lt_of_not_le hlt)] at h
    exact (proper_of_mem_tokenize (List.getElem_mem _)).kind_ne h
  rw [endless_of_length_le hle, endless_of_length_le (Nat.le_add_right_of_le hle)]

/-- The name is found from the start of the function. -/
theorem nameSpan_endless (h : (endless (tokenize text) (i + 2)).kind ≠ .endOfFile) :
    nameSpan (tokenize text) (endless (tokenize text) i).span.start =
      (endless (tokenize text) (i + 2)).span := by
  have hlt := lt_length_of_endless_kind_ne h
  have hi : i < (tokenize text).length := by omega
  have hfound : (tokenize text).findIdx
      (·.span.start == (endless (tokenize text) i).span.start) = i := by
    refine (List.findIdx_eq hi).2 ⟨by simp [endless_of_lt hi], fun j hj => ?_⟩
    have hjlt := Nat.lt_trans hj hi
    have hkind : (endless (tokenize text) j).kind ≠ .endOfFile := by
      rw [endless_of_lt hjlt]
      exact (proper_of_mem_tokenize (List.getElem_mem hjlt)).kind_ne
    have hstart := start_lt_start_endless hkind hj
    rw [endless_of_lt hjlt] at hstart
    refine beq_eq_false_iff_ne.2 fun he => ?_
    rw [he] at hstart
    exact Nat.lt_irrefl _ hstart
  rw [nameSpan, hfound, List.getElem?_eq_getElem hlt, endless_of_lt hlt]
  rfl

end Token

/-! ## Forms -/

namespace Form

/-- Whether nodes of a form may define a name. -/
def mayDefine : Form → Bool
  | function .. | localVariable .. | basicArgument .. | defaultArgument .. => true
  | _ => false

/-- Whether nodes of a form have no children and open no scope. -/
def isLeaf (form : Form) : Bool := form.children.isEmpty && form.scope?.isNone

/-- The error about a function for use between its arguments that has not two of them, if the form
is that of one. -/
def arityErrors (form : Form) (source : String) (name : Span) : List Diagnostic :=
  match form with
  | function text true arguments _ _ _ =>
    if arguments.length = 2 then []
    else [⟨source, .error, .semantic, name, (Complaint.infixArity text).message⟩]
  | _ => []

/-- The children in lists are children. -/
theorem mem_children_of_mem_items {form : Form} {id : NodeId} (h : id ∈ form.items) :
    id ∈ form.children := by
  obtain ⟨group, hgroup, hid⟩ := List.mem_flatMap.1 h
  refine List.mem_flatMap.2 ⟨group, hgroup, ?_⟩
  cases group with
  | slot => cases hid
  | list items => exact hid

/-- Only forms that open a scope give rise to errors. -/
theorem arityErrors_of_scope? {form : Form} (h : form.scope? = none) (source : String)
    (name : Span) : form.arityErrors source name = [] := by
  cases form <;> first | rfl | cases h

/-- Only forms of nodes that may define a name do. -/
theorem arityErrors_of_mayDefine {form : Form} (h : form.mayDefine = false) (source : String)
    (name : Span) : form.arityErrors source name = [] := by
  cases form <;> first | rfl | cases h

end Form

/-! ## Nodes -/

/-- The error about a name that is defined twice, at the second node that defines it. -/
def Redefinition.error (r : Redefinition) (source : String) (a : Arena) : Diagnostic :=
  ⟨source, .error, .semantic, (a.position? r.duplicate).getD Span.zero,
    (Complaint.redefinition r.name).message⟩

namespace Arena

variable {base a b : Arena} {id : NodeId} {form : Form} {span : Span} {text source : String}
  {tokens : List Token}

/-- The errors that a node gives rise to: one at its name if it is a function for use between its
arguments that has not two of them, and, if it opens a scope, one for each child in its lists that
defines a name which an earlier one of these defines. -/
def semanticErrors (a : Arena) (source : String) (tokens : List Token) (id : NodeId) :
    List Diagnostic :=
  (a.form? id).elim [] fun form =>
    form.arityErrors source
        (Token.nameSpan tokens ((a.position? id).getD Span.zero).start) ++
      form.scope?.elim [] fun _ => (a.repeats form.items).map (·.error source a)

/-- Children are older than the nodes that hold them. -/
def Ordered (a : Arena) : Prop :=
  ∀ id form, a.form? id = some form → ∀ child ∈ form.children, child.index < id.index

/-- A node whose form is not one that may define a name defines none. -/
theorem definitionName_eq_none (hform : a.form? id = some form) (h : form.mayDefine = false) :
    a.definitionName id = none := by
  rw [definitionName, hform]
  cases form <;> first | rfl | cases h

/-- Nodes without a scope give rise to no errors. -/
theorem semanticErrors_of_scope? (hform : a.form? id = some form) (h : form.scope? = none) :
    a.semanticErrors source tokens id = [] := by
  rw [semanticErrors, hform, Option.elim_some, form.arityErrors_of_scope? h, h]
  rfl

/-- What is wrong with a node is read off the nodes. -/
theorem semanticErrors_congr (h : b.nodes = a.nodes) :
    b.semanticErrors source tokens id = a.semanticErrors source tokens id := by
  have hform (id : NodeId) : b.form? id = a.form? id := by simp only [form?, node?, h]
  have hposition (id : NodeId) : b.position? id = a.position? id := by
    simp only [position?, node?, h]
  have hrepeats (nodes : List NodeId) : b.repeats nodes = a.repeats nodes :=
    repeatsAfter_congr fun id _ => definitionName_congr (hform id) fun _ _ => hform _
  have herror (r : Redefinition) : r.error source b = r.error source a := by
    rw [Redefinition.error, Redefinition.error, hposition]
  simp only [semanticErrors, hform, hposition, hrepeats, herror]

/-- Nodes that define no name repeat none. -/
theorem repeats_append_of_nameless {nodes rest : List NodeId}
    (h : ∀ id ∈ rest, a.definitionName id = none) :
    a.repeats (nodes ++ rest) = a.repeats nodes := by
  induction rest generalizing nodes with
  | nil => rw [List.append_nil]
  | cons id rest ih =>
    have hnone : a.repeat? nodes id = none := by
      rw [repeat?, h id (List.mem_cons_self ..), Option.bind_none]
    rw [List.append_cons, ih fun other ho => h other (List.mem_cons_of_mem _ ho), repeats_concat,
      hnone, Option.toList_none, List.append_nil]

/-! ## What stays -/

/-- The position of a node stays if it has one. -/
theorem position?_eq_of_places (hp : a.Places b) (h : ∃ span, a.position? id = some span) :
    b.position? id = a.position? id := by
  obtain ⟨span, hspan⟩ := h
  rw [hspan, hp id span hspan]

/-- The name that a node defines stays. -/
theorem Grows.definitionName_eq (h : Grows base a b) (ha : a.Ordered) (hid : id.index < a.size) :
    b.definitionName id = a.definitionName id := by
  refine definitionName_congr (h.form?_eq id hid) fun child hchild => ?_
  unfold children at hchild
  cases hform : a.form? id with
  | none => simp [hform] at hchild
  | some form =>
    have hmem : child ∈ form.children := by simpa [hform] using hchild
    exact h.form?_eq child (Nat.lt_trans (ha id form hform child hmem) hid)

/-- What is wrong with a node stays. -/
theorem semanticErrors_eq (h : Grows base a b) (hp : a.Places b) (ha : a.Ordered)
    (ho : a.Orderly) (hid : id.index < a.size) :
    b.semanticErrors source tokens id = a.semanticErrors source tokens id := by
  rw [semanticErrors, semanticErrors, h.form?_eq id hid,
    position?_eq_of_places hp (ho.placed id hid)]
  cases hform : a.form? id with
  | none => rfl
  | some form =>
    have hitem (item : NodeId) (hitem : item ∈ form.items) : item.index < a.size :=
      Nat.lt_trans (ha id form hform item (Form.mem_children_of_mem_items hitem)) hid
    have hrepeats : b.repeats form.items = a.repeats form.items :=
      repeatsAfter_congr fun item hmem => h.definitionName_eq ha (hitem item hmem)
    have herrors : (a.repeats form.items).map (·.error source b) =
        (a.repeats form.items).map (·.error source a) := by
      refine List.map_congr_left fun r hr => ?_
      rw [Redefinition.error, Redefinition.error, position?_eq_of_places hp
        (ho.placed _ (hitem _ (of_mem_repeatsAfter hr).1))]
    simp only [Option.elim_some, hrepeats, herrors]

/-- What is wrong with a new node: what is found while it takes over its children, unless children
outside of lists define names. -/
theorem Made.semanticErrors_new (h : a.Made form b) (hposition : b.position? ⟨a.size⟩ = some span)
    (hitems : b.repeats form.children = b.repeats form.items) :
    b.semanticErrors source tokens ⟨a.size⟩ =
      form.arityErrors source (Token.nameSpan tokens span.start) ++
        b.redefinitions.map (·.error source b) := by
  rw [semanticErrors, h.form?_new, hposition, h.redefinitions, hitems, Option.elim_some,
    Option.getD_some]
  cases form.scope? <;> rfl

end Arena

end ExprLang
