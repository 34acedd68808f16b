import ExprLang.Proofs.Tree.Denotes
import ExprLang.Tree.Render

/-!
# Source text of trees without numbers

The text of a node is the text of the tree that it stands for.

Main definitions:

- Definition {lit}`Tree.chars`: the text of a tree.

Main results:

- Theorem {lit}`Arena.Denotes.toList_render`: the text of a node.
-/

namespace ExprLang

namespace Tree

/-! ## Pieces -/

/-- Whether a tree, followed by more text of its parent, needs parentheses. -/
def isLoose : Tree → Bool
  | conditional .. => true
  | literal value => value.isNegative
  | _ => false

/-- Whether a tree is a number. -/
def isNumber : Tree → Bool
  | literal value => value.isNumber
  | _ => false

/-- Whether a tree is a block. -/
def isBlock : Tree → Bool
  | block _ => true
  | _ => false

/-- The text of a tree that is text where it is part of a template. -/
def stringText? : Tree → Option String
  | literal (.string text) => some text
  | _ => none

/-- Text in parentheses. -/
def grouped (cs : List Char) : List Char := '(' :: cs ++ [')']

/-- The text of a tree that is followed by more of its parent. -/
def operandChars (tree : Tree) (cs : List Char) : List Char :=
  if tree.isLoose then grouped cs else cs

/-- The text of a tree after a sign, which must not become part of a number. -/
def signedChars (tree : Tree) (cs : List Char) : List Char :=
  if tree.isNumber then grouped cs else cs

/-- The text of a tree as the body of a function. -/
def bodyChars (tree : Tree) (cs : List Char) : List Char :=
  if tree.isBlock then ' ' :: cs else [' ', '=', ' '] ++ cs ++ [';']

/-- The text of a tree as a part of a template. -/
def partChars (tree : Tree) (cs : List Char) : List Char :=
  match tree.stringText? with
  | some text => Text.escape text.toList
  | none => ['\\', '\x7b'] ++ cs ++ ['\x7d']

/-- Texts in parentheses, separated by commas. -/
def listedChars (texts : List (List Char)) : List Char :=
  grouped ([',', ' '].intercalate texts)

/-- Texts in braces. -/
def bracedChars (texts : List (List Char)) : List Char :=
  if texts.isEmpty then ['\x7b', ' ', '\x7d']
  else ['\x7b', ' '] ++ [' '].intercalate texts ++ [' ', '\x7d']

/-- A colon and a type, if there is one. -/
def typeChars (type : Option String) : List Char :=
  type.elim [] fun text => [':', ' '] ++ text.toList

/-- The text of a literal. -/
def literalChars (value : Literal) : List Char := (toString value).toList

/-- What stands before the body of a function. -/
def headChars (name : String) (isInfix : Bool) (arguments : List (List Char))
    (returnType : Option String) : List Char :=
  (if isInfix then "infix fun ".toList else "fun ".toList) ++ name.toList ++
    listedChars arguments ++ typeChars returnType

/-! ## Texts -/

/-- The text of a tree. -/
def chars : Tree → List Char
  | compilationUnit imports declarations =>
    ['\n'].intercalate (imports.map chars ++ declarations.map chars)
  | importPath path entries =>
    "import \"".toList ++ Text.escape path.toList ++ ['"'] ++
      if entries.isEmpty then [';']
      else [' ', '\x7b', ' '] ++ [',', ' '].intercalate (entries.map chars) ++
        [' ', '\x7d', ';']
  | importEntry name rename =>
    name.toList ++ rename.elim [] fun text => " as ".toList ++ text.toList
  | block statements => bracedChars (statements.map chars)
  | literal value => literalChars value
  | stringTemplate parts =>
    '"' :: (parts.map fun part => partChars part (chars part)).flatten ++ ['"']
  | reference name => name.toList
  | unary operator operand =>
    grouped (operator.symbol.toList ++ signedChars operand (chars operand))
  | binary left operator right =>
    grouped (operandChars left (chars left) ++ ' ' :: operator.symbol.toList ++
      ' ' :: chars right)
  | assignment target operator value =>
    grouped (operandChars target (chars target) ++ ' ' :: operator.symbol.toList ++
      ' ' :: chars value)
  | memberAccess receiver member =>
    operandChars receiver (chars receiver) ++ '.' :: member.toList
  | function name isInfix arguments returnType body =>
    headChars name isInfix (arguments.map chars) returnType ++ bodyChars body (chars body)
  | namedInvocation name arguments => name.toList ++ listedChars (arguments.map chars)
  | anonymousInvocation target arguments =>
    operandChars target (chars target) ++ listedChars (arguments.map chars)
  | infixInvocation left name right =>
    grouped (operandChars left (chars left) ++ ' ' :: name.toList ++ ' ' :: chars right)
  | basicArgument name type => name.toList ++ typeChars type
  | defaultArgument name type default =>
    name.toList ++ typeChars type ++ [' ', '=', ' '] ++ chars default
  | patternArgument pattern => chars pattern
  | conditional condition thenBranch none =>
    ['i', 'f', ' '] ++ grouped (chars condition) ++ ' ' :: chars thenBranch
  | conditional condition thenBranch (some elseBranch) =>
    ['i', 'f', ' '] ++ grouped (chars condition) ++
      ' ' :: operandChars thenBranch (chars thenBranch) ++ " else ".toList ++ chars elseBranch
  | localVariable name isMutable type none =>
    (if isMutable then "var ".toList else "val ".toList) ++ name.toList ++ typeChars type ++ [';']
  | localVariable name isMutable type (some initializer) =>
    (if isMutable then "var ".toList else "val ".toList) ++ name.toList ++ typeChars type ++
      [' ', '=', ' '] ++ chars initializer ++ [';']
  | returnStatement none => "return;".toList
  | returnStatement (some value) => "return ".toList ++ chars value ++ [';']
  | expressionStatement expression => chars expression ++ [';']

end Tree

/-- A text is written as itself. -/
@[simp] theorem toString_string (text : String) : toString text = text := rfl

/-! ## Nodes -/

namespace Arena

variable {a : Arena} {id : NodeId} {tree : Tree} {text : NodeId → String}

namespace Denotes

/-- The form of a node looks like its tree. -/
theorem exists_form? (h : a.Denotes id tree) :
    ∃ form, a.form? id = some form ∧ form.bare = tree.shape := by
  obtain ⟨hform, hbare, -, -⟩ := h
  exact ⟨_, hform, hbare⟩

/-- A node is loose exactly if its tree is. -/
theorem isLoose_eq (h : a.Denotes id tree) :
    ((some id).bind a.form?).elim false Form.isLoose = tree.isLoose := by
  obtain ⟨form, hform, hbare⟩ := h.exists_form?
  rw [Option.bind_some, hform]
  cases form <;> cases tree <;> first | rfl | cases hbare
  rfl

/-- A node is a number exactly if its tree is. -/
theorem isNumber_eq (h : a.Denotes id tree) :
    ((some id).bind a.form?).elim false Form.isNumber = tree.isNumber := by
  obtain ⟨form, hform, hbare⟩ := h.exists_form?
  rw [Option.bind_some, hform]
  cases form <;> cases tree <;> first | rfl | cases hbare
  rfl

/-- A node is a block exactly if its tree is. -/
theorem isBlock_eq (h : a.Denotes id tree) :
    ((some id).bind a.form?).elim true Form.isBlock = tree.isBlock := by
  obtain ⟨form, hform, hbare⟩ := h.exists_form?
  rw [Option.bind_some, hform]
  cases form <;> cases tree <;> first | rfl | cases hbare

/-- A node is text of a template exactly if its tree is. -/
theorem stringText?_eq (h : a.Denotes id tree) :
    (a.form? id).bind Form.stringText? = tree.stringText? := by
  obtain ⟨form, hform, hbare⟩ := h.exists_form?
  rw [hform, Option.bind_some]
  cases form <;> cases tree <;> first | rfl | cases hbare
  rename_i value
  cases value <;> rfl

end Denotes

/-- A node and its tree have the same text. -/
def SameText (a : Arena) (text : NodeId → String) (id : NodeId) (tree : Tree) : Prop :=
  a.Denotes id tree ∧ (text id).toList = tree.chars

/-- A slot that stands for one tree is filled. -/
theorem exists_of_slot {r : NodeId → Tree → Prop} {slot : Option NodeId}
    (h : List.Forall₂ r slot.toList [tree]) : ∃ id, slot = some id ∧ r id tree := by
  cases slot with
  | none => cases h
  | some id =>
    cases h with
    | cons h _ => exact ⟨id, rfl, h⟩

/-- Nodes with the texts of trees. -/
theorem map_toList_eq {ids : List NodeId} {trees : List Tree}
    (h : List.Forall₂ (a.SameText text) ids trees) :
    (ids.map text).map String.toList = trees.map Tree.chars := by
  induction h with
  | nil => rfl
  | cons h _ ih => exact congrArg₂ List.cons h.2 ih

/-- The text of an operand. -/
theorem toList_operand (h : a.SameText text id tree) :
    (Form.source.operand a.form? text (some id)).toList = tree.operandChars tree.chars := by
  unfold Form.source.operand Tree.operandChars
  rw [h.1.isLoose_eq]
  split
  · simp [Form.source.slot, Tree.grouped, h.2]
  · exact h.2

/-- The text of a part of a template. -/
theorem toList_part (h : a.SameText text id tree) :
    (Form.source.part a.form? text id).toList = tree.partChars tree.chars := by
  unfold Form.source.part Tree.partChars
  rw [h.1.stringText?_eq]
  cases tree.stringText? with
  | none => simp [h.2]
  | some content => simp [Text.escapeString]

/-- The texts of the parts of a template. -/
theorem toList_parts {ids : List NodeId} {trees : List Tree}
    (h : List.Forall₂ (a.SameText text) ids trees) :
    (String.join (ids.map (Form.source.part a.form? text))).toList =
      (trees.map fun part => part.partChars part.chars).flatten := by
  induction h with
  | nil => rfl
  | cons h _ ih => simp [toList_part h, ih]

/-- Texts in parentheses. -/
theorem toList_parenthesized (texts : List String) :
    (parenthesized texts).toList = Tree.listedChars (texts.map String.toList) := by
  simp [parenthesized, Tree.listedChars, Tree.grouped]

/-- Texts in braces. -/
theorem toList_braced (texts : List String) :
    (braced texts).toList = Tree.bracedChars (texts.map String.toList) := by
  cases texts <;> simp [braced, Tree.bracedChars]

/-- A type. -/
theorem toList_typeSuffix (type : Option String) :
    (typeSuffix type).toList = Tree.typeChars type := by
  cases type <;> simp [typeSuffix, Tree.typeChars]

/-- The text of a form is that of the tree that it looks like. -/
theorem toList_source {form : Form} (hbare : form.bare = tree.shape)
    (hgroups : List.Forall₂ (List.Forall₂ (a.SameText text))
      (form.childGroups.map ChildGroup.children) tree.groups) :
    (form.source a.form? text).toList = tree.chars := by
  cases form <;> cases tree <;> cases hbare
  case compilationUnit.compilationUnit =>
    obtain _ | ⟨himports, _ | ⟨hdeclarations, -⟩⟩ := hgroups
    have hi := map_toList_eq himports
    have hd := map_toList_eq hdeclarations
    simp only [ChildGroup.children] at hi hd
    simp [Form.source, Tree.chars, ← hi, ← hd]
  case importPath.importPath path entries entries' =>
    obtain _ | ⟨hentries, -⟩ := hgroups
    have he := map_toList_eq hentries
    have hlength : entries.isEmpty = entries'.isEmpty := by
      have := hentries.length_eq
      cases entries <;> cases entries' <;> first | rfl | cases this
    simp only [ChildGroup.children] at he
    simp only [Form.source, Tree.chars, hlength]
    split <;> simp [Text.escapeString, ← he]
  case importEntry.importEntry name rename =>
    cases rename <;> simp [Form.source, Tree.chars]
  case block.block =>
    obtain _ | ⟨hstatements, -⟩ := hgroups
    have h := map_toList_eq hstatements
    simp only [ChildGroup.children] at h
    simp [Form.source, Tree.chars, toList_braced, ← h]
  case literal.literal => simp [Form.source, Tree.chars, Tree.literalChars]
  case stringTemplate.stringTemplate =>
    obtain _ | ⟨hparts, -⟩ := hgroups
    have h := toList_parts hparts
    simp only [ChildGroup.children] at h
    simp [Form.source, Tree.chars, h]
  case reference.reference => simp [Form.source, Tree.chars]
  case unary.unary =>
    obtain _ | ⟨hoperand, -⟩ := hgroups
    obtain ⟨operand, rfl, ho⟩ := exists_of_slot hoperand
    simp only [Form.source, Form.source.isNumberAt, ho.1.isNumber_eq, Tree.chars,
      Tree.signedChars]
    split <;> simp [Tree.grouped, Form.source.slot, ho.2]
  case binary.binary =>
    obtain _ | ⟨hleft, _ | ⟨hright, -⟩⟩ := hgroups
    obtain ⟨left, rfl, hl⟩ := exists_of_slot hleft
    obtain ⟨right, rfl, hr⟩ := exists_of_slot hright
    simp [Form.source, Tree.chars, Tree.grouped, toList_operand hl, Form.source.slot, hr.2]
  case assignment.assignment =>
    obtain _ | ⟨htarget, _ | ⟨hvalue, -⟩⟩ := hgroups
    obtain ⟨target, rfl, ht⟩ := exists_of_slot htarget
    obtain ⟨value, rfl, hv⟩ := exists_of_slot hvalue
    simp [Form.source, Tree.chars, Tree.grouped, toList_operand ht, Form.source.slot, hv.2]
  case memberAccess.memberAccess =>
    obtain _ | ⟨hreceiver, -⟩ := hgroups
    obtain ⟨receiver, rfl, hr⟩ := exists_of_slot hreceiver
    simp [Form.source, Tree.chars, toList_operand hr]
  case function.function name isInfix arguments type body scope arguments' body' =>
    obtain _ | ⟨harguments, _ | ⟨hbody, -⟩⟩ := hgroups
    have ha := map_toList_eq harguments
    obtain ⟨body, rfl, hb⟩ := exists_of_slot hbody
    simp only [ChildGroup.children] at ha
    simp only [Form.source, Tree.chars, Tree.bodyChars, hb.1.isBlock_eq]
    split <;> cases isInfix <;> simp [Tree.headChars, toList_parenthesized, toList_typeSuffix,
      Form.source.slot, hb.2, ← ha]
  case namedInvocation.namedInvocation =>
    obtain _ | ⟨harguments, -⟩ := hgroups
    have h := map_toList_eq harguments
    simp only [ChildGroup.children] at h
    simp [Form.source, Tree.chars, toList_parenthesized, ← h]
  case anonymousInvocation.anonymousInvocation =>
    obtain _ | ⟨htarget, _ | ⟨harguments, -⟩⟩ := hgroups
    obtain ⟨target, rfl, ht⟩ := exists_of_slot htarget
    have h := map_toList_eq harguments
    simp only [ChildGroup.children] at h
    simp [Form.source, Tree.chars, toList_operand ht, toList_parenthesized, ← h]
  case infixInvocation.infixInvocation =>
    obtain _ | ⟨hleft, _ | ⟨hright, -⟩⟩ := hgroups
    obtain ⟨left, rfl, hl⟩ := exists_of_slot hleft
    obtain ⟨right, rfl, hr⟩ := exists_of_slot hright
    simp [Form.source, Tree.chars, Tree.grouped, toList_operand hl, Form.source.slot, hr.2]
  case basicArgument.basicArgument => simp [Form.source, Tree.chars, toList_typeSuffix]
  case defaultArgument.defaultArgument =>
    obtain _ | ⟨hdefault, -⟩ := hgroups
    obtain ⟨default, rfl, hd⟩ := exists_of_slot hdefault
    simp [Form.source, Tree.chars, toList_typeSuffix, Form.source.slot, hd.2]
  case patternArgument.patternArgument =>
    obtain _ | ⟨hpattern, -⟩ := hgroups
    obtain ⟨pattern, rfl, hp⟩ := exists_of_slot hpattern
    simp [Form.source, Tree.chars, Form.source.slot, hp.2]
  case conditional.conditional condition thenBranch elseBranch condition' then' else' =>
    obtain _ | ⟨hcondition, _ | ⟨hthen, _ | ⟨helse, -⟩⟩⟩ := hgroups
    obtain ⟨condition, rfl, hc⟩ := exists_of_slot hcondition
    obtain ⟨thenBranch, rfl, ht⟩ := exists_of_slot hthen
    cases elseBranch <;> cases else' <;> try cases helse
    · simp [Form.source, Tree.chars, Tree.grouped, Form.source.slot, hc.2, ht.2]
    · rename_i he _
      simp [Form.source, Tree.chars, Tree.grouped, toList_operand ht, Form.source.slot, hc.2,
        he.2]
  case localVariable.localVariable name isMutable type initializer initializer' =>
    obtain _ | ⟨hinitializer, -⟩ := hgroups
    cases initializer <;> cases initializer' <;> try cases hinitializer
    · cases isMutable <;> simp [Form.source, Tree.chars, toList_typeSuffix]
    · rename_i hi _
      cases isMutable <;> simp [Form.source, Tree.chars, toList_typeSuffix, hi.2]
  case returnStatement.returnStatement value value' =>
    obtain _ | ⟨hvalue, -⟩ := hgroups
    cases value <;> cases value' <;> try cases hvalue
    · simp [Form.source, Tree.chars]
    · rename_i hv _
      simp [Form.source, Tree.chars, hv.2]
  case expressionStatement.expressionStatement =>
    obtain _ | ⟨hexpression, -⟩ := hgroups
    obtain ⟨expression, rfl, he⟩ := exists_of_slot hexpression
    simp [Form.source, Tree.chars, Form.source.slot, he.2]

/-- The text of a node down to a sufficient depth is that of its tree. -/
theorem Denotes.toList_renderWithin {n : Nat} (h : a.Denotes id tree) (hn : id.index < n) :
    (a.renderWithin n id).toList = tree.chars := by
  induction n generalizing id tree with
  | zero => exact absurd hn (Nat.not_lt_zero _)
  | succ n ih =>
    obtain ⟨hform, hbare, holder, hgroups⟩ := h
    rw [renderWithin, hform, Option.elim_some]
    refine toList_source hbare (forall₂_imp_of_mem hgroups fun group hmem trees _ hgroup =>
      forall₂_imp_of_mem hgroup fun child hchild childTree _ hdenotes => ⟨hdenotes, ih hdenotes ?_⟩)
    have hlt := holder child (by
      rw [Form.children_eq_flatten]
      exact List.mem_flatten.2 ⟨group, hmem, hchild⟩)
    omega

/-- The text of a node is that of its tree. -/
theorem Denotes.toList_render (h : a.Denotes id tree) : (a.render id).toList = tree.chars :=
  h.toList_renderWithin (Nat.lt_succ_of_lt h.index_lt)

end Arena

end ExprLang
