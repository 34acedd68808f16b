import ExprLang.Text.Spacing
import ExprLang.Tree.Walk

/-!
# Listings of trees

A listing shows a tree with one line for each node, indented by depth: what the
node is, where it came from, its type, and the names bound in its scope.

Main definitions:

- Definition {lit}`Arena.label`: the line of one node.
- Definition {lit}`Arena.dump`: the listing of a tree.
-/

namespace ExprLang

/-- What a listing says about a form besides its name, after a space. -/
def Form.detail : Form → String
  | .importPath path _ => s!" {Text.quote path}"
  | .importEntry name none => s!" {name}"
  | .importEntry name (some rename) => s!" {name} as {rename}"
  | .literal value => s!" {value}"
  | .reference name => s!" {name}"
  | .namedInvocation name _ => s!" {name}"
  | .infixInvocation _ name _ => s!" {name}"
  | .basicArgument name _ => s!" {name}"
  | .defaultArgument name _ _ => s!" {name}"
  | .unary operator _ => s!" {operator.symbol}"
  | .binary _ operator _ => s!" {operator.symbol}"
  | .assignment _ operator _ => s!" {operator.symbol}"
  | .memberAccess _ member => s!" .{member}"
  | .function name isInfix _ _ _ _ => if isInfix then s!" infix {name}" else s!" {name}"
  | .localVariable name isMutable _ _ => if isMutable then s!" var {name}" else s!" val {name}"
  | _ => ""

namespace Arena

/-- The names bound in the scope that a form opens, in brackets, if there are any. -/
def scopeNote (a : Arena) (form : Form) : Except Fault String :=
  match form.scope? with
  | none => pure ""
  | some id => do
    let scope ← a.scopes.get id
    if scope.isEmpty then pure ""
    else pure (" [" ++ String.intercalate ", " scope.names ++ "]")

/-- The line of a node in a listing, without its indentation. -/
def label (a : Arena) (id : NodeId) : Except Fault String := do
  let node ← a.node id
  let position := node.position.elim "" fun span => s!" @{span}"
  let type := node.resolvedType.elim "" fun type => s!" : {type}"
  let names ← a.scopeNote node.form
  pure (node.form.name ++ node.form.detail ++ position ++ type ++ names)

/-- The listing of the tree at a node. -/
def dump (a : Arena) (id : NodeId) : Except Fault String := do
  let lines ← (a.walk id).mapM fun (node, depth) => do
    pure (Text.repeated (2 * depth) ' ' ++ (← a.label node))
  pure (String.intercalate "\n" lines)

end Arena

end ExprLang
