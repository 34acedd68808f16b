import ExprLang.Parser.Expression

/-!
# Parsing imports

An import names a path, possibly with the names to import in braces, each
possibly with another name to give it.

Main definitions:

- Definition {lit}`Parser.importRule`: an import.
-/

namespace ExprLang.Parser

/-- The other name that an imported name is given, if any. -/
def optionalRename (imported : Token) : Parser (Option String) := do
  if ← skipKind .wordAs then
    let rename ← name
    if rename.text = imported.text then
      warnAt (imported.span.through rename.span) (.redundantRename imported.text rename.text)
    return some rename.text
  else return none

/-- An imported name. -/
def importEntry : Parser NodeId := do
  let imported ← name
  let rename ← optionalRename imported
  make (.importEntry imported.text rename) (← spanFrom imported.span)

/-- One more imported name, or the end of the names. -/
def importStep (entries : List NodeId) : Parser (List NodeId ⊕ List NodeId) := do
  if ← checkKind .rightBrace then return .inr entries
  let entries := entries ++ [← importEntry]
  if ← skipKind .comma then return .inl entries else return .inr entries

/-- The imported names in braces, if there are braces. -/
def importEntries : Parser (List NodeId) := do
  match ← accept? (.kind .leftBrace) with
  | none => return []
  | some start =>
    let entries ← loop importStep (← bound) []
    let finish ← expectKind .rightBrace
    if entries.isEmpty then warnAt (start.span.through finish.span) .emptyImport
    return entries

/-- The path of an import, which is a string without placeholders. -/
def importPath (expression : ExpressionRule) : Parser String := do
  let quote ← expectKind .stringStart
  let node ← stringRule expression quote
  match ← formOf node with
  | .literal (.string path) => return path
  | _ => failAt (← spanOf node) .pathWithPlaceholder

/-- An import. -/
def importRule (expression : ExpressionRule) : Parser NodeId := do
  let start ← expectKind .wordImport
  let path ← importPath expression
  let entries ← importEntries
  let _ ← skipKind .semicolon
  make (.importPath path entries) (← spanFrom start.span)

end ExprLang.Parser
