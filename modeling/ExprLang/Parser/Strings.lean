import ExprLang.Parser.Precedence
import ExprLang.Parser.Recovery

/-!
# Parsing strings

A string is a literal, or a template if it has placeholders.  Each placeholder
is a synchronization point, so an error in one costs only that placeholder.  The
rules here are given the rule for expressions.

Main definitions:

- Definition {lit}`Parser.stringRule`: a string after its opening quote.
-/

namespace ExprLang

/-- The rule for expressions that bind more strongly than some precedence. -/
abbrev ExpressionRule := Precedence → Parser NodeId

/-- Text between the placeholders of a string, and where it came from. -/
structure Chunk where
  text : List Char
  span : Option Span
deriving DecidableEq, Repr, Inhabited

namespace Chunk

/-- No text. -/
def empty : Chunk := ⟨[], none⟩

/-- Adds text. -/
def push (c : Chunk) (text : List Char) (span : Span) : Chunk :=
  ⟨c.text ++ text, some (c.span.elim span (·.through span))⟩

end Chunk

/-- A string under way. -/
structure StringBody where
  /-- The parts before the present chunk. -/
  parts : List NodeId
  chunk : Chunk
  /-- Whether there was a placeholder. -/
  interpolated : Bool
deriving DecidableEq, Repr, Inhabited

/-- The start of a string. -/
def StringBody.empty : StringBody := ⟨[], .empty, false⟩

namespace Parser

/-- Ends the present chunk, which becomes a part if it has come from anywhere. -/
def flush (body : StringBody) : Parser StringBody := do
  match body.chunk.span with
  | none => return { body with chunk := .empty }
  | some span =>
    let part ← make (.literal (.string (String.ofList body.chunk.text))) span
    return { body with parts := body.parts ++ [part], chunk := .empty }

/-- A placeholder after its opening brace. -/
def placeholder (expression : ExpressionRule) (body : StringBody) : Parser StringBody := do
  let body ← flush { body with interpolated := true }
  let part ← synchronized (.category [.stringPartEnd]) (expression .lowest)
  let body := { body with parts := body.parts ++ part.toList }
  if ← skipKind .templateEnd then return body
  if ← checkKind .stringEnd then return body
  fail (← unexpected "`\x7d`")

/-- One token of a string that began with `start`: the string goes on or ends. -/
def stringStep (expression : ExpressionRule) (start : Token) (body : StringBody) :
    Parser (StringBody ⊕ StringBody) := do
  let token ← advance
  match token.kind with
  | .stringContent =>
    return .inl { body with chunk := body.chunk.push token.text.toList token.span }
  | .stringEscape =>
    match Text.unescape? token.text.toList with
    | some c => return .inl { body with chunk := body.chunk.push [c] token.span }
    | none =>
      record (← errorAt .grammar token.span (.badEscape token.text))
      return .inl body
  | .templateStart => return .inl (← placeholder expression body)
  | .stringEnd => return .inr body
  | .unexpectedCharacter =>
    record (← errorAt .grammar token.span (.badCharacter token.text))
    return .inl body
  | _ =>
    giveBack
    failAt start.span .openString

/-- A string after its opening quote `start`. -/
def stringRule (expression : ExpressionRule) (start : Token) : Parser NodeId := do
  let body ← loop (stringStep expression start) (← bound) .empty
  let span ← spanFrom start.span
  if body.interpolated then
    let body ← flush body
    make (.stringTemplate body.parts) span
  else make (.literal (.string (String.ofList body.chunk.text))) span

end Parser

end ExprLang
