import ExprLang.Token.Kind

/-!
# What tokens open and close

Braces, strings and placeholders are opened by tokens of one kind and closed by
tokens of another.  What is open after some tokens is a stack; of the closing
tokens only a brace may come where nothing is open.

Main definitions:

- Definition {lit}`Nest.run?`: what is open after some tokens.
- Definition {lit}`openBraces`: how many braces are open, by counting.

Main results:

- Theorem {lit}`Nest.sublist_of_next?`: what a token does not close stays open.
- Theorem {lit}`Nest.count_brace_of_run?`: counting gives the number of open braces.
-/

namespace ExprLang

/-- What one token opens and another one closes. -/
inductive Bracket where
  | brace | string | placeholder
deriving DecidableEq, Repr

namespace TokenKind

/-- What a token opens, if anything. -/
def opens? : TokenKind → Option Bracket
  | leftBrace => some .brace
  | stringStart => some .string
  | templateStart => some .placeholder
  | _ => none

/-- What a token closes, if anything. -/
def closes? : TokenKind → Option Bracket
  | rightBrace => some .brace
  | stringEnd => some .string
  | templateEnd => some .placeholder
  | _ => none

/-- Whether a token neither opens nor closes anything. -/
def isPlain (kind : TokenKind) : Bool :=
  kind.opens?.isNone && kind.closes?.isNone

/-- Whether a token begins a declaration in every place. -/
def isDeclaration (kind : TokenKind) : Bool :=
  kind == .wordFun || kind == .wordImport

theorem opens?_of_isPlain {kind : TokenKind} (h : kind.isPlain = true) : kind.opens? = none :=
  Option.isNone_iff_eq_none.1 (Bool.and_eq_true_iff.1 h).1

theorem closes?_of_isPlain {kind : TokenKind} (h : kind.isPlain = true) : kind.closes? = none :=
  Option.isNone_iff_eq_none.1 (Bool.and_eq_true_iff.1 h).2

/-- A token that closes something opens nothing. -/
theorem opens?_of_closes? {kind : TokenKind} {bracket : Bracket}
    (h : kind.closes? = some bracket) : kind.opens? = none := by
  cases kind <;> first | rfl | cases h

end TokenKind

/-! ## What is open -/

/-- What is open, the innermost first. -/
abbrev Nest := List Bracket

namespace Nest

variable {nest after inner : Nest} {kind : TokenKind} {bracket : Bracket}

/-- Closes the innermost bracket, which has to be the given one.  A brace may be closed where
nothing is open, which changes nothing. -/
def close? (bracket : Bracket) : Nest → Option Nest
  | [] => if bracket = .brace then some [] else none
  | innermost :: nest => if innermost = bracket then some nest else none

/-- What is open after one more token. -/
def next? (nest : Nest) (kind : TokenKind) : Option Nest :=
  match kind.opens?, kind.closes? with
  | some bracket, _ => some (bracket :: nest)
  | none, some bracket => nest.close? bracket
  | none, none => some nest

/-- What is open after some more tokens. -/
def run? (nest : Nest) (kinds : List TokenKind) : Option Nest :=
  kinds.foldlM next? nest

theorem next?_of_opens? (h : kind.opens? = some bracket) :
    nest.next? kind = some (bracket :: nest) := by
  simp [next?, h]

theorem next?_of_closes? (h : kind.closes? = some bracket) :
    nest.next? kind = nest.close? bracket := by
  simp [next?, h, TokenKind.opens?_of_closes? h]

theorem next?_of_isPlain (h : kind.isPlain = true) : nest.next? kind = some nest := by
  simp [next?, TokenKind.opens?_of_isPlain h, TokenKind.closes?_of_isPlain h]

@[simp] theorem run?_nil (nest : Nest) : nest.run? [] = some nest := rfl

theorem run?_cons (nest : Nest) (kind : TokenKind) (kinds : List TokenKind) :
    nest.run? (kind :: kinds) = (nest.next? kind).bind (run? · kinds) := rfl

theorem run?_concat (nest : Nest) (kinds : List TokenKind) (kind : TokenKind) :
    nest.run? (kinds ++ [kind]) = (nest.run? kinds).bind (next? · kind) := by
  simp [run?]

/-! ## What stays open -/

/-- What a token does not close stays open. -/
theorem sublist_of_next? (h : nest.next? kind = some after) (hs : inner.Sublist nest)
    (hc : ∀ bracket, kind.closes? = some bracket → inner.head? ≠ some bracket) :
    inner.Sublist after := by
  cases ho : kind.opens? with
  | some bracket =>
    rw [next?_of_opens? ho] at h
    cases h
    exact hs.cons bracket
  | none =>
    cases hk : kind.closes? with
    | none =>
      rw [next?, ho, hk] at h
      cases h
      exact hs
    | some bracket =>
      rw [next?_of_closes? hk] at h
      have hne := hc bracket hk
      cases hs with
      | slnil =>
        rw [close?] at h
        split at h <;> cases h
        exact .slnil
      | cons innermost hs =>
        rw [close?] at h
        split at h <;> cases h
        exact hs
      | cons_cons innermost hs =>
        rw [close?] at h
        split at h <;> cases h
        rename_i heq
        exact absurd (congrArg some heq) hne

/-- What is around a bracket stays open where a token closes the bracket. -/
theorem sublist_of_close (h : nest.next? kind = some after) (hk : kind.closes? = some bracket)
    (hs : (bracket :: inner).Sublist nest) : inner.Sublist after := by
  rw [next?_of_closes? hk] at h
  cases hs with
  | cons innermost hs =>
    rw [close?] at h
    split at h <;> cases h
    exact (List.sublist_cons_self ..).trans hs
  | cons_cons innermost hs =>
    rw [close?, if_pos rfl] at h
    cases h
    exact hs

end Nest

/-! ## Counting braces -/

/-- The number of open braces after one more token; a closing brace where none is open is
ignored. -/
def braceStep (n : Nat) : TokenKind → Nat
  | .leftBrace => n + 1
  | .rightBrace => n - 1
  | _ => n

/-- How many braces are open after some tokens: each closing brace closes the last of them that
is open, and is ignored where none is. -/
def openBraces (kinds : List TokenKind) : Nat :=
  kinds.foldl braceStep 0

namespace Nest

variable {nest after : Nest} {kind : TokenKind}

/-- A token changes the number of open braces as counting says. -/
theorem count_brace_of_next? (h : nest.next? kind = some after) :
    after.count .brace = braceStep (nest.count .brace) kind := by
  cases ho : kind.opens? with
  | some bracket =>
    rw [next?_of_opens? ho] at h
    cases h
    cases kind <;> cases ho <;> simp [braceStep]
  | none =>
    cases hk : kind.closes? with
    | none =>
      rw [next?, ho, hk] at h
      cases h
      cases kind <;> first | rfl | (cases ho; done) | cases hk
    | some bracket =>
      rw [next?_of_closes? hk] at h
      cases nest with
      | nil =>
        rw [close?] at h
        split at h <;> cases h
        cases kind <;> first | rfl | cases hk
      | cons innermost nest =>
        rw [close?] at h
        split at h <;> cases h
        rename_i heq
        subst heq
        cases kind <;> cases hk <;> simp [braceStep]

/-- Counting on from the open braces gives the number of those that are open then. -/
theorem count_brace_of_run? {kinds : List TokenKind} (h : nest.run? kinds = some after) :
    after.count .brace = kinds.foldl braceStep (nest.count .brace) := by
  induction kinds generalizing nest with
  | nil =>
    cases h
    rfl
  | cons kind kinds ih =>
    rw [run?_cons] at h
    obtain ⟨middle, hnext, hrest⟩ := Option.bind_eq_some_iff.1 h
    rw [List.foldl_cons, ← count_brace_of_next? hnext]
    exact ih hrest

end Nest

end ExprLang
