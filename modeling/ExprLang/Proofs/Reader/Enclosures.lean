import ExprLang.Proofs.Reader.Rules
import ExprLang.Proofs.Token.Nesting

/-!
# What is open while rules read

A rule for what a bracket encloses stays inside the bracket: it stops before the
token that closes it, also where it skips words after an error.  So whatever holds
on inside brackets while words are passed over one by one holds wherever a rule
below declarations gets.

Main definitions:

- Definition {lit}`Enclosure`: a property of places inside brackets.
- Definition {lit}`Reader.Moves`: a reader moves forward, and what is open then.
- Definition {lit}`Reader.Stays`: a reader moves forward and stays inside brackets.

Main results:

- Theorem {lit}`Reader.Stays.bind`: two readers in sequence.
- Theorem {lit}`Reader.Moves.loop`: repetition.
- Theorem {lit}`Reader.stays_expect`: passing over a word that opens and closes
  nothing.
-/

namespace ExprLang

/-! ## Properties of places -/

/-- Whether a token can be passed over without leaving anything: it begins no declaration, and if
it closes something, something else is innermost of what is given as open. -/
def TokenKind.PassesIn (kind : TokenKind) (nest : Nest) : Prop :=
  kind.isDeclaration = false ∧
    ∀ bracket, kind.closes? = some bracket → ∃ innermost ∈ nest.head?, innermost ≠ bracket

/-- A token that can be passed over does not close what is innermost. -/
theorem TokenKind.PassesIn.head?_ne {kind : TokenKind} {nest : Nest} {bracket : Bracket}
    (h : kind.PassesIn nest) (hc : kind.closes? = some bracket) : nest.head? ≠ some bracket := by
  obtain ⟨innermost, hhead, hne⟩ := h.2 bracket hc
  rw [Option.mem_def.1 hhead]
  simpa using hne

/-- Whether a token can be passed over in every place. -/
def TokenKind.isNeutral (kind : TokenKind) : Bool :=
  kind.isPlain && !kind.isDeclaration

/-- A neutral token can be passed over. -/
theorem TokenKind.passesIn_of_isNeutral {kind : TokenKind} (h : kind.isNeutral = true)
    (nest : Nest) : kind.PassesIn nest := by
  obtain ⟨hplain, hdeclaration⟩ := Bool.and_eq_true_iff.1 h
  refine ⟨by simpa using hdeclaration, ?_⟩
  intro bracket hc
  rw [closes?_of_isPlain hplain] at hc
  cases hc

/-- Where the parse of a block goes on after an error. -/
def statementStop : Expectation := .either (.category [.statementStart]) (.kind .rightBrace)

/-- Where the parse of a string goes on after an error in a placeholder. -/
def partStop : Expectation := .category [.stringPartEnd]

/-- A property of the words to come inside brackets that holds on where words are passed over,
where brackets are opened and closed, and where words are skipped after errors. -/
class Enclosure (P : Nest → List Word → Prop) : Prop where
  inner {nest outer : Nest} {ws : List Word} (h : P nest ws) (ho : outer <:+ nest) : P outer ws
  pass {nest : Nest} {w : Word} {ws : List Word} (h : P nest (w :: ws))
    (hw : w.kind.PassesIn nest) : P nest ws
  opened {nest : Nest} {w : Word} {ws : List Word} {bracket : Bracket} (h : P nest (w :: ws))
    (hw : w.kind.opens? = some bracket) : P (bracket :: nest) ws
  closed {nest : Nest} {w : Word} {ws : List Word} {bracket : Bracket}
    (h : P (bracket :: nest) (w :: ws)) (hw : w.kind.closes? = some bracket) : P nest ws
  skip_statement {nest : Nest} {ws : List Word} (h : P (.brace :: nest) ws) (mayStop : Bool)
    (hw : mayStop = false → ∀ w ∈ ws.head?, w.kind ≠ .rightBrace) (afterBrace : Bool) :
    P (.brace :: nest) (Spot.skipWords statementStop mayStop 0 ws afterBrace).words
  skip_part {nest : Nest} {ws : List Word} (h : P (.placeholder :: .string :: nest) ws)
    (mayStop afterBrace : Bool) :
    P (.string :: nest) (Spot.skipWords partStop mayStop 0 ws afterBrace).words

/-- Skipping moves forward. -/
theorem Spot.words_skipWords_suffix (stop : Expectation) (mayStop : Bool) (depth : Nat)
    (ws : List Word) (afterBrace : Bool) :
    (skipWords stop mayStop depth ws afterBrace).words <:+ ws := by
  induction ws generalizing mayStop depth afterBrace with
  | nil => exact List.suffix_rfl
  | cons w ws ih =>
    have hnext (depth : Nat) (afterBrace : Bool) :
        (skipWords stop true depth ws afterBrace).words <:+ w :: ws :=
      (ih ..).trans (List.suffix_cons ..)
    rw [skipWords]
    split
    · exact List.suffix_rfl
    · dsimp only
      split
      · split
        · exact List.suffix_cons ..
        · exact hnext ..
      all_goals exact hnext ..

namespace Reader

/-- A reader moves forward from a place to one inside brackets: those for the value that it ends
in, or those for none where it stops. -/
def MovesAt (P : Nest → List Word → Prop) (r : Reader α) (after : Option α → Nest) (p : Spot) :
    Prop :=
  (r p).rest.words <:+ p.words ∧ P (after (r p).value) (r p).rest.words

/-- A reader moves forward from every place inside some brackets to one inside others. -/
def Moves (P : Nest → List Word → Prop) (nest : Nest) (r : Reader α) (after : Option α → Nest) :
    Prop :=
  ∀ p, P nest p.words → MovesAt P r after p

/-- A reader moves forward and stays inside whatever brackets there are. -/
def Stays (P : Nest → List Word → Prop) (r : Reader α) : Prop :=
  ∀ nest, Moves P nest r fun _ => nest

variable {α β : Type} {P : Nest → List Word → Prop} {nest : Nest} {p : Spot} {r : Reader α}
  {f : α → Reader β} {before : Option α → Nest} {after : Option β → Nest} {kind : TokenKind}
  {bracket : Bracket}

/-! ## Sequences -/

/-- Two readers in sequence. -/
theorem MovesAt.bind [hP : Enclosure P] (hr : MovesAt P r before p)
    (hf : ∀ a, Moves P (before (some a)) (f a) after) (hnone : after none <:+ before none) :
    MovesAt P (r >>= f) after p := by
  obtain ⟨hsuffix, hplace⟩ := hr
  rcases hr : r p with ⟨_ | a, clean, q⟩
  · rw [hr] at hsuffix hplace
    rw [MovesAt, bind_apply_of_none hr]
    exact ⟨hsuffix, hP.inner hplace hnone⟩
  · rw [hr] at hsuffix hplace
    obtain ⟨hsuffix', hplace'⟩ := hf a q hplace
    rw [MovesAt, bind_apply_of_some hr]
    exact ⟨hsuffix'.trans hsuffix, hplace'⟩

/-- Two readers in sequence. -/
theorem Moves.bind [Enclosure P] (hr : Moves P nest r before)
    (hf : ∀ a, Moves P (before (some a)) (f a) after) (hnone : after none <:+ before none) :
    Moves P nest (r >>= f) after :=
  fun p hp => (hr p hp).bind hf hnone

/-- Two readers in sequence. -/
theorem Stays.bind [Enclosure P] (hr : Stays P r) (hf : ∀ a, Stays P (f a)) :
    Stays P (r >>= f) :=
  fun nest => (hr nest).bind (fun a => hf a nest) List.suffix_rfl

/-- Where the second of two readers stays. -/
theorem Moves.bind_stays [Enclosure P] {outer : Nest} (hr : Moves P nest r fun _ => outer)
    (hf : ∀ a, Stays P (f a)) : Moves P nest (r >>= f) fun _ => outer :=
  hr.bind (fun a => hf a outer) List.suffix_rfl

/-- Where the second of two readers stays. -/
theorem MovesAt.bind_stays [Enclosure P] (hr : MovesAt P r (fun _ => nest) p)
    (hf : ∀ a, Stays P (f a)) : MovesAt P (r >>= f) (fun _ => nest) p :=
  hr.bind (fun a => hf a nest) List.suffix_rfl

/-- A look at the words comes first. -/
theorem MovesAt.bind_look {a : α} (hr : r p = ⟨some a, true, p⟩)
    (hf : MovesAt P (f a) after p) : MovesAt P (r >>= f) after p := by
  rw [MovesAt, bind_apply_of_some hr]
  exact hf

/-- A look at the next word comes first. -/
theorem MovesAt.bind_peek {f : Word → Reader β} (hf : MovesAt P (f p.peek) after p) :
    MovesAt P (peek >>= f) after p :=
  .bind_look rfl hf

/-- A reader that goes nowhere stays. -/
theorem stays_of_rest (h : ∀ p, (r p).rest = p) : Stays P r := by
  intro nest p hp
  rw [MovesAt, h p]
  exact ⟨List.suffix_rfl, hp⟩

/-- Ending in a value. -/
theorem moves_pure {b : β} (h : after (some b) = nest) : Moves P nest (pure b) after :=
  fun _ hp => ⟨List.suffix_rfl, h.symm ▸ hp⟩

theorem stays_pure (a : α) : Stays P (pure a) := stays_of_rest fun _ => rfl

theorem stays_fail : Stays P (fail : Reader α) := stays_of_rest fun _ => rfl

theorem stays_require (holds : Bool) : Stays P (require holds) := stays_of_rest fun _ => rfl

theorem stays_lookAhead (n : Nat) : Stays P (lookAhead n) := stays_of_rest fun _ => rfl

theorem stays_peek : Stays P peek := stays_lookAhead 0

theorem stays_check (e : Expectation) : Stays P (check e) := stays_of_rest fun _ => rfl

theorem stays_bound : Stays P bound := stays_of_rest fun _ => rfl

theorem stays_afterBrace : Stays P afterBrace := stays_of_rest fun _ => rfl

theorem Stays.ite {c : Prop} [Decidable c] {r r' : Reader α} (h : Stays P r) (h' : Stays P r') :
    Stays P (if c then r else r') := by
  split
  · exact h
  · exact h'

theorem Stays.map [Enclosure P] (f : α → β) (h : Stays P r) : Stays P (f <$> r) :=
  Stays.bind h fun a => stays_pure (f a)

/-- What is open after one step of a repetition inside some brackets. -/
def stepNest (nest : Nest) (after : Option β → Nest) : Option (α ⊕ β) → Nest
  | some (.inl _) => nest
  | some (.inr b) => after (some b)
  | none => after none

@[simp] theorem stepNest_const (nest : Nest) :
    (stepNest nest fun _ => nest : Option (α ⊕ β) → Nest) = fun _ => nest := by
  funext x
  rcases x with _ | a | b <;> rfl

/-- Repetition inside some brackets. -/
theorem Moves.loop [hP : Enclosure P] {step : α → Reader (α ⊕ β)}
    (h : ∀ a, Moves P nest (step a) (stepNest nest after)) (hnone : after none <:+ nest) (n : Nat)
    (a : α) : Moves P nest (loop step n a) after := by
  induction n generalizing a with
  | zero => exact fun p hp => ⟨List.suffix_rfl, hP.inner hp hnone⟩
  | succ n ih =>
    refine (h a).bind (fun x => ?_) List.suffix_rfl
    cases x with
    | inl a => exact ih a
    | inr b => exact moves_pure rfl

/-- Repetition. -/
theorem Stays.loop [Enclosure P] {step : α → Reader (α ⊕ β)} (h : ∀ a, Stays P (step a)) (n : Nat)
    (a : α) : Stays P (loop step n a) := by
  intro nest
  have hstep (a : α) : Moves P nest (step a) (stepNest nest fun _ => nest) := by
    rw [stepNest_const]
    exact h a nest
  exact Moves.loop hstep List.suffix_rfl n a

/-! ## Words -/

/-- Where there are words, the next one comes first. -/
theorem words_eq_cons (h : p.peek.kind ≠ .endOfFile) : p.words = p.peek :: p.advance.words := by
  obtain ⟨_ | ⟨w, ws⟩, flag⟩ := p
  · exact absurd rfl h
  · rfl

section

variable [hP : Enclosure P]

/-- Passing over a word. -/
theorem moves_advance (hp : P nest p.words) (hk : p.peek.kind.PassesIn nest) :
    MovesAt P advance (fun _ => nest) p := by
  obtain ⟨_ | ⟨w, ws⟩, flag⟩ := p
  · exact ⟨List.suffix_rfl, hp⟩
  · exact ⟨List.suffix_cons .., hP.pass hp hk⟩

/-- Passing over a word that opens a bracket. -/
theorem moves_advance_opened (hp : P nest p.words) (hk : p.peek.kind.opens? = some bracket) :
    MovesAt P advance (fun _ => bracket :: nest) p := by
  obtain ⟨_ | ⟨w, ws⟩, flag⟩ := p
  · cases hk
  · exact ⟨List.suffix_cons .., hP.opened hp hk⟩

/-- Passing over a word that closes a bracket. -/
theorem moves_advance_closed (hp : P (bracket :: nest) p.words)
    (hk : p.peek.kind.closes? = some bracket) : MovesAt P advance (fun _ => nest) p := by
  obtain ⟨_ | ⟨w, ws⟩, flag⟩ := p
  · cases hk
  · exact ⟨List.suffix_cons .., hP.closed hp hk⟩

omit hP in
/-- The next word is passed over first. -/
theorem MovesAt.bind_advance {f : Word → Reader β} {outer : Nest}
    (hr : MovesAt P advance (fun _ => outer) p) (hf : Moves P outer (f p.peek) after) :
    MovesAt P (advance >>= f) after p := by
  obtain ⟨hsuffix, hplace⟩ := hr
  obtain ⟨hsuffix', hplace'⟩ := hf p.advance hplace
  have hadvance : advance p = ⟨some p.peek, true, p.advance⟩ := rfl
  rw [MovesAt, bind_apply_of_some hadvance]
  exact ⟨hsuffix'.trans hsuffix, hplace'⟩

/-- Passing over a word if it fits. -/
theorem moves_accept? {e : Expectation} (h : ∀ kind, e.accepts kind = true → kind.PassesIn nest) :
    Moves P nest (accept? e) fun _ => nest := by
  intro p hp
  refine .bind_look (a := e.accepts p.peek.kind) rfl ?_
  split
  · rename_i hk
    exact (moves_advance hp (h _ hk)).bind_stays fun w => stays_pure (some w)
  · exact stays_pure none nest p hp

/-- Passing over a word of some kind if there is one. -/
theorem moves_skipKind (h : kind.PassesIn nest) : Moves P nest (skipKind kind) fun _ => nest := by
  refine Moves.bind_stays (moves_accept? fun k hk => ?_) fun w => stays_pure w.isSome
  rwa [← eq_of_beq hk]

/-- Passing over a neutral word if there is one. -/
theorem stays_skipKind (h : kind.isNeutral = true) : Stays P (skipKind kind) :=
  fun nest => moves_skipKind (kind.passesIn_of_isNeutral h nest)

/-- Passing over a word that fits. -/
theorem stays_expect {e : Expectation} (h : ∀ kind, e.accepts kind = true → kind.isNeutral = true) :
    Stays P (expect e) := by
  intro nest p hp
  refine .bind_look (a := e.accepts p.peek.kind) rfl ?_
  split
  · rename_i hk
    exact moves_advance hp (TokenKind.passesIn_of_isNeutral (h _ hk) nest)
  · exact stays_fail nest p hp

/-- Passing over a neutral word. -/
theorem stays_expectKind (h : kind.isNeutral = true) : Stays P (expectKind kind) :=
  stays_expect fun k hk => by rwa [← eq_of_beq hk]

/-- Passing over a word that closes a bracket. -/
theorem moves_expectKind_closed (h : kind.closes? = some bracket) :
    Moves P (bracket :: nest) (expectKind kind) fun _ => nest := by
  intro p hp
  refine .bind_look (a := kind == p.peek.kind) rfl ?_
  split
  · rename_i hk
    refine moves_advance_closed hp ?_
    rwa [← eq_of_beq hk]
  · exact ⟨List.suffix_rfl, hP.inner hp (List.suffix_cons ..)⟩

/-- Passing over a name. -/
theorem stays_name : Stays P name := by
  refine stays_expect fun kind hk => ?_
  cases kind <;> first | rfl | cases hk

/-- Passing over a word that opens a bracket. -/
theorem moves_expectKind_opened (h : kind.opens? = some bracket) :
    Moves P nest (expectKind kind) fun w => w.elim nest fun _ => bracket :: nest := by
  intro p hp
  refine .bind_look (a := kind == p.peek.kind) rfl ?_
  split
  · rename_i hk
    exact moves_advance_opened hp (by rwa [← eq_of_beq hk])
  · exact ⟨List.suffix_rfl, hp⟩

/-- Passing over a word that opens a bracket if there is one. -/
theorem moves_accept?_opened (h : kind.opens? = some bracket) :
    Moves P nest (accept? (.kind kind)) fun w => w.join.elim nest fun _ => bracket :: nest := by
  intro p hp
  refine .bind_look (a := kind == p.peek.kind) rfl ?_
  split
  · rename_i hk
    refine (moves_advance_opened hp ?_).bind_advance (moves_pure rfl)
    rwa [← eq_of_beq hk]
  · exact ⟨List.suffix_rfl, hp⟩

end

end Reader

end ExprLang
