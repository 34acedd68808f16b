import ExprLang.Proofs.Parser.Options
import ExprLang.Proofs.Parser.Rules
import ExprLang.Proofs.Token.Stream

/-!
# How many errors a parse reports

Synchronization points give up once enough errors are recorded.  Two sorts of errors
are recorded without a look at the number of errors or at the switch for recovery: those
about pieces of a string that stand for no character, and those about the meaning of a
text that follows the grammar.  All others but the last are recorded by synchronization
points that go on, and these are no more than the options allow.

Main definitions:

- Definition {lit}`Diagnostic.OfStringPiece`: the error of a piece of a string.
- Definition {lit}`Diagnostic.Unlimited`: an error that is recorded in any number.
- Definition {lit}`ParseOptions.allowance?`: the number of errors with which a parse may
  go on.
- Definition {lit}`Parser.UnderWay` and {lit}`Parser.Stands`: what is recorded while a parse
  goes on, and once it has given up.

Main results:

- Theorem {lit}`Parser.closed_restrained`: every rule keeps to the allowance.
- Theorem {lit}`parseText_errors_limited`: a parse with a limit.
- Theorem {lit}`parseText_errors_without_recovery`: a parse without recovery.
-/

namespace ExprLang

/-! ## Errors that are not limited -/

/-- Whether some tokens, the last first, lead into the text of a string: its opening quote, its text
or the end of one of its placeholders comes last, or a character outside the language in such a
place. -/
def Token.leadIntoString : List Token → Bool
  | [] => false
  | token :: before =>
    match token.kind with
    | .stringStart | .stringContent | .stringEscape | .templateEnd => true
    | .unexpectedCharacter => leadIntoString before
    | _ => false

namespace Diagnostic

/-- The error of a piece of a string: an escape that stands for no character, or a character
outside the language. -/
def OfStringPiece (tokens : List Token) (d : Diagnostic) : Prop :=
  ∃ before token after, tokens = before ++ token :: after ∧
    Token.leadIntoString before.reverse = true ∧ d.topic = .grammar ∧ d.span = token.span ∧
    (token.kind = .stringEscape ∧ Text.unescape? token.text.toList = none ∧
        d.message = (Complaint.badEscape token.text).message ∨
      token.kind = .unexpectedCharacter ∧ d.message = (Complaint.badCharacter token.text).message)

/-- There is no such error where no token is of one of the two kinds. -/
theorem not_ofStringPiece {tokens : List Token} (d : Diagnostic)
    (h : ∀ token ∈ tokens, token.kind ≠ .stringEscape ∧ token.kind ≠ .unexpectedCharacter) :
    ¬ d.OfStringPiece tokens := by
  rintro ⟨before, token, after, rfl, -, -, -, ⟨hkind, -⟩ | ⟨hkind, -⟩⟩
  · exact (h token (by simp)).1 hkind
  · exact (h token (by simp)).2 hkind

/-- An error that is recorded however many there are. -/
def Unlimited (tokens : List Token) (d : Diagnostic) : Prop :=
  d.topic = .semantic ∨ d.OfStringPiece tokens

end Diagnostic

/-- With how many errors a parse may go on, unless there is no limit. -/
def ParseOptions.allowance? (o : ParseOptions) : Option Nat :=
  if o.recover then o.maxErrors.map (max · 1 - 1) else some 0

/-! ## Recording -/

namespace Parser

/-- An error is recorded behind the others, or was just recorded. -/
theorem errors_recordIn (r : Report) {d : Diagnostic} (hd : d.isError = true) :
    (recordIn r d).errors = r.errors ++ [d] ∨ recordIn r d = r := by
  unfold recordIn
  split
  · split
    · exact .inr rfl
    · exact .inl (by simp [hd])
  · exact .inl (by simp [hd])

/-- Where all errors beyond some number are of a sort, so are they after one of the sort. -/
theorem forall_drop_recordIn {A : Diagnostic → Prop} {r : Report} {d : Diagnostic} {k : Nat}
    (h : ∀ e ∈ r.errors.drop k, A e) (hd : d.isError = true) (ha : A d) :
    ∀ e ∈ (recordIn r d).errors.drop k, A e := by
  intro e he
  rcases errors_recordIn r hd with happend | hsame
  · rw [happend, List.drop_append] at he
    rcases List.mem_append.1 he with he | he
    · exact h e he
    · rw [List.mem_singleton.1 (List.mem_of_mem_drop he)]
      exact ha
  · rw [hsame] at he
    exact h e he

/-- Where all errors beyond some number are of a sort, so are they after any other, itself
excepted. -/
theorem forall_dropLast_recordIn {A : Diagnostic → Prop} {r : Report} {d : Diagnostic} {k : Nat}
    (h : ∀ e ∈ r.errors.drop k, A e) (hd : d.isError = true) :
    ∀ e ∈ (recordIn r d).errors.dropLast.drop k, A e := by
  intro e he
  rcases errors_recordIn r hd with happend | hsame
  · rw [happend, List.dropLast_concat] at he
    exact h e he
  · rw [hsame] at he
    exact h e (((List.dropLast_sublist _).drop k).subset he)

/-! ## Parses that keep to the allowance -/

section

variable (tokens : List Token) (o : ParseOptions) (k : Nat)

/-- A parse under the options `o` goes on: it has recorded no more than `k` errors, and beyond them
only some that are not limited. -/
structure UnderWay (s : ParserState) : Prop where
  options : s.options = o
  place : ∃ c, s.tape.StandsAt tokens c
  errors : ∀ d ∈ s.report.errors.drop k, d.Unlimited tokens

/-- A parse has given up with the diagnostic `d`: as many errors are recorded as the options
allow, and `d` is the last. -/
structure Stands (d : Diagnostic) (s : ParserState) : Prop where
  recover : s.options.recover = true
  limit : (s.options.maxErrors.elim false fun limit =>
    decide (limit ≤ s.report.errorCount)) = true
  recorded : recordIn s.report d = s.report
  errors : ∀ d ∈ s.report.errors.dropLast.drop k, d.Unlimited tokens

/-- A run that ends with a value ends as `R` says.  One that stops with a diagnostic has not
recorded it yet, or has given up with it. -/
def Ends {α : Type} (result : EStateM.Result Stop ParserState α)
    (R : α → ParserState → Prop) : Prop :=
  match result with
  | .ok a t => R a t
  | .error (.failed d) t => d.isError = true ∧ (UnderWay tokens o k t ∨ Stands tokens k d t)
  | .error (.fault _) _ => True

/-- A parser after which a parse that goes on goes on or gives up. -/
def Restrained : Property := fun _ p =>
  ∀ s, UnderWay tokens o k s → Ends tokens o k (p s) fun _ t => UnderWay tokens o k t

end

variable {tokens : List Token} {o : ParseOptions} {k : Nat} {α β : Type} {s t : ParserState}

/-- What is recorded is not about the tree. -/
theorem UnderWay.congr (h : UnderWay tokens o k s) (hoptions : t.options = s.options)
    (htape : t.tape = s.tape) (hreport : t.report.errors = s.report.errors) :
    UnderWay tokens o k t where
  options := hoptions.trans h.options
  place := htape ▸ h.place
  errors := hreport ▸ h.errors

/-- A parse goes on after an error that is not limited. -/
theorem UnderWay.recorded (h : UnderWay tokens o k s) {d : Diagnostic} (hd : d.isError = true)
    (hu : d.Unlimited tokens) : UnderWay tokens o k { s with report := recordIn s.report d } where
  options := h.options
  place := h.place
  errors := forall_drop_recordIn h.errors hd hu

/-- In a sequence the second parser starts where the first one ends. -/
theorem Ends.bind {p : Parser α} {f : α → Parser β} {M : α → ParserState → Prop}
    {R : β → ParserState → Prop} (hp : Ends tokens o k (p s) M)
    (hf : ∀ a t, M a t → Ends tokens o k (f a t) R) : Ends tokens o k ((p >>= f) s) R := by
  cases h : p s with
  | ok a t =>
    rw [h] at hp
    rw [bind_eq_of_eq_ok h]
    exact hf a t hp
  | error e t =>
    rw [h] at hp
    rw [bind_eq_of_eq_error h]
    cases e with
    | failed d => exact hp
    | fault f => trivial

/-- A parser that hands on the diagnostic of another one after a change to the state that is not
about what is recorded. -/
theorem Ends.attempt_bind {p : Parser α} {f : Except Diagnostic α → Parser β}
    {M : α → ParserState → Prop} {R : β → ParserState → Prop} (hp : Ends tokens o k (p s) M)
    (hok : ∀ a t, M a t → Ends tokens o k (f (.ok a) t) R)
    (herror : ∀ d t, d.isError = true → UnderWay tokens o k t ∨ Stands tokens k d t →
      Ends tokens o k (f (.error d) t) R) :
    Ends tokens o k ((attempt p >>= f) s) R := by
  cases h : p s with
  | ok a t =>
    rw [h] at hp
    rw [attempt_bind_of_eq_ok h]
    exact hok a t hp
  | error e t =>
    rw [h] at hp
    cases e with
    | failed d =>
      rw [attempt_bind_of_failed h]
      exact herror d t hp.1 hp.2
    | fault f =>
      rw [attempt_bind_of_fault h]
      trivial

/-! ## The tape -/

/-- Skipping leads to a place on the tape. -/
theorem exists_standsAt_skipWithin {t : Tape} (stop : Expectation) (n : Nat) (mayStop : Bool)
    (depth : Nat) (h : ∃ c, t.StandsAt tokens c) :
    ∃ c, (t.skipWithin stop n mayStop depth).StandsAt tokens c := by
  induction n generalizing t mayStop depth with
  | zero => exact h
  | succ n ih =>
    have hnext : ∃ c, t.advance.2.StandsAt tokens c := by
      rcases h with ⟨c, hc⟩
      exact ⟨c + 1, hc.advance⟩
    simp only [Tape.skipWithin]
    split
    · exact h
    · split
      · exact hnext
      · split
        · exact hnext
        · exact ih _ _ hnext
      all_goals exact ih _ _ hnext

/-! ## Synchronization points -/

/-- A synchronization point takes up an error and goes on, or hands it on. -/
theorem ends_recoverFrom (hk : o.allowance? = some k) {d : Diagnostic} (hd : d.isError = true)
    (hs : UnderWay tokens o k s ∨ Stands tokens k d s) (stop : Expectation) (mark : Nat) :
    Ends tokens o k (recoverFrom d stop mark s) fun _ t => UnderWay tokens o k t := by
  rw [Simulates.recoverFrom_eq]
  split
  · exact ⟨hd, hs⟩
  rename_i hon
  have hon : s.options.recover = true := by simpa using hon
  dsimp only
  split
  · -- the limit is reached
    rename_i hlimit
    refine ⟨hd, .inr ⟨hon, hlimit, recordIn_recordIn _ hd, ?_⟩⟩
    rcases hs with hs | hs
    · exact forall_dropLast_recordIn hs.errors hd
    · rw [show recordIn s.report d = s.report from hs.recorded]
      exact hs.errors
  · rename_i hlimit
    rcases hs with hs | hs
    · refine ⟨hs.options, exists_standsAt_skipWithin stop _ _ _ hs.place, ?_⟩
      -- fewer errors are recorded than the limit, so none is beyond the allowance
      have hnone : (recordIn s.report d).errors.drop k = [] := by
        rw [hs.options] at hlimit hon
        rw [ParseOptions.allowance?, if_pos hon] at hk
        cases hm : o.maxErrors with
        | none =>
          rw [hm] at hk
          cases hk
        | some m =>
          rw [hm] at hk hlimit
          cases hk
          have hlt : ¬ m ≤ (recordIn s.report d).errors.length :=
            fun hle => hlimit (decide_eq_true hle)
          apply List.drop_eq_nil_of_le
          show _ ≤ max m 1 - 1
          omega
      show ∀ e ∈ (recordIn s.report d).errors.drop k, _
      rw [hnone]
      exact nofun
    · rw [hs.recorded] at hlimit
      exact absurd hs.limit hlimit

/-! ## Rules -/

/-- One after the other. -/
theorem ends_forM (f : α → Parser PUnit) (hf : ∀ a, Restrained tokens o k PUnit (f a))
    (items : List α) : Restrained tokens o k PUnit (items.forM f) := by
  induction items with
  | nil => exact fun _ hs => hs
  | cons a items ih => exact fun s hs => (hf a s hs).bind fun _ t ht => ih t ht

/-- The smallest rules keep to the allowance, and those made of them. -/
theorem composes_restrained (tokens : List Token) (hk : o.allowance? = some k) :
    Composes (Restrained tokens o k) where
  pure _ _ hs := hs
  fault _ _ _ := trivial
  bind hp hf s hs := (hp s hs).bind fun a t ht => hf a t ht
  tape_bind hf s hs := hf s.tape s hs
  arena_bind hf s hs := hf s.arena s hs
  synchronized stop hp s hs :=
    (hp s hs).attempt_bind (fun _ _ ht => ht) fun d t hd ht =>
      (ends_recoverFrom hk hd ht stop s.tape.consumedCount).bind fun _ _ hu => hu
  inScope hp s hs := by
    have hopened : UnderWay tokens o k { s with
        arena := (s.arena.newScope s.scopes.head?).2
        scopes := (s.arena.newScope s.scopes.head?).1 :: s.scopes } := hs.congr rfl rfl rfl
    refine (hp _ hopened).attempt_bind (fun a t ht => ht.congr rfl rfl rfl) fun d t hd ht => ?_
    refine ⟨hd, ht.imp (·.congr rfl rfl rfl) fun h => ?_⟩
    exact ⟨h.recover, h.limit, h.recorded, h.errors⟩
  advance s hs := by
    rcases hs.place with ⟨c, hc⟩
    exact ⟨hs.options, ⟨c + 1, hc.advance⟩, hs.errors⟩
  giveBack s hs := by
    rcases hs.place with ⟨c, hc⟩
    show Ends tokens o k ((lift s.tape.giveBack >>= fun tape => modify fun s =>
      { s with tape := tape }) s) _
    cases hback : s.tape.giveBack with
    | error f => trivial
    | ok tape =>
      cases c with
      | zero =>
        rw [Tape.giveBack, hc.consumed_eq] at hback
        cases hback
      | succ c =>
        rcases hc.giveBack with ⟨before, hbefore, hplace⟩
        rw [hback] at hbefore
        cases hbefore
        exact ⟨hs.options, ⟨c, hplace⟩, hs.errors⟩
  failAt span complaint s hs := ⟨rfl, .inl hs⟩
  fail_unexpected expected s hs := ⟨rfl, .inl hs⟩
  warnAt span complaint s hs := hs.congr rfl rfl (by simp [Diagnostic.isError])
  record_semantic span complaint s hs := hs.recorded rfl (.inl rfl)
  make form span s hs := by
    show Ends tokens o k ((lift (s.arena.alloc form) >>= fun x =>
      lift (x.2.setPosition x.1 span) >>= fun arena =>
        (modify fun s => { s with arena := arena }) >>= fun _ => pure x.1) s) _
    cases s.arena.alloc form with
    | error f => trivial
    | ok made =>
      show Ends tokens o k ((lift (made.2.setPosition made.1 span) >>= fun arena =>
        (modify fun s => { s with arena := arena }) >>= fun _ => pure made.1) s) _
      cases made.2.setPosition made.1 span with
      | error f => trivial
      | ok arena => exact hs.congr rfl rfl rfl
  reportRedefinitions s hs := by
    have htaken : UnderWay tokens o k { s with arena := s.arena.takeRedefinitions.2 } :=
      hs.congr rfl rfl rfl
    have hrecord (redefinition : Redefinition) : Restrained tokens o k PUnit (do
        let span ← spanOf redefinition.duplicate
        record (← errorAt .semantic span (.redefinition redefinition.name))) := by
      intro t ht
      rw [bind_spanOf_eq]
      cases t.arena.position redefinition.duplicate with
      | error f => trivial
      | ok found => exact ht.recorded rfl (.inl rfl)
    exact ends_forM _ hrecord _ _ htaken

/-! ## Strings -/

/-- Repetition keeps an invariant. -/
theorem Ends.loop {step : α → Parser (α ⊕ β)} {I : α → ParserState → Prop}
    {R : β → ParserState → Prop}
    (hstep : ∀ a t, I a t → Ends tokens o k (step a t) fun r u => r.elim (I · u) (R · u))
    (n : Nat) {a : α} (h : I a s) : Ends tokens o k (loop step n a s) R := by
  induction n generalizing a s with
  | zero => trivial
  | succ n ih =>
    unfold Parser.loop
    apply (hstep a s h).bind
    intro r t hr
    cases r with
    | inl a => exact ih hr
    | inr b => exact hr

/-- The next token is one of the text of a string, or ends it. -/
def InString (s : ParserState) : Prop :=
  Token.leadIntoString s.tape.consumed = true ∨ s.tape.peek.kind = .stringEnd

/-- An error about the next token is one of a piece of a string. -/
theorem UnderWay.unlimited_peek (h : UnderWay tokens o k s)
    (hin : Token.leadIntoString s.tape.consumed = true) {complaint : Complaint}
    (hpiece : s.tape.peek.kind = .stringEscape ∧
        Text.unescape? s.tape.peek.text.toList = none ∧
        complaint = .badEscape s.tape.peek.text ∨
      s.tape.peek.kind = .unexpectedCharacter ∧ complaint = .badCharacter s.tape.peek.text) :
    Diagnostic.Unlimited tokens
      ⟨s.report.source, .error, .grammar, s.tape.peek.span, complaint.message⟩ := by
  rcases h.place with ⟨c, hc⟩
  have hpeek : s.tape.peek = Token.endless tokens c := hc.lookAhead_eq 0
  have hlt : c < tokens.length := by
    apply Token.lt_length_of_endless_kind_ne
    rw [← hpeek]
    rcases hpiece with ⟨hkind, -⟩ | ⟨hkind, -⟩ <;> rw [hkind] <;> exact nofun
  rw [hc.consumed_eq, Token.items_eq_take (Nat.le_of_lt hlt)] at hin
  have hsplit : tokens = tokens.take c ++ s.tape.peek :: tokens.drop (c + 1) := by
    have hget : s.tape.peek = tokens[c] := by rw [hpeek]; simp [Token.endless, hlt]
    rw [hget, List.getElem_cons_drop, List.take_append_drop]
  refine .inr ⟨tokens.take c, s.tape.peek, tokens.drop (c + 1), hsplit, hin, rfl, rfl, ?_⟩
  rcases hpiece with ⟨hkind, hnone, rfl⟩ | ⟨hkind, rfl⟩
  · exact .inl ⟨hkind, hnone, rfl⟩
  · exact .inr ⟨hkind, rfl⟩

/-- After a token that leads into the text of a string the parse is in a string. -/
theorem inString_advanced (h : Token.leadIntoString (s.tape.peek :: s.tape.consumed) = true) :
    InString s.advanced := .inl h

/-- Consuming a token leaves a parse under way. -/
theorem UnderWay.advanced (h : UnderWay tokens o k s) : UnderWay tokens o k s.advanced := by
  rcases h.place with ⟨c, hc⟩
  exact ⟨h.options, ⟨c + 1, hc.advance⟩, h.errors⟩

/-- A token of some kind is consumed if it comes next. -/
theorem skipKind_of_eq {kind : TokenKind} (h : s.tape.peek.kind = kind) :
    skipKind kind s = .ok true s.advanced := by
  have haccept : accept? (.kind kind) s = .ok (some s.tape.peek) s.advanced :=
    accept?_of_accepts (by rw [Expectation.accepts_kind, h]; exact beq_self_eq_true kind)
  exact bind_eq_of_eq_ok haccept

/-- A token of another kind stays. -/
theorem skipKind_of_ne {kind : TokenKind} (h : s.tape.peek.kind ≠ kind) :
    skipKind kind s = .ok false s := by
  have haccept : accept? (.kind kind) s = .ok none s :=
    accept?_of_not_accepts (by
      rw [Expectation.accepts_kind]
      exact beq_eq_false_iff_ne.2 (Ne.symm h))
  exact bind_eq_of_eq_ok haccept

section Strings

variable (expression : ExpressionRule) [Composes (Restrained tokens o k)]
  [∀ min, Has (Restrained tokens o k) (expression min)]

/-- Behind a placeholder the text of its string goes on, or the string ends. -/
theorem ends_placeholder (body : StringBody) (hs : UnderWay tokens o k s) :
    Ends tokens o k (placeholder expression body s) fun _ t =>
      UnderWay tokens o k t ∧ InString t := by
  unfold placeholder
  have hflush : Has (Restrained tokens o k) (flush { body with interpolated := true }) :=
    inferInstance
  apply (hflush.out s hs).bind
  intro flushed t ht
  have hpart : Has (Restrained tokens o k)
    (synchronized (.category [.stringPartEnd]) (expression .lowest)) := inferInstance
  apply (hpart.out t ht).bind
  intro part u hu
  by_cases hend : u.tape.peek.kind = .templateEnd
  · rw [bind_eq_of_eq_ok (skipKind_of_eq hend)]
    refine ⟨hu.advanced, inString_advanced ?_⟩
    simp [Token.leadIntoString, hend]
  · rw [bind_eq_of_eq_ok (skipKind_of_ne hend)]
    by_cases hquote : u.tape.peek.kind = .stringEnd
    · have hcheck : checkKind .stringEnd u = .ok true u := by
        show EStateM.Result.ok (TokenKind.stringEnd == u.tape.peek.kind) u = _
        rw [hquote]
        rfl
      rw [if_neg Bool.false_ne_true, bind_eq_of_eq_ok hcheck]
      exact ⟨hu, .inr hquote⟩
    · have hcheck : checkKind .stringEnd u = .ok false u := by
        show EStateM.Result.ok (TokenKind.stringEnd == u.tape.peek.kind) u = _
        rw [beq_eq_false_iff_ne.2 (Ne.symm hquote)]
      rw [if_neg Bool.false_ne_true, bind_eq_of_eq_ok hcheck]
      exact ⟨rfl, .inl hu⟩

/-- One token of a string: the text of the string goes on, or the string ends. -/
theorem ends_stringStep (start : Token) (body : StringBody)
    (h : UnderWay tokens o k s ∧ InString s) :
    Ends tokens o k (stringStep expression start body s) fun r t =>
      r.elim (fun _ => UnderWay tokens o k t ∧ InString t) fun _ => UnderWay tokens o k t := by
  obtain ⟨hs, hin⟩ := h
  have hadvance : advance s = .ok s.tape.peek s.advanced := rfl
  have hinside (hne : s.tape.peek.kind ≠ .stringEnd) :
      Token.leadIntoString s.tape.consumed = true := hin.resolve_right hne
  unfold stringStep
  rw [bind_eq_of_eq_ok hadvance]
  cases hkind : s.tape.peek.kind with
  | stringContent => exact ⟨hs.advanced, inString_advanced (by simp [Token.leadIntoString, hkind])⟩
  | stringEscape =>
    have hafter : InString s.advanced := inString_advanced (by simp [Token.leadIntoString, hkind])
    dsimp only
    cases hescape : Text.unescape? s.tape.peek.text.toList with
    | some c => exact ⟨hs.advanced, hafter⟩
    | none =>
      have hlimit := hs.unlimited_peek (hinside (by rw [hkind]; exact nofun))
        (.inl ⟨hkind, hescape, rfl⟩)
      exact ⟨hs.advanced.recorded rfl hlimit, hafter⟩
  | templateStart =>
    exact (ends_placeholder expression body hs.advanced).bind fun _ _ ht => ht
  | stringEnd => exact hs.advanced
  | unexpectedCharacter =>
    have hbefore := hinside (by rw [hkind]; exact nofun)
    have hlimit := hs.unlimited_peek hbefore (.inr ⟨hkind, rfl⟩)
    refine ⟨hs.advanced.recorded rfl hlimit, inString_advanced ?_⟩
    simpa [Token.leadIntoString, hkind] using hbefore
  | _ =>
    have hback : Has (Restrained tokens o k) (do
        giveBack
        failAt start.span .openString : Parser (StringBody ⊕ StringBody)) := inferInstance
    exact hback.out s.advanced hs.advanced

/-- A string, whose opening quote was consumed last. -/
theorem ends_stringRule (start : Token) (h : UnderWay tokens o k s ∧ InString s) :
    Ends tokens o k (stringRule expression start s) fun _ t => UnderWay tokens o k t := by
  unfold stringRule
  have hbound : bound s = .ok (s.tape.pending.length + 1) s := rfl
  rw [bind_eq_of_eq_ok hbound]
  have hloop := Ends.loop (I := fun _ t => UnderWay tokens o k t ∧ InString t)
    (R := fun _ t => UnderWay tokens o k t)
    (fun body t ht => ends_stringStep expression start body ht) (s.tape.pending.length + 1)
    (a := .empty) h
  apply hloop.bind
  intro body t ht
  have hrest : Has (Restrained tokens o k) (do
      let span ← spanFrom start.span
      if body.interpolated then
        let body ← flush body
        make (.stringTemplate body.parts) span
      else make (.literal (.string (String.ofList body.chunk.text))) span) := inferInstance
  exact hrest.out t ht

end Strings

/-- The only kind of token that begins a string. -/
theorem kind_of_stringRule {kind : TokenKind} (h : StartRule.ofKind? kind = some .string) :
    kind = .stringStart := by
  cases kind <;> first | rfl | cases h

/-- Every rule keeps to the allowance. -/
theorem closed_restrained (tokens : List Token) (hk : o.allowance? = some k) :
    Closed (Restrained tokens o k) where
  toComposes := composes_restrained tokens hk
  importPath expression _ s hs := by
    have := composes_restrained tokens hk
    unfold importPath
    cases hquote : (Expectation.kind .stringStart).accepts s.tape.peek.kind with
    | false =>
      have hstops : expectKind .stringStart s = .error (.failed _) s :=
        expect_of_not_accepts hquote
      rw [bind_eq_of_eq_error hstops]
      exact ⟨rfl, .inl hs⟩
    | true =>
      have hgoes : expectKind .stringStart s = .ok s.tape.peek s.advanced :=
        expect_of_accepts hquote
      have hkind : s.tape.peek.kind = .stringStart := (eq_of_beq hquote).symm
      rw [bind_eq_of_eq_ok hgoes]
      have hin : InString s.advanced := inString_advanced (by simp [Token.leadIntoString, hkind])
      apply (ends_stringRule expression s.tape.peek ⟨hs.advanced, hin⟩).bind
      intro node t ht
      refine (Composes.andThen fun form => ?_ : Has (Restrained tokens o k) _).out t ht
      split <;> infer_instance
  expressionRule expression _ min s hs := by
    have := composes_restrained tokens hk
    have hadvance : advance s = .ok s.tape.peek s.advanced := rfl
    unfold expressionRule
    rw [bind_eq_of_eq_ok hadvance]
    cases hrule : StartRule.ofKind? s.tape.peek.kind with
    | none =>
      have hback : Has (Restrained tokens o k) (do
          giveBack
          fail (← unexpected "expression") : Parser NodeId) := inferInstance
      exact hback.out s.advanced hs.advanced
    | some rule =>
      have hstart : Ends tokens o k (startRule expression s.tape.peek rule s.advanced) fun _ t =>
          UnderWay tokens o k t := by
        by_cases hstring : rule = .string
        · subst hstring
          have hkind := kind_of_stringRule hrule
          have hin : InString s.advanced :=
            inString_advanced (by simp [Token.leadIntoString, hkind])
          exact ends_stringRule expression s.tape.peek ⟨hs.advanced, hin⟩
        · have hother : Has (Restrained tokens o k) (startRule expression s.tape.peek rule) :=
            Composes.has_startRule expression s.tape.peek hstring
          exact hother.out s.advanced hs.advanced
      apply hstart.bind
      intro left t ht
      have hrest : Has (Restrained tokens o k) (do
          loop (expressionStep expression min) (← bound) left) := inferInstance
      exact hrest.out t ht

/-! ## Sources -/

/-- How the rule for an entry ends under any options. -/
theorem ends_entry (hk : o.allowance? = some k) (e : Entry) (description text : String) :
    ∃ result t, (entry e).run (.ofText text description o) = .ok (result, t) ∧
      match result with
      | .ok _ => UnderWay (tokenize text) o k t
      | .error d => d.isError = true ∧
        (UnderWay (tokenize text) o k t ∨ Stands (tokenize text) k d t) := by
  have hstart : UnderWay (tokenize text) o k (.ofText text description o) :=
    ⟨rfl, ⟨0, Tape.standsAt_ofTokens _⟩, by simp [ParserState.ofText, Report.empty, Report.errors]⟩
  have hends := (closed_restrained (tokenize text) hk).entry e _ hstart
  obtain ⟨result, t, hrun⟩ := exists_entry_run e o description text
  refine ⟨result, t, hrun, ?_⟩
  cases result with
  | ok root => rwa [run_eq_ok_ok.1 hrun] at hends
  | error d => rwa [run_eq_ok_error.1 hrun] at hends

end Parser

/-- The diagnostics that are handed back: the warnings for a tree, or all of them. -/
def handedBack : Except Report Parsed → Report
  | .ok p => p.warnings
  | .error r => r

/-- All errors that are handed back, beyond the allowance and but for the last, are some that are
not limited. -/
theorem exists_parseText_unlimited (e : Entry) {o : ParseOptions} {k : Nat}
    (hk : o.allowance? = some k) (description text : String) :
    ∃ answer, parseText e o description text = .ok answer ∧
      ∀ d ∈ (handedBack answer).errors.dropLast.drop k, d.Unlimited (tokenize text) := by
  obtain ⟨result, t, hrun, hends⟩ := Parser.ends_entry hk e description text
  refine ⟨Parser.finish t result, parseText_of_run hrun, ?_⟩
  cases result with
  | ok root =>
    have hsame : (handedBack (Parser.finish t (.ok root))).errors = t.report.errors := by
      cases herrors : t.report.hasErrors <;> simp [Parser.finish, handedBack, herrors]
    intro d hd
    rw [hsame] at hd
    exact hends.errors d (((List.dropLast_sublist _).drop k).subset hd)
  | error d =>
    obtain ⟨hd, hends | hends⟩ := hends
    · exact Parser.forall_dropLast_recordIn hends.errors hd
    · show ∀ e ∈ (Parser.recordIn t.report d).errors.dropLast.drop k, _
      rw [hends.recorded]
      exact hends.errors

/-- Of a list all of whose items beyond some number are of a sort, but for the last, no more than
that number and one are of another. -/
theorem length_le_of_sublist {α : Type} {A : α → Prop} {xs ys : List α} {k : Nat}
    (h : ∀ x ∈ xs.dropLast.drop k, A x) (hsub : ys.Sublist xs) (hother : ∀ y ∈ ys, ¬ A y) :
    ys.length ≤ k + 1 := by
  have hparts : xs = xs.dropLast.take k ++ xs.dropLast.drop k ++ xs.drop (xs.length - 1) := by
    rw [List.take_append_drop, List.dropLast_eq_take, List.take_append_drop]
  rw [hparts] at hsub
  obtain ⟨front, last, rfl, hfront, hlast⟩ := List.sublist_append_iff.1 hsub
  obtain ⟨first, beyond, rfl, hfirst, hbeyond⟩ := List.sublist_append_iff.1 hfront
  have hnil : beyond = [] := by
    apply List.eq_nil_iff_forall_not_mem.2
    intro x hx
    exact hother x (by simp [hx]) (h x (hbeyond.subset hx))
  have hfirst := hfirst.length_le
  have hlast := hlast.length_le
  rw [List.length_take] at hfirst
  rw [List.length_drop] at hlast
  simp only [List.length_append, hnil, List.length_nil]
  omega

/-- Under a limit a parse hands back no more errors than the limit, or one where that is zero,
besides errors about the meaning of the text and about pieces of strings: all others of the errors
beyond those are some of these two sorts, but for the last. -/
theorem parseText_errors_limited (e : Entry) (recover : Bool) (limit : Nat)
    (description text : String) :
    ∃ answer, parseText e ⟨recover, some limit⟩ description text = .ok answer ∧
      (∀ d ∈ (handedBack answer).errors.dropLast.drop (max limit 1 - 1),
        d.Unlimited (tokenize text)) ∧
      ∀ errors : List Diagnostic, errors.Sublist (handedBack answer).errors →
        (∀ d ∈ errors, ¬ d.Unlimited (tokenize text)) → errors.length ≤ max limit 1 := by
  obtain ⟨answer, hanswer, hall⟩ : ∃ answer,
      parseText e ⟨recover, some limit⟩ description text = .ok answer ∧
        ∀ d ∈ (handedBack answer).errors.dropLast.drop (max limit 1 - 1),
          d.Unlimited (tokenize text) := by
    cases recover with
    | true => exact exists_parseText_unlimited e rfl description text
    | false =>
      obtain ⟨answer, hanswer, hall⟩ :=
        exists_parseText_unlimited e (o := ⟨false, some limit⟩) rfl description text
      exact ⟨answer, hanswer, fun d hd => hall d (List.mem_of_mem_drop hd)⟩
  refine ⟨answer, hanswer, hall, ?_⟩
  intro errors hsub hother
  have hle := length_le_of_sublist hall hsub hother
  omega

/-- What a text is parsed to, if a test holds of what is handed back. -/
theorem exists_parseText_of_any (e : Entry) (o : ParseOptions) (text : String)
    (test : Report → Bool)
    (h : (parseText e o "" text).toOption.any (fun answer => test (handedBack answer)) = true) :
    ∃ answer, parseText e o "" text = .ok answer ∧ test (handedBack answer) = true := by
  cases hparse : parseText e o "" text with
  | error f =>
    rw [hparse] at h
    cases h
  | ok answer =>
    rw [hparse] at h
    exact ⟨answer, rfl, h⟩

/-- No error about three functions without a name is one about a piece of a string. -/
theorem not_ofStringPiece_functions (d : Diagnostic) :
    ¬ d.OfStringPiece (tokenize "fun 1 fun 2 fun 3") :=
  d.not_ofStringPiece (by decide +kernel)

/-- Of three functions without a name two are reported under a limit of two. -/
theorem parseText_errors_limited_functions : ∃ answer,
    parseText .unit ⟨true, some 2⟩ "" "fun 1 fun 2 fun 3" = .ok answer ∧
      (∀ d ∈ (handedBack answer).errors, ¬ d.Unlimited (tokenize "fun 1 fun 2 fun 3")) ∧
      (handedBack answer).errors.length = 2 := by
  obtain ⟨answer, hanswer, htwo⟩ := exists_parseText_of_any .unit ⟨true, some 2⟩
    "fun 1 fun 2 fun 3"
    (fun r => decide (2 ≤ r.errors.length) && r.errors.all (·.topic == .grammar))
    (by decide +kernel)
  obtain ⟨answer', hanswer', -, hlimit⟩ :=
    parseText_errors_limited .unit true 2 "" "fun 1 fun 2 fun 3"
  cases hanswer.symm.trans hanswer'
  obtain ⟨hcount, htopics⟩ := Bool.and_eq_true_iff.1 htwo
  have hlimited : ∀ d ∈ (handedBack answer).errors,
      ¬ d.Unlimited (tokenize "fun 1 fun 2 fun 3") := by
    intro d hd hunlimited
    rcases hunlimited with hsemantic | hpiece
    · have htopic := eq_of_beq (List.all_eq_true.1 htopics d hd)
      rw [htopic] at hsemantic
      cases hsemantic
    · exact not_ofStringPiece_functions d hpiece
  have hle := hlimit _ (List.Sublist.refl _) hlimited
  have hge := of_decide_eq_true hcount
  exact ⟨answer, hanswer, hlimited, by omega⟩

/-- Two characters outside the language in one string are two errors under a limit of one. -/
theorem exists_parseText_beyond_limit : ∃ answer,
    parseText .expression ⟨true, some 1⟩ "" "\"\\q\\q\"" = .ok answer ∧
      ¬ (handedBack answer).errorCount ≤ max 1 1 := by
  obtain ⟨answer, hanswer, hmore⟩ := exists_parseText_of_any .expression ⟨true, some 1⟩
    "\"\\q\\q\""
    (fun r => decide (¬ r.errorCount ≤ max 1 1)) (by decide +kernel)
  exact ⟨answer, hanswer, of_decide_eq_true hmore⟩

/-- Without recovery a parse hands back one error of grammar at most, besides those about pieces of
strings: all others of the errors are about the meaning of the text or about pieces of strings, but
for the last. -/
theorem parseText_errors_without_recovery (e : Entry) (maxErrors : Option Nat)
    (description text : String) :
    ∃ answer, parseText e ⟨false, maxErrors⟩ description text = .ok answer ∧
      (∀ d ∈ (handedBack answer).errors.dropLast, d.Unlimited (tokenize text)) ∧
      ∀ errors : List Diagnostic, errors.Sublist (handedBack answer).errors →
        (∀ d ∈ errors, d.topic = .grammar ∧ ¬ d.OfStringPiece (tokenize text)) →
          errors.length ≤ 1 := by
  obtain ⟨answer, hanswer, hall⟩ :=
    exists_parseText_unlimited e (o := ⟨false, maxErrors⟩) (k := 0) rfl description text
  refine ⟨answer, hanswer, hall, ?_⟩
  intro errors hsub hother
  apply length_le_of_sublist (k := 0) hall hsub
  intro d hd hunlimited
  obtain ⟨htopic, hpiece⟩ := hother d hd
  rcases hunlimited with hsemantic | hunlimited
  · rw [htopic] at hsemantic
    cases hsemantic
  · exact hpiece hunlimited

/-- Of three functions without a name one is reported without recovery. -/
theorem parseText_errors_without_recovery_functions : ∃ answer,
    parseText .unit ⟨false, none⟩ "" "fun 1 fun 2 fun 3" = .ok answer ∧
      (∀ d ∈ (handedBack answer).errors,
        d.topic = .grammar ∧ ¬ d.OfStringPiece (tokenize "fun 1 fun 2 fun 3")) ∧
      (handedBack answer).errors.length = 1 := by
  obtain ⟨answer, hanswer, hone⟩ := exists_parseText_of_any .unit ⟨false, none⟩
    "fun 1 fun 2 fun 3"
    (fun r => decide (1 ≤ r.errors.length) && r.errors.all (·.topic == .grammar))
    (by decide +kernel)
  obtain ⟨answer', hanswer', -, hlimit⟩ :=
    parseText_errors_without_recovery .unit none "" "fun 1 fun 2 fun 3"
  cases hanswer.symm.trans hanswer'
  obtain ⟨hcount, htopics⟩ := Bool.and_eq_true_iff.1 hone
  have hgrammar : ∀ d ∈ (handedBack answer).errors,
      d.topic = .grammar ∧ ¬ d.OfStringPiece (tokenize "fun 1 fun 2 fun 3") := by
    intro d hd
    exact ⟨eq_of_beq (List.all_eq_true.1 htopics d hd), not_ofStringPiece_functions d⟩
  have hle := hlimit _ (List.Sublist.refl _) hgrammar
  have hge := of_decide_eq_true hcount
  exact ⟨answer, hanswer, hgrammar, by omega⟩

/-- Two characters outside the language in one string are two errors of grammar without recovery. -/
theorem exists_parseText_beyond_first_error : ∃ answer,
    parseText .expression ⟨false, none⟩ "" "\"\\q\\q\"" = .ok answer ∧
      ¬ ((handedBack answer).errors.filter (·.topic == .grammar)).length ≤ 1 := by
  obtain ⟨answer, hanswer, hmore⟩ := exists_parseText_of_any .expression ⟨false, none⟩
    "\"\\q\\q\""
    (fun r => decide (¬ (r.errors.filter (·.topic == .grammar)).length ≤ 1)) (by decide +kernel)
  exact ⟨answer, hanswer, of_decide_eq_true hmore⟩

end ExprLang
