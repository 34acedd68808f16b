import ExprLang.Proofs.Parser.Options
import ExprLang.Proofs.Tree.Placed

/-!
# Invariants of arenas

Rules change the arena in three ways only: they open scopes, they take the
redefinitions that were found, and they build nodes, which get their position at
once.  A property of arenas that these keep is kept by every rule, however the rule
ends.

Main definitions:

- Definition {lit}`Arena.Invariant`: a property that the changes of a parse keep.
- Definition {lit}`Parser.Keeps`: a rule that keeps a property of the arena.

Main results:

- Theorem {lit}`Parser.Keeps.closed`: rules keep an invariant of arenas.
-/

namespace ExprLang

/-- A property of arenas that new scopes, the taking of redefinitions, and new nodes keep. -/
class Arena.Invariant (I : Arena → Prop) : Prop where
  newScope {a : Arena} (parent : Option ScopeId) (h : I a) : I (a.newScope parent).2
  takeRedefinitions {a : Arena} (h : I a) : I a.takeRedefinitions.2
  made {a b c : Arena} {form : Form} {id : NodeId} {span : Span} (h : I a)
    (halloc : a.alloc form = .ok (id, b)) (hset : b.setPosition id span = .ok c) : I c

/-- Order is kept. -/
instance Arena.Orderly.invariant : Arena.Invariant Arena.Orderly where
  newScope parent h := h.newScope parent
  takeRedefinitions h := h.takeRedefinitions
  made h halloc hset := (h.made halloc hset).1

namespace Parser

variable {α β : Type} {I : Arena → Prop}

/-- However a rule ends, it keeps what holds of the arena. -/
class Keeps (I : Arena → Prop) (p : Parser α) : Prop where
  keeps : ∀ s, I s.arena → I (endState (p s)).arena

namespace Keeps

/-- A value. -/
instance pure (a : α) : Keeps I (Pure.pure a : Parser α) := ⟨fun _ hs => hs⟩

/-- A fault. -/
instance fault (f : Fault) : Keeps I (Parser.fault f : Parser α) := ⟨fun _ hs => hs⟩

/-- An error. -/
instance fail (d : Diagnostic) : Keeps I (Parser.fail d : Parser α) := ⟨fun _ hs => hs⟩

/-- A change of the state. -/
theorem modifyGet {f : ParserState → α × ParserState}
    (hf : ∀ s, I s.arena → I (f s).2.arena) :
    Keeps I (MonadStateOf.modifyGet f : Parser α) := ⟨hf⟩

/-- A look at the state. -/
theorem get_bind {f : ParserState → Parser β}
    (h : ∀ s, I s.arena → I (endState (f s s)).arena) : Keeps I (get >>= f) := ⟨h⟩

/-- One rule after another. -/
instance bind (p : Parser α) (f : α → Parser β) [hp : Keeps I p] [hf : ∀ a, Keeps I (f a)] :
    Keeps I (p >>= f) := by
  refine ⟨fun s hs => ?_⟩
  have ht := hp.keeps s hs
  cases h : p s with
  | ok a t =>
    rw [h] at ht
    rw [bind_eq_of_eq_ok h]
    exact (hf a).keeps t ht
  | error e t =>
    rw [h] at ht
    rw [bind_eq_of_eq_error h]
    exact ht

/-- One rule after another, the second by hand. -/
theorem andThen {p : Parser α} {f : α → Parser β} [Keeps I p] (h : ∀ a, Keeps I (f a)) :
    Keeps I (p >>= f) :=
  bind p f

/-- A rule whose diagnostic is handed out. -/
instance attempt (p : Parser α) [hp : Keeps I p] : Keeps I (Parser.attempt p) := by
  refine ⟨fun s hs => ?_⟩
  have ht := hp.keeps s hs
  unfold Parser.attempt
  cases h : p s with
  | ok a t =>
    rw [h] at ht
    exact ht
  | error e t =>
    rw [h] at ht
    cases e <;> exact ht

/-- Going on after an error changes no node. -/
instance recoverFrom (d : Diagnostic) (stop : Expectation) (mark : Nat) :
    Keeps I (Parser.recoverFrom d stop mark) := by
  refine ⟨fun s hs => ?_⟩
  rw [Simulates.recoverFrom_eq]
  dsimp only
  split
  · exact hs
  · split <;> exact hs

/-- A synchronization point. -/
instance synchronized (stop : Expectation) (p : Parser α) [Keeps I p] :
    Keeps I (Parser.synchronized stop p) := by
  refine ⟨fun s hs => ?_⟩
  rw [Simulates.synchronized_eq]
  refine (andThen fun result => ?_ : Keeps I _).keeps s hs
  cases result <;> infer_instance

/-- A result of a computation without a state. -/
instance lift (result : Except Fault α) : Keeps I (Parser.lift result) := by
  cases result with
  | ok a => exact pure a
  | error e => exact fault e

instance advance : Keeps I Parser.advance := modifyGet fun _ hs => hs

instance giveBack : Keeps I Parser.giveBack := by
  refine get_bind fun s hs => ?_
  cases h : s.tape.giveBack with
  | error f => exact hs
  | ok tape => exact hs

instance record (d : Diagnostic) : Keeps I (Parser.record d) := modifyGet fun _ hs => hs

instance errorAt (topic : Topic) (span : Span) (complaint : Complaint) :
    Keeps I (Parser.errorAt topic span complaint) := get_bind fun _ hs => hs

instance spanOf (id : NodeId) : Keeps I (Parser.spanOf id) :=
  get_bind fun s hs => (inferInstance : Keeps I _).keeps s hs

section

variable [hI : Arena.Invariant I]

/-- A rule inside a new scope. -/
instance inScope (p : Parser α) [Keeps I p] : Keeps I (Parser.inScope p) := by
  have hopen : Keeps I Parser.openScope := modifyGet fun _ hs => hI.newScope _ hs
  have hclose : Keeps I Parser.closeScope := modifyGet fun _ hs => hs
  exact andThen fun scope => andThen fun result => andThen fun _ => by
    cases result <;> infer_instance

/-- A new node. -/
instance make (form : Form) (span : Span) : Keeps I (Parser.make form span) := by
  refine get_bind fun s hs => ?_
  cases halloc : s.arena.alloc form with
  | error f => exact hs
  | ok made =>
    show I (endState ((Parser.lift (made.2.setPosition made.1 span) >>= fun arena =>
      (modify fun s => { s with arena := arena }) >>= fun _ => Pure.pure made.1) s)).arena
    cases hset : made.2.setPosition made.1 span with
    | error f => exact hs
    | ok arena => exact hI.made hs halloc hset

instance reportRedefinitions : Keeps I Parser.reportRedefinitions := by
  have htake : Keeps I (MonadStateOf.modifyGet fun s : ParserState =>
      (s.arena.takeRedefinitions.1, { s with arena := s.arena.takeRedefinitions.2 })) :=
    modifyGet fun _ hs => hI.takeRedefinitions hs
  refine @andThen _ _ _ _ _ htake fun found => ?_
  induction found with
  | nil => exact pure _
  | cons redefinition found ih => exact bind ..

/-! ## Rules -/

/-- What the smallest rules keep is kept by those made of them. -/
instance composes : Composes fun _ p => Keeps I p where
  pure := pure
  fault := fault
  bind hp hf := @bind _ _ _ _ _ hp hf
  tape_bind hf := get_bind fun s hs => (hf s.tape).keeps s hs
  arena_bind hf := get_bind fun s hs => (hf s.arena).keeps s hs
  synchronized stop hp := @synchronized _ _ stop _ hp
  inScope hp := @inScope _ _ _ _ hp
  advance := advance
  giveBack := giveBack
  failAt _ _ := get_bind fun _ hs => hs
  fail_unexpected _ := get_bind fun _ hs => hs
  warnAt _ _ := modifyGet fun _ hs => hs
  record_semantic _ _ := inferInstance
  make := make
  reportRedefinitions := reportRedefinitions

/-- A rule that keeps an invariant is one that has that property. -/
instance has (p : Parser α) [hp : Keeps I p] : Has (fun _ p => Keeps I p) p := ⟨hp⟩

instance has_stringStep (expression : ExpressionRule)
    [∀ min, Has (fun _ p => Keeps I p) (expression min)] (start : Token) (body : StringBody) :
    Has (fun _ p => Keeps I p) (Parser.stringStep expression start body) := by
  unfold Parser.stringStep
  refine Composes.andThen fun token => ?_
  split
  case h_2 => split <;> infer_instance
  all_goals infer_instance

/-- Rules keep an invariant of arenas. -/
instance closed : Closed fun _ p => Keeps I p :=
  Composes.closed fun expression _ start => by
    unfold Parser.stringRule
    infer_instance

end

end Keeps

end Parser

end ExprLang
