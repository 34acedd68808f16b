import ExprLang.Proofs.Lexer.Split
import Mathlib.Data.Finset.Card
import Mathlib.Data.Finset.Range
import Mathlib.Logic.Relation

/-!
# Falling back

A state tries its own rules, then those of the states that it falls back on, each of
which falls back in turn.  Where the fallbacks of a grammar run in no circle, the
bounded list of rules of a state is the list of all of them.

Main definitions:

- Definition {lit}`Grammar.FallsBack`: one state falls back on another.
- Definition {lit}`Grammar.WellFormed`: every state that is named exists, and
  fallbacks run in no circle.

Main results:

- Theorem {lit}`Grammar.WellFormed.rules_eq`: the rules of a state.
- Theorem {lit}`Grammar.WellFormed.firstMatch?_eq`: the rule that applies is one of
  the state, or else the first that a fallback finds.
- Theorem {lit}`Grammar.WellFormed.run`: an action of a rule enters states that
  exist.
-/

namespace ExprLang

namespace Grammar

variable {g : Grammar} {id other : StateId} {state : LexerState}

/-- A state falls back on another. -/
def FallsBack (g : Grammar) (id other : StateId) : Prop :=
  ∃ state, g.state? id = some state ∧ other ∈ state.fallbacks

/-- Every state that the grammar names exists, and fallbacks run in no circle. -/
structure WellFormed (g : Grammar) : Prop where
  initial : (g.state? g.initial).isSome = true
  fallbacks : ∀ state ∈ g.states, ∀ id ∈ state.fallbacks, (g.state? id).isSome = true
  pushes : ∀ state ∈ g.states, ∀ rule ∈ state.rules, ∀ kind id,
    rule.action = .push kind id → (g.state? id).isSome = true
  acyclic : ∀ id, ¬ Relation.TransGen g.FallsBack id id

/-! ## Chains of fallbacks -/

/-- The numbers of the states that a state falls back on at last, itself included. -/
noncomputable def reach (g : Grammar) (id : StateId) : Finset Nat :=
  open Classical in
  (Finset.range g.states.length).filter fun n => Relation.ReflTransGen g.FallsBack id ⟨n⟩

theorem mem_reach {n : Nat} : n ∈ g.reach id ↔
    n < g.states.length ∧ Relation.ReflTransGen g.FallsBack id ⟨n⟩ := by
  simp [reach]

/-- There are no more of them than states. -/
theorem card_reach_le (g : Grammar) (id : StateId) : (g.reach id).card ≤ g.states.length := by
  have hsubset : g.reach id ⊆ Finset.range g.states.length := by
    intro n hn
    exact Finset.mem_range.2 (mem_reach.1 hn).1
  calc (g.reach id).card ≤ (Finset.range g.states.length).card := Finset.card_le_card hsubset
    _ = g.states.length := Finset.card_range _

/-- A state that exists is one of those that it falls back on. -/
theorem mem_reach_self (h : g.state? id = some state) : id.index ∈ g.reach id := by
  rw [mem_reach]
  exact ⟨(List.getElem?_eq_some_iff.1 h).1, .refl⟩

/-- A fallback has fewer states to fall back on. -/
theorem WellFormed.card_reach_lt (h : g.WellFormed) (hs : g.state? id = some state)
    (ho : other ∈ state.fallbacks) : (g.reach other).card < (g.reach id).card := by
  have hfalls : g.FallsBack id other := ⟨state, hs, ho⟩
  apply Finset.card_lt_card
  rw [Finset.ssubset_iff_of_subset]
  · refine ⟨id.index, mem_reach_self hs, ?_⟩
    intro hmem
    exact h.acyclic id (.head' hfalls (mem_reach.1 hmem).2)
  · intro n hn
    obtain ⟨hrange, hreach⟩ := mem_reach.1 hn
    exact mem_reach.2 ⟨hrange, .head hfalls hreach⟩

/-- Beyond the number of states to fall back on, the depth of the search changes nothing. -/
theorem WellFormed.rulesWithin_congr (h : g.WellFormed) {n k : Nat} (id : StateId)
    (hn : (g.reach id).card ≤ n) (hk : (g.reach id).card ≤ k) :
    g.rulesWithin n id = g.rulesWithin k id := by
  induction n generalizing k id with
  | zero =>
    cases hs : g.state? id with
    | none => cases k <;> simp [rulesWithin, hs]
    | some state =>
      have hpos := Finset.card_pos.2 ⟨_, mem_reach_self hs⟩
      omega
  | succ n ih =>
    cases hs : g.state? id with
    | none => cases k <;> simp [rulesWithin, hs]
    | some state =>
      have hpos := Finset.card_pos.2 ⟨_, mem_reach_self hs⟩
      cases k with
      | zero => omega
      | succ k =>
        simp only [rulesWithin, hs]
        congr 1
        apply List.flatMap_congr
        intro other ho
        have hlt := h.card_reach_lt hs ho
        exact ih other (by omega) (by omega)

/-- The rules of a state are its own and then those of the states that it falls back on. -/
theorem WellFormed.rules_eq (h : g.WellFormed) (hs : g.state? id = some state) :
    g.rules id = state.rules ++ state.fallbacks.flatMap g.rules := by
  have hle := g.card_reach_le id
  calc g.rules id = g.rulesWithin (g.states.length + 1) id :=
        h.rulesWithin_congr id hle (by omega)
    _ = state.rules ++ state.fallbacks.flatMap g.rules := by
        rw [rulesWithin, hs]
        rfl

end Grammar

/-! ## The rule that applies -/

/-- A rule among the first ones applies before one among the others. -/
theorem firstMatch?_append (rules others : List Rule) (c : Cursor) :
    firstMatch? (rules ++ others) c = (firstMatch? rules c).or (firstMatch? others c) := by
  induction rules with
  | nil => rfl
  | cons rule rules ih =>
    simp only [List.cons_append, firstMatch?]
    split
    · exact ih
    · split
      · exact ih
      · rfl

/-- Of the rules of several states the first that applies is that of the first state with one. -/
theorem firstMatch?_flatMap (rules : StateId → List Rule) (ids : List StateId) (c : Cursor) :
    firstMatch? (ids.flatMap rules) c = ids.findSome? fun id => firstMatch? (rules id) c := by
  induction ids with
  | nil => rfl
  | cons id ids ih =>
    rw [List.flatMap_cons, firstMatch?_append, ih, List.findSome?_cons]
    cases firstMatch? (rules id) c <;> rfl

namespace Grammar

variable {g : Grammar} {id : StateId} {state : LexerState}

/-- The rule that applies in a state is one of its own, or else what the first of its fallbacks
finds where one finds any. -/
theorem WellFormed.firstMatch?_eq (h : g.WellFormed) (hs : g.state? id = some state) (c : Cursor) :
    g.firstMatch? id c =
      (ExprLang.firstMatch? state.rules c).or
        (state.fallbacks.findSome? fun other => g.firstMatch? other c) := by
  unfold firstMatch?
  rw [h.rules_eq hs, firstMatch?_append, firstMatch?_flatMap]

/-! ## States that exist -/

/-- Every rule of a state, those that it falls back on included, stands in the grammar. -/
theorem exists_mem_of_mem_rulesWithin {n : Nat} {rule : Rule} (h : rule ∈ g.rulesWithin n id) :
    ∃ state ∈ g.states, rule ∈ state.rules := by
  induction n generalizing id with
  | zero => cases h
  | succ n ih =>
    rw [rulesWithin] at h
    split at h
    · cases h
    · rename_i state hs
      rcases List.mem_append.1 h with hown | hother
      · exact ⟨state, List.mem_of_getElem? hs, hown⟩
      · obtain ⟨other, -, hrule⟩ := List.mem_flatMap.1 hother
        exact ih hrule

/-- Every active state exists. -/
def Admits (g : Grammar) (stack : StateStack) : Prop :=
  ∀ id ∈ stack.root :: stack.entered, (g.state? id).isSome = true

/-- The innermost state exists. -/
theorem Admits.current {stack : StateStack} (h : g.Admits stack) :
    (g.state? stack.current).isSome = true := by
  obtain ⟨root, entered⟩ := stack
  cases entered with
  | nil => exact h root (List.mem_cons_self ..)
  | cons id entered => exact h id (by simp)

/-- An action of a rule that applies leads to states that exist. -/
theorem WellFormed.run (h : g.WellFormed) {stack : StateStack} (hstack : g.Admits stack)
    {rule : Rule} (hrule : rule ∈ g.rules id) (text : List Char) :
    g.Admits (rule.action.run text stack).2 := by
  obtain ⟨state, hstate, hmem⟩ := exists_mem_of_mem_rulesWithin hrule
  intro other ho
  cases haction : rule.action with
  | push kind entered =>
    rw [haction] at ho
    rcases List.mem_cons.1 ho with rfl | ho
    · exact hstack _ (List.mem_cons_self ..)
    · rcases List.mem_cons.1 ho with rfl | ho
      · exact h.pushes state hstate rule hmem kind _ haction
      · exact hstack _ (List.mem_cons_of_mem _ ho)
  | pop kind =>
    rw [haction] at ho
    rcases List.mem_cons.1 ho with rfl | ho
    · exact hstack _ (List.mem_cons_self ..)
    · exact hstack _ (List.mem_cons_of_mem _ (List.mem_of_mem_tail ho))
  | _ =>
    rw [haction] at ho
    exact hstack other ho

end Grammar

end ExprLang
