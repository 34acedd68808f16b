import ExprLang.Proofs.Lookup
import ExprLang.Proofs.Places.Units

/-!
# What units cover

A unit reaches from its first import to the last token, or from its first declaration if it
has no import.  Imports and declarations may stand in any order, though, and a declaration
that starts before the first import starts before the unit.  Everything else in a unit lies
inside its span.

Main definitions:

- Definition {lit}`Arena.Inside`: a node that lies inside a span.
- Definition {lit}`Arena.CoversFromImports`: a unit that covers what does not start before
  its first import.

Main results:

- Theorem {lit}`Parser.unit_coversFromImports`: units that are parsed are of this kind.
- Theorem {lit}`Parser.exists_unit_not_covering`: a unit that does not cover a function.
-/

namespace ExprLang

namespace Arena

variable {a : Arena} {id : NodeId} {span range : Span} {text : String}

/-- A node lies inside a span. -/
def Inside (a : Arena) (span : Span) (id : NodeId) : Prop :=
  ∃ range, a.position? id = some range ∧ span.start.NotAfter range.start ∧
    range.stop.NotAfter span.stop

/-- A node starts before another one. -/
def StartsBefore (a : Arena) (id other : NodeId) : Prop :=
  ∃ range range', a.position? id = some range ∧ a.position? other = some range' ∧
    range.start.offset < range'.start.offset

/-- A unit covers all its imports.  It covers a declaration exactly if that does not start before
the first of them. -/
def CoversFromImports (a : Arena) (unit : NodeId) : Prop :=
  ∃ imports declarations scope span,
    a.form? unit = some (.compilationUnit imports declarations scope) ∧
    a.position? unit = some span ∧
    (∀ id ∈ imports, a.Inside span id) ∧
    ∀ id ∈ declarations, a.Inside span id ↔ ∀ first ∈ imports.head?, ¬ a.StartsBefore id first

/-- A node that ends before a span does lies inside of it if it does not start before. -/
theorem Nests.inside_iff (ha : a.Nests text) (hspan : span.Genuine text)
    (hrange : a.position? id = some range) (hstop : range.stop.offset ≤ span.stop.offset) :
    a.Inside span id ↔ span.start.offset ≤ range.start.offset := by
  have hgenuine := ha.genuine id range hrange
  refine ⟨fun ⟨found, hfound, hstart, _⟩ => ?_, fun hle => ⟨range, hrange,
    hspan.start.notAfter hgenuine.start hle, hgenuine.stop.notAfter hspan.stop hstop⟩⟩
  cases hrange.symm.trans hfound
  exact hstart.offset_le

end Arena

namespace Parser

open ParserState

variable {a : Arena} {items : UnitItems} {span : Span} {text description : String}

/-! ## Items of a unit -/

namespace UnitItems.Within

/-- The imports of a unit are inside. -/
theorem inside_of_mem_imports (h : items.Within a span) (ha : a.Nests text)
    (hspan : span.Genuine text) {id : NodeId} (hid : id ∈ items.imports) :
    a.Inside span id := by
  obtain ⟨first, hfirst⟩ := Option.isSome_iff_exists.1
    (List.isSome_head?.2 (List.ne_nil_of_mem hid))
  obtain ⟨start, hstart, hfrom⟩ := h.start first (by rw [hfirst, Option.some_or])
  obtain ⟨range, hrange, -, -, hstop⟩ := h.imports.exists_span_of_mem hid
  rw [ha.inside_iff hspan hrange hstop, hfrom]
  exact h.imports.start_le_of_head? hfirst hstart hid hrange

/-- A declaration of a unit is inside unless it starts before the first import. -/
theorem inside_iff_of_mem_declarations (h : items.Within a span) (ha : a.Nests text)
    (hspan : span.Genuine text) {id : NodeId} (hid : id ∈ items.declarations) :
    a.Inside span id ↔ ∀ first ∈ items.imports.head?, ¬ a.StartsBefore id first := by
  obtain ⟨range, hrange, -, -, hstop⟩ := h.declarations.exists_span_of_mem hid
  rw [ha.inside_iff hspan hrange hstop]
  cases himports : items.imports.head? with
  | none =>
    -- without imports the unit starts where the first declaration does
    obtain ⟨first, hfirst⟩ := Option.isSome_iff_exists.1
      (List.isSome_head?.2 (List.ne_nil_of_mem hid))
    obtain ⟨start, hstart, hfrom⟩ := h.start first (by rw [himports, hfirst, Option.none_or])
    rw [hfrom]
    exact iff_of_true (h.declarations.start_le_of_head? hfirst hstart hid hrange) nofun
  | some first =>
    obtain ⟨start, hstart, hfrom⟩ := h.start first (by rw [himports, Option.some_or])
    rw [hfrom]
    constructor
    · rintro hle _ ⟨rfl⟩ ⟨range', start', hrange', hstart', hlt⟩
      cases hrange.symm.trans hrange'
      cases hstart.symm.trans hstart'
      omega
    · intro hnot
      by_contra hlt
      exact hnot first rfl ⟨range, start, hrange, hstart, Nat.lt_of_not_le hlt⟩

end UnitItems.Within

/-! ## Units of sources -/

/-- The unit that is parsed from a source covers its imports and its declarations, but for the
declarations that start before the first import. -/
theorem unit_coversFromImports {options : ParseOptions} {root : NodeId}
    (h : RootRule.compilationUnit.tree? text description options = some (a, root)) :
    a.CoversFromImports root := by
  have hlands := lands_compilationUnit (sound_ofText text description options)
  rw [RootRule.tree?, RootRule.parser] at h
  cases hrun : compilationUnit (.ofText text description options) with
  | error stop t =>
    rw [hrun] at h
    cases h
  | ok unit t =>
    rw [hrun] at h hlands
    cases h
    obtain ⟨ht, -, hunit⟩ := hlands
    obtain ⟨items, scope, span, hform, hposition, hwithin⟩ := hunit .empty
    have hspan := ht.nests.genuine root span hposition
    exact ⟨items.imports, items.declarations, scope, span, hform, hposition,
      fun _ hid => hwithin.inside_of_mem_imports ht.nests hspan hid,
      fun _ hid => hwithin.inside_iff_of_mem_declarations ht.nests hspan hid⟩

/-- An import between two functions: the unit covers the second function only. -/
theorem unit_coversFromImports_between : ∃ a root,
    RootRule.compilationUnit.tree? "fun f() {} import \"a\" fun g() {}" "" {} = some (a, root) ∧
      a.form? root = some (.compilationUnit [⟨3⟩] [⟨1⟩, ⟨5⟩] ⟨0⟩) ∧
      a.CoversFromImports root := by
  have hsome : (RootRule.compilationUnit.tree? "fun f() {} import \"a\" fun g() {}" "" {}).any
      (fun p => p.1.form? p.2 == some (.compilationUnit [⟨3⟩] [⟨1⟩, ⟨5⟩] ⟨0⟩)) = true := by
    decide +kernel
  obtain ⟨p, htree, hform⟩ := (Option.any_eq_true _ _).1 hsome
  exact ⟨p.1, p.2, htree, by simpa using hform, unit_coversFromImports htree⟩

/-- The unit starts with its import, which stands behind its function. -/
theorem exists_unit_not_covering : ∃ a root imports declarations scope span,
    RootRule.compilationUnit.tree? "fun f() {} import \"a\"" "" {} = some (a, root) ∧
      a.form? root = some (.compilationUnit imports declarations scope) ∧
      a.position? root = some span ∧
      ∃ id ∈ imports ++ declarations, ¬ a.Inside span id := by
  have hsome : (RootRule.compilationUnit.tree? "fun f() {} import \"a\"" "" {}).any
      (fun p => p.1.form? p.2 == some (.compilationUnit [⟨3⟩] [⟨1⟩] ⟨0⟩) &&
        p.1.position? p.2 == some ⟨⟨0, 11, 11⟩, ⟨0, 21, 21⟩⟩ &&
        p.1.position? ⟨1⟩ == some ⟨⟨0, 0, 0⟩, ⟨0, 10, 10⟩⟩) = true := by
    decide +kernel
  obtain ⟨p, htree, hp⟩ := (Option.any_eq_true _ _).1 hsome
  simp only [Bool.and_eq_true, beq_iff_eq] at hp
  obtain ⟨⟨hform, hunit⟩, hfunction⟩ := hp
  refine ⟨p.1, p.2, _, _, _, _, htree, hform, hunit, ⟨1⟩, by simp, ?_⟩
  rintro ⟨range, hrange, hstart, -⟩
  cases hfunction.symm.trans hrange
  exact absurd hstart.offset_le (by decide)

end Parser

end ExprLang
