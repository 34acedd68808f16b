import ExprLang.Parser.Declarations
import Mathlib.Data.List.Forall2
import Mathlib.Data.Option.Basic
import Mathlib.Logic.Relator

/-!
# Values in two layouts

Two texts of the same words differ in where the words stand.  Parsing one and the
other goes through values that differ in points only, and the points correspond: a
point at which something starts to one at which the same thing starts, and a point at
which something stops to one at which the same thing stops.  No two points correspond
to one, so spans are the same in one parse exactly if they are in the other.

Main definitions:

- Definition {lit}`Alignment`: the points of two texts that correspond.
- Definition {lit}`Comparable`: what it means for values to differ in layout only.

Main results:

- Theorem {lit}`Span.Alike.eq_iff`: spans that correspond to the same span are the same.
- Theorem {lit}`Report.Alike.recordIn`: an error is recorded in both parses or in none.
-/

namespace ExprLang

/-- Which points of two texts correspond, where something starts and where something stops. -/
structure Alignment where
  starts : Point → Point → Prop
  stops : Point → Point → Prop
  biUnique_starts : Relator.BiUnique starts
  biUnique_stops : Relator.BiUnique stops

variable {l : Alignment} {n m : Nat}

/-! ## Spans, tokens and diagnostics -/

/-- Spans correspond if their ends do. -/
structure Span.Alike (l : Alignment) (s s' : Span) : Prop where
  start : l.starts s.start s'.start
  stop : l.stops s.stop s'.stop

namespace Span.Alike

variable {s s' t t' : Span}

/-- Spans that reach from one to another. -/
theorem through (h : s.Alike l s') (h' : t.Alike l t') : (s.through t).Alike l (s'.through t') :=
  ⟨h.start, h'.stop⟩

/-- Spans are the same in one layout exactly if they are in the other. -/
theorem eq_iff (h : s.Alike l s') (h' : t.Alike l t') : s = t ↔ s' = t' := by
  obtain ⟨hstartl, hstartr⟩ := l.biUnique_starts
  obtain ⟨hstopl, hstopr⟩ := l.biUnique_stops
  constructor
  · rintro rfl
    have hstart := hstartr h.start h'.start
    have hstop := hstopr h.stop h'.stop
    cases s'
    cases t'
    simp_all
  · rintro rfl
    have hstart := hstartl h.start h'.start
    have hstop := hstopl h.stop h'.stop
    cases s
    cases t
    simp_all

end Span.Alike

/-- Tokens of the same kind and text whose spans correspond. -/
structure Token.Alike (l : Alignment) (t t' : Token) : Prop where
  kind : t'.kind = t.kind
  text : t'.text = t.text
  span : t.span.Alike l t'.span

/-- What a diagnostic says, apart from where and of which source. -/
def Diagnostic.outline (d : Diagnostic) : Severity × Topic × String :=
  (d.severity, d.topic, d.message)

/-- Diagnostics that say the same of spans that correspond. -/
structure Diagnostic.Alike (l : Alignment) (d d' : Diagnostic) : Prop where
  outline : d'.outline = d.outline
  span : d.span.Alike l d'.span

namespace Diagnostic.Alike

variable {d d' : Diagnostic}

/-- They say the same. -/
theorem message (h : d.Alike l d') : d'.message = d.message :=
  congrArg (fun o : Severity × Topic × String => o.2.2) h.outline

/-- They are errors or they are not. -/
theorem isError (h : d.Alike l d') : d'.isError = d.isError :=
  congrArg (fun o : Severity × Topic × String => o.1 == .error) h.outline

end Diagnostic.Alike

/-! ## Reports -/

/-- Reports of diagnostics that correspond. -/
def Report.Alike (l : Alignment) (r r' : Report) : Prop :=
  List.Forall₂ (Diagnostic.Alike l) r.records r'.records

namespace Report.Alike

variable {r r' : Report} {d d' : Diagnostic}

/-- Adding diagnostics that correspond. -/
theorem record (h : r.Alike l r') (hd : d.Alike l d') : (r.record d).Alike l (r'.record d') :=
  List.rel_append h (.cons hd .nil)

/-- The errors correspond. -/
theorem errors (h : r.Alike l r') : List.Forall₂ (Diagnostic.Alike l) r.errors r'.errors :=
  List.rel_filter (fun _ _ hd => iff_of_eq (congrArg (· = true) hd.isError.symm)) h

/-- There are as many errors. -/
theorem errorCount (h : r.Alike l r') : r'.errorCount = r.errorCount :=
  h.errors.length_eq.symm

/-- There are errors in both or in none. -/
theorem hasErrors (h : r.Alike l r') : r'.hasErrors = r.hasErrors := by
  have hnone : r'.hasErrors = false ↔ r.hasErrors = false := by
    rw [hasErrors_eq_false_iff, hasErrors_eq_false_iff, ← List.length_eq_zero_iff,
      ← List.length_eq_zero_iff, h.errors.length_eq]
  cases hr : r.hasErrors with
  | false => exact hnone.2 hr
  | true => simpa [hr] using hnone

/-- They say the same. -/
theorem outline (h : r.Alike l r') :
    r'.records.map Diagnostic.outline = r.records.map Diagnostic.outline := by
  have hsame : List.Forall₂ (· = ·) (r.records.map Diagnostic.outline)
      (r'.records.map Diagnostic.outline) := by
    rw [List.forall₂_map_left_iff, List.forall₂_map_right_iff]
    exact h.imp fun _ _ hd => hd.outline.symm
  rw [List.forall₂_eq_eq_eq] at hsame
  exact hsame.symm

/-- The last of two lists whose items correspond. -/
theorem getLast? {ds ds' : List Diagnostic} (h : List.Forall₂ (Diagnostic.Alike l) ds ds') :
    Option.Rel (Diagnostic.Alike l) ds.getLast? ds'.getLast? := by
  induction h with
  | nil => exact .none
  | @cons d d' ds ds' hd hds ih =>
    cases hds with
    | nil => exact .some hd
    | cons _ _ => simpa only [List.getLast?_cons_cons] using ih

/-- An error is recorded in both parses, or in neither as the last error said the same. -/
theorem recordIn (h : r.Alike l r') (hd : d.Alike l d') :
    (Parser.recordIn r d).Alike l (Parser.recordIn r' d') := by
  have hlast := getLast? h.errors
  unfold Parser.recordIn
  generalize r.errors.getLast? = last at hlast
  generalize r'.errors.getLast? = last' at hlast
  cases hlast with
  | none => exact h.record hd
  | @some last last' hlast =>
    dsimp only
    have hsame : last'.span = d'.span ∧ last'.message = d'.message ↔
        last.span = d.span ∧ last.message = d.message := by
      rw [hlast.message, hd.message, hlast.span.eq_iff hd.span]
    rw [if_congr hsame rfl rfl]
    split
    · exact h
    · exact h.record hd

end Report.Alike

/-! ## Values of rules -/

/-- What it means that two values differ in layout only, given the number of nodes there are. -/
class Comparable (α : Type) where
  Alike (l : Alignment) (n : Nat) (x y : α) : Prop
  mono {l : Alignment} {n m : Nat} {x y : α} (h : Alike l n x y) (hm : n ≤ m) : Alike l m x y

export Comparable (Alike)

/-- Values that have no places in them: alike ones are equal. -/
class Placeless (α : Type) [Comparable α] : Prop where
  eq_of_alike {l : Alignment} {n : Nat} {x y : α} (h : Alike l n x y) : x = y

namespace Comparable

/-- Values are alike if they are equal. -/
abbrev ofEq (α : Type) : Comparable α := ⟨fun _ _ x y => x = y, fun h _ => h⟩

instance : Comparable Unit := ofEq _
instance : Comparable Bool := ofEq _
instance : Comparable Nat := ofEq _
instance : Comparable String := ofEq _
instance : Comparable ScopeId := ofEq _
instance : Comparable Form := ofEq _

instance : Placeless Unit := ⟨id⟩
instance : Placeless Bool := ⟨id⟩
instance : Placeless Nat := ⟨id⟩
instance : Placeless String := ⟨id⟩
instance : Placeless ScopeId := ⟨id⟩
instance : Placeless Form := ⟨id⟩

instance : Comparable Span := ⟨fun l _ => Span.Alike l, fun h _ => h⟩
instance : Comparable Token := ⟨fun l _ => Token.Alike l, fun h _ => h⟩

/-- A node is the same in both parses, and exists. -/
instance : Comparable NodeId :=
  ⟨fun _ n x y => x = y ∧ x.index < n, fun h hm => ⟨h.1, Nat.lt_of_lt_of_le h.2 hm⟩⟩

instance : Placeless NodeId := ⟨And.left⟩

section

variable {α β : Type} [Comparable α] [Comparable β]

instance : Comparable (Option α) where
  Alike l n := Option.Rel (Alike l n)
  mono h hm := by
    cases h with
    | some h => exact .some (mono h hm)
    | none => exact .none

instance : Comparable (List α) where
  Alike l n := List.Forall₂ (Alike l n)
  mono h hm := h.imp fun _ _ h => mono h hm

instance : Comparable (α × β) where
  Alike l n x y := Alike l n x.1 y.1 ∧ Alike l n x.2 y.2
  mono h hm := ⟨mono h.1 hm, mono h.2 hm⟩

instance : Comparable (α ⊕ β) where
  Alike l n := Sum.LiftRel (Alike l n) (Alike l n)
  mono h hm := by
    cases h with
    | inl h => exact .inl (mono h hm)
    | inr h => exact .inr (mono h hm)

instance [Placeless α] : Placeless (Option α) where
  eq_of_alike h := by
    cases h with
    | some h => rw [Placeless.eq_of_alike h]
    | none => rfl

instance [Placeless α] : Placeless (List α) where
  eq_of_alike h := by
    induction h with
    | nil => rfl
    | cons h _ ih => rw [Placeless.eq_of_alike h, ih]

instance [Placeless α] [Placeless β] : Placeless (α × β) where
  eq_of_alike h := Prod.ext (Placeless.eq_of_alike h.1) (Placeless.eq_of_alike h.2)

end

end Comparable

variable {α : Type} [Comparable α]

/-- Lists that get one more item each. -/
theorem alike_concat {xs ys : List α} {x y : α} (h : Alike l n xs ys) (hx : Alike l n x y) :
    Alike l n (xs ++ [x]) (ys ++ [y]) :=
  List.rel_append h (.cons hx .nil)

/-- Lists that get one more item each, or none. -/
theorem alike_append_toList {xs ys : List α} {x? y? : Option α} (h : Alike l n xs ys)
    (hx : Alike l n x? y?) : Alike l n (xs ++ x?.toList) (ys ++ y?.toList) := by
  cases hx with
  | some hx => exact List.rel_append h (.cons hx .nil)
  | none => exact List.rel_append h .nil

/-! ## Strings and units under way -/

/-- Pieces of text of spans that correspond. -/
instance : Comparable Chunk where
  Alike l n c c' := c'.text = c.text ∧ Alike l n c.span c'.span
  mono h hm := ⟨h.1, Comparable.mono h.2 hm⟩

/-- Adding the same text to pieces of text. -/
theorem Chunk.alike_push {c c' : Chunk} {s s' : Span} (h : Alike l n c c') (text : List Char)
    (hs : s.Alike l s') : Alike l n (c.push text s) (c'.push text s') := by
  obtain ⟨chars, span⟩ := c
  obtain ⟨chars', span'⟩ := c'
  obtain ⟨rfl, hspan⟩ := h
  refine ⟨rfl, .some ?_⟩
  cases hspan with
  | some hspan => exact Span.Alike.through hspan hs
  | none => exact hs

/-- Strings under way of the same parts and text. -/
instance : Comparable StringBody where
  Alike l n b b' := Alike l n b.parts b'.parts ∧ Alike l n b.chunk b'.chunk ∧
    b'.interpolated = b.interpolated
  mono h hm := ⟨Comparable.mono h.1 hm, Comparable.mono h.2.1 hm, h.2.2⟩

/-- Units under way of the same items. -/
instance : Comparable Parser.UnitItems where
  Alike l n u u' := Alike l n u.imports u'.imports ∧ Alike l n u.declarations u'.declarations
  mono h hm := ⟨Comparable.mono h.1 hm, Comparable.mono h.2 hm⟩

/-- Adding the same item to units under way. -/
theorem Parser.UnitItems.alike_push {u u' : UnitItems} {id id' : NodeId} (h : Alike l n u u')
    (hid : Alike l n id id') (form : Form) : Alike l n (u.push id form) (u'.push id' form) := by
  cases form with
  | importPath path entries => exact ⟨alike_concat h.1 hid, h.2⟩
  | _ => exact ⟨h.1, alike_concat h.2 hid⟩

end ExprLang
