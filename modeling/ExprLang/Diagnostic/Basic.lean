import ExprLang.Position

/-!
# Diagnostics

A diagnostic is one problem found in a source: how grave it is, what sort it is,
where it lies and what it says.  A report collects the diagnostics of a source
in the order in which they were found.

Main definitions:

- Definition {lit}`Report.record`: adding a diagnostic.
- Definition {lit}`Report.errors` and {lit}`Report.warnings`: the diagnostics by
  severity.
-/

namespace ExprLang

/-- How grave a problem is. -/
inductive Severity where
  | warning | error
deriving DecidableEq, Repr, Inhabited

/-- A severity is written as its name. -/
instance : ToString Severity where
  toString
    | .warning => "warning"
    | .error => "error"

/-- What sort of problem it is. -/
inductive Topic where
  /-- The text does not follow the grammar. -/
  | grammar
  /-- The text follows the grammar but breaks another rule. -/
  | semantic
  /-- A type does not fit. -/
  | type
  /-- The text could not be read. -/
  | input
deriving DecidableEq, Repr, Inhabited

/-- How a topic is written. -/
instance : ToString Topic where
  toString
    | .grammar => "syntax"
    | .semantic => "semantic"
    | .type => "type"
    | .input => "i/o"

/-- A problem found in a source. -/
structure Diagnostic where
  source : String
  severity : Severity
  topic : Topic
  span : Span
  message : String
deriving DecidableEq, Repr, Inhabited

namespace Diagnostic

/-- Whether the problem is an error. -/
def isError (d : Diagnostic) : Bool := d.severity == .error

/-- A diagnostic on one line. -/
instance : ToString Diagnostic where
  toString d := s!"{d.severity}[{d.topic}]: {d.message} ({d.source}:{d.span})"

/-- The error that a source could not be read. -/
def unreadable (source message : String) : Diagnostic :=
  ⟨source, .error, .input, Span.zero, message⟩

end Diagnostic

/-- The diagnostics of one source, in the order in which they were found. -/
structure Report where
  source : String
  records : List Diagnostic
deriving DecidableEq, Repr, Inhabited

namespace Report

/-- The report without diagnostics. -/
def empty (source : String) : Report := ⟨source, []⟩

/-- The report of one diagnostic. -/
def single (d : Diagnostic) : Report := ⟨d.source, [d]⟩

/-- Adds a diagnostic. -/
def record (r : Report) (d : Diagnostic) : Report :=
  { r with records := r.records ++ [d] }

/-- The errors. -/
def errors (r : Report) : List Diagnostic := r.records.filter (·.isError)

/-- The warnings. -/
def warnings (r : Report) : List Diagnostic := r.records.filter (!·.isError)

/-- The number of errors. -/
def errorCount (r : Report) : Nat := r.errors.length

/-- Whether there is an error. -/
def hasErrors (r : Report) : Bool := r.records.any (·.isError)

/-- The number of diagnostics. -/
def size (r : Report) : Nat := r.records.length

@[simp] theorem records_record (r : Report) (d : Diagnostic) :
    (r.record d).records = r.records ++ [d] := rfl

@[simp] theorem errors_record (r : Report) (d : Diagnostic) :
    (r.record d).errors = r.errors ++ if d.isError then [d] else [] := by
  simp only [errors, record, List.filter_append]
  congr 1
  cases h : d.isError <;> simp [h]

/-- A report has no error exactly if its list of errors is empty. -/
theorem hasErrors_eq_false_iff (r : Report) : r.hasErrors = false ↔ r.errors = [] := by
  simp [hasErrors, errors]

/-- A report with one diagnostic on each line. -/
instance : ToString Report where
  toString r := String.join (r.records.map fun d => s!"{d}\n")

end Report

end ExprLang
