import ExprLang.Proofs.Parser.Limits
import ExprLang.Proofs.Places.Units

/-!
# Positions of what is parsed

Whatever a source is, every span in the answer of a parser is a true stretch of it: those
of the diagnostics, recorded or handed out, and those of the nodes.  A node that is no
unit has a stretch that is not empty, with its children inside, one behind another.

Main definitions:

- Definition {lit}`Arena.Located`: the nodes of an arena have such positions.

Main results:

- Theorem {lit}`Parser.sound_runCalls`: calls in any order leave a sound state.
- Theorem {lit}`parse_positions`: positions in the answers of a parser.
-/

namespace ExprLang

variable {text : String}

/-! ## Nodes -/

/-- Every node has a position in a text; unless it is a unit, that is not empty, and the children
of the node are inside, in order and apart from each other. -/
def Arena.Located (text : String) (a : Arena) : Prop :=
  ∀ id form, a.form? id = some form → ∃ span, a.position? id = some span ∧ span.Genuine text ∧
    (form.isUnit = false → span.start.offset < span.stop.offset ∧ a.Covers span form.children)

/-- Children in a row are inside their node, in order and apart. -/
theorem Arena.Nests.located {a : Arena} (h : a.Nests text) : a.Located text := by
  intro id form hform
  obtain ⟨span, hspan, hsuits⟩ := h.suits id form hform
  have hgenuine := h.genuine id span hspan
  refine ⟨span, hspan, hgenuine, fun hunit => ?_⟩
  obtain ⟨hlt, hrow⟩ := hsuits hunit
  exact ⟨hlt, hrow.covers h hgenuine (Nat.le_refl _) (Nat.le_refl _)⟩

/-! ## Runs -/

namespace Parser

open ParserState

variable {s t : ParserState}

/-- What is handed back was reported, or is the error that ended the parse. -/
theorem mem_records_finish {result : Except Diagnostic NodeId} {d : Diagnostic}
    (h : d ∈ (handedBack (finish s result)).records) :
    d ∈ s.report.records ∨ result = .error d := by
  cases result with
  | ok root =>
    cases herrors : s.report.hasErrors with
    | false =>
      rw [finish_of_not_hasErrors herrors] at h
      exact .inl h
    | true =>
      rw [finish_of_hasErrors herrors] at h
      exact .inl h
  | error last => exact (mem_records_recordIn h).imp_right fun he => congrArg Except.error he.symm

/-- A tree is handed back in the arena of the parse. -/
theorem arena_of_finish {result : Except Diagnostic NodeId} {p : Parsed}
    (h : finish s result = .ok p) : p.arena = s.arena := by
  cases result with
  | ok root =>
    cases herrors : s.report.hasErrors with
    | false =>
      rw [finish_of_not_hasErrors herrors] at h
      cases h
      rfl
    | true =>
      rw [finish_of_hasErrors herrors] at h
      cases h
  | error last => cases h

/-- Calls in any order leave a sound state, and fail for what is wrong in the text. -/
theorem sound_runCalls {calls : List Call} {results : List (Except Diagnostic Unit)}
    (hs : s.Sound text) (hrun : runCalls calls s = .ok (results, t)) :
    t.Sound text ∧ ∀ d, .error d ∈ results → d.span.Genuine text := by
  induction calls generalizing s results with
  | nil =>
    cases hrun
    exact ⟨hs, nofun⟩
  | cons call calls ih =>
    obtain ⟨⟨result, u⟩, hcall, hrun⟩ := exists_of_bind_eq_ok hrun
    obtain ⟨⟨rest, v⟩, hcalls, hrun⟩ := exists_of_bind_eq_ok hrun
    cases hrun
    obtain ⟨hu, hresult⟩ := (moves_call call).of_run hs hcall
    obtain ⟨hv, hrest⟩ := ih hu hcalls
    refine ⟨hv, fun d hd => ?_⟩
    rcases List.mem_cons.1 hd with hd | hd
    · exact hresult d hd.symm
    · exact hrest d hd

end Parser

/-! ## Sources -/

/-- The text of a source; of one that is out of reach nothing is known, so it has none. -/
def Source.known (source : Source) : String := source.content.toOption.getD ""

/-- A source is parsed to an answer in which all diagnostics are about stretches of the source and
all nodes have their places there. -/
theorem exists_parse_nests (e : Entry) (o : ParseOptions) (source : Source) :
    ∃ answer, parse e o source = .ok answer ∧
      (∀ d ∈ (handedBack answer).records, d.span.Genuine source.known) ∧
      ∀ p, answer = .ok p → p.arena.Nests source.known := by
  cases hcontent : source.content with
  | error message =>
    refine ⟨_, by rw [parse, hcontent]; rfl, fun d hd => ?_, fun p hp => by cases hp⟩
    cases List.mem_singleton.1 hd
    exact Span.genuine_toSpan (Point.genuine_zero _)
  | ok text =>
    have hknown : source.known = text := by rw [Source.known, hcontent]; rfl
    rw [hknown]
    obtain ⟨result, t, hrun⟩ := Parser.exists_entry_run e o source.description text
    obtain ⟨ht, hresult⟩ := (Parser.moves_entry e).of_run (ParserState.sound_ofText ..) hrun
    refine ⟨_, by rw [parse, hcontent]; exact parseText_of_run hrun, fun d hd => ?_, ?_⟩
    · exact (Parser.mem_records_finish hd).elim (ht.report d) (hresult d)
    · intro p hp
      rw [Parser.arena_of_finish hp]
      exact ht.nests

/-- Calls on a source, in any order, come back, leave a sound state and fail for what is wrong in
the source. -/
theorem exists_runCalls_sound (o : ParseOptions) (source : Source) (calls : List Parser.Call) :
    ∃ results t,
      Parser.runCalls calls (.ofText source.known source.description o) = .ok (results, t) ∧
      t.Sound source.known ∧ ∀ d, .error d ∈ results → d.span.Genuine source.known := by
  obtain ⟨results, t, hcalls, -, -⟩ := Parser.exists_runCalls calls
    (show (ParserState.ofText source.known source.description o).Valid from
      ParserState.valid_ofText)
  exact ⟨results, t, hcalls, Parser.sound_runCalls (ParserState.sound_ofText ..) hcalls⟩

/-- A source is parsed to an answer in which every diagnostic is about a stretch of the source and
every node has its place there, with its children inside.  The same is true when the rules of a
parser are called one after another, in any order, whether the calls fail or not; and an error
about the next token, which a caller may ask for at any time, is about a stretch of the source. -/
theorem parse_positions (e : Entry) (o : ParseOptions) (source : Source)
    (calls : List Parser.Call) :
    (∃ answer, parse e o source = .ok answer ∧
      (∀ d ∈ (handedBack answer).records, d.span.Genuine source.known) ∧
      ∀ p, answer = .ok p → p.arena.Located source.known) ∧
    ∃ results t,
      Parser.runCalls calls (.ofText source.known source.description o) = .ok (results, t) ∧
      (∀ d ∈ t.report.records, d.span.Genuine source.known) ∧
      (∀ d, .error d ∈ results → d.span.Genuine source.known) ∧
      (∀ expected, ∃ d, (Parser.unexpected expected).run t = .ok (.ok d, t) ∧
        d.span.Genuine source.known) ∧
      t.arena.Located source.known := by
  constructor
  · obtain ⟨answer, hparse, hrecords, hnests⟩ := exists_parse_nests e o source
    exact ⟨answer, hparse, hrecords, fun p hp => (hnests p hp).located⟩
  · obtain ⟨results, t, hcalls, ht, hresults⟩ := exists_runCalls_sound o source calls
    refine ⟨results, t, hcalls, ht.report, hresults, fun expected => ?_, ht.nests.located⟩
    exact ⟨_, by rw [Parser.run, Parser.unexpected_eq], ht.genuine_peek⟩

/-- The parenthesis before the product is consumed and is not in the product. -/
example : ((parseText .expression {} "" "(a + b) * c").toOption.bind fun answer =>
    answer.toOption.bind fun p => p.arena.position? p.root) =
      some ⟨⟨0, 1, 1⟩, ⟨0, 11, 11⟩⟩ := by
  decide +kernel

end ExprLang
