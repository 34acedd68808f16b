import ExprLang.Diagnostic.Snippet
import ExprLang.Proofs.Parsed.Positions
import Mathlib.Data.List.DropRight

/-!
# Underlined lines

A diagnostic is shown with the line where it begins.  If it is about a stretch of that line
there are marks below the line, behind as many blanks as the line has characters before the
stretch: as many marks as the stretch has bytes.  These are more than it has characters where
one of those takes more than one byte.

Main definitions:

- Definition {lit}`Text.IsLine`: a line of a text, between what stands before and behind it.
- Definition {lit}`Span.Marks`: a span that takes up a stretch of one line.
- Definition {lit}`Diagnostic.framed`: a diagnostic above a line with marks below it.
- Definition {lit}`Diagnostic.UnderlinesBytes`: a diagnostic with one mark for each byte.

Main results:

- Theorem {lit}`Text.getElem?_lines`: the lines of a text by their numbers.
- Theorem {lit}`Span.Genuine.exists_marks`: spans on one line take up a stretch of it.
- Theorem {lit}`parse_underlinesBytes`: the diagnostics of a parser are shown in this way.
- Theorem {lit}`exists_parseText_not_underlining`: an error with more marks than characters.
-/

namespace ExprLang

/-! ## Lines -/

namespace Text

variable {cs front line after rest : List Char} {n : Nat}

/-- A line without the carriage return that ends it. -/
def chomp : List Char → List Char
  | [] => []
  | ['\r'] => []
  | c :: cs => c :: chomp cs

/-- What is shown of a line: a carriage return at its end is a part of it only where the text
ends there, too. -/
def shown (line after : List Char) : List Char := if after = [] then line else chomp line

/-- A line of a text, which stands between two newlines or at an end of the text. -/
structure IsLine (cs front line after : List Char) : Prop where
  eq_append : cs = front ++ (line ++ after)
  newline_before : ∀ c ∈ front.getLast?, c = '\n'
  newline_not_mem : '\n' ∉ line
  newline_behind : ∀ c ∈ after.head?, c = '\n'

/-- The first line of a text that has a newline. -/
theorem firstLine_append_newline (h : '\n' ∉ line) (rest : List Char) :
    firstLine (line ++ '\n' :: rest) = (chomp line, some rest) := by
  fun_induction chomp line with
  | case1 => rfl
  | case2 => rfl
  | case3 c cs hlast ih =>
    obtain ⟨hc, hcs⟩ : '\n' ≠ c ∧ '\n' ∉ cs := by simpa using h
    have hreturn (rest' : List Char) : c = '\r' → cs ++ '\n' :: rest = '\n' :: rest' → False := by
      rintro rfl he
      cases cs with
      | nil => exact hlast rfl rfl
      | cons d ds =>
        cases he
        exact hcs (List.mem_cons_self ..)
    rw [List.cons_append, firstLine.eq_4 _ _ (fun he => hc he.symm) hreturn, ih hcs]

/-- A text without a newline is its first line. -/
theorem firstLine_of_not_mem (h : '\n' ∉ line) : firstLine line = (line, none) := by
  fun_induction firstLine line <;> simp_all

/-- The lines of a text that has a newline. -/
theorem linesWithin_append_newline (h : '\n' ∉ line) (n : Nat) (rest : List Char) :
    linesWithin (n + 1) (line ++ '\n' :: rest) = chomp line :: linesWithin n rest := by
  rw [linesWithin.eq_3 _ _ (by simp), firstLine_append_newline h]

/-- The lines of a text without a newline. -/
theorem linesWithin_of_not_mem (h : '\n' ∉ line) (hne : line ≠ []) (n : Nat) :
    linesWithin (n + 1) line = [line] := by
  rw [linesWithin.eq_3 _ _ hne, firstLine_of_not_mem h]

/-- The number of a line is the number of newlines before it. -/
theorem getElem?_linesWithin (h : IsLine cs front line after) (hne : line ++ after ≠ [])
    (hn : cs.length ≤ n) : (linesWithin n cs)[front.count '\n']? = some (shown line after) := by
  obtain ⟨rfl, hfront, hline, hafter⟩ := h
  induction n generalizing front with
  | zero =>
    rw [Nat.le_zero, List.length_eq_zero_iff, List.append_eq_nil_iff] at hn
    exact absurd hn.2 hne
  | succ n ih =>
    cases front with
    | nil =>
      cases after with
      | nil =>
        rw [List.append_nil] at hne
        simp [linesWithin_of_not_mem hline hne, shown]
      | cons c rest =>
        cases hafter c rfl
        simp [linesWithin_append_newline hline, shown]
    | cons c cs =>
      -- the text before the line ends with a newline, so it has a first line of its own
      have hmem : '\n' ∈ c :: cs := by
        have hlast := List.getLast?_eq_some_getLast (List.cons_ne_nil c cs)
        exact hfront _ hlast ▸ List.getLast_mem _
      obtain ⟨first, front, hsplit, hfirst⟩ := List.eq_append_cons_of_mem hmem
      rw [hsplit] at hfront hn ⊢
      have hlast : ∀ c ∈ front.getLast?, c = '\n' := fun c hc => hfront c (by
        rw [Option.mem_def] at hc
        simp [List.getLast?_append, List.getLast?_cons, hc])
      have hlength : (front ++ (line ++ after)).length ≤ n := by
        simp only [List.length_append, List.length_cons] at hn ⊢
        omega
      have hcount : (first ++ '\n' :: front).count '\n' = front.count '\n' + 1 := by
        simp [List.count_append, List.count_eq_zero_of_not_mem hfirst]
      rw [List.append_assoc, List.cons_append, linesWithin_append_newline hfirst, hcount,
        List.getElem?_cons_succ]
      exact ih hlast hlength

/-- The lines of a text by their numbers. -/
theorem getElem?_lines (h : IsLine cs front line after) (hne : line ++ after ≠ []) :
    (lines cs)[front.count '\n']? = some (shown line after) :=
  getElem?_linesWithin h hne (Nat.le_refl _)

/-- The bytes of a text that begins with a character. -/
theorem utf8ByteSize_ofList_cons (c : Char) (cs : List Char) :
    (String.ofList (c :: cs)).utf8ByteSize = c.utf8Size + (String.ofList cs).utf8ByteSize := by
  rw [← List.singleton_append, String.ofList_append, String.utf8ByteSize_append]
  simp

/-- A text has no more characters than bytes. -/
theorem length_le_utf8ByteSize (cs : List Char) :
    cs.length ≤ (String.ofList cs).utf8ByteSize := by
  induction cs with
  | nil => exact Nat.zero_le _
  | cons c cs ih =>
    have hpos := c.utf8Size_pos
    rw [utf8ByteSize_ofList_cons, List.length_cons]
    omega

/-- A text has as many bytes as characters if each of these takes one byte. -/
theorem utf8ByteSize_eq_length_iff (cs : List Char) :
    (String.ofList cs).utf8ByteSize = cs.length ↔ ∀ c ∈ cs, c.utf8Size = 1 := by
  induction cs with
  | nil => simp
  | cons c cs ih =>
    have hpos := c.utf8Size_pos
    have hle := length_le_utf8ByteSize cs
    rw [utf8ByteSize_ofList_cons, List.length_cons, List.forall_mem_cons, ← ih]
    omega

end Text

/-! ## Spans on one line -/

namespace Span

variable {text : String} {span : Span} {front left marked right after : List Char}

/-- A span takes up a stretch of one line of a text, with some of the line before and behind it. -/
structure Marks (text : String) (span : Span) (front left marked right after : List Char) :
    Prop where
  line : Text.IsLine text.toList front (left ++ marked ++ right) after
  start : span.start = .behind (front ++ left)
  stop : span.stop = .behind (front ++ left ++ marked)

namespace Marks

/-- The part of the line before the span has no newline, nor have the others. -/
theorem newline_not_mem (h : Marks text span front left marked right after) :
    '\n' ∉ left ∧ '\n' ∉ marked ∧ '\n' ∉ right := by
  simpa [and_assoc] using h.line.newline_not_mem

/-- The line where the span starts is the one behind the newlines before it. -/
theorem start_line (h : Marks text span front left marked right after) :
    span.start.line = front.count '\n' := by
  rw [h.start, Point.behind, List.count_append,
    List.count_eq_zero_of_not_mem h.newline_not_mem.1, Nat.add_zero]

/-- The column where the span starts is the number of characters before it on the line. -/
theorem start_column (h : Marks text span front left marked right after) :
    span.start.column = left.length := by
  have hleft : ∀ c ∈ left.reverse, (c != '\n') = true := fun c hc =>
    bne_iff_ne.2 fun he => h.newline_not_mem.1 (he ▸ List.mem_reverse.1 hc)
  have hfront : front.reverse.takeWhile (· != '\n') = [] := by
    cases hlast : front.reverse with
    | nil => rfl
    | cons c cs =>
      have hc : front.getLast? = some c := by rw [← List.head?_reverse, hlast]; rfl
      rw [h.line.newline_before c hc]
      rfl
  rw [h.start, Point.behind, List.reverse_append, List.takeWhile_append_of_pos hleft, hfront,
    List.append_nil, List.length_reverse]

/-- The length of the span is the number of bytes that it takes up. -/
theorem byteLength (h : Marks text span front left marked right after) :
    span.byteLength = (String.ofList marked).utf8ByteSize := by
  rw [Span.byteLength, h.stop, h.start]
  simp only [Point.behind, String.ofList_append, String.utf8ByteSize_append]
  omega

/-- The span stays on its line. -/
theorem lineCount (h : Marks text span front left marked right after) : span.lineCount = 1 := by
  rw [Span.lineCount, h.stop, h.start]
  simp [Point.behind, List.count_append, List.count_eq_zero_of_not_mem h.newline_not_mem.2.1]

end Marks

/-- A span of a text that is on one line takes up a stretch of that line. -/
theorem Genuine.exists_marks (h : span.Genuine text) (hline : span.lineCount = 1) :
    ∃ front left marked right after, Marks text span front left marked right after := by
  obtain ⟨before, marked, behind, htext, hstart, hstop⟩ :=
    h.start.exists_between h.stop h.offset_le
  -- the line begins behind the last newline before the span and ends with the next one
  have hbefore := List.rdropWhile_append_rtakeWhile (p := (· != '\n')) (l := before)
  have hbehind := List.takeWhile_append_dropWhile (p := (· != '\n')) (l := behind)
  have hcount : marked.count '\n' = 0 := by
    rw [Span.lineCount, hstart, hstop] at hline
    simp only [Point.behind, List.count_append] at hline
    omega
  have hnone : '\n' ∉ before.rtakeWhile (· != '\n') ++ marked ++
      behind.takeWhile (· != '\n') := by
    have hleft : '\n' ∉ before.rtakeWhile (· != '\n') := fun hmem => by
      simpa using List.mem_rtakeWhile_imp hmem
    have hright : '\n' ∉ behind.takeWhile (· != '\n') := fun hmem => by
      simpa using List.mem_takeWhile_imp hmem
    simp [hleft, hright, List.count_eq_zero.1 hcount]
  refine ⟨before.rdropWhile (· != '\n'), before.rtakeWhile (· != '\n'), marked,
    behind.takeWhile (· != '\n'), behind.dropWhile (· != '\n'),
    ⟨?_, fun c hc => ?_, hnone, fun c hc => ?_⟩, by rw [hbefore, hstart], by rw [hbefore, hstop]⟩
  · simp only [List.append_assoc]
    rw [hbehind, ← List.append_assoc, hbefore, htext, List.append_assoc]
  · obtain ⟨hne, rfl⟩ := List.mem_getLast?_eq_getLast hc
    simpa using List.rdropWhile_last_not _ _ hne
  · have hhead := List.head?_dropWhile_not (· != '\n') behind
    rw [Option.mem_def] at hc
    rw [hc] at hhead
    simpa using hhead

end Span

/-! ## Snippets -/

namespace Diagnostic

variable {d : Diagnostic} {text : String} {line front left marked right after : List Char}

/-- A diagnostic above a line, with so many marks below the line behind so many blanks. -/
def framed (d : Diagnostic) (line : List Char) (blanks marks : Nat) (colors : Bool) : String :=
  let bold := Style.bold.apply colors
  let heading := (headingStyle d.severity).apply colors s!"{d.severity}[{d.topic}]:"
  let arrow := bold "-->"
  let bar := bold "|"
  let number := toString (d.span.start.line + 1)
  let margin := Text.repeated (number.length + 1) ' '
  let indent := Text.repeated blanks ' '
  let underline := Style.boldRed.apply colors (Text.repeated marks '^')
  s!"{heading} {bold d.message}\n"
    ++ s!"{margin}{arrow} {d.source}:{d.span}\n"
    ++ s!"{margin}{bar}\n"
    ++ s!"{bold number} {bar} {String.ofList line}\n"
    ++ s!"{margin}{bar} {indent}{underline}\n\n"

/-- Without colors it can be seen how many marks there are. -/
theorem framed_inj {blanks marks marks' : Nat}
    (h : d.framed line blanks marks false = d.framed line blanks marks' false) :
    marks = marks' := by
  have hlength := congrArg String.length h
  simpa [framed, String.length_append, Text.length_repeated] using hlength

/-- A diagnostic that begins on a line of the text is shown above that line. -/
theorem snippet_of_line (h : (Text.lines text.toList)[d.span.start.line]? = some line)
    (colors : Bool) : d.snippet text colors =
      d.framed line d.span.start.column (d.underlineWidth line) colors := by
  rw [snippet, h]
  rfl

/-- If a diagnostic is about a stretch of one line and the stretch is not empty, that line is shown
and the marks below it are as many as the stretch has bytes. -/
theorem snippet_of_marks (h : d.span.Marks text front left marked right after)
    (hne : d.span.isEmpty = false) (colors : Bool) : d.snippet text colors =
      d.framed (Text.shown (left ++ marked ++ right) after) left.length
        (String.ofList marked).utf8ByteSize colors := by
  have hpos : d.span.byteLength ≠ 0 := by simpa [Span.isEmpty] using hne
  have hmarked : marked ≠ [] := fun hnil => hpos (by rw [h.byteLength, hnil]; rfl)
  have hline := Text.getElem?_lines h.line (by simp [hmarked])
  rw [← h.start_line] at hline
  rw [snippet_of_line hline, h.start_column, underlineWidth, if_pos h.lineCount,
    Nat.max_eq_left (Nat.one_le_iff_ne_zero.2 hpos), h.byteLength]

/-- If a diagnostic is about a stretch of one line, the line is shown and there is one mark below it
for each byte of the stretch, behind one blank for each character before the stretch.  The marks
are as many as the stretch has characters exactly if each of these takes one byte. -/
def UnderlinesBytes (d : Diagnostic) (text : String) : Prop :=
  d.span.isEmpty = false → d.span.lineCount = 1 →
    ∃ front left marked right after, d.span.Marks text front left marked right after ∧
      (∀ colors, d.snippet text colors =
        d.framed (Text.shown (left ++ marked ++ right) after) left.length
          (String.ofList marked).utf8ByteSize colors) ∧
      (d.snippet text false =
        d.framed (Text.shown (left ++ marked ++ right) after) left.length marked.length false ↔
          ∀ c ∈ marked, c.utf8Size = 1)

/-- What is about a genuine stretch of the text has one mark for each byte. -/
theorem underlinesBytes (h : d.span.Genuine text) : d.UnderlinesBytes text := by
  intro hne hline
  obtain ⟨front, left, marked, right, after, hmarks⟩ := h.exists_marks hline
  have hsnippet := snippet_of_marks hmarks hne
  refine ⟨front, left, marked, right, after, hmarks, hsnippet, ?_⟩
  rw [hsnippet, ← Text.utf8ByteSize_eq_length_iff]
  exact ⟨framed_inj, fun he => by rw [he]⟩

end Diagnostic

/-! ## Sources -/

/-- A source is parsed to an answer all of whose diagnostics, shown with the source, have one mark
for each byte that they are about, if that is a stretch of one line.  The same is true of the
diagnostics of calls in any order, and of an error about the next token after them. -/
theorem parse_underlinesBytes (e : Entry) (o : ParseOptions) (source : Source)
    (calls : List Parser.Call) :
    (∃ answer, parse e o source = .ok answer ∧
      ∀ d ∈ (handedBack answer).records, d.UnderlinesBytes source.known) ∧
    ∃ results t,
      Parser.runCalls calls (.ofText source.known source.description o) = .ok (results, t) ∧
      (∀ d ∈ t.report.records, d.UnderlinesBytes source.known) ∧
      (∀ d, .error d ∈ results → d.UnderlinesBytes source.known) ∧
      ∀ expected, ∃ d, (Parser.unexpected expected).run t = .ok (.ok d, t) ∧
        d.UnderlinesBytes source.known := by
  constructor
  · obtain ⟨answer, hparse, hrecords, -⟩ := exists_parse_nests e o source
    exact ⟨answer, hparse, fun d hd => Diagnostic.underlinesBytes (hrecords d hd)⟩
  · obtain ⟨results, t, hcalls, ht, hresults⟩ := exists_runCalls_sound o source calls
    refine ⟨results, t, hcalls, fun d hd => Diagnostic.underlinesBytes (ht.report d hd),
      fun d hd => Diagnostic.underlinesBytes (hresults d hd), fun expected => ?_⟩
    exact ⟨_, by rw [Parser.run, Parser.unexpected_eq],
      Diagnostic.underlinesBytes ht.genuine_peek⟩

/-- The path of the import has an accent, so that it takes up eight bytes with seven characters. -/
theorem exists_parseText_not_underlining : ∃ answer,
    parseText .unit {} "" "import \"é\\\x7bx\x7d\"" = .ok answer ∧
      ∃ d ∈ (handedBack answer).records, d.span.isEmpty = false ∧ d.span.lineCount = 1 ∧
        ∃ front left marked right after,
          d.span.Marks "import \"é\\\x7bx\x7d\"" front left marked right after ∧
          d.snippet "import \"é\\\x7bx\x7d\"" false ≠
            d.framed (Text.shown (left ++ marked ++ right) after) left.length marked.length
              false := by
  obtain ⟨answer, hanswer, hsome⟩ := exists_parseText_of_any .unit {} "import \"é\\\x7bx\x7d\""
    (fun r => r.records.any (·.span == ⟨⟨0, 7, 7⟩, ⟨0, 14, 15⟩⟩)) (by decide +kernel)
  obtain ⟨d, hd, hspan⟩ := List.any_eq_true.1 hsome
  have hspan : d.span = ⟨⟨0, 7, 7⟩, ⟨0, 14, 15⟩⟩ := eq_of_beq hspan
  have hmarks : d.span.Marks "import \"é\\\x7bx\x7d\"" [] "import ".toList
      "\"é\\\x7bx\x7d\"".toList [] [] := by
    refine ⟨⟨by decide, nofun, by decide, nofun⟩, ?_, ?_⟩
    · rw [hspan]
      decide
    · rw [hspan]
      decide
  have hne : d.span.isEmpty = false := by rw [hspan]; rfl
  refine ⟨answer, hanswer, d, hd, hne, hmarks.lineCount, _, _, _, _, _, hmarks, fun hsame => ?_⟩
  rw [Diagnostic.snippet_of_marks hmarks hne] at hsame
  exact absurd (Diagnostic.framed_inj hsame) (by decide)

end ExprLang
