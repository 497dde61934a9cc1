import KaLang.Diagnostic
import KaLang.Proofs.Token.Places
import Mathlib.Data.List.Basic

/-!
What a report shows. Every row is a line of its own, as neither what is shown of the source nor the
reason breaks it (`Diagnostic.splitAtEach_render`). A line stands over its carets behind a margin of
the same width, since no line number of a span has more digits than that of its last line; and the
carets are under what the span covers of the line, and on the span's last line up to the span's end
even where the line has ended (`Diagnostic.render_marks`).
-/

namespace KaLang

/-! ### Line numbers -/

/-- A smaller number has no more digits. -/
theorem length_toString_le {number other : Nat} (hle : number ≤ other) :
    (toString number).length ≤ (toString other).length := by
  change number.repr.length ≤ other.repr.length
  rw [← String.length_toList, ← String.length_toList, Nat.toList_repr, Nat.toList_repr]
  have hother := (Nat.length_toDigits_le_iff (by decide) Nat.length_toDigits_pos).mp
    (Nat.le_refl (Nat.toDigits 10 other).length)
  exact (Nat.length_toDigits_le_iff (by decide) Nat.length_toDigits_pos).mpr
    (Nat.lt_of_le_of_lt hle hother)

theorem newline_not_mem_toDigits (number : Nat) : '\n' ∉ Nat.toDigits 10 number := by
  intro hnewline
  cases Nat.isDigit_of_mem_toDigits (by decide) (by decide) hnewline

namespace Diagnostic

variable {lines : List (List Char)} {span : Span} {line width : Nat} {report : Report}
  {source label reason : String}

/-! ### Rows -/

@[simp] theorem toList_repeated (count : Nat) (char : Char) :
    (repeated count char).toList = List.replicate count char := by
  simp [repeated]

theorem newline_not_mem_lineText (hlines : ∀ text ∈ lines, '\n' ∉ text) :
    '\n' ∉ lineText lines line := by
  rw [lineText]
  cases htext : lines[line]? with
  | none => exact List.not_mem_nil
  | some text => exact hlines text (List.mem_of_getElem? htext)

theorem newline_not_mem_excerpt (hlines : ∀ text ∈ lines, '\n' ∉ text) :
    ∀ row ∈ excerpt lines width span line, '\n' ∉ row.toList := by
  have htext : '\n' ∉ lineText lines line := newline_not_mem_lineText hlines
  simp [excerpt, sourceRow, caretRow, htext, newline_not_mem_toDigits]

theorem newline_not_mem_excerpts (hlines : ∀ text ∈ lines, '\n' ∉ text) :
    ∀ row ∈ excerpts lines width span, '\n' ∉ row.toList := by
  have hexcerpt (line : Nat) : ∀ row ∈ excerpt lines width span line, '\n' ∉ row.toList :=
    newline_not_mem_excerpt hlines
  intro row hrow
  simp only [excerpts] at hrow
  split at hrow
  · simp only [List.mem_append, List.mem_cons, List.not_mem_nil, or_false] at hrow
    rcases hrow with (hrow | rfl | rfl | rfl) | hrow
    · exact hexcerpt _ row hrow
    · simp
    · simp
    · simp
    · exact hexcerpt _ row hrow
  · obtain ⟨line, _, hrow⟩ := List.mem_flatMap.mp hrow
    exact hexcerpt line row hrow

/-- A reason has no line breaks once they are escaped. -/
theorem ne_break_of_mem_escapeBreaks {char : Char} (hchar : char ∈ (escapeBreaks reason).toList) :
    char ≠ '\n' ∧ char ≠ '\r' := by
  rw [escapeBreaks, String.toList_ofList] at hchar
  obtain ⟨spelled, _, hchar⟩ := List.mem_flatMap.mp hchar
  split at hchar
  · rcases List.mem_pair.mp hchar with rfl | rfl <;> decide
  · rcases List.mem_pair.mp hchar with rfl | rfl <;> decide
  · next hline hreturn =>
    obtain rfl := List.mem_singleton.mp hchar
    exact ⟨hline, hreturn⟩

/-- A reason is told line by line, with its breaks spelled out. -/
theorem toList_escapeBreaks (reason : String) :
    (escapeBreaks reason).toList = "\\n".toList.intercalate ((splitAtEach '\n' reason.toList).map
      fun text => "\\r".toList.intercalate (splitAtEach '\r' text)) := by
  rw [escapeBreaks, String.toList_ofList, flatMap_eq_intercalate '\n']
  refine congrArg _ (List.map_congr_left fun text htext => ?_)
  rw [flatMap_eq_intercalate '\r']
  -- Between the breaks every character stands for itself.
  refine congrArg _ ((List.map_congr_left fun part hpart => ?_).trans (List.map_id _))
  refine (List.flatMap_congr fun char hchar => ?_).trans (List.flatMap_singleton' part)
  obtain ⟨hmem, hreturn⟩ := mem_and_ne_of_mem_splitAtEach hpart hchar
  obtain ⟨-, hline⟩ := mem_and_ne_of_mem_splitAtEach htext hmem
  split
  · exact absurd rfl hline
  · exact absurd rfl hreturn
  · rfl

theorem newline_not_mem_rows (hlabel : '\n' ∉ label.toList) :
    ∀ row ∈ rows report source label, '\n' ∉ row.toList := by
  have hstage : '\n' ∉ report.stage.label.toList := by
    cases report.stage <;> decide
  have hexcerpts (width : Nat) :
      ∀ row ∈ excerpts (textLines source.toList) width report.span, '\n' ∉ row.toList :=
    newline_not_mem_excerpts fun text => newline_not_mem_of_mem_textLines
  have hreason : '\n' ∉ (escapeBreaks report.reason).toList := fun hnewline =>
    (ne_break_of_mem_escapeBreaks hnewline).1 rfl
  intro row hrow
  simp only [rows, List.mem_append, List.mem_cons, List.not_mem_nil, or_false] at hrow
  rcases hrow with ((rfl | rfl) | hrow) | rfl
  · simp [hstage, hlabel, Position.label, newline_not_mem_toDigits]
    decide
  · simp
  · exact hexcerpts _ row hrow
  · simp [hreason]

/-- The lines of a report are its rows. -/
theorem splitAtEach_render (hlabel : '\n' ∉ label.toList) :
    splitAtEach '\n' (render report source label).toList =
      (rows report source label).map String.toList := by
  have hnewline : "\n".toList = ['\n'] := rfl
  rw [render, String.toList_intercalate, hnewline, splitAtEach_intercalate]
  · simp [rows]
  · rw [List.forall_mem_map]
    exact newline_not_mem_rows hlabel

/-! ### Lines over carets -/

theorem getElem?_carets {indent count column : Nat} :
    (List.replicate indent ' ' ++ List.replicate count '^')[column]? = some '^' ↔
      indent ≤ column ∧ column < indent + count := by
  rw [List.getElem?_append, List.length_replicate, List.getElem?_replicate,
    List.getElem?_replicate]
  split
  · next hindent =>
    simp [Nat.not_le_of_lt hindent]
  · next hindent =>
    have hiff : column - indent < count ↔ column < indent + count := by omega
    simp [Nat.le_of_not_lt hindent, hiff]

/-- The carets under a line are under what the span covers of it, and on the last line up to the
    end of the span. -/
theorem carets_iff {length column : Nat} (hfirst : span.first.line ≤ line)
    (hlast : line ≤ span.last.line) (hforward : span.first.PlaceLE span.last) :
    ((carets span line length).1 ≤ column ∧
        column < (carets span line length).1 + (carets span line length).2) ↔
      span.coversPlace line column = true ∧
        (column < length ∨ line = span.last.line ∧ column ≤ span.last.column) := by
  have hforward : span.first.line < span.last.line ∨
    span.first.line = span.last.line ∧ span.first.column ≤ span.last.column := hforward
  simp only [Span.coversPlace, Bool.and_eq_true, Bool.or_eq_true, decide_eq_true_eq]
  unfold carets
  split
  · next honly =>
    simp only [Bool.and_eq_true, decide_eq_true_eq] at honly
    omega
  · next hmore =>
    simp only [Bool.and_eq_true, decide_eq_true_eq] at hmore
    -- Of several lines, all but the last one are marked no further than their text.
    split
    · omega
    · split <;> omega

/-- Whether a line of a text is shown behind a gutter, and under it, behind a margin, what a span
    covers of the line. -/
structure Marked (lines : List (List Char)) (span : Span) (line : Nat)
    (gutter text margin under : List Char) : Prop where
  shown : lines[line]? = some text
  /-- The gutter has the number of the line. -/
  numbered : ∃ blanks, gutter =
    List.replicate blanks ' ' ++ (toString (line + 1)).toList ++ " │ ".toList
  blank : ∃ blanks, margin = List.replicate blanks ' ' ++ " │ ".toList
  aligned : gutter.length = margin.length
  only : ∀ char ∈ under, char = ' ' ∨ char = '^'
  caret_iff : ∀ column, under[column]? = some '^' ↔ span.coversPlace line column = true ∧
    (column < text.length ∨ line = span.last.line ∧ column ≤ span.last.column)

/-- Whether rows show some lines of a text in their order, each of them over its carets. -/
inductive Shows (lines : List (List Char)) (span : Span) : List Nat → List (List Char) → Prop where
  | nil : Shows lines span [] []
  | line {line : Nat} {more : List Nat} {gutter text margin under : List Char}
      {rows : List (List Char)} (hmarked : Marked lines span line gutter text margin under)
      (hmore : Shows lines span more rows) :
      Shows lines span (line :: more) ((gutter ++ text) :: (margin ++ under) :: rows)

/-- Every line under a span is shown over its carets. -/
theorem exists_marked (hforward : span.first.PlaceLE span.last) (hfirst : span.first.line ≤ line)
    (hlast : line ≤ span.last.line) (hline : line < lines.length) :
    ∃ gutter text margin under,
      (excerpt lines (toString (span.last.line + 1)).length span line).map String.toList =
        [gutter ++ text, margin ++ under] ∧
      Marked lines span line gutter text margin under := by
  have htext : lineText lines line = lines[line] := by
    simp [lineText, hline]
  have hwidth : (toString (line + 1)).length ≤ (toString (span.last.line + 1)).length :=
    length_toString_le (Nat.succ_le_succ hlast)
  generalize (toString (span.last.line + 1)).length = width at hwidth ⊢
  refine ⟨List.replicate (width - (toString (line + 1)).length + 1) ' ' ++
      (toString (line + 1)).toList ++ " │ ".toList, lines[line],
    List.replicate (width + 1) ' ' ++ " │ ".toList,
    List.replicate (carets span line lines[line].length).1 ' ' ++
      List.replicate (carets span line lines[line].length).2 '^', ?_, ?_⟩
  · simp [excerpt, sourceRow, caretRow, htext, List.replicate_succ]
  · constructor
    case shown => exact List.getElem?_eq_getElem hline
    case numbered => exact ⟨_, rfl⟩
    case blank => exact ⟨_, rfl⟩
    case aligned =>
      simp only [List.length_append, List.length_replicate, String.length_toList]
      omega
    case only =>
      intro char hchar
      rcases List.mem_append.mp hchar with hchar | hchar
      · exact .inl (List.eq_of_mem_replicate hchar)
      · exact .inr (List.eq_of_mem_replicate hchar)
    case caret_iff =>
      intro column
      rw [getElem?_carets]
      exact carets_iff hfirst hlast hforward

/-- The excerpts of some lines under a span show these lines. -/
theorem shows_flatMap_excerpt {shown : List Nat} (hforward : span.first.PlaceLE span.last)
    (hlines : span.last.line < lines.length)
    (hshown : ∀ line ∈ shown, span.first.line ≤ line ∧ line ≤ span.last.line) :
    Shows lines span shown ((shown.flatMap
      (excerpt lines (toString (span.last.line + 1)).length span)).map String.toList) := by
  induction shown with
  | nil => exact .nil
  | cons line more ih =>
    obtain ⟨⟨hfirst, hlast⟩, hmore⟩ := List.forall_mem_cons.mp hshown
    obtain ⟨gutter, text, margin, under, hrows, hmarked⟩ :=
      exists_marked hforward hfirst hlast (Nat.lt_of_le_of_lt hlast hlines)
    rw [List.flatMap_cons, List.map_append, hrows]
    exact .line hmarked (ih hmore)

/-- Whether rows show what a span covers of a text: all of its lines if there are few, and otherwise
    the first and the last one with rows between them that show nothing. -/
structure Excerpts (lines : List (List Char)) (span : Span) (rows : List (List Char)) : Prop where
  few : span.last.line - span.first.line + 1 ≤ 4 →
    Shows lines span (List.range' span.first.line (span.last.line - span.first.line + 1)) rows
  many : 4 < span.last.line - span.first.line + 1 → ∃ top gap bottom, rows = top ++ gap ++ bottom ∧
    Shows lines span [span.first.line] top ∧ Shows lines span [span.last.line] bottom ∧
    ∀ row ∈ gap, ∀ char ∈ row, char ∈ [' ', '.', '│']

theorem excerpts_toList (hforward : span.first.PlaceLE span.last)
    (hlines : span.last.line < lines.length) :
    Excerpts lines span
      ((excerpts lines (toString (span.last.line + 1)).length span).map String.toList) := by
  have hforwardLine : span.first.line ≤ span.last.line := by
    rcases hforward with hline | ⟨hline, _⟩ <;> omega
  constructor
  case few =>
    intro hfew
    have hcount : span.last.line + 1 - span.first.line =
        span.last.line - span.first.line + 1 := by omega
    have hfew : ¬ span.last.line - span.first.line + 1 > maxLines := Nat.not_lt_of_le hfew
    simp only [excerpts, if_neg hfew, hcount]
    refine shows_flatMap_excerpt hforward hlines fun line hline => ?_
    have hline := List.mem_range'_1.mp hline
    omega
  case many =>
    intro hmany
    have hshows {line : Nat} (hfirst : span.first.line ≤ line) (hlast : line ≤ span.last.line) :
        Shows lines span [line]
          ((excerpt lines (toString (span.last.line + 1)).length span line).map String.toList) := by
      rw [← List.flatMap_singleton (excerpt lines _ span)]
      exact shows_flatMap_excerpt hforward hlines
        (List.forall_mem_singleton.mpr ⟨hfirst, hlast⟩)
    have hmany : span.last.line - span.first.line + 1 > maxLines := hmany
    simp only [excerpts, if_pos hmany, List.map_append]
    refine ⟨_, _, _, rfl, hshows (Nat.le_refl _) hforwardLine, hshows hforwardLine (Nat.le_refl _),
      ?_⟩
    simp

example : excerpts [[], "ab".toList, "c".toList] 1 ⟨⟨2, 1, 1⟩, ⟨5, 2, 1⟩⟩ =
    [" 2 │ ab", "   │  ^", " 3 │ c", "   │ ^^"] := by
  decide

/-! ### Reports -/

/-- A report over a text without carriage returns shows what its span covers of the text, with
    carets under just that, and tells its reason on one last line. -/
theorem render_marks (hreturn : '\r' ∉ source.toList)
    (hlast : report.span.last.IsIn source.toList)
    (hforward : report.span.first.PlaceLE report.span.last) (hlabel : '\n' ∉ label.toList) :
    ∃ heading bar body closing,
      splitAtEach '\n' (render report source label).toList = heading :: bar :: (body ++ [closing]) ∧
      (∀ char ∈ bar, char ∈ [' ', '│']) ∧
      Excerpts (splitAtEach '\n' source.toList) report.span body ∧
      (∃ blanks, closing = List.replicate blanks ' ' ++ " └──> ".toList ++
        "\\n".toList.intercalate ((splitAtEach '\n' report.reason.toList).map fun text =>
          "\\r".toList.intercalate (splitAtEach '\r' text))) ∧
      '\n' ∉ closing ∧ '\r' ∉ closing := by
  have hline := hlast.line_lt
  have hexcerpts := excerpts_toList hforward hline
  rw [textLines_of_not_mem hreturn] at hexcerpts
  have hbreak {char : Char} (hchar : char ∈ (escapeBreaks report.reason).toList) :=
    ne_break_of_mem_escapeBreaks hchar
  rw [splitAtEach_render hlabel, rows, textLines_of_not_mem hreturn]
  refine ⟨_, _, _, _, by rw [List.map_append, List.map_append]; rfl, ?_, hexcerpts,
    ⟨(toString (report.span.last.line + 1)).length + 1, ?_⟩, ?_, ?_⟩
  · simp
  · rw [← toList_escapeBreaks]
    simp [List.replicate_succ]
  · simpa using fun hnewline => (hbreak hnewline).1 rfl
  · simpa using fun hreturn => (hbreak hreturn).2 rfl

/-- From the end of the ninth line to the end of the text, one place behind the tenth line. -/
theorem render_marks_ended :
    '\r' ∉ "\n\n\n\n\n\n\n\nab\nc".toList ∧
      (⟨12, 9, 1⟩ : Position).IsIn "\n\n\n\n\n\n\n\nab\nc".toList ∧
      (⟨9, 8, 1⟩ : Position).PlaceLE ⟨12, 9, 1⟩ ∧ '\n' ∉ "main.ka".toList ∧
      ∃ heading bar body closing,
        splitAtEach '\n' (render ⟨.parsing, "not\nhere", ⟨9, 8, 1⟩, ⟨12, 9, 1⟩⟩
          "\n\n\n\n\n\n\n\nab\nc" "main.ka").toList = heading :: bar :: (body ++ [closing]) ∧
        Excerpts (splitAtEach '\n' "\n\n\n\n\n\n\n\nab\nc".toList) ⟨⟨9, 8, 1⟩, ⟨12, 9, 1⟩⟩
          body := by
  have hreturn : '\r' ∉ "\n\n\n\n\n\n\n\nab\nc".toList := by decide
  have hlast : (⟨12, 9, 1⟩ : Position).IsIn "\n\n\n\n\n\n\n\nab\nc".toList :=
    ⟨"\n\n\n\n\n\n\n\nab\nc".toList, List.prefix_rfl, by decide⟩
  have hforward : (⟨9, 8, 1⟩ : Position).PlaceLE ⟨12, 9, 1⟩ := .inl (by decide)
  have hlabel : '\n' ∉ "main.ka".toList := by decide
  refine ⟨hreturn, hlast, hforward, hlabel, ?_⟩
  obtain ⟨heading, bar, body, closing, hrows, _, hbody, _⟩ :=
    @render_marks ⟨.parsing, "not\nhere", ⟨9, 8, 1⟩, ⟨12, 9, 1⟩⟩ _ _ hreturn hlast hforward hlabel
  exact ⟨heading, bar, body, closing, hrows, hbody⟩

end Diagnostic

end KaLang
