import KaLang.Fault
import KaLang.Text.Lines

/-!
Diagnostics: a report over the source lines that it is about. Every line shown is followed by a
row of carets under the part of it that the report's span covers; of a span over more than four
lines only the first and the last line are shown.
-/

namespace KaLang.Diagnostic

/-- The most lines that are all shown. -/
def maxLines : Nat := 4

/-- A number of equal characters. -/
def repeated (count : Nat) (char : Char) : String :=
  String.ofList (List.replicate count char)

/-- The text of a line, which is empty behind the last one. -/
def lineText (lines : List (List Char)) (line : Nat) : List Char :=
  lines[line]?.getD []

/-- How many columns stand before the carets under a line, and how many carets there are. On the
    last line of the span they reach to its end; on every other, to the end of the line. -/
def carets (span : Span) (line length : Nat) : Nat × Nat :=
  if line = span.first.line && line = span.last.line then
    (span.first.column, span.last.column - span.first.column + 1)
  else if line = span.first.line then (span.first.column, length - span.first.column)
  else if line < span.last.line then (0, length)
  else (0, span.last.column + 1)

/-- The line with its number, under which `width` columns are kept free. -/
def sourceRow (lines : List (List Char)) (width line : Nat) : String :=
  let number := toString (line + 1)
  " " ++ repeated (width - number.length) ' ' ++ number ++ " │ " ++
    String.ofList (lineText lines line)

/-- The carets under a line. -/
def caretRow (lines : List (List Char)) (width : Nat) (span : Span) (line : Nat) : String :=
  let (indent, count) := carets span line (lineText lines line).length
  " " ++ repeated width ' ' ++ " │ " ++ repeated indent ' ' ++ repeated count '^'

/-- A line and the carets under it. -/
def excerpt (lines : List (List Char)) (width : Nat) (span : Span) (line : Nat) : List String :=
  [sourceRow lines width line, caretRow lines width span line]

/-- The rows for the lines that a span covers. -/
def excerpts (lines : List (List Char)) (width : Nat) (span : Span) : List String :=
  let first := span.first.line
  let last := span.last.line
  let pad := repeated width ' '
  if last - first + 1 > maxLines then
    excerpt lines width span first ++
      [" " ++ pad ++ " .", " " ++ pad ++ " .", " " ++ pad ++ " │"] ++
      excerpt lines width span last
  else (List.range' first (last + 1 - first)).flatMap (excerpt lines width span)

/-- A reason on one line. -/
def escapeBreaks (reason : String) : String :=
  String.ofList <| reason.toList.flatMap fun char =>
    match char with
    | '\n' => ['\\', 'n']
    | '\r' => ['\\', 'r']
    | _ => [char]

/-- The rows of a report over a source text, which is named by a label. -/
def rows (report : Report) (source label : String) : List String :=
  let lines := textLines source.toList
  let span := report.span
  let width := (toString (span.last.line + 1)).length
  let pad := repeated width ' '
  [" " ++ pad ++ "─┬─> " ++ report.stage.label ++ "Error at " ++ label ++ ":" ++ span.first.label,
      " " ++ pad ++ " │"] ++
    excerpts lines width span ++ [" " ++ pad ++ " └──> " ++ escapeBreaks report.reason]

/-- A report over a source text, which is named by a label. -/
def render (report : Report) (source label : String) : String :=
  "\n".intercalate (rows report source label)

end KaLang.Diagnostic
