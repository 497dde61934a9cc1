/-!
Places in a source text. A `Position` counts what stands before a place, in bytes, lines and
columns; a `Span` is the range between two places, both of which belong to it.
-/

namespace KaLang

/-- A place in a text: how many UTF-8 bytes stand before it, how many line breaks, and how many
    characters since the last of them. -/
structure Position where
  offset : Nat
  line : Nat
  column : Nat
deriving DecidableEq

namespace Position

/-- The place before the first character. -/
def zero : Position := ⟨0, 0, 0⟩

/-- The place behind a character that stands at `p`. -/
def advance (p : Position) (c : Char) : Position :=
  if c = '\n' then ⟨p.offset + c.utf8Size, p.line + 1, 0⟩
  else ⟨p.offset + c.utf8Size, p.line, p.column + 1⟩

/-- The place behind a text that starts at `p`. -/
def after (p : Position) (text : List Char) : Position :=
  text.foldl advance p

/-- The place as people write it: line and column, both counted from one. -/
def label (p : Position) : String :=
  s!"{p.line + 1}:{p.column + 1}"

@[simp] theorem after_nil (p : Position) : p.after [] = p := rfl

@[simp] theorem after_cons (p : Position) (c : Char) (text : List Char) :
    p.after (c :: text) = (p.advance c).after text := rfl

@[simp] theorem after_append (p : Position) (text more : List Char) :
    p.after (text ++ more) = (p.after text).after more := by
  simp [after, List.foldl_append]

end Position

/-- The range of a text from its first to its last position. The last one is the place of the
    last character covered, so one character alone has a span with equal ends. -/
structure Span where
  first : Position
  last : Position
deriving DecidableEq

namespace Span

/-- The span of a single position. -/
def point (p : Position) : Span := ⟨p, p⟩

/-- The span from the start of `a` to the end of `b`. -/
def through (a b : Span) : Span := ⟨a.first, b.last⟩

/-- Whether a byte offset falls into the span. -/
def coversOffset (s : Span) (offset : Nat) : Bool :=
  s.first.offset ≤ offset && offset ≤ s.last.offset

/-- Whether a line and column fall into the span. -/
def coversPlace (s : Span) (line column : Nat) : Bool :=
  (s.first.line < line || s.first.line = line && s.first.column ≤ column) &&
    (line < s.last.line || line = s.last.line && column ≤ s.last.column)

@[simp] theorem first_through (a b : Span) : (a.through b).first = a.first := rfl

@[simp] theorem last_through (a b : Span) : (a.through b).last = b.last := rfl

end Span

end KaLang
