/-!
Laid-out text: literal text and line breaks that carry the depth of the line they start. How far a
level is indented is chosen only when the text is written (`render`), so nothing that is decided
while text is put together can depend on it.
-/

namespace KaLang

/-- A stretch of text, or a break before a line of a given depth. -/
inductive Piece where
  | text (text : String)
  | newline (depth : Nat)
deriving DecidableEq

namespace Piece

/-- Whether the piece starts no line. -/
def isText : Piece → Bool
  | text _ => true
  | newline _ => false

/-- The bytes of the piece as far as they do not depend on the indentation. -/
def size : Piece → Nat
  | text written => written.utf8ByteSize
  | newline _ => 1

/-- The piece as it is written with `width` blanks to a level. -/
def render (width : Nat) : Piece → String
  | text written => written
  | newline depth => "\n" ++ String.ofList (List.replicate (width * depth) ' ')

end Piece

/-- Pieces one behind the other. -/
abbrev Layout := List Piece

namespace Layout

/-- Text alone. -/
def ofText (text : String) : Layout := [.text text]

/-- Whether the layout starts no line. -/
def isOneLine (layout : Layout) : Bool := layout.all Piece.isText

/-- The bytes of a layout as far as they do not depend on the indentation. -/
def size (layout : Layout) : Nat := layout.foldr (fun piece rest => piece.size + rest) 0

/-- The text ahead of the first line break. -/
def firstLine (layout : Layout) : String :=
  String.join ((layout.takeWhile Piece.isText).map (Piece.render 0))

/-- Whether the first line of the layout starts with a text. -/
def startsWith (start : List Char) (layout : Layout) : Bool :=
  start.isPrefixOf layout.firstLine.toList

/-- The text of a layout with `width` blanks to a level. -/
def render (width : Nat) (layout : Layout) : String :=
  String.join (layout.map (Piece.render width))

/-- Layouts in a row with a comma and a blank between them. -/
def row (items : List Layout) : Layout :=
  List.intercalate (ofText ", ") items

/-- Layouts on lines of their own at a depth, without a break before the first. -/
def lines (depth : Nat) (items : List Layout) : Layout :=
  List.intercalate [.newline depth] items

/-- A head with lines in braces behind it. The lines are one level deeper than the head, and the
    closing brace is on the level of the head. -/
def braced (depth : Nat) (head : Layout) (items : List Layout) : Layout :=
  match items with
  | [] => head ++ ofText "\x7b\x7d"
  | _ =>
    head ++ ofText "\x7b" ++ [.newline (depth + 1)] ++ lines (depth + 1) items ++
      [.newline depth] ++ ofText "\x7d"

/-- Items in brackets on lines of their own, with commas between them. -/
def stacked (depth : Nat) (opening closing : String) (items : List Layout) : Layout :=
  ofText opening ++ [.newline (depth + 1)] ++
    List.intercalate [.text ",", .newline (depth + 1)] items ++ [.newline depth] ++
    ofText closing

end Layout

end KaLang
