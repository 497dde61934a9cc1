/-!
Outlines: labelled trees, written with one node on each line and two blanks for each level.
-/

namespace KaLang

/-- A label with the nodes below it. -/
inductive Outline where
  | node (label : String) (children : List Outline)

namespace Outline

/-- A label with nothing below it. -/
def leaf (label : String) : Outline := node label []

mutual

/-- The lines of an outline, each with its level, from a given level on. -/
def lines (level : Nat) : Outline → List (Nat × String)
  | node label children => (level, label) :: linesAll (level + 1) children

/-- The lines of several outlines one below the other. -/
def linesAll (level : Nat) : List Outline → List (Nat × String)
  | [] => []
  | child :: more => lines level child ++ linesAll level more

end

/-- A line as it is written. -/
def writeLine (line : Nat × String) : String :=
  String.ofList (List.replicate (2 * line.1) ' ') ++ line.2 ++ "\n"

/-- The outline as text. -/
def text (outline : Outline) : String :=
  String.join ((outline.lines 0).map writeLine)

end Outline

end KaLang
