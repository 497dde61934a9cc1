/-!
Texts in parts: cut at a separating character, and as lines.
-/

namespace KaLang

/-- The parts of a text between separators. There is one part more than there are separators. -/
def splitAtEach (separator : Char) : List Char → List (List Char)
  | [] => [[]]
  | char :: text =>
    if char = separator then [] :: splitAtEach separator text
    else
      match splitAtEach separator text with
      | [] => [[char]]
      | part :: more => (char :: part) :: more

theorem splitAtEach_ne_nil (separator : Char) (text : List Char) :
    splitAtEach separator text ≠ [] := by
  cases text with
  | nil => simp [splitAtEach]
  | cons char more =>
    unfold splitAtEach
    split
    · simp
    · split <;> simp

/-- A text in which every line break is a line feed alone. -/
def unifyBreaks : List Char → List Char
  | [] => []
  | '\r' :: '\n' :: text => '\n' :: unifyBreaks text
  | char :: text => char :: unifyBreaks text

theorem unifyBreaks_of_not_mem {text : List Char} (hreturn : '\r' ∉ text) :
    unifyBreaks text = text := by
  fun_induction unifyBreaks text <;> simp_all

/-- The lines of a text, without their breaks. -/
def textLines (text : List Char) : List (List Char) :=
  splitAtEach '\n' (unifyBreaks text)

end KaLang
