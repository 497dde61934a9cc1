import KaLang.Text.Outline
import KaLang.Proofs.Text.Parts

/-!
Outlines are told apart by their texts. A line is read back if its label is one line and starts with
no blank (`readLine_lineChars`), and the nodes below a node are those on deeper lines, up to the
next line that is no deeper (`eq_of_lines`).
-/

namespace KaLang.Outline

/-- Whether a label can stand on a line: it has no line break, and no blank in front that would
    count for its level. -/
structure IsLabel (label : String) : Prop where
  oneLine : '\n' ∉ label.toList
  start : label.toList.head? ≠ some ' '

/-- Whether all labels of an outline can stand on lines. -/
inductive Plain : Outline → Prop where
  | node {label : String} {children : List Outline} (hlabel : IsLabel label)
      (hchildren : ∀ child ∈ children, Plain child) : Plain (node label children)

variable {outline other : Outline} {level : Nat} {label : String}
  {rest more : List (Nat × String)}

/-! ### Lines -/

/-- The characters of a line without its break. -/
def lineChars (line : Nat × String) : List Char :=
  List.replicate (2 * line.1) ' ' ++ line.2.toList

/-- The level and the label on a line. -/
def readLine (line : List Char) : Nat × String :=
  ((line.takeWhile (· = ' ')).length / 2, String.ofList (line.dropWhile (· = ' ')))

theorem readLine_lineChars (level : Nat) (hlabel : IsLabel label) :
    readLine (lineChars (level, label)) = (level, label) := by
  have hblanks : ∀ char ∈ List.replicate (2 * level) ' ', decide (char = ' ') = true :=
    fun char hchar => decide_eq_true (List.eq_of_mem_replicate hchar)
  have hlater : label.toList.takeWhile (· = ' ') = [] ∧
      label.toList.dropWhile (· = ' ') = label.toList := by
    cases hchars : label.toList with
    | nil => exact ⟨rfl, rfl⟩
    | cons first chars =>
      have hfirst : first ≠ ' ' := by
        rintro rfl
        exact hlabel.start (by rw [hchars, List.head?_cons])
      simp [hfirst]
  rw [readLine, lineChars, List.takeWhile_append_of_pos hblanks,
    List.dropWhile_append_of_pos hblanks, hlater.1, hlater.2]
  simp

mutual

theorem isLabel_of_mem_lines {line : Nat × String} : (outline : Outline) → Plain outline →
    ∀ level, line ∈ lines level outline → IsLabel line.2
  | node label children, hplain, level, hline => by
    cases hplain with
    | node hlabel hchildren =>
      rw [lines] at hline
      rcases List.mem_cons.mp hline with rfl | hline
      · exact hlabel
      · exact isLabel_of_mem_linesAll children hchildren (level + 1) hline

theorem isLabel_of_mem_linesAll {line : Nat × String} : (children : List Outline) →
    (∀ child ∈ children, Plain child) → ∀ level, line ∈ linesAll level children → IsLabel line.2
  | [], _, _, hline => by
    rw [linesAll] at hline
    cases hline
  | child :: children, hplain, level, hline => by
    obtain ⟨hchild, hchildren⟩ := List.forall_mem_cons.mp hplain
    rw [linesAll] at hline
    rcases List.mem_append.mp hline with hline | hline
    · exact isLabel_of_mem_lines child hchild level hline
    · exact isLabel_of_mem_linesAll children hchildren level hline

end

/-- The text of an outline is cut into its lines. -/
theorem splitAtEach_text (hplain : Plain outline) :
    splitAtEach '\n' outline.text.toList = (outline.lines 0).map lineChars ++ [[]] := by
  have hlines : ∀ line ∈ outline.lines 0, IsLabel line.2 :=
    fun _ hline => isLabel_of_mem_lines outline hplain 0 hline
  rw [text]
  generalize outline.lines 0 = lines at hlines ⊢
  induction lines with
  | nil => simp [splitAtEach]
  | cons line lines ih =>
    obtain ⟨hline, hlater⟩ := List.forall_mem_cons.mp hlines
    have hbreak : '\n' ∉ lineChars line := by
      simp [lineChars, hline.oneLine]
    have hwritten : (writeLine line).toList = lineChars line ++ ['\n'] := by
      simp [writeLine, lineChars]
    rw [List.map_cons, String.join_cons, String.toList_append, hwritten, List.append_assoc,
      List.singleton_append, splitAtEach_append_cons, splitAtEach_of_not_mem hbreak, ih hlater]
    rfl

theorem lines_eq_of_text (houtline : Plain outline) (hother : Plain other)
    (htext : outline.text = other.text) : outline.lines 0 = other.lines 0 := by
  have hread {outline : Outline} (hplain : Plain outline) :
      ((outline.lines 0).map lineChars).map readLine = outline.lines 0 := by
    rw [List.map_map]
    refine (List.map_congr_left fun line hline => ?_).trans (List.map_id _)
    exact readLine_lineChars line.1 (isLabel_of_mem_lines outline hplain 0 hline)
  have hcut := splitAtEach_text houtline
  rw [htext, splitAtEach_text hother] at hcut
  rw [← hread houtline, ← hread hother, List.append_cancel_right hcut]

/-! ### Levels -/

theorem head?_linesAll (level : Nat) (children : List Outline)
    (hrest : ∀ line ∈ rest.head?, line.1 < level) :
    ∀ line ∈ (linesAll level children ++ rest).head?, line.1 ≤ level := by
  cases children with
  | nil => exact fun line hline => Nat.le_of_lt (hrest line hline)
  | cons child children =>
    cases child with
    | node label below =>
      rintro line ⟨⟩
      exact Nat.le_refl level

mutual

/-- A node and the nodes below it end in front of the next line that is no deeper. -/
theorem eq_of_lines : (outline other : Outline) → ∀ {level rest more},
    lines level outline ++ rest = lines level other ++ more →
    (∀ line ∈ rest.head?, line.1 ≤ level) → (∀ line ∈ more.head?, line.1 ≤ level) →
    outline = other ∧ rest = more
  | node label children, node name others, level, rest, more, hlines, hrest, hmore => by
    rw [lines, lines, List.cons_append, List.cons_append] at hlines
    obtain ⟨hline, hbelow⟩ := List.cons.inj hlines
    obtain ⟨-, rfl⟩ := Prod.mk.inj hline
    obtain ⟨rfl, hbehind⟩ := eq_of_linesAll children others hbelow
      (fun line hline => Nat.lt_succ_of_le (hrest line hline))
      (fun line hline => Nat.lt_succ_of_le (hmore line hline))
    exact ⟨rfl, hbehind⟩

/-- Nodes in a row end in front of the next line that is less deep. -/
theorem eq_of_linesAll : (children others : List Outline) → ∀ {level rest more},
    linesAll level children ++ rest = linesAll level others ++ more →
    (∀ line ∈ rest.head?, line.1 < level) → (∀ line ∈ more.head?, line.1 < level) →
    children = others ∧ rest = more
  | [], [], _, _, _, hlines, _, _ => ⟨rfl, hlines⟩
  | [], node name below :: others, level, rest, more, hlines, hrest, _ => by
    have hline := hrest (level, name) (by
      rw [linesAll, List.nil_append] at hlines
      rw [hlines]
      rfl)
    exact absurd hline (Nat.lt_irrefl level)
  | node label below :: children, [], level, rest, more, hlines, _, hmore => by
    have hline := hmore (level, label) (by
      rw [linesAll.eq_def _ [], List.nil_append] at hlines
      rw [← hlines]
      rfl)
    exact absurd hline (Nat.lt_irrefl level)
  | child :: children, other :: others, level, rest, more, hlines, hrest, hmore => by
    rw [linesAll, linesAll, List.append_assoc, List.append_assoc] at hlines
    obtain ⟨rfl, hlater⟩ := eq_of_lines child other hlines (head?_linesAll level children hrest)
      (head?_linesAll level others hmore)
    obtain ⟨rfl, hbehind⟩ := eq_of_linesAll children others hlater hrest hmore
    exact ⟨rfl, hbehind⟩

end

/-- Outlines with the same text are the same. -/
theorem eq_of_text (houtline : Plain outline) (hother : Plain other)
    (htext : outline.text = other.text) : outline = other := by
  have hlines : outline.lines 0 ++ [] = other.lines 0 ++ [] := by
    rw [lines_eq_of_text houtline hother htext]
  exact (eq_of_lines outline other hlines nofun nofun).1

end KaLang.Outline
