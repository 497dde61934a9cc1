import KaLang.Proofs.Script.Widths
import Mathlib.Data.List.TakeWhile

/-!
Layouts that differ in the names of modules alone. They are the same piece by piece, but for the
ends of import statements (`Layout.Parallel`). An import statement stands on a line of its own
inside a body, so neither the first line of an expression nor whether it has more lines depends on
the names of modules; and nothing else decides how an expression is laid out (`Layout.Twin`).
-/

namespace KaLang

/-- A name for each module, which is given by its segments. -/
abbrev Naming := List String → String

/-- A passage of a script: some text, or the end of an import statement. -/
inductive Passage where
  | fixed (text : String)
  | source (segments : List String)

namespace Passage

/-- The module that a passage names, if it names one. -/
def module? : Passage → Option (List String)
  | fixed _ => none
  | source segments => some segments

/-- The text of a passage. -/
def write (naming : Naming) : Passage → String
  | fixed text => text
  | source segments => " from \"" ++ naming segments ++ "\";"

/-- The text of passages in a row. -/
def writeAll (naming : Naming) (passages : List Passage) : String :=
  String.join (passages.map (write naming))

end Passage

namespace Layout

/-! ### First lines -/

/-- Whether two layouts have the same first line, and both have more lines or none has. -/
structure SameStart (layout other : Layout) : Prop where
  firstLine : layout.takeWhile Piece.isText = other.takeWhile Piece.isText
  isOneLine : layout.isOneLine = other.isOneLine

theorem takeWhile_of_isOneLine {layout : Layout} (hline : layout.isOneLine = true) :
    layout.takeWhile Piece.isText = layout :=
  List.takeWhile_eq_self_iff.mpr (List.all_eq_true.mp hline)

theorem takeWhile_append (layout more : Layout) :
    (layout ++ more).takeWhile Piece.isText =
      if layout.isOneLine then layout ++ more.takeWhile Piece.isText
      else layout.takeWhile Piece.isText := by
  induction layout with
  | nil => rfl
  | cons piece layout ih =>
    cases piece with
    | newline depth => rfl
    | text written =>
      have hone : isOneLine (.text written :: layout) = isOneLine layout := rfl
      rw [hone, List.cons_append, List.takeWhile_cons_of_pos rfl, ih]
      split
      · rfl
      · rw [List.takeWhile_cons_of_pos rfl]

namespace SameStart

variable {layout other more others : Layout}

theorem refl (layout : Layout) : SameStart layout layout := ⟨rfl, rfl⟩

/-- A layout on one line is the same as one with the same start. -/
theorem eq_of_isOneLine (hstart : SameStart layout other) (hline : layout.isOneLine = true) :
    layout = other := by
  have hother : other.isOneLine = true := hstart.isOneLine ▸ hline
  rw [← takeWhile_of_isOneLine hline, hstart.firstLine, takeWhile_of_isOneLine hother]

theorem append (hstart : SameStart layout other) (hmore : SameStart more others) :
    SameStart (layout ++ more) (other ++ others) where
  firstLine := by
    rw [takeWhile_append, takeWhile_append, ← hstart.isOneLine, ← hmore.firstLine]
    split
    · next hline => rw [hstart.eq_of_isOneLine hline]
    · exact hstart.firstLine
  isOneLine := by
    rw [isOneLine_append, isOneLine_append, hstart.isOneLine, hmore.isOneLine]

/-- What stands behind a line break makes no difference. -/
theorem newline (hstart : SameStart layout other) (depth : Nat) (behind others : Layout) :
    SameStart (layout ++ ([.newline depth] ++ behind)) (other ++ ([.newline depth] ++ others)) :=
  hstart.append ⟨rfl, rfl⟩

theorem startsWith (hstart : SameStart layout other) (start : List Char) :
    layout.startsWith start = other.startsWith start := by
  simp only [Layout.startsWith, Layout.firstLine, hstart.firstLine]

end SameStart

/-! ### Piece by piece -/

variable (here there : Naming)

/-- Whether two layouts are the same but for the names of modules. The modules that they name are
    given in order. -/
inductive Parallel : List (List String) → Layout → Layout → Prop where
  | nil : Parallel [] [] []
  | same {modules : List (List String)} {layout other : Layout} (piece : Piece)
      (hrest : Parallel modules layout other) : Parallel modules (piece :: layout) (piece :: other)
  | source {modules : List (List String)} {layout other : Layout} (ahead : String)
      (segments : List String) (hrest : Parallel modules layout other) :
      Parallel (segments :: modules)
        (.text (ahead ++ " from \"" ++ here segments ++ "\";") :: layout)
        (.text (ahead ++ " from \"" ++ there segments ++ "\";") :: other)

/-- Whether layouts in a row are related one by one. The modules are those of all of them. -/
inductive Rows (related : List (List String) → Layout → Layout → Prop) :
    List (List String) → List Layout → List Layout → Prop where
  | nil : Rows related [] [] []
  | cons {modules more : List (List String)} {layout other : Layout} {items others : List Layout}
      (hfirst : related modules layout other) (hrest : Rows related more items others) :
      Rows related (modules ++ more) (layout :: items) (other :: others)

/-- Whether two layouts of an expression are the same but for the names of modules behind their
    first line. -/
structure Twin (modules : List (List String)) (layout other : Layout) : Prop where
  parallel : Parallel here there modules layout other
  start : SameStart layout other

variable {here there} {modules more : List (List String)} {layout other second third : Layout}
  {items others : List Layout}

namespace Parallel

theorem refl (layout : Layout) : Parallel here there [] layout layout := by
  induction layout with
  | nil => exact nil
  | cons piece layout ih => exact same piece ih

theorem append (hlayout : Parallel here there modules layout other)
    (hmore : Parallel here there more second third) :
    Parallel here there (modules ++ more) (layout ++ second) (other ++ third) := by
  induction hlayout with
  | nil => exact hmore
  | same piece _ ih => exact same piece ih
  | source ahead segments _ ih => exact source ahead segments ih

theorem ahead (fixed : Layout) (hlayout : Parallel here there modules layout other) :
    Parallel here there modules (fixed ++ layout) (fixed ++ other) :=
  (refl fixed).append hlayout

theorem behind (hlayout : Parallel here there modules layout other) (fixed : Layout) :
    Parallel here there modules (layout ++ fixed) (other ++ fixed) := by
  have h := hlayout.append (refl fixed)
  rwa [List.append_nil] at h

/-- Such layouts are the same passages, with one name or the other for each module. -/
theorem exists_passages (hlayout : Parallel here there modules layout other) (width : Nat) :
    ∃ passages : List Passage, passages.filterMap Passage.module? = modules ∧
      layout.render width = Passage.writeAll here passages ∧
      other.render width = Passage.writeAll there passages := by
  induction hlayout with
  | nil => exact ⟨[], rfl, rfl, rfl⟩
  | same piece _ ih =>
    obtain ⟨passages, hmodules, hhere, hthere⟩ := ih
    refine ⟨.fixed (piece.render width) :: passages, hmodules, ?_, ?_⟩
    all_goals simp_all [Layout.render, Passage.writeAll, Passage.write, String.join_cons]
  | source ahead segments _ ih =>
    obtain ⟨passages, hmodules, hhere, hthere⟩ := ih
    refine ⟨.fixed ahead :: .source segments :: passages, congrArg _ hmodules, ?_, ?_⟩
    all_goals simp_all [Layout.render, Passage.writeAll, Passage.write, Piece.render,
      String.join_cons, String.append_assoc]

end Parallel

namespace Rows

variable {related wanted : List (List String) → Layout → Layout → Prop}

theorem single (hlayout : related modules layout other) :
    Rows related modules [layout] [other] := by
  have h : Rows related (modules ++ []) [layout] [other] := cons hlayout nil
  rwa [List.append_nil] at h

theorem append {second third : List Layout} (hitems : Rows related modules items others)
    (hmore : Rows related more second third) :
    Rows related (modules ++ more) (items ++ second) (others ++ third) := by
  induction hitems with
  | nil => exact hmore
  | cons hfirst _ ih =>
    rw [List.append_assoc]
    exact cons hfirst ih

theorem map {change : Layout → Layout} (hitems : Rows related modules items others)
    (hchange : ∀ modules layout other, related modules layout other →
      wanted modules (change layout) (change other)) :
    Rows wanted modules (items.map change) (others.map change) := by
  induction hitems with
  | nil => exact nil
  | cons hfirst _ ih => exact cons (hchange _ _ _ hfirst) ih

/-- Layouts that name no module are related to themselves. -/
theorem refl (hrefl : ∀ layout, related [] layout layout) (items : List Layout) :
    Rows related [] items items := by
  induction items with
  | nil => exact nil
  | cons first items ih => exact cons (hrefl first) ih

/-- What is kept by putting layouts behind each other is kept by joining them. -/
theorem intercalate (hrefl : ∀ layout, related [] layout layout)
    (happend : ∀ {modules more layout other second third}, related modules layout other →
      related more second third → related (modules ++ more) (layout ++ second) (other ++ third))
    (hitems : Rows related modules items others) (separator : Layout) :
    related modules (separator.intercalate items) (separator.intercalate others) := by
  induction hitems with
  | nil => exact hrefl []
  | cons hfirst hrest ih =>
    cases hrest with
    | nil => simpa using hfirst
    | cons hsecond hrest =>
      rw [List.intercalate_cons_cons, List.intercalate_cons_cons]
      have hseparated := happend hfirst (hrefl separator)
      rw [List.append_nil] at hseparated
      exact happend hseparated ih

end Rows

theorem Parallel.intercalate (hitems : Rows (Parallel here there) modules items others)
    (separator : Layout) :
    Parallel here there modules (separator.intercalate items) (separator.intercalate others) :=
  hitems.intercalate refl append separator

namespace Twin

theorem refl (layout : Layout) : Twin here there [] layout layout := ⟨.refl layout, .refl layout⟩

theorem append (hlayout : Twin here there modules layout other)
    (hmore : Twin here there more second third) :
    Twin here there (modules ++ more) (layout ++ second) (other ++ third) :=
  ⟨hlayout.parallel.append hmore.parallel, hlayout.start.append hmore.start⟩

theorem ahead (fixed : Layout) (hlayout : Twin here there modules layout other) :
    Twin here there modules (fixed ++ layout) (fixed ++ other) :=
  (refl fixed).append hlayout

theorem behind (hlayout : Twin here there modules layout other) (fixed : Layout) :
    Twin here there modules (layout ++ fixed) (other ++ fixed) :=
  ⟨hlayout.parallel.behind fixed, hlayout.start.append (.refl fixed)⟩

theorem intercalate (hitems : Rows (Twin here there) modules items others) (separator : Layout) :
    Twin here there modules (separator.intercalate items) (separator.intercalate others) :=
  hitems.intercalate refl append separator

/-- Lines in braces are behind the first line. -/
theorem braced (depth : Nat) (hhead : Twin here there modules layout other)
    (hitems : Rows (Parallel here there) more items others) :
    Twin here there (modules ++ more) (Layout.braced depth layout items)
      (Layout.braced depth other others) := by
  have hlines := Parallel.intercalate hitems [.newline (depth + 1)]
  cases hitems with
  | nil =>
    rw [List.append_nil]
    exact hhead.behind (ofText "\x7b\x7d")
  | cons hfirst hrest =>
    have hopen := hhead.behind (ofText "\x7b")
    constructor
    · have hbody := (hopen.parallel.behind [.newline (depth + 1)]).append hlines
      exact (hbody.behind [.newline depth]).behind (ofText "\x7d")
    · have hstart := hopen.start.newline (depth + 1)
      simp only [List.append_assoc] at hstart
      simp only [Layout.braced, List.append_assoc]
      exact hstart _ _

/-- So are items that are stacked. -/
theorem stacked (depth : Nat) (opening closing : String)
    (hitems : Rows (Twin here there) modules items others) :
    Twin here there modules (Layout.stacked depth opening closing items)
      (Layout.stacked depth opening closing others) := by
  have hlines := intercalate hitems [.text ",", .newline (depth + 1)]
  exact ((hlines.ahead _).behind _).behind _

end Twin

/-! ### Items in a row -/

theorem Rows.all_isOneLine (hitems : Rows (Twin here there) modules items others) :
    items.all isOneLine = others.all isOneLine := by
  induction hitems with
  | nil => rfl
  | cons hfirst _ ih => rw [List.all_cons, List.all_cons, ih, hfirst.start.isOneLine]

/-- Items on one line are the same. -/
theorem Rows.eq_of_isOneLine (hitems : Rows (Twin here there) modules items others)
    (hline : items.all isOneLine = true) : items = others := by
  induction hitems with
  | nil => rfl
  | cons hfirst _ ih =>
    obtain ⟨hitem, hmore⟩ := Bool.and_eq_true_iff.mp (List.all_cons.symm.trans hline)
    rw [hfirst.start.eq_of_isOneLine hitem, ih hmore]

end Layout

namespace Emitter

variable {here there : Naming} {modules more : List (List String)}
  {layout other second third : Layout} {items others : List Layout}

open Layout

theorem twin_inParentheses (hlayout : Twin here there modules layout other) :
    Twin here there modules (inParentheses layout) (inParentheses other) :=
  (hlayout.ahead (ofText "(")).behind (ofText ")")

theorem twin_inParenthesesIf (needed : Bool) (hlayout : Twin here there modules layout other) :
    Twin here there modules (inParenthesesIf needed layout) (inParenthesesIf needed other) := by
  cases needed with
  | true => exact twin_inParentheses hlayout
  | false => exact hlayout

theorem twin_applied (key : String) (hitems : Rows (Twin here there) modules items others) :
    Twin here there modules (applied key items) (applied key others) :=
  ((Twin.intercalate hitems (ofText ", ")).ahead _).behind (ofText ")")

theorem twin_assigned (target : String) (op : AssignmentOperator)
    (hlayout : Twin here there modules layout other) :
    Twin here there modules (assigned target op layout) (assigned target op other) := by
  cases op with
  | plain => exact hlayout
  | compound op =>
    have hoperands := Rows.cons (Twin.refl (ofText target)) (.single hlayout)
    exact twin_applied _ hoperands

/-- An array is on one line in both layouts or in none. -/
theorem twin_array (depth : Nat) (hitems : Rows (Twin here there) modules items others) :
    Twin here there modules (array depth items) (array depth others) := by
  have hall := hitems.all_isOneLine
  have hstacked := Twin.stacked depth "[" "]" hitems
  have hrow := ((Twin.intercalate hitems (ofText ", ")).ahead (ofText "[ ")).behind (ofText " ]")
  cases hline : items.all isOneLine with
  | true =>
    obtain rfl := hitems.eq_of_isOneLine hline
    cases hitems with
    | nil => exact .refl (ofText "[]")
    | cons =>
      simp only [array]
      split
      · exact hrow
      · exact hstacked
  | false =>
    cases hitems with
    | nil => cases hline
    | cons =>
      simp only [array, hline, ← hall, Bool.false_and, Bool.false_eq_true, ↓reduceIte]
      exact hstacked

theorem twin_object (depth : Nat) (hitems : Rows (Twin here there) modules items others) :
    Twin here there modules (object depth items) (object depth others) := by
  have hstacked := Twin.stacked depth "\x7b" "\x7d" hitems
  cases hitems with
  | nil => exact .refl (ofText "\x7b\x7d")
  | cons hfirst hrest =>
    cases hrest with
    | nil =>
      rw [List.append_nil]
      exact (hfirst.ahead (ofText "\x7b ")).behind (ofText " \x7d")
    | cons => exact hstacked

/-- An expression has parentheses as a statement in both layouts or in none. -/
theorem parallel_expressionLine (hlayout : Twin here there modules layout other) :
    Parallel here there modules (expressionLine layout) (expressionLine other) := by
  simp only [expressionLine, hlayout.start.startsWith]
  exact ((twin_inParenthesesIf _ hlayout).behind (ofText ";")).parallel

end Emitter

end KaLang
