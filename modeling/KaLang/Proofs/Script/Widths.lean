import KaLang.Proofs.Script.Bodies
import KaLang.Proofs.Script.Shown
import KaLang.Proofs.Text.Parts

/-!
Scripts at different widths. The lines of a script at two widths are the same behind their
indentation (`Realigned.lines`). Where a script is laid out by what an expression looks like when it
is written, the answer is the same at every width: what is broken over lines is too long for an
array on one line even without its indentation (`Emitter.yields_expression_isWide`), and how a text
starts is told by its first line.
-/

namespace KaLang

/-- The blanks ahead of a line of a given depth, with `width` blanks to a level. -/
def blanks (width depth : Nat) : List Char := List.replicate (width * depth) ' '

/-! ### Texts with other indentation -/

/-- Whether two texts are the same but for the blanks at the start of lines, of which there are as
    many as one of two widths asks for at the depth of the line. -/
inductive Realigned (first second : Nat) : List Char → List Char → Prop where
  | nil : Realigned first second [] []
  | char (char : Char) {text other : List Char} (hmore : Realigned first second text other) :
      Realigned first second (char :: text) (char :: other)
  | line (depth : Nat) {text other : List Char} (hmore : Realigned first second text other) :
      Realigned first second ('\n' :: (blanks first depth ++ text))
        ('\n' :: (blanks second depth ++ other))

/-- Whether two lines are the same behind the indentation of one depth at two widths. -/
def SameLine (first second : Nat) (line other : List Char) : Prop :=
  ∃ depth rest, line = blanks first depth ++ rest ∧ other = blanks second depth ++ rest

theorem SameLine.refl (first second : Nat) (line : List Char) : SameLine first second line line :=
  ⟨0, line, rfl, rfl⟩

/-- A line without the blanks that it starts with. -/
def withoutIndent (line : List Char) : List Char := line.dropWhile (· = ' ')

theorem withoutIndent_blanks (width depth : Nat) (rest : List Char) :
    withoutIndent (blanks width depth ++ rest) = withoutIndent rest := by
  apply List.dropWhile_append_of_pos
  intro char hchar
  simpa using List.eq_of_mem_replicate hchar

theorem SameLine.withoutIndent_eq {first second : Nat} {line other : List Char}
    (hsame : SameLine first second line other) : withoutIndent line = withoutIndent other := by
  obtain ⟨depth, rest, rfl, rfl⟩ := hsame
  rw [withoutIndent_blanks, withoutIndent_blanks]

theorem newline_not_mem_blanks (width depth : Nat) : '\n' ∉ blanks width depth := by
  intro hmem
  cases List.eq_of_mem_replicate hmem

namespace Realigned

variable {first second : Nat} {text other more others : List Char}

theorem refl (text : List Char) : Realigned first second text text := by
  induction text with
  | nil => exact .nil
  | cons char text ih => exact .char char ih

theorem append (htext : Realigned first second text other)
    (hmore : Realigned first second more others) :
    Realigned first second (text ++ more) (other ++ others) := by
  induction htext with
  | nil => exact hmore
  | char char _ ih => exact .char char ih
  | line depth _ ih => simpa only [List.cons_append, List.append_assoc] using line depth ih

/-- The text ahead of the first line break is the same, and so is every line behind its
    indentation. -/
theorem exists_splitAtEach (htext : Realigned first second text other) :
    ∃ ahead lines otherLines, splitAtEach '\n' text = ahead :: lines ∧
      splitAtEach '\n' other = ahead :: otherLines ∧
      List.Forall₂ (SameLine first second) lines otherLines := by
  induction htext with
  | nil => exact ⟨[], [], [], rfl, rfl, .nil⟩
  | char char _ ih =>
    obtain ⟨ahead, lines, otherLines, htext, hother, hsame⟩ := ih
    by_cases hbreak : char = '\n'
    · refine ⟨[], ahead :: lines, ahead :: otherLines, ?_, ?_, .cons (.refl _ _ _) hsame⟩
      · simp [splitAtEach, hbreak, htext]
      · simp [splitAtEach, hbreak, hother]
    · refine ⟨char :: ahead, lines, otherLines, ?_, ?_, hsame⟩
      · simp [splitAtEach, hbreak, htext]
      · simp [splitAtEach, hbreak, hother]
  | line depth _ ih =>
    obtain ⟨ahead, lines, otherLines, htext, hother, hsame⟩ := ih
    have hfirst := splitAtEach_append (newline_not_mem_blanks first depth) htext
    have hsecond := splitAtEach_append (newline_not_mem_blanks second depth) hother
    exact ⟨[], _, _, by simp [splitAtEach, hfirst], by simp [splitAtEach, hsecond],
      .cons ⟨depth, ahead, rfl, rfl⟩ hsame⟩

theorem lines (htext : Realigned first second text other) :
    List.Forall₂ (SameLine first second) (splitAtEach '\n' text) (splitAtEach '\n' other) := by
  obtain ⟨ahead, lines, otherLines, htext, hother, hsame⟩ := htext.exists_splitAtEach
  rw [htext, hother]
  exact .cons (.refl _ _ _) hsame

end Realigned

theorem Layout.realigned_chars (first second : Nat) (layout : Layout) :
    Realigned first second (layout.chars first) (layout.chars second) := by
  induction layout with
  | nil => exact .nil
  | cons piece more ih =>
    cases piece with
    | text written => exact (Realigned.refl written.toList).append ih
    | newline depth => simpa [chars, Piece.render, blanks] using Realigned.line depth ih

/-- Indented lines behind a line break. -/
theorem Preamble.realigned_indented (first second : Nat) (lines : List String)
    {text other : List Char} (hmore : Realigned first second text other) :
    Realigned first second ('\n' :: ((String.join (lines.map (indented first))).toList ++ text))
      ('\n' :: ((String.join (lines.map (indented second))).toList ++ other)) := by
  induction lines with
  | nil => exact .char '\n' (by simpa using hmore)
  | cons line lines ih =>
    have hline := Realigned.line 1 ((Realigned.refl line.toList).append ih)
    simpa [indented, blanks] using hline

theorem Preamble.realigned_text (first second : Nat) :
    Realigned first second (Preamble.text first).toList (Preamble.text second).toList := by
  have hentries := realigned_indented first second entries (.refl "\x7d;\n".toList)
  have hbody := realigned_indented first second rangeBody
    ((Realigned.refl ("\x7d\nconst " ++ operatorTable ++ " = \x7b").toList).append hentries)
  have hhead : Realigned first second ("function " ++ rangeHelper ++ "(start, end) \x7b").toList
      ("function " ++ rangeHelper ++ "(start, end) \x7b").toList := .refl _
  -- With `simp [text]` the equation of `text` would be found by evaluating the table.
  delta text
  simpa using hhead.append hbody

theorem Script.realigned_text (script : Script) (first second : Nat) :
    Realigned first second (script.text first).toList (script.text second).toList := by
  simp only [Script.text, Script.body, String.toList_append, Layout.toList_render]
  exact (Preamble.realigned_text first second).append (Layout.realigned_chars first second _)

/-! ### Bytes of layouts -/

namespace Layout

variable {layout other : Layout} {items : List Layout} {width : Nat}

theorem size_append (layout other : Layout) :
    size (layout ++ other) = layout.size + other.size := by
  induction layout with
  | nil => simp [size]
  | cons piece more ih =>
    simp only [size, List.cons_append, List.foldr_cons] at ih ⊢
    omega

@[simp] theorem size_ofText (text : String) : (ofText text).size = text.utf8ByteSize := rfl

theorem isOneLine_append (layout other : Layout) :
    isOneLine (layout ++ other) = (layout.isOneLine && other.isOneLine) :=
  List.all_append

theorem render_cons (piece : Piece) (more : Layout) :
    render width (piece :: more) = piece.render width ++ render width more := by
  rw [render, List.map_cons, String.join_cons]
  rfl

/-- Indentation only adds bytes. -/
theorem size_le_utf8ByteSize (width : Nat) (layout : Layout) :
    layout.size ≤ (layout.render width).utf8ByteSize := by
  induction layout with
  | nil => exact Nat.zero_le _
  | cons piece more ih =>
    have hpiece : piece.size ≤ (piece.render width).utf8ByteSize := by
      cases piece with
      | text written => exact Nat.le_refl _
      | newline depth =>
        have hbreak : "\n".utf8ByteSize = 1 := rfl
        rw [Piece.size, Piece.render, String.utf8ByteSize_append]
        omega
    rw [render_cons, String.utf8ByteSize_append]
    exact Nat.add_le_add hpiece ih

theorem utf8ByteSize_of_isOneLine (width : Nat) (hline : layout.isOneLine = true) :
    (layout.render width).utf8ByteSize = layout.size := by
  induction layout with
  | nil => rfl
  | cons piece more ih =>
    rw [isOneLine, List.all_cons] at hline
    obtain ⟨hpiece, hmore⟩ := Bool.and_eq_true_iff.mp hline
    cases piece with
    | text written =>
      rw [render_cons, String.utf8ByteSize_append, ih hmore]
      rfl
    | newline depth => cases hpiece

/-- Whether a layout that is broken over lines has more than ten bytes without its indentation. -/
def IsWide (layout : Layout) : Prop := layout.isOneLine = false → 10 < layout.size

theorem IsWide.ofText (text : String) : (Layout.ofText text).IsWide := by
  intro hbroken
  cases hbroken

theorem IsWide.of_size (hsize : 10 < layout.size) : layout.IsWide := fun _ => hsize

theorem IsWide.append (hlayout : layout.IsWide) (hother : other.IsWide) :
    (layout ++ other).IsWide := by
  intro hbroken
  rw [isOneLine_append, Bool.and_eq_false_iff] at hbroken
  rw [size_append]
  rcases hbroken with hbroken | hbroken
  · have hsize := hlayout hbroken
    omega
  · have hsize := hother hbroken
    omega

theorem IsWide.row (hitems : ∀ item ∈ items, item.IsWide) : (Layout.row items).IsWide := by
  induction items with
  | nil => exact fun hbroken => by cases hbroken
  | cons item more ih =>
    obtain ⟨hitem, hmore⟩ := List.forall_mem_cons.mp hitems
    cases more with
    | nil => simpa [Layout.row] using hitem
    | cons second more =>
      rw [Layout.row, List.intercalate_cons_cons]
      exact (hitem.append (.ofText ", ")).append (ih hmore)

/-- What is put between items adds to their bytes. -/
theorem size_flatten_le_intercalate (separator : Layout) (items : List Layout) :
    size items.flatten ≤ size (separator.intercalate items) := by
  induction items with
  | nil => exact Nat.zero_le _
  | cons item more ih =>
    cases more with
    | nil => simp
    | cons second more =>
      rw [List.intercalate_cons_cons, List.flatten_cons, size_append, size_append, size_append]
      omega

/-- Items with more than ten bytes are more than ten bytes on lines of their own as well. -/
theorem IsWide.stacked (hsize : 10 < size items.flatten) (depth : Nat) (opening closing : String) :
    (Layout.stacked depth opening closing items).IsWide := by
  have hitems := size_flatten_le_intercalate [.text ",", .newline (depth + 1)] items
  refine .of_size ?_
  simp only [Layout.stacked, size_append]
  omega

theorem IsWide.braced (hsize : 10 < layout.size) (depth : Nat) (lines : List Layout) :
    (Layout.braced depth layout lines).IsWide := by
  refine .of_size ?_
  cases lines with
  | nil =>
    simp only [Layout.braced, size_append]
    omega
  | cons line lines =>
    simp only [Layout.braced, size_append]
    omega

theorem size_le_flatten {item : Layout} (hitem : item ∈ items) :
    item.size ≤ size items.flatten := by
  obtain ⟨ahead, behind, rfl⟩ := List.append_of_mem hitem
  rw [List.flatten_append, List.flatten_cons, size_append, size_append]
  omega

/-- Items that do not stand on one line together have more than ten bytes. -/
theorem ten_lt_size_flatten (hitems : ∀ item ∈ items, item.IsWide)
    (hstacked : ¬(items.all isOneLine && decide (size items.flatten ≤ 10)) = true) :
    10 < size items.flatten := by
  by_cases hlines : items.all isOneLine = true
  · simpa [hlines] using hstacked
  · obtain ⟨item, hitem, hbroken⟩ : ∃ item ∈ items, item.isOneLine = false := by
      simpa using hlines
    exact Nat.lt_of_lt_of_le (hitems item hitem hbroken) (size_le_flatten hitem)

/-! ### How a text starts -/

/-- A start without a line break is found on the first line, or nowhere. -/
theorem startsWith_eq_isPrefixOf {start : List Char} (hstart : '\n' ∉ start) (width : Nat)
    (layout : Layout) :
    layout.startsWith start = start.isPrefixOf (layout.render width).toList := by
  obtain ⟨rest, hchars, hrest⟩ := layout.exists_firstLine_append width
  rw [startsWith, toList_render, hchars, Bool.eq_iff_iff, List.isPrefixOf_iff_prefix,
    List.isPrefixOf_iff_prefix]
  constructor
  · exact fun hprefix => hprefix.trans (List.prefix_append _ _)
  · intro hprefix
    by_cases hlength : start.length ≤ layout.firstLine.toList.length
    · exact List.prefix_of_prefix_length_le hprefix (List.prefix_append _ _) hlength
    · -- A start that goes on behind the first line has the line break in it.
      obtain ⟨behind, rfl⟩ := List.prefix_of_prefix_length_le (List.prefix_append _ rest) hprefix
        (by omega)
      rw [List.prefix_append_right_inj] at hprefix
      cases behind with
      | nil => simp
      | cons char behind =>
        obtain ⟨later, rfl⟩ := hprefix
        have hbreak : char = '\n' := hrest char rfl
        exact absurd (List.mem_append_right _ (hbreak ▸ List.mem_cons_self)) hstart

end Layout

/-! ### Expressions -/

namespace Emitter

open Layout (IsWide)

theorem isWide_inParenthesesIf (needed : Bool) {code : Layout} (hcode : code.IsWide) :
    (inParenthesesIf needed code).IsWide := by
  cases needed with
  | true => exact (IsWide.append (.ofText "(") hcode).append (.ofText ")")
  | false => exact hcode

theorem isWide_applied (key : String) {operands : List Layout}
    (hoperands : ∀ operand ∈ operands, operand.IsWide) : (applied key operands).IsWide :=
  (IsWide.append (.ofText _) (.row hoperands)).append (.ofText ")")

theorem isWide_assigned (target : String) (op : AssignmentOperator) {value : Layout}
    (hvalue : value.IsWide) : (assigned target op value).IsWide := by
  cases op with
  | plain => exact hvalue
  | compound op =>
    apply isWide_applied
    exact List.forall_mem_cons.mpr ⟨.ofText target, List.forall_mem_singleton.mpr hvalue⟩

theorem isWide_array (depth : Nat) {items : List Layout} (hitems : ∀ item ∈ items, item.IsWide) :
    (array depth items).IsWide := by
  cases items with
  | nil => exact .ofText "[]"
  | cons item more =>
    simp only [array]
    split
    · exact (IsWide.append (.ofText "[ ") (.row hitems)).append (.ofText " ]")
    · next hstacked => exact .stacked (Layout.ten_lt_size_flatten hitems hstacked) depth "[" "]"

/-- A field has at least the quotes of its key, the colon and the blank behind it. -/
theorem four_le_size_field (key : String) (value : Layout) :
    4 ≤ (Layout.ofText (Literal.key key ++ ": ") ++ value).size := by
  have hblank : ": ".utf8ByteSize = 2 := rfl
  have hkey : 2 ≤ (Literal.key key).utf8ByteSize := by
    rw [Literal.key, ← String.utf8Len_toList, String.toList_ofList, List.cons_append,
      String.utf8Len_cons, String.utf8Len_append]
    have hquote : '"'.utf8Size = 1 := rfl
    have hclose : String.utf8Len ['"'] = 1 := rfl
    omega
  rw [Layout.size_append, Layout.size_ofText, String.utf8ByteSize_append]
  omega

theorem isWide_object (depth : Nat) {fields : List Layout}
    (hfields : ∀ field ∈ fields, field.IsWide ∧ 4 ≤ field.size) : (object depth fields).IsWide := by
  cases fields with
  | nil => exact .ofText _
  | cons first more =>
    cases more with
    | nil =>
      have hfirst := (hfields first List.mem_cons_self).1
      exact (IsWide.append (.ofText "\x7b ") hfirst).append (.ofText " \x7d")
    | cons second more =>
      have hfirst := (hfields first List.mem_cons_self).2
      have hsecond := (hfields second (by simp)).2
      have hitems := Layout.size_flatten_le_intercalate [.text ",", .newline (depth + 1)]
        (second :: more)
      have hbreak : Layout.size [.text ",", .newline (depth + 1)] = 2 := rfl
      have hopen : Layout.size (Layout.ofText "\x7b" ++ [.newline (depth + 1)]) = 2 := rfl
      rw [List.flatten_cons, Layout.size_append] at hitems
      refine .of_size ?_
      simp only [object, Layout.stacked]
      rw [Layout.size_append, Layout.size_append, Layout.size_append, hopen,
        List.intercalate_cons_cons, Layout.size_append, Layout.size_append, hbreak]
      omega

theorem ten_lt_size_signature (params : List Identifier) : 10 < (signature "" params).size := by
  have hword : "function".utf8ByteSize = 8 := rfl
  have hopen : "(".utf8ByteSize = 1 := rfl
  have hclose : ") ".utf8ByteSize = 2 := rfl
  simp only [signature, Layout.size_ofText, String.utf8ByteSize_append]
  omega

variable (env : Environment)

mutual

theorem yields_expression_isWide (depth : Nat) :
    ∀ value, Yields (expression env depth value) IsWide
  | .string _ _ | .number _ _ | .name _ _ => .pure (.ofText _)
  | .array items _ =>
    (yields_expressions_isWide (depth + 1) items).bind fun _ hitems =>
      .pure (isWide_array depth hitems)
  | .object entries _ =>
    (yields_fields_isWide (depth + 1) entries).bind fun _ hfields =>
      .pure (isWide_object depth hfields)
  | .property owner _ _ =>
    (yields_expression_isWide depth owner).bind fun _ hcode =>
      .pure (IsWide.append (isWide_inParenthesesIf _ hcode) (.ofText _))
  | .assign target op value isLocal span => by
    have hvalue := yields_expression_isWide depth value
    refine .after fun _ => ?_
    cases target.path? with
    | none => exact .fault _
    | some path =>
      exact hvalue.bind fun _ hcode =>
        .pure (IsWide.append (.ofText _) (isWide_assigned path op hcode))
  | .binary left op right _ => by
    refine (yields_expression_isWide depth left).bind fun leftCode hleft => ?_
    refine (yields_expression_isWide depth right).bind fun rightCode hright => ?_
    split
    · exact .pure (((hleft.append (.ofText "[")).append hright).append (.ofText "]"))
    · apply Yields.pure
      apply isWide_applied
      exact List.forall_mem_cons.mpr ⟨hleft, List.forall_mem_singleton.mpr hright⟩
  | .unary op operand _ =>
    (yields_expression_isWide depth operand).bind fun _ hcode =>
      .pure (isWide_applied _ (List.forall_mem_singleton.mpr hcode))
  | .lambda params (.mk body _) _ =>
    .map fun lines => .braced (ten_lt_size_signature params) depth lines
  | .call callee arguments _ =>
    (yields_expression_isWide depth callee).bind fun _ hcode =>
      (yields_expressions_isWide depth arguments).bind fun _ hargs =>
        .pure (IsWide.append (isWide_inParenthesesIf _ hcode)
          (isWide_inParenthesesIf true (.row hargs)))
  | .construct callee arguments _ =>
    (yields_expression_isWide depth callee).bind fun _ hcode =>
      (yields_expressions_isWide depth arguments).bind fun _ hargs =>
        .pure ((IsWide.append (.ofText "new ") (isWide_inParenthesesIf _ hcode)).append
          (isWide_inParenthesesIf true (.row hargs)))

theorem yields_expressions_isWide (depth : Nat) :
    ∀ items, Yields (expressions env depth items) fun codes => ∀ code ∈ codes, code.IsWide
  | [] => .pure nofun
  | item :: more =>
    (yields_expression_isWide depth item).bind fun _ hcode =>
      (yields_expressions_isWide depth more).bind fun _ hcodes =>
        .pure (List.forall_mem_cons.mpr ⟨hcode, hcodes⟩)

theorem yields_fields_isWide (depth : Nat) : ∀ entries, Yields (fields env depth entries)
    fun codes => ∀ code ∈ codes, code.IsWide ∧ 4 ≤ code.size
  | [] => .pure nofun
  | .mk key value :: more =>
    (yields_expression_isWide depth value).bind fun code hcode =>
      (yields_fields_isWide depth more).bind fun _ hcodes =>
        .pure (List.forall_mem_cons.mpr
          ⟨⟨.append (.ofText _) hcode, four_le_size_field key code⟩, hcodes⟩)

end

end Emitter

/-! ### Decisions on written text -/

namespace Written

/-- An array of items that are written already: on one line if they have at most ten bytes together,
    and else on lines of their own with `width` blanks to a level. -/
def array (width depth : Nat) (items : List String) : String :=
  if items = [] then "[]"
  else if (items.map String.utf8ByteSize).sum ≤ 10 then "[ " ++ ", ".intercalate items ++ " ]"
  else
    let indent (depth : Nat) := "\n" ++ String.ofList (blanks width depth)
    "[" ++ indent (depth + 1) ++ ("," ++ indent (depth + 1)).intercalate items ++ indent depth ++
      "]"

/-- An expression that is written already as a statement, in parentheses if it starts like a block
    or a declaration. -/
def expressionLine (code : String) : String :=
  if ['\x7b'].isPrefixOf code.toList || "function".toList.isPrefixOf code.toList then
    "(" ++ code ++ ");"
  else code ++ ";"

end Written

namespace Layout

variable {width : Nat} {items : List Layout}

theorem render_append (layout other : Layout) :
    render width (layout ++ other) = layout.render width ++ other.render width := by
  rw [← String.toList_inj, String.toList_append, toList_render, toList_render, toList_render,
    chars_append]

theorem render_ofText (text : String) : (ofText text).render width = text := by
  rw [← String.toList_inj, toList_render, chars_ofText]

theorem render_intercalate (separator : Layout) (items : List Layout) :
    render width (separator.intercalate items) =
      (separator.render width).intercalate (items.map (render width)) := by
  rw [← String.toList_inj, toList_render, chars_intercalate, String.toList_intercalate,
    toList_render, List.map_map]
  refine congrArg _ (List.map_congr_left fun item _ => ?_)
  exact (toList_render width item).symm

theorem render_newline (depth : Nat) :
    render width [.newline depth] = "\n" ++ String.ofList (blanks width depth) := by
  rw [← String.toList_inj, toList_render]
  simp [chars, Piece.render, blanks]

theorem size_flatten_of_isOneLine (hlines : ∀ item ∈ items, item.isOneLine = true) :
    ((items.map (render width)).map String.utf8ByteSize).sum = size items.flatten := by
  induction items with
  | nil => rfl
  | cons item more ih =>
    obtain ⟨hitem, hmore⟩ := List.forall_mem_cons.mp hlines
    rw [List.map_cons, List.map_cons, List.sum_cons, ih hmore, utf8ByteSize_of_isOneLine _ hitem,
      List.flatten_cons, size_append]

/-- Whether items stand on one line together is told by their bytes at any width. -/
theorem fits_iff (hitems : ∀ item ∈ items, item.IsWide) (width : Nat) :
    (items.all isOneLine && decide (size items.flatten ≤ 10)) = true ↔
      ((items.map (render width)).map String.utf8ByteSize).sum ≤ 10 := by
  by_cases hlines : ∀ item ∈ items, item.isOneLine = true
  · rw [size_flatten_of_isOneLine hlines, List.all_eq_true.mpr hlines]
    simp
  · obtain ⟨item, hitem, hbroken⟩ : ∃ item ∈ items, item.isOneLine = false := by
      simpa using hlines
    have hsize := Nat.lt_of_lt_of_le (hitems item hitem hbroken) (item.size_le_utf8ByteSize width)
    have hsum := List.single_le_sum (by simp) _
      (List.mem_map_of_mem (f := String.utf8ByteSize)
        (List.mem_map_of_mem (f := render width) hitem))
    constructor
    · intro hall
      rw [Bool.and_eq_true_iff, List.all_eq_true] at hall
      exact absurd hall.1 hlines
    · omega

end Layout

namespace Emitter

variable {width depth : Nat} {items : List Layout}

/-- An array is laid out by how its items are written. -/
theorem render_array (hitems : ∀ item ∈ items, item.IsWide) (width depth : Nat) :
    (array depth items).render width =
      Written.array width depth (items.map (Layout.render width)) := by
  cases items with
  | nil => exact Layout.render_ofText "[]"
  | cons item more =>
    have hfits := Layout.fits_iff hitems width
    rw [Written.array, if_neg (by simp)]
    simp only [array]
    by_cases hline : ((item :: more).all Layout.isOneLine &&
        decide (Layout.size (item :: more).flatten ≤ 10)) = true
    · rw [if_pos hline, if_pos (hfits.mp hline), Layout.render_append, Layout.render_append,
        Layout.row, Layout.render_intercalate]
      simp only [Layout.render_ofText]
    · have hbreak : Layout.render width [.text ",", .newline (depth + 1)] =
          "," ++ ("\n" ++ String.ofList (blanks width (depth + 1))) := by
        rw [Layout.render_cons, Layout.render_newline]
        rfl
      rw [if_neg hline, if_neg fun hsum => hline (hfits.mpr hsum)]
      simp only [Layout.stacked, Layout.render_append, Layout.render_ofText, Layout.render_newline,
        Layout.render_intercalate, hbreak]

/-- The line of an expression is told by how the expression is written. -/
theorem render_expressionLine (width : Nat) (code : Layout) :
    (expressionLine code).render width = Written.expressionLine (code.render width) := by
  have hbrace : '\n' ∉ ['\x7b'] := by decide
  have hword : '\n' ∉ "function".toList := by decide
  rw [Written.expressionLine, ← Layout.startsWith_eq_isPrefixOf hbrace,
    ← Layout.startsWith_eq_isPrefixOf hword, expressionLine]
  generalize (code.startsWith ['\x7b'] || code.startsWith "function".toList) = needed
  cases needed with
  | true =>
    simp only [inParenthesesIf, inParentheses, Layout.render_append, Layout.render_ofText,
      ↓reduceIte, String.append_assoc]
    rfl
  | false =>
    simp only [inParenthesesIf, Layout.render_append, Layout.render_ofText, Bool.false_eq_true,
      ↓reduceIte]

end Emitter

/-! ### Programs -/

/-- The whole script of a program with `width` blanks to a level. -/
def Program.scriptText (program : Program) (env : Environment) (width : Nat) :
    Except CompileError String :=
  (program.emit env).result.map fun script => script.text width

/-- The lines of a text without the blanks that they start with. -/
def lineContents (text : String) : List (List Char) :=
  (splitAtEach '\n' text.toList).map withoutIndent

theorem Realigned.map_withoutIndent {first second : Nat} {text other : List Char}
    (htext : Realigned first second text other) :
    (splitAtEach '\n' text).map withoutIndent = (splitAtEach '\n' other).map withoutIndent := by
  have hlines := htext.lines
  generalize splitAtEach '\n' text = lines, splitAtEach '\n' other = others at hlines ⊢
  induction hlines with
  | nil => rfl
  | cons hsame _ ih => rw [List.map_cons, List.map_cons, hsame.withoutIndent_eq, ih]

/-- Whatever the tree of a program is, its scripts at two widths have the same lines behind their
    indentation, or there is none at both for the same fault. Where the layout of an array and the
    parentheses around a statement are chosen by how the expressions are written at some width, that
    choice is the one that the script is built with. -/
theorem Program.scriptText_widths (program : Program) (env : Environment) (first second : Nat) :
    (program.scriptText env first).map lineContents =
        (program.scriptText env second).map lineContents ∧
      (∀ text other, program.scriptText env first = .ok text →
        program.scriptText env second = .ok other → List.Forall₂ (SameLine first second)
          (splitAtEach '\n' text.toList) (splitAtEach '\n' other.toList)) ∧
      (∀ depth items before codes after,
        (Emitter.expressions env (depth + 1) items).run before = .ok codes after →
          ∀ width, (Emitter.array depth codes).render width =
            Written.array width depth (codes.map (Layout.render width))) ∧
      ∀ code width, (Emitter.expressionLine code).render width =
        Written.expressionLine (code.render width) := by
  refine ⟨?_, ?_, ?_, fun code width => Emitter.render_expressionLine width code⟩
  · unfold scriptText
    cases (program.emit env).result with
    | error error => rfl
    | ok script => exact congrArg Except.ok (script.realigned_text first second).map_withoutIndent
  · intro text other htext hother
    unfold scriptText at htext hother
    cases hresult : (program.emit env).result with
    | error error =>
      rw [hresult] at htext
      cases htext
    | ok script =>
      rw [hresult] at htext hother
      cases htext
      cases hother
      exact (script.realigned_text first second).lines
  · intro depth items before codes after hrun width
    have hcodes := Emitter.yields_expressions_isWide env (depth + 1) items before codes after hrun
    exact Emitter.render_array hcodes width depth

/-- An array in an array is broken over lines, because its string has more than ten bytes as it is
    written. -/
theorem Program.scriptText_widths_nested :
    ∃ text other codes after,
      let item : Expression := .array [.string "a\n    bcd" ⟨.zero, .zero⟩] ⟨.zero, .zero⟩
      let program : Program := ⟨[.expression (.array [item] ⟨.zero, .zero⟩) ⟨.zero, .zero⟩],
        ⟨.zero, .zero⟩⟩
      program.scriptText {} 1 = .ok text ∧ program.scriptText {} 4 = .ok other ∧
        List.Forall₂ (SameLine 1 4) (splitAtEach '\n' text.toList)
          (splitAtEach '\n' other.toList) ∧
        (Emitter.expressions {} 1 [item]).run ⟨.start, []⟩ = .ok codes after ∧
        codes.any Layout.isOneLine = false ∧
        (Emitter.array 0 codes).render 2 =
          Written.array 2 0 (codes.map (Layout.render 2)) := by
  have hall := Program.scriptText_widths
    ⟨[.expression (.array [.array [.string "a\n    bcd" ⟨.zero, .zero⟩] ⟨.zero, .zero⟩]
      ⟨.zero, .zero⟩) ⟨.zero, .zero⟩], ⟨.zero, .zero⟩⟩ {} 1 4
  exact ⟨_, _, _, _, rfl, rfl, hall.2.1 _ _ rfl rfl, rfl, by decide,
    hall.2.2.1 0 [.array [.string "a\n    bcd" ⟨.zero, .zero⟩] ⟨.zero, .zero⟩] ⟨.start, []⟩ _ _ rfl
      2⟩

end KaLang
