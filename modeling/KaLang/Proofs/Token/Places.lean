import KaLang.Proofs.Text.Parts
import KaLang.Proofs.Token.Seam

/-!
Places in a text. A place is told by what stands in front of it: by its bytes, by the line breaks
among them, and by the characters since the last one (`Position.after_zero`). Of the places in one
text, the one with the smaller offset is the one on the earlier line, or on the same line and in the
earlier column (`Position.offset_le_iff_of_isIn`). Tokens start and end at places of their text, and
so do the faults of the lexer.
-/

namespace KaLang

namespace Position

variable {p a b : Position} {before more text : List Char}

/-- Whether a place is on an earlier line than another, or on the same line and not behind it. -/
def PlaceLE (a b : Position) : Prop := a.line < b.line ∨ a.line = b.line ∧ a.column ≤ b.column

theorem PlaceLE.refl (a : Position) : a.PlaceLE a := .inr ⟨rfl, Nat.le_refl _⟩

theorem PlaceLE.trans {c : Position} (hab : a.PlaceLE b) (hbc : b.PlaceLE c) : a.PlaceLE c := by
  unfold PlaceLE at *
  omega

theorem placeLE_advance (p : Position) (char : Char) : p.PlaceLE (p.advance char) := by
  unfold advance PlaceLE
  split <;> simp

theorem not_advance_placeLE (p : Position) (char : Char) : ¬ (p.advance char).PlaceLE p := by
  unfold advance PlaceLE
  split <;> simp

theorem placeLE_after (p : Position) (text : List Char) : p.PlaceLE (p.after text) := by
  induction text generalizing p with
  | nil => exact .refl p
  | cons char text ih => exact (p.placeLE_advance char).trans (ih (p.advance char))

/-- Reading on leads to a later line or column, and to a later byte. -/
theorem not_after_placeLE (p : Position) (htext : text ≠ []) : ¬ (p.after text).PlaceLE p := by
  cases text with
  | nil => exact absurd rfl htext
  | cons char text =>
    intro hback
    exact p.not_advance_placeLE char (((p.advance char).placeLE_after text).trans hback)

theorem offset_lt_after (p : Position) (htext : text ≠ []) : p.offset < (p.after text).offset := by
  cases text with
  | nil => exact absurd rfl htext
  | cons char text =>
    have hsize := char.utf8Size_pos
    rw [offset_after, String.utf8Len_cons]
    omega

/-- Whether a place is one of a text: it stands behind some of its characters, counted from the
    start. -/
def IsIn (text : List Char) (p : Position) : Prop :=
  ∃ before, before <+: text ∧ p = zero.after before

/-- In one text, offsets are ordered as lines and columns are. -/
theorem offset_le_iff_of_isIn (ha : IsIn text a) (hb : IsIn text b) :
    a.offset ≤ b.offset ↔ a.PlaceLE b := by
  obtain ⟨before, hbefore, rfl⟩ := ha
  obtain ⟨other, hother, rfl⟩ := hb
  rcases List.prefix_or_prefix_of_prefix hbefore hother with hprefix | hprefix
  · obtain ⟨more, rfl⟩ := hprefix
    rw [after_append]
    exact iff_of_true (by simp) (placeLE_after _ more)
  · obtain ⟨more, rfl⟩ := hprefix
    rw [after_append]
    by_cases hmore : more = []
    · subst hmore
      exact iff_of_true (Nat.le_refl _) (.refl _)
    · exact iff_of_false (Nat.not_le_of_lt (offset_lt_after _ hmore)) (not_after_placeLE _ hmore)

/-- The column is the number of characters behind the last line break. -/
theorem column_after (before : List Char) :
    (zero.after before).column = (before.reverse.takeWhile (· ≠ '\n')).length := by
  induction before using List.reverseRecOn with
  | nil => rfl
  | append_singleton before char ih =>
    rw [after_append, after_cons, after_nil, List.reverse_append]
    unfold advance
    by_cases hchar : char = '\n' <;> simp [hchar, ih]

/-- A place is told by the bytes in front of it, the line breaks among them, and the characters
    behind the last one. -/
theorem after_zero (before : List Char) :
    zero.after before =
      ⟨String.utf8Len before, before.count '\n',
        (before.reverse.takeWhile (· ≠ '\n')).length⟩ := by
  have hoffset : (zero.after before).offset = String.utf8Len before := by
    simp [zero]
  have hline : (zero.after before).line = before.count '\n' := by
    simp [line_after, zero]
  rw [← hoffset, ← hline, ← column_after]

/-- Every place of a text is on one of its lines. -/
theorem IsIn.line_lt (hp : p.IsIn text) : p.line < (textLines text).length := by
  obtain ⟨before, ⟨rest, rfl⟩, rfl⟩ := hp
  rw [length_textLines, List.count_append, after_zero]
  dsimp only
  omega

end Position

/-- A span between places of a text covers a place of the text by its offset if and only if it
    covers it by its line and column. -/
theorem Span.coversOffset_eq_coversPlace {text : List Char} {s : Span} {p : Position}
    (hfirst : s.first.IsIn text) (hlast : s.last.IsIn text) (hp : p.IsIn text) :
    s.coversOffset p.offset = s.coversPlace p.line p.column := by
  have hbehind := Position.offset_le_iff_of_isIn hfirst hp
  have hahead := Position.offset_le_iff_of_isIn hp hlast
  rw [Bool.eq_iff_iff]
  simp only [coversOffset, coversPlace, Bool.and_eq_true, Bool.or_eq_true, decide_eq_true_eq,
    hbehind, hahead, Position.PlaceLE]

/-- The tokens of a text start and end at places of it. -/
theorem Laid.isIn {p : Position} {before rest : List Char} {tokens : List Token}
    (hlaid : Laid p rest tokens) (hp : p = Position.zero.after before) :
    ∀ token ∈ tokens, token.span.first.IsIn (before ++ rest) ∧
      token.span.last.IsIn (before ++ rest) := by
  induction hlaid generalizing before with
  | @done p gap hgap =>
    have hend : (p.after gap).IsIn (before ++ gap) :=
      ⟨before ++ gap, List.prefix_rfl, by rw [hp, Position.after_append]⟩
    exact List.forall_mem_singleton.mpr ⟨hend, hend⟩
  | @token p gap slice rest token more hgap hslice hspan hmore ih =>
    have hlast : slice.dropLast <+: slice := List.dropLast_prefix slice
    refine List.forall_mem_cons.mpr ⟨⟨⟨before ++ gap, ?_, ?_⟩,
      ⟨before ++ gap ++ slice.dropLast, ?_, ?_⟩⟩, ?_⟩
    · exact ⟨slice ++ rest, by simp⟩
    · rw [hspan, hp, Position.after_append]
    · rw [List.append_assoc, List.prefix_append_right_inj, List.prefix_append_right_inj]
      exact hlast.trans (List.prefix_append slice rest)
    · rw [hspan, hp, Position.after_append, Position.after_append]
    · have hbehind := @ih (before ++ gap ++ slice) (by simp [hp])
      simpa using hbehind

/-- A fault lies behind some of the characters that were taken. -/
theorem LexFault.exists_place (fault : LexFault) (start : Position) (taken : List Char) :
    ∃ part, part <+: taken ∧ fault.place start taken = start.after part := by
  cases fault with
  | unknownEscape => exact ⟨taken.dropLast, taken.dropLast_prefix, rfl⟩
  | _ => exact ⟨taken, List.prefix_rfl, rfl⟩

/-- A fault lies behind some of the characters ahead. -/
theorem Cursor.exists_place_of_next {cursor after : Cursor} {error : CompileError}
    (hnext : cursor.next = (.error error, after)) :
    ∃ fault part, part <+: cursor.rest ∧ error = .lexing fault (cursor.position.after part) := by
  have hsplit := splitBlank_append false cursor.rest
  simp only [next, Prod.mk.injEq] at hnext
  obtain ⟨hresult, -⟩ := hnext
  -- What stands ahead is something blank and a lexeme; how they are split does not matter.
  generalize splitBlank false cursor.rest = split at hsplit hresult
  obtain ⟨blank, text⟩ := split
  have hread := Lexeme.read_append text
  dsimp only at hsplit hresult
  split at hresult
  · cases hresult
  · next fault _ =>
    cases hresult
    obtain ⟨part, hpart, hplace⟩ := fault.exists_place (cursor.position.after blank)
      (Lexeme.read text).taken
    refine ⟨fault, blank ++ part, ?_, by rw [hplace, Position.after_append]⟩
    rw [← hsplit, List.prefix_append_right_inj]
    exact hpart.trans ⟨_, hread⟩

end KaLang
