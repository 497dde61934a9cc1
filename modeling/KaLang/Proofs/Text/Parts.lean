import KaLang.Text.Lines
import Mathlib.Data.List.Basic

/-!
Texts in parts. No part of a text that is cut holds a separator (`not_mem_of_mem_splitAtEach`), and
parts that hold none are what their joined text is cut into (`splitAtEach_intercalate`). A text has
one line more than line breaks.
-/

namespace KaLang

variable {separator : Char} {text ahead part first : List Char} {parts more : List (List Char)}

/-- The first part of a text goes on with what is put in front of the text. -/
theorem splitAtEach_append (hahead : separator ∉ ahead)
    (htext : splitAtEach separator text = first :: more) :
    splitAtEach separator (ahead ++ text) = (ahead ++ first) :: more := by
  induction ahead with
  | nil => exact htext
  | cons char ahead ih =>
    obtain ⟨hchar, hmore⟩ := List.ne_and_not_mem_of_not_mem_cons hahead
    simp [splitAtEach, ih hmore, Ne.symm hchar]

theorem splitAtEach_of_not_mem (htext : separator ∉ text) :
    splitAtEach separator text = [text] := by
  have hparts : splitAtEach separator (text ++ []) = [text ++ []] := splitAtEach_append htext rfl
  rwa [List.append_nil] at hparts

theorem splitAtEach_append_cons (separator : Char) (ahead behind : List Char) :
    splitAtEach separator (ahead ++ separator :: behind) =
      splitAtEach separator ahead ++ splitAtEach separator behind := by
  induction ahead with
  | nil => simp [splitAtEach]
  | cons char more ih =>
    obtain ⟨part, rest, hmore⟩ := List.exists_cons_of_ne_nil (splitAtEach_ne_nil separator more)
    by_cases hchar : char = separator <;> simp [splitAtEach, hchar, ih, hmore]

/-- What is put behind a text ends its last part. -/
theorem exists_splitAtEach_append {ending : List Char} (hending : separator ∉ ending)
    (text : List Char) :
    ∃ parts last, splitAtEach separator (text ++ ending) = parts ++ [last ++ ending] := by
  induction text with
  | nil => exact ⟨[], [], splitAtEach_of_not_mem hending⟩
  | cons char text ih =>
    obtain ⟨parts, last, hparts⟩ := ih
    by_cases hchar : char = separator
    · exact ⟨[] :: parts, last, by simp [splitAtEach, hchar, hparts]⟩
    · cases parts with
      | nil => exact ⟨[], char :: last, by simpa [splitAtEach, hchar] using by simp [hparts]⟩
      | cons first parts =>
        exact ⟨(char :: first) :: parts, last, by simp [splitAtEach, hchar, hparts]⟩

/-- What holds of the separator and of all parts holds of their joined text. -/
theorem forall_mem_intercalate {α : Type} {p : α → Prop} {separator : List α}
    {items : List (List α)} (hseparator : ∀ x ∈ separator, p x)
    (hitems : ∀ item ∈ items, ∀ x ∈ item, p x) : ∀ x ∈ separator.intercalate items, p x := by
  induction items with
  | nil => simp
  | cons first more ih =>
    obtain ⟨hfirst, hmore⟩ := List.forall_mem_cons.mp hitems
    cases more with
    | nil => simpa using hfirst
    | cons second more =>
      rw [List.intercalate_cons_cons]
      exact List.forall_mem_append.mpr ⟨List.forall_mem_append.mpr ⟨hfirst, hseparator⟩, ih hmore⟩

/-- Parts that are joined by a separator are what stands between the separators again. -/
theorem splitAtEach_intercalate (hsome : parts ≠ []) (hparts : ∀ part ∈ parts, separator ∉ part) :
    splitAtEach separator ([separator].intercalate parts) = parts := by
  induction parts with
  | nil => exact absurd rfl hsome
  | cons part more ih =>
    obtain ⟨hpart, hmore⟩ := List.forall_mem_cons.mp hparts
    cases more with
    | nil => simpa using splitAtEach_of_not_mem hpart
    | cons next more =>
      rw [List.intercalate_cons_cons, List.append_assoc, List.singleton_append,
        splitAtEach_append_cons, splitAtEach_of_not_mem hpart, ih (List.cons_ne_nil _ _) hmore,
        List.singleton_append]

theorem length_splitAtEach (separator : Char) (text : List Char) :
    (splitAtEach separator text).length = text.count separator + 1 := by
  induction text with
  | nil => rfl
  | cons char text ih =>
    obtain ⟨part, more, hparts⟩ := List.exists_cons_of_ne_nil (splitAtEach_ne_nil separator text)
    rw [hparts] at ih
    by_cases hchar : char = separator <;>
      simpa [splitAtEach, hparts, hchar, List.count_cons] using ih

/-- The parts hold characters of the text, but none that separates them. -/
theorem mem_and_ne_of_mem_splitAtEach {char : Char} (hpart : part ∈ splitAtEach separator text)
    (hchar : char ∈ part) : char ∈ text ∧ char ≠ separator := by
  induction text generalizing part with
  | nil =>
    obtain rfl := List.mem_singleton.mp hpart
    cases hchar
  | cons other text ih =>
    obtain ⟨first, more, hparts⟩ := List.exists_cons_of_ne_nil (splitAtEach_ne_nil separator text)
    rw [hparts] at ih
    by_cases hother : other = separator
    · rw [splitAtEach, if_pos hother, hparts] at hpart
      rcases List.mem_cons.mp hpart with rfl | hpart
      · cases hchar
      · exact (ih hpart hchar).imp_left (List.mem_cons_of_mem other)
    · simp only [splitAtEach, if_neg hother, hparts] at hpart
      rcases List.mem_cons.mp hpart with rfl | hpart
      · rcases List.mem_cons.mp hchar with rfl | hchar
        · exact ⟨List.mem_cons_self, hother⟩
        · exact (ih List.mem_cons_self hchar).imp_left (List.mem_cons_of_mem other)
      · exact (ih (List.mem_cons_of_mem _ hpart) hchar).imp_left (List.mem_cons_of_mem other)

theorem not_mem_of_mem_splitAtEach (hpart : part ∈ splitAtEach separator text) :
    separator ∉ part :=
  fun hchar => (mem_and_ne_of_mem_splitAtEach hpart hchar).2 rfl

/-- Changing a text character by character is changing its parts, with what is put for the separator
    between them. -/
theorem flatMap_eq_intercalate (separator : Char) (change : Char → List Char) (text : List Char) :
    text.flatMap change =
      (change separator).intercalate ((splitAtEach separator text).map (List.flatMap change)) := by
  induction text with
  | nil => rfl
  | cons char text ih =>
    obtain ⟨part, more, hparts⟩ := List.exists_cons_of_ne_nil (splitAtEach_ne_nil separator text)
    rw [hparts] at ih
    by_cases hchar : char = separator
    · subst hchar
      simp [splitAtEach, hparts, ih, List.intercalate_cons_cons]
    · rw [List.flatMap_cons, ih]
      cases more <;> simp [splitAtEach, hparts, hchar, List.intercalate_cons_cons]

/-- A text is its parts with the separators between them. -/
theorem intercalate_splitAtEach (separator : Char) (text : List Char) :
    [separator].intercalate (splitAtEach separator text) = text := by
  have hsame : List.flatMap (fun char : Char => [char]) = id := funext List.flatMap_singleton'
  have hparts := flatMap_eq_intercalate separator (fun char => [char]) text
  rw [hsame, List.map_id] at hparts
  exact hparts.symm

/-! ### Lines -/

theorem textLines_of_not_mem (hreturn : '\r' ∉ text) : textLines text = splitAtEach '\n' text := by
  rw [textLines, unifyBreaks_of_not_mem hreturn]

theorem count_unifyBreaks (text : List Char) : (unifyBreaks text).count '\n' = text.count '\n' := by
  fun_induction unifyBreaks text <;> simp_all [List.count_cons]

/-- A text has one line more than line breaks. -/
theorem length_textLines (text : List Char) : (textLines text).length = text.count '\n' + 1 := by
  rw [textLines, length_splitAtEach, count_unifyBreaks]

theorem newline_not_mem_of_mem_textLines (hpart : part ∈ textLines text) : '\n' ∉ part :=
  not_mem_of_mem_splitAtEach hpart

end KaLang
