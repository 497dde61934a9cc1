import KaLang.Text.Quoted
import Mathlib.Data.List.Basic

/-!
Texts in quotes are told apart by what is written. Each character is written so that it can be read
off the front of any text (`next?_escape`), and none is written with a quotation mark in front, so
the mark behind a text ends it (`unquote_chars`). No line break is written.
-/

namespace KaLang.Quoted

variable {char : Char} {text rest : List Char}

/-! ### Hexadecimal digits -/

/-- The value of a hexadecimal digit. -/
def digitValue (digit : Char) : Nat :=
  if digit.isDigit then digit.toNat - '0'.toNat else digit.toNat - 'a'.toNat + 10

/-- The number that is written in hexadecimal digits. -/
def hexadecimal (digits : List Char) : Nat :=
  digits.foldl (fun value digit => 16 * value + digitValue digit) 0

theorem digitValue_digitChar : ∀ digit < 16, digitValue digit.digitChar = digit := by
  decide

theorem hexadecimal_toDigits (number : Nat) : hexadecimal (Nat.toDigits 16 number) = number := by
  induction number using Nat.strongRecOn with
  | ind number ih =>
    by_cases hsmall : number < 16
    · rw [Nat.toDigits_of_lt_base hsmall]
      simpa [hexadecimal] using digitValue_digitChar number hsmall
    · have hvalue := ih (number / 16) (by omega)
      have hlast := digitValue_digitChar (number % 16) (by omega)
      rw [hexadecimal] at hvalue
      rw [Nat.toDigits_of_base_le (by decide) (by omega), hexadecimal, List.foldl_append, hvalue,
        List.foldl_cons, List.foldl_nil, hlast]
      omega

theorem exists_digit_of_mem_toDigits {number : Nat} (hchar : char ∈ Nat.toDigits 16 number) :
    ∃ digit < 16, char = Nat.digitChar digit := by
  induction number using Nat.strongRecOn with
  | ind number ih =>
    by_cases hsmall : number < 16
    · rw [Nat.toDigits_of_lt_base hsmall] at hchar
      exact ⟨number, hsmall, List.mem_singleton.mp hchar⟩
    · rw [Nat.toDigits_of_base_le (by decide) (by omega)] at hchar
      rcases List.mem_append.mp hchar with hchar | hchar
      · exact ih (number / 16) (by omega) hchar
      · exact ⟨number % 16, by omega, List.mem_singleton.mp hchar⟩

/-- A sign that is no digit of the sixteen stands in no number. -/
theorem not_mem_toDigits (hchar : ∀ digit < 16, char ≠ Nat.digitChar digit) (number : Nat) :
    char ∉ Nat.toDigits 16 number := by
  intro hmem
  obtain ⟨digit, hdigit, heq⟩ := exists_digit_of_mem_toDigits hmem
  exact hchar digit hdigit heq

/-! ### Reading back -/

/-- The character that is written in front of a text, and the text behind it. -/
def next? : List Char → Option (Char × List Char)
  | '\\' :: 'u' :: '\x7b' :: text =>
    some (Char.ofNat (hexadecimal (text.takeWhile (· ≠ '\x7d'))),
      (text.dropWhile (· ≠ '\x7d')).tail)
  | '\\' :: '0' :: text => some ('\x00', text)
  | '\\' :: 't' :: text => some ('\t', text)
  | '\\' :: 'r' :: text => some ('\r', text)
  | '\\' :: 'n' :: text => some ('\n', text)
  | '\\' :: char :: text => some (char, text)
  | '"' :: _ => none
  | char :: text => some (char, text)
  | [] => none

theorem next?_escape (char : Char) (rest : List Char) :
    next? (escape char ++ rest) = some (char, rest) := by
  unfold escape
  split
  · rfl
  · rfl
  · rfl
  · rfl
  · rfl
  · rfl
  · next hnull htab hreturn hnewline hquote hslash =>
    split
    · have hbrace : '\x7d' ∉ Nat.toDigits 16 char.toNat := not_mem_toDigits (by decide) _
      have hdigits : ∀ digit ∈ Nat.toDigits 16 char.toNat, decide (digit ≠ '\x7d') = true :=
        fun digit hdigit => decide_eq_true fun heq => hbrace (heq ▸ hdigit)
      have hwritten : byNumber char ++ rest =
          '\\' :: 'u' :: '\x7b' :: (Nat.toDigits 16 char.toNat ++ '\x7d' :: rest) := by
        simp [byNumber]
      rw [hwritten, next?, List.takeWhile_append_of_pos hdigits,
        List.dropWhile_append_of_pos hdigits]
      simp [hexadecimal_toDigits]
    · unfold next?
      split <;> simp_all

theorem newline_not_mem_escape (char : Char) : '\n' ∉ escape char := by
  by_cases hchar : char = '\n'
  · subst hchar
    decide
  · have hdigits : '\n' ∉ Nat.toDigits 16 char.toNat := not_mem_toDigits (by decide) _
    unfold escape
    split <;> first | decide | (split <;> simp [byNumber, hdigits, Ne.symm hchar])

theorem escape_ne_nil (char : Char) : escape char ≠ [] := by
  intro hnone
  have hread := next?_escape char []
  rw [hnone] at hread
  cases hread

/-- The text that is written in front of a quotation mark, read a number of characters on. -/
def unescape : Nat → List Char → List Char
  | 0, _ => []
  | count + 1, text =>
    match next? text with
    | some (char, rest) => char :: unescape count rest
    | none => []

/-- The text that is written in quotes. -/
def unquote (text : List Char) : List Char := unescape text.length text.tail

theorem unescape_flatMap {count : Nat} (hcount : text.length < count) :
    unescape count (text.flatMap escape ++ '"' :: rest) = text := by
  induction text generalizing count with
  | nil =>
    cases count with
    | zero => rfl
    | succ count => rfl
  | cons char text ih =>
    cases count with
    | zero => contradiction
    | succ count =>
      rw [List.flatMap_cons, List.append_assoc, unescape, next?_escape]
      exact congrArg (char :: ·) (ih (Nat.lt_of_succ_lt_succ hcount))

theorem length_le_flatMap (text : List Char) : text.length ≤ (text.flatMap escape).length := by
  induction text with
  | nil => exact Nat.le_refl 0
  | cons char text ih =>
    have hsome := List.length_pos_iff.mpr (escape_ne_nil char)
    rw [List.flatMap_cons, List.length_append, List.length_cons]
    omega

/-- What is written in quotes is read back, whatever stands behind it. -/
theorem unquote_chars (text rest : List Char) : unquote (chars text ++ rest) = text := by
  have hlength := length_le_flatMap text
  have hwritten : chars text ++ rest = '"' :: (text.flatMap escape ++ '"' :: rest) := by
    simp [chars]
  rw [unquote, hwritten, List.tail_cons]
  refine unescape_flatMap ?_
  simp only [List.length_cons, List.length_append]
  omega

theorem newline_not_mem_chars (text : List Char) : '\n' ∉ chars text := by
  simp [chars, newline_not_mem_escape]

theorem newline_not_mem_quote (text : String) : '\n' ∉ (quote text).toList := by
  simp [quote, newline_not_mem_chars]

theorem unquote_append (text rest : String) :
    String.ofList (unquote (quote text ++ rest).toList) = text := by
  rw [quote, String.toList_append, String.toList_ofList, unquote_chars, String.ofList_toList]

theorem unquote_quote (text : String) : String.ofList (unquote (quote text).toList) = text := by
  have hread := unquote_append text ""
  rwa [String.append_empty] at hread

end KaLang.Quoted
