import KaLang.Proofs.Script.References
import Mathlib.Algebra.Field.Rat
import Mathlib.Tactic.FieldSimp
import Mathlib.Tactic.Ring

/-!
Number literals of scripts, found and read by the rules of JavaScript alone. A number of a program
is digits, perhaps with a point and more digits behind it, whatever the first one is. In a script
the same text may be no literal: strict code has no decimal literal with a superfluous zero in
front, and takes a point right behind digits as that of a fraction. `Numeral.reading` tells what is
read where a number is written, and `NumberLiteral.Ahead` that the literals of a text are those of
given numbers, whatever property is taken of it; this is kept by texts in a row.
-/

namespace KaLang

open Scanner (Mode isQuiet)

/-! ### Numbers -/

/-- A number as it is written in a program, and whether a property of it is taken right behind. -/
structure Numeral where
  text : String
  pointed : Bool
deriving DecidableEq

namespace Numeral

/-- What a number stands for: its digits in a row, of which those behind the point count less. -/
def value (numeral : Numeral) : ℚ :=
  let places := (numeral.text.toList.dropWhile Char.isDigit).tail.length
  (Nat.ofDigitChars 10 (numeral.text.toList.filter Char.isDigit) 0 : ℚ) / 10 ^ places

/-- Whether there is a zero in front of another digit. -/
def startsPadded : List Char → Bool
  | '0' :: next :: _ => next.isDigit
  | _ => false

/-- Whether a number is read in a script as it is meant: it has no superfluous zero in front, and if
    a property of it is taken, a fraction. -/
def isKept (numeral : Numeral) : Bool :=
  !startsPadded numeral.text.toList && (!numeral.pointed || '.' ∈ numeral.text.toList)

/-- What is read in a script where a number is written. -/
def reading (numeral : Numeral) : Option ℚ :=
  if numeral.isKept then some numeral.value else none

end Numeral

namespace NumberLiteral

/-! ### Literals in texts -/

/-- The integer part of a decimal literal in strict code: a zero alone, or digits that do not start
    with one. -/
def integer? : List Char → Option Nat
  | [] => none
  | '0' :: _ :: _ => none
  | digits => some (Nat.ofDigitChars 10 digits 0)

/-- Whether a word starts here. No word may do so right behind a number literal. -/
def startsWord (text : List Char) : Bool := text.head?.any fun char => isWordChar char || char = '$'

/-- What stands behind the integer part of a decimal literal: a point with the digits of a fraction,
    of which there may be none, or nothing. -/
def fraction? : List Char → Option ℚ
  | '.' :: rest =>
    let digits := rest.takeWhile Char.isDigit
    if startsWord (rest.dropWhile Char.isDigit) then none
    else some ((Nat.ofDigitChars 10 digits 0 : ℚ) / 10 ^ digits.length)
  | rest => if startsWord rest then none else some 0

/-- The number that a decimal literal at the head of a text stands for, if there is one. Exponents
    and separators are left out. -/
def value? (text : List Char) : Option ℚ :=
  (integer? (text.takeWhile Char.isDigit)).bind fun whole =>
    (fraction? (text.dropWhile Char.isDigit)).map (whole + ·)

/-- Whether a character goes on a word or a number. -/
def isInner (char : Char) : Bool := isWordChar char || char = '$' || char = '.'

/-- Whether a scanner stands outside all strings and templates. -/
def isOutside : Mode → Bool
  | .code | .slash => true
  | _ => false

/-- What of a text stands outside all strings and templates, and the marks of these. -/
def outside (mode : Mode) : List Char → List Char
  | [] => []
  | char :: text =>
    let next := mode.step char
    if isOutside mode || isOutside next then char :: outside next text else outside next text

/-- The stretches of characters that go on words and numbers, as far as they start with a digit. -/
def numbers (text : List Char) : List (List Char) :=
  (text.splitOnP fun char => !isInner char).filter fun word => word.head?.any Char.isDigit

/-- The number literals of a text, each with what stands right behind it. -/
def literals (text : List Char) : List (List Char) := numbers (outside .code text)

/-- What the number literals of a text stand for. -/
def values (text : List Char) : List (Option ℚ) := (literals text).map value?

variable {text more behind : List Char} {mode : Mode} {char : Char}

/-! ### Texts in a row -/

theorem outside_append (mode : Mode) (text more : List Char) :
    outside mode (text ++ more) = outside mode text ++ outside (mode.run text) more := by
  induction text generalizing mode with
  | nil => rfl
  | cons char text ih =>
    simp only [List.cons_append, outside, ih, Mode.run_cons]
    split <;> rfl

theorem outside_quiet (htext : ∀ char ∈ text, isQuiet char = true) : outside .code text = text := by
  induction text with
  | nil => rfl
  | cons char text ih =>
    obtain ⟨hchar, htext⟩ := List.forall_mem_cons.mp htext
    have hstep : Mode.code.step char = .code := by
      have hrun := Mode.run_quiet (List.forall_mem_singleton.mpr hchar)
      exact hrun
    rw [outside, hstep, ih htext]
    rfl

theorem numbers_append_cons (hchar : isInner char = false) (text more : List Char) :
    numbers (text ++ char :: more) = numbers text ++ numbers more := by
  rw [numbers, List.splitOnP_append_cons _ _ (by simp [hchar]), List.filter_append]
  rfl

theorem numbers_cons (hchar : isInner char = false) (text : List Char) :
    numbers (char :: text) = numbers text := by
  simpa [numbers] using numbers_append_cons hchar [] text

/-- A stretch is one number or none. -/
theorem numbers_inner (htext : ∀ char ∈ text, isInner char = true) :
    numbers text = if text.head?.any Char.isDigit then [text] else [] := by
  rw [numbers, List.splitOnP_eq_singleton fun char hchar => by simp [htext char hchar]]
  simp only [List.filter_cons, List.filter_nil]

/-- No number starts with what is no digit. -/
theorem numbers_cons_eq_nil (hchar : char.isDigit = false) (htext : numbers text = []) :
    numbers (char :: text) = [] := by
  by_cases hinner : isInner char = true
  · rw [numbers, List.filter_eq_nil_iff] at htext ⊢
    rw [List.splitOnP_cons_eq_if_modifyHead, if_neg (by simp [hinner])]
    cases hwords : text.splitOnP fun char => !isInner char with
    | nil => exact List.forall_mem_nil _
    | cons word words =>
      rw [hwords] at htext
      refine List.forall_mem_cons.mpr ⟨by simp [hchar], ?_⟩
      exact (List.forall_mem_cons.mp htext).2
  · rw [numbers_cons (by simpa using hinner), htext]

theorem numbers_append_eq_nil (htext : ∀ char ∈ text, char.isDigit = false)
    (hmore : numbers more = []) : numbers (text ++ more) = [] := by
  induction text with
  | nil => exact hmore
  | cons char text ih =>
    obtain ⟨hchar, htext⟩ := List.forall_mem_cons.mp htext
    exact numbers_cons_eq_nil hchar (ih htext)

/-- Whether words and numbers of two texts in a row do not run into each other. -/
def Apart (text more : List Char) : Prop :=
  (∃ char ∈ text.getLast?, isInner char = false) ∨ ∃ char ∈ more.head?, isInner char = false

theorem literals_append (htext : Mode.code.run text = .code) (hapart : Apart text more) :
    literals (text ++ more) = literals text ++ literals more := by
  rw [literals, outside_append, htext]
  rcases hapart with ⟨last, hlast, hinner⟩ | ⟨first, hfirst, hinner⟩
  · obtain ⟨ahead, rfl⟩ := List.getLast?_eq_some_iff.mp hlast
    have hkept : outside .code (ahead ++ [last]) = outside .code ahead ++ [last] := by
      have hstep : (Mode.code.run ahead).step last = .code := by
        rwa [Mode.run_append] at htext
      simp [outside_append, outside, hstep, isOutside]
    have hnone : numbers [] = [] := rfl
    rw [literals, hkept, List.append_assoc, List.singleton_append, numbers_append_cons hinner,
      numbers_append_cons hinner, hnone, List.append_nil]
    rfl
  · obtain ⟨rest, rfl⟩ := List.head?_eq_some_iff.mp hfirst
    have hkept : outside .code (first :: rest) = first :: outside (Mode.code.step first) rest := rfl
    rw [hkept, numbers_append_cons hinner, literals, literals, hkept, numbers_cons hinner]

/-! ### What a text lists -/

/-- Whether a text leaves no literal open, and its number literals are those of given numbers. -/
structure Lists (numerals : List Numeral) (text : List Char) : Prop where
  leads : Mode.code.run text = .code
  values : values text = numerals.map Numeral.reading

/-- What stands behind a text: a property, or nothing that goes on a word or a number. -/
inductive Access : List Char → Prop where
  | nothing : Access []
  | property {first : Char} {more : List Char} (hfirst : isWordStart first = true)
      (hmore : ∀ char ∈ more, isInner char = true) : Access ('.' :: first :: more)

/-- Whether this is so whatever property is taken of the text; which numbers are right in front of
    the point may depend on whether one is. -/
structure Ahead (numerals : Bool → List Numeral) (text : List Char) : Prop where
  access : ∀ {behind}, Access behind → Lists (numerals (!behind.isEmpty)) (text ++ behind)

theorem isInner_of_isWordChar (hchar : isWordChar char = true) : isInner char = true := by
  simp [isInner, hchar]

theorem isQuiet_of_isInner (hchar : isInner char = true) : isQuiet char = true := by
  refine decide_eq_true fun hmem => ?_
  simp only [List.mem_cons, List.not_mem_nil, or_false] at hmem
  rcases hmem with rfl | rfl | rfl <;> exact absurd hchar (by decide)

namespace Access

theorem forall_inner (hbehind : Access behind) : ∀ char ∈ behind, isInner char = true := by
  cases hbehind with
  | nothing => exact List.forall_mem_nil _
  | property hfirst hmore =>
    have hword := isInner_of_isWordChar (Lexeme.isWordChar_of_isWordStart hfirst)
    exact List.forall_mem_cons.mpr ⟨rfl, List.forall_mem_cons.mpr ⟨hword, hmore⟩⟩

theorem isDigit_head (hbehind : Access behind) : ∀ char ∈ behind.head?, char.isDigit = false := by
  cases hbehind <;> simp

theorem numbers_eq_nil (hbehind : Access behind) : numbers behind = [] := by
  rw [numbers_inner hbehind.forall_inner]
  cases hbehind <;> rfl

end Access

/-! ### Texts that are known -/

theorem isInner_of_isDigit (hchar : char.isDigit = true) : isInner char = true :=
  isInner_of_isWordChar (by simp [isWordChar, Char.isAlphanum, hchar])

theorem isDigit_of_opens (hmode : isOutside (Mode.code.step char) = false) :
    char.isDigit = false := by
  refine Bool.eq_false_iff.mpr fun hdigit => ?_
  have hquiet := isQuiet_of_isInner (isInner_of_isDigit hdigit)
  have hrun := Mode.run_quiet (List.forall_mem_singleton.mpr hquiet)
  have hstep : Mode.code.step char = .code := hrun
  rw [hstep] at hmode
  cases hmode

/-- A literal ends with its mark. -/
theorem isInner_of_closes (hmode : isOutside mode = false) (hstep : mode.step char = .code) :
    isInner char = false := by
  have hmark : char = '"' ∨ char = '\x60' := by
    cases mode <;> simp [isOutside, Mode.step] at hmode hstep <;> grind
  rcases hmark with rfl | rfl <;> rfl

/-- No comment starts in a literal. -/
theorem isOutside_step (hmode : isOutside mode = false) (hstep : mode.step char ≠ .code) :
    isOutside (mode.step char) = false := by
  cases mode <;> simp [isOutside, Mode.step] at hmode hstep ⊢ <;> grind

/-- Of a literal, only its closing mark stands outside. -/
theorem outside_of_closes (hmode : isOutside mode = false) (htext : mode.Closes text) :
    ∃ closing, outside mode text = [closing] ∧ isInner closing = false := by
  induction htext with
  | @last mode char hstep =>
    exact ⟨char, by simp [outside, hstep, isOutside], isInner_of_closes hmode hstep⟩
  | @cons mode next char text hstep hnext _ ih =>
    subst hstep
    have hinside := isOutside_step hmode hnext
    obtain ⟨closing, hclosing, hlast⟩ := ih hinside
    exact ⟨closing, by simp [outside, hmode, hinside, hclosing], hlast⟩

namespace Lists

variable {numerals others : List Numeral}

/-- A text that is outside all strings and templates throughout. -/
theorem of_quiet (htext : ∀ char ∈ text, isQuiet char = true)
    (hvalues : (numbers text).map value? = numerals.map Numeral.reading) : Lists numerals text := by
  refine ⟨Mode.run_quiet htext, ?_⟩
  rw [NumberLiteral.values, literals, outside_quiet htext, hvalues]

theorem nil : Lists [] [] := ⟨rfl, rfl⟩

theorem append (htext : Lists numerals text) (hmore : Lists others more)
    (hapart : Apart text more) : Lists (numerals ++ others) (text ++ more) where
  leads := by rw [Mode.run_append, htext.leads, hmore.leads]
  values := by
    rw [NumberLiteral.values, literals_append htext.leads hapart, List.map_append, List.map_append]
    exact congrArg₂ _ htext.values hmore.values

end Lists

namespace Ahead

variable {numerals : Bool → List Numeral}

theorem lists (htext : Ahead numerals text) : Lists (numerals false) text := by
  simpa using htext.access .nothing

/-- A word. It goes on behind the point. -/
theorem word {first : Char} (hfirst : isWordStart first = true)
    (hmore : ∀ char ∈ more, isInner char = true) : Ahead (fun _ => []) (first :: more) := by
  refine ⟨fun {behind} hbehind => ?_⟩
  have hword := isInner_of_isWordChar (Lexeme.isWordChar_of_isWordStart hfirst)
  have hinner : ∀ char ∈ first :: more ++ behind, isInner char = true :=
    List.forall_mem_append.mpr ⟨List.forall_mem_cons.mpr ⟨hword, hmore⟩, hbehind.forall_inner⟩
  refine .of_quiet (fun char hchar => isQuiet_of_isInner (hinner char hchar)) ?_
  rw [numbers_inner hinner]
  simp [isDigit_of_isWordStart hfirst]

/-- A text without digits. -/
theorem still (htext : ∀ char ∈ text, isQuiet char = true ∧ char.isDigit = false) :
    Ahead (fun _ => []) text := by
  refine ⟨fun {behind} hbehind => ?_⟩
  have hquiet : ∀ char ∈ text ++ behind, isQuiet char = true :=
    List.forall_mem_append.mpr ⟨fun char hchar => (htext char hchar).1, fun char hchar =>
      isQuiet_of_isInner (hbehind.forall_inner char hchar)⟩
  refine .of_quiet hquiet ?_
  rw [numbers_append_eq_nil (fun char hchar => (htext char hchar).2) hbehind.numbers_eq_nil]
  rfl

/-- A literal from its mark on. -/
theorem literal {mark : Char} (hmode : isOutside (Mode.code.step mark) = false)
    (htext : (Mode.code.step mark).Closes text) : Ahead (fun _ => []) (mark :: text) := by
  refine ⟨fun {behind} hbehind => ?_⟩
  have hquiet : ∀ char ∈ behind, isQuiet char = true :=
    fun char hchar => isQuiet_of_isInner (hbehind.forall_inner char hchar)
  refine ⟨?_, ?_⟩
  · rw [List.cons_append, Mode.run_cons, Mode.run_append, htext.run, Mode.run_quiet hquiet]
  · obtain ⟨closing, hclosing, hlast⟩ := outside_of_closes hmode htext
    have hmark : mark.isDigit = false := isDigit_of_opens hmode
    have hbare : outside .code (mark :: text ++ behind) = mark :: closing :: behind := by
      have hopen : outside .code (mark :: (text ++ behind)) =
          mark :: outside (Mode.code.step mark) (text ++ behind) := rfl
      rw [List.cons_append, hopen, outside_append, hclosing, htext.run, outside_quiet hquiet]
      rfl
    rw [NumberLiteral.values, literals, hbare, numbers_cons_eq_nil hmark]
    · rfl
    · rw [numbers_cons hlast, hbehind.numbers_eq_nil]

end Ahead

/-! ### Numbers -/

theorem startsPadded_append {digits rest : List Char} (hsome : digits ≠ [])
    (hrest : ∀ char ∈ rest.head?, char.isDigit = false) :
    Numeral.startsPadded (digits ++ rest) = Numeral.startsPadded digits := by
  match digits with
  | [digit] =>
    have hnone : Numeral.startsPadded [digit] = false := by simp [Numeral.startsPadded]
    rw [hnone]
    unfold Numeral.startsPadded
    split <;> simp_all
  | digit :: next :: more =>
    unfold Numeral.startsPadded
    split <;> simp_all

/-- Digits are an integer part unless they are padded. -/
theorem integer?_of_digits {digits : List Char} (hsome : digits ≠ [])
    (hdigits : ∀ char ∈ digits, char.isDigit = true) :
    integer? digits = if Numeral.startsPadded digits then none
      else some (Nat.ofDigitChars 10 digits 0) := by
  match digits with
  | [digit] => simp [integer?, Numeral.startsPadded]
  | digit :: next :: more =>
    have hnext : next.isDigit = true := hdigits next (by simp)
    by_cases hzero : digit = '0'
    · subst hzero
      simp [integer?, Numeral.startsPadded, hnext]
    · simp [integer?, Numeral.startsPadded, hzero]

theorem value?_of_digits {digits rest : List Char} (hsome : digits ≠ [])
    (hdigits : ∀ char ∈ digits, char.isDigit = true)
    (hrest : ∀ char ∈ rest.head?, char.isDigit = false) :
    value? (digits ++ rest) = if Numeral.startsPadded digits then none
      else (fraction? rest).map ((Nat.ofDigitChars 10 digits 0 : ℚ) + ·) := by
  obtain ⟨htake, hdrop⟩ := Lexeme.takeWhile_of_head hdigits hrest
  rw [value?, htake, hdrop, integer?_of_digits hsome hdigits]
  split <;> rfl

/-- A point with a word behind it is taken for one with a fraction. -/
theorem fraction?_access (hbehind : Access behind) :
    fraction? behind = if behind.isEmpty then some 0 else none := by
  cases hbehind with
  | nothing => rfl
  | @property first more hfirst _ =>
    have hdigit := isDigit_of_isWordStart hfirst
    have hword := Lexeme.isWordChar_of_isWordStart hfirst
    simp [fraction?, hdigit, startsWord, hword]

theorem fraction?_digits {digits : List Char} (hdigits : ∀ char ∈ digits, char.isDigit = true)
    (hbehind : Access behind) : fraction? ('.' :: (digits ++ behind)) =
      some ((Nat.ofDigitChars 10 digits 0 : ℚ) / 10 ^ digits.length) := by
  obtain ⟨htake, hdrop⟩ := Lexeme.takeWhile_of_head hdigits hbehind.isDigit_head
  have hword : startsWord behind = false := by
    cases hbehind <;> rfl
  simp [fraction?, htake, hdrop, hword]

/-- A number without a fraction. -/
theorem reading_whole {digits : List Char} (hdigits : ∀ char ∈ digits, char.isDigit = true)
    (pointed : Bool) : Numeral.reading ⟨String.ofList digits, pointed⟩ =
      if Numeral.startsPadded digits || pointed then none
      else some (Nat.ofDigitChars 10 digits 0 : ℚ) := by
  have hpoint : '.' ∉ digits := fun hmem => absurd (hdigits '.' hmem) (by decide)
  have hfilter : digits.filter Char.isDigit = digits := List.filter_eq_self.mpr hdigits
  have hdrop : digits.dropWhile Char.isDigit = [] := List.dropWhile_eq_nil_iff.mpr hdigits
  have hvalue : Numeral.value ⟨String.ofList digits, pointed⟩ =
      (Nat.ofDigitChars 10 digits 0 : ℚ) := by
    simp [Numeral.value, hfilter, hdrop]
  have hkept : Numeral.isKept ⟨String.ofList digits, pointed⟩ =
      !(Numeral.startsPadded digits || pointed) := by
    simp [Numeral.isKept, hpoint]
  rw [Numeral.reading, hvalue, hkept]
  cases Numeral.startsPadded digits || pointed <;> rfl

/-- A number with a fraction may have a point behind it. -/
theorem reading_fraction {digits more : List Char} (hsome : digits ≠ [])
    (hdigits : ∀ char ∈ digits, char.isDigit = true) (hmore : ∀ char ∈ more, char.isDigit = true)
    (pointed : Bool) : Numeral.reading ⟨String.ofList (digits ++ '.' :: more), pointed⟩ =
      if Numeral.startsPadded digits then none
      else some ((Nat.ofDigitChars 10 digits 0 : ℚ) +
        (Nat.ofDigitChars 10 more 0 : ℚ) / 10 ^ more.length) := by
  have hpoint : ∀ char ∈ ('.' :: more).head?, char.isDigit = false := by
    rintro _ ⟨⟩
    rfl
  have hfilter : (digits ++ '.' :: more).filter Char.isDigit = digits ++ more := by
    rw [List.filter_append, List.filter_cons_of_neg (by decide), List.filter_eq_self.mpr hdigits,
      List.filter_eq_self.mpr hmore]
  have hdrop : (digits ++ '.' :: more).dropWhile Char.isDigit = '.' :: more :=
    (Lexeme.takeWhile_of_head hdigits hpoint).2
  have hvalue : Numeral.value ⟨String.ofList (digits ++ '.' :: more), pointed⟩ =
      (Nat.ofDigitChars 10 digits 0 : ℚ) +
        (Nat.ofDigitChars 10 more 0 : ℚ) / 10 ^ more.length := by
    simp only [Numeral.value, String.toList_ofList, hfilter, hdrop, List.tail_cons]
    rw [Nat.ofDigitChars_append, Nat.ofDigitChars_eq_ofDigitChars_zero]
    push_cast
    field_simp
  have hkept : Numeral.isKept ⟨String.ofList (digits ++ '.' :: more), pointed⟩ =
      !Numeral.startsPadded digits := by
    simp only [Numeral.isKept, String.toList_ofList, startsPadded_append hsome hpoint]
    simp
  rw [Numeral.reading, hvalue, hkept]
  cases Numeral.startsPadded digits <;> rfl

theorem value?_number {text : String} (hnumber : IsNumber text) (hbehind : Access behind) :
    value? (text.toList ++ behind) = Numeral.reading ⟨text, !behind.isEmpty⟩ := by
  cases hnumber with
  | @whole digits hsome hdigits =>
    rw [String.toList_ofList, value?_of_digits hsome hdigits hbehind.isDigit_head,
      fraction?_access hbehind, reading_whole hdigits]
    cases Numeral.startsPadded digits <;> cases behind.isEmpty <;> simp
  | @fraction digits more hsome hdigits hfraction hmore =>
    have hpoint : ∀ char ∈ ('.' :: (more ++ behind)).head?, char.isDigit = false := by
      rintro _ ⟨⟩
      rfl
    rw [String.toList_ofList, List.append_assoc, List.cons_append,
      value?_of_digits hsome hdigits hpoint, fraction?_digits hmore hbehind,
      reading_fraction hsome hdigits hmore]
    cases Numeral.startsPadded digits <;> rfl

theorem number {text : String} (hnumber : IsNumber text) :
    Ahead (fun pointed => [⟨text, pointed⟩]) text.toList := by
  refine ⟨fun {behind} hbehind => ?_⟩
  have hinner : ∀ char ∈ text.toList ++ behind, isInner char = true := by
    refine List.forall_mem_append.mpr ⟨fun char hchar => ?_, hbehind.forall_inner⟩
    rcases hnumber.forall_mem char hchar with hdigit | rfl
    · exact isInner_of_isDigit hdigit
    · rfl
  refine .of_quiet (fun char hchar => isQuiet_of_isInner (hinner char hchar)) ?_
  obtain ⟨digit, more, hdigits, hdigit⟩ := hnumber.exists_digit
  have hfirst : (text.toList ++ behind).head?.any Char.isDigit = true := by
    simp [hdigits, hdigit]
  rw [numbers_inner hinner, if_pos hfirst, List.map_singleton, value?_number hnumber hbehind]
  rfl

/-! ### Texts behind each other -/

/-- Whether a text has no number literal, and nothing behind it runs into it. -/
structure Opens (text : List Char) : Prop where
  lists : Lists [] text
  last : ∃ char ∈ text.getLast?, isInner char = false

/-- Whether it does not run into anything in front of it, either. -/
structure Separates (text : List Char) : Prop extends Opens text where
  first : ∃ char ∈ text.head?, isInner char = false

/-- Whether a character is no sign of a literal, not even of a number. -/
def isStill (char : Char) : Bool := isQuiet char && !char.isDigit

/-- Whether a text without literals ends with a sign. -/
def isOpening (text : String) : Bool :=
  text.toList.all isStill && text.toList.getLast?.any fun char => !isInner char

/-- Whether it starts with one, too. -/
def isSeparating (text : String) : Bool :=
  isOpening text && text.toList.head?.any fun char => !isInner char

/-- Whether texts in a row list given numbers. -/
inductive ListsEach : List Numeral → List (List Char) → Prop where
  | nil : ListsEach [] []
  | cons {numerals others : List Numeral} {text : List Char} {more : List (List Char)}
      (htext : Lists numerals text) (hmore : ListsEach others more) :
      ListsEach (numerals ++ others) (text :: more)

/-- A text that is known. -/
theorem Ahead.known {text : String} (htext : text.toList.all isStill = true) :
    Ahead (fun _ => []) text.toList := by
  refine .still fun char hchar => ?_
  have hstill := List.all_eq_true.mp htext char hchar
  simpa [isStill] using hstill

section

variable {numerals others : List Numeral} {front : List Char} {pointed : Bool → List Numeral}

namespace Opens

theorem of_isOpening {text : String} (htext : isOpening text = true) : Opens text.toList := by
  obtain ⟨hstill, hlast⟩ := Bool.and_eq_true_iff.mp htext
  obtain ⟨char, hchar, hinner⟩ := (Option.any_eq_true _ _).mp hlast
  exact ⟨(Ahead.known hstill).lists, char, hchar, by simpa using hinner⟩

theorem last_append (htext : Opens text) (front : List Char) :
    ∃ char ∈ (front ++ text).getLast?, isInner char = false := by
  obtain ⟨char, hchar, hinner⟩ := htext.last
  exact ⟨char, by simp [List.getLast?_append, Option.mem_def.mp hchar], hinner⟩

theorem append (hfront : Opens front) (htext : Lists numerals text) :
    Lists numerals (front ++ text) :=
  hfront.lists.append htext (.inl hfront.last)

theorem ahead (hfront : Opens front) (htext : Ahead pointed text) :
    Ahead pointed (front ++ text) := by
  refine ⟨fun {behind} hbehind => ?_⟩
  rw [List.append_assoc]
  exact hfront.append (htext.access hbehind)

end Opens

namespace Separates

theorem of_isSeparating {text : String} (htext : isSeparating text = true) :
    Separates text.toList := by
  obtain ⟨hopening, hfirst⟩ := Bool.and_eq_true_iff.mp htext
  obtain ⟨char, hchar, hinner⟩ := (Option.any_eq_true _ _).mp hfirst
  exact ⟨.of_isOpening hopening, char, hchar, by simpa using hinner⟩

/-- Signs alone. -/
theorem of_signs (hsome : text ≠ [])
    (htext : ∀ char ∈ text, isQuiet char = true ∧ isInner char = false) : Separates text := by
  have hstill : ∀ char ∈ text, isQuiet char = true ∧ char.isDigit = false := by
    refine fun char hchar => ⟨(htext char hchar).1, Bool.eq_false_iff.mpr fun hdigit => ?_⟩
    have hinner := (htext char hchar).2
    rw [isInner_of_isDigit hdigit] at hinner
    cases hinner
  refine ⟨⟨(Ahead.still hstill).lists, ?_⟩, ?_⟩
  · exact ⟨_, List.getLast?_eq_getLast_of_ne_nil hsome, (htext _ (List.getLast_mem hsome)).2⟩
  · exact ⟨_, List.head?_eq_some_head hsome, (htext _ (List.head_mem hsome)).2⟩

theorem first_append (htext : Separates text) (behind : List Char) :
    ∃ char ∈ (text ++ behind).head?, isInner char = false := by
  obtain ⟨char, hchar, hinner⟩ := htext.first
  exact ⟨char, by simp [List.head?_append, Option.mem_def.mp hchar], hinner⟩

theorem append (htext : Separates text) (hmore : Separates more) : Separates (text ++ more) :=
  ⟨⟨htext.toOpens.append hmore.lists, hmore.last_append text⟩, htext.first_append more⟩

end Separates

namespace Lists

/-- Numbers in front of a separating text are apart from what stands behind it. -/
theorem shut (htext : Lists numerals text) (hmore : Separates more) :
    Ahead (fun _ => numerals) (text ++ more) := by
  refine ⟨fun {behind} hbehind => ?_⟩
  have hnothing : Lists [] behind :=
    .of_quiet (fun char hchar => isQuiet_of_isInner (hbehind.forall_inner char hchar))
      (by rw [hbehind.numbers_eq_nil]; rfl)
  have hlists := htext.append (hmore.toOpens.append hnothing) (.inr (hmore.first_append behind))
  rwa [List.append_nil, ← List.append_assoc] at hlists

theorem join {separator : List Char} (htext : Lists numerals text)
    (hseparator : Separates separator) (hmore : Lists others more) :
    Lists (numerals ++ others) (text ++ (separator ++ more)) :=
  htext.append (hseparator.toOpens.append hmore) (.inr (hseparator.first_append more))

/-- Texts without numbers become one that nothing runs into. -/
theorem opens (htext : Lists [] text) (hmore : Separates more) : Opens (text ++ more) :=
  ⟨(htext.shut hmore).lists, hmore.last_append text⟩

theorem intercalate {separator : List Char} (hseparator : Separates separator)
    {items : List (List Char)} (hitems : ListsEach numerals items) :
    Lists numerals (separator.intercalate items) := by
  induction hitems with
  | nil => exact .nil
  | @cons numerals others text more htext hmore ih =>
    cases more with
    | nil =>
      cases hmore
      simpa using htext
    | cons second more =>
      rw [List.intercalate_cons_cons, List.append_assoc]
      exact htext.join hseparator ih

end Lists

namespace ListsEach

variable {texts rest : List (List Char)}

theorem append (htexts : ListsEach numerals texts) (hrest : ListsEach others rest) :
    ListsEach (numerals ++ others) (texts ++ rest) := by
  induction htexts with
  | nil => exact hrest
  | cons htext _ ih =>
    rw [List.append_assoc]
    exact .cons htext ih

theorem single (htext : Lists numerals text) : ListsEach numerals [text] := by
  have heach := ListsEach.cons htext .nil
  rwa [List.append_nil] at heach

/-- Texts without numbers. -/
theorem none (htexts : ∀ text ∈ texts, Lists [] text) : ListsEach [] texts := by
  induction texts with
  | nil => exact .nil
  | cons text more ih =>
    obtain ⟨htext, hmore⟩ := List.forall_mem_cons.mp htexts
    exact .cons htext (ih hmore)

/-- Every text behind one that nothing runs into. -/
theorem opened (hfront : Opens front) (htexts : ListsEach numerals texts) :
    ListsEach numerals (texts.map (front ++ ·)) := by
  induction htexts with
  | nil => exact .nil
  | cons htext _ ih => exact .cons (hfront.append htext) ih

end ListsEach

end

end NumberLiteral

end KaLang
