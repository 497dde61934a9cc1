import KaLang.Script.Literal

/-!
What the literals of a script stand for. They are read by the rules of JavaScript, under which much
that a string may hold means something else: a backslash, the closing mark, a line break, or a
dollar sign in front of a brace. Whatever a string holds, the template and the key that are written
for it are read as one literal, up to its end and no further, and stand for that string
(`Quotation.denotes_template` and `Quotation.denotes_key`).
-/

namespace KaLang

/-- The literals that stand for strings: templates, and characters between double quotes. -/
inductive Quotation where
  | template
  | doubleQuoted

namespace Quotation

/-- What opens and closes a literal. -/
def mark : Quotation → Char
  | template => '\x60'
  | doubleQuoted => '"'

/-- The value of a hexadecimal digit. -/
def hexDigit? (digit : Char) : Option Nat :=
  if digit.isDigit then some (digit.toNat - '0'.toNat)
  else if 'a' ≤ digit.toLower ∧ digit.toLower ≤ 'f' then
    some (digit.toLower.toNat - 'a'.toNat + 10)
  else none

/-- The character whose code is given by hexadecimal digits. Half of a surrogate pair is none. -/
def ofDigits? (digits : List Char) : Option Char := do
  let code ← digits.foldlM (fun code digit => (hexDigit? digit).map (16 * code + ·)) 0
  if digits ≠ [] ∧ code.isValidChar then some (Char.ofNat code) else none

/-- What a character stands for that is alone behind a backslash. -/
def single : Char → Char
  | 'b' => '\x08'
  | 't' => '\t'
  | 'n' => '\n'
  | 'v' => '\x0b'
  | 'f' => '\x0c'
  | 'r' => '\r'
  | char => char

/-- What stands behind a backslash: the characters that it stands for, and how many it takes. A line
    break stands for nothing, and a digit is no escape, but for a zero in front of no digit. -/
def escape : List Char → Option (List Char × Nat)
  | [] => none
  | '\r' :: '\n' :: _ => some ([], 2)
  | '0' :: text => if text.head?.any Char.isDigit then none else some (['\x00'], 1)
  | 'x' :: high :: low :: _ => (ofDigits? [high, low]).map fun char => ([char], 3)
  | 'u' :: '\x7b' :: text =>
    let digits := text.takeWhile (· ≠ '\x7d')
    if digits.length = text.length then none
    else (ofDigits? digits).map fun char => ([char], digits.length + 3)
  | 'u' :: a :: b :: c :: d :: _ => (ofDigits? [a, b, c, d]).map fun char => ([char], 5)
  | char :: _ =>
    if char ∈ ['\n', '\r', '\u2028', '\u2029'] then some ([], 1)
    else if char = 'x' ∨ char = 'u' ∨ char.isDigit then none
    else some ([single char], 1)

/-- What a character stands for that is neither a backslash nor the closing mark, and how many
    behind it belong to it. In a template a dollar sign in front of a brace starts a substitution,
    and every line break is a line feed; between double quotes neither a line feed nor a carriage
    return may stand. -/
def plain : Quotation → Char → List Char → Option (List Char × Nat)
  | template, '$', '\x7b' :: _ => none
  | template, '\r', '\n' :: _ => some (['\n'], 1)
  | template, '\r', _ => some (['\n'], 0)
  | doubleQuoted, '\n', _ => none
  | doubleQuoted, '\r', _ => none
  | _, char, _ => some ([char], 0)

/-- What the head of a text inside a literal stands for, and how many characters belong to it. -/
def part (kind : Quotation) (char : Char) (text : List Char) : Option (List Char × Nat) :=
  if char = '\\' then escape text else kind.plain char text

/-- What a literal stands for behind its opening mark, and the text left behind its closing one. -/
def inside (kind : Quotation) (text : List Char) : Option (List Char × List Char) :=
  match text with
  | [] => none
  | char :: text =>
    if char = kind.mark then some ([], text)
    else
      match kind.part char text with
      | none => none
      | some (chars, taken) =>
        (inside kind (text.drop taken)).map fun (value, rest) => (chars ++ value, rest)
termination_by text.length
decreasing_by simp only [List.length_drop, List.length_cons]; omega

/-- What the literal at the head of a text stands for, and the text left. -/
def read (kind : Quotation) : List Char → Option (List Char × List Char)
  | [] => none
  | char :: text => if char = kind.mark then kind.inside text else none

variable {kind : Quotation} {char : Char} {text value rest : List Char}

theorem inside_mark (kind : Quotation) (rest : List Char) :
    kind.inside (kind.mark :: rest) = some ([], rest) := by
  rw [inside, if_pos rfl]

/-- One part of a literal behind another one. -/
theorem inside_cons {chars : List Char} {taken : Nat} (hmark : char ≠ kind.mark)
    (hpart : kind.part char text = some (chars, taken))
    (htext : kind.inside (text.drop taken) = some (value, rest)) :
    kind.inside (char :: text) = some (chars ++ value, rest) := by
  rw [inside, if_neg hmark]
  simp only [hpart, htext, Option.map_some]

/-- A character that is written behind a backslash. -/
theorem inside_escaped {code : Char} (hcode : escape (code :: text) = some ([char], 1))
    (htext : kind.inside text = some (value, rest)) :
    kind.inside ('\\' :: code :: text) = some (char :: value, rest) := by
  have hmark : '\\' ≠ kind.mark := by cases kind <;> decide
  exact inside_cons hmark ((if_pos rfl).trans hcode) htext

/-- A character that is written as it is. -/
theorem inside_plain (hmark : char ≠ kind.mark) (hescape : char ≠ '\\')
    (hplain : kind.plain char text = some ([char], 0))
    (htext : kind.inside text = some (value, rest)) :
    kind.inside (char :: text) = some (char :: value, rest) :=
  inside_cons hmark ((if_neg hescape).trans hplain) htext

theorem plain_template (hreturn : char ≠ '\r')
    (hdollar : char = '$' → text.head? ≠ some '\x7b') :
    template.plain char text = some ([char], 0) := by
  unfold plain
  split <;> simp_all

theorem plain_doubleQuoted (hfeed : char ≠ '\n') (hreturn : char ≠ '\r') :
    doubleQuoted.plain char text = some ([char], 0) := by
  unfold plain
  split <;> simp_all

/-- A brace at the head of what is written for a text is one at the head of the text. -/
theorem head?_templateBody (hbrace : text.head? ≠ some '\x7b') (rest : List Char) :
    (Literal.templateBody text ++ '\x60' :: rest).head? ≠ some '\x7b' := by
  cases text with
  | nil => simp [Literal.templateBody]
  | cons char text =>
    have hchar : char ≠ '\x7b' := fun heq => hbrace (congrArg some heq)
    unfold Literal.templateBody
    dsimp only
    split
    · simp
    · simp
    · simp
    · split <;> simp
    · simpa using hchar

theorem inside_templateBody (value rest : List Char) :
    template.inside (Literal.templateBody value ++ '\x60' :: rest) = some (value, rest) := by
  induction value with
  | nil => exact inside_mark template rest
  | cons char text ih =>
    unfold Literal.templateBody
    dsimp only
    split
    · exact inside_escaped rfl ih
    · exact inside_escaped rfl ih
    · exact inside_escaped rfl ih
    · split
      · exact inside_escaped rfl ih
      · next hbrace =>
        have hdollar := head?_templateBody hbrace rest
        exact inside_plain (by decide) (by decide) (plain_template (by decide) fun _ => hdollar) ih
    · next hescape hmark hreturn hdollar =>
      exact inside_plain hmark hescape (plain_template hreturn fun heq => absurd heq hdollar) ih

theorem inside_keyChars (value rest : List Char) :
    doubleQuoted.inside (value.flatMap Literal.keyChar ++ '"' :: rest) = some (value, rest) := by
  induction value with
  | nil => exact inside_mark doubleQuoted rest
  | cons char text ih =>
    rw [List.flatMap_cons, List.append_assoc]
    unfold Literal.keyChar
    split
    · exact inside_escaped rfl ih
    · exact inside_escaped rfl ih
    · exact inside_escaped rfl ih
    · exact inside_escaped rfl ih
    · exact inside_escaped rfl ih
    · next hescape hmark hfeed hreturn _ =>
      exact inside_plain hmark hescape (plain_doubleQuoted hfeed hreturn) ih

/-- Whether a text is read as one literal that stands for a value, whatever is behind it. -/
def Denotes (kind : Quotation) (literal value : String) : Prop :=
  ∀ rest, kind.read (literal.toList ++ rest) = some (value.toList, rest)

theorem denotes_template (value : String) : template.Denotes (Literal.template value) value := by
  intro rest
  have hinside := inside_templateBody value.toList rest
  simpa [Literal.template, read, mark] using hinside

theorem denotes_key (value : String) : doubleQuoted.Denotes (Literal.key value) value := by
  intro rest
  have hinside := inside_keyChars value.toList rest
  simpa [Literal.key, read, mark] using hinside

end Quotation

end KaLang
