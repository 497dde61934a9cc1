import KaLang.Fault

/-!
Lexemes: the reading of one token's characters off the head of a text, without positions.
`Lexeme.read` takes the characters of one token and says what they are. Whatever it says, the
characters taken and the characters left make up the text (`read_append`), and only the end of
the text yields a token without characters (`taken_ne_nil`).
-/

namespace KaLang

/-- A sign of the language: its spelling in a text, and the kind and text of its token. -/
structure Sign where
  spelling : List Char
  kind : TokenKind
  text : String

/-- A character that may stand inside a word. -/
def isWordChar (c : Char) : Bool := c = '_' || c.isAlphanum

/-- A character that may start a word. -/
def isWordStart (c : Char) : Bool := c = '_' || c.isAlpha

namespace Sign

/-- The signs in the order in which they are tried. The first that fits is taken, so a sign
    stands before the signs that it starts with. -/
def table : List Sign :=
  [⟨['+', '='], .compoundAssign, "+="⟩,
    ⟨['-', '='], .compoundAssign, "-="⟩,
    ⟨['*', '='], .compoundAssign, "*="⟩,
    ⟨['/', '='], .compoundAssign, "/="⟩,
    ⟨['%', '='], .compoundAssign, "%="⟩,
    ⟨['=', '='], .operator, "=="⟩,
    ⟨['!', '='], .operator, "!="⟩,
    ⟨['<', '='], .operator, "<="⟩,
    ⟨['>', '='], .operator, ">="⟩,
    ⟨['<'], .operator, "<"⟩,
    ⟨['>'], .operator, ">"⟩,
    ⟨['a', 'n', 'd'], .operator, "&&"⟩,
    ⟨['o', 'r'], .operator, "||"⟩,
    ⟨['n', 'o', 't'], .operator, "!"⟩,
    ⟨['&', '&'], .operator, "&&"⟩,
    ⟨['|', '|'], .operator, "||"⟩,
    ⟨['.', '.'], .operator, ".."⟩,
    ⟨['+'], .operator, "+"⟩,
    ⟨['-'], .operator, "-"⟩,
    ⟨['*'], .operator, "*"⟩,
    ⟨['/'], .operator, "/"⟩,
    ⟨['%'], .operator, "%"⟩,
    ⟨['!'], .operator, "!"⟩,
    ⟨['.'], .operator, "."⟩]

/-- Whether the sign is spelled as a word. -/
def isWord (sign : Sign) : Bool := sign.spelling.all Char.isAlpha

/-- What stands behind the sign, if the text starts with it. A word is only read as a whole. -/
def rest? (sign : Sign) (text : List Char) : Option (List Char) :=
  match sign.spelling.isPrefixOf? text with
  | none => none
  | some rest => if sign.isWord && rest.head?.any isWordChar then none else some rest

/-- The first sign of the table that the text starts with, and what stands behind it. -/
def first? (text : List Char) : Option (Sign × List Char) :=
  table.findSome? fun sign => (sign.rest? text).map (sign, ·)

theorem spelling_append_of_isPrefixOf? {spelling text rest : List Char}
    (h : spelling.isPrefixOf? text = some rest) : spelling ++ rest = text := by
  induction spelling generalizing text with
  | nil => exact (Option.some.inj h).symm
  | cons char more ih =>
    cases text with
    | nil => cases h
    | cons other text =>
      change (if char == other then more.isPrefixOf? text else none) = some rest at h
      split at h
      · next heq => rw [beq_iff_eq.mp heq, List.cons_append, ih h]
      · cases h

theorem spelling_append_of_rest? {sign : Sign} {text rest : List Char}
    (h : sign.rest? text = some rest) : sign.spelling ++ rest = text := by
  unfold rest? at h
  split at h
  · cases h
  · next found hfound =>
    split at h
    · cases h
    · cases h
      exact spelling_append_of_isPrefixOf? hfound

/-- A sign found at the head of a text is in the table, and is what the text starts with. -/
theorem mem_table_of_first? {text rest : List Char} {sign : Sign}
    (h : first? text = some (sign, rest)) : sign ∈ table ∧ sign.rest? text = some rest := by
  obtain ⟨found, hmem, hfound⟩ := List.exists_of_findSome?_eq_some h
  obtain ⟨_, hrest, heq⟩ := Option.map_eq_some_iff.mp hfound
  cases heq
  exact ⟨hmem, hrest⟩

theorem spelling_ne_nil {sign : Sign} (h : sign ∈ table) : sign.spelling ≠ [] := by
  simp only [table, List.mem_cons, List.not_mem_nil, or_false] at h
  rcases h with rfl | rfl | rfl | rfl | rfl | rfl | rfl | rfl | rfl | rfl | rfl | rfl | rfl |
    rfl | rfl | rfl | rfl | rfl | rfl | rfl | rfl | rfl | rfl | rfl <;> simp

/-- No sign stands for the end of a text. -/
theorem kind_ne_endOfInput {sign : Sign} (h : sign ∈ table) : sign.kind ≠ .endOfInput := by
  simp only [table, List.mem_cons, List.not_mem_nil, or_false] at h
  rcases h with rfl | rfl | rfl | rfl | rfl | rfl | rfl | rfl | rfl | rfl | rfl | rfl | rfl |
    rfl | rfl | rfl | rfl | rfl | rfl | rfl | rfl | rfl | rfl | rfl <;> simp

end Sign

/-- The characters of one token, the characters behind them, and what the token is. -/
structure Lexeme where
  taken : List Char
  rest : List Char
  outcome : Except LexFault (TokenKind × String)

namespace Lexeme

/-- The delimiters. -/
def delimiters : List Char := [',', '(', ')', '[', ']', '\x7b', '\x7d', ':']

/-- Digits, with one fraction. A point that no digit follows does not belong to the number. -/
def number (text : List Char) : Lexeme :=
  let whole := text.takeWhile Char.isDigit
  match text.dropWhile Char.isDigit with
  | '.' :: digit :: more =>
    if digit.isDigit then
      let all := whole ++ '.' :: (digit :: more).takeWhile Char.isDigit
      ⟨all, (digit :: more).dropWhile Char.isDigit, .ok (.number, String.ofList all)⟩
    else ⟨whole, '.' :: digit :: more, .ok (.number, String.ofList whole)⟩
  | rest => ⟨whole, rest, .ok (.number, String.ofList whole)⟩

/-- A word: reserved, or an identifier. -/
def word (text : List Char) : Lexeme :=
  let taken := text.takeWhile isWordChar
  let name := String.ofList taken
  let kind := if (Keyword.ofText? name).isSome then TokenKind.keyword else .identifier
  ⟨taken, text.dropWhile isWordChar, .ok (kind, name)⟩

/-- The character that a backslash and a code stand for inside a string. -/
def unescape? (code : Char) : Option Char :=
  match code with
  | '"' => some '"'
  | '\'' => some '\''
  | 'n' => some '\n'
  | 'r' => some '\r'
  | 'b' => some '\x08'
  | _ => none

/-- The inside of a string and what follows it: the characters taken with the closing quote, the
    characters left, and the value. A fault stops the reading: in front of a backslash that ends
    the text, and behind a code that stands for nothing. -/
structure Quoted where
  taken : List Char
  rest : List Char
  value : Except LexFault (List Char)

/-- The same string with characters in front, which stand for `value`. -/
def Quoted.push (q : Quoted) (taken : List Char) (value : Char) : Quoted :=
  ⟨taken ++ q.taken, q.rest, q.value.map (value :: ·)⟩

/-- Read a string behind its opening quote. -/
def quoted (quote : Char) : List Char → Quoted
  | [] => ⟨[], [], .error .unclosedString⟩
  | ['\\'] => ⟨[], ['\\'], .error .unfinishedEscape⟩
  | '\\' :: code :: text =>
    match unescape? code with
    | some value => (quoted quote text).push ['\\', code] value
    | none => ⟨['\\', code], text, .error (.unknownEscape code)⟩
  | char :: text =>
    if char = quote then ⟨[char], text, .ok []⟩ else (quoted quote text).push [char] char

/-- Read one token off a text that starts with neither a blank nor a comment. -/
def read (text : List Char) : Lexeme :=
  match text with
  | [] => ⟨[], [], .ok (.endOfInput, "")⟩
  | char :: more =>
    match Sign.first? text with
    | some (sign, rest) => ⟨sign.spelling, rest, .ok (sign.kind, sign.text)⟩
    | none =>
      if char ∈ delimiters then ⟨[char], more, .ok (.delimiter, String.singleton char)⟩
      else if char = '=' then ⟨[char], more, .ok (.equals, "=")⟩
      else if char.isDigit then number text
      else if char = '"' || char = '\'' then
        let inside := quoted char more
        ⟨char :: inside.taken, inside.rest,
          inside.value.map fun value => (.string, String.ofList value)⟩
      else if isWordStart char then word text
      else ⟨[], text, .error (.unexpectedCharacter char)⟩

theorem number_append (text : List Char) : (number text).taken ++ (number text).rest = text := by
  unfold number
  have hsplit := List.takeWhile_append_dropWhile (p := Char.isDigit) (l := text)
  split
  · next digit more hrest =>
    split
    · simp only [List.append_assoc, List.cons_append, List.takeWhile_append_dropWhile]
      rw [← hrest, hsplit]
    · simpa [hrest] using hsplit
  · simp

theorem word_append (text : List Char) : (word text).taken ++ (word text).rest = text := by
  simp [word, List.takeWhile_append_dropWhile]

theorem quoted_append (quote : Char) (text : List Char) :
    (quoted quote text).taken ++ (quoted quote text).rest = text := by
  fun_induction quoted quote text <;> simp_all [Quoted.push]

/-- The characters taken and the characters left make up the text. -/
theorem read_append (text : List Char) : (read text).taken ++ (read text).rest = text := by
  unfold read
  split
  · rfl
  · next char more =>
    split
    · next sign rest hfirst =>
      exact Sign.spelling_append_of_rest? (Sign.mem_table_of_first? hfirst).2
    · split
      · rfl
      split
      · rfl
      split
      · exact number_append _
      split
      · simp [quoted_append]
      split
      · exact word_append _
      · rfl

theorem isWordChar_of_isWordStart {char : Char} (h : isWordStart char = true) :
    isWordChar char = true := by
  simp only [isWordStart, isWordChar, Char.isAlphanum, Bool.or_eq_true] at h ⊢
  rcases h with h | h <;> simp [h]

theorem number_taken_ne_nil {char : Char} {text : List Char} (h : char.isDigit = true) :
    (number (char :: text)).taken ≠ [] := by
  unfold number
  split
  · split <;> simp [h]
  · simp [h]

theorem word_taken_ne_nil {char : Char} {text : List Char} (h : isWordStart char = true) :
    (word (char :: text)).taken ≠ [] := by
  simp [word, isWordChar_of_isWordStart h]

/-- Only the end of a text yields a token without characters. -/
theorem taken_ne_nil {text : List Char} {kind : TokenKind} {name : String}
    (h : (read text).outcome = .ok (kind, name)) (hkind : kind ≠ .endOfInput) :
    (read text).taken ≠ [] := by
  revert h
  unfold read
  split
  · intro h
    cases h
    exact absurd rfl hkind
  · split
    · next hfirst =>
      exact fun _ => Sign.spelling_ne_nil (Sign.mem_table_of_first? hfirst).1
    · split
      · simp
      split
      · simp
      split
      · next hdigit => exact fun _ => number_taken_ne_nil hdigit
      split
      · simp
      split
      · next hstart => exact fun _ => word_taken_ne_nil hstart
      · intro h
        cases h

end Lexeme

end KaLang
