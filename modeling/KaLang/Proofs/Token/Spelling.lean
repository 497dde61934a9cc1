import KaLang.Token.Lexer

/-!
How tokens are spelled. Every token of a text but the last has one of a few forms
(`Form.Legible`), and whatever has such a form can be spelled: legible forms with a blank between
each two are read as they were written (`tokenize_spaced`).
-/

namespace KaLang

/-- What a token is, without its place. -/
structure Form where
  kind : TokenKind
  text : String
deriving DecidableEq

/-- The token without its place. -/
def Token.form (token : Token) : Form := ⟨token.kind, token.text⟩

/-- Whether a text is a word that is neither reserved nor an operator. -/
structure IsName (text : String) : Prop where
  start : ∃ first ∈ text.toList.head?, isWordStart first = true
  chars : ∀ char ∈ text.toList, isWordChar char = true
  notReserved : Keyword.ofText? text = none
  notOperator : text ∉ ["and", "or", "not"]

/-- Whether a text is made of digits, perhaps with a fraction. -/
inductive IsNumber : String → Prop where
  | whole {digits : List Char} (hsome : digits ≠ [])
      (hdigits : ∀ char ∈ digits, char.isDigit = true) : IsNumber (String.ofList digits)
  | fraction {digits more : List Char} (hsome : digits ≠ [])
      (hdigits : ∀ char ∈ digits, char.isDigit = true) (hfraction : more ≠ [])
      (hmore : ∀ char ∈ more, char.isDigit = true) :
      IsNumber (String.ofList (digits ++ '.' :: more))

theorem IsName.exists_start {text : String} (hname : IsName text) :
    ∃ first more, text.toList = first :: more ∧ isWordStart first = true := by
  obtain ⟨first, hfirst, hstart⟩ := hname.start
  obtain ⟨more, htext⟩ := List.head?_eq_some_iff.mp hfirst
  exact ⟨first, more, htext, hstart⟩

theorem IsName.not_mem {text : String} (hname : IsName text) {char : Char}
    (hchar : isWordChar char = false) : char ∉ text.toList := by
  intro hmem
  rw [hname.chars char hmem] at hchar
  cases hchar

theorem IsNumber.forall_mem {text : String} (hnumber : IsNumber text) :
    ∀ char ∈ text.toList, char.isDigit = true ∨ char = '.' := by
  cases hnumber with
  | whole hsome hdigits => simpa using fun char hchar => .inl (hdigits char hchar)
  | fraction hsome hdigits hfraction hmore =>
    intro char hchar
    rw [String.toList_ofList] at hchar
    rcases List.mem_append.mp hchar with hchar | hchar
    · exact .inl (hdigits char hchar)
    · exact (List.mem_cons.mp hchar).symm.imp_left (hmore char)

/-- A number starts with a digit. -/
theorem IsNumber.exists_digit {text : String} (hnumber : IsNumber text) :
    ∃ digit more, text.toList = digit :: more ∧ digit.isDigit = true := by
  cases hnumber with
  | @whole digits hsome hdigits | @fraction digits _ hsome hdigits =>
    cases digits with
    | nil => exact absurd rfl hsome
    | cons digit more => exact ⟨digit, _, String.toList_ofList, hdigits digit List.mem_cons_self⟩

namespace Form

/-- Whether a token of this form can stand in a text: all but the end of the input can, if the text
    fits the kind. No string has a backslash. -/
inductive Legible : Form → Prop where
  | name {text : String} (hname : IsName text) : Legible ⟨.identifier, text⟩
  | keyword (word : Keyword) : Legible ⟨.keyword, word.text⟩
  | number {text : String} (hnumber : IsNumber text) : Legible ⟨.number, text⟩
  | sign {sign : Sign} (hsign : sign ∈ Sign.table) : Legible ⟨sign.kind, sign.text⟩
  | delimiter {char : Char} (hchar : char ∈ Lexeme.delimiters) :
      Legible ⟨.delimiter, String.singleton char⟩
  | equals : Legible ⟨.equals, "="⟩
  | string {text : String} (htext : '\\' ∉ text.toList) : Legible ⟨.string, text⟩

/-- A character between double quotes. -/
def quoteChar (char : Char) : List Char := if char = '"' then ['\\', '"'] else [char]

/-- How a token of this form is written: a string between double quotes, all else as it is. -/
def spelling (form : Form) : List Char :=
  if form.kind = .string then '"' :: form.text.toList.flatMap quoteChar ++ ['"']
  else form.text.toList

/-- Forms one after the other, with a blank between each two. -/
def spaced : List Form → List Char
  | [] => []
  | form :: more => form.spelling ++ more.flatMap fun form => ' ' :: form.spelling

end Form

/-! ### Signs and words -/

namespace Sign

variable {sign : Sign} {text word rest : List Char}

theorem first?_eq_none (hnone : ∀ sign ∈ table, sign.rest? text = none) : first? text = none := by
  refine List.findSome?_eq_none_iff.mpr fun sign hsign => ?_
  rw [hnone sign hsign]
  rfl

theorem rest?_eq_none_of_head {char : Char} (hsome : sign.spelling ≠ [])
    (hhead : ∀ first ∈ sign.spelling.head?, first ≠ char) : sign.rest? (char :: text) = none := by
  cases hrest : sign.rest? (char :: text) with
  | none => rfl
  | some rest =>
    have happend := spelling_append_of_rest? hrest
    cases hspelling : sign.spelling with
    | nil => exact absurd hspelling hsome
    | cons first more =>
      rw [hspelling, List.cons_append] at happend
      exact absurd (List.cons.inj happend).1 (hhead first (by simp [hspelling]))

/-- A text that starts with a character that no sign starts with starts with no sign. -/
theorem first?_eq_none_of_head {char : Char}
    (hhead : ∀ sign ∈ table, ∀ first ∈ sign.spelling.head?, first ≠ char) :
    first? (char :: text) = none :=
  first?_eq_none fun sign hsign =>
    rest?_eq_none_of_head (spelling_ne_nil hsign) (hhead sign hsign)

/-- No sign starts with a character that starts something else. -/
theorem spec_of_mem_head : ∀ sign ∈ table, ∀ first ∈ sign.spelling.head?,
    first.isDigit = false ∧ first ∉ Lexeme.delimiters ∧ first ≠ '"' ∧ first ≠ '\'' ∧
      (isWordChar first = true → sign.isWord = true) := by
  have hall : ∀ sign ∈ table, sign.spelling.head?.all (fun first =>
      decide (first.isDigit = false ∧ first ∉ Lexeme.delimiters ∧ first ≠ '"' ∧ first ≠ '\'' ∧
        (isWordChar first = true → sign.isWord = true))) = true := by
    decide
  intro sign hsign first hfirst
  have hhead := hall sign hsign
  rw [hfirst] at hhead
  exact of_decide_eq_true hhead

/-- The signs that are words. -/
theorem mem_of_isWord : ∀ sign ∈ table, sign.isWord = true →
    String.ofList sign.spelling ∈ ["and", "or", "not"] ∧
      ∀ char ∈ sign.spelling, isWordChar char = true := by
  have hall : ∀ sign ∈ table, sign.isWord = true →
      String.ofList sign.spelling ∈ ["and", "or", "not"] ∧
        sign.spelling.all isWordChar = true := by
    decide
  intro sign hsign hword
  obtain ⟨hmem, hchars⟩ := hall sign hsign hword
  exact ⟨hmem, List.all_eq_true.mp hchars⟩

/-- A word starts with no sign unless it is one. -/
theorem rest?_eq_none_of_word (hword : ∀ char ∈ word, isWordChar char = true)
    (hrest : ∀ char ∈ rest.head?, isWordChar char = false) (hsign : sign.isWord = true)
    (hchars : ∀ char ∈ sign.spelling, isWordChar char = true) (hne : word ≠ sign.spelling) :
    sign.rest? (word ++ rest) = none := by
  unfold rest?
  split
  · rfl
  · next tail htail =>
    rw [if_pos]
    have happend := spelling_append_of_isPrefixOf? htail
    rcases List.append_eq_append_iff.mp happend with ⟨more, rfl, rfl⟩ | ⟨more, hspelling, rfl⟩
    · cases more with
      | nil => simp at hne
      | cons char more => simp [hsign, hword char (by simp)]
    · cases more with
      | nil => simp [hspelling] at hne
      | cons char more =>
        have hother := hrest char (by simp)
        rw [hchars char (by simp [hspelling])] at hother
        cases hother

/-- A word that is no operator starts with no sign. -/
theorem first?_eq_none_of_word (hstart : ∃ first ∈ word.head?, isWordStart first = true)
    (hword : ∀ char ∈ word, isWordChar char = true)
    (hrest : ∀ char ∈ rest.head?, isWordChar char = false)
    (hne : String.ofList word ∉ ["and", "or", "not"]) : first? (word ++ rest) = none := by
  refine first?_eq_none fun sign hsign => ?_
  cases hkind : sign.isWord with
  | true =>
    obtain ⟨hmem, hchars⟩ := mem_of_isWord sign hsign hkind
    refine rest?_eq_none_of_word hword hrest hkind hchars fun heq => hne ?_
    rwa [heq]
  | false =>
    obtain ⟨first, hfirst, hstart⟩ := hstart
    cases word with
    | nil => cases hfirst
    | cons char more =>
      cases hfirst
      refine rest?_eq_none_of_head (spelling_ne_nil hsign) fun first hfirst heq => ?_
      have hletter := (spec_of_mem_head sign hsign first hfirst).2.2.2.2
      rw [heq, hkind] at hletter
      exact Bool.false_ne_true (hletter (Lexeme.isWordChar_of_isWordStart hstart))

/-- The words that are operators are signs. -/
theorem exists_of_mem : ∀ text ∈ ["and", "or", "not"],
    ∃ sign ∈ table, sign.spelling = text.toList := by
  decide

theorem isPrefixOf?_append (spelling rest : List Char) :
    spelling.isPrefixOf? (spelling ++ rest) = some rest := by
  induction spelling with
  | nil => rfl
  | cons char more ih =>
    change (if char == char then more.isPrefixOf? (more ++ rest) else none) = some rest
    rw [if_pos (beq_self_eq_true char), ih]

theorem rest?_append (sign : Sign) (hrest : ∀ char ∈ rest.head?, isWordChar char = false) :
    sign.rest? (sign.spelling ++ rest) = some rest := by
  unfold rest?
  rw [isPrefixOf?_append]
  cases rest with
  | nil => simp
  | cons char more => simp [hrest char rfl]

theorem first?_ne_none (hsign : sign ∈ table) (hrest : sign.rest? text = some rest) :
    first? text ≠ none := by
  intro hnone
  have hother := List.findSome?_eq_none_iff.mp hnone sign hsign
  rw [hrest] at hother
  cases hother

theorem kind_of_mem : ∀ sign ∈ table, sign.kind = .operator ∨ sign.kind = .compoundAssign := by
  decide

theorem text_ne_nil : ∀ sign ∈ table, sign.text.toList ≠ [] := by
  decide

/-- A text that starts with a sign and a blank is read as that sign. -/
theorem first?_of_mem (hsign : sign ∈ table) (hrest : ∀ char ∈ rest.head?, char = ' ') :
    ∃ other, first? (sign.text.toList ++ rest) = some (other, rest) ∧
      other.spelling = sign.text.toList ∧ other.kind = sign.kind ∧ other.text = sign.text := by
  simp only [table, List.mem_cons, List.not_mem_nil, or_false] at hsign
  cases rest with
  | nil =>
    rcases hsign with rfl | rfl | rfl | rfl | rfl | rfl | rfl | rfl | rfl | rfl | rfl | rfl | rfl |
      rfl | rfl | rfl | rfl | rfl | rfl | rfl | rfl | rfl | rfl | rfl <;>
      exact ⟨_, rfl, rfl, rfl, rfl⟩
  | cons char more =>
    obtain rfl := hrest char rfl
    rcases hsign with rfl | rfl | rfl | rfl | rfl | rfl | rfl | rfl | rfl | rfl | rfl | rfl | rfl |
      rfl | rfl | rfl | rfl | rfl | rfl | rfl | rfl | rfl | rfl | rfl <;>
      exact ⟨_, rfl, rfl, rfl, rfl⟩

end Sign

/-! ### Reading a form -/

theorem isDigit_of_isWordStart {char : Char} (hstart : isWordStart char = true) :
    char.isDigit = false := by
  have hletter : char = '_' ∨ char.isAlpha = true := by simpa [isWordStart] using hstart
  rcases hletter with rfl | hletter
  · decide
  · have hupper : 'A'.val.toNat = 65 := rfl
    have hlower : 'a'.val.toNat = 97 := rfl
    have hnine : '9'.val.toNat = 57 := rfl
    change (decide ('A'.val ≤ char.val ∧ char.val ≤ 'Z'.val) ||
      (decide ('a'.val ≤ char.val) && decide (char.val ≤ 'z'.val))) = true at hletter
    simp only [Bool.or_eq_true, Bool.and_eq_true, decide_eq_true_eq,
      UInt32.le_iff_toNat_le] at hletter
    refine Bool.eq_false_iff.mpr fun hdigit => ?_
    simp only [Char.isDigit, Bool.and_eq_true, decide_eq_true_eq, UInt32.le_iff_toNat_le] at hdigit
    omega

theorem isWordStart_of_mem_delimiters :
    ∀ char ∈ Lexeme.delimiters, isWordStart char = false ∧ char.isDigit = false := by
  have hall : Lexeme.delimiters.all (fun char => !isWordStart char && !char.isDigit) = true := rfl
  simpa using hall

namespace Lexeme

variable {text rest : List Char} {char : Char}

theorem takeWhile_of_head {p : Char → Bool} (htext : ∀ char ∈ text, p char = true)
    (hrest : ∀ char ∈ rest.head?, p char = false) :
    (text ++ rest).takeWhile p = text ∧ (text ++ rest).dropWhile p = rest := by
  have hnothing : rest.takeWhile p = [] ∧ rest.dropWhile p = rest := by
    cases rest with
    | nil => exact ⟨rfl, rfl⟩
    | cons char more => simp [hrest char rfl]
  rw [List.takeWhile_append_of_pos htext, List.dropWhile_append_of_pos htext, hnothing.1,
    hnothing.2, List.append_nil]
  exact ⟨rfl, rfl⟩

theorem read_word {word : List Char} (hstart : ∃ first ∈ word.head?, isWordStart first = true)
    (hword : ∀ char ∈ word, isWordChar char = true)
    (hrest : ∀ char ∈ rest.head?, isWordChar char = false)
    (hne : String.ofList word ∉ ["and", "or", "not"]) :
    read (word ++ rest) = ⟨word, rest, .ok
      (if (Keyword.ofText? (String.ofList word)).isSome then .keyword else .identifier,
        String.ofList word)⟩ := by
  have hsign := Sign.first?_eq_none_of_word hstart hword hrest hne
  obtain ⟨hwhole, hbehind⟩ := takeWhile_of_head hword hrest
  obtain ⟨first, hfirst, hstart⟩ := hstart
  cases word with
  | nil => cases hfirst
  | cons other more =>
    cases hfirst
    have hdelimiter : first ∉ delimiters := fun hmem => by
      rw [(isWordStart_of_mem_delimiters first hmem).1] at hstart
      cases hstart
    have hne {char : Char} (hchar : isWordStart char = false) : first ≠ char := by
      rintro rfl
      rw [hchar] at hstart
      cases hstart
    have hequals : first ≠ '=' := hne rfl
    have hdouble : first ≠ '"' := hne rfl
    have hsingle : first ≠ '\'' := hne rfl
    rw [List.cons_append] at hsign hwhole hbehind ⊢
    simp only [read, hsign, hdelimiter, hequals, hdouble, hsingle, isDigit_of_isWordStart hstart,
      hstart, word, hwhole, hbehind, ↓reduceIte, decide_false, Bool.or_self, Bool.false_eq_true]

theorem read_digit (hdigit : char.isDigit = true) :
    read (char :: text) = number (char :: text) := by
  have hsign : Sign.first? (char :: text) = none := by
    refine Sign.first?_eq_none_of_head fun sign hsign first hfirst heq => ?_
    have hother := (Sign.spec_of_mem_head sign hsign first hfirst).1
    rw [heq, hdigit] at hother
    cases hother
  have hdelimiter : char ∉ delimiters := fun hmem => by
    rw [(isWordStart_of_mem_delimiters char hmem).2] at hdigit
    cases hdigit
  have hequals : char ≠ '=' := by
    rintro rfl
    cases hdigit
  simp only [read, hsign, hdelimiter, hequals, hdigit, ↓reduceIte]

/-- A number is read as a whole in front of what is no part of one. -/
theorem number_spelled {text : String} (hnumber : IsNumber text)
    (hrest : ∀ char ∈ rest.head?, char.isDigit = false)
    (hpoint : ∀ digit more, rest = '.' :: digit :: more → digit.isDigit = false) :
    number (text.toList ++ rest) = ⟨text.toList, rest, .ok (.number, text)⟩ := by
  cases hnumber with
  | @whole digits hsome hdigits =>
    obtain ⟨htake, hdrop⟩ := takeWhile_of_head hdigits hrest
    rw [String.toList_ofList]
    unfold number
    rw [htake, hdrop]
    split
    · next digit more => simp [hpoint digit more rfl]
    · rfl
  | @fraction digits more hsome hdigits hfraction hmore =>
    have hbehind : ∀ char ∈ ('.' :: (more ++ rest)).head?, char.isDigit = false := by
      rintro _ ⟨⟩
      rfl
    obtain ⟨htake, hdrop⟩ := takeWhile_of_head hdigits hbehind
    obtain ⟨htakeMore, hdropMore⟩ := takeWhile_of_head hmore hrest
    rw [String.toList_ofList, List.append_assoc, List.cons_append]
    unfold number
    rw [htake, hdrop]
    cases more with
    | nil => exact absurd rfl hfraction
    | cons digit more =>
      rw [List.cons_append] at htakeMore hdropMore ⊢
      simp only [hmore digit (by simp), htakeMore, hdropMore, ↓reduceIte]

theorem read_number {text : String} (hnumber : IsNumber text)
    (hrest : ∀ char ∈ rest.head?, char = ' ') :
    read (text.toList ++ rest) = ⟨text.toList, rest, .ok (.number, text)⟩ := by
  have hblank : ∀ char ∈ rest.head?, char.isDigit = false := by
    intro char hchar
    obtain rfl := hrest char hchar
    rfl
  have hpoint : ∀ digit more, rest = '.' :: digit :: more → digit.isDigit = false := by
    rintro digit more rfl
    cases hrest '.' rfl
  obtain ⟨digit, more, htext, hdigit⟩ := hnumber.exists_digit
  rw [← number_spelled hnumber hblank hpoint, htext, List.cons_append]
  exact read_digit hdigit

theorem read_delimiter (hchar : char ∈ delimiters) :
    read (char :: rest) = ⟨[char], rest, .ok (.delimiter, String.singleton char)⟩ := by
  have hsign : Sign.first? (char :: rest) = none := by
    refine Sign.first?_eq_none_of_head fun sign hsign first hfirst heq => ?_
    exact (Sign.spec_of_mem_head sign hsign first hfirst).2.1 (heq ▸ hchar)
  simp only [read, hsign, hchar, ↓reduceIte]

theorem read_quote {quote : Char} (hquote : quote ∈ ['"', '\'']) :
    read (quote :: rest) = ⟨quote :: (quoted quote rest).taken, (quoted quote rest).rest,
      (quoted quote rest).value.map fun value => (.string, String.ofList value)⟩ := by
  have hmark : quote = '"' ∨ quote = '\'' := by simpa using hquote
  have hsign : Sign.first? (quote :: rest) = none := by
    refine Sign.first?_eq_none_of_head fun sign hsign first hfirst => ?_
    have hhead := (Sign.spec_of_mem_head sign hsign first hfirst).2.2
    rcases hmark with rfl | rfl
    · exact hhead.1
    · exact hhead.2.1
  have hother : quote ∉ delimiters ∧ quote ≠ '=' ∧ quote.isDigit = false := by
    rcases hmark with rfl | rfl <;> decide
  have hopening : (decide (quote = '"') || decide (quote = '\'')) = true := by simpa using hmark
  obtain ⟨hdelimiter, hequals, hdigit⟩ := hother
  simp only [read, hsign, hdelimiter, hequals, hdigit, hopening, ↓reduceIte, Bool.false_eq_true]

/-- What is neither a code nor the end of a text stands behind a character other than a
    backslash. -/
theorem ne_backslash (hlast : char = '\\' → text = [] → False)
    (hcode : ∀ code more, char = '\\' → text = code :: more → False) : char ≠ '\\' := by
  cases text with
  | nil => exact fun heq => hlast heq rfl
  | cons code more => exact fun heq => hcode code more heq rfl

theorem quoted_cons {quote : Char} (hchar : char ≠ '\\') :
    quoted quote (char :: text) =
      if char = quote then ⟨[char], text, .ok []⟩ else (quoted quote text).push [char] char := by
  rw [quoted]
  · exact fun heq _ => hchar heq
  · exact fun _ _ heq _ => hchar heq

theorem quoted_quoteChar {value : List Char} (hvalue : '\\' ∉ value) :
    quoted '"' (value.flatMap Form.quoteChar ++ '"' :: rest) =
      ⟨value.flatMap Form.quoteChar ++ ['"'], rest, .ok value⟩ := by
  induction value with
  | nil => simp [quoted]
  | cons char more ih =>
    have ih := ih fun hmem => hvalue (List.mem_cons_of_mem _ hmem)
    have hchar : char ≠ '\\' := fun heq => hvalue (by simp [heq])
    by_cases hquote : char = '"'
    · subst hquote
      simp only [List.flatMap_cons, Form.quoteChar, ↓reduceIte, List.cons_append, List.nil_append,
        quoted, unescape?, ih, Quoted.push, Except.map]
    · simp only [List.flatMap_cons, Form.quoteChar, hquote, ↓reduceIte, List.cons_append,
        List.nil_append]
      rw [quoted_cons hchar, if_neg hquote, ih]
      rfl

end Lexeme

theorem Keyword.spec_of_text (word : Keyword) :
    (∃ first ∈ word.text.toList.head?, isWordStart first = true) ∧
      (∀ char ∈ word.text.toList, isWordChar char = true) ∧
      word.text ∉ ["and", "or", "not"] ∧ (ofText? word.text).isSome = true := by
  cases word <;> exact ⟨⟨_, rfl, rfl⟩, List.all_eq_true.mp rfl, by decide, rfl⟩

theorem isWordChar_of_blank {rest : List Char} (hrest : ∀ char ∈ rest.head?, char = ' ') :
    ∀ char ∈ rest.head?, isWordChar char = false := by
  intro char hchar
  obtain rfl := hrest char hchar
  rfl

/-- What is written as a legible form and ends there is read as that form. -/
theorem Form.Legible.read_spelling {form : Form} (hform : form.Legible) {rest : List Char}
    (hrest : ∀ char ∈ rest.head?, char = ' ') :
    Lexeme.read (form.spelling ++ rest) = ⟨form.spelling, rest, .ok (form.kind, form.text)⟩ := by
  have hblank := isWordChar_of_blank hrest
  cases hform with
  | @name text hname =>
    have hread := Lexeme.read_word hname.start hname.chars hblank
      (by rw [String.ofList_toList]; exact hname.notOperator)
    rw [String.ofList_toList, hname.notReserved] at hread
    exact hread
  | keyword word =>
    obtain ⟨hstart, hchars, hoperator, hreserved⟩ := word.spec_of_text
    have hread := Lexeme.read_word hstart hchars hblank
      (by rw [String.ofList_toList]; exact hoperator)
    rw [String.ofList_toList, if_pos hreserved] at hread
    exact hread
  | number hnumber => exact Lexeme.read_number hnumber hrest
  | @sign sign hsign =>
    obtain ⟨other, hfirst, hspelling, hkind, htext⟩ := Sign.first?_of_mem hsign hrest
    have hstring : sign.kind ≠ .string := by
      rcases Sign.kind_of_mem sign hsign with hkind | hkind <;> simp [hkind]
    have hspell : spelling ⟨sign.kind, sign.text⟩ = sign.text.toList := if_neg hstring
    rw [hspell]
    cases htail : sign.text.toList ++ rest with
    | nil => exact absurd htail (by simp [Sign.text_ne_nil sign hsign])
    | cons char more =>
      rw [htail] at hfirst
      simp only [Lexeme.read, hfirst, hspelling, hkind, htext]
  | @delimiter char hchar =>
    have hspell : spelling ⟨.delimiter, String.singleton char⟩ = [char] := by
      simp [spelling]
    rw [hspell]
    exact Lexeme.read_delimiter hchar
  | equals =>
    cases rest with
    | nil => rfl
    | cons char more =>
      obtain rfl := hrest char rfl
      rfl
  | @string text htext =>
    have hspell : spelling ⟨.string, text⟩ = '"' :: text.toList.flatMap quoteChar ++ ['"'] := rfl
    rw [hspell]
    have hquote : '"' ∈ ['"', '\''] := List.mem_cons_self
    simp only [List.cons_append, List.append_assoc, List.nil_append, Lexeme.read_quote hquote,
      Lexeme.quoted_quoteChar htext]
    simp [Except.map]

theorem Form.Legible.kind_ne_endOfInput {form : Form} (hform : form.Legible) :
    form.kind ≠ .endOfInput := by
  cases hform with
  | sign hsign => exact Sign.kind_ne_endOfInput hsign
  | _ => simp

theorem Form.Legible.isName {form : Form} (hform : form.Legible)
    (hkind : form.kind = .identifier) : IsName form.text := by
  cases hform with
  | name hname => exact hname
  | @sign sign hsign => rcases Sign.kind_of_mem sign hsign with hother | hother <;> simp_all
  | _ => cases hkind

theorem Form.Legible.isNumber {form : Form} (hform : form.Legible)
    (hkind : form.kind = .number) : IsNumber form.text := by
  cases hform with
  | number hnumber => exact hnumber
  | @sign sign hsign => rcases Sign.kind_of_mem sign hsign with hother | hother <;> simp_all
  | _ => cases hkind

theorem Form.Legible.spelling_ne_nil {form : Form} (hform : form.Legible) :
    form.spelling ≠ [] := by
  intro hnil
  have hread : Lexeme.read (form.spelling ++ []) = _ := hform.read_spelling (by simp)
  have hkind := congrArg Lexeme.outcome hread
  rw [hnil] at hkind
  have hform' : (TokenKind.endOfInput, "") = (form.kind, form.text) := Except.ok.inj hkind
  exact hform.kind_ne_endOfInput (congrArg Prod.fst hform').symm

/-! ### Whole texts -/

/-- No blank and no comment stands at the head of what is read as a token. -/
theorem splitBlank_of_read {char : Char} {text : List Char} {kind : TokenKind} {name : String}
    (hread : (Lexeme.read (char :: text)).outcome = .ok (kind, name)) :
    splitBlank false (char :: text) = ([], char :: text) := by
  have hblank {other : Char} {fault : LexFault}
      (hother : (Lexeme.read (other :: text)).outcome = .error fault) : char ≠ other := by
    rintro rfl
    rw [hread] at hother
    cases hother
  have hline : char ≠ '\n' := hblank rfl
  have hcomment : char ≠ '#' := hblank rfl
  have hspace : char ≠ ' ' := hblank rfl
  have htab : char ≠ '\t' := hblank rfl
  have hreturn : char ≠ '\r' := hblank rfl
  simp [splitBlank, hline, hcomment, hspace, htab, hreturn]

namespace Cursor

variable {cursor : Cursor} {form : Form} {forms : List Form} {gap rest : List Char}

/-- A legible form is the next token, with or without a blank in front of it. -/
theorem next_spelling (hform : form.Legible) (hrest : ∀ char ∈ rest.head?, char = ' ')
    (hgap : gap = [] ∨ gap = [' ']) (hcursor : cursor.rest = gap ++ (form.spelling ++ rest)) :
    ∃ token after, cursor.next = (.ok token, after) ∧ token.form = form ∧ after.rest = rest := by
  have hread := hform.read_spelling hrest
  have hblank : splitBlank false (form.spelling ++ rest) = ([], form.spelling ++ rest) := by
    have hsome := hform.spelling_ne_nil
    cases hspelling : form.spelling with
    | nil => exact absurd hspelling hsome
    | cons char more =>
      rw [hspelling, List.cons_append] at hread
      rw [List.cons_append]
      exact splitBlank_of_read (congrArg Lexeme.outcome hread)
  have hsplit : splitBlank false cursor.rest = (gap, form.spelling ++ rest) := by
    rw [hcursor]
    rcases hgap with rfl | rfl
    · exact hblank
    · simp [splitBlank, hblank]
  refine ⟨_, _, by simp only [next, hsplit, hread]; rfl, rfl, rfl⟩

theorem tokens_of_next {token : Token} {after : Cursor} (hnext : cursor.next = (.ok token, after))
    (hkind : token.kind ≠ .endOfInput) : cursor.tokens = after.tokens.map (token :: ·) := by
  rw [tokens]
  split
  · next herror =>
    rw [hnext] at herror
    cases herror
  · next hok =>
    rw [hnext] at hok
    cases hok
    rw [dif_neg hkind]

theorem tokens_of_rest_eq_nil (hrest : cursor.rest = []) :
    ∃ last, cursor.tokens = .ok [last] ∧ last.form = ⟨.endOfInput, ""⟩ := by
  have hnext : cursor.next.1 =
      .ok ⟨.endOfInput, "", ⟨cursor.position, cursor.position⟩⟩ := by
    simp [next, hrest, splitBlank, Lexeme.read]
  rw [tokens]
  split
  · next herror =>
    rw [herror] at hnext
    cases hnext
  · next hok =>
    rw [hok] at hnext
    cases hnext
    exact ⟨_, dif_pos rfl, rfl⟩

/-- Behind a legible form the text is read on. -/
theorem tokens_of_spelling (hform : form.Legible) (hrest : ∀ char ∈ rest.head?, char = ' ')
    (hgap : gap = [] ∨ gap = [' ']) (hcursor : cursor.rest = gap ++ (form.spelling ++ rest))
    (hmore : ∀ after : Cursor, after.rest = rest →
      ∃ tokens, after.tokens = .ok tokens ∧ tokens.map Token.form = forms) :
    ∃ tokens, cursor.tokens = .ok tokens ∧ tokens.map Token.form = form :: forms := by
  obtain ⟨token, after, hnext, rfl, hafter⟩ := next_spelling hform hrest hgap hcursor
  obtain ⟨tokens, htokens, hmore⟩ := hmore after hafter
  refine ⟨token :: tokens, ?_, by simp [hmore]⟩
  rw [tokens_of_next hnext hform.kind_ne_endOfInput, htokens]
  rfl

theorem head_of_forms (forms : List Form) :
    ∀ char ∈ (forms.flatMap fun form => ' ' :: form.spelling).head?, char = ' ' := by
  cases forms <;> simp

/-- Legible forms with a blank in front of each are read up to the end of the text. -/
theorem tokens_of_forms (hforms : ∀ form ∈ forms, form.Legible)
    (hcursor : cursor.rest = forms.flatMap fun form => ' ' :: form.spelling) :
    ∃ tokens, cursor.tokens = .ok tokens ∧
      tokens.map Token.form = forms ++ [⟨.endOfInput, ""⟩] := by
  induction forms generalizing cursor with
  | nil =>
    obtain ⟨last, htokens, hlast⟩ := tokens_of_rest_eq_nil hcursor
    exact ⟨[last], htokens, by simp [hlast]⟩
  | cons form more ih =>
    have hmore : ∀ form ∈ more, form.Legible := fun form hform => hforms form (by simp [hform])
    exact tokens_of_spelling (hforms form (by simp)) (head_of_forms more) (.inr rfl)
      (by simpa using hcursor) fun after hafter => ih hmore hafter

end Cursor

/-- Legible forms with a blank between each two are read as they were written. -/
theorem tokenize_spaced {forms : List Form} (hforms : ∀ form ∈ forms, form.Legible) :
    ∃ tokens, tokenize (String.ofList (Form.spaced forms)) = .ok tokens ∧
      tokens.map Token.form = forms ++ [⟨.endOfInput, ""⟩] := by
  unfold tokenize
  cases forms with
  | nil =>
    obtain ⟨last, htokens, hlast⟩ := Cursor.tokens_of_rest_eq_nil
      (show (Cursor.ofText (String.ofList (Form.spaced []))).rest = [] from String.toList_ofList)
    exact ⟨[last], htokens, by simp [hlast]⟩
  | cons form more =>
    have hmore : ∀ form ∈ more, form.Legible := fun form hform => hforms form (by simp [hform])
    refine Cursor.tokens_of_spelling (hforms form (by simp)) (Cursor.head_of_forms more) (.inl rfl)
      ?_ fun after hafter => Cursor.tokens_of_forms hmore hafter
    exact String.toList_ofList

/-! ### What is read is legible -/

namespace Lexeme

variable {text : List Char} {kind : TokenKind} {name : String}

theorem mem_takeWhile {p : Char → Bool} : ∀ char ∈ text.takeWhile p, p char = true :=
  List.all_eq_true.mp List.all_takeWhile

theorem head_dropWhile {p : Char → Bool} : ∀ char ∈ (text.dropWhile p).head?, p char = false := by
  intro char hchar
  have hhead := List.head?_dropWhile_not p text
  rw [hchar] at hhead
  exact hhead

theorem legible_number {char : Char} (hdigit : char.isDigit = true)
    (hread : (number (char :: text)).outcome = .ok (kind, name)) :
    (⟨kind, name⟩ : Form).Legible := by
  have hsome : (char :: text).takeWhile Char.isDigit ≠ [] := by simp [hdigit]
  unfold number at hread
  split at hread
  · next digit more _ =>
    split at hread
    · next hmore =>
      cases hread
      exact .number (.fraction hsome mem_takeWhile (by simp [hmore]) mem_takeWhile)
    · cases hread
      exact .number (.whole hsome mem_takeWhile)
  · cases hread
    exact .number (.whole hsome mem_takeWhile)

/-- A backslash in a string stands in front of a code, and no code stands for one. -/
theorem not_mem_quoted (quote : Char) {value : List Char}
    (hread : (quoted quote text).value = .ok value) : '\\' ∉ value := by
  fun_induction quoted quote text generalizing value with
  | case1 => cases hread
  | case2 => cases hread
  | case3 code text char hcode ih =>
    obtain ⟨inner, hinner, rfl⟩ := Except.map_eq_ok_iff.mp hread
    have hchar : '\\' ≠ char := by
      unfold unescape? at hcode
      split at hcode <;> cases hcode <;> decide
    simp [hchar, ih hinner]
  | case4 => cases hread
  | case5 =>
    cases hread
    simp
  | case6 char text hlast hcode _ ih =>
    obtain ⟨inner, hinner, rfl⟩ := Except.map_eq_ok_iff.mp hread
    simp [(ne_backslash hlast hcode).symm, ih hinner]

/-- A word at which no sign starts is no operator. -/
theorem legible_word {char : Char} (hstart : isWordStart char = true)
    (hsign : Sign.first? (char :: text) = none)
    (hread : (word (char :: text)).outcome = .ok (kind, name)) : (⟨kind, name⟩ : Form).Legible := by
  have hname : name = String.ofList ((char :: text).takeWhile isWordChar) ∧
      kind = if (Keyword.ofText? name).isSome then .keyword else .identifier := by
    cases hread
    exact ⟨rfl, rfl⟩
  obtain ⟨hname, rfl⟩ := hname
  cases hreserved : Keyword.ofText? name with
  | some word =>
    obtain rfl : name = word.text := by simpa [eq_comm] using List.find?_some hreserved
    exact .keyword word
  | none =>
    have htake : (char :: text).takeWhile isWordChar = char :: text.takeWhile isWordChar :=
      List.takeWhile_cons_of_pos (isWordChar_of_isWordStart hstart)
    refine .name ⟨⟨char, by simp [hname, htake], hstart⟩, ?_, hreserved, fun hmem => ?_⟩
    · rw [hname, String.toList_ofList]
      exact mem_takeWhile
    · -- The operator would have been taken as a sign.
      obtain ⟨sign, htable, hspelling⟩ := Sign.exists_of_mem name hmem
      have hrest : sign.rest? (sign.spelling ++ (char :: text).dropWhile isWordChar) = some _ :=
        sign.rest?_append head_dropWhile
      rw [hspelling, hname, String.toList_ofList, List.takeWhile_append_dropWhile] at hrest
      exact Sign.first?_ne_none htable hrest hsign

/-- What is read off a text, by what the text starts with. -/
inductive Reads : List Char → Lexeme → Prop where
  | ended : Reads [] ⟨[], [], .ok (.endOfInput, "")⟩
  | sign {text rest : List Char} {sign : Sign} (hsign : Sign.first? text = some (sign, rest)) :
      Reads text ⟨sign.spelling, rest, .ok (sign.kind, sign.text)⟩
  | delimiter {char : Char} {more : List Char} (hchar : char ∈ delimiters) :
      Reads (char :: more) ⟨[char], more, .ok (.delimiter, String.singleton char)⟩
  | equals {more : List Char} : Reads ('=' :: more) ⟨['='], more, .ok (.equals, "=")⟩
  | number {char : Char} {more : List Char} (hdigit : char.isDigit = true) :
      Reads (char :: more) (number (char :: more))
  | string {quote : Char} {more : List Char} (hquote : quote ∈ ['"', '\'']) :
      Reads (quote :: more) ⟨quote :: (quoted quote more).taken, (quoted quote more).rest,
        (quoted quote more).value.map fun value => (.string, String.ofList value)⟩
  | word {char : Char} {more : List Char} (hstart : isWordStart char = true)
      (hsign : Sign.first? (char :: more) = none) : Reads (char :: more) (word (char :: more))
  | unexpected {char : Char} {more : List Char} :
      Reads (char :: more) ⟨[], char :: more, .error (.unexpectedCharacter char)⟩

theorem reads_read (text : List Char) : Reads text (read text) := by
  cases text with
  | nil => exact .ended
  | cons char more =>
    unfold read
    dsimp only
    split
    · next hsign => exact .sign hsign
    · next hsign =>
      split
      · next hchar => exact .delimiter hchar
      split
      · next hequals => exact hequals ▸ .equals
      split
      · next hdigit => exact .number hdigit
      split
      · next hquote => exact .string (by simpa using hquote)
      split
      · next hstart => exact .word hstart hsign
      · exact .unexpected

/-- Whatever is read, but the end of the input, is legible. -/
theorem legible_of_read (hread : (read text).outcome = .ok (kind, name))
    (hkind : kind ≠ .endOfInput) : (⟨kind, name⟩ : Form).Legible := by
  have hreads := reads_read text
  generalize read text = lexeme at hread hreads
  cases hreads with
  | ended =>
    cases hread
    exact absurd rfl hkind
  | sign hsign =>
    cases hread
    exact .sign (Sign.mem_table_of_first? hsign).1
  | delimiter hchar =>
    cases hread
    exact .delimiter hchar
  | equals =>
    cases hread
    exact .equals
  | number hdigit => exact legible_number hdigit hread
  | @string quote =>
    obtain ⟨value, hvalue, hform⟩ := Except.map_eq_ok_iff.mp hread
    cases hform
    exact .string (by rw [String.toList_ofList]; exact not_mem_quoted quote hvalue)
  | word hstart hsign => exact legible_word hstart hsign hread
  | unexpected => cases hread

end Lexeme

theorem Cursor.legible_of_next {cursor after : Cursor} {token : Token}
    (hnext : cursor.next = (.ok token, after)) (hkind : token.kind ≠ .endOfInput) :
    token.form.Legible := by
  have htoken := congrArg Prod.fst hnext
  simp only [next] at htoken
  split at htoken
  · next hread =>
    cases htoken
    exact Lexeme.legible_of_read hread hkind
  · cases htoken

theorem Cursor.legible_of_tokens {cursor : Cursor} {tokens : List Token}
    (htokens : cursor.tokens = .ok tokens) :
    ∀ token ∈ tokens, token.kind ≠ .endOfInput → token.form.Legible := by
  fun_induction Cursor.tokens cursor generalizing tokens with
  | case1 => cases htokens
  | case2 cursor token after hnext hkind =>
    cases htokens
    intro other hother hne
    obtain rfl := List.mem_singleton.mp hother
    exact absurd hkind hne
  | case3 cursor token after hnext hkind _ ih =>
    obtain ⟨more, hmore, rfl⟩ := Except.map_eq_ok_iff.mp htokens
    exact List.forall_mem_cons.mpr ⟨legible_of_next hnext, ih hmore⟩

/-- Every token of a text but the end of the input is legible. -/
theorem legible_of_tokenize {source : String} {tokens : List Token}
    (htokens : tokenize source = .ok tokens) :
    ∀ token ∈ tokens, token.kind ≠ .endOfInput → token.form.Legible :=
  Cursor.legible_of_tokens htokens

end KaLang
