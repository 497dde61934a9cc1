import KaLang.Proofs.Syntax.Shape
import KaLang.Proofs.Token.Spelling
import KaLang.Script.Emission

/-!
Reading an expression of a script. The reader takes the text that is emitted for an expression and
gives back its shape. It is no more than what the text of a script has to be unambiguous for: it
goes by the next character, and takes steps behind a value one after the other.
-/

namespace KaLang.ScriptReader

/-- The place of everything that is read off a script. -/
def nowhere : Span := .point .zero

/-- What a character behind a backslash stands for. -/
def unescape : Char → Char
  | 'n' => '\n'
  | 'r' => '\r'
  | 'b' => '\x08'
  | char => char

/-- The characters up to a closing quote, and what stands behind it. -/
def quoted (quote : Char) : List Char → Option (List Char × List Char)
  | [] => none
  | ['\\'] => none
  | '\\' :: code :: text =>
    (quoted quote text).map fun (value, rest) => (unescape code :: value, rest)
  | char :: text =>
    if char = quote then some ([], text)
    else (quoted quote text).map fun (value, rest) => (char :: value, rest)

/-- The text behind blanks and line breaks. -/
def skip (text : List Char) : List Char := text.dropWhile fun char => char = ' ' || char = '\n'

/-- The text behind the comma that may stand ahead. -/
def skipComma : List Char → List Char
  | ',' :: text => text
  | text => text

/-- A word. -/
def word (text : List Char) : String := String.ofList (text.takeWhile isWordChar)

/-- What stands behind a word. -/
def behindWord (text : List Char) : List Char := text.dropWhile isWordChar

/-- The number at the head of a text, and what stands behind it. -/
def number (text : List Char) : Expression × List Char :=
  (.number (String.ofList (Lexeme.number text).taken) nowhere, (Lexeme.number text).rest)

/-- An operator of the table applied to operands. -/
def applied? (key : String) : List Expression → Option Expression
  | [operand] =>
    (UnaryOperator.all.find? fun op => Preamble.unaryKey op = key).map fun op =>
      .unary op operand nowhere
  | [left, right] =>
    (BinaryOperator.overloadable.find? fun op => Preamble.binaryKey op = key).map fun op =>
      .binary left op right nowhere
  | _ => none

mutual

/-- An expression at the head of a text, and the text left. -/
def expression (fuel : Nat) (text : List Char) : Option (Expression × List Char) :=
  match fuel with
  | 0 => none
  | fuel + 1 => do
    let (first, rest) ← head fuel text
    onwards fuel false first rest

/-- The value that an expression starts with. A number in parentheses is one whose property is
    taken. -/
def head (fuel : Nat) (text : List Char) : Option (Expression × List Char) :=
  match fuel, text with
  | 0, _ => none
  | _, [] => none
  | _ + 1, '\x60' :: text => do
    let (value, rest) ← quoted '\x60' text
    return (.string (String.ofList value) nowhere, rest)
  | _ + 1, '(' :: text => some ((number text).1, (number text).2.tail)
  | fuel + 1, '[' :: text => do
    let (values, rest) ← items fuel ']' text
    return (.array values nowhere, rest)
  | fuel + 1, '\x7b' :: text => do
    let (values, rest) ← entries fuel text
    return (.object values nowhere, rest)
  | fuel + 1, text =>
    if text.head?.any Char.isDigit then some (number text)
    else named fuel (word text) (behindWord text)

/-- The value that starts with a word. -/
def named (fuel : Nat) (name : String) (text : List Char) : Option (Expression × List Char) :=
  match fuel with
  | 0 => none
  | fuel + 1 =>
    if name = "new" then do
      let (callee, rest) ← constructed fuel (text.drop 1)
      let (arguments, rest) ← items fuel ')' (rest.drop 1)
      return (.construct callee arguments nowhere, rest)
    else
      match decide (name = Preamble.operatorTable), text with
      | true, '[' :: '"' :: text => do
        let (operands, rest) ← items fuel ')' ((text.dropWhile (· ≠ '"')).drop 3)
        let value ← applied? (String.ofList (text.takeWhile (· ≠ '"'))) operands
        return (value, rest)
      | _, _ => return (.name name nowhere, text)

/-- What is constructed: names joined by points, or any other expression in parentheses. -/
def constructed (fuel : Nat) (text : List Char) : Option (Expression × List Char) :=
  match fuel, text with
  | 0, _ => none
  | fuel + 1, '(' :: text => do
    let (callee, rest) ← expression fuel text
    return (callee, rest.drop 1)
  | fuel + 1, text => onwards fuel true (.name (word text) nowhere) (behindWord text)

/-- What goes on with an expression. On a path only names do. -/
def onwards (fuel : Nat) (onPath : Bool) (left : Expression) (text : List Char) :
    Option (Expression × List Char) :=
  match fuel, onPath, text with
  | 0, _, _ => none
  | fuel + 1, onPath, '.' :: text =>
    onwards fuel onPath (.property left ⟨word text, nowhere⟩ nowhere) (behindWord text)
  | fuel + 1, false, '[' :: text => do
    let (key, rest) ← expression fuel text
    onwards fuel false (.binary left .member key nowhere) (rest.drop 1)
  | fuel + 1, false, '(' :: text => do
    let (arguments, rest) ← items fuel ')' text
    onwards fuel false (.call left arguments nowhere) rest
  | fuel + 1, false, ' ' :: '=' :: text => do
    let (value, rest) ← expression fuel (text.drop 1)
    return (.assign left .plain value false nowhere, rest)
  | _ + 1, _, text => some (left, text)

/-- Expressions up to a closing bracket. -/
def items (fuel : Nat) (close : Char) (text : List Char) :
    Option (List Expression × List Char) :=
  match fuel with
  | 0 => none
  | fuel + 1 =>
    match skip text with
    | [] => none
    | char :: text =>
      if char = close then some ([], text)
      else do
        let (first, rest) ← expression fuel (char :: text)
        let (more, rest) ← items fuel close (skipComma (skip rest))
        return (first :: more, rest)

/-- The fields of an object up to its closing brace. -/
def entries (fuel : Nat) (text : List Char) : Option (List Field × List Char) :=
  match fuel with
  | 0 => none
  | fuel + 1 =>
    match skip text with
    | '\x7d' :: text => some ([], text)
    | '"' :: text => do
      let (key, rest) ← quoted '"' text
      let (value, rest) ← expression fuel (rest.drop 2)
      let (more, rest) ← entries fuel (skipComma (skip rest))
      return (.mk (String.ofList key) value :: more, rest)
    | _ => none

end

/-! ### What is found with enough fuel -/

/-- Whether a reader finds a result with any fuel from some amount on. -/
def Finds {α : Type} (read : Nat → Option α) (result : α) : Prop :=
  ∃ bound, ∀ fuel, bound ≤ fuel → read fuel = some result

namespace Finds

variable {α β : Type} {read : Nat → Option α} {result other : α}

/-- No two results are found. -/
theorem unique (hresult : Finds read result) (hother : Finds read other) : result = other := by
  obtain ⟨bound, hresult⟩ := hresult
  obtain ⟨more, hother⟩ := hother
  have hsame := hresult (bound + more) (by omega)
  rw [hother (bound + more) (by omega)] at hsame
  exact (Option.some.inj hsame).symm

theorem always (hread : ∀ fuel, read fuel = some result) : Finds read result :=
  ⟨0, fun fuel _ => hread fuel⟩

theorem succ {next : Nat → Option α} (hread : ∀ fuel, read (fuel + 1) = next fuel)
    (hnext : Finds next result) : Finds read result := by
  obtain ⟨bound, hnext⟩ := hnext
  refine ⟨bound + 1, fun fuel hfuel => ?_⟩
  obtain ⟨fuel, rfl⟩ := Nat.exists_eq_add_of_lt (Nat.lt_of_succ_le hfuel)
  rw [hread]
  exact hnext _ (by omega)

theorem bind {first : Nat → Option β} {found : β} {next : Nat → β → Option α}
    (hfirst : Finds first found) (hnext : Finds (fun fuel => next fuel found) result) :
    Finds (fun fuel => first fuel >>= next fuel) result := by
  obtain ⟨bound, hfirst⟩ := hfirst
  obtain ⟨more, hnext⟩ := hnext
  refine ⟨bound + more, fun fuel hfuel => ?_⟩
  simp only [hfirst fuel (by omega), Option.bind_eq_bind, Option.bind_some]
  exact hnext fuel (by omega)

/-- What is made of what is read leaves the same text. -/
theorem map {first : Nat → Option (β × List Char)} {found : β} {rest : List Char} (change : β → α)
    (hfirst : Finds first (found, rest)) :
    Finds (fun fuel => do let (value, rest) ← first fuel; return (change value, rest))
      (change found, rest) :=
  hfirst.bind (.always fun _ => rfl)

end Finds

variable {text rest behind : List Char} {result : Expression × List Char}
  {first left value callee key : Expression} {arguments : List Expression}

theorem finds_expression (hfirst : Finds (head · text) (first, rest))
    (hrest : Finds (onwards · false first rest) result) : Finds (expression · text) result :=
  .succ (fun _ => rfl) (hfirst.bind hrest)

theorem finds_property {onPath : Bool}
    (hrest : Finds (onwards · onPath (.property left ⟨word text, nowhere⟩ nowhere)
      (behindWord text)) result) :
    Finds (onwards · onPath left ('.' :: text)) result :=
  .succ (fun _ => by rw [onwards]) hrest

theorem finds_computed (hkey : Finds (expression · text) (key, ']' :: rest))
    (hrest : Finds (onwards · false (.binary left .member key nowhere) rest) result) :
    Finds (onwards · false left ('[' :: text)) result :=
  .succ (fun _ => by rw [onwards]) (hkey.bind hrest)

theorem finds_call (harguments : Finds (items · ')' text) (arguments, rest))
    (hrest : Finds (onwards · false (.call left arguments nowhere) rest) result) :
    Finds (onwards · false left ('(' :: text)) result :=
  .succ (fun _ => by rw [onwards]) (harguments.bind hrest)

theorem finds_assign (hvalue : Finds (expression · text) (value, rest)) :
    Finds (onwards · false left (' ' :: '=' :: ' ' :: text))
      (.assign left .plain value false nowhere, rest) :=
  .succ (fun _ => by rw [onwards]; rfl)
    (hvalue.map fun value => Expression.assign left .plain value false nowhere)

/-- Whether nothing goes on with an expression: it is the last in the text, or followed by what
    closes it in. -/
def Stops : List Char → Prop
  | [] => True
  | ' ' :: text => text.head? ≠ some '='
  | char :: _ => char ∈ [',', ')', ']', '\x7d', ';', '\n']

theorem finds_end (hstop : Stops text) : Finds (onwards · false left text) (left, text) := by
  refine .succ (fun _ => ?_) (.always fun _ => rfl)
  rw [onwards]
  · rintro _ rfl
    simp [Stops] at hstop
  · rintro _ _ rfl
    simp [Stops] at hstop
  · rintro _ _ rfl
    simp [Stops] at hstop
  · rintro _ _ rfl
    simp [Stops] at hstop

/-- A path ends where no name goes on with it. -/
theorem finds_endOfPath (hstop : text.head? ≠ some '.') :
    Finds (onwards · true left text) (left, text) := by
  refine .succ (fun _ => ?_) (.always fun _ => rfl)
  rw [onwards]
  · rintro _ rfl
    simp at hstop
  · rintro _ ⟨⟩
  · rintro _ ⟨⟩
  · rintro _ ⟨⟩

/-- Whether a text can stand behind a word or a number without being read as a part of it, or
    being taken for an entry of the operator table. -/
structure Apart (rest : List Char) : Prop where
  word : ∀ char ∈ rest.head?, isWordChar char = false
  point : ∀ digit more, rest = '.' :: digit :: more → digit.isDigit = false
  table : ∀ more, rest ≠ '[' :: '"' :: more

theorem Apart.isDigit_eq_false (hrest : Apart rest) :
    ∀ char ∈ rest.head?, char.isDigit = false := by
  intro char hchar
  have hword := hrest.word char hchar
  simp only [isWordChar, Char.isAlphanum, Bool.or_eq_false_iff] at hword
  exact hword.2.2

/-- A text that starts with a blank, a parenthesis, or a sign that closes something in. -/
theorem Apart.of_head {char : Char}
    (hchar : char ∈ [' ', '(', ',', ')', ']', '\x7d', ';', '\n']) : Apart (char :: rest) := by
  have hsign : ∀ other ∈ [' ', '(', ',', ')', ']', '\x7d', ';', '\n'],
      isWordChar other = false ∧ other ≠ '.' ∧ other ≠ '[' := by simp [isWordChar]
  obtain ⟨hword, hpoint, hbracket⟩ := hsign char hchar
  refine ⟨?_, ?_, ?_⟩
  · rintro _ ⟨⟩
    exact hword
  · rintro _ _ ⟨⟩
    exact absurd rfl hpoint
  · rintro _ ⟨⟩
    exact absurd rfl hbracket

theorem Stops.apart (hstop : Stops rest) : Apart rest := by
  unfold Stops at hstop
  split at hstop
  · exact ⟨by simp, by simp, by simp⟩
  · exact .of_head (by decide)
  · exact .of_head (List.mem_cons_of_mem _ (List.mem_cons_of_mem _ hstop))

/-! ### The values that expressions start with -/

theorem finds_string {value : List Char} (hvalue : quoted '\x60' text = some (value, rest)) :
    Finds (head · ('\x60' :: text)) (.string (String.ofList value) nowhere, rest) :=
  .succ (fun _ => by rw [head, hvalue]; rfl) (.always fun _ => rfl)

theorem finds_array {values : List Expression}
    (hvalues : Finds (items · ']' text) (values, rest)) :
    Finds (head · ('[' :: text)) (.array values nowhere, rest) :=
  .succ (fun _ => by rw [head]) (hvalues.map (Expression.array · nowhere))

theorem finds_object {values : List Field} (hvalues : Finds (entries · text) (values, rest)) :
    Finds (head · ('\x7b' :: text)) (.object values nowhere, rest) :=
  .succ (fun _ => by rw [head]) (hvalues.map (Expression.object · nowhere))

theorem head_of_isWordChar {char : Char} (hchar : isWordChar char = true) (fuel : Nat) :
    head (fuel + 1) (char :: text) =
      if char.isDigit then some (number (char :: text))
      else named fuel (word (char :: text)) (behindWord (char :: text)) := by
  rw [head]
  · rfl
  · rintro ⟨⟩
  all_goals
    rintro _ ⟨⟩
    exact absurd hchar (by decide)

/-- A number is read as a whole in front of what is apart from it. -/
theorem number_append {digits : String} (hnumber : IsNumber digits) (hrest : Apart rest) :
    number (digits.toList ++ rest) = (.number digits nowhere, rest) := by
  rw [number, Lexeme.number_spelled hnumber hrest.isDigit_eq_false hrest.point,
    String.ofList_toList]

theorem finds_number {digits : String} (hnumber : IsNumber digits) (hrest : Apart rest) :
    Finds (head · (digits.toList ++ rest)) (.number digits nowhere, rest) := by
  obtain ⟨digit, more, hdigits, hdigit⟩ := hnumber.exists_digit
  have hchar : isWordChar digit = true := by simp [isWordChar, Char.isAlphanum, hdigit]
  refine .succ (fun fuel => ?_) (.always fun _ => rfl)
  rw [hdigits, List.cons_append, head_of_isWordChar hchar, if_pos hdigit, ← List.cons_append,
    ← hdigits, number_append hnumber hrest]

theorem finds_numberInParentheses {digits : String} (hnumber : IsNumber digits) :
    Finds (head · ('(' :: (digits.toList ++ ')' :: rest))) (.number digits nowhere, rest) := by
  have hclosed : Apart (')' :: rest) := .of_head (by decide)
  refine .succ (fun _ => ?_) (.always fun _ => rfl)
  rw [head, number_append hnumber hclosed]
  rfl

/-! ### Words -/

/-- A text whose first word is `name`. -/
theorem word_append {name : String} (hname : ∀ char ∈ name.toList, isWordChar char = true)
    (hrest : ∀ char ∈ rest.head?, isWordChar char = false) :
    word (name.toList ++ rest) = name ∧ behindWord (name.toList ++ rest) = rest := by
  obtain ⟨htake, hdrop⟩ := Lexeme.takeWhile_of_head hname hrest
  exact ⟨by rw [word, htake, String.ofList_toList], hdrop⟩

/-- A value that starts with a word that starts with no digit. -/
theorem finds_word {name : String}
    (hstart : ∃ first ∈ name.toList.head?, isWordStart first = true)
    (hname : ∀ char ∈ name.toList, isWordChar char = true)
    (hrest : ∀ char ∈ rest.head?, isWordChar char = false)
    (hvalue : Finds (named · name rest) result) : Finds (head · (name.toList ++ rest)) result := by
  obtain ⟨hword, hbehind⟩ := word_append hname hrest
  obtain ⟨first, hfirst, hstart⟩ := hstart
  obtain ⟨more, hchars⟩ := List.head?_eq_some_iff.mp hfirst
  refine .succ (fun fuel => ?_) hvalue
  rw [hchars, List.cons_append] at hword hbehind ⊢
  rw [head_of_isWordChar (Lexeme.isWordChar_of_isWordStart hstart), hword, hbehind,
    isDigit_of_isWordStart hstart]
  rfl

theorem finds_name {name : String} (hname : IsName name) (hrest : Apart rest) :
    Finds (head · (name.toList ++ rest)) (.name name nowhere, rest) := by
  refine finds_word hname.start hname.chars hrest.word (.succ (fun _ => ?_) (.always fun _ => rfl))
  have hnew : name ≠ "new" := by
    rintro rfl
    cases hname.notReserved
  rw [named, if_neg hnew]
  · rfl
  · exact fun more _ => hrest.table more

/-- An operator applied to operands stands behind its entry of the table. -/
theorem finds_applied {name : String} {operands : List Expression}
    (hkey : ∀ char ∈ name.toList, char ≠ '"')
    (hoperands : Finds (items · ')' text) (operands, rest))
    (hvalue : applied? name operands = some value) :
    Finds (head · ((Preamble.reference name).toList ++ '(' :: text)) (value, rest) := by
  have hreference : (Preamble.reference name).toList ++ '(' :: text =
      Preamble.operatorTable.toList ++
        '[' :: '"' :: (name.toList ++ '"' :: ']' :: '(' :: text) := by
    simp [Preamble.reference]
  have hinside : ∀ char ∈ name.toList, decide (char ≠ '"') = true := by simpa using hkey
  obtain ⟨htake, hdrop⟩ := Lexeme.takeWhile_of_head hinside
    (show ∀ char ∈ ('"' :: ']' :: '(' :: text).head?, decide (char ≠ '"') = false by
      rintro _ ⟨⟩; rfl)
  rw [hreference]
  have hfound : Finds (fun fuel => do
      let (operands, rest) ← items fuel ')' text
      let value ← applied? name operands
      return (value, rest)) (value, rest) :=
    hoperands.bind (.always fun _ => by simp [hvalue])
  refine finds_word ⟨'_', rfl, rfl⟩ (List.all_eq_true.mp rfl) (by rintro _ ⟨⟩; rfl)
    (.succ (fun _ => ?_) hfound)
  rw [named, if_neg (by decide)]
  simp only [htake, hdrop, String.ofList_toList, List.drop_succ_cons, List.drop_zero]
  rfl

/-- A path is constructed as it is. -/
theorem finds_constructedPath {name : String} (hname : IsName name) (hrest : Apart rest)
    (hpath : Finds (onwards · true (.name name nowhere) rest) result) :
    Finds (constructed · (name.toList ++ rest)) result := by
  obtain ⟨hword, hbehind⟩ := word_append hname.chars hrest.word
  refine .succ (fun _ => ?_) hpath
  rw [constructed, hword, hbehind]
  intro more hmore
  obtain ⟨first, chars, hchars, hstart⟩ := hname.exists_start
  rw [hchars] at hmore
  cases hmore
  cases hstart

/-- Everything else is constructed in parentheses. -/
theorem finds_constructedInParentheses (hcallee : Finds (expression · text) (callee, ')' :: rest)) :
    Finds (constructed · ('(' :: text)) (callee, rest) :=
  .succ (fun _ => by rw [constructed]) (hcallee.bind (.always fun _ => rfl))

theorem finds_construct (hcallee : Finds (constructed · text) (callee, '(' :: behind))
    (harguments : Finds (items · ')' behind) (arguments, rest)) :
    Finds (head · ("new ".toList ++ text)) (.construct callee arguments nowhere, rest) := by
  have hnew : "new ".toList ++ text = "new".toList ++ ' ' :: text := rfl
  rw [hnew]
  have hfound : Finds (fun fuel => do
      let (callee, rest) ← constructed fuel text
      let (arguments, rest) ← items fuel ')' (rest.drop 1)
      return (Expression.construct callee arguments nowhere, rest))
      (.construct callee arguments nowhere, rest) :=
    hcallee.bind (harguments.map (Expression.construct callee · nowhere))
  refine finds_word ⟨'n', rfl, rfl⟩ (List.all_eq_true.mp rfl) (by rintro _ ⟨⟩; rfl)
    (.succ (fun _ => ?_) hfound)
  rw [named, if_pos rfl]
  · rfl
  · rintro _ _ ⟨⟩

/-! ### Lists -/

/-- Whether a text is made of blanks and line breaks. -/
def Blank (text : List Char) : Prop := ∀ char ∈ text, char = ' ' ∨ char = '\n'

theorem blank_nil : Blank [] := by
  simp [Blank]

theorem skip_append {gap : List Char} (hgap : Blank gap)
    (htext : ∀ char ∈ text.head?, char ≠ ' ' ∧ char ≠ '\n') : skip (gap ++ text) = text := by
  refine (Lexeme.takeWhile_of_head (fun char hchar => ?_) fun char hchar => ?_).2
  · simpa using hgap char hchar
  · simpa using htext char hchar

theorem finds_noItem {gap : List Char} {close : Char} (hgap : Blank gap)
    (hclose : close ≠ ' ' ∧ close ≠ '\n') (rest : List Char) :
    Finds (items · close (gap ++ close :: rest)) ([], rest) := by
  have hskip : skip (gap ++ close :: rest) = close :: rest :=
    skip_append hgap (by rintro _ ⟨⟩; exact hclose)
  refine .succ (fun _ => ?_) (.always fun _ => rfl)
  rw [items, hskip]
  exact if_pos rfl

theorem finds_item {gap : List Char} {close : Char} {more : List Expression} (hgap : Blank gap)
    (hstart : ∃ char ∈ text.head?, char ≠ ' ' ∧ char ≠ '\n' ∧ char ≠ close)
    (hfirst : Finds (expression · text) (first, behind))
    (hmore : Finds (items · close (skipComma (skip behind))) (more, rest)) :
    Finds (items · close (gap ++ text)) (first :: more, rest) := by
  obtain ⟨char, hchar, hspace, hline, hclose⟩ := hstart
  have hskip : skip (gap ++ text) = text := by
    apply skip_append hgap
    intro other hother
    obtain rfl := Option.some.inj (hchar.symm.trans hother)
    exact ⟨hspace, hline⟩
  have hfound : Finds (fun fuel => do
      let (first, rest) ← expression fuel text
      let (more, rest) ← items fuel close (skipComma (skip rest))
      return (first :: more, rest)) (first :: more, rest) :=
    hfirst.bind (hmore.map (first :: ·))
  refine .succ (fun fuel => ?_) hfound
  rw [items, hskip]
  cases text with
  | nil => cases hchar
  | cons other text =>
    cases hchar
    exact if_neg hclose

theorem finds_noEntry {gap : List Char} (hgap : Blank gap) (rest : List Char) :
    Finds (entries · (gap ++ '\x7d' :: rest)) ([], rest) := by
  have hskip : skip (gap ++ '\x7d' :: rest) = '\x7d' :: rest :=
    skip_append hgap (by rintro _ ⟨⟩; decide)
  exact .succ (fun _ => by rw [entries, hskip]; rfl) (.always fun _ => rfl)

theorem finds_entry {gap name : List Char} {more : List Field} (hgap : Blank gap)
    (hname : quoted '"' text = some (name, ':' :: ' ' :: behind)) {after : List Char}
    (hvalue : Finds (expression · behind) (value, after))
    (hmore : Finds (entries · (skipComma (skip after))) (more, rest)) :
    Finds (entries · (gap ++ '"' :: text)) (.mk (String.ofList name) value :: more, rest) := by
  have hskip : skip (gap ++ '"' :: text) = '"' :: text :=
    skip_append hgap (by rintro _ ⟨⟩; decide)
  have hfound : Finds (fun fuel => do
      let (value, rest) ← expression fuel behind
      let (more, rest) ← entries fuel (skipComma (skip rest))
      return (Field.mk (String.ofList name) value :: more, rest))
      (.mk (String.ofList name) value :: more, rest) :=
    hvalue.bind (hmore.map (Field.mk (String.ofList name) value :: ·))
  refine .succ (fun _ => ?_) hfound
  rw [entries, hskip]
  simp only [hname]
  rfl

/-! ### Strings and keys -/

theorem quoted_escaped (quote code : Char) (text : List Char) :
    quoted quote ('\\' :: code :: text) =
      (quoted quote text).map fun (value, rest) => (unescape code :: value, rest) := rfl

theorem quoted_plain {quote char : Char} (hescape : char ≠ '\\') (hquote : char ≠ quote)
    (text : List Char) : quoted quote (char :: text) =
      (quoted quote text).map fun (value, rest) => (char :: value, rest) := by
  rw [quoted, if_neg hquote]
  · exact fun heq _ => hescape heq
  · exact fun _ _ heq _ => hescape heq

/-- A template is read as what it stands for. -/
theorem quoted_templateBody (value rest : List Char) :
    quoted '\x60' (Literal.templateBody value ++ '\x60' :: rest) = some (value, rest) := by
  induction value with
  | nil => rfl
  | cons char text ih =>
    have hescaped (code : Char) (hcode : unescape code = char) :
        quoted '\x60' (['\\', code] ++ Literal.templateBody text ++ '\x60' :: rest) =
          some (char :: text, rest) := by
      rw [List.append_assoc, List.cons_append, List.cons_append, List.nil_append, quoted_escaped,
        ih, hcode]
      rfl
    have hplain (hescape : char ≠ '\\') (hquote : char ≠ '\x60') :
        quoted '\x60' ([char] ++ Literal.templateBody text ++ '\x60' :: rest) =
          some (char :: text, rest) := by
      rw [List.append_assoc, List.cons_append, List.nil_append, quoted_plain hescape hquote, ih]
      rfl
    unfold Literal.templateBody
    dsimp only
    split
    · exact hescaped '\\' rfl
    · exact hescaped '\x60' rfl
    · exact hescaped 'r' rfl
    · split
      · exact hescaped '$' rfl
      · exact hplain (by decide) (by decide)
    · next hescape hquote _ _ => exact hplain hescape hquote

/-- A character of a key stands as it is or behind a backslash by its code. -/
theorem keyChar_spec (char : Char) :
    (∃ code, Literal.keyChar char = ['\\', code] ∧ unescape code = char) ∨
      Literal.keyChar char = [char] ∧ char ≠ '\\' ∧ char ≠ '"' := by
  unfold Literal.keyChar
  split
  · exact .inl ⟨'\\', rfl, rfl⟩
  · exact .inl ⟨'"', rfl, rfl⟩
  · exact .inl ⟨'n', rfl, rfl⟩
  · exact .inl ⟨'r', rfl, rfl⟩
  · exact .inl ⟨'b', rfl, rfl⟩
  · next hescape hquote _ _ _ => exact .inr ⟨rfl, hescape, hquote⟩

/-- A key is read as what it stands for. -/
theorem quoted_keyChar (value rest : List Char) :
    quoted '"' (value.flatMap Literal.keyChar ++ '"' :: rest) = some (value, rest) := by
  induction value with
  | nil => rfl
  | cons char text ih =>
    rw [List.flatMap_cons, List.append_assoc]
    rcases keyChar_spec char with ⟨code, hchar, hcode⟩ | ⟨hchar, hescape, hquote⟩
    · rw [hchar, List.cons_append, List.cons_append, List.nil_append, quoted_escaped, ih, hcode]
      rfl
    · rw [hchar, List.cons_append, List.nil_append, quoted_plain hescape hquote, ih]
      rfl

end KaLang.ScriptReader
