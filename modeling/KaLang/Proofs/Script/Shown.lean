import KaLang.Proofs.Script.Declarations
import KaLang.Proofs.Script.Reader
import KaLang.Proofs.Syntax.Grouping

/-!
What is emitted for an expression shows it. The reader of scripts finds the expression in its text,
up to places and marks of local assignments, with every step behind an assignment taken behind its
value (`Shown`).
-/

namespace KaLang

/-! ### The characters of layouts -/

namespace Layout

variable {width : Nat}

/-- The characters of a layout with `width` blanks to a level. -/
def chars (width : Nat) (layout : Layout) : List Char :=
  layout.flatMap fun piece => (piece.render width).toList

theorem toList_render (width : Nat) (layout : Layout) :
    (layout.render width).toList = layout.chars width := by
  rw [render, String.toList_join, chars, List.flatMap_def, List.map_map]
  rfl

@[simp] theorem chars_ofText (text : String) : (ofText text).chars width = text.toList := by
  simp [chars, ofText, Piece.render]

@[simp] theorem chars_append (first more : Layout) :
    chars width (first ++ more) = first.chars width ++ more.chars width :=
  List.flatMap_append

theorem chars_intercalate (separator : Layout) (items : List Layout) :
    chars width (separator.intercalate items) =
      (separator.chars width).intercalate (items.map (chars width)) := by
  induction items with
  | nil => rfl
  | cons first more ih =>
    cases more with
    | nil => simp
    | cons second more =>
      rw [List.intercalate_cons_cons, chars_append, chars_append, ih]
      simp only [List.map_cons, List.intercalate_cons_cons]

theorem chars_row (items : List Layout) :
    (row items).chars width = [',', ' '].intercalate (items.map (chars width)) := by
  have hseparator : (ofText ", ").chars width = [',', ' '] := by simp
  rw [row, chars_intercalate, hseparator]

/-- Behind the first line comes a line break or nothing. -/
theorem exists_firstLine_append (width : Nat) (layout : Layout) : ∃ rest,
    layout.chars width = layout.firstLine.toList ++ rest ∧ ∀ char ∈ rest.head?, char = '\n' := by
  induction layout with
  | nil => exact ⟨[], by simp [chars, firstLine]⟩
  | cons piece more ih =>
    cases piece with
    | text written =>
      obtain ⟨rest, hmore, hrest⟩ := ih
      refine ⟨rest, ?_, hrest⟩
      have hfirst : firstLine (.text written :: more) = written ++ firstLine more := by
        rw [firstLine, List.takeWhile_cons_of_pos rfl, List.map_cons, String.join_cons]
        rfl
      have hchars : chars width (.text written :: more) = written.toList ++ chars width more := rfl
      rw [hchars, hmore, hfirst, String.toList_append, List.append_assoc]
    | newline depth =>
      exact ⟨chars width (.newline depth :: more), by simp [firstLine, Piece.isText],
        by simp [chars, Piece.render]⟩

end Layout

namespace ScriptReader

/-! ### Lists in brackets -/

/-- Whether a text is a list in brackets. -/
inductive Bracketed (opening close : Char) (items : List (List Char)) : List Char → Prop where
  | intro {front gap back : List Char} (hfront : Blank front) (hgap : Blank gap)
      (hback : Blank back) : Bracketed opening close items
        (opening :: (front ++ ((',' :: gap).intercalate items ++ (back ++ [close]))))

theorem blank_newline (width depth : Nat) : Blank (Layout.chars width [.newline depth]) := by
  intro char hchar
  simp only [Layout.chars, Piece.render, List.flatMap_cons, List.flatMap_nil, List.append_nil,
    String.toList_append, String.toList_ofList, List.mem_append, List.mem_replicate] at hchar
  rcases hchar with hchar | ⟨_, hchar⟩
  · exact Or.inr (by simpa using hchar)
  · exact Or.inl hchar

/-- A list on one line, with the same blanks at both ends. -/
theorem bracketed_oneLine {edge : List Char} (hedge : Blank edge) (opening close : Char)
    (items : List (List Char)) :
    Bracketed opening close items
      (opening :: (edge ++ ([',', ' '].intercalate items ++ (edge ++ [close])))) :=
  .intro hedge (by simp [Blank]) hedge

theorem bracketed_row (width : Nat) (items : List Layout) :
    Bracketed '(' ')' (items.map (Layout.chars width))
      (Layout.chars width (Emitter.inParentheses (Layout.row items))) := by
  have hline := bracketed_oneLine blank_nil '(' ')' (items.map (Layout.chars width))
  simpa [Emitter.inParentheses, Layout.chars_row] using hline

theorem bracketed_stacked {opening close : String} {first last : Char}
    (hopening : opening.toList = [first]) (hclose : close.toList = [last]) (width depth : Nat)
    (items : List Layout) :
    Bracketed first last (items.map (Layout.chars width))
      (Layout.chars width (Layout.stacked depth opening close items)) := by
  have hseparator : Layout.chars width [.text ",", .newline (depth + 1)] =
      ',' :: Layout.chars width [.newline (depth + 1)] := by
    simp [Layout.chars, Piece.render]
  have htext : Layout.chars width (Layout.stacked depth opening close items) =
      first :: (Layout.chars width [.newline (depth + 1)] ++
        ((',' :: Layout.chars width [.newline (depth + 1)]).intercalate
            (items.map (Layout.chars width)) ++
          (Layout.chars width [.newline depth] ++ [last]))) := by
    simp only [Layout.stacked, Layout.chars_append, Layout.chars_ofText, Layout.chars_intercalate,
      hopening, hclose, hseparator]
    simp only [List.append_assoc, List.cons_append, List.nil_append]
  rw [htext]
  exact .intro (blank_newline _ _) (blank_newline _ _) (blank_newline _ _)

theorem blank_space : Blank [' '] := by
  simp [Blank]

theorem bracketed_array (width depth : Nat) (items : List Layout) :
    Bracketed '[' ']' (items.map (Layout.chars width))
      (Layout.chars width (Emitter.array depth items)) := by
  unfold Emitter.array
  split
  · simpa using bracketed_oneLine blank_nil '[' ']' []
  · split
    · have hline := bracketed_oneLine blank_space '[' ']' (items.map (Layout.chars width))
      simpa [Layout.chars_row] using hline
    · exact bracketed_stacked (by simp) (by simp) width depth items

theorem bracketed_object (width depth : Nat) (fields : List Layout) :
    Bracketed '\x7b' '\x7d' (fields.map (Layout.chars width))
      (Layout.chars width (Emitter.object depth fields)) := by
  unfold Emitter.object
  split
  · simpa using bracketed_oneLine blank_nil '\x7b' '\x7d' []
  · next field =>
    simpa using bracketed_oneLine blank_space '\x7b' '\x7d' [Layout.chars width field]
  · exact bracketed_stacked (by simp) (by simp) width depth fields

/-! ### Expressions in texts -/

/-- Whether a text starts as an expression does. Only a number in parentheses starts with one. -/
inductive Starts : List Char → Prop where
  | sign {char : Char} {more : List Char} (hchar : char ∈ ['\x60', '[', '\x7b']) :
      Starts (char :: more)
  | word {char : Char} {more : List Char} (hchar : isWordChar char = true) : Starts (char :: more)
  | number {digit : Char} {more : List Char} (hdigit : digit.isDigit = true) :
      Starts ('(' :: digit :: more)

/-- Whether a text shows an expression: whatever stands behind, the reader finds the expression, and
    takes the steps that it finds behind the text where they belong. -/
structure Shown (e : Expression) (text : List Char) : Prop where
  starts : Starts text
  reads : ∀ {rest left : List Char} {step : Expression → Expression}, Apart rest →
    (∀ first, first.isAssign = false → Finds (onwards · false first rest) (step first, left)) →
      Finds (expression · (text ++ rest)) (e.behind step, left)

/-- Whether a text shows names joined by points: the reader comes from the first name to the whole
    path, be it on the way to a larger one or not. -/
def ShownPath (e : Expression) (text : List Char) : Prop :=
  ∃ name steps, IsName name ∧ text = name.toList ++ steps ∧
    ∀ {rest : List Char}, Apart rest → Apart (steps ++ rest) ∧ ∀ {onPath result},
      Finds (onwards · onPath e rest) result →
        Finds (onwards · onPath (.name name nowhere) (steps ++ rest)) result

/-- Whether a text shows a field of an object. -/
def ShownField (field : Field) (text : List Char) : Prop :=
  ∃ value, text = (Literal.key field.key).toList ++ ':' :: ' ' :: value ∧ Shown field.value value

variable {text rest : List Char} {e : Expression}

theorem Starts.append (hstarts : Starts text) (rest : List Char) : Starts (text ++ rest) := by
  cases hstarts with
  | sign hchar => exact .sign hchar
  | word hchar => exact .word hchar
  | number hdigit => exact .number hdigit

/-- An expression starts with no blank, and with nothing that closes a list or opens a key. -/
theorem Starts.exists_head (hstarts : Starts text) :
    ∃ char ∈ text.head?, char ≠ ' ' ∧ char ≠ '\n' ∧ char ≠ ')' ∧ char ≠ ']' ∧ char ≠ '"' := by
  cases hstarts with
  | @sign char _ hchar =>
    refine ⟨char, rfl, ?_⟩
    simp only [List.mem_cons, List.not_mem_nil, or_false] at hchar
    rcases hchar with rfl | rfl | rfl <;> decide
  | @word char _ hchar =>
    refine ⟨char, rfl, ?_, ?_, ?_, ?_, ?_⟩ <;>
    · rintro rfl
      cases hchar
  | number hdigit => exact ⟨'(', rfl, by decide⟩

theorem Starts.of_name {name : String} (hname : IsName name) (rest : List Char) :
    Starts (name.toList ++ rest) := by
  obtain ⟨first, more, hchars, hstart⟩ := hname.exists_start
  rw [hchars]
  exact .word (Lexeme.isWordChar_of_isWordStart hstart)

/-- A name behind a point is apart from what stands ahead. -/
theorem Apart.of_point {key : String} (hkey : IsName key) (rest : List Char) :
    Apart ('.' :: (key.toList ++ rest)) := by
  refine ⟨?_, ?_, ?_⟩
  · rintro _ ⟨⟩
    rfl
  · intro digit more hmore
    obtain ⟨first, chars, hchars, hstart⟩ := hkey.exists_start
    rw [hchars] at hmore
    cases hmore
    exact isDigit_of_isWordStart hstart
  · rintro _ ⟨⟩

/-- An expression in brackets is apart from what stands ahead: it is no entry of the table. -/
theorem Apart.of_bracket (hstarts : Starts text) : Apart ('[' :: text) := by
  refine ⟨?_, ?_, ?_⟩
  · rintro _ ⟨⟩
    rfl
  · rintro _ _ ⟨⟩
  · rintro more ⟨⟩
    obtain ⟨char, hchar, _, _, _, _, hquote⟩ := hstarts.exists_head
    cases hchar
    exact hquote rfl

namespace Shown

theorem finds (hshown : Shown e text) (hstop : Stops rest) :
    Finds (expression · (text ++ rest)) (e, rest) := by
  have hfound : Finds (expression · (text ++ rest)) (e.behind id, rest) :=
    hshown.reads hstop.apart fun first _ => finds_end hstop
  rwa [Expression.behind_id] at hfound

/-- A text shows one expression. -/
theorem unique {other : Expression} (hshown : Shown e text) (hother : Shown other text) :
    e = other := by
  have hend : Stops [] := trivial
  exact congrArg Prod.fst ((hshown.finds hend).unique (hother.finds hend))

/-! ### Values and paths -/

theorem of_head (hstarts : Starts text) (he : e.isAssign = false)
    (hhead : ∀ {rest}, Apart rest → Finds (head · (text ++ rest)) (e, rest)) : Shown e text := by
  refine ⟨hstarts, fun hrest hstep => ?_⟩
  rw [Expression.behind_of_not_assign he]
  exact finds_expression (hhead hrest) (hstep e he)

theorem string (value : String) :
    Shown (.string value nowhere) (Literal.template value).toList := by
  have htext : (Literal.template value).toList =
      '\x60' :: (Literal.templateBody value.toList ++ ['\x60']) := by
    simp [Literal.template]
  rw [htext]
  refine of_head (.sign (by decide)) rfl fun {rest} _ => ?_
  have hvalue := finds_string (quoted_templateBody value.toList rest)
  rw [String.ofList_toList] at hvalue
  simpa using hvalue

theorem number {digits : String} (hnumber : IsNumber digits) :
    Shown (.number digits nowhere) digits.toList := by
  have hstarts : Starts digits.toList := by
    obtain ⟨digit, more, hdigits, hdigit⟩ := hnumber.exists_digit
    rw [hdigits]
    exact .word (by simp [isWordChar, Char.isAlphanum, hdigit])
  exact of_head hstarts rfl fun hrest => finds_number hnumber hrest

theorem numberInParentheses {digits : String} (hnumber : IsNumber digits) :
    Shown (.number digits nowhere) ('(' :: (digits.toList ++ [')'])) := by
  have hstarts : Starts ('(' :: (digits.toList ++ [')'])) := by
    obtain ⟨digit, more, hdigits, hdigit⟩ := hnumber.exists_digit
    rw [hdigits]
    exact .number hdigit
  refine of_head hstarts rfl fun _ => ?_
  simpa using finds_numberInParentheses hnumber

theorem name {name : String} (hname : IsName name) :
    Shown (.name name nowhere) name.toList := by
  have hstarts := Starts.of_name hname []
  rw [List.append_nil] at hstarts
  exact of_head hstarts rfl fun hrest => finds_name hname hrest

end Shown

theorem ShownPath.name {name : String} (hname : IsName name) :
    ShownPath (.name name nowhere) name.toList :=
  ⟨name, [], hname, (List.append_nil _).symm, fun hrest => ⟨hrest, fun hfound => hfound⟩⟩

theorem ShownPath.property {owner : Expression} (hpath : ShownPath owner text) {key : String}
    (hkey : IsName key) :
    ShownPath (.property owner ⟨key, nowhere⟩ nowhere) (text ++ '.' :: key.toList) := by
  obtain ⟨name, steps, hname, rfl, hsteps⟩ := hpath
  refine ⟨name, steps ++ '.' :: key.toList, hname, List.append_assoc _ _ _, fun {rest} hrest => ?_⟩
  obtain ⟨hapart, hreads⟩ := hsteps (Apart.of_point hkey rest)
  obtain ⟨hword, hbehind⟩ := word_append hkey.chars hrest.word
  rw [List.append_assoc, List.cons_append]
  refine ⟨hapart, fun hfound => hreads (finds_property ?_)⟩
  rwa [hword, hbehind]

namespace Shown

/-! ### Steps and assignments -/

/-- A step that the reader takes behind whatever stands ahead. -/
theorem of_step {left : Expression} {more : List Char} {next : Expression → Expression}
    (hleft : Shown left text) (hnext : ∀ first, (next first).isAssign = false)
    (hmore : ∀ {rest}, Apart rest → Apart (more ++ rest) ∧ ∀ {first result},
      Finds (onwards · false (next first) rest) result →
        Finds (onwards · false first (more ++ rest)) result) :
    Shown (left.behind next) (text ++ more) := by
  refine ⟨hleft.starts.append more, fun hrest hstep => ?_⟩
  obtain ⟨hapart, hreads⟩ := hmore hrest
  rw [Expression.behind_behind hnext, List.append_assoc]
  exact hleft.reads hapart fun first _ => hreads (hstep (next first) (hnext first))

theorem property {owner : Expression} (howner : Shown owner text) {key : String}
    (hkey : IsName key) :
    Shown (owner.behind fun owner => .property owner ⟨key, nowhere⟩ nowhere)
      (text ++ '.' :: key.toList) := by
  refine howner.of_step (fun _ => rfl) fun {rest} hrest => ?_
  obtain ⟨hword, hbehind⟩ := word_append hkey.chars hrest.word
  rw [List.cons_append]
  refine ⟨Apart.of_point hkey rest, fun hfound => finds_property ?_⟩
  rwa [hword, hbehind]

theorem computed {left key : Expression} {inside : List Char} (hleft : Shown left text)
    (hkey : Shown key inside) :
    Shown (left.behind fun left => .binary left .member key nowhere)
      (text ++ '[' :: (inside ++ [']'])) := by
  refine hleft.of_step (fun _ => rfl) fun {rest} hrest => ?_
  rw [List.cons_append, List.append_assoc]
  have hclosed : Stops (']' :: rest) := by simp [Stops]
  exact ⟨.of_bracket (hkey.starts.append _), finds_computed (hkey.finds hclosed)⟩

/-- An assignment shows its value, and what stands behind it goes to the value. -/
theorem assign {target value : Expression} {inside : List Char} (htarget : ShownPath target text)
    (hvalue : Shown value inside) :
    Shown (.assign target .plain value false nowhere) (text ++ ' ' :: '=' :: ' ' :: inside) := by
  obtain ⟨name, steps, hname, rfl, hsteps⟩ := htarget
  refine ⟨(Starts.of_name hname steps).append _, fun {rest} {left} {step} hrest hstep => ?_⟩
  have hequals : Apart (' ' :: '=' :: ' ' :: (inside ++ rest)) := .of_head (by decide)
  obtain ⟨hapart, hreads⟩ := hsteps hequals
  rw [List.append_assoc, List.append_assoc]
  exact finds_expression (finds_name hname hapart)
    (hreads (finds_assign (hvalue.reads hrest hstep)))

end Shown

/-! ### Lists -/

theorem skip_of_head (htext : ∀ char ∈ text.head?, char ≠ ' ' ∧ char ≠ '\n') :
    skip text = text :=
  skip_append blank_nil htext

/-- What stands behind an item of a list is the end of the list, or a comma and more of it. -/
theorem exists_behind_item {gap back : List Char} {close : Char} (hgap : Blank gap)
    (hback : Blank back) (hclose : close ∈ [')', ']', '\x7d']) (text : List Char)
    (more : List (List Char)) (rest : List Char) :
    ∃ behind, (',' :: gap).intercalate (text :: more) ++ (back ++ close :: rest) = text ++ behind ∧
      Stops behind ∧ ∃ front last, Blank front ∧ Blank last ∧ skipComma (skip behind) =
        front ++ ((',' :: gap).intercalate more ++ (last ++ close :: rest)) := by
  have hsign : ∀ other ∈ [')', ']', '\x7d'],
      other ≠ ' ' ∧ other ≠ '\n' ∧ other ≠ ',' ∧ other ≠ '=' := by simp
  obtain ⟨hspace, hline, hcomma, hequals⟩ := hsign close hclose
  cases more with
  | nil =>
    have hskip : skip (back ++ close :: rest) = close :: rest :=
      skip_append hback (by rintro _ ⟨⟩; exact ⟨hspace, hline⟩)
    have hkeep : skipComma (close :: rest) = close :: rest := by
      unfold skipComma
      split
      · next hcons =>
        cases hcons
        exact absurd rfl hcomma
      · rfl
    refine ⟨back ++ close :: rest, by simp, ?_, [], [], blank_nil, blank_nil,
      by simp [hskip, hkeep]⟩
    cases back with
    | nil =>
      simp only [List.mem_cons, List.not_mem_nil, or_false] at hclose
      rcases hclose with rfl | rfl | rfl <;> simp [Stops]
    | cons char blanks =>
      rcases hback char List.mem_cons_self with rfl | rfl
      · cases blanks with
        | nil => simpa [Stops] using hequals
        | cons second blanks =>
          rcases hback second (by simp) with rfl | rfl <;> simp [Stops]
      · simp [Stops]
  | cons second more =>
    refine ⟨',' :: (gap ++ ((',' :: gap).intercalate (second :: more) ++ (back ++ close :: rest))),
      by simp [List.intercalate_cons_cons], by simp [Stops], gap, back, hgap, hback, ?_⟩
    rw [skip_of_head (by rintro _ ⟨⟩; decide)]
    rfl

theorem finds_items {values : List Expression} {texts : List (List Char)}
    (hvalues : List.Forall₂ Shown values texts) {gap front back : List Char} {close : Char}
    (hfront : Blank front) (hgap : Blank gap) (hback : Blank back) (hclose : close ∈ [')', ']'])
    (rest : List Char) :
    Finds (items · close (front ++ ((',' :: gap).intercalate texts ++ (back ++ close :: rest))))
      (values, rest) := by
  have hsign : ∀ other ∈ [')', ']'],
      other ∈ [')', ']', '\x7d'] ∧ other ≠ ' ' ∧ other ≠ '\n' := by simp
  obtain ⟨hmem, hspace⟩ := hsign close hclose
  induction hvalues generalizing front back with
  | nil =>
    have hblank : Blank (front ++ back) := fun char hchar =>
      (List.mem_append.mp hchar).elim (hfront char) (hback char)
    simpa using finds_noItem hblank hspace rest
  | @cons value text values texts hvalue hvalues ih =>
    obtain ⟨behind, hbehind, hstop, front', last, hfront', hlast, hskip⟩ :=
      exists_behind_item hgap hback hmem text texts rest
    obtain ⟨char, hchar, hblank, hline, hparenthesis, hbracket, _⟩ :=
      (hvalue.starts.append behind).exists_head
    have hdiff : char ≠ close := by
      simp only [List.mem_cons, List.not_mem_nil, or_false] at hclose
      rcases hclose with rfl | rfl
      · exact hparenthesis
      · exact hbracket
    rw [hbehind]
    refine finds_item hfront ⟨char, hchar, hblank, hline, hdiff⟩ (hvalue.finds hstop) ?_
    rw [hskip]
    exact ih hfront' hlast

theorem finds_entries {fields : List Field} {texts : List (List Char)}
    (hfields : List.Forall₂ ShownField fields texts) {gap front back : List Char}
    (hfront : Blank front) (hgap : Blank gap) (hback : Blank back) (rest : List Char) :
    Finds (entries · (front ++ ((',' :: gap).intercalate texts ++ (back ++ '\x7d' :: rest))))
      (fields, rest) := by
  induction hfields generalizing front back with
  | nil =>
    have hblank : Blank (front ++ back) := fun char hchar =>
      (List.mem_append.mp hchar).elim (hfront char) (hback char)
    simpa using finds_noEntry hblank rest
  | @cons field text fields texts hfield hfields ih =>
    have hclose : '\x7d' ∈ [')', ']', '\x7d'] := by decide
    obtain ⟨behind, hbehind, hstop, front', last, hfront', hlast, hskip⟩ :=
      exists_behind_item hgap hback hclose text texts rest
    obtain ⟨key, value⟩ := field
    obtain ⟨inside, htext, hvalue⟩ := hfield
    have hkey : text ++ behind =
        '"' :: (key.toList.flatMap Literal.keyChar ++ '"' :: ':' :: ' ' :: (inside ++ behind)) := by
      simp [htext, Literal.key, Field.key]
    have hmore := ih hfront' hlast
    rw [← hskip] at hmore
    have hfound := finds_entry hfront (quoted_keyChar key.toList _) (hvalue.finds hstop) hmore
    rwa [String.ofList_toList, ← hkey, ← hbehind] at hfound

namespace Shown

variable {texts : List (List Char)} {items : List Expression}

theorem array (hitems : List.Forall₂ Shown items texts) (htext : Bracketed '[' ']' texts text) :
    Shown (.array items nowhere) text := by
  cases htext with
  | intro hfront hgap hback =>
    have hclose : ']' ∈ [')', ']'] := by decide
    refine of_head (.sign (by decide)) rfl fun {rest} _ => ?_
    simpa using finds_array (finds_items hitems hfront hgap hback hclose rest)

theorem object {entries : List Field} (hentries : List.Forall₂ ShownField entries texts)
    (htext : Bracketed '\x7b' '\x7d' texts text) : Shown (.object entries nowhere) text := by
  cases htext with
  | intro hfront hgap hback =>
    refine of_head (.sign (by decide)) rfl fun {rest} _ => ?_
    simpa using finds_object (finds_entries hentries hfront hgap hback rest)

theorem call {callee : Expression} {inside : List Char} (hcallee : Shown callee text)
    (harguments : List.Forall₂ Shown items texts) (hinside : Bracketed '(' ')' texts inside) :
    Shown (callee.behind fun callee => .call callee items nowhere) (text ++ inside) := by
  cases hinside with
  | intro hfront hgap hback =>
    refine hcallee.of_step (fun _ => rfl) fun {rest} _ => ⟨.of_head (by decide), fun hfound => ?_⟩
    have hclose : ')' ∈ [')', ']'] := by decide
    have hitems := finds_items harguments hfront hgap hback hclose rest
    simpa using finds_call hitems hfound

theorem construct {callee : Expression} {inside : List Char}
    (hcallee : ∀ behind, Finds (constructed · (text ++ '(' :: behind)) (callee, '(' :: behind))
    (harguments : List.Forall₂ Shown items texts) (hinside : Bracketed '(' ')' texts inside) :
    Shown (.construct callee items nowhere) ("new ".toList ++ text ++ inside) := by
  cases hinside with
  | intro hfront hgap hback =>
    refine of_head (.word (by decide)) rfl fun {rest} _ => ?_
    have hclose : ')' ∈ [')', ']'] := by decide
    have hitems := finds_items harguments hfront hgap hback hclose rest
    simpa using finds_construct (hcallee _) hitems

theorem applied {key : String} {value : Expression} {inside : List Char}
    (hkey : ∀ char ∈ key.toList, char ≠ '"') (hoperands : List.Forall₂ Shown items texts)
    (hinside : Bracketed '(' ')' texts inside) (hvalue : applied? key items = some value)
    (hassign : value.isAssign = false) :
    Shown value ((Preamble.reference key).toList ++ inside) := by
  have hstarts : Starts ((Preamble.reference key).toList ++ inside) := by
    have htable : (Preamble.reference key).toList =
        '_' :: ("_kaOperators".toList ++ '[' :: '"' :: (key.toList ++ ['"', ']'])) := by
      simp [Preamble.reference, Preamble.operatorTable]
    rw [htable]
    exact .word (by decide)
  cases hinside with
  | intro hfront hgap hback =>
    refine of_head hstarts hassign fun {rest} _ => ?_
    have hclose : ')' ∈ [')', ']'] := by decide
    have hitems := finds_items hoperands hfront hgap hback hclose rest
    simpa using finds_applied hkey hitems hvalue

end Shown

/-! ### What is emitted -/

theorem applied?_unary (op : UnaryOperator) (operand : Expression) :
    applied? (Preamble.unaryKey op) [operand] = some (.unary op operand nowhere) := by
  cases op <;> rfl

theorem applied?_binary {op : BinaryOperator} (hop : op ≠ .member) (left right : Expression) :
    applied? (Preamble.binaryKey op) [left, right] = some (.binary left op right nowhere) := by
  cases op with
  | member => exact absurd rfl hop
  | _ => rfl

theorem unaryKey_unquoted (op : UnaryOperator) :
    ∀ char ∈ (Preamble.unaryKey op).toList, char ≠ '"' := by
  cases op <;> simp [Preamble.unaryKey, UnaryOperator.text]

theorem binaryKey_unquoted (op : BinaryOperator) :
    ∀ char ∈ (Preamble.binaryKey op).toList, char ≠ '"' := by
  cases op <;> simp [Preamble.binaryKey, BinaryOperator.text]

end ScriptReader

namespace Emitter

open ScriptReader

variable {env : Environment} {depth width : Nat}

/-- A path shows itself as it is assigned to. -/
theorem shownPath_of_path? : {target : Expression} → {path : String} →
    target.path? = some path → target.Every Expression.IsLegible →
      ShownPath target.unmarked path.toList
  | .name text _, _, hpath, htarget => by
    cases hpath
    exact .name htarget
  | .property owner key _, path, hpath, htarget => by
    obtain ⟨base, hbase, rfl⟩ := Option.map_eq_some_iff.mp hpath
    have htext : (base ++ "." ++ key.name).toList = base.toList ++ '.' :: key.name.toList := by simp
    rw [htext]
    exact (shownPath_of_path? hbase htarget.2).property htarget.1

/-- A path is emitted as it is assigned to. -/
theorem yields_path : {target : Expression} → {path : String} → target.path? = some path →
    Yields (expression env depth target) fun code => code.chars width = path.toList
  | .name text _, _, hpath => by
    cases hpath
    exact .pure (by simp)
  | .property owner key _, path, hpath => by
    obtain ⟨base, hbase, rfl⟩ := Option.map_eq_some_iff.mp hpath
    have hnumber : isNumber owner = false := by cases owner <;> first | rfl | cases hbase
    refine (yields_path hbase).bind fun code hcode => .pure ?_
    simp [hnumber, inParenthesesIf, hcode]

/-- Whether the texts that an emitter builds show expressions. -/
def Shows (width : Nat) (emitter : Emitter Layout) (e : Expression) : Prop :=
  Yields emitter fun code => Shown e.unmarked.regrouped (code.chars width)

theorem shows_ofText {e : Expression} {text : String}
    (htext : Shown e.unmarked.regrouped text.toList) :
    Shows width (Pure.pure (Layout.ofText text)) e :=
  .pure (by rwa [Layout.chars_ofText])

/-- A number whose property is taken stands in parentheses. -/
theorem shows_owner {owner : Expression} (howner : Shows width (expression env depth owner) owner)
    (hlegible : owner.IsLegible) :
    Yields (expression env depth owner) fun code =>
      Shown owner.unmarked.regrouped ((inParenthesesIf (isNumber owner) code).chars width) := by
  cases owner with
  | number text span =>
    have htext : (inParenthesesIf true (.ofText text)).chars width =
        '(' :: (text.toList ++ [')']) := by
      simp [inParenthesesIf, inParentheses]
    refine .pure ?_
    rw [isNumber, htext]
    exact .numberInParentheses hlegible
  | _ => exact howner

theorem shown_applied {key : String} {operands : List Expression} {codes : List Layout}
    {value : Expression} (hkey : ∀ char ∈ key.toList, char ≠ '"')
    (hoperands : List.Forall₂ Shown operands (codes.map (Layout.chars width)))
    (hvalue : applied? key operands = some value) (hassign : value.isAssign = false) :
    Shown value ((applied key codes).chars width) := by
  have htext : (applied key codes).chars width =
      (Preamble.reference key).toList ++ (inParentheses (Layout.row codes)).chars width := by
    simp [applied, inParentheses]
  rw [htext]
  exact .applied hkey hoperands (bracketed_row width codes) hvalue hassign

/-- What is constructed stands in parentheses unless it is a path. -/
theorem finds_constructed {callee : Expression}
    (hcallee : Shows width (expression env depth callee) callee)
    (hlegible : callee.Every Expression.IsLegible) :
    Yields (expression env depth callee) fun code => ∀ behind,
      Finds (constructed · ((inParenthesesIf (!callee.isAssignable) code).chars width ++
        '(' :: behind)) (callee.unmarked.regrouped, '(' :: behind) := by
  cases hpath : callee.path? with
  | none =>
    have hassignable : callee.isAssignable = false := by
      rw [Expression.isAssignable_eq_isSome_path?, hpath]
      rfl
    intro before code after hrun behind
    have hclosed : Stops (')' :: '(' :: behind) := by simp [Stops]
    have hfound := finds_constructedInParentheses ((hcallee before code after hrun).finds hclosed)
    simpa [hassignable, inParenthesesIf, inParentheses] using hfound
  | some path =>
    have hassignable : callee.isAssignable = true := by
      rw [Expression.isAssignable_eq_isSome_path?, hpath]
      rfl
    have hsame : callee.unmarked.regrouped = callee.unmarked :=
      Expression.regrouped_of_isAssignable _ (by simpa [Expression.unmarked] using hassignable)
    intro before code after hrun behind
    have hcode : code.chars width = path.toList := yields_path hpath before code after hrun
    obtain ⟨name, steps, hname, htext, hsteps⟩ := shownPath_of_path? hpath hlegible
    have hopen : Apart ('(' :: behind) := .of_head (by decide)
    obtain ⟨hapart, hreads⟩ := hsteps hopen
    rw [hassignable, hsame]
    change Finds (constructed · (code.chars width ++ '(' :: behind)) _
    rw [hcode, htext, List.append_assoc]
    exact finds_constructedPath hname hapart (hreads (finds_endOfPath (by simp)))

mutual

/-- Whatever is emitted for an expression shows it. -/
theorem shows_expression (depth : Nat) : (e : Expression) → e.Every Expression.IsLegible →
    e.Every Expression.IsPlain → Shows width (expression env depth e) e
  | .string value _, _, _ => shows_ofText (.string value)
  | .number _ _, hlegible, _ => shows_ofText (.number hlegible)
  | .name _ _, hlegible, _ => shows_ofText (.name hlegible)
  | .array items _, hlegible, hplain =>
    (shows_expressions (depth + 1) items hlegible.2 hplain.2).bind fun codes hcodes =>
      .pure (.array hcodes (bracketed_array width depth codes))
  | .object entries _, hlegible, hplain =>
    (shows_fields (depth + 1) entries hlegible.2 hplain.2).bind fun codes hcodes =>
      .pure (.object hcodes (bracketed_object width depth codes))
  | .property owner key _, hlegible, hplain => by
    have howner := shows_owner (shows_expression depth owner hlegible.2 hplain.2) hlegible.2.self
    refine howner.bind fun code hcode => .pure ?_
    rw [Layout.chars_append, Layout.chars_ofText, String.toList_append]
    exact hcode.property hlegible.1
  | .assign target op value isLocal span, hlegible, hplain => by
    have hvalue := shows_expression depth value hlegible.2.2 hplain.2.2
    obtain rfl : op = .plain := hplain.1
    refine .after fun _ => ?_
    cases hpath : target.path? with
    | none => exact .fault _
    | some path =>
      have htarget := shownPath_of_path? hpath hlegible.2.1
      refine hvalue.bind fun code hcode => .pure ?_
      rw [Layout.chars_append, Layout.chars_ofText, String.toList_append, List.append_assoc]
      exact Shown.assign htarget hcode
  | .binary left op right _, hlegible, hplain => by
    have hleft := shows_expression depth left hlegible.2.1 hplain.2.1
    have hright := shows_expression depth right hlegible.2.2 hplain.2.2
    refine hleft.bind fun leftCode hleftCode => hright.bind fun rightCode hrightCode => ?_
    by_cases hop : op = .member
    · subst hop
      have hcode := hleftCode.computed hrightCode
      refine .pure ?_
      simp only [Layout.chars_append, Layout.chars_ofText, List.append_assoc]
      exact hcode
    · rw [if_neg hop]
      refine .pure ?_
      rw [Expression.unmarked, Expression.shape, Expression.regrouped_binary hop]
      exact shown_applied (binaryKey_unquoted op) (.cons hleftCode (.cons hrightCode .nil))
        (applied?_binary hop _ _) rfl
  | .unary op operand _, hlegible, hplain =>
    (shows_expression depth operand hlegible.2 hplain.2).bind fun code hcode => .pure
      (shown_applied (unaryKey_unquoted op) (.cons hcode .nil) (applied?_unary op _) rfl)
  | .lambda _ _ _, _, hplain => absurd hplain id
  | .call callee arguments _, hlegible, hplain => by
    have hcallee := shows_expression depth callee hlegible.2.1 hplain.2.1
    have harguments := shows_expressions depth arguments hlegible.2.2 hplain.2.2
    have hlambda : isLambda callee = false := by
      cases callee with
      | lambda => exact absurd hplain.2.1 id
      | _ => rfl
    refine hcallee.bind fun code hcode => harguments.bind fun codes hcodes => .pure ?_
    rw [hlambda, Layout.chars_append]
    exact hcode.call hcodes (bracketed_row width codes)
  | .construct callee arguments _, hlegible, hplain => by
    have hcallee := shows_expression depth callee hlegible.2.1 hplain.2.1
    have harguments := shows_expressions depth arguments hlegible.2.2 hplain.2.2
    refine (finds_constructed hcallee hlegible.2.1).bind fun code hcode =>
      harguments.bind fun codes hcodes => .pure ?_
    rw [Layout.chars_append, Layout.chars_append, Layout.chars_ofText]
    exact .construct hcode hcodes (bracketed_row width codes)

theorem shows_expressions (depth : Nat) : (items : List Expression) →
    Expression.EachEvery Expression.IsLegible items →
    Expression.EachEvery Expression.IsPlain items →
    Yields (expressions env depth items) fun codes =>
      List.Forall₂ Shown (Expression.regroupedEach (Expression.shapes (fun _ => false) items))
        (codes.map (Layout.chars width))
  | [], _, _ => .pure .nil
  | item :: more, hlegible, hplain =>
    (shows_expression depth item hlegible.1 hplain.1).bind fun _ hcode =>
      (shows_expressions depth more hlegible.2 hplain.2).bind fun _ hcodes =>
        .pure (.cons hcode hcodes)

theorem shows_fields (depth : Nat) : (entries : List Field) →
    Field.EachEvery Expression.IsLegible entries →
    Field.EachEvery Expression.IsPlain entries →
    Yields (fields env depth entries) fun codes =>
      List.Forall₂ ShownField (Field.regroupedEach (Field.shapes (fun _ => false) entries))
        (codes.map (Layout.chars width))
  | [], _, _ => .pure .nil
  | .mk key value :: more, hlegible, hplain =>
    (shows_expression depth value hlegible.1 hplain.1).bind fun code hcode =>
      (shows_fields depth more hlegible.2 hplain.2).bind fun _ hcodes =>
        .pure (.cons ⟨code.chars width, by simp [Field.key], hcode⟩ hcodes)

end

end Emitter

end KaLang
