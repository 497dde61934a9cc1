import KaLang.Proofs.Token.Layout

/-!
Texts joined at a line break. A token of the first text is read alike whether or not a line follows,
and a comment that the text ends in ends with its line. Behind the break reading goes on as at the
start of a text, with every place moved down (`tokenize_append_line`).
-/

namespace KaLang

/-! ### Moving places -/

/-- The place moved down by bytes and lines. Its column stays. -/
def Position.shift (bytes lines : Nat) (p : Position) : Position :=
  ⟨p.offset + bytes, p.line + lines, p.column⟩

/-- The span with both ends moved down. -/
def Span.shift (bytes lines : Nat) (span : Span) : Span :=
  ⟨span.first.shift bytes lines, span.last.shift bytes lines⟩

/-- The token moved down. -/
def Token.shift (bytes lines : Nat) (token : Token) : Token :=
  ⟨token.kind, token.text, token.span.shift bytes lines⟩

/-- The same fault, moved down. -/
def CompileError.shift (bytes lines : Nat) : CompileError → CompileError
  | lexing fault position => lexing fault (position.shift bytes lines)
  | parsing fault span => parsing fault (span.shift bytes lines)
  | emitting fault span => emitting fault (span.shift bytes lines)

/-- The lexer in front of the same text, moved down. -/
def Cursor.shift (bytes lines : Nat) (cursor : Cursor) : Cursor :=
  ⟨cursor.position.shift bytes lines, cursor.rest⟩

variable {bytes lines : Nat}

/-- A fault that is moved is told in the same words. -/
theorem CompileError.report_shift (error : CompileError) :
    (error.shift bytes lines).report =
      { error.report with span := error.report.span.shift bytes lines } := by
  cases error <;> rfl

namespace Position

theorem advance_shift (p : Position) (char : Char) :
    (p.shift bytes lines).advance char = (p.advance char).shift bytes lines := by
  unfold advance shift
  split <;> simp [Nat.add_right_comm]

theorem after_shift (p : Position) (text : List Char) :
    (p.shift bytes lines).after text = (p.after text).shift bytes lines := by
  induction text generalizing p with
  | nil => rfl
  | cons char text ih => rw [after_cons, after_cons, advance_shift, ih]

theorem line_after (p : Position) (text : List Char) :
    (p.after text).line = p.line + text.count '\n' := by
  induction text generalizing p with
  | nil => rfl
  | cons char text ih =>
    rw [after_cons, ih, List.count_cons]
    unfold advance
    split
    · next hline =>
      simp only [hline, beq_self_eq_true, ↓reduceIte]
      omega
    · next hline => simp [hline]

end Position

theorem LexFault.place_shift (fault : LexFault) (start : Position) (taken : List Char) :
    fault.place (start.shift bytes lines) taken = (fault.place start taken).shift bytes lines := by
  cases fault <;> exact Position.after_shift _ _

namespace Cursor

theorem next_shift (cursor : Cursor) :
    (cursor.shift bytes lines).next =
      ((cursor.next.1.map (Token.shift bytes lines)).mapError (CompileError.shift bytes lines),
        cursor.next.2.shift bytes lines) := by
  simp only [next, shift, Position.after_shift, LexFault.place_shift]
  split <;> rfl

/-- One more token, or the end of the input, or a fault. -/
theorem tokens_eq (cursor : Cursor) :
    cursor.tokens =
      match cursor.next with
      | (.error error, _) => .error error
      | (.ok token, after) =>
        if token.kind = .endOfInput then .ok [token] else after.tokens.map (token :: ·) := by
  rw [tokens]
  split
  · next herror => simp only [herror]
  · next hok => simp only [hok, dite_eq_ite]

/-- From a place further down the same tokens are read there. -/
theorem tokens_shift (cursor : Cursor) :
    (cursor.shift bytes lines).tokens =
      (cursor.tokens.map (List.map (Token.shift bytes lines))).mapError
        (CompileError.shift bytes lines) := by
  fun_induction Cursor.tokens cursor with
  | case1 cursor error after hnext =>
    rw [tokens_eq, next_shift, hnext]
    rfl
  | case2 cursor token after hnext hkind =>
    rw [tokens_eq, next_shift, hnext]
    exact if_pos hkind
  | case3 cursor token after hnext hkind _ ih =>
    rw [tokens_eq, next_shift, hnext]
    refine (if_neg hkind).trans ?_
    rw [ih]
    cases after.tokens <;> rfl

end Cursor

/-! ### Tokens in front of a line break -/

variable {text more : List Char} {kind : TokenKind} {name : String}

namespace Sign

theorem newline_not_mem_spelling : ∀ sign ∈ table, '\n' ∉ sign.spelling := by
  decide

theorem isPrefixOf?_append_line {spelling : List Char} (hline : '\n' ∉ spelling) :
    spelling.isPrefixOf? (text ++ '\n' :: more) =
      (spelling.isPrefixOf? text).map (· ++ '\n' :: more) := by
  induction spelling generalizing text with
  | nil => rfl
  | cons char spelling ih =>
    obtain ⟨hchar, hmore⟩ := not_or.mp (mt List.mem_cons.mpr hline)
    cases text with
    | nil =>
      change (if char == '\n' then _ else none) = none
      rw [if_neg fun heq => hchar (beq_iff_eq.mp heq).symm]
    | cons other text =>
      change (if char == other then spelling.isPrefixOf? (text ++ '\n' :: more) else none) =
        Option.map _ (if char == other then spelling.isPrefixOf? text else none)
      split
      · exact ih hmore
      · rfl

/-- What stands behind a sign is changed with the text, unless a word goes on there. -/
theorem rest?_map {sign : Sign} {other : List Char} {change : List Char → List Char}
    (hspelling : sign.spelling.isPrefixOf? other = (sign.spelling.isPrefixOf? text).map change)
    (hhead : ∀ rest, (change rest).head?.any isWordChar = rest.head?.any isWordChar) :
    sign.rest? other = (sign.rest? text).map change := by
  unfold rest?
  rw [hspelling]
  cases sign.spelling.isPrefixOf? text with
  | none => rfl
  | some rest =>
    simp only [Option.map_some, hhead]
    split <;> rfl

/-- The same sign is found in a changed text if no sign is found in only one of them. -/
theorem first?_map {other : List Char} (change : List Char → List Char)
    (hrest : ∀ sign ∈ table, sign.rest? other = (sign.rest? text).map change) :
    first? other = (first? text).map fun found => (found.1, change found.2) := by
  have hsome (signs : List Sign) (hsigns : ∀ sign ∈ signs, sign ∈ table) :
      (signs.findSome? fun sign => (sign.rest? other).map (sign, ·)) =
        (signs.findSome? fun sign => (sign.rest? text).map (sign, ·)).map
          fun found => (found.1, change found.2) := by
    induction signs with
    | nil => rfl
    | cons sign signs ih =>
      obtain ⟨hsign, hmore⟩ := List.forall_mem_cons.mp hsigns
      rw [List.findSome?_cons, List.findSome?_cons, hrest sign hsign]
      cases sign.rest? text with
      | none => exact ih hmore
      | some rest => rfl
  exact hsome table fun _ hsign => hsign

/-- The same sign is found, with the line behind what stands behind it. -/
theorem first?_append_line :
    first? (text ++ '\n' :: more) =
      (first? text).map fun found => (found.1, found.2 ++ '\n' :: more) := by
  apply first?_map (· ++ '\n' :: more)
  intro sign hsign
  apply rest?_map (isPrefixOf?_append_line (newline_not_mem_spelling sign hsign))
  -- Behind the sign the line break is no more part of a word than the end of the text is.
  intro rest
  cases rest <;> rfl

end Sign

namespace Lexeme

theorem takeWhile_append_line {p : Char → Bool} (hline : p '\n' = false) :
    (text ++ '\n' :: more).takeWhile p = text.takeWhile p ∧
      (text ++ '\n' :: more).dropWhile p = text.dropWhile p ++ '\n' :: more := by
  induction text with
  | nil => simp [hline]
  | cons char text ih =>
    cases hchar : p char <;> simp [hchar, ih]

theorem number_append_line :
    number (text ++ '\n' :: more) =
      ⟨(number text).taken, (number text).rest ++ '\n' :: more, (number text).outcome⟩ := by
  obtain ⟨htake, hdrop⟩ := @takeWhile_append_line text more Char.isDigit rfl
  unfold number
  rw [htake, hdrop]
  rcases text.dropWhile Char.isDigit with _ | ⟨point, _ | ⟨digit, fraction⟩⟩
  · rfl
  · -- The line break behind a point is no fraction.
    by_cases hpoint : point = '.'
    · subst hpoint
      rfl
    · simp [hpoint]
  · by_cases hpoint : point = '.'
    · subst hpoint
      obtain ⟨htakeMore, hdropMore⟩ :=
        @takeWhile_append_line (digit :: fraction) more Char.isDigit rfl
      rw [List.cons_append] at htakeMore hdropMore
      simp only [List.cons_append, htakeMore, hdropMore]
      split <;> rfl
    · simp [hpoint]

/-- What follows a string does not change its value. -/
theorem quoted_append_of_ok {quote : Char} {value : List Char} (ending : List Char)
    (hread : (quoted quote text).value = .ok value) :
    quoted quote (text ++ ending) =
      ⟨(quoted quote text).taken, (quoted quote text).rest ++ ending, .ok value⟩ := by
  fun_induction quoted quote text generalizing value with
  | case1 => cases hread
  | case2 => cases hread
  | case3 code text char hcode ih =>
    obtain ⟨inner, hinner, rfl⟩ := Except.map_eq_ok_iff.mp hread
    simp only [List.cons_append, quoted, hcode, ih hinner, Quoted.push, Except.map]
  | case4 => cases hread
  | case5 text hlast hcode =>
    cases hread
    rw [List.cons_append, quoted_cons (ne_backslash hlast hcode), if_pos rfl]
  | case6 char text hlast hcode hquote ih =>
    obtain ⟨inner, hinner, rfl⟩ := Except.map_eq_ok_iff.mp hread
    rw [List.cons_append, quoted_cons (ne_backslash hlast hcode), if_neg hquote, ih hinner]
    rfl

theorem word_append_line :
    word (text ++ '\n' :: more) =
      ⟨(word text).taken, (word text).rest ++ '\n' :: more, (word text).outcome⟩ := by
  obtain ⟨htake, hdrop⟩ := @takeWhile_append_line text more isWordChar rfl
  simp only [word, htake, hdrop]

/-- A token of a text is read alike in front of a line break. -/
theorem read_append_line (hread : (read text).outcome = .ok (kind, name))
    (hkind : kind ≠ .endOfInput) :
    read (text ++ '\n' :: more) =
      ⟨(read text).taken, (read text).rest ++ '\n' :: more, .ok (kind, name)⟩ := by
  cases text with
  | nil =>
    cases hread
    exact absurd rfl hkind
  | cons char text =>
    have hnumber := @number_append_line (char :: text) more
    have hword := @word_append_line (char :: text) more
    have hsign := @Sign.first?_append_line (char :: text) more
    rw [← hread]
    rw [List.cons_append] at hnumber hword hsign ⊢
    simp only [read, hsign] at hread ⊢
    cases hfound : Sign.first? (char :: text) with
    | some found => rfl
    | none =>
      simp only [hfound, Option.map_none] at hread ⊢
      split
      · rfl
      split
      · rfl
      split
      · exact hnumber
      split
      · next hdelimiter hequals hdigit hquote =>
        simp only [hdelimiter, hequals, hdigit, hquote, ↓reduceIte] at hread
        obtain ⟨value, hvalue, -⟩ := Except.map_eq_ok_iff.mp hread
        simp only [quoted_append_of_ok _ hvalue, hvalue]
      split
      · exact hword
      · next hdelimiter hequals hdigit hquote hstart =>
        simp [hdelimiter, hequals, hdigit, hquote, hstart] at hread

end Lexeme

/-! ### Joined texts -/

/-- Blanks in front of something stay the same whatever follows. -/
theorem splitBlank_append_of_ne_nil {inComment : Bool} (ending : List Char)
    (hrest : (splitBlank inComment text).2 ≠ []) :
    splitBlank inComment (text ++ ending) =
      ((splitBlank inComment text).1, (splitBlank inComment text).2 ++ ending) := by
  fun_induction splitBlank inComment text with
  | case1 => exact absurd rfl hrest
  | _ => simp_all [splitBlank]

/-- A text of blanks and the line break behind it are blank. -/
theorem splitBlank_append_line {inComment : Bool} (hrest : (splitBlank inComment text).2 = []) :
    splitBlank inComment (text ++ '\n' :: more) =
      (text ++ '\n' :: (splitBlank false more).1, (splitBlank false more).2) := by
  fun_induction splitBlank inComment text with
  | case1 => simp [splitBlank]
  | _ => simp_all [splitBlank]

namespace Cursor

variable {cursor after : Cursor} {token : Token}

theorem next_append_line (hnext : cursor.next = (.ok token, after))
    (hkind : token.kind ≠ .endOfInput) :
    (⟨cursor.position, cursor.rest ++ '\n' :: more⟩ : Cursor).next =
      (.ok token, ⟨after.position, after.rest ++ '\n' :: more⟩) := by
  simp only [next, Prod.mk.injEq] at hnext
  obtain ⟨hresult, rfl⟩ := hnext
  split at hresult
  · next kind name hread =>
    cases hresult
    have hrest : (splitBlank false cursor.rest).2 ≠ [] := by
      intro hnil
      rw [hnil] at hread
      cases hread
      exact hkind rfl
    simp only [next, splitBlank_append_of_ne_nil _ hrest, Lexeme.read_append_line hread hkind]
  · cases hresult

/-- A text that only blanks are left of ends in front of the line behind it. -/
theorem next_behind_line (hnext : cursor.next = (.ok token, after))
    (hkind : token.kind = .endOfInput) :
    (⟨cursor.position, cursor.rest ++ '\n' :: more⟩ : Cursor).next =
      (⟨cursor.position.after (cursor.rest ++ ['\n']), more⟩ : Cursor).next := by
  have hrest : (splitBlank false cursor.rest).2 = [] := by
    have htoken := congrArg Prod.fst hnext
    simp only [next] at htoken
    split at htoken
    · next kind name hread =>
      cases htoken
      obtain rfl : kind = .endOfInput := hkind
      exact (Lexeme.eq_nil_of_endOfInput hread).1
    · cases htoken
  have hplace (blank : List Char) : cursor.position.after (cursor.rest ++ '\n' :: blank) =
      (cursor.position.after (cursor.rest ++ ['\n'])).after blank := by
    simp
  simp only [next, splitBlank_append_line hrest, hplace (splitBlank false more).1]

/-- Behind the tokens of a text and a line break the text is read on. -/
theorem tokens_append_line {tokens : List Token} {last : Token}
    (htokens : cursor.tokens = .ok (tokens ++ [last])) :
    (⟨cursor.position, cursor.rest ++ '\n' :: more⟩ : Cursor).tokens =
      (⟨cursor.position.after (cursor.rest ++ ['\n']), more⟩ : Cursor).tokens.map
        (tokens ++ ·) := by
  fun_induction Cursor.tokens cursor generalizing tokens with
  | case1 => cases htokens
  | case2 cursor token after hnext hkind =>
    have hsplit : [] ++ [token] = tokens ++ [last] := Except.ok.inj htokens
    obtain ⟨rfl, -⟩ := List.append_inj' hsplit rfl
    rw [tokens_eq, next_behind_line hnext hkind, ← tokens_eq]
    cases (⟨cursor.position.after (cursor.rest ++ ['\n']), more⟩ : Cursor).tokens <;> rfl
  | case3 cursor token after hnext hkind _ ih =>
    obtain ⟨others, hothers, hwhole⟩ := Except.map_eq_ok_iff.mp htokens
    obtain ⟨body, rfl, -⟩ := (laid_of_tokens hothers).exists_body
    have hsplit : (token :: body) ++ [_] = tokens ++ [last] := hwhole
    obtain ⟨rfl, hlast⟩ := List.append_inj' hsplit rfl
    cases hlast
    have hbehind : after.position.after (after.rest ++ ['\n']) =
        cursor.position.after (cursor.rest ++ ['\n']) := by
      obtain ⟨gap, slice, hrest, -, -, -, hafter⟩ := exists_slice_of_next hnext hkind
      simp [hrest, hafter]
    rw [tokens_eq, next_append_line hnext hkind]
    refine (if_neg hkind).trans ?_
    rw [ih hothers, hbehind]
    cases (⟨cursor.position.after (cursor.rest ++ ['\n']), more⟩ : Cursor).tokens <;> rfl

end Cursor

/-- The place behind a text and a line break is the start of a text, moved down. -/
theorem Position.after_line (text : String) :
    zero.after (text.toList ++ ['\n']) =
      zero.shift (text.utf8ByteSize + 1) (text.toList.count '\n' + 1) := by
  have hplace (p : Position) : p.after ['\n'] = ⟨p.offset + 1, p.line + 1, 0⟩ := rfl
  rw [after_append, hplace, offset_after_source, line_after]
  simp [shift, zero]

/-- Two texts joined at a line break have the tokens of the first, without its end, and then those
    of the second, moved down by the bytes and lines in front of it. If the second has a fault, so
    has the joined text, moved down as well and told in the same words. -/
theorem tokenize_append_line {before after : String} {tokens : List Token} {last : Token}
    (hbefore : tokenize before = .ok (tokens ++ [last])) :
    let bytes := before.utf8ByteSize + 1
    let lines := before.toList.count '\n' + 1
    match tokenize after with
    | .ok more =>
      tokenize (before ++ "\n" ++ after) = .ok (tokens ++ more.map (Token.shift bytes lines))
    | .error error =>
      tokenize (before ++ "\n" ++ after) = .error (error.shift bytes lines) ∧
        (error.shift bytes lines).report =
          { error.report with span := error.report.span.shift bytes lines } := by
  intro bytes lines
  have htext : (before ++ "\n" ++ after).toList = before.toList ++ '\n' :: after.toList := by
    simp
  have hwhole : tokenize (before ++ "\n" ++ after) =
      ((Cursor.ofText after).shift bytes lines).tokens.map (tokens ++ ·) := by
    have hjoined := @Cursor.tokens_append_line after.toList (.ofText before) _ _ hbefore
    unfold tokenize Cursor.ofText
    rw [htext]
    refine hjoined.trans ?_
    exact congrArg (fun p => (Cursor.tokens ⟨p, after.toList⟩).map _) (Position.after_line before)
  rw [hwhole, Cursor.tokens_shift]
  unfold tokenize
  cases (Cursor.ofText after).tokens with
  | ok more => rfl
  | error error => exact ⟨rfl, error.report_shift⟩

/-- A comment at the end of the first text, a character of two bytes, and a fault behind the
    break. -/
theorem tokenize_append_line_commented :
    ∃ tokens last, tokenize "'é' # b" = .ok (tokens ++ [last]) ∧
      tokenize ("'é' # b" ++ "\n" ++ "c @") =
        .error (.lexing (.unexpectedCharacter '@') ⟨11, 1, 2⟩) := by
  have hbefore : tokenize "'é' # b" =
      .ok ([⟨.string, "é", ⟨⟨0, 0, 0⟩, ⟨3, 0, 2⟩⟩⟩] ++ [.endOfInput (.point ⟨8, 0, 7⟩)]) := by
    cbv
  have hafter : tokenize "c @" = .error (.lexing (.unexpectedCharacter '@') ⟨2, 0, 2⟩) := by
    cbv
  have hjoined := @tokenize_append_line _ "c @" _ _ hbefore
  rw [hafter] at hjoined
  exact ⟨_, _, hbefore, hjoined.1⟩

end KaLang
