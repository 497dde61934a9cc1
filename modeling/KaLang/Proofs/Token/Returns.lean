import KaLang.Proofs.Syntax.Moving
import KaLang.Proofs.Token.Seam

/-!
Line breaks with a carriage return in front (`withReturns`). A return is blank between tokens, goes
on with a comment, and is one more character of a string. So a text is read alike with and without
returns: it has the same fault, or the same tokens but for what string literals stand for, and no
line or column changes (`alike_tokenize_withReturns`). A backslash in front of a line break is left
out, since it is told with the character that it stands in front of.
-/

namespace KaLang

/-! ### Texts and places -/

/-- The text with a carriage return in front of every line break. -/
def withReturns (text : List Char) : List Char :=
  text.flatMap fun char => if char = '\n' then ['\r', '\n'] else [char]

variable {text : List Char} {char : Char}

@[simp] theorem withReturns_nil : withReturns [] = [] := rfl

@[simp] theorem withReturns_line :
    withReturns ('\n' :: text) = '\r' :: '\n' :: withReturns text := rfl

theorem withReturns_cons (hchar : char ≠ '\n') :
    withReturns (char :: text) = char :: withReturns text := by
  simp [withReturns, hchar]

@[simp] theorem withReturns_append (text more : List Char) :
    withReturns (text ++ more) = withReturns text ++ withReturns more :=
  List.flatMap_append

theorem withReturns_of_not_mem (hline : '\n' ∉ text) : withReturns text = text := by
  induction text with
  | nil => rfl
  | cons char text ih =>
    obtain ⟨hchar, hmore⟩ := not_or.mp (mt List.mem_cons.mpr hline)
    rw [withReturns_cons (Ne.symm hchar), ih hmore]

/-- A text with returns starts with a return, or as the text does. -/
theorem eq_cons_of_withReturns {more : List Char} (hwith : withReturns text = char :: more) :
    char = '\r' ∨ ∃ rest, text = char :: rest ∧ withReturns rest = more := by
  cases text with
  | nil => cases hwith
  | cons first rest =>
    by_cases hfirst : first = '\n'
    · subst hfirst
      cases hwith
      exact .inl rfl
    · rw [withReturns_cons hfirst] at hwith
      cases hwith
      exact .inr ⟨rest, rfl, rfl⟩

/-- The last character is the same one, unless it is a line break. -/
theorem dropLast_withReturns (hlast : text.getLast? ≠ some '\n') :
    (withReturns text).dropLast = withReturns text.dropLast := by
  rcases List.eq_nil_or_concat text with rfl | ⟨ahead, last, rfl⟩
  · rfl
  · rw [List.concat_eq_append] at hlast ⊢
    have hchar : last ≠ '\n' := by simpa using hlast
    simp [withReturns_cons hchar]

/-- The place in the text with returns: there is one more byte for every line above. -/
def Position.withReturns (p : Position) : Position := ⟨p.offset + p.line, p.line, p.column⟩

/-- Everything is put where it stands in the text with returns. -/
def Relocation.returns : Relocation := ⟨Position.withReturns, Position.withReturns⟩

theorem Position.after_withReturns (p : Position) (text : List Char) :
    p.withReturns.after (KaLang.withReturns text) = (p.after text).withReturns := by
  induction text generalizing p with
  | nil => rfl
  | cons char text ih =>
    by_cases hline : char = '\n'
    · subst hline
      have hreturn : (p.withReturns.advance '\r').advance '\n' = (p.advance '\n').withReturns := by
        have hsize : '\r'.utf8Size = 1 ∧ '\n'.utf8Size = 1 := by decide
        have hbytes : p.offset + p.line + 1 + 1 = p.offset + 1 + (p.line + 1) := by omega
        simp [advance, withReturns, hsize, hbytes]
      rw [withReturns_line, after_cons, after_cons, after_cons, hreturn, ih]
    · have hplain : p.withReturns.advance char = (p.advance char).withReturns := by
        simp [advance, withReturns, hline, Nat.add_right_comm]
      rw [withReturns_cons hline, after_cons, after_cons, hplain, ih]

/-! ### Signs, numbers and words -/

namespace Sign

theorem return_not_mem_spelling : ∀ sign ∈ table, '\r' ∉ sign.spelling := by
  decide

theorem isPrefixOf?_withReturns {spelling : List Char} (hline : '\n' ∉ spelling)
    (hreturn : '\r' ∉ spelling) :
    spelling.isPrefixOf? (withReturns text) = (spelling.isPrefixOf? text).map withReturns := by
  induction spelling generalizing text with
  | nil => rfl
  | cons first spelling ih =>
    obtain ⟨hfirst, hmore⟩ := not_or.mp (mt List.mem_cons.mpr hline)
    obtain ⟨hother, hmoreReturn⟩ := not_or.mp (mt List.mem_cons.mpr hreturn)
    cases text with
    | nil => rfl
    | cons char text =>
      by_cases hchar : char = '\n'
      · subst hchar
        rw [withReturns_line, List.isPrefixOf?, List.isPrefixOf?,
          if_neg fun heq => hother (beq_iff_eq.mp heq).symm,
          if_neg fun heq => hfirst (beq_iff_eq.mp heq).symm]
        rfl
      · rw [withReturns_cons hchar, List.isPrefixOf?, List.isPrefixOf?, ih hmore hmoreReturn]
        split <;> rfl

theorem first?_withReturns :
    first? (withReturns text) = (first? text).map fun found => (found.1, withReturns found.2) := by
  apply first?_map withReturns
  intro sign hsign
  apply rest?_map (isPrefixOf?_withReturns (newline_not_mem_spelling sign hsign)
    (return_not_mem_spelling sign hsign))
  -- Behind the sign a return is no more part of a word than the line break is.
  intro rest
  cases rest with
  | nil => rfl
  | cons char rest =>
    by_cases hchar : char = '\n'
    · subst hchar
      rfl
    · rw [withReturns_cons hchar]
      rfl

end Sign

namespace Lexeme

theorem takeWhile_withReturns {p : Char → Bool} (hline : p '\n' = false)
    (hreturn : p '\r' = false) :
    (withReturns text).takeWhile p = text.takeWhile p ∧
      (withReturns text).dropWhile p = withReturns (text.dropWhile p) := by
  induction text with
  | nil => exact ⟨rfl, rfl⟩
  | cons char text ih =>
    by_cases hchar : char = '\n'
    · subst hchar
      simp [hline, hreturn]
    · rw [withReturns_cons hchar]
      cases hpasses : p char <;> simp [hpasses, ih, withReturns_cons hchar]

theorem newline_not_mem_takeWhile {p : Char → Bool} (hline : p '\n' = false) :
    '\n' ∉ text.takeWhile p := by
  intro hmem
  have hpasses := List.mem_takeWhile_imp hmem
  rw [hline] at hpasses
  cases hpasses

/-- Whether two readings say the same but for what a string literal stands for. -/
inductive SameOutcome : Except LexFault (TokenKind × String) →
    Except LexFault (TokenKind × String) → Prop where
  | ok {kind : TokenKind} {name other : String} (htext : kind ≠ .string → other = name) :
      SameOutcome (.ok (kind, name)) (.ok (kind, other))
  | error (fault : LexFault) : SameOutcome (.error fault) (.error fault)

theorem SameOutcome.refl (outcome : Except LexFault (TokenKind × String)) :
    SameOutcome outcome outcome := by
  rcases outcome with fault | ⟨kind, name⟩
  · exact .error fault
  · exact .ok fun _ => rfl

/-- Whether a reading is what becomes of another one in the text with returns. A line break may only
    be the last character taken where the text ends inside a string. -/
structure Returned (lexeme other : Lexeme) : Prop where
  taken : other.taken = withReturns lexeme.taken
  rest : other.rest = withReturns lexeme.rest
  outcome : SameOutcome lexeme.outcome other.outcome
  ends : lexeme.outcome = .error .unclosedString ∨ lexeme.outcome = .error .unfinishedEscape ∨
    lexeme.taken.getLast? ≠ some '\n'

theorem Returned.of_not_mem {taken rest : List Char}
    {outcome : Except LexFault (TokenKind × String)} (hline : '\n' ∉ taken) :
    Returned ⟨taken, rest, outcome⟩ ⟨taken, withReturns rest, outcome⟩ where
  taken := (withReturns_of_not_mem hline).symm
  rest := rfl
  outcome := .refl outcome
  ends := .inr (.inr fun hlast => hline (List.mem_of_getLast? hlast))

theorem number_fraction {digit : Char} {more : List Char}
    (hrest : text.dropWhile Char.isDigit = '.' :: digit :: more) (hdigit : digit.isDigit = true) :
    number text =
      let all := text.takeWhile Char.isDigit ++ '.' :: (digit :: more).takeWhile Char.isDigit
      ⟨all, (digit :: more).dropWhile Char.isDigit, .ok (.number, String.ofList all)⟩ := by
  simp only [number, hrest, hdigit, ↓reduceIte]

theorem number_whole (hrest : ∀ digit more,
    text.dropWhile Char.isDigit = '.' :: digit :: more → digit.isDigit = false) :
    number text = ⟨text.takeWhile Char.isDigit, text.dropWhile Char.isDigit,
      .ok (.number, String.ofList (text.takeWhile Char.isDigit))⟩ := by
  unfold number
  split
  · next digit more hpoint => rw [hrest digit more hpoint, hpoint, if_neg (by decide)]
  · rfl

theorem number_withReturns (text : List Char) :
    Returned (number text) (number (withReturns text)) := by
  have hwhole : '\n' ∉ text.takeWhile Char.isDigit := newline_not_mem_takeWhile rfl
  obtain ⟨htake, hdrop⟩ := @takeWhile_withReturns text Char.isDigit rfl rfl
  by_cases hfraction : ∃ digit more,
      text.dropWhile Char.isDigit = '.' :: digit :: more ∧ digit.isDigit = true
  · obtain ⟨digit, more, hrest, hdigit⟩ := hfraction
    have hmore : '\n' ∉ (digit :: more).takeWhile Char.isDigit := newline_not_mem_takeWhile rfl
    have hline : digit ≠ '\n' := by
      rintro rfl
      cases hdigit
    obtain ⟨htakeMore, hdropMore⟩ := @takeWhile_withReturns (digit :: more) Char.isDigit rfl rfl
    rw [withReturns_cons hline] at htakeMore hdropMore
    rw [hrest, withReturns_cons (by decide), withReturns_cons hline] at hdrop
    rw [number_fraction hrest hdigit, number_fraction hdrop hdigit, htake, htakeMore, hdropMore]
    refine .of_not_mem fun hmem => ?_
    rcases List.mem_append.mp hmem with hmem | hmem
    · exact hwhole hmem
    · exact hmore (List.mem_of_ne_of_mem (by decide) hmem)
  · have hrest : ∀ digit more, text.dropWhile Char.isDigit = '.' :: digit :: more →
        digit.isDigit = false := by
      intro digit more hrest
      by_contra hdigit
      exact hfraction ⟨digit, more, hrest, by simpa using hdigit⟩
    rw [number_whole hrest, number_whole, htake, hdrop]
    · exact .of_not_mem hwhole
    · -- A return behind a point is no more a digit than the line break is.
      intro digit more hpoint
      rw [hdrop] at hpoint
      obtain hreturn | ⟨fraction, hpoint, hfraction⟩ := eq_cons_of_withReturns hpoint
      · cases hreturn
      obtain rfl | ⟨rest, rfl, -⟩ := eq_cons_of_withReturns hfraction
      · rfl
      · exact hrest digit rest hpoint

theorem word_withReturns (text : List Char) : Returned (word text) (word (withReturns text)) := by
  obtain ⟨htake, hdrop⟩ := @takeWhile_withReturns text isWordChar rfl rfl
  simp only [word, htake, hdrop]
  exact .of_not_mem (newline_not_mem_takeWhile rfl)

/-! ### Strings -/

/-- Whether the inside of a string is what becomes of another one in the text with returns. What it
    stands for may differ. -/
structure Quoted.Returned (inside other : Quoted) : Prop where
  taken : other.taken = withReturns inside.taken
  rest : other.rest = withReturns inside.rest
  value : other.value.map (fun _ => ()) = inside.value.map fun _ => ()
  ends : inside.value = .error .unclosedString ∨ inside.value = .error .unfinishedEscape ∨
    ∃ ahead last, inside.taken = ahead ++ [last] ∧ last ≠ '\n'

theorem Quoted.Returned.push {inside other : Quoted} (hreturned : inside.Returned other)
    {taken more : List Char} (hmore : more = withReturns taken) (value valueOther : Char) :
    (inside.push taken value).Returned (other.push more valueOther) where
  taken := by simp only [Quoted.push, hreturned.taken, hmore, withReturns_append]
  rest := hreturned.rest
  value := by
    have hvalue := hreturned.value
    simp only [Quoted.push]
    cases hinside : inside.value <;> cases hother : other.value <;> simp_all [Except.map]
  ends := by
    rcases hreturned.ends with hclosed | hescape | ⟨ahead, last, htaken, hlast⟩
    · exact .inl (by simp [Quoted.push, hclosed, Except.map])
    · exact .inr (.inl (by simp [Quoted.push, hescape, Except.map]))
    · exact .inr (.inr ⟨taken ++ ahead, last, by simp [Quoted.push, htaken], hlast⟩)

theorem quoted_withReturns {quote : Char} (hquote : quote ∈ ['"', '\''])
    (hescape : ¬['\\', '\n'] <:+: text) :
    (quoted quote text).Returned (quoted quote (withReturns text)) := by
  have hline : quote ≠ '\n' := by
    rintro rfl
    simp at hquote
  have hreturn : '\r' ≠ quote := by
    rintro rfl
    simp at hquote
  have hmore {chars more : List Char} (hwhole : ¬['\\', '\n'] <:+: chars ++ more) :
      ¬['\\', '\n'] <:+: more :=
    fun hpart => hwhole (hpart.trans (List.suffix_append chars more).isInfix)
  have hcode {code : Char} {more : List Char} (hwhole : ¬['\\', '\n'] <:+: '\\' :: code :: more) :
      code ≠ '\n' := by
    rintro rfl
    exact hwhole (List.prefix_append ['\\', '\n'] more).isInfix
  fun_induction quoted quote text with
  | case1 => exact ⟨rfl, rfl, rfl, .inl rfl⟩
  | case2 => exact ⟨rfl, rfl, rfl, .inr (.inl rfl)⟩
  | case3 code text value hvalue ih =>
    have hplain := hcode hescape
    rw [withReturns_cons (by decide), withReturns_cons hplain]
    simp only [quoted, hvalue]
    refine (ih (@hmore ['\\', code] _ hescape)).push ?_ value value
    simp [withReturns_cons hplain, withReturns_cons]
  | case4 code text hvalue =>
    have hplain := hcode hescape
    rw [withReturns_cons (by decide), withReturns_cons hplain]
    simp only [quoted, hvalue]
    refine ⟨?_, rfl, rfl, .inr (.inr ⟨['\\'], code, rfl, hplain⟩)⟩
    simp [withReturns_cons hplain, withReturns_cons]
  | case5 text hlast hcodes =>
    rw [withReturns_cons hline, quoted_cons (ne_backslash hlast hcodes), if_pos rfl]
    refine ⟨?_, rfl, rfl, .inr (.inr ⟨[], quote, rfl, hline⟩)⟩
    simp [withReturns_cons hline]
  | case6 char text hlast hcodes hother ih =>
    have hinside := ih (@hmore [char] _ hescape)
    by_cases hbreak : char = '\n'
    · subst hbreak
      rw [withReturns_line, quoted_cons (by decide), quoted_cons (by decide), if_neg hreturn,
        if_neg hother]
      have hboth := @Quoted.Returned.push _ _ hinside ['\n'] ['\r', '\n'] rfl '\n' '\n'
      refine ⟨hboth.taken, hboth.rest, Eq.trans ?_ hboth.value, hboth.ends⟩
      simp only [Quoted.push]
      cases (quoted quote (withReturns text)).value <;> rfl
    · rw [withReturns_cons hbreak, quoted_cons (ne_backslash hlast hcodes), if_neg hother]
      refine hinside.push ?_ char char
      simp [withReturns_cons hbreak]

theorem Returned.of_quoted {quote : Char} {inside other : Quoted} (hquote : quote ≠ '\n')
    (hreturned : inside.Returned other) :
    Returned ⟨quote :: inside.taken, inside.rest,
        inside.value.map fun value => (.string, String.ofList value)⟩
      ⟨quote :: other.taken, other.rest,
        other.value.map fun value => (.string, String.ofList value)⟩ where
  taken := by rw [hreturned.taken, withReturns_cons hquote]
  rest := hreturned.rest
  outcome := by
    have hvalue := hreturned.value
    cases hinside : inside.value <;> cases hother : other.value <;>
      rw [hinside, hother] at hvalue <;> cases hvalue
    · exact .error _
    · exact .ok fun hkind => absurd rfl hkind
  ends := by
    rcases hreturned.ends with hclosed | hcode | ⟨ahead, last, htaken, hlast⟩
    · exact .inl (by rw [hclosed]; rfl)
    · exact .inr (.inl (by rw [hcode]; rfl))
    · refine .inr (.inr ?_)
      rw [htaken, ← List.cons_append, List.getLast?_concat]
      exact fun hsome => hlast (Option.some.inj hsome)

/-! ### Whole tokens -/

/-- What starts with no line break is read alike with and without returns. -/
theorem read_withReturns (hhead : text.head? ≠ some '\n') (hescape : ¬['\\', '\n'] <:+: text) :
    Returned (read text) (read (withReturns text)) := by
  cases text with
  | nil => exact .of_not_mem List.not_mem_nil
  | cons char more =>
    have hchar : char ≠ '\n' := by simpa using hhead
    have hsign := @Sign.first?_withReturns (char :: more)
    have hnumber := number_withReturns (char :: more)
    have hword := word_withReturns (char :: more)
    have hsingle : '\n' ∉ [char] := by simpa using hchar.symm
    rw [withReturns_cons hchar] at hsign hnumber hword ⊢
    simp only [read, hsign]
    cases hfound : Sign.first? (char :: more) with
    | some found =>
      have htable := (Sign.mem_table_of_first? hfound).1
      exact .of_not_mem (Sign.newline_not_mem_spelling found.1 htable)
    | none =>
      simp only [Option.map_none]
      split
      · exact .of_not_mem hsingle
      split
      · exact .of_not_mem hsingle
      split
      · exact hnumber
      split
      · next hquote =>
        have hinside : ¬['\\', '\n'] <:+: more :=
          fun hpart => hescape (hpart.trans (List.suffix_cons char more).isInfix)
        exact .of_quoted hchar (quoted_withReturns (by simpa using hquote) hinside)
      split
      · exact hword
      · rw [← withReturns_cons hchar]
        exact .of_not_mem List.not_mem_nil

end Lexeme

/-! ### Tokens of a text -/

/-- A return is a blank between tokens and a part of a comment. -/
theorem splitBlank_withReturns (inComment : Bool) (text : List Char) :
    splitBlank inComment (withReturns text) =
      (withReturns (splitBlank inComment text).1, withReturns (splitBlank inComment text).2) := by
  induction text generalizing inComment with
  | nil => rfl
  | cons char text ih =>
    by_cases hline : char = '\n'
    · subst hline
      cases inComment <;> simp [splitBlank, ih]
    · rw [withReturns_cons hline]
      simp only [splitBlank, if_neg hline, ih]
      split
      · simp only [withReturns_cons hline]
      split
      · simp only [withReturns_cons hline]
      · simp only [withReturns_nil, withReturns_cons hline]

theorem head_splitBlank (inComment : Bool) (text : List Char) :
    (splitBlank inComment text).2.head? ≠ some '\n' := by
  fun_induction splitBlank inComment text <;> simp_all

/-- Whether a token is what becomes of another one in the text with returns: it is put where it
    stands there, and what a string literal stands for may differ. -/
structure Token.Returned (token other : Token) : Prop where
  kind : other.kind = token.kind
  text : token.kind ≠ .string → other.text = token.text
  span : other.span = token.span.relocate .returns

namespace Cursor

/-- The lexer at the same place of the text with returns. -/
def withReturns (cursor : Cursor) : Cursor :=
  ⟨cursor.position.withReturns, KaLang.withReturns cursor.rest⟩

/-- The next token is the same one, or there is none for the same cause. -/
theorem next_withReturns {cursor : Cursor} (hescape : ¬['\\', '\n'] <:+: cursor.rest) :
    ∃ result, cursor.withReturns.next = (result, cursor.next.2.withReturns) ∧
      Alike .returns Token.Returned cursor.next.1 result := by
  have hsplit := splitBlank_append false cursor.rest
  have hrest : ¬['\\', '\n'] <:+: (splitBlank false cursor.rest).2 := by
    intro hpart
    rw [← hsplit] at hescape
    exact hescape (hpart.trans (List.suffix_append _ _).isInfix)
  have hread := Lexeme.read_withReturns (head_splitBlank false cursor.rest) hrest
  refine ⟨cursor.withReturns.next.1, ?_⟩
  simp only [next, withReturns, splitBlank_withReturns, Position.after_withReturns]
  generalize (splitBlank false cursor.rest).1 = blank
  generalize Lexeme.read (splitBlank false cursor.rest).2 = lexeme at hread
  generalize Lexeme.read (KaLang.withReturns (splitBlank false cursor.rest).2) = other at hread
  obtain ⟨taken, rest, outcome⟩ := lexeme
  obtain ⟨takenOther, restOther, outcomeOther⟩ := other
  obtain ⟨rfl, rfl, houtcome, hends⟩ := hread
  refine ⟨by simp only [Position.after_withReturns], ?_⟩
  dsimp only at houtcome hends ⊢
  cases houtcome with
  | @ok kind name other htext =>
    have hlast : taken.getLast? ≠ some '\n' := by simpa using hends
    refine .ok ⟨rfl, htext, ?_⟩
    simp only [dropLast_withReturns hlast, Position.after_withReturns]
    rfl
  | error fault =>
    have hplace : fault.place (cursor.position.after blank).withReturns
          (KaLang.withReturns taken) =
        (fault.place (cursor.position.after blank) taken).withReturns := by
      cases fault with
      | unknownEscape code =>
        have hlast : taken.getLast? ≠ some '\n' := by simpa using hends
        simp only [LexFault.place, dropLast_withReturns hlast, Position.after_withReturns]
      | _ => exact Position.after_withReturns _ _
    dsimp only
    rw [hplace]
    exact .error (.lexing fault (fault.place (cursor.position.after blank) taken))

/-- Reading on from the same place, the same tokens are read, or none for the same cause. -/
theorem alike_tokens_withReturns {cursor : Cursor} (hescape : ¬['\\', '\n'] <:+: cursor.rest) :
    Alike .returns (List.Forall₂ Token.Returned) cursor.tokens cursor.withReturns.tokens := by
  fun_induction Cursor.tokens cursor with
  | case1 cursor error after hnext =>
    obtain ⟨result, hother, halike⟩ := next_withReturns hescape
    rw [hnext] at halike
    rw [tokens_eq cursor.withReturns, hother]
    cases halike with
    | error => exact .error error
  | case2 cursor token after hnext hkind =>
    obtain ⟨result, hother, halike⟩ := next_withReturns hescape
    rw [hnext] at halike
    rw [tokens_eq cursor.withReturns, hother]
    cases halike with
    | @ok _ same hreturned =>
      dsimp only
      rw [if_pos (hreturned.kind.trans hkind)]
      exact .ok (.cons hreturned .nil)
  | case3 cursor token after hnext hkind _ ih =>
    obtain ⟨gap, slice, hrest, -⟩ := exists_slice_of_next hnext hkind
    have hmore : ¬['\\', '\n'] <:+: after.rest := by
      rw [hrest, ← List.append_assoc] at hescape
      exact fun hpart => hescape (hpart.trans (List.suffix_append _ _).isInfix)
    obtain ⟨result, hother, halike⟩ := next_withReturns hescape
    rw [hnext] at hother halike
    rw [tokens_eq cursor.withReturns, hother]
    cases halike with
    | @ok _ same hreturned =>
      dsimp only
      rw [if_neg fun hother => hkind (hreturned.kind.symm.trans hother)]
      exact (ih hmore).map fun _ _ hsame => .cons hreturned hsame

end Cursor

/-- A text without a backslash in front of a line break is read alike with and without returns. It
    has the same fault, or the same tokens but for what string literals stand for, and every line
    and column is the same. -/
theorem alike_tokenize_withReturns {source other : String}
    (hother : other.toList = withReturns source.toList)
    (hescape : ¬['\\', '\n'] <:+: source.toList) :
    Alike .returns (List.Forall₂ Token.Returned) (tokenize source) (tokenize other) := by
  have hcursor : Cursor.ofText other = (Cursor.ofText source).withReturns := by
    rw [Cursor.ofText, hother]
    rfl
  rw [tokenize, tokenize, hcursor]
  exact Cursor.alike_tokens_withReturns hescape

end KaLang
