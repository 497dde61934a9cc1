import KaLang.Proofs.Token.Spelling
import Mathlib

/-!
How tokens lie in a text. Nothing but blanks and comments stands in front of a token (`IsBlank`),
and the bytes that a token covers are spelled as such tokens are and in no other way (`Spells`).
The tokens of a text, each with what stands in front of it, make up the text
(`tokenize_reconstructs`).
-/

namespace KaLang

/-! ### Blanks and slices -/

/-- Whether characters are blank: spaces, tabs, line breaks and comments. A comment goes on to the
    next line break, or to the end of the text where the characters end with it. -/
inductive IsBlank (atEnd : Bool) : List Char → Prop where
  | nil : IsBlank atEnd []
  | space {char : Char} {more : List Char} (hchar : char ∈ [' ', '\t', '\r', '\n'])
      (hmore : IsBlank atEnd more) : IsBlank atEnd (char :: more)
  | comment {text more : List Char} (htext : '\n' ∉ text) (hmore : IsBlank atEnd ('\n' :: more)) :
      IsBlank atEnd ('#' :: text ++ '\n' :: more)
  | lastComment {text : List Char} (hend : atEnd = true) (htext : '\n' ∉ text) :
      IsBlank atEnd ('#' :: text)

theorem IsBlank.comment_cons {atEnd : Bool} {char : Char} {text : List Char}
    (hblank : IsBlank atEnd ('#' :: text)) (hchar : char ≠ '\n') :
    IsBlank atEnd ('#' :: char :: text) := by
  generalize hwhole : '#' :: text = whole at hblank
  cases hblank with
  | nil => cases hwhole
  | space hspace =>
    cases hwhole
    simp at hspace
  | @comment inside more hinside hmore =>
    cases hwhole
    have hline : '\n' ∉ char :: inside := by simpa using ⟨hchar.symm, hinside⟩
    exact .comment hline hmore
  | lastComment hend hinside =>
    cases hwhole
    exact .lastComment hend (by simpa using ⟨hchar.symm, hinside⟩)

/-- What is skipped in front of a token is blank. -/
theorem isBlank_splitBlank (inComment : Bool) (text : List Char) :
    IsBlank (splitBlank inComment text).2.isEmpty
      (if inComment then '#' :: (splitBlank inComment text).1
        else (splitBlank inComment text).1) := by
  induction text generalizing inComment with
  | nil =>
    cases inComment with
    | false => exact .nil
    | true => exact .lastComment rfl List.not_mem_nil
  | cons char text ih =>
    have hplain := ih false
    have hcomment := ih true
    simp only [splitBlank]
    split
    · next hline =>
      subst hline
      have hbreak : IsBlank (splitBlank false text).2.isEmpty ('\n' :: (splitBlank false text).1) :=
        .space (by simp) hplain
      cases inComment with
      | false => exact hbreak
      | true => exact @IsBlank.comment _ [] _ List.not_mem_nil hbreak
    · next hline =>
      split
      · next hstart =>
        cases inComment with
        | true => exact hcomment.comment_cons hline
        | false =>
          obtain rfl : char = '#' := by simpa using hstart
          exact hcomment
      · next hstart =>
        obtain ⟨rfl, -⟩ : inComment = false ∧ char ≠ '#' := by simpa using hstart
        split
        · next hspace => exact .space (by simp at hspace ⊢; tauto) hplain
        · exact .nil

/-- The bytes of a text from one offset up to another. -/
def bytesBetween (source : String) (first last : Nat) : String :=
  String.Pos.Raw.extract source ⟨first⟩ ⟨last⟩

/-- The bytes that a token covers, the last one included. -/
def Token.slice (token : Token) (source : String) : String :=
  bytesBetween source token.span.first.offset (token.span.last.offset + 1)

/-- The tokens of a text from an offset on, each behind the bytes that stand in front of it. -/
def withGaps (source : String) (start : Nat) : List Token → List (String × Token)
  | [] => []
  | token :: more =>
    (bytesBetween source start token.span.first.offset, token) ::
      withGaps source (token.span.last.offset + 1) more

theorem bytesBetween_eq {source : String} {before part rest : List Char}
    (hsource : source.toList = before ++ (part ++ rest)) :
    bytesBetween source (String.utf8Len before) (String.utf8Len before + String.utf8Len part) =
      String.ofList part := by
  rw [← String.extract_of_valid before part rest, List.append_assoc, ← hsource,
    String.ofList_toList]
  rfl

/-- No byte stands behind the last. -/
theorem bytesBetween_end (source : String) (last : Nat) :
    bytesBetween source source.utf8ByteSize last = "" := by
  have hbehind := String.Pos.Raw.extract.go₁_append_right source.toList [] 0
    source.utf8ByteSize ⟨last⟩ (by simp [String.utf8Len_toList])
  rw [List.append_nil, String.Pos.Raw.extract.go₂] at hbehind
  simp only [bytesBetween, String.Pos.Raw.extract]
  split
  · rfl
  · exact congrArg String.ofList hbehind

namespace Position

@[simp] theorem offset_advance (p : Position) (char : Char) :
    (p.advance char).offset = p.offset + char.utf8Size := by
  unfold advance
  split <;> rfl

@[simp] theorem offset_after (p : Position) (text : List Char) :
    (p.after text).offset = p.offset + String.utf8Len text := by
  induction text generalizing p with
  | nil => rfl
  | cons char text ih =>
    rw [after_cons, ih, offset_advance, String.utf8Len_cons]
    omega

theorem offset_after_source (source : String) :
    (zero.after source.toList).offset = source.utf8ByteSize := by
  rw [offset_after, String.utf8Len_toList]
  exact Nat.zero_add _

end Position

/-! ### Spelled tokens -/

/-- The codes behind a backslash, each with the character that it stands for. -/
def escapes : List (Char × Char) :=
  [('"', '"'), ('\'', '\''), ('n', '\n'), ('r', '\r'), ('b', '\x08')]

/-- Whether characters between two quotes stand for a text: escapes for what their codes stand for,
    and every other character for itself. -/
inductive Unescapes (quote : Char) : List Char → List Char → Prop where
  | nil : Unescapes quote [] []
  | escape {code value : Char} {body text : List Char} (hcode : (code, value) ∈ escapes)
      (hbody : Unescapes quote body text) : Unescapes quote ('\\' :: code :: body) (value :: text)
  | plain {char : Char} {body text : List Char} (hquote : char ≠ quote) (hchar : char ≠ '\\')
      (hbody : Unescapes quote body text) : Unescapes quote (char :: body) (char :: text)

/-- Whether characters are a token of some form. A string stands between two quotes of one kind and
    a sign is spelled as the table says; every other token is written as its text. -/
inductive Spells : List Char → Form → Prop where
  | string {quote : Char} {body : List Char} {text : String} (hquote : quote ∈ ['"', '\''])
      (hbody : Unescapes quote body text.toList) :
      Spells (quote :: body ++ [quote]) ⟨.string, text⟩
  | sign {sign : Sign} (hsign : sign ∈ Sign.table) : Spells sign.spelling ⟨sign.kind, sign.text⟩
  | verbatim {form : Form} (hform : form.Legible)
      (hkind : form.kind ∈ [.number, .identifier, .keyword, .delimiter, .equals]) :
      Spells form.text.toList form

theorem unescape?_eq_some_iff {code value : Char} :
    Lexeme.unescape? code = some value ↔ (code, value) ∈ escapes := by
  unfold Lexeme.unescape?
  split <;> simp_all [escapes, eq_comm]

namespace Lexeme

variable {text : List Char} {kind : TokenKind} {name : String}

/-- A string that has a value goes on to its closing quote. -/
theorem unescapes_of_quoted {quote : Char} {value : List Char}
    (hread : (quoted quote text).value = .ok value) :
    ∃ body, (quoted quote text).taken = body ++ [quote] ∧ Unescapes quote body value := by
  fun_induction quoted quote text generalizing value with
  | case1 => cases hread
  | case2 => cases hread
  | case3 code text char hcode ih =>
    obtain ⟨more, hinner, rfl⟩ := Except.map_eq_ok_iff.mp hread
    obtain ⟨body, htaken, hbody⟩ := ih hinner
    exact ⟨'\\' :: code :: body, by simp [Quoted.push, htaken],
      .escape (unescape?_eq_some_iff.mp hcode) hbody⟩
  | case4 => cases hread
  | case5 =>
    cases hread
    exact ⟨[], rfl, .nil⟩
  | case6 char text hlast hcode hquote ih =>
    obtain ⟨more, hinner, rfl⟩ := Except.map_eq_ok_iff.mp hread
    obtain ⟨body, htaken, hbody⟩ := ih hinner
    exact ⟨char :: body, by simp [Quoted.push, htaken],
      .plain hquote (ne_backslash hlast hcode) hbody⟩

theorem quoted_of_unescapes {quote : Char} {body value : List Char}
    (hquote : quote ≠ '\\') (hbody : Unescapes quote body value) :
    quoted quote (body ++ [quote]) = ⟨body ++ [quote], [], .ok value⟩ := by
  induction hbody with
  | nil =>
    rw [List.nil_append, quoted_cons hquote, if_pos rfl]
  | escape hcode _ ih =>
    simp only [List.cons_append, quoted, unescape?_eq_some_iff.mpr hcode, ih]
    rfl
  | plain hother hchar _ ih =>
    rw [List.cons_append, quoted_cons hchar, if_neg hother, ih]
    rfl

theorem number_verbatim (text : List Char) :
    (number text).outcome = .ok (.number, String.ofList (number text).taken) := by
  unfold number
  split
  · split <;> rfl
  · rfl

/-- What is read as a token, but the end of the input, is spelled as that token. -/
theorem spells_of_read (hread : (read text).outcome = .ok (kind, name))
    (hkind : kind ≠ .endOfInput) : Spells (read text).taken ⟨kind, name⟩ := by
  have hform := legible_of_read hread hkind
  have hreads := reads_read text
  generalize read text = lexeme at hread hreads ⊢
  have hverbatim (hkind : kind ∈ [.number, .identifier, .keyword, .delimiter, .equals])
      (htaken : lexeme.taken = name.toList) : Spells lexeme.taken ⟨kind, name⟩ :=
    htaken ▸ .verbatim hform hkind
  cases hreads with
  | ended =>
    cases hread
    exact absurd rfl hkind
  | sign hsign =>
    cases hread
    exact .sign (Sign.mem_table_of_first? hsign).1
  | delimiter =>
    cases hread
    exact hverbatim (by simp) (by simp)
  | equals =>
    cases hread
    exact hverbatim (by simp) (by simp)
  | number =>
    rw [number_verbatim] at hread
    cases hread
    exact hverbatim (by simp) (by simp)
  | string hquote =>
    obtain ⟨value, hvalue, hname⟩ := Except.map_eq_ok_iff.mp hread
    cases hname
    obtain ⟨body, htaken, hbody⟩ := unescapes_of_quoted hvalue
    rw [htaken]
    exact .string hquote (by simpa using hbody)
  | word =>
    cases hread
    exact hverbatim (by split <;> simp) (by simp [word])
  | unexpected => cases hread

theorem read_sign {sign : Sign} (hsign : sign ∈ Sign.table) :
    read sign.spelling = ⟨sign.spelling, [], .ok (sign.kind, sign.text)⟩ := by
  simp only [Sign.table, List.mem_cons, List.not_mem_nil, or_false] at hsign
  rcases hsign with rfl | rfl | rfl | rfl | rfl | rfl | rfl | rfl | rfl | rfl | rfl | rfl | rfl |
    rfl | rfl | rfl | rfl | rfl | rfl | rfl | rfl | rfl | rfl | rfl <;> rfl

end Lexeme

theorem Form.spelling_eq_text (form : Form)
    (hkind : form.kind ∈ [.number, .identifier, .keyword, .delimiter, .equals]) :
    form.spelling = form.text.toList :=
  if_neg fun hstring => by simp [hstring] at hkind

/-- What is spelled as a token is read as that token and nothing else. -/
theorem Spells.read_eq {slice : List Char} {form : Form} (hspells : Spells slice form) :
    Lexeme.read slice = ⟨slice, [], .ok (form.kind, form.text)⟩ := by
  cases hspells with
  | @string quote body text hquote hbody =>
    have hcode : quote ≠ '\\' := by
      rcases List.mem_pair.mp hquote with rfl | rfl <;> decide
    simp only [List.cons_append, Lexeme.read_quote hquote, Lexeme.quoted_of_unescapes hcode hbody,
      Except.map, String.ofList_toList]
  | sign hsign => exact Lexeme.read_sign hsign
  | verbatim hform hkind =>
    have hread : Lexeme.read (form.spelling ++ []) = _ := hform.read_spelling (by simp)
    rwa [List.append_nil, form.spelling_eq_text hkind] at hread

theorem Spells.unique {slice : List Char} {form other : Form} (hform : Spells slice form)
    (hother : Spells slice other) : other = form := by
  have hread := hother.read_eq
  rw [hform.read_eq] at hread
  cases form
  cases other
  cases hread
  rfl

theorem utf8Size_of_isWordChar {char : Char} (hchar : isWordChar char = true) :
    char.utf8Size = 1 := by
  have hsmall : char.val.toNat ≤ 127 := by
    simp only [isWordChar, Char.isAlphanum, Char.isAlpha, Char.isUpper, Char.isLower, Char.isDigit,
      Bool.or_eq_true, Bool.and_eq_true, decide_eq_true_eq, UInt32.le_iff_toNat_le] at hchar
    rcases hchar with rfl | (⟨-, hupper⟩ | ⟨-, hlower⟩) | ⟨-, hdigit⟩
    · decide
    · exact Nat.le_trans hupper (by decide)
    · exact Nat.le_trans hlower (by decide)
    · exact Nat.le_trans hdigit (by decide)
  exact if_pos (UInt32.le_iff_toNat_le.mpr hsmall)

/-- Every character of a token that is written as its text takes one byte. -/
theorem Form.Legible.utf8Size_of_mem {form : Form} (hform : form.Legible)
    (hkind : form.kind ∈ [.number, .identifier, .keyword, .delimiter, .equals]) :
    ∀ char ∈ form.text.toList, char.utf8Size = 1 := by
  have hword {text : List Char} (htext : ∀ char ∈ text, isWordChar char = true) :
      ∀ char ∈ text, char.utf8Size = 1 :=
    fun char hchar => utf8Size_of_isWordChar (htext char hchar)
  have hdigits {text : List Char} (htext : ∀ char ∈ text, char.isDigit = true) :
      ∀ char ∈ text, char.utf8Size = 1 :=
    hword fun char hchar => by simp [isWordChar, Char.isAlphanum, htext char hchar]
  cases hform with
  | name hname => exact hword hname.chars
  | keyword word => exact hword word.spec_of_text.2.1
  | number hnumber =>
    cases hnumber with
    | whole _ hwhole => simpa using hdigits hwhole
    | fraction _ hwhole _ hmore =>
      intro char hchar
      simp only [String.toList_ofList, List.mem_append, List.mem_cons] at hchar
      rcases hchar with hchar | rfl | hchar
      · exact hdigits hwhole char hchar
      · decide
      · exact hdigits hmore char hchar
  | @sign sign hsign =>
    rcases Sign.kind_of_mem sign hsign with hother | hother <;> simp [hother] at hkind
  | delimiter hdelimiter =>
    have hall : (Lexeme.delimiters.all fun char => char.utf8Size = 1) = true := by decide
    simpa using List.all_eq_true.mp hall _ hdelimiter
  | equals =>
    intro char hchar
    obtain rfl : char = '=' := by simpa using hchar
    decide
  | string => simp at hkind

/-- The last character of a token takes one byte. -/
theorem Spells.utf8Len_dropLast {slice : List Char} {form : Form} (hspells : Spells slice form) :
    String.utf8Len slice.dropLast + 1 = String.utf8Len slice := by
  have hlast {chars : List Char} {last : Char} (hsize : last.utf8Size = 1) :
      String.utf8Len (chars ++ [last]).dropLast + 1 = String.utf8Len (chars ++ [last]) := by
    simp [hsize]
  cases hspells with
  | @string quote body text hquote hbody =>
    refine hlast ?_
    rcases List.mem_pair.mp hquote with rfl | rfl <;> decide
  | @sign sign hsign =>
    have hall : ∀ sign ∈ Sign.table,
        String.utf8Len sign.spelling.dropLast + 1 = String.utf8Len sign.spelling := by decide
    exact hall sign hsign
  | verbatim hform hkind =>
    have hsize := hform.utf8Size_of_mem hkind
    rcases List.eq_nil_or_concat form.text.toList with hnil | ⟨chars, last, htext⟩
    · exact absurd ((form.spelling_eq_text hkind).trans hnil) hform.spelling_ne_nil
    · rw [List.concat_eq_append] at htext
      rw [htext] at hsize ⊢
      exact hlast (hsize last (by simp))

theorem Spells.kind_ne_endOfInput {slice : List Char} {form : Form} (hspells : Spells slice form) :
    form.kind ≠ .endOfInput := by
  cases hspells with
  | string => simp
  | sign hsign => exact Sign.kind_ne_endOfInput hsign
  | verbatim hform => exact hform.kind_ne_endOfInput

/-! ### Tokens in a text -/

/-- Whether the tokens make up a text that starts at a place: each stands behind something blank,
    is spelled as such a token, and covers what it is spelled with. -/
inductive Laid : Position → List Char → List Token → Prop where
  | done {p : Position} {gap : List Char} (hgap : IsBlank true gap) :
      Laid p gap [.endOfInput (.point (p.after gap))]
  | token {p : Position} {gap slice rest : List Char} {token : Token} {more : List Token}
      (hgap : IsBlank false gap) (hslice : Spells slice token.form)
      (hspan : token.span = ⟨p.after gap, (p.after gap).after slice.dropLast⟩)
      (hmore : Laid ((p.after gap).after slice) rest more) :
      Laid p (gap ++ (slice ++ rest)) (token :: more)

/-- Only the end of a text is read as the end of the input. -/
theorem Lexeme.eq_nil_of_endOfInput {text : List Char} {name : String}
    (hread : (read text).outcome = .ok (.endOfInput, name)) : text = [] ∧ name = "" := by
  have hreads := reads_read text
  generalize read text = lexeme at hread hreads
  cases hreads with
  | ended =>
    cases hread
    exact ⟨rfl, rfl⟩
  | @sign text rest sign hsign =>
    have hkind : sign.kind = .endOfInput := congrArg Prod.fst (Except.ok.inj hread)
    exact absurd hkind (Sign.kind_ne_endOfInput (Sign.mem_table_of_first? hsign).1)
  | number =>
    rw [number_verbatim] at hread
    cases hread
  | string =>
    obtain ⟨value, -, hvalue⟩ := Except.map_eq_ok_iff.mp hread
    cases hvalue
  | word =>
    have hkind := congrArg Prod.fst (Except.ok.inj hread)
    dsimp only at hkind
    split at hkind <;> cases hkind
  | _ => cases hread

/-- The end of a text is the next token where nothing but blanks is left. -/
theorem Cursor.eq_endOfInput_of_next {cursor after : Cursor} {token : Token}
    (hnext : cursor.next = (.ok token, after)) (hkind : token.kind = .endOfInput) :
    token = .endOfInput (.point (cursor.position.after cursor.rest)) ∧
      IsBlank true cursor.rest := by
  have hsplit := splitBlank_append false cursor.rest
  have hblank : IsBlank (splitBlank false cursor.rest).2.isEmpty (splitBlank false cursor.rest).1 :=
    isBlank_splitBlank false cursor.rest
  have hresult := congrArg Prod.fst hnext
  simp only [next] at hresult
  split at hresult
  · next kind name hread =>
    cases hresult
    obtain rfl : kind = .endOfInput := hkind
    obtain ⟨hrest, rfl⟩ := Lexeme.eq_nil_of_endOfInput hread
    rw [hrest, List.append_nil] at hsplit
    rw [hrest, hsplit] at hblank ⊢
    exact ⟨rfl, hblank⟩
  · cases hresult

/-- Any other token stands behind something blank. -/
theorem Cursor.exists_slice_of_next {cursor after : Cursor} {token : Token}
    (hnext : cursor.next = (.ok token, after)) (hkind : token.kind ≠ .endOfInput) :
    ∃ gap slice, cursor.rest = gap ++ (slice ++ after.rest) ∧ IsBlank false gap ∧
      Spells slice token.form ∧
      token.span = ⟨cursor.position.after gap, (cursor.position.after gap).after slice.dropLast⟩ ∧
      after.position = (cursor.position.after gap).after slice := by
  have hsplit := splitBlank_append false cursor.rest
  have hblank : IsBlank (splitBlank false cursor.rest).2.isEmpty (splitBlank false cursor.rest).1 :=
    isBlank_splitBlank false cursor.rest
  simp only [next, Prod.mk.injEq] at hnext
  obtain ⟨hresult, rfl⟩ := hnext
  split at hresult
  · next kind name hread =>
    cases hresult
    have hslice := Lexeme.spells_of_read hread hkind
    have hsome : (splitBlank false cursor.rest).2.isEmpty = false := by
      cases hrest : (splitBlank false cursor.rest).2 with
      | nil =>
        rw [hrest] at hread
        cases hread
        exact absurd rfl hkind
      | cons => rfl
    rw [hsome] at hblank
    exact ⟨_, _, by rw [Lexeme.read_append, hsplit], hblank, hslice, rfl, rfl⟩
  · cases hresult

theorem Cursor.laid_of_tokens {cursor : Cursor} {tokens : List Token}
    (htokens : cursor.tokens = .ok tokens) : Laid cursor.position cursor.rest tokens := by
  fun_induction Cursor.tokens cursor generalizing tokens with
  | case1 => cases htokens
  | case2 cursor token after hnext hkind =>
    cases htokens
    obtain ⟨rfl, hblank⟩ := eq_endOfInput_of_next hnext hkind
    exact .done hblank
  | case3 cursor token after hnext hkind _ ih =>
    obtain ⟨more, hmore, rfl⟩ := Except.map_eq_ok_iff.mp htokens
    obtain ⟨gap, slice, hrest, hgap, hslice, hspan, hafter⟩ := exists_slice_of_next hnext hkind
    have hlaid := ih hmore
    rw [hafter] at hlaid
    rw [hrest]
    exact .token hgap hslice hspan hlaid

namespace Laid

variable {source : String} {p : Position} {before text : List Char} {tokens : List Token}

theorem exists_body (hlaid : Laid p text tokens) :
    ∃ body, tokens = body ++ [.endOfInput (.point (p.after text))] ∧
      ∀ token ∈ body, token.kind ≠ .endOfInput := by
  induction hlaid with
  | done hgap => exact ⟨[], rfl, by simp⟩
  | @token p gap slice rest token more hgap hslice hspan hmore ih =>
    obtain ⟨body, rfl, hbody⟩ := ih
    refine ⟨token :: body, by simp, List.forall_mem_cons.mpr ⟨?_, hbody⟩⟩
    exact hslice.kind_ne_endOfInput

/-- A token ends with the byte in front of what stands behind it. -/
theorem offset_behind {gap slice : List Char} {token : Token} (hslice : Spells slice token.form)
    (hspan : token.span = ⟨p.after gap, (p.after gap).after slice.dropLast⟩) :
    token.span.last.offset + 1 = ((p.after gap).after slice).offset := by
  have hsize := hslice.utf8Len_dropLast
  rw [hspan]
  simp only [Position.offset_after]
  omega

theorem first_le_last (hlaid : Laid p text tokens) :
    ∀ token ∈ tokens, token.span.first.offset ≤ token.span.last.offset := by
  induction hlaid with
  | done hgap => simp [Token.endOfInput, Span.point]
  | @token p gap slice rest token more hgap hslice hspan hmore ih =>
    refine List.forall_mem_cons.mpr ⟨?_, ih⟩
    rw [hspan, Position.offset_after (p.after gap)]
    exact Nat.le_add_right _ _

theorem le_first (hlaid : Laid p text tokens) :
    ∀ token ∈ tokens, p.offset ≤ token.span.first.offset := by
  induction hlaid with
  | done hgap => simp [Token.endOfInput, Span.point]
  | @token p gap slice rest token more hgap hslice hspan hmore ih =>
    refine List.forall_mem_cons.mpr ⟨by simp [hspan], fun other hother => ?_⟩
    have hbehind := ih other hother
    simp only [Position.offset_after] at hbehind
    omega

/-- Each token ends in front of those behind it. -/
theorem pairwise (hlaid : Laid p text tokens) :
    tokens.Pairwise fun a b => a.span.last.offset < b.span.first.offset := by
  induction hlaid with
  | done hgap => exact List.pairwise_singleton _ _
  | @token p gap slice rest token more hgap hslice hspan hmore ih =>
    refine List.pairwise_cons.mpr ⟨fun other hother => ?_, ih⟩
    have hbehind := hmore.le_first other hother
    rw [← offset_behind hslice hspan] at hbehind
    exact hbehind

/-- The bytes of a token are what it is spelled with, and the bytes in front of it are the gap. -/
theorem slice_eq {gap slice rest : List Char} {token : Token}
    (hsource : source.toList = before ++ (gap ++ (slice ++ rest)))
    (hp : p.offset = String.utf8Len before) (hslice : Spells slice token.form)
    (hspan : token.span = ⟨p.after gap, (p.after gap).after slice.dropLast⟩) :
    bytesBetween source p.offset token.span.first.offset = String.ofList gap ∧
      token.slice source = String.ofList slice := by
  constructor
  · rw [hspan, Position.offset_after, hp]
    exact bytesBetween_eq hsource
  · have hwhole : source.toList = (before ++ gap) ++ (slice ++ rest) := by simp [hsource]
    unfold Token.slice
    rw [offset_behind hslice hspan, hspan]
    simp only [Position.offset_after, hp, ← String.utf8Len_append]
    rw [String.utf8Len_append (before ++ gap)]
    exact bytesBetween_eq hwhole

/-- The bytes that tokens and gaps stand for make up the text. -/
theorem covers (hlaid : Laid p text tokens) (hsource : source.toList = before ++ text)
    (hp : p.offset = String.utf8Len before) :
    (∀ entry ∈ withGaps source p.offset tokens,
        IsBlank (entry.2.kind = .endOfInput) entry.1.toList) ∧
      (∀ token ∈ tokens, token.kind ≠ .endOfInput → Spells (token.slice source).toList token.form) ∧
      (withGaps source p.offset tokens).flatMap
        (fun entry => entry.1.toList ++ (entry.2.slice source).toList) = text := by
  induction hlaid generalizing before with
  | @done p gap hgap =>
    have hend : (p.after gap).offset = source.utf8ByteSize := by
      rw [← String.utf8Len_toList, hsource, String.utf8Len_append, Position.offset_after, hp]
    have hfront : bytesBetween source p.offset (p.offset + String.utf8Len gap) =
        String.ofList gap := by
      rw [hp]
      exact @bytesBetween_eq source before gap [] (by simp [hsource])
    have hbytes : (Token.endOfInput (.point (p.after gap))).slice source = "" := by
      simp only [Token.slice, Token.endOfInput, Span.point, hend, bytesBetween_end]
    refine ⟨?_, ?_, ?_⟩
    · simpa [withGaps, Token.endOfInput, Span.point, hfront] using hgap
    · simp [Token.endOfInput]
    · simp only [withGaps, List.flatMap_cons, List.flatMap_nil, hbytes]
      simp [Token.endOfInput, Span.point, hfront]
  | @token p gap slice rest token more hgap hslice hspan hmore ih =>
    obtain ⟨hfront, hbytes⟩ := slice_eq hsource hp hslice hspan
    have hbehind : source.toList = (before ++ gap ++ slice) ++ rest := by simp [hsource]
    obtain ⟨hgaps, hslices, htext⟩ := ih hbehind (by simp [hp, Nat.add_assoc])
    rw [← offset_behind hslice hspan] at hgaps htext
    refine ⟨List.forall_mem_cons.mpr ⟨?_, hgaps⟩, List.forall_mem_cons.mpr ⟨?_, hslices⟩, ?_⟩
    · have hkind : token.kind ≠ .endOfInput := hslice.kind_ne_endOfInput
      simpa [hfront, hkind] using hgap
    · intro _
      simpa [hbytes] using hslice
    · simp [withGaps, hfront, hbytes, htext]

end Laid

theorem laid_of_tokenize {source : String} {tokens : List Token}
    (htokens : tokenize source = .ok tokens) : Laid .zero source.toList tokens :=
  Cursor.laid_of_tokens htokens

/-- Whether tokens reconstruct a text: what they cover, with what stands in front of each, is the
    text, and each is the token that it is spelled as. -/
structure Reconstructs (source : String) (tokens : List Token) : Prop where
  /-- The last token, and no other, is the end of the input, a single place behind all bytes. -/
  ends : ∃ body last, tokens = body ++ [.endOfInput (.point last)] ∧
    last = Position.zero.after source.toList ∧ last.offset = source.utf8ByteSize ∧
    ∀ token ∈ body, token.kind ≠ .endOfInput
  forward : ∀ token ∈ tokens, token.span.first.offset ≤ token.span.last.offset
  /-- No token covers a byte that stands behind one of a later token. -/
  ordered : tokens.Pairwise fun a b => a.span.last.offset < b.span.first.offset
  /-- What a token covers determines it. -/
  spelled : ∀ token ∈ tokens, token.kind ≠ .endOfInput →
    Spells (token.slice source).toList token.form ∧
      ∀ form, Spells (token.slice source).toList form → form = token.form
  blank : ∀ entry ∈ withGaps source 0 tokens,
    IsBlank (entry.2.kind = .endOfInput) entry.1.toList
  whole : (withGaps source 0 tokens).flatMap
    (fun entry => entry.1.toList ++ (entry.2.slice source).toList) = source.toList

/-- The tokens of a text reconstruct it. -/
theorem tokenize_reconstructs {source : String} {tokens : List Token}
    (htokens : tokenize source = .ok tokens) : Reconstructs source tokens := by
  have hlaid := laid_of_tokenize htokens
  obtain ⟨body, hbody, hkinds⟩ := hlaid.exists_body
  have hnone : source.toList = [] ++ source.toList := rfl
  obtain ⟨hgaps, hslices, htext⟩ := hlaid.covers hnone rfl
  constructor
  case ends => exact ⟨body, _, hbody, rfl, Position.offset_after_source source, hkinds⟩
  case forward => exact hlaid.first_le_last
  case ordered => exact hlaid.pairwise
  case spelled =>
    intro token htoken hkind
    have hspells := hslices token htoken hkind
    exact ⟨hspells, fun _ => hspells.unique⟩
  case blank => exact hgaps
  case whole => exact htext

/-- A comment between tokens, a string with an escape and a character of three bytes, and a comment
    that the text ends in. -/
theorem tokenize_reconstructs_commented :
    ∃ tokens, tokenize "a#x\n = '\\n€' # y" = .ok tokens ∧
      Reconstructs "a#x\n = '\\n€' # y" tokens := by
  have htokens : tokenize "a#x\n = '\\n€' # y" = .ok
      [⟨.identifier, "a", ⟨⟨0, 0, 0⟩, ⟨0, 0, 0⟩⟩⟩, ⟨.equals, "=", ⟨⟨5, 1, 1⟩, ⟨5, 1, 1⟩⟩⟩,
        ⟨.string, "\n€", ⟨⟨7, 1, 3⟩, ⟨13, 1, 7⟩⟩⟩, .endOfInput (.point ⟨18, 1, 12⟩)] := by
    cbv
  exact ⟨_, htokens, tokenize_reconstructs htokens⟩

/-- Forms written with a blank between each two are read as they were written exactly if each can
    stand in a text. -/
theorem tokenize_spaced_iff {forms : List Form} :
    (tokenize (String.ofList (Form.spaced forms))).map (List.map Token.form) =
        .ok (forms ++ [⟨.endOfInput, ""⟩]) ↔
      ∀ form ∈ forms, form.Legible := by
  constructor
  · intro hread form hform
    obtain ⟨tokens, htokens, hforms⟩ := Except.map_eq_ok_iff.mp hread
    obtain ⟨body, rfl, hkinds⟩ := (laid_of_tokenize htokens).exists_body
    rw [List.map_append] at hforms
    obtain ⟨rfl, -⟩ := List.append_inj' hforms rfl
    obtain ⟨token, htoken, rfl⟩ := List.mem_map.mp hform
    exact legible_of_tokenize htokens token (by simp [htoken]) (hkinds token htoken)
  · intro hforms
    obtain ⟨tokens, htokens, hread⟩ := tokenize_spaced hforms
    exact Except.map_eq_ok_iff.mpr ⟨tokens, htokens, hread⟩

end KaLang
