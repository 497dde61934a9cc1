import KaLang.Proofs.Token.Settling

/-!
Longest tokens. The signs are tried in an order in which none stands behind one that it starts with,
so the first that fits is the longest (`Sign.length_le_of_first?`); numbers and words go on as far
as they can, and a string ends at the first quote that may end it. So whatever else is spelled where
a token starts is no longer than the token (`Lexeme.length_le_of_spells`), also behind faults
(`Cursor.resume_longest`).
-/

namespace KaLang

/-! ### Signs -/

namespace Sign

variable {sign other : Sign} {text rest : List Char}

/-- The signs that a text may start with, the one of an assignment among them. -/
def withEquals : List Sign := table ++ [⟨['='], .equals, "="⟩]

/-- Whether a text starts with a sign. One that is spelled as a word has to be the whole word. -/
def StartsIn (sign : Sign) (text : List Char) : Prop :=
  ∃ rest, text = sign.spelling ++ rest ∧
    (sign.isWord = true → ∀ char ∈ rest.head?, isWordChar char = false)

theorem rest?_eq_some_iff :
    sign.rest? text = some rest ↔ text = sign.spelling ++ rest ∧
      (sign.isWord = true → ∀ char ∈ rest.head?, isWordChar char = false) := by
  have hhead (rest : List Char) : rest.head?.any isWordChar = false ↔
      ∀ char ∈ rest.head?, isWordChar char = false := by
    cases rest <;> simp
  unfold rest?
  split
  · next hnone =>
    refine iff_of_false (by simp) fun hstarts => ?_
    rw [hstarts.1, isPrefixOf?_append] at hnone
    cases hnone
  · next tail htail =>
    obtain rfl := spelling_append_of_isPrefixOf? htail
    simp only [← hhead]
    constructor
    · intro hrest
      split at hrest
      · cases hrest
      · next hends =>
        cases hrest
        exact ⟨rfl, fun hword => by simpa [hword] using hends⟩
    · rintro ⟨htext, hword⟩
      obtain rfl := List.append_cancel_left htext
      refine if_neg fun hends => ?_
      obtain ⟨hsign, hinside⟩ := Bool.and_eq_true_iff.mp hends
      rw [hword hsign] at hinside
      cases hinside

/-- No sign is tried behind one that it starts with. -/
theorem pairwise_table :
    table.Pairwise fun ahead behind => ahead.spelling <+: behind.spelling →
      behind.spelling.length ≤ ahead.spelling.length := by
  decide

/-- The first sign that a text starts with is the longest one. -/
theorem length_le_of_first? (hfirst : first? text = some (sign, rest)) (hother : other ∈ table)
    (hstarts : other.StartsIn text) : other.spelling.length ≤ sign.spelling.length := by
  obtain ⟨ahead, found, behind, htable, hfound, hahead⟩ := List.findSome?_eq_some_iff.mp hfirst
  obtain ⟨_, hrest, hpair⟩ := Option.map_eq_some_iff.mp hfound
  cases hpair
  obtain ⟨more, hmore⟩ := hstarts
  have hsome := rest?_eq_some_iff.mpr hmore
  rw [htable] at hother
  rcases List.mem_append.mp hother with hother | hother
  · simpa [hsome] using hahead other hother
  rcases List.mem_cons.mp hother with rfl | hother
  · exact Nat.le_refl _
  · rcases Nat.le_total other.spelling.length sign.spelling.length with hle | hle
    · exact hle
    · -- Both are at the start of the text, so the longer one starts with the other.
      have hprefix : sign.spelling <+: other.spelling :=
        List.prefix_of_prefix_length_le ⟨rest, spelling_append_of_rest? hrest⟩
          ⟨more, hmore.1.symm⟩ hle
      have hpairwise := htable ▸ pairwise_table
      exact (List.pairwise_cons.mp (List.pairwise_append.mp hpairwise).2.1).1 other hother hprefix

end Sign

/-! ### Numbers and words -/

namespace Lexeme

variable {text other rest : List Char} {kind : TokenKind} {name : String}

theorem length_le_taken_number (hnumber : IsNumber (String.ofList other)) :
    other.length ≤ (number (other ++ rest)).taken.length := by
  generalize hother : String.ofList other = spelled at hnumber
  cases hnumber with
  | @whole digits hsome hdigits =>
    obtain rfl := String.ofList_injective hother
    have htake : (other ++ rest).takeWhile Char.isDigit = other ++ rest.takeWhile Char.isDigit :=
      List.takeWhile_append_of_pos hdigits
    unfold number
    rw [htake]
    split
    · split <;> simp
    · simp
  | @fraction digits more hsome hdigits hfraction hmore =>
    obtain rfl := String.ofList_injective hother
    have hpoint : ∀ char ∈ ('.' :: (more ++ rest)).head?, char.isDigit = false := by
      rintro _ ⟨⟩
      rfl
    obtain ⟨htake, hdrop⟩ := takeWhile_of_head hdigits hpoint
    have htakeMore : (more ++ rest).takeWhile Char.isDigit = more ++ rest.takeWhile Char.isDigit :=
      List.takeWhile_append_of_pos hmore
    rw [List.append_assoc, List.cons_append]
    unfold number
    rw [htake, hdrop]
    cases more with
    | nil => exact absurd rfl hfraction
    | cons digit more =>
      rw [List.cons_append] at htakeMore
      simp only [List.cons_append, hmore digit List.mem_cons_self, ↓reduceIte, htakeMore]
      simp

/-- A number is read as far as one is spelled. -/
theorem length_le_of_number (hnumber : IsNumber (String.ofList other)) :
    other.length ≤ (read (other ++ rest)).taken.length := by
  have hlength := @length_le_taken_number other rest hnumber
  obtain ⟨digit, more, hother, hdigit⟩ := hnumber.exists_digit
  rw [String.toList_ofList] at hother
  rw [hother, List.cons_append] at hlength ⊢
  rwa [read_digit hdigit]

/-- Where a text starts with a sign, a sign is read that is no shorter. -/
theorem length_le_of_startsIn {sign : Sign} (hsign : sign ∈ Sign.table)
    (hstarts : sign.StartsIn text) : sign.spelling.length ≤ (read text).taken.length := by
  obtain ⟨rest, hrest⟩ := hstarts
  have hsome := Sign.first?_ne_none hsign (Sign.rest?_eq_some_iff.mpr hrest)
  obtain ⟨⟨found, behind⟩, hfirst⟩ := Option.ne_none_iff_exists'.mp hsome
  have htaken : (read text).taken = found.spelling := by
    cases text with
    | nil => cases hfirst
    | cons char more => simp only [read, hfirst]
  rw [htaken]
  exact Sign.length_le_of_first? hfirst hsign ⟨rest, hrest⟩

/-- A word is read as far as word characters go, whether it is a sign or not. -/
theorem length_le_of_word {word : List Char}
    (hstart : ∃ first ∈ word.head?, isWordStart first = true)
    (hword : ∀ char ∈ word, isWordChar char = true) :
    word.length ≤ (read (word ++ rest)).taken.length := by
  have hinner : ∀ char ∈ rest.takeWhile isWordChar, isWordChar char = true := mem_takeWhile
  have hends : ∀ char ∈ (rest.dropWhile isWordChar).head?, isWordChar char = false := head_dropWhile
  -- The word may go on into the rest; what is read is all of it.
  rw [← List.takeWhile_append_dropWhile (p := isWordChar) (l := rest), ← List.append_assoc]
  generalize rest.takeWhile isWordChar = inner at hinner
  generalize rest.dropWhile isWordChar = behind at hends
  have hrun : ∀ char ∈ word ++ inner, isWordChar char = true :=
    fun char hchar => (List.mem_append.mp hchar).elim (hword char) (hinner char)
  have hrunStart : ∃ first ∈ (word ++ inner).head?, isWordStart first = true := by
    obtain ⟨first, hfirst, hstart⟩ := hstart
    exact ⟨first, by simp [Option.mem_def.mp hfirst], hstart⟩
  have hlength : word.length ≤ (word ++ inner).length := by simp
  by_cases hoperator : String.ofList (word ++ inner) ∈ ["and", "or", "not"]
  · obtain ⟨sign, hsign, hspelling⟩ := Sign.exists_of_mem _ hoperator
    rw [String.toList_ofList] at hspelling
    rw [← hspelling] at hlength ⊢
    exact hlength.trans (length_le_of_startsIn hsign ⟨behind, rfl, fun _ => hends⟩)
  · rw [read_word hrunStart hrun hends hoperator]
    exact hlength

/-! ### Everything that is spelled -/

/-- Whatever is spelled at the head of a text, no less is read there. An operator that is spelled as
    a word is only there if the word ends with it. -/
theorem length_le_of_spells {form : Form} (hspells : Spells other form)
    (hword : String.ofList other ∈ ["and", "or", "not"] →
      ∀ char ∈ rest.head?, isWordChar char = false) :
    other.length ≤ (read (other ++ rest)).taken.length := by
  cases hspells with
  | @string quote body value hquote hbody =>
    have hcode : quote ≠ '\\' := by
      rcases List.mem_pair.mp hquote with rfl | rfl <;> decide
    have hvalue := congrArg Quoted.value (quoted_of_unescapes hcode hbody)
    have hinside := quoted_append_of_ok rest hvalue
    rw [quoted_of_unescapes hcode hbody] at hinside
    rw [List.cons_append, List.cons_append, read_quote hquote, hinside]
  | @sign sign hsign =>
    refine length_le_of_startsIn hsign ⟨rest, rfl, fun hisWord => hword ?_⟩
    exact (Sign.mem_of_isWord sign hsign hisWord).1
  | verbatim hform hkind =>
    cases hform with
    | name hname => exact length_le_of_word hname.start hname.chars
    | keyword word =>
      obtain ⟨hstart, hchars, -⟩ := word.spec_of_text
      exact length_le_of_word hstart hchars
    | number hnumber => exact length_le_of_number (by rwa [String.ofList_toList])
    | @sign sign hsign =>
      rcases Sign.kind_of_mem sign hsign with hother | hother <;> simp [hother] at hkind
    | @delimiter char hdelimiter =>
      have htext : (String.singleton char).toList = [char] := by simp
      dsimp only
      rw [htext, List.singleton_append, read_delimiter hdelimiter]
    | equals =>
      change 1 ≤ (read ('=' :: rest)).taken.length
      unfold read
      dsimp only
      split
      · next hfirst =>
        exact List.length_pos_iff.mpr (Sign.spelling_ne_nil (Sign.mem_table_of_first? hfirst).1)
      · exact Nat.le_refl 1
    | string => simp at hkind

end Lexeme

/-- What is no string and no sign of the table is spelled as its text. -/
theorem Spells.eq_toList {slice : List Char} {form : Form} (hspells : Spells slice form)
    (hkind : form.kind ∈ [.number, .identifier, .keyword, .delimiter, .equals]) :
    slice = form.text.toList := by
  cases hspells with
  | string => simp at hkind
  | @sign sign hsign =>
    rcases Sign.kind_of_mem sign hsign with hother | hother <;> simp [hother] at hkind
  | verbatim => rfl

/-- Whether no longer token than some characters are can be read off them and what stands behind
    them. -/
structure Form.Longest (form : Form) (slice rest : List Char) : Prop where
  spelled : Spells slice form
  /-- Nothing longer is spelled there. An operator that is spelled as a word is only there if the
      word ends with it. -/
  longest : ∀ other behind found, slice ++ rest = other ++ behind → Spells other found →
    (String.ofList other ∈ ["and", "or", "not"] →
      ∀ char ∈ behind.head?, isWordChar char = false) → other.length ≤ slice.length
  /-- A sign is the longest of all signs that are there. -/
  sign : form.kind ∈ [.operator, .compoundAssign, .equals] →
    (∃ sign ∈ Sign.withEquals, sign.StartsIn (slice ++ rest) ∧ sign.spelling = slice ∧
      (⟨sign.kind, sign.text⟩ : Form) = form) ∧
    ∀ other ∈ Sign.withEquals, other.StartsIn (slice ++ rest) →
      other.spelling.length ≤ slice.length
  /-- A number is the longest one that is there. -/
  number : form.kind = .number → IsNumber (String.ofList slice) ∧
    ∀ other, other <+: slice ++ rest → IsNumber (String.ofList other) →
      other.length ≤ slice.length
  /-- A word does not go on. -/
  word : form.kind ∈ [.identifier, .keyword] → ∀ char ∈ rest.head?, isWordChar char = false
  /-- A word that is reserved or an operator is no identifier. -/
  identifier : form.kind = .identifier →
    Keyword.ofText? form.text = none ∧ form.text ∉ ["and", "or", "not"]
  keyword : form.kind = .keyword → ∃ word : Keyword, form.text = word.text

namespace Lexeme

variable {text : List Char} {kind : TokenKind} {name : String}

theorem exists_sign_of_read (hread : (read text).outcome = .ok (kind, name))
    (hkind : kind ∈ [.operator, .compoundAssign, .equals]) :
    ∃ sign ∈ Sign.withEquals, sign.StartsIn text ∧ sign.spelling = (read text).taken ∧
      (⟨sign.kind, sign.text⟩ : Form) = ⟨kind, name⟩ := by
  have hreads := reads_read text
  generalize read text = lexeme at hread hreads ⊢
  cases hreads with
  | @sign text rest sign hsign =>
    cases hread
    obtain ⟨htable, hrest⟩ := Sign.mem_table_of_first? hsign
    exact ⟨sign, List.mem_append_left _ htable, ⟨rest, Sign.rest?_eq_some_iff.mp hrest⟩, rfl, rfl⟩
  | @equals more =>
    cases hread
    have hword : (⟨['='], .equals, "="⟩ : Sign).isWord = false := rfl
    exact ⟨⟨['='], .equals, "="⟩, List.mem_append_right _ List.mem_cons_self,
      ⟨more, rfl, by simp [hword]⟩, rfl, rfl⟩
  | number =>
    rw [number_verbatim] at hread
    cases hread
    simp at hkind
  | string =>
    obtain ⟨value, -, hform⟩ := Except.map_eq_ok_iff.mp hread
    cases hform
    simp at hkind
  | word =>
    cases hread
    split at hkind <;> simp at hkind
  | ended | delimiter =>
    cases hread
    simp at hkind
  | unexpected => cases hread

theorem head_rest_of_word (hread : (read text).outcome = .ok (kind, name))
    (hkind : kind ∈ [.identifier, .keyword]) :
    ∀ char ∈ (read text).rest.head?, isWordChar char = false := by
  have hreads := reads_read text
  generalize read text = lexeme at hread hreads ⊢
  cases hreads with
  | word => exact head_dropWhile
  | @sign text rest sign hsign =>
    cases hread
    have hsign := Sign.kind_of_mem sign (Sign.mem_table_of_first? hsign).1
    rcases hsign with hother | hother <;> simp [hother] at hkind
  | number =>
    rw [number_verbatim] at hread
    cases hread
    simp at hkind
  | string =>
    obtain ⟨value, -, hform⟩ := Except.map_eq_ok_iff.mp hread
    cases hform
    simp at hkind
  | ended | delimiter | equals =>
    cases hread
    simp at hkind
  | unexpected => cases hread

/-- No longer token than the one that is read can be read. -/
theorem longest_of_read (hread : (read text).outcome = .ok (kind, name))
    (hkind : kind ≠ .endOfInput) :
    (⟨kind, name⟩ : Form).Longest (read text).taken (read text).rest := by
  have hform := legible_of_read hread hkind
  have hspells := spells_of_read hread hkind
  have htext := read_append text
  constructor
  case spelled => exact hspells
  case longest =>
    intro other behind found hwhole hother hword
    rw [htext] at hwhole
    subst hwhole
    exact length_le_of_spells hother hword
  case sign =>
    rw [htext]
    intro hsign
    refine ⟨exists_sign_of_read hread hsign, fun other hother hstarts => ?_⟩
    rcases List.mem_append.mp hother with htable | hequals
    · exact length_le_of_startsIn htable hstarts
    · obtain rfl := List.mem_singleton.mp hequals
      exact List.length_pos_iff.mpr (taken_ne_nil hread hkind)
  case number =>
    rw [htext]
    intro hnumber
    change kind = .number at hnumber
    constructor
    · rw [hspells.eq_toList (by simp [hnumber]), String.ofList_toList]
      exact hform.isNumber hnumber
    · rintro other ⟨behind, rfl⟩ hother
      exact length_le_of_number hother
  case word => exact head_rest_of_word hread
  case identifier =>
    intro hname
    have hname := hform.isName hname
    exact ⟨hname.notReserved, hname.notOperator⟩
  case keyword =>
    intro hkeyword
    cases hform with
    | keyword word => exact ⟨word, rfl⟩
    | @sign sign hsign =>
      rcases Sign.kind_of_mem sign hsign with hother | hother <;> simp [hother] at hkeyword
    | _ => cases hkeyword

end Lexeme

namespace Cursor

variable {cursor : Cursor} {token : Token}

/-- A token is the lexeme behind the blanks ahead. -/
theorem lexeme_of_next (hnext : cursor.next.1 = .ok token) :
    cursor.lexeme.outcome = .ok (token.kind, token.text) ∧
      token.span = ⟨cursor.position.after (splitBlank false cursor.rest).1,
        (cursor.position.after (splitBlank false cursor.rest).1).after
          cursor.lexeme.taken.dropLast⟩ := by
  simp only [next] at hnext
  split at hnext
  · next kind name hread =>
    cases hnext
    exact ⟨hread, rfl⟩
  · cases hnext

/-- Whatever was read before, and behind faults too, a token is the longest that the text has where
    the token starts. -/
theorem resume_longest {source : String} {count : Nat}
    (hread : ((ofText source).resume count).next.1 = .ok token)
    (hkind : token.kind ≠ .endOfInput) :
    ∃ before slice rest, source.toList = before ++ (slice ++ rest) ∧
      token.span = ⟨Position.zero.after before, Position.zero.after (before ++ slice.dropLast)⟩ ∧
      token.form.Longest slice rest := by
  obtain ⟨before, hsource, hposition⟩ := exists_before_of_resume source count
  generalize (ofText source).resume count = cursor at hread hsource hposition
  obtain ⟨houtcome, hspan⟩ := lexeme_of_next hread
  refine ⟨before ++ (splitBlank false cursor.rest).1, cursor.lexeme.taken, cursor.lexeme.rest, ?_,
    ?_, Lexeme.longest_of_read houtcome hkind⟩
  · rw [lexeme, Lexeme.read_append, List.append_assoc, splitBlank_append]
    exact hsource
  · rw [hspan, hposition, Position.after_append, Position.after_append, Position.after_append]

/-- Behind a fault, a number with a fraction in front of a range. -/
theorem resume_longest_behind :
    ((ofText "'\\q 1.5..x").resume 1).next.1 =
        .ok ⟨.number, "1.5", ⟨⟨4, 0, 4⟩, ⟨6, 0, 6⟩⟩⟩ ∧
      TokenKind.number ≠ .endOfInput ∧
      ∃ before slice rest, "'\\q 1.5..x".toList = before ++ (slice ++ rest) ∧
        (⟨⟨4, 0, 4⟩, ⟨6, 0, 6⟩⟩ : Span) =
          ⟨Position.zero.after before, Position.zero.after (before ++ slice.dropLast)⟩ ∧
        (⟨.number, "1.5"⟩ : Form).Longest slice rest := by
  have hread : ((ofText "'\\q 1.5..x").resume 1).next.1 =
      .ok ⟨.number, "1.5", ⟨⟨4, 0, 4⟩, ⟨6, 0, 6⟩⟩⟩ := by
    cbv
  exact ⟨hread, by decide, resume_longest hread (by decide)⟩

end Cursor

end KaLang
