import KaLang.Proofs.Token.Places

/-!
Readings in a row, also behind faults. A reading that takes no character settles: it gives the end
of the input, or a character that no token starts with, and every later one gives the same at the
same place (`Cursor.next_of_settles`). Every other reading moves on. So the readings of a text
settle after at most as many as the text has characters, and all places that they tell of are places
of the text (`Cursor.resume_settles`).
-/

namespace KaLang

/-- The span of what a reading gives: of the token, or of the fault. -/
def readingSpan : Except CompileError Token → Span
  | .ok token => token.span
  | .error error => error.span

/-- Whether a reading gives what all later ones give too: the end of the input, or a character that
    no token starts with. -/
def Settles : Except CompileError Token → Prop
  | .ok token => token.kind = .endOfInput
  | .error (.lexing (.unexpectedCharacter _) _) => True
  | .error _ => False

/-! ### One reading -/

theorem Lexeme.quoted_ne_unexpectedCharacter {quote : Char} {text : List Char} (char : Char) :
    (quoted quote text).value ≠ .error (.unexpectedCharacter char) := by
  fun_induction quoted quote text with
  | case3 code text value _ ih => exact fun hvalue => ih (Except.map_eq_error_iff.mp hvalue)
  | case6 other text _ _ _ ih => exact fun hvalue => ih (Except.map_eq_error_iff.mp hvalue)
  | _ => simp

/-- Of all faults, only a character that no token starts with is told before anything is taken. -/
theorem Lexeme.taken_eq_nil_iff_of_error {text : List Char} {fault : LexFault}
    (hread : (read text).outcome = .error fault) :
    (read text).taken = [] ↔ ∃ char, fault = .unexpectedCharacter char := by
  have hreads := reads_read text
  generalize read text = lexeme at hread hreads ⊢
  cases hreads with
  | number =>
    rw [number_verbatim] at hread
    cases hread
  | string =>
    have hother (char : Char) : fault ≠ .unexpectedCharacter char := by
      rintro rfl
      exact quoted_ne_unexpectedCharacter char (Except.map_eq_error_iff.mp hread)
    simp [hother]
  | unexpected =>
    cases hread
    simp
  | _ => cases hread

theorem splitBlank_rest (inComment : Bool) (text : List Char) :
    splitBlank false (splitBlank inComment text).2 = ([], (splitBlank inComment text).2) := by
  fun_induction splitBlank inComment text <;> simp_all [splitBlank]

namespace Cursor

variable {cursor : Cursor}

/-- The lexeme that a reading takes, behind the blanks ahead. -/
def lexeme (cursor : Cursor) : Lexeme := Lexeme.read (splitBlank false cursor.rest).2

theorem settles_iff : Settles cursor.next.1 ↔ cursor.lexeme.taken = [] := by
  rw [lexeme, next]
  dsimp only
  split
  · next kind name hread =>
    by_cases hkind : kind = .endOfInput
    · subst hkind
      obtain ⟨htext, -⟩ := Lexeme.eq_nil_of_endOfInput hread
      simp [Settles, htext, Lexeme.read]
    · simp [Settles, hkind, Lexeme.taken_ne_nil hread hkind]
  · next fault hread =>
    rw [Lexeme.taken_eq_nil_iff_of_error hread]
    cases fault <;> simp [Settles]

/-- Reading goes on behind some of the characters ahead. -/
theorem exists_part_of_next (cursor : Cursor) :
    ∃ part, cursor.rest = part ++ cursor.next.2.rest ∧
      cursor.next.2.position = cursor.position.after part ∧
      (cursor.lexeme.taken ≠ [] → part ≠ []) := by
  refine ⟨(splitBlank false cursor.rest).1 ++ cursor.lexeme.taken, ?_, ?_, ?_⟩
  · rw [List.append_assoc]
    change cursor.rest = _ ++ (cursor.lexeme.taken ++ cursor.lexeme.rest)
    rw [lexeme, Lexeme.read_append, splitBlank_append]
  · rw [Position.after_append]
    rfl
  · simp +contextual

/-- A reading that settles is repeated by the next one, and nothing changes any more. -/
theorem next_of_settles (hsettles : Settles cursor.next.1) : cursor.next.2.next = cursor.next := by
  have htaken := settles_iff.mp hsettles
  have hrest : cursor.lexeme.rest = (splitBlank false cursor.rest).2 := by
    have hread := Lexeme.read_append (splitBlank false cursor.rest).2
    rw [← lexeme, htaken] at hread
    exact hread
  have hafter : cursor.next.2 = ⟨cursor.position.after (splitBlank false cursor.rest).1,
      (splitBlank false cursor.rest).2⟩ := by
    change (⟨_, cursor.lexeme.rest⟩ : Cursor) = _
    rw [hrest, ← lexeme, htaken, Position.after_nil]
  -- Blanks may have been left behind, but there are none any more.
  rw [hafter]
  simp only [next, splitBlank_rest, Position.after_nil]

/-- What is told by a reading lies behind some of the characters ahead. -/
theorem exists_places_of_next (cursor : Cursor) :
    ∃ first last, first <+: cursor.rest ∧ last <+: cursor.rest ∧
      readingSpan cursor.next.1 =
        ⟨cursor.position.after first, cursor.position.after last⟩ := by
  cases hnext : cursor.next with
  | mk result after =>
    cases result with
    | error error =>
      obtain ⟨fault, part, hpart, rfl⟩ := exists_place_of_next hnext
      exact ⟨part, part, hpart, hpart, rfl⟩
    | ok token =>
      by_cases hkind : token.kind = .endOfInput
      · obtain ⟨rfl, -⟩ := eq_endOfInput_of_next hnext hkind
        exact ⟨cursor.rest, cursor.rest, List.prefix_rfl, List.prefix_rfl, rfl⟩
      · obtain ⟨gap, slice, hrest, -, -, hspan, -⟩ := exists_slice_of_next hnext hkind
        refine ⟨gap, gap ++ slice.dropLast, ?_, ?_, by rw [Position.after_append]; exact hspan⟩
        · rw [hrest]
          exact List.prefix_append _ _
        · rw [hrest, List.prefix_append_right_inj]
          exact slice.dropLast_prefix.trans (List.prefix_append _ _)

/-! ### Readings in a row -/

/-- Where reading goes on after a number of readings, whatever they gave. -/
def resume : Nat → Cursor → Cursor
  | 0, cursor => cursor
  | count + 1, cursor => resume count cursor.next.2

theorem resume_succ (count : Nat) (cursor : Cursor) :
    cursor.resume (count + 1) = (cursor.resume count).next.2 := by
  induction count generalizing cursor with
  | zero => rfl
  | succ count ih => exact ih cursor.next.2

/-- After a reading that settles, reading stays where it is and goes on giving the same. -/
theorem next_resume_of_settles {count later : Nat}
    (hsettles : Settles (cursor.resume count).next.1) (hlater : count ≤ later) :
    (cursor.resume later).next = (cursor.resume count).next := by
  induction later, hlater using Nat.le_induction with
  | base => rfl
  | succ later _ ih =>
    have hsame : Settles (cursor.resume later).next.1 := by rwa [ih]
    rw [resume_succ, next_of_settles hsame, ih]

/-- As long as no reading settles, each takes a character at least. -/
theorem exists_settles_or (cursor : Cursor) (count : Nat) :
    (∃ earlier < count, Settles (cursor.resume earlier).next.1) ∨
      (cursor.resume count).rest.length + count ≤ cursor.rest.length := by
  induction count with
  | zero => exact .inr (Nat.le_refl _)
  | succ count ih =>
    by_cases hsettles : Settles (cursor.resume count).next.1
    · exact .inl ⟨count, Nat.lt_succ_self count, hsettles⟩
    · rcases ih with ⟨earlier, hearlier, hsettled⟩ | hlength
      · exact .inl ⟨earlier, Nat.lt_succ_of_lt hearlier, hsettled⟩
      · obtain ⟨part, hpart, -, hsome⟩ := (cursor.resume count).exists_part_of_next
        have htaken := List.length_pos_iff.mpr (hsome (mt settles_iff.mpr hsettles))
        have hrest := congrArg List.length hpart
        rw [List.length_append, ← resume_succ] at hrest
        exact .inr (by omega)

theorem next_of_rest_eq_nil (hrest : cursor.rest = []) :
    cursor.next = (.ok (.endOfInput (.point cursor.position)), cursor) := by
  obtain ⟨position, rest⟩ := cursor
  obtain rfl : rest = [] := hrest
  rfl

/-- After as many readings as there are characters ahead, the next one settles and leaves reading
    where it is. -/
theorem settles_resume {count : Nat} (hcount : cursor.rest.length ≤ count) :
    Settles (cursor.resume count).next.1 ∧ (cursor.resume count).next.2 = cursor.resume count := by
  rcases cursor.exists_settles_or count with ⟨earlier, hearlier, hsettles⟩ | hlength
  · have hsame := next_resume_of_settles hsettles (Nat.le_of_lt hearlier)
    refine ⟨by rwa [hsame], ?_⟩
    obtain ⟨further, rfl⟩ := Nat.exists_eq_add_of_lt hearlier
    have hbefore := next_resume_of_settles hsettles (Nat.le_add_right earlier further)
    rw [hsame, resume_succ, hbefore]
  · have hrest : (cursor.resume count).rest = [] := by
      rw [← List.length_eq_zero_iff]
      omega
    rw [next_of_rest_eq_nil hrest]
    exact ⟨rfl, rfl⟩

/-- More readings do not lead anywhere else. -/
theorem resume_eq_of_le {count : Nat} (hcount : cursor.rest.length ≤ count) :
    cursor.resume count = cursor.resume cursor.rest.length := by
  induction count, hcount using Nat.le_induction with
  | base => rfl
  | succ count hcount ih => rw [resume_succ, (settles_resume hcount).2, ih]

theorem take_eq_map (cursor : Cursor) (count : Nat) :
    cursor.take count = (List.range count).map fun earlier => (cursor.resume earlier).next.1 := by
  induction count generalizing cursor with
  | zero => rfl
  | succ count ih =>
    rw [take, ih, List.range_succ_eq_map, List.map_cons, List.map_map]
    rfl

/-- All tokens to the end of the text are read in a row. There are no more of them than characters
    ahead, the end of the input or a fault not counted. -/
theorem exists_take_eq (cursor : Cursor) :
    ∃ tokens result, tokens.length ≤ cursor.rest.length ∧
      cursor.take (tokens.length + 1) = tokens.map .ok ++ [result] ∧
      cursor.tokens = result.map fun last => tokens ++ [last] := by
  fun_induction Cursor.tokens cursor with
  | case1 cursor error after hnext => exact ⟨[], .error error, by simp, by simp [take, hnext], rfl⟩
  | case2 cursor token after hnext => exact ⟨[], .ok token, by simp, by simp [take, hnext], rfl⟩
  | case3 cursor token after hnext hkind _ ih =>
    obtain ⟨tokens, result, hlength, htake, htokens⟩ := ih
    have hshorter := next_shorter hnext hkind
    refine ⟨token :: tokens, result, ?_, ?_, ?_⟩
    · rw [List.length_cons]
      omega
    · rw [List.length_cons, take, hnext, htake]
      rfl
    · rw [htokens]
      cases result <;> rfl

/-- A text that cannot be read has a reading with the fault. -/
theorem exists_resume_of_tokens {error : CompileError} (hfails : cursor.tokens = .error error) :
    ∃ count, (cursor.resume count).next.1 = .error error := by
  obtain ⟨tokens, result, -, htake, htokens⟩ := cursor.exists_take_eq
  rw [htokens, Except.map_eq_error_iff] at hfails
  rw [take_eq_map, List.range_succ, List.map_append, hfails] at htake
  exact ⟨tokens.length, List.singleton_inj.mp (List.append_inj' htake rfl).2⟩

/-- Reading goes on at places of the text. -/
theorem exists_before_of_resume (source : String) (count : Nat) :
    ∃ before, source.toList = before ++ ((ofText source).resume count).rest ∧
      ((ofText source).resume count).position = Position.zero.after before := by
  induction count with
  | zero => exact ⟨[], rfl, rfl⟩
  | succ count ih =>
    obtain ⟨before, hsource, hposition⟩ := ih
    obtain ⟨part, hrest, hafter, -⟩ := ((ofText source).resume count).exists_part_of_next
    refine ⟨before ++ part, ?_, ?_⟩
    · rw [resume_succ, hsource, hrest, List.append_assoc]
    · rw [resume_succ, hafter, hposition, Position.after_append]

/-- What a reading tells of lies at places of the text. -/
theorem isIn_of_resume (source : String) (count : Nat) :
    let span := readingSpan ((ofText source).resume count).next.1
    span.first.IsIn source.toList ∧ span.last.IsIn source.toList := by
  obtain ⟨before, hsource, hposition⟩ := exists_before_of_resume source count
  obtain ⟨first, last, hfirst, hlast, hspan⟩ :=
    ((ofText source).resume count).exists_places_of_next
  rw [hspan, hposition, hsource]
  exact ⟨⟨before ++ first, (List.prefix_append_right_inj before).mpr hfirst, by simp⟩,
    ⟨before ++ last, (List.prefix_append_right_inj before).mpr hlast, by simp⟩⟩

/-- What readings settle with: the end of the text, or a character that no token starts with. -/
theorem eq_of_settles (source : String) (count : Nat)
    (hsettles : Settles ((ofText source).resume count).next.1) :
    ((ofText source).resume count).next.1 =
        .ok (.endOfInput (.point (Position.zero.after source.toList))) ∨
      ∃ char place, ((ofText source).resume count).next.1 =
        .error (.lexing (.unexpectedCharacter char) place) := by
  cases hnext : ((ofText source).resume count).next with
  | mk result after =>
    rw [hnext] at hsettles
    match result, hsettles with
    | .ok token, hkind =>
      obtain ⟨before, hsource, hposition⟩ := exists_before_of_resume source count
      obtain ⟨rfl, -⟩ := eq_endOfInput_of_next hnext hkind
      left
      rw [hposition, ← Position.after_append, ← hsource]
    | .error (.lexing (.unexpectedCharacter char) place), _ => exact .inr ⟨char, place, rfl⟩

/-- Readings of a text in a row, behind faults too. Where reading goes on is a place of the text,
    with the rest of the text behind it, and whatever a reading tells of lies at places of the text.
    A reading that does not settle takes some character; one that does is repeated by all later
    ones. From one more reading than the text has characters at the latest, reading stays where it
    is and gives the end of the text for ever, or one and the same unexpected character. So the
    tokens of a text are there after as many readings at the most. -/
theorem resume_settles (source : String) :
    let start := ofText source
    let size := source.toList.length
    let place (before : List Char) : Position :=
      ⟨String.utf8Len before, before.count '\n', (before.reverse.takeWhile (· ≠ '\n')).length⟩
    (∀ count, start.take count =
      (List.range count).map fun earlier => (start.resume earlier).next.1) ∧
    (∀ count, ∃ before, source.toList = before ++ (start.resume count).rest ∧
      (start.resume count).position = place before) ∧
    (∀ count, let span := readingSpan (start.resume count).next.1
      ∀ p ∈ [span.first, span.last], ∃ before, before <+: source.toList ∧ p = place before) ∧
    (∀ count, ¬ Settles (start.resume count).next.1 →
      ∃ part, part ≠ [] ∧ (start.resume count).rest = part ++ (start.resume (count + 1)).rest) ∧
    (∀ count, Settles (start.resume count).next.1 →
      ∀ later, count ≤ later → (start.resume later).next = (start.resume count).next) ∧
    (∃ final, (final = .ok (.endOfInput (.point (place source.toList))) ∨
        ∃ char p, final = .error (.lexing (.unexpectedCharacter char) p)) ∧
      ∀ later, size ≤ later → start.resume later = start.resume size ∧
        (start.resume later).next = (final, start.resume size)) ∧
    ∃ tokens result, tokens.length ≤ size ∧
      start.take (tokens.length + 1) = tokens.map .ok ++ [result] ∧
      tokenize source = result.map fun last => tokens ++ [last] := by
  intro start size place
  have hplace (before : List Char) : Position.zero.after before = place before :=
    Position.after_zero before
  refine ⟨start.take_eq_map, fun count => ?_, fun count p hp => ?_, fun count hmoves => ?_,
    fun count hsettles later hlater => next_resume_of_settles hsettles hlater, ?_,
    start.exists_take_eq⟩
  · obtain ⟨before, hsource, hposition⟩ := exists_before_of_resume source count
    exact ⟨before, hsource, hposition.trans (hplace before)⟩
  · obtain ⟨⟨first, hfirst, hfirstPlace⟩, last, hlast, hlastPlace⟩ := isIn_of_resume source count
    rcases List.mem_pair.mp hp with rfl | rfl
    · exact ⟨first, hfirst, hfirstPlace.trans (hplace first)⟩
    · exact ⟨last, hlast, hlastPlace.trans (hplace last)⟩
  · obtain ⟨part, hrest, -, hsome⟩ := (start.resume count).exists_part_of_next
    exact ⟨part, hsome (mt settles_iff.mpr hmoves), by rw [resume_succ, ← hrest]⟩
  · obtain ⟨hsettles, hstays⟩ := @settles_resume start size (Nat.le_refl _)
    refine ⟨_, hplace source.toList ▸ eq_of_settles source size hsettles, fun later hlater => ?_⟩
    rw [resume_eq_of_le hlater]
    exact ⟨rfl, Prod.ext rfl hstays⟩

/-- Behind a code that stands for nothing, reading goes on in front of what no token starts with,
    and stays there. -/
theorem resume_settles_unknown :
    let start := ofText "'\\q$"
    ¬ Settles (start.resume 0).next.1 ∧
      (∃ part, part ≠ [] ∧ (start.resume 0).rest = part ++ (start.resume 1).rest) ∧
      (start.resume 1).next.1 = .error (.lexing (.unexpectedCharacter '$') ⟨3, 0, 3⟩) ∧
      ∀ later, 1 ≤ later → (start.resume later).next = (start.resume 1).next := by
  intro start
  have hmoves : ¬ Settles (start.resume 0).next.1 := id
  obtain ⟨-, -, -, hpart, hrepeats, -⟩ := resume_settles "'\\q$"
  exact ⟨hmoves, hpart 0 hmoves, rfl, hrepeats 1 trivial⟩

end Cursor

end KaLang
