import KaLang.Token.Lexeme

/-!
The lexer: where it stands in a text, the next token from there, and all tokens of a text. A
cursor moves on also when no token could be read, so reading can be resumed after a fault.
-/

namespace KaLang

/-- Where a lexer stands: its place, and the text behind that place. -/
structure Cursor where
  position : Position
  rest : List Char

/-- The blanks and comments at the head of a text, and what stands behind them. A comment starts
    with a number sign and goes on to the end of its line. -/
def splitBlank (inComment : Bool) : List Char → List Char × List Char
  | [] => ([], [])
  | char :: text =>
    if char = '\n' then
      let (blank, rest) := splitBlank false text
      (char :: blank, rest)
    else if inComment || char = '#' then
      let (blank, rest) := splitBlank true text
      (char :: blank, rest)
    else if char = ' ' || char = '\t' || char = '\r' then
      let (blank, rest) := splitBlank false text
      (char :: blank, rest)
    else ([], char :: text)

theorem splitBlank_append (inComment : Bool) (text : List Char) :
    (splitBlank inComment text).1 ++ (splitBlank inComment text).2 = text := by
  fun_induction splitBlank inComment text <;> simp_all

/-- Where a fault is, given where the characters taken start: an unknown escape code is the last
    of them, and everything else stands behind them. -/
def LexFault.place (fault : LexFault) (start : Position) (taken : List Char) : Position :=
  match fault with
  | unknownEscape _ => start.after taken.dropLast
  | _ => start.after taken

namespace Cursor

/-- The start of a text. -/
def ofText (text : String) : Cursor := ⟨.zero, text.toList⟩

/-- The next token, or why there is none, and where reading goes on. -/
def next (cursor : Cursor) : Except CompileError Token × Cursor :=
  let (blank, text) := splitBlank false cursor.rest
  let start := cursor.position.after blank
  let lexeme := Lexeme.read text
  let result :=
    match lexeme.outcome with
    | .ok (kind, name) => .ok ⟨kind, name, ⟨start, start.after lexeme.taken.dropLast⟩⟩
    | .error fault => .error (.lexing fault (fault.place start lexeme.taken))
  (result, ⟨start.after lexeme.taken, lexeme.rest⟩)

/-- The results of a number of readings, one after the other. -/
def take : Nat → Cursor → List (Except CompileError Token)
  | 0, _ => []
  | count + 1, cursor => cursor.next.1 :: take count cursor.next.2

/-- A token other than the end token has characters, so less text stands behind it. -/
theorem next_shorter {cursor after : Cursor} {token : Token} (h : cursor.next = (.ok token, after))
    (hkind : token.kind ≠ .endOfInput) : after.rest.length < cursor.rest.length := by
  have hblank := congrArg List.length (splitBlank_append false cursor.rest)
  have hread := congrArg List.length (Lexeme.read_append (splitBlank false cursor.rest).2)
  simp only [List.length_append] at hblank hread
  simp only [next, Prod.mk.injEq] at h
  obtain ⟨hresult, rfl⟩ := h
  split at hresult
  · next kind name hok =>
    cases hresult
    have htaken := List.length_pos_iff.mpr (Lexeme.taken_ne_nil hok hkind)
    show (Lexeme.read (splitBlank false cursor.rest).2).rest.length < _
    omega
  · cases hresult

/-- Every token from here to the end of the text, the end token included. -/
def tokens (cursor : Cursor) : Except CompileError (List Token) :=
  match h : cursor.next with
  | (.error error, _) => .error error
  | (.ok token, after) =>
    if hkind : token.kind = .endOfInput then .ok [token]
    else
      have _ := next_shorter h hkind
      (tokens after).map (token :: ·)
termination_by cursor.rest.length

end Cursor

/-- The tokens of a source text. -/
def tokenize (source : String) : Except CompileError (List Token) :=
  (Cursor.ofText source).tokens

end KaLang
