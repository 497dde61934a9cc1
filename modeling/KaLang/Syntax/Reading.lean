import KaLang.Fault
import KaLang.Syntax.Basic

/-!
Reading from a list of tokens. A reader gives back what it read and the tokens it left; the
result's type says that it left fewer tokens than it was given, so that a reader that reads again
what is left comes to an end. Behind the last token stands the end of input, whose place is the
argument `stop` of every reader that can fail.
-/

namespace KaLang

/-- A value read off the head of `tokens`, and the fewer tokens left. -/
structure Reading (α : Type) (tokens : List Token) where
  value : α
  rest : List Token
  shorter : rest.length < tokens.length

/-- A value for which perhaps no token was read, and the tokens left. -/
structure Scanning (α : Type) (tokens : List Token) where
  value : α
  rest : List Token
  noLonger : rest.length ≤ tokens.length

/-- Scanning behind a token that was read. -/
def Scanning.behind {α : Type} {tokens : List Token} (token : Token) (s : Scanning α tokens) :
    Reading α (token :: tokens) :=
  ⟨s.value, s.rest, by have := s.noLonger; simp only [List.length_cons]; omega⟩

namespace Reading

/-- Reading on leaves fewer tokens still. -/
theorem shorter_trans {tokens middle rest : List Token} (hmiddle : middle.length < tokens.length)
    (hrest : rest.length < middle.length) : rest.length < tokens.length :=
  Nat.lt_trans hrest hmiddle

/-- Reading a value behind one more token. -/
def behind {α : Type} {tokens : List Token} (token : Token) (r : Reading α tokens) :
    Reading α (token :: tokens) :=
  ⟨r.value, r.rest, by have := r.shorter; simp only [List.length_cons]; omega⟩

/-- The next token, if it passes a test. -/
def accept (test : Token → Bool) : (tokens : List Token) → Option (Reading Token tokens)
  | [] => none
  | token :: rest => if test token then some ⟨token, rest, by simp⟩ else none

/-- The next token, or the end of input. -/
def peek (stop : Span) : List Token → Token
  | [] => .endOfInput stop
  | token :: _ => token

/-- The error that the next token is not the one that has to stand here. -/
def unexpected (stop : Span) (tokens : List Token) (kind : TokenKind) (text : Option String) :
    CompileError :=
  let token := peek stop tokens
  .parsing (.unexpectedToken token.kind kind text) token.span

/-- The error that no expression starts with the next token. -/
def missingExpression (stop : Span) (tokens : List Token) : CompileError :=
  .parsing .missingExpression (peek stop tokens).span

/-- The next token, which has to be of the given kind. -/
def ofKind (stop : Span) (kind : TokenKind) (tokens : List Token) :
    Except CompileError (Reading Token tokens) :=
  match accept (fun token => token.kind = kind) tokens with
  | some r => .ok r
  | none => .error (unexpected stop tokens kind none)

/-- The next token, which has to be the given reserved word. -/
def keyword (stop : Span) (word : Keyword) (tokens : List Token) :
    Except CompileError (Reading Token tokens) :=
  match accept (fun token => token.isKeyword word) tokens with
  | some r => .ok r
  | none => .error (unexpected stop tokens .keyword (some word.text))

/-- The next token, which has to be the given delimiter. -/
def delimiter (stop : Span) (text : String) (tokens : List Token) :
    Except CompileError (Reading Token tokens) :=
  match accept (fun token => token.isDelimiter text) tokens with
  | some r => .ok r
  | none => .error (unexpected stop tokens .delimiter (some text))

/-- The next token, which has to be an identifier. -/
def identifier (stop : Span) (tokens : List Token) :
    Except CompileError (Reading Identifier tokens) := do
  let ⟨token, rest, hrest⟩ ← ofKind stop .identifier tokens
  return ⟨⟨token.text, token.span⟩, rest, hrest⟩

/-- One or more identifiers with a separating token between each two. -/
def identifiersBy (stop : Span) (separator : Token → Bool) (tokens : List Token) :
    Except CompileError (Reading (Identifier × List Identifier) tokens) := do
  let ⟨first, afterFirst, hfirst⟩ ← identifier stop tokens
  match accept separator afterFirst with
  | none => return ⟨(first, []), afterFirst, hfirst⟩
  | some ⟨_, afterSeparator, hseparator⟩ =>
    let ⟨(second, more), rest, hrest⟩ ← identifiersBy stop separator afterSeparator
    return ⟨(first, second :: more), rest, by omega⟩
termination_by tokens.length

/-- The items up to a closing delimiter, with a comma in front of each but the first, and the
    closing token. The item reader is only used on lists no longer than `bound`. -/
def itemsUntil {α : Type} (stop : Span) (close : String) (bound : Nat)
    (item : (tokens : List Token) → tokens.length ≤ bound →
      Except CompileError (Reading α tokens))
    (isFirst : Bool) (tokens : List Token) (hbound : tokens.length ≤ bound) :
    Except CompileError (Reading (List α × Token) tokens) := do
  match accept (fun token => token.isDelimiter close) tokens with
  | some ⟨token, rest, hrest⟩ => return ⟨([], token), rest, hrest⟩
  | none =>
    let ⟨_, beforeItem, hbefore⟩ ← show Except CompileError (Scanning Unit tokens) from
      if isFirst then .ok ⟨(), tokens, Nat.le_refl _⟩
      else (delimiter stop "," tokens).map fun r => ⟨(), r.rest, Nat.le_of_lt r.shorter⟩
    let ⟨first, afterItem, hitem⟩ ← item beforeItem (by omega)
    let ⟨(more, token), rest, hrest⟩ ←
      itemsUntil stop close bound item false afterItem (by omega)
    return ⟨(first :: more, token), rest, by omega⟩
termination_by tokens.length

/-- Parameters in parentheses. -/
def parameters (stop : Span) (tokens : List Token) :
    Except CompileError (Reading (List Identifier) tokens) := do
  let ⟨_, inside, hinside⟩ ← delimiter stop "(" tokens
  let ⟨(names, _), rest, hrest⟩ ←
    itemsUntil stop ")" inside.length (fun tokens _ => identifier stop tokens) true inside
      (Nat.le_refl _)
  return ⟨names, rest, shorter_trans hinside hrest⟩

/-- The parameters of a lambda: identifiers up to the word that opens its body, with commas
    between them. -/
def lambdaParameters (stop : Span) (tokens : List Token) :
    Except CompileError (Reading (List Identifier) tokens) := do
  let ⟨first, afterFirst, hfirst⟩ ← identifier stop tokens
  if (accept (fun token => token.isKeyword .doWord) afterFirst).isSome then
    return ⟨[first], afterFirst, hfirst⟩
  else
    let ⟨_, afterComma, hcomma⟩ ← delimiter stop "," afterFirst
    let ⟨more, rest, hrest⟩ ← lambdaParameters stop afterComma
    return ⟨first :: more, rest, by omega⟩
termination_by tokens.length

/-- The last token read between two points of a list of tokens, where `before` was read ahead of
    the first point. -/
def lastRead (before : Token) (tokens rest : List Token) : Token :=
  (tokens.take (tokens.length - rest.length)).getLast?.getD before

end Reading

end KaLang
