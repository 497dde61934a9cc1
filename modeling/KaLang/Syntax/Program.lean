import KaLang.Syntax.Parser
import KaLang.Token.Lexer

/-!
Programs from tokens and from source texts. A token list is read up to its first end token; a
list without one ends where its last token ends.
-/

namespace KaLang

/-- Where the input ends: at the first end token, or else behind the last token. -/
def endSpan (tokens : List Token) : Span :=
  match tokens.find? fun token => token.kind = .endOfInput with
  | some token => token.span
  | none =>
    match tokens.getLast? with
    | some token => Span.point token.span.last
    | none => Span.point .zero

/-- The tokens that a program is made of: those before the first end token. -/
def programTokens (tokens : List Token) : List Token :=
  tokens.takeWhile fun token => token.kind ≠ .endOfInput

namespace Program

/-- A program reaches from the start of the text to the end of its last statement. -/
def ofStatements (stop : Span) (body : List Statement) : Program :=
  let last := (body.getLast?.map Statement.span).getD stop
  ⟨body, .zero, last.last⟩

/-- The program that a list of tokens is. -/
def ofTokens (tokens : List Token) : Except CompileError Program := do
  let stop := endSpan tokens
  let scanned ← Parser.statements stop [] (programTokens tokens)
  return ofStatements stop scanned.value

/-- The program that a source text is. -/
def ofSource (source : String) : Except CompileError Program := do
  ofTokens (← tokenize source)

end Program

end KaLang
