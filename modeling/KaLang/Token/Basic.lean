import KaLang.Source.Position

/-!
Tokens. A token has a kind, a text and the span of its lexeme. Its text is normalized: a word
operator is spelled as its sign, and a string literal is what it stands for.
-/

namespace KaLang

/-- The reserved words. -/
inductive Keyword where
  | withWord | doWord | endWord | ifWord | elseWord | thenWord | forWord | inWord
  | functionWord | whileWord | returnWord | classWord | hostWord | localWord | newWord
  | breakWord | continueWord | importWord | fromWord | exportWord | defaultWord
deriving DecidableEq

namespace Keyword

/-- How the word is spelled. -/
def text : Keyword → String
  | withWord => "with"
  | doWord => "do"
  | endWord => "end"
  | ifWord => "if"
  | elseWord => "else"
  | thenWord => "then"
  | forWord => "for"
  | inWord => "in"
  | functionWord => "function"
  | whileWord => "while"
  | returnWord => "return"
  | classWord => "class"
  | hostWord => "extern"
  | localWord => "local"
  | newWord => "new"
  | breakWord => "break"
  | continueWord => "continue"
  | importWord => "import"
  | fromWord => "from"
  | exportWord => "export"
  | defaultWord => "default"

/-- Every reserved word. -/
def all : List Keyword :=
  [withWord, doWord, endWord, ifWord, elseWord, thenWord, forWord, inWord, functionWord,
    whileWord, returnWord, classWord, hostWord, localWord, newWord, breakWord, continueWord,
    importWord, fromWord, exportWord, defaultWord]

/-- The reserved word with a given spelling. -/
def ofText? (text : String) : Option Keyword :=
  all.find? fun word => word.text = text

theorem mem_all (word : Keyword) : word ∈ all := by
  cases word <;> decide

end Keyword

/-- What a token is. -/
inductive TokenKind where
  | endOfInput
  | string
  | number
  | keyword
  | identifier
  | delimiter
  | operator
  | equals
  | compoundAssign
deriving DecidableEq

/-- The name of the kind in messages. -/
def TokenKind.label : TokenKind → String
  | endOfInput => "EOF"
  | string => "STRING"
  | number => "NUMBER"
  | keyword => "KEYWORD"
  | identifier => "IDENTIFIER"
  | delimiter => "DELIMITER"
  | operator => "OPERATOR"
  | equals => "EQUALS"
  | compoundAssign => "COMPOUND_ASSIGN"

/-- A lexeme of a text, classified. -/
structure Token where
  kind : TokenKind
  text : String
  span : Span
deriving DecidableEq

namespace Token

/-- The end of a text whose last place is covered by `span`. -/
def endOfInput (span : Span) : Token := ⟨.endOfInput, "", span⟩

/-- Whether the token is the given reserved word. -/
def isKeyword (t : Token) (word : Keyword) : Bool :=
  t.kind = .keyword && t.text = word.text

/-- Whether the token is the given delimiter. -/
def isDelimiter (t : Token) (text : String) : Bool :=
  t.kind = .delimiter && t.text = text

/-- Whether the token is the given operator sign. -/
def isOperator (t : Token) (text : String) : Bool :=
  t.kind = .operator && t.text = text

/-- The reserved word that the token is. -/
def keyword? (t : Token) : Option Keyword :=
  if t.kind = .keyword then Keyword.ofText? t.text else none

end Token

end KaLang
