import KaLang.Token.Basic

/-!
What can be wrong with a program. A fault is a cause; a `CompileError` is a fault with its place;
a `Report` is what people are told: the stage that failed, the reason in words, and the span.
-/

namespace KaLang

/-- Why no token could be read. -/
inductive LexFault where
  | unexpectedCharacter (char : Char)
  | unclosedString
  | unfinishedEscape
  | unknownEscape (code : Char)
deriving DecidableEq

/-- The cause in words. -/
def LexFault.message : LexFault → String
  | unexpectedCharacter char => s!"unexpected character '{char}'"
  | unclosedString => "unclosed string literal"
  | unfinishedEscape => "expected escape code after \\"
  | unknownEscape code => s!"unknown escape code '\\{code}'"

/-- Why a token list is not a program. -/
inductive ParseFault where
  | unexpectedToken (got expected : TokenKind) (text : Option String)
  | missingExpression
  | localWithoutAssignment
deriving DecidableEq

/-- The cause in words. A token that has to have a certain text is named by the text first. -/
def ParseFault.message : ParseFault → String
  | unexpectedToken got expected none =>
    s!"unexpected token {got.label}, expected {expected.label}"
  | unexpectedToken got expected (some text) =>
    s!"unexpected token {got.label}, expected '{text}' ({expected.label})"
  | missingExpression => "expected an expression"
  | localWithoutAssignment => "expected variable assignment after keyword local"

/-- Why a syntax tree has no script. -/
inductive EmitFault where
  | importWithoutFiles
  | unexportable
  | exportAfterUse
  | invalidTarget
deriving DecidableEq

/-- The cause in words. -/
def EmitFault.message : EmitFault → String
  | importWithoutFiles => "cannot use import statement without a file oracle"
  | unexportable => "can't export this type of expression"
  | exportAfterUse => "can't export a variable after it has already been used"
  | invalidTarget => "invalid assignment target"

/-- A fault with its place. Every run stops at the first one. -/
inductive CompileError where
  | lexing (fault : LexFault) (position : Position)
  | parsing (fault : ParseFault) (span : Span)
  | emitting (fault : EmitFault) (span : Span)
deriving DecidableEq

/-- The part of the work that failed. -/
inductive Stage where
  | lexing
  | parsing
  | emitting
deriving DecidableEq

/-- The name of the stage in headings. -/
def Stage.label : Stage → String
  | lexing => "Lexer"
  | parsing => "Parser"
  | emitting => "Transpiler"

/-- An error as it is told to people. -/
structure Report where
  stage : Stage
  reason : String
  span : Span
deriving DecidableEq

/-- The report as one line. -/
def Report.headline (r : Report) : String :=
  s!"{r.stage.label}Error: {r.reason}"

/-- What to tell about an error. A lexing error is at one place, and its span is that place. -/
def CompileError.report : CompileError → Report
  | lexing fault position => ⟨.lexing, fault.message, Span.point position⟩
  | parsing fault span => ⟨.parsing, fault.message, span⟩
  | emitting fault span => ⟨.emitting, fault.message, span⟩

/-- The text that an error points at. -/
def CompileError.span (e : CompileError) : Span := e.report.span

/-! ### Runs that stop at the first fault -/

theorem Except.bind_eq_ok_iff {ε α β : Type} {first : Except ε α} {next : α → Except ε β}
    {result : β} :
    (first >>= next) = .ok result ↔ ∃ value, first = .ok value ∧ next value = .ok result := by
  cases first <;> simp [Bind.bind, Except.bind]

theorem Except.map_eq_ok_iff {ε α β : Type} {change : α → β} {first : Except ε α} {result : β} :
    first.map change = .ok result ↔ ∃ value, first = .ok value ∧ change value = result := by
  cases first <;> simp [Except.map]

theorem Except.map_eq_error_iff {ε α β : Type} {change : α → β} {first : Except ε α} {error : ε} :
    first.map change = .error error ↔ first = .error error := by
  cases first <;> simp [Except.map]

end KaLang
