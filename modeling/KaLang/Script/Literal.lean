/-!
Literals of the script. A string is written as a template, between backticks, so that its line
breaks may stand as they are; a key is written between double quotes.
-/

namespace KaLang.Literal

/-- The inside of a template. A dollar sign is escaped only where it would start a substitution,
    and a carriage return always, because a template reads a raw one as a line feed. -/
def templateBody : List Char → List Char
  | [] => []
  | char :: text =>
    let written :=
      match char with
      | '\\' => ['\\', '\\']
      | '\x60' => ['\\', '\x60']
      | '\r' => ['\\', 'r']
      | '$' => if text.head? = some '\x7b' then ['\\', '$'] else ['$']
      | _ => [char]
    written ++ templateBody text

/-- A string as a template. -/
def template (value : String) : String :=
  String.ofList ('\x60' :: templateBody value.toList ++ ['\x60'])

/-- A character of a key. -/
def keyChar : Char → List Char
  | '\\' => ['\\', '\\']
  | '"' => ['\\', '"']
  | '\n' => ['\\', 'n']
  | '\r' => ['\\', 'r']
  | '\x08' => ['\\', 'b']
  | char => [char]

/-- A key in quotes. -/
def key (value : String) : String :=
  String.ofList ('"' :: value.toList.flatMap keyChar ++ ['"'])

end KaLang.Literal
