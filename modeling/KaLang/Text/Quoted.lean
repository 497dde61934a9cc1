import KaLang.Text.Unprintable

/-!
Text in double quotes, on one line and with every character visible. What cannot be shown as it
is stands behind a backslash, by a letter or by its number.
-/

namespace KaLang.Quoted

/-- A character by its number, in hexadecimal digits. -/
def byNumber (c : Char) : List Char :=
  ['\\', 'u', '\x7b'] ++ Nat.toDigits 16 c.toNat ++ ['\x7d']

/-- How a character is written between the quotes. -/
def escape (c : Char) : List Char :=
  match c with
  | '\x00' => ['\\', '0']
  | '\t' => ['\\', 't']
  | '\r' => ['\\', 'r']
  | '\n' => ['\\', 'n']
  | '"' => ['\\', '"']
  | '\\' => ['\\', '\\']
  | _ => if Unprintable.contains c then byNumber c else [c]

/-- The characters of a text in quotes. -/
def chars (text : List Char) : List Char :=
  '"' :: text.flatMap escape ++ ['"']

/-- A text in quotes. -/
def quote (text : String) : String :=
  String.ofList (chars text.toList)

end KaLang.Quoted
