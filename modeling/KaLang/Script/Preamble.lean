import KaLang.Syntax.Operator

/-!
What stands at the top of every script: a function that makes ranges, and the table through which
every operator is applied. An operand on the left that has a method of the operator's name is
asked first; otherwise the operator of the target language is applied.
-/

namespace KaLang.Preamble

/-- The name of the function that makes ranges. -/
def rangeHelper : String := "__kaGetRange"

/-- The name of the operator table. -/
def operatorTable : String := "__kaOperators"

/-- The key of a binary operator in the table. -/
def binaryKey (op : BinaryOperator) : String := op.text

/-- The key of a unary operator in the table. -/
def unaryKey (op : UnaryOperator) : String := op.text ++ "$"

/-- The entry of the table under a key. -/
def reference (key : String) : String := operatorTable ++ "[\"" ++ key ++ "\"]"

/-- What a binary operator does with operands that do not define it. -/
def binaryDefault : BinaryOperator → String
  | .range => rangeHelper ++ "(a, b)"
  | .eq => "a === b"
  | .notEq => "a !== b"
  | op => "a " ++ op.text ++ " b"

/-- The entry of a binary operator. -/
def binaryEntry (op : BinaryOperator) : String :=
  "\"" ++ binaryKey op ++ "\": (a, b) => a?.[\"" ++ op.text ++ "\"] ? a[\"" ++ op.text ++
    "\"](b) : " ++ binaryDefault op ++ ","

/-- The entry of a unary operator. -/
def unaryEntry (op : UnaryOperator) : String :=
  "\"" ++ unaryKey op ++ "\": a => a?.[\"" ++ op.text ++ "\"] ? a[\"" ++ op.text ++ "\"]() : " ++
    op.text ++ "a,"

/-- The lines of the range function that are indented. -/
def rangeBody : List String :=
  ["const out = [];", "for (let i = start; i < end; i++) out.push(i);", "return out;"]

/-- The entries of the operator table. -/
def entries : List String :=
  BinaryOperator.overloadable.map binaryEntry ++ UnaryOperator.all.map unaryEntry

/-- An indented line. -/
def indented (width : Nat) (line : String) : String :=
  String.ofList (List.replicate width ' ') ++ line ++ "\n"

/-- The preamble with `width` blanks to a level. -/
def text (width : Nat) : String :=
  "function " ++ rangeHelper ++ "(start, end) \x7b\n" ++
    String.join (rangeBody.map (indented width)) ++
    "\x7d\nconst " ++ operatorTable ++ " = \x7b\n" ++
    String.join (entries.map (indented width)) ++ "\x7d;\n"

end KaLang.Preamble
