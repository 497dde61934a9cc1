/-!
The operators of expressions: their signs and how tightly they bind.
-/

namespace KaLang

/-- The operators between two operands. -/
inductive BinaryOperator where
  | add | sub | mul | div | mod | eq | notEq | ltEq | gtEq | lt | gt | and | or | range
  | member
deriving DecidableEq

namespace BinaryOperator

/-- The sign of the operator. -/
def text : BinaryOperator → String
  | add => "+"
  | sub => "-"
  | mul => "*"
  | div => "/"
  | mod => "%"
  | eq => "=="
  | notEq => "!="
  | ltEq => "<="
  | gtEq => ">="
  | lt => "<"
  | gt => ">"
  | and => "&&"
  | or => "||"
  | range => ".."
  | member => "."

/-- The operators that a value can define for itself, which is all but member access. -/
def overloadable : List BinaryOperator :=
  [add, sub, mul, div, mod, eq, notEq, ltEq, gtEq, lt, gt, and, or, range]

/-- Every binary operator. -/
def all : List BinaryOperator := overloadable ++ [member]

/-- The operator with a given sign. -/
def ofText? (text : String) : Option BinaryOperator :=
  all.find? fun op => op.text = text

/-- How tightly the operator binds its operands; a larger number binds more tightly. -/
def power : BinaryOperator → Nat
  | add | sub => 1
  | mul | div | mod => 2
  | eq | notEq | ltEq | gtEq | lt | gt => 3
  | and | or => 4
  | range => 5
  | member => 7

theorem mem_all (op : BinaryOperator) : op ∈ all := by
  cases op <;> decide

theorem ofText?_text (op : BinaryOperator) : ofText? op.text = some op := by
  cases op <;> rfl

end BinaryOperator

/-- A call binds its callee more tightly than any sign between operands, and less tightly than
    member access. -/
def callPower : Nat := 6

/-- The operators in front of an operand. -/
inductive UnaryOperator where
  | minus | plus | not
deriving DecidableEq

namespace UnaryOperator

/-- The sign of the operator. -/
def text : UnaryOperator → String
  | minus => "-"
  | plus => "+"
  | not => "!"

/-- Every unary operator. -/
def all : List UnaryOperator := [minus, plus, not]

/-- The operator with a given sign. -/
def ofText? (text : String) : Option UnaryOperator :=
  all.find? fun op => op.text = text

theorem mem_all (op : UnaryOperator) : op ∈ all := by
  cases op <;> decide

theorem ofText?_text (op : UnaryOperator) : ofText? op.text = some op := by
  cases op <;> rfl

end UnaryOperator

/-- How an assignment combines the old value of its target with the new one. -/
inductive AssignmentOperator where
  | plain
  | compound (op : BinaryOperator)
deriving DecidableEq

/-- The sign of the operator. -/
def AssignmentOperator.text : AssignmentOperator → String
  | plain => "="
  | compound op => op.text ++ "="

end KaLang
