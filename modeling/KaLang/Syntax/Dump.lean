import KaLang.Syntax.Basic
import KaLang.Text.Outline
import KaLang.Text.Quoted

/-!
Syntax trees as outlines. Every expression, statement, member and block is a node that shows its
span; names, parameters and keys are part of a label.
-/

namespace KaLang

/-- A span as people write it. -/
def Span.label (span : Span) : String :=
  "@" ++ span.first.label ++ "-" ++ span.last.label

/-- The parameters of a function, if it has any. -/
def Identifier.outline (params : List Identifier) : List Outline :=
  match params with
  | [] => []
  | _ => [.leaf ("params " ++ Identifier.row params)]

/-- The word for what the host provides. -/
def HostKind.label : HostKind → String
  | .variable => "variable"
  | .classType => "class"

/-- The word for how an import binds. -/
def ImportKind.label : ImportKind → String
  | wholeModule => "Module"
  | defaultExport => "Default"
  | namedExports => "Specified"

/-- The name of a method; an operator stands in quotes. -/
def MethodName.label : MethodName → String
  | identifier name => name.name
  | operator op _ => "\"" ++ op.text ++ "\""

mutual

/-- The outline of an expression. -/
def Expression.outline : Expression → Outline
  | .string value span => .leaf ("String " ++ Quoted.quote value ++ " " ++ span.label)
  | .number text span => .leaf ("Number " ++ text ++ " " ++ span.label)
  | .name text span => .leaf ("Variable " ++ text ++ " " ++ span.label)
  | .array items span => .node ("Array " ++ span.label) (Expression.outlines items)
  | .object fields span => .node ("Object " ++ span.label) (Field.outlines fields)
  | .property owner key span =>
    .node ("PropertyAccess ." ++ key.name ++ " " ++ span.label) [owner.outline]
  | .assign target op value isLocal span =>
    let mark := if isLocal then " local " else " "
    .node ("Assign " ++ op.text ++ mark ++ span.label) [target.outline, value.outline]
  | .binary left op right span =>
    .node ("Binary " ++ op.text ++ " " ++ span.label) [left.outline, right.outline]
  | .unary op operand span =>
    .node ("Unary " ++ op.text ++ " " ++ span.label) [operand.outline]
  | .lambda params body span =>
    .node ("Lambda " ++ span.label) (Identifier.outline params ++ [body.outline "Body"])
  | .call callee arguments span =>
    .node ("Call " ++ span.label) (callee.outline :: Expression.outlines arguments)
  | .construct callee arguments span =>
    .node ("New " ++ span.label) (callee.outline :: Expression.outlines arguments)

/-- The outlines of expressions in a row. -/
def Expression.outlines : List Expression → List Outline
  | [] => []
  | item :: more => item.outline :: Expression.outlines more

/-- The outlines of the fields of an object. -/
def Field.outlines : List Field → List Outline
  | [] => []
  | .mk key value :: more =>
    .node (Quoted.quote key ++ ":") [value.outline] :: Field.outlines more

/-- The outline of a block under a heading. -/
def Block.outline (heading : String) : Block → Outline
  | .mk body span => .node (heading ++ " " ++ span.label) (Statement.outlines body)

/-- The outlines of statements in a row. -/
def Statement.outlines : List Statement → List Outline
  | [] => []
  | statement :: more => statement.outline :: Statement.outlines more

/-- The outline of a statement. -/
def Statement.outline : Statement → Outline
  | .expression value span => .node ("ExpressionStatement " ++ span.label) [value.outline]
  | .block inner => inner.outline "Block"
  | .condition test thenBranch none span =>
    .node ("If " ++ span.label) [test.outline, thenBranch.outline "Then"]
  | .condition test thenBranch (some elseBranch) span =>
    .node ("If " ++ span.label)
      [test.outline, thenBranch.outline "Then", .node "Else" [elseBranch.outline]]
  | .forLoop item iterable body span =>
    .node ("For " ++ item.name ++ " " ++ span.label) [iterable.outline, body.outline "Body"]
  | .whileLoop test body span =>
    .node ("While " ++ span.label) [test.outline, body.outline "Body"]
  | .returnValue none span => .leaf ("Return " ++ span.label)
  | .returnValue (some value) span => .node ("Return " ++ span.label) [value.outline]
  | .breakLoop span => .leaf ("Break " ++ span.label)
  | .continueLoop span => .leaf ("Continue " ++ span.label)
  | .functionDecl name params body span =>
    .node ("FunctionDeclaration " ++ name.name ++ " " ++ span.label)
      (Identifier.outline params ++ [body.outline "Body"])
  | .classDecl name members span =>
    .node ("ClassDeclaration " ++ name.name ++ " " ++ span.label) (ClassMember.outlines members)
  | .hostDecl name kind span =>
    .leaf ("Extern " ++ kind.label ++ " " ++ name.name ++ " " ++ span.label)
  | .importDecl source names kind span =>
    let path := ".".intercalate (source.map Identifier.name)
    .leaf ("Import " ++ kind.label ++ " " ++ path ++ " [" ++ Identifier.row names ++ "] " ++
      span.label)
  | .exportDecl declaration span => .node ("Export " ++ span.label) [declaration.outline]
  | .guarded statement test span =>
    .node ("Guarded " ++ span.label) [statement.outline, .node "When" [test.outline]]

/-- The outlines of the members of a class. -/
def ClassMember.outlines : List ClassMember → List Outline
  | [] => []
  | member :: more => member.outline :: ClassMember.outlines more

/-- The outline of a member of a class. -/
def ClassMember.outline : ClassMember → Outline
  | .field name value span => .node ("Field " ++ name.name ++ " " ++ span.label) [value.outline]
  | .method name params body span =>
    .node ("Method " ++ name.label ++ " " ++ span.label)
      (Identifier.outline params ++ [body.outline "Body"])

end

/-- The outline of a program. -/
def Program.outline (program : Program) : Outline :=
  .node ("Program " ++ program.span.label) (Statement.outlines program.body)

/-- The syntax tree of a program as text. -/
def Program.dump (program : Program) : String :=
  program.outline.text

end KaLang
