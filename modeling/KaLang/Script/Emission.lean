import KaLang.Fault
import KaLang.Scope.Tree
import KaLang.Script.Layout
import KaLang.Script.Literal
import KaLang.Script.ModulePath
import KaLang.Script.Preamble

/-!
The script of a program, in JavaScript. Text and scopes are built in one pass: when a body is
finished, the names hoisted in its scope are declared at its top. A fault ends the pass; what was
asked about files until then is kept.
-/

namespace KaLang

/-- Where a program comes from: the path of its file, and, if modules can be looked for, which
    files there are. -/
structure Environment where
  path : String := "<main>"
  files : Option (String → Bool) := none

/-- What a pass over a program has built and asked so far. -/
structure Session where
  tree : ScopeTree
  probes : List String

/-- A step of the pass. -/
abbrev Emitter := EStateM CompileError Session

namespace Emitter

/-- Change the scopes. -/
def onTree (change : ScopeTree → ScopeTree) : Emitter Unit :=
  modify fun session => { session with tree := change session.tree }

/-- The scopes built so far. -/
def tree : Emitter ScopeTree := return (← get).tree

/-- Ask whether there is a file. -/
def probe (files : String → Bool) (path : String) : Emitter Bool := do
  modify fun session => { session with probes := session.probes ++ [path] }
  return files path

/-- The declarations at the top of a scope. -/
def declarations (tree : ScopeTree) (id : ScopeId) : List Layout :=
  ((tree.scope? id).elim [] Scope.hoistedNames).map fun name => .ofText ("let " ++ name ++ ";")

/-- The lines of a body with a scope of its own: the declarations of the scope before all else. -/
def inScope (kind : ScopeKind) (params : List Identifier) (body : Emitter (List Layout)) :
    Emitter (List Layout) := do
  let id := (← tree).size
  onTree fun tree => (tree.enter kind).declareParams params
  let lines ← body
  let declared := declarations (← tree) id
  onTree ScopeTree.exit
  return declared ++ lines

/-- A function's name and parameters. -/
def signature (name : String) (params : List Identifier) : Layout :=
  .ofText ("function" ++ name ++ "(" ++ Identifier.row params ++ ") ")

/-- The name of a method in the script. -/
def methodName : MethodName → String
  | .identifier name => if name.name = "__init__" then "constructor" else name.name
  | .operator op _ => "\"" ++ op.text ++ "\""

/-- An operator applied to operands. -/
def applied (key : String) (operands : List Layout) : Layout :=
  .ofText (Preamble.reference key ++ "(") ++ Layout.row operands ++ .ofText ")"

/-- The value of an assignment. A compound one applies its operator to the target. -/
def assigned (target : String) (op : AssignmentOperator) (value : Layout) : Layout :=
  match op with
  | .plain => value
  | .compound op => applied (Preamble.binaryKey op) [.ofText target, value]

/-- A layout in parentheses. -/
def inParentheses (layout : Layout) : Layout := .ofText "(" ++ layout ++ .ofText ")"

/-- A layout in parentheses if need be. -/
def inParenthesesIf (needed : Bool) (layout : Layout) : Layout :=
  if needed then inParentheses layout else layout

/-- An array: on one line if no item is broken over lines and the items together have at most ten
    bytes, and else with every item on a line of its own. -/
def array (depth : Nat) (items : List Layout) : Layout :=
  match items with
  | [] => .ofText "[]"
  | _ =>
    if items.all Layout.isOneLine && Layout.size items.flatten ≤ 10 then
      .ofText "[ " ++ Layout.row items ++ .ofText " ]"
    else Layout.stacked depth "[" "]" items

/-- An object: several fields are on lines of their own. -/
def object (depth : Nat) (fields : List Layout) : Layout :=
  match fields with
  | [] => .ofText "\x7b\x7d"
  | [field] => .ofText "\x7b " ++ field ++ .ofText " \x7d"
  | _ => Layout.stacked depth "\x7b" "\x7d" fields

/-- An expression as a statement. One that would be read as a block or a declaration stands in
    parentheses. -/
def expressionLine (code : Layout) : Layout :=
  let needed := code.startsWith ['\x7b'] || code.startsWith "function".toList
  inParenthesesIf needed code ++ .ofText ";"

/-- The name that an import statement binds, as it is written. -/
def importBinding (kind : ImportKind) (names : List Identifier) : String :=
  match kind with
  | .wholeModule => "* as " ++ Identifier.row names
  | .defaultExport => Identifier.row names
  | .namedExports => "\x7b " ++ Identifier.row names ++ " \x7d"

/-- Look for a module, and name it for the script. -/
def moduleSpecifier (env : Environment) (source : List Identifier) (span : Span) :
    Emitter String :=
  match env.files with
  | none => throw (.emitting .importWithoutFiles span)
  | some files => do
    let segments := source.map Identifier.name
    let found ← probe files (ModulePath.candidate env.path segments)
    return ModulePath.specifier segments found

/-- Whether an expression is a number literal. -/
def isNumber : Expression → Bool
  | .number _ _ => true
  | _ => false

/-- Whether an expression is a lambda. -/
def isLambda : Expression → Bool
  | .lambda _ _ _ => true
  | _ => false

/-- Whether a statement declares a function or a class. -/
def isDeclaration : Statement → Bool
  | .functionDecl _ _ _ _ => true
  | .classDecl _ _ _ => true
  | _ => false

/-- Bind the target of an assignment, if it is a name alone. -/
def bindTarget (target : Expression) (place : Position) (isLocal : Bool) : Emitter Unit :=
  match target.name? with
  | some name => onTree fun tree => tree.assign name place isLocal
  | none => return ()

mutual

/-- The text of an expression on a line of a given depth. -/
def expression (env : Environment) (depth : Nat) : Expression → Emitter Layout
  | .string value _ => return .ofText (Literal.template value)
  | .number text _ => return .ofText text
  | .name text _ => return .ofText text
  | .array items _ => return array depth (← expressions env (depth + 1) items)
  | .object entries _ => return object depth (← fields env (depth + 1) entries)
  | .property owner key _ => do
    let code ← expression env depth owner
    return inParenthesesIf (isNumber owner) code ++ .ofText ("." ++ key.name)
  | .assign target op value isLocal span => do
    bindTarget target span.first isLocal
    match target.path? with
    | none => throw (.emitting .invalidTarget target.span)
    | some path =>
      let code ← expression env depth value
      return .ofText (path ++ " = ") ++ assigned path op code
  | .binary left op right _ => do
    let leftCode ← expression env depth left
    let rightCode ← expression env depth right
    if op = .member then return leftCode ++ .ofText "[" ++ rightCode ++ .ofText "]"
    else return applied (Preamble.binaryKey op) [leftCode, rightCode]
  | .unary op operand _ => return applied (Preamble.unaryKey op) [← expression env depth operand]
  | .lambda params body _ => block env depth (signature "" params) .function params body
  | .call callee arguments _ => do
    let code ← expression env depth callee
    let args ← expressions env depth arguments
    return inParenthesesIf (isLambda callee) code ++ inParentheses (Layout.row args)
  | .construct callee arguments _ => do
    let code ← expression env depth callee
    let args ← expressions env depth arguments
    return .ofText "new " ++ inParenthesesIf (!callee.isAssignable) code ++
      inParentheses (Layout.row args)

/-- The texts of expressions in a row. -/
def expressions (env : Environment) (depth : Nat) : List Expression → Emitter (List Layout)
  | [] => return []
  | item :: more => do
    let code ← expression env depth item
    return code :: (← expressions env depth more)

/-- The texts of the fields of an object. -/
def fields (env : Environment) (depth : Nat) : List Field → Emitter (List Layout)
  | [] => return []
  | .mk key value :: more => do
    let code ← expression env depth value
    return (.ofText (Literal.key key ++ ": ") ++ code) :: (← fields env depth more)

/-- A block in braces behind its head, with a scope of its own. -/
def block (env : Environment) (depth : Nat) (head : Layout) (kind : ScopeKind)
    (params : List Identifier) : Block → Emitter Layout
  | .mk body _ => do
    return Layout.braced depth head (← inScope kind params (statements env (depth + 1) body))

/-- The lines of statements in a row. -/
def statements (env : Environment) (depth : Nat) : List Statement → Emitter (List Layout)
  | [] => return []
  | first :: more => do
    let lines ← statement env depth first
    return lines ++ (← statements env depth more)

/-- The lines of a statement: one, or none where there is nothing to say in the script. -/
def statement (env : Environment) (depth : Nat) : Statement → Emitter (List Layout)
  | .expression value _ => return [expressionLine (← expression env depth value)]
  | .block inner => return [← block env depth [] .block [] inner]
  | .condition test thenBranch elseBranch _ => do
    let code ← expression env depth test
    let head := .ofText "if (" ++ code ++ .ofText ") "
    let thenCode ← block env depth head .block [] thenBranch
    match elseBranch with
    | none => return [thenCode]
    | some (.block inner) =>
      return [thenCode ++ .ofText " " ++ (← block env depth (.ofText "else ") .block [] inner)]
    | some branch =>
      let lines ← statement env (depth + 1) branch
      return [thenCode ++ .ofText " " ++ Layout.braced depth (.ofText "else ") lines]
  | .forLoop item iterable body span => do
    onTree fun tree => tree.assign item.name span.first false
    let code ← expression env depth iterable
    let head := .ofText ("for (" ++ item.name ++ " of ") ++ code ++ .ofText ") "
    return [← block env depth head .block [] body]
  | .whileLoop test body _ => do
    let code ← expression env depth test
    return [← block env depth (.ofText "while (" ++ code ++ .ofText ") ") .block [] body]
  | .returnValue none _ => return [.ofText "return;"]
  | .returnValue (some value) _ => do
    let code ← expression env depth value
    return [.ofText "return " ++ code ++ .ofText ";"]
  | .breakLoop _ => return [.ofText "break;"]
  | .continueLoop _ => return [.ofText "continue;"]
  | .functionDecl name params body span => do
    onTree fun tree => tree.declare name.name .function span.first
    return [← block env depth (signature (" " ++ name.name) params) .function params body]
  | .classDecl name parts span => do
    onTree fun tree => (tree.declare name.name .classType span.first).enter .classBody
    let lines ← members env (depth + 1) parts
    onTree ScopeTree.exit
    return [Layout.braced depth (.ofText ("class " ++ name.name ++ " ")) lines]
  | .hostDecl name kind _ => do
    onTree fun tree => tree.declareHost name.name kind
    return []
  | .importDecl source names kind span => do
    let specifier ← moduleSpecifier env source span
    onTree fun tree => tree.declareParams names
    return [.ofText
      ("import " ++ importBinding kind names ++ " from \"" ++ specifier ++ "\";")]
  | .exportDecl declaration _ => do
    if isDeclaration declaration then
      let lines ← statement env depth declaration
      return lines.map fun line => .ofText "export " ++ line
    else exported env depth declaration
  | .guarded inner test _ => do
    let code ← expression env depth test
    let lines ← inScope .block [] (statement env (depth + 1) inner)
    return [Layout.braced depth (.ofText "if (" ++ code ++ .ofText ") ") lines]

/-- The lines of an exported assignment, which declares its name. Nothing else is exported here. -/
def exported (env : Environment) (depth : Nat) : Statement → Emitter (List Layout)
  | .expression (.assign target op value _ span) _ =>
    match target.name? with
    | none => throw (.emitting .unexportable target.span)
    | some name => do
      if ((← tree).lookup name).isSome then throw (.emitting .exportAfterUse span)
      else
        onTree fun tree => tree.declare name .variable span.first
        let code ← expression env depth value
        return [.ofText ("export let " ++ name ++ " = ") ++ assigned name op code ++ .ofText ";"]
  | other => throw (.emitting .unexportable other.span)

/-- The lines of the members of a class. -/
def members (env : Environment) (depth : Nat) : List ClassMember → Emitter (List Layout)
  | [] => return []
  | first :: more => do
    let line ← member env depth first
    return line :: (← members env depth more)

/-- The line of a member of a class. -/
def member (env : Environment) (depth : Nat) : ClassMember → Emitter Layout
  | .field name value _ => do
    let code ← expression env depth value
    return .ofText (name.name ++ " = ") ++ code ++ .ofText ";"
  | .method name params body _ =>
    let head := .ofText (methodName name ++ "(" ++ Identifier.row params ++ ") ")
    block env depth head .function params body

end

/-- The lines of a program, the declarations of its scope before all else. -/
def program (env : Environment) (program : Program) : Emitter (List Layout) := do
  let lines ← statements env 0 program.body
  return declarations (← tree) 0 ++ lines

end Emitter

/-- A script: the lines behind the preamble. -/
structure Script where
  lines : List Layout
deriving DecidableEq

namespace Script

/-- The script without its preamble, with `width` blanks to a level. -/
def body (script : Script) (width : Nat) : String :=
  (Layout.lines 0 script.lines).render width

/-- The whole script with `width` blanks to a level. -/
def text (script : Script) (width : Nat) : String :=
  Preamble.text width ++ script.body width

/-- The blanks to a level where nothing else is asked for. -/
def defaultWidth : Nat := 4

end Script

/-- The outcome of a pass: the script or the fault that ended it, the scopes, and the files that
    were asked for, in order. -/
structure Emission where
  result : Except CompileError Script
  tree : ScopeTree
  probes : List String

/-- The script of a program. -/
def Program.emit (program : Program) (env : Environment) : Emission :=
  match (Emitter.program env program).run ⟨.start, []⟩ with
  | .ok lines session => ⟨.ok ⟨lines⟩, session.tree, session.probes⟩
  | .error error session => ⟨.error error, session.tree, session.probes⟩

end KaLang
