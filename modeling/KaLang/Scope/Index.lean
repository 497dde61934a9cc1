import KaLang.Scope.Tree

/-!
The scope index of a program: its finished scope tree, and for every node the scope that it
stands in. Nodes are recorded on the way into them, so of the nodes that cover a place the
innermost is the one recorded last.
-/

namespace KaLang

/-- A scope tree and the nodes seen so far, the latest first, each with the scope that was open
    when it was reached. -/
structure ScopeIndex where
  tree : ScopeTree
  history : List (Span × ScopeId)
deriving DecidableEq

namespace ScopeIndex

/-- The index of nothing. -/
def empty : ScopeIndex := ⟨.start, []⟩

/-- The index with a node recorded in the current scope. -/
def record (index : ScopeIndex) (span : Span) : ScopeIndex :=
  { index with history := (span, index.tree.current) :: index.history }

/-- The index with its tree changed. -/
def onTree (index : ScopeIndex) (change : ScopeTree → ScopeTree) : ScopeIndex :=
  { index with tree := change index.tree }

/-- The index with a name declared and its place recorded. -/
def declareName (index : ScopeIndex) (name : Identifier) : ScopeIndex :=
  (index.record name.span).onTree fun tree => tree.declare name.name .variable name.span.first

/-- The index with a new scope opened for a block, whose parameters are declared in it. -/
def enterBlock (index : ScopeIndex) (kind : ScopeKind) (params : List Identifier) (span : Span) :
    ScopeIndex :=
  params.foldl declareName ((index.onTree fun tree => tree.enter kind).record span)

/-- The index with the current scope closed. -/
def exit (index : ScopeIndex) : ScopeIndex := index.onTree ScopeTree.exit

/-- The index after an assignment, when its target is a name alone. -/
def assignTo (index : ScopeIndex) (target : Expression) (place : Position) (isLocal : Bool) :
    ScopeIndex :=
  match target.name? with
  | some name => index.onTree fun tree => tree.assign name place isLocal
  | none => index

/-- The index after the export of an assignment. A name that is bound already stays as it is. -/
def exportTo (index : ScopeIndex) (target : Expression) (place : Position) : ScopeIndex :=
  match target.name? with
  | some name =>
    if (index.tree.lookup name).isSome then index
    else index.onTree fun tree => tree.declare name .variable place
  | none => index

mutual

/-- The index after an expression. -/
def expression (index : ScopeIndex) : Expression → ScopeIndex
  | .string _ span => index.record span
  | .number _ span => index.record span
  | .name _ span => index.record span
  | .array items span => expressions (index.record span) items
  | .object entries span => fields (index.record span) entries
  | .property owner _ span => expression (index.record span) owner
  | .assign target _ value isLocal span =>
    let assigned := (index.record span).assignTo target span.first isLocal
    expression (expression assigned target) value
  | .binary left _ right span => expression (expression (index.record span) left) right
  | .unary _ operand span => expression (index.record span) operand
  | .lambda params body span => block (index.record span) .function params body
  | .call callee arguments span =>
    expressions (expression (index.record span) callee) arguments
  | .construct callee arguments span =>
    expressions (expression (index.record span) callee) arguments

/-- The index after expressions in a row. -/
def expressions (index : ScopeIndex) : List Expression → ScopeIndex
  | [] => index
  | item :: more => expressions (expression index item) more

/-- The index after the fields of an object. -/
def fields (index : ScopeIndex) : List Field → ScopeIndex
  | [] => index
  | .mk _ value :: more => fields (expression index value) more

/-- The index after a block with a scope of its own. -/
def block (index : ScopeIndex) (kind : ScopeKind) (params : List Identifier) :
    Block → ScopeIndex
  | .mk body span => (statements (index.enterBlock kind params span) body).exit

/-- The index after statements in a row. -/
def statements (index : ScopeIndex) : List Statement → ScopeIndex
  | [] => index
  | first :: more => statements (statement index first) more

/-- The index after a statement. An exported assignment declares its name instead of assigning to
    it. -/
def statement (index : ScopeIndex) : Statement → ScopeIndex
  | .expression value span => expression (index.record span) value
  | .block inner => block (index.record inner.span) .block [] inner
  | .condition test thenBranch elseBranch span =>
    let tested := expression (index.record span) test
    let afterThen := block tested .block [] thenBranch
    match elseBranch with
    | none => afterThen
    | some branch => statement afterThen branch
  | .forLoop item iterable body span =>
    let assigned := (index.record span).onTree fun tree => tree.assign item.name span.first false
    block (expression assigned iterable) .block [] body
  | .whileLoop test body span => block (expression (index.record span) test) .block [] body
  | .returnValue none span => index.record span
  | .returnValue (some value) span => expression (index.record span) value
  | .breakLoop span => index.record span
  | .continueLoop span => index.record span
  | .functionDecl name params body span =>
    let declared := (index.record span).onTree fun tree =>
      tree.declare name.name .function span.first
    block declared .function params body
  | .classDecl name parts span =>
    let declared := (index.record span).onTree fun tree =>
      (tree.declare name.name .classType span.first).enter .classBody
    (members declared parts).exit
  | .hostDecl name kind span =>
    (index.record span).onTree fun tree => tree.declareHost name.name kind
  | .importDecl _ names _ span => names.foldl declareName (index.record span)
  | .exportDecl (.expression (.assign target _ value _ place) _) span =>
    let declared := ((index.record span).exportTo target place.first).record place
    expression (expression declared target) value
  | .exportDecl declaration span => statement (index.record span) declaration
  | .guarded inner test span =>
    let tested := expression (index.record span) test
    (statement (tested.onTree fun tree => tree.enter .block) inner).exit

/-- The index after the members of a class. -/
def members (index : ScopeIndex) : List ClassMember → ScopeIndex
  | [] => index
  | first :: more => members (member index first) more

/-- The index after a member of a class. -/
def member (index : ScopeIndex) : ClassMember → ScopeIndex
  | .field _ value span => expression (index.record span) value
  | .method _ params body span => block (index.record span) .function params body

end

/-- The index of a program. -/
def ofProgram (program : Program) : ScopeIndex :=
  statements (empty.record program.span) program.body

/-- The innermost scope whose node covers a byte offset. -/
def scopeAtOffset? (index : ScopeIndex) (offset : Nat) : Option ScopeId :=
  (index.history.find? fun entry => entry.1.coversOffset offset).map Prod.snd

/-- The innermost scope whose node covers a line and column. -/
def scopeAtPlace? (index : ScopeIndex) (line column : Nat) : Option ScopeId :=
  (index.history.find? fun entry => entry.1.coversPlace line column).map Prod.snd

/-- Every symbol bound on the way to a byte offset, from the program's scope inwards. -/
def visibleAtOffset (index : ScopeIndex) (offset : Nat) : List Symbol :=
  (index.scopeAtOffset? offset).elim [] index.tree.visibleFrom

end ScopeIndex

end KaLang
