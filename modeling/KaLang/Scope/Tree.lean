import KaLang.Syntax.Basic

/-!
Scopes and the names bound in them. A tree keeps every scope that was ever opened, the newest
first; a scope is opened inside one that exists, so its parent stands behind it in that list, and
the way outwards from a scope (`chainFrom`) is read off the list in one pass.
-/

namespace KaLang

/-- What a name was bound by. -/
inductive SymbolKind where
  | variable
  | function
  | classType
deriving DecidableEq

/-- A name bound in a scope. A hoisted one needs a declaration at the top of that scope; every
    other is declared where it is bound. -/
structure Symbol where
  name : String
  kind : SymbolKind
  definedAt : Position
  hoisted : Bool
deriving DecidableEq

namespace Symbol

/-- The symbols with one more. A symbol of the same name is replaced at its place. -/
def put (symbols : List Symbol) (symbol : Symbol) : List Symbol :=
  match symbols with
  | [] => [symbol]
  | other :: more => if other.name = symbol.name then symbol :: more else other :: put more symbol

end Symbol

/-- The number of a scope in the order of opening. The program's own scope has number zero. -/
abbrev ScopeId := Nat

/-- What a scope belongs to: the program or a function of any kind, a class, or a body under
    control flow. -/
inductive ScopeKind where
  | function
  | classBody
  | block
deriving DecidableEq

/-- A scope with the symbols bound in it, in the order in which their names were first bound. -/
structure Scope where
  id : ScopeId
  parent : Option ScopeId
  kind : ScopeKind
  symbols : List Symbol
deriving DecidableEq

namespace Scope

/-- The symbol of a name in this very scope. -/
def get? (scope : Scope) (name : String) : Option Symbol :=
  scope.symbols.find? fun symbol => symbol.name = name

/-- The names that need a declaration at the top of the scope. -/
def hoistedNames (scope : Scope) : List String :=
  (scope.symbols.filter Symbol.hoisted).map Symbol.name

/-- The scope with a symbol bound in it. -/
def bind (scope : Scope) (symbol : Symbol) : Scope :=
  { scope with symbols := Symbol.put scope.symbols symbol }

end Scope

/-- The scopes on the way outwards from the scope `id`, itself first. `scopes` are newest first,
    so only the scopes behind one can hold its parent. -/
def Scope.chain (scopes : List Scope) (id : ScopeId) : List Scope :=
  match scopes with
  | [] => []
  | scope :: older =>
    if scope.id = id then
      match scope.parent with
      | none => [scope]
      | some parent => scope :: chain older parent
    else chain older id

/-- All scopes, the newest first, the one that is open, and what the host provides, the latest
    declaration first. -/
structure ScopeTree where
  newestFirst : List Scope
  current : ScopeId
  hosts : List (String × HostKind)
deriving DecidableEq

namespace ScopeTree

/-- The tree in which only the program's scope is open. -/
def start : ScopeTree := ⟨[⟨0, none, .function, []⟩], 0, []⟩

/-- The scopes in the order of opening. -/
def scopes (tree : ScopeTree) : List Scope := tree.newestFirst.reverse

/-- How many scopes there are. -/
def size (tree : ScopeTree) : Nat := tree.newestFirst.length

/-- The scope of a number. -/
def scope? (tree : ScopeTree) (id : ScopeId) : Option Scope :=
  tree.newestFirst.find? fun scope => scope.id = id

/-- The scopes on the way outwards from a scope, itself first. -/
def chainFrom (tree : ScopeTree) (id : ScopeId) : List Scope :=
  Scope.chain tree.newestFirst id

/-- The tree with a new scope opened inside the current one. -/
def enter (tree : ScopeTree) (kind : ScopeKind) : ScopeTree :=
  { tree with
    newestFirst := ⟨tree.size, some tree.current, kind, []⟩ :: tree.newestFirst
    current := tree.size }

/-- The tree with the parent of the current scope open again. The program's scope stays open. -/
def exit (tree : ScopeTree) : ScopeTree :=
  match (tree.scope? tree.current).bind Scope.parent with
  | some parent => { tree with current := parent }
  | none => tree

/-- The symbol that a name stands for inside a scope: the one bound nearest on the way outwards. -/
def lookupFrom (tree : ScopeTree) (id : ScopeId) (name : String) : Option Symbol :=
  (tree.chainFrom id).findSome? fun scope => scope.get? name

/-- The symbol that a name stands for in the current scope. -/
def lookup (tree : ScopeTree) (name : String) : Option Symbol :=
  tree.lookupFrom tree.current name

/-- Every symbol bound on the way to a scope, from the program's scope inwards. -/
def visibleFrom (tree : ScopeTree) (id : ScopeId) : List Symbol :=
  (tree.chainFrom id).reverse.flatMap Scope.symbols

/-- What the host provides under a name. -/
def hostKind? (tree : ScopeTree) (name : String) : Option HostKind :=
  tree.hosts.lookup name

/-- The tree with a name that the host provides. The name is known in every scope. -/
def declareHost (tree : ScopeTree) (name : String) (kind : HostKind) : ScopeTree :=
  { tree with hosts := (name, kind) :: tree.hosts }

/-- The tree with a symbol bound in one of its scopes. -/
def bindIn (tree : ScopeTree) (id : ScopeId) (symbol : Symbol) : ScopeTree :=
  { tree with
    newestFirst :=
      tree.newestFirst.map fun scope => if scope.id = id then scope.bind symbol else scope }

/-- The tree with a name bound in the current scope by something that declares it: a parameter,
    an import, an export, a function or a class. -/
def declare (tree : ScopeTree) (name : String) (kind : SymbolKind) (definedAt : Position) :
    ScopeTree :=
  tree.bindIn tree.current ⟨name, kind, definedAt, false⟩

/-- The nearest scope on the way outwards from the current one that belongs to a function or to
    the program. -/
def functionScope (tree : ScopeTree) : ScopeId :=
  ((tree.chainFrom tree.current).find? fun scope => scope.kind = .function).elim 0 Scope.id

/-- The tree after an assignment to a name. A local assignment binds the name in the current
    scope, unless something there declares it already. Every other assignment is to the name as
    the host or a scope on the way outwards provides it, and binds a new name for the whole
    function. -/
def assign (tree : ScopeTree) (name : String) (definedAt : Position) (isLocal : Bool) :
    ScopeTree :=
  let symbol : Symbol := ⟨name, .variable, definedAt, true⟩
  if isLocal then
    match (tree.scope? tree.current).bind fun scope => scope.get? name with
    | some ⟨_, _, _, false⟩ => tree
    | _ => tree.bindIn tree.current symbol
  else if (tree.hostKind? name).isSome || (tree.lookup name).isSome then tree
  else tree.bindIn tree.functionScope symbol

/-- The tree with a list of parameters declared in the current scope. -/
def declareParams (tree : ScopeTree) (params : List Identifier) : ScopeTree :=
  params.foldl (fun tree param => tree.declare param.name .variable param.span.first) tree

end ScopeTree

end KaLang
