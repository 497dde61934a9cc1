import KaLang.Proofs.Scope.Walk
import KaLang.Proofs.Syntax.Nodes

/-!
The nodes of a program in the order in which the scope index visits them, each with the index of all
nodes visited before it (`Program.encounters`). What a node means may depend on the scopes that it
is reached with, so what is said of the first node of a kind is said of this list. Such a list
follows the steps of the walk (`Encounters.Follow`) and covers some nodes and those below them
(`Encounters.Cover`).
-/

namespace KaLang

/-- A node, and the index of the nodes that are visited before it. -/
structure Encounter where
  index : ScopeIndex
  node : Node

namespace Encounters

/-- The parameters of a function, each of which is declared as it is met. -/
def parameters (index : ScopeIndex) : List Identifier → List Encounter
  | [] => []
  | name :: more => ⟨index, .parameter name⟩ :: parameters (index.declareName name) more

mutual

/-- The nodes of an expression. -/
def expression (index : ScopeIndex) : Expression → List Encounter
  | .string value span => [⟨index, .expression (.string value span)⟩]
  | .number text span => [⟨index, .expression (.number text span)⟩]
  | .name text span => [⟨index, .expression (.name text span)⟩]
  | .array items span =>
    ⟨index, .expression (.array items span)⟩ :: expressions (index.record span) items
  | .object entries span =>
    ⟨index, .expression (.object entries span)⟩ :: fields (index.record span) entries
  | .property owner key span =>
    ⟨index, .expression (.property owner key span)⟩ :: expression (index.record span) owner
  | .assign target op value isLocal span =>
    let assigned := (index.record span).assignTo target span.first isLocal
    ⟨index, .expression (.assign target op value isLocal span)⟩ ::
      expression assigned target ++ expression (assigned.expression target) value
  | .binary left op right span =>
    let visited := index.record span
    ⟨index, .expression (.binary left op right span)⟩ ::
      expression visited left ++ expression (visited.expression left) right
  | .unary op operand span =>
    ⟨index, .expression (.unary op operand span)⟩ :: expression (index.record span) operand
  | .lambda params body span =>
    ⟨index, .expression (.lambda params body span)⟩ ::
      block (index.record span) .function params body
  | .call callee arguments span =>
    let visited := index.record span
    ⟨index, .expression (.call callee arguments span)⟩ ::
      expression visited callee ++ expressions (visited.expression callee) arguments
  | .construct callee arguments span =>
    let visited := index.record span
    ⟨index, .expression (.construct callee arguments span)⟩ ::
      expression visited callee ++ expressions (visited.expression callee) arguments

/-- The nodes of expressions in a row. -/
def expressions (index : ScopeIndex) : List Expression → List Encounter
  | [] => []
  | item :: more => expression index item ++ expressions (index.expression item) more

/-- The nodes of the fields of an object. -/
def fields (index : ScopeIndex) : List Field → List Encounter
  | [] => []
  | .mk _ value :: more => expression index value ++ fields (index.expression value) more

/-- The nodes of a block, whose parameters are met in front of its statements. -/
def block (index : ScopeIndex) (kind : ScopeKind) (params : List Identifier) :
    Block → List Encounter
  | .mk body span =>
    let opened := index.onTree fun tree => tree.enter kind
    ⟨opened, .block (.mk body span)⟩ :: parameters (opened.record span) params ++
      statements (index.enterBlock kind params span) body

/-- The nodes of statements in a row. -/
def statements (index : ScopeIndex) : List Statement → List Encounter
  | [] => []
  | first :: more => statement index first ++ statements (index.statement first) more

/-- The nodes of a statement. An exported assignment is reached with its name declared. -/
def statement (index : ScopeIndex) : Statement → List Encounter
  | .expression value span =>
    ⟨index, .statement (.expression value span)⟩ :: expression (index.record span) value
  | .block inner =>
    ⟨index, .statement (.block inner)⟩ :: block (index.record inner.span) .block [] inner
  | .condition test thenBranch elseBranch span =>
    let tested := (index.record span).expression test
    ⟨index, .statement (.condition test thenBranch elseBranch span)⟩ ::
      expression (index.record span) test ++ block tested .block [] thenBranch ++
      match elseBranch with
      | none => []
      | some branch => statement (tested.block .block [] thenBranch) branch
  | .forLoop item iterable body span =>
    let assigned := (index.record span).onTree fun tree => tree.assign item.name span.first false
    ⟨index, .statement (.forLoop item iterable body span)⟩ ::
      expression assigned iterable ++ block (assigned.expression iterable) .block [] body
  | .whileLoop test body span =>
    let visited := index.record span
    ⟨index, .statement (.whileLoop test body span)⟩ ::
      expression visited test ++ block (visited.expression test) .block [] body
  | .returnValue none span => [⟨index, .statement (.returnValue none span)⟩]
  | .returnValue (some value) span =>
    ⟨index, .statement (.returnValue (some value) span)⟩ :: expression (index.record span) value
  | .breakLoop span => [⟨index, .statement (.breakLoop span)⟩]
  | .continueLoop span => [⟨index, .statement (.continueLoop span)⟩]
  | .functionDecl name params body span =>
    let declared := (index.record span).onTree fun tree =>
      tree.declare name.name .function span.first
    ⟨index, .statement (.functionDecl name params body span)⟩ ::
      block declared .function params body
  | .classDecl name parts span =>
    let declared := (index.record span).onTree fun tree =>
      (tree.declare name.name .classType span.first).enter .classBody
    ⟨index, .statement (.classDecl name parts span)⟩ :: members declared parts
  | .hostDecl name kind span => [⟨index, .statement (.hostDecl name kind span)⟩]
  | .importDecl source names kind span =>
    [⟨index, .statement (.importDecl source names kind span)⟩]
  | .exportDecl (.expression (.assign target op value isLocal place) inner) span =>
    let assign : Expression := .assign target op value isLocal place
    let declared := (index.record span).exportTo target place.first
    let visited := declared.record place
    ⟨index, .statement (.exportDecl (.expression assign inner) span)⟩ ::
      ⟨declared, .statement (.expression assign inner)⟩ :: ⟨declared, .expression assign⟩ ::
      expression visited target ++ expression (visited.expression target) value
  | .exportDecl declaration span =>
    ⟨index, .statement (.exportDecl declaration span)⟩ ::
      statement (index.record span) declaration
  | .guarded inner test span =>
    let visited := index.record span
    ⟨index, .statement (.guarded inner test span)⟩ :: expression visited test ++
      statement ((visited.expression test).onTree fun tree => tree.enter .block) inner

/-- The nodes of the members of a class. -/
def members (index : ScopeIndex) : List ClassMember → List Encounter
  | [] => []
  | first :: more => member index first ++ members (index.member first) more

/-- The nodes of a member of a class. -/
def member (index : ScopeIndex) : ClassMember → List Encounter
  | .field name value span =>
    ⟨index, .member (.field name value span)⟩ :: expression (index.record span) value
  | .method name params body span =>
    ⟨index, .member (.method name params body span)⟩ ::
      block (index.record span) .function params body

end

theorem statement_exportDecl {index : ScopeIndex} {declaration : Statement} {span : Span}
    (hassign : declaration.isAssignment = false) :
    statement index (.exportDecl declaration span) =
      ⟨index, .statement (.exportDecl declaration span)⟩ ::
        statement (index.record span) declaration := by
  cases declaration with
  | expression value =>
    cases value with
    | assign => cases hassign
    | _ => rfl
  | _ => rfl

end Encounters

/-- The nodes of a program in the order in which they are visited. -/
def Program.encounters (program : Program) : List Encounter :=
  Encounters.statements (ScopeIndex.empty.record program.span) program.body

/-! ### Along the walk -/

namespace Encounters

/-- Whether nodes are met one after the other on some steps, each with what the steps in front of it
    make of the index. -/
inductive Follow : ScopeIndex → List Step → List Encounter → Prop where
  | done (index : ScopeIndex) (steps : List Step) : Follow index steps []
  | step {index : ScopeIndex} (step : Step) {steps : List Step} {met : List Encounter}
      (hmet : Follow (index.step step) steps met) : Follow index (step :: steps) met
  | meet {index : ScopeIndex} {steps : List Step} (node : Node) {met : List Encounter}
      (hmet : Follow index steps met) : Follow index steps (⟨index, node⟩ :: met)

variable {index : ScopeIndex} {steps more : List Step} {met next : List Encounter}

theorem Follow.behind (hmet : Follow (index.run steps) more met) :
    Follow index (steps ++ more) met := by
  induction steps generalizing index with
  | nil => exact hmet
  | cons step steps ih => exact .step step (ih hmet)

theorem Follow.append (hmet : Follow index steps met) (hnext : Follow (index.run steps) more next) :
    Follow index (steps ++ more) (met ++ next) := by
  induction hmet with
  | done index steps => exact hnext.behind
  | step step _ ih => exact .step step (ih hnext)
  | meet node _ ih => exact .meet node (ih hnext)

end Encounters

/-! ### Nodes below nodes -/

/-- Whether a node is another one or stands somewhere below it. -/
inductive Node.Within (root : Node) : Node → Prop where
  | self : root.Within root
  | child {parent child : Node} (hparent : root.Within parent) (hchild : child ∈ parent.children) :
      root.Within child

theorem Node.Within.under {root child node : Node} (hchild : child ∈ root.children)
    (hnode : child.Within node) : root.Within node := by
  induction hnode with
  | self => exact .child .self hchild
  | child _ hnode ih => exact .child ih hnode

/-- What stands below a node stands below one of its children. -/
theorem Node.within_iff {root node : Node} :
    root.Within node ↔ node = root ∨ ∃ child ∈ root.children, child.Within node := by
  constructor
  · intro hnode
    induction hnode with
    | self => exact .inl rfl
    | @child parent node _ hnode ih =>
      rcases ih with rfl | ⟨child, hchild, hparent⟩
      · exact .inr ⟨node, hnode, .self⟩
      · exact .inr ⟨child, hchild, .child hparent hnode⟩
  · rintro (rfl | ⟨child, hchild, hnode⟩)
    · exact .self
    · exact hnode.under hchild

/-- A program holds what stands within its statements. -/
theorem Program.holds_iff {program : Program} {node : Node} :
    program.Holds node ↔ ∃ root ∈ program.body.map Node.statement, root.Within node := by
  constructor
  · intro hnode
    induction hnode with
    | body hstatement => exact ⟨_, List.mem_map_of_mem hstatement, .self⟩
    | child _ hchild ih =>
      obtain ⟨root, hroot, hparent⟩ := ih
      exact ⟨root, hroot, .child hparent hchild⟩
  · rintro ⟨root, hroot, hnode⟩
    obtain ⟨statement, hstatement, rfl⟩ := List.mem_map.mp hroot
    induction hnode with
    | self => exact .body hstatement
    | child _ hchild ih => exact .child ih hchild

/-- Whether the nodes met on some steps are the given ones and those below them. -/
structure Encounters.Cover (index : ScopeIndex) (roots : List Node) (steps : List Step)
    (met : List Encounter) : Prop where
  follow : Follow index steps met
  mem_iff : ∀ node, (∃ index, ⟨index, node⟩ ∈ met) ↔ ∃ root ∈ roots, root.Within node

namespace Encounters.Cover

variable {index later : ScopeIndex} {roots others : List Node} {node : Node}
  {own steps more : List Step} {met next : List Encounter}

theorem nil (index : ScopeIndex) (steps : List Step) : Cover index [] steps [] :=
  ⟨.done index steps, by simp⟩

theorem append (hmet : Cover index roots steps met) (hindex : later = index.run steps)
    (hnext : Cover later others more next) :
    Cover index (roots ++ others) (steps ++ more) (met ++ next) where
  follow := hmet.follow.append (hindex ▸ hnext.follow)
  mem_iff node := by
    simp only [List.mem_append, or_and_right, exists_or, hmet.mem_iff node, hnext.mem_iff node]

/-- It does not matter in which order the nodes are given. -/
theorem perm (hmet : Cover index roots steps met) (hroots : roots.Perm others) :
    Cover index others steps met :=
  ⟨hmet.follow, fun node => by simp only [hmet.mem_iff node, hroots.mem_iff]⟩

theorem behind (step : Step) (hmet : Cover (index.step step) roots steps met) :
    Cover index roots (step :: steps) met :=
  ⟨.step step hmet.follow, hmet.mem_iff⟩

/-- A node with steps of its own, in front of the nodes below it. -/
theorem amid (own : List Step) (hindex : later = index.run own)
    (hmet : Cover later (others ++ node.children) steps met) :
    Cover index (others ++ [node]) (own ++ steps) (⟨index, node⟩ :: met) where
  follow := .meet node (Follow.behind (hindex ▸ hmet.follow))
  mem_iff other := by
    have hself : (∃ reached, Encounter.mk reached other = ⟨index, node⟩) ↔ other = node := by simp
    simp only [List.mem_cons, List.mem_append, List.not_mem_nil, or_false, or_and_right, exists_or,
      exists_eq_left, @Node.within_iff node, hself, hmet.mem_iff other]
    exact or_left_comm

theorem visited (own : List Step) (hindex : later = index.run own)
    (hmet : Cover later node.children steps met) :
    Cover index [node] (own ++ steps) (⟨index, node⟩ :: met) :=
  @amid index later [] node steps met own hindex hmet

end Encounters.Cover

end KaLang
