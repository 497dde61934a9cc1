import KaLang.Proofs.Scope.Change
import KaLang.Scope.Index
import KaLang.Script.Emission

/-!
The walk over a program, as a list of steps that is read off the syntax alone. The scope index is
what the steps make of the empty index (`ofProgram_eq_run`), so what holds of every list of steps,
or of every well-nested one, holds of the index of every program.
-/

namespace KaLang

/-- What opens a scope: its kind, the depth of the line on which it is opened, the parameters
    declared in it and the statements of its body. A class has members in place of both. -/
structure Opening where
  kind : ScopeKind
  depth : Nat
  params : List Identifier
  body : List Statement

/-- What is met on a walk over a program: the text of a node, a scope that is opened or closed, a
    name that is declared, assigned to, exported or provided by the host, a module that is looked
    for, and a node of which there is no script. -/
inductive Step where
  | visit (span : Span)
  | enter (opening : Opening)
  | exit
  | declare (name : String) (kind : SymbolKind) (place : Position)
  | assign (name : String) (place : Position) (isLocal : Bool)
  | publish (name : String) (span : Span)
  | host (name : String) (kind : HostKind)
  | seek (source : List Identifier) (span : Span)
  | refuse (error : CompileError)

/-- Whether a statement is an assignment alone. -/
def Statement.isAssignment : Statement → Bool
  | .expression (.assign _ _ _ _ _) _ => true
  | _ => false

namespace Walk

/-- The names of parameters or of an import. -/
def names (names : List Identifier) : List Step :=
  names.flatMap fun name => [.visit name.span, .declare name.name .variable name.span.first]

/-- The target of an assignment, before it is visited as a node. -/
def target (target : Expression) (place : Position) (isLocal : Bool) : List Step :=
  (match target.name? with
    | some name => [.assign name place isLocal]
    | none => []) ++
  match target.path? with
  | some _ => []
  | none => [.refuse (.emitting .invalidTarget target.span)]

/-- The target of an exported assignment, before it is visited as a node. -/
def exportTarget (target : Expression) (span : Span) : List Step :=
  match target.name? with
  | some name => [.publish name span]
  | none => [.refuse (.emitting .unexportable target.span)]

/-- What is exported, if it is no assignment, before it is visited as a node. -/
def exported (declaration : Statement) : List Step :=
  if Emitter.isDeclaration declaration then []
  else [.refuse (.emitting .unexportable declaration.span)]

mutual

/-- The walk over an expression on a line of a given depth. -/
def expression (depth : Nat) : Expression → List Step
  | .string _ span => [.visit span]
  | .number _ span => [.visit span]
  | .name _ span => [.visit span]
  | .array items span => .visit span :: expressions (depth + 1) items
  | .object entries span => .visit span :: fields (depth + 1) entries
  | .property owner _ span => .visit span :: expression depth owner
  | .assign target _ value isLocal span =>
    .visit span :: Walk.target target span.first isLocal ++ expression depth target ++
      expression depth value
  | .binary left _ right span => .visit span :: expression depth left ++ expression depth right
  | .unary _ operand span => .visit span :: expression depth operand
  | .lambda params body span => .visit span :: block depth .function params body
  | .call callee arguments span =>
    .visit span :: expression depth callee ++ expressions depth arguments
  | .construct callee arguments span =>
    .visit span :: expression depth callee ++ expressions depth arguments

/-- The walk over expressions in a row. -/
def expressions (depth : Nat) : List Expression → List Step
  | [] => []
  | item :: more => expression depth item ++ expressions depth more

/-- The walk over the fields of an object. -/
def fields (depth : Nat) : List Field → List Step
  | [] => []
  | .mk _ value :: more => expression depth value ++ fields depth more

/-- The walk over a block with a scope of its own. -/
def block (depth : Nat) (kind : ScopeKind) (params : List Identifier) : Block → List Step
  | .mk body span =>
    .enter ⟨kind, depth, params, body⟩ :: .visit span :: names params ++
      statements (depth + 1) body ++ [.exit]

/-- The walk over statements in a row. -/
def statements (depth : Nat) : List Statement → List Step
  | [] => []
  | first :: more => statement depth first ++ statements depth more

/-- The walk over a statement. A condition in the alternative of another one is a level deeper. -/
def statement (depth : Nat) : Statement → List Step
  | .expression value span => .visit span :: expression depth value
  | .block inner => .visit inner.span :: block depth .block [] inner
  | .condition test thenBranch elseBranch span =>
    .visit span :: expression depth test ++ block depth .block [] thenBranch ++
      match elseBranch with
      | none => []
      | some (.block inner) => .visit inner.span :: block depth .block [] inner
      | some branch => statement (depth + 1) branch
  | .forLoop item iterable body span =>
    .visit span :: .assign item.name span.first false :: expression depth iterable ++
      block depth .block [] body
  | .whileLoop test body span =>
    .visit span :: expression depth test ++ block depth .block [] body
  | .returnValue none span => [.visit span]
  | .returnValue (some value) span => .visit span :: expression depth value
  | .breakLoop span => [.visit span]
  | .continueLoop span => [.visit span]
  | .functionDecl name params body span =>
    .visit span :: .declare name.name .function span.first :: block depth .function params body
  | .classDecl name parts span =>
    .visit span :: .declare name.name .classType span.first ::
      .enter ⟨.classBody, depth, [], []⟩ :: members (depth + 1) parts ++ [.exit]
  | .hostDecl name kind span => [.visit span, .host name.name kind]
  | .importDecl source names _ span => .visit span :: .seek source span :: Walk.names names
  | .exportDecl (.expression (.assign target _ value _ place) _) span =>
    .visit span :: exportTarget target place ++ .visit place :: expression depth target ++
      expression depth value
  | .exportDecl declaration span =>
    .visit span :: exported declaration ++ statement depth declaration
  | .guarded inner test span =>
    .visit span :: expression depth test ++
      (.enter ⟨.block, depth, [], [inner]⟩ :: statement (depth + 1) inner ++ [.exit])

/-- The walk over the members of a class. -/
def members (depth : Nat) : List ClassMember → List Step
  | [] => []
  | first :: more => member depth first ++ members depth more

/-- The walk over a member of a class. -/
def member (depth : Nat) : ClassMember → List Step
  | .field _ value span => .visit span :: expression depth value
  | .method _ params body span => .visit span :: block depth .function params body

end

theorem statement_exportDecl {depth : Nat} {declaration : Statement} {span : Span}
    (hassign : declaration.isAssignment = false) :
    statement depth (.exportDecl declaration span) =
      .visit span :: exported declaration ++ statement depth declaration := by
  cases declaration with
  | expression value =>
    cases value with
    | assign => cases hassign
    | _ => rfl
  | _ => rfl

/-- The walk over a program. -/
def program (program : Program) : List Step :=
  .visit program.span :: statements 0 program.body

end Walk

/-- The steps inside a scope that is no class's, but for the text of its block. -/
def Opening.inside (opening : Opening) : List Step :=
  Walk.names opening.params ++ Walk.statements (opening.depth + 1) opening.body

/-! ### What steps do -/

/-- What a step makes of a scope tree. -/
def ScopeTree.step (tree : ScopeTree) : Step → ScopeTree
  | .enter opening => tree.enter opening.kind
  | .exit => tree.exit
  | .declare name kind place => tree.declare name kind place
  | .assign name place isLocal => tree.assign name place isLocal
  | .publish name span =>
    if (tree.lookup name).isSome then tree else tree.declare name .variable span.first
  | .host name kind => tree.declareHost name kind
  | .visit _ | .seek _ _ | .refuse _ => tree

/-- What steps in a row make of a scope tree. -/
def ScopeTree.run (tree : ScopeTree) (steps : List Step) : ScopeTree :=
  steps.foldl ScopeTree.step tree

/-- What a step makes of a scope index. -/
def ScopeIndex.step (index : ScopeIndex) : Step → ScopeIndex
  | .visit span => index.record span
  | step => index.onTree fun tree => tree.step step

/-- What steps in a row make of a scope index. -/
def ScopeIndex.run (index : ScopeIndex) (steps : List Step) : ScopeIndex :=
  steps.foldl ScopeIndex.step index

@[simp] theorem ScopeTree.run_nil (tree : ScopeTree) : tree.run [] = tree := rfl

@[simp] theorem ScopeTree.run_cons (tree : ScopeTree) (step : Step) (steps : List Step) :
    tree.run (step :: steps) = (tree.step step).run steps := rfl

@[simp] theorem ScopeTree.run_append (tree : ScopeTree) (steps more : List Step) :
    tree.run (steps ++ more) = (tree.run steps).run more :=
  List.foldl_append

theorem ScopeTree.run_names (tree : ScopeTree) (names : List Identifier) :
    tree.run (Walk.names names) = tree.declareParams names := by
  induction names generalizing tree with
  | nil => rfl
  | cons name names ih => exact ih (tree.declare name.name .variable name.span.first)

namespace ScopeIndex

@[simp] theorem run_nil (index : ScopeIndex) : index.run [] = index := rfl

@[simp] theorem run_cons (index : ScopeIndex) (step : Step) (steps : List Step) :
    index.run (step :: steps) = (index.step step).run steps := rfl

@[simp] theorem run_append (index : ScopeIndex) (steps more : List Step) :
    index.run (steps ++ more) = (index.run steps).run more :=
  List.foldl_append

theorem tree_step (index : ScopeIndex) (step : Step) :
    (index.step step).tree = index.tree.step step := by
  cases step <;> rfl

/-- The tree of an index is what the steps make of its tree alone. -/
theorem tree_run (index : ScopeIndex) (steps : List Step) :
    (index.run steps).tree = index.tree.run steps := by
  induction steps generalizing index with
  | nil => rfl
  | cons step steps ih => rw [run_cons, ScopeTree.run_cons, ih, tree_step]

theorem run_names (index : ScopeIndex) (names : List Identifier) :
    index.run (Walk.names names) = names.foldl declareName index := by
  induction names generalizing index with
  | nil => rfl
  | cons name names ih => exact ih (index.declareName name)

theorem run_target (index : ScopeIndex) (target : Expression) (place : Position)
    (isLocal : Bool) :
    index.run (Walk.target target place isLocal) = index.assignTo target place isLocal := by
  unfold Walk.target assignTo
  cases target.name? <;> cases target.path? <;> rfl

theorem run_exportTarget (index : ScopeIndex) (target : Expression) (span : Span) :
    index.run (Walk.exportTarget target span) = index.exportTo target span.first := by
  unfold Walk.exportTarget exportTo
  cases target.name? with
  | none => rfl
  | some name =>
    simp only [run_cons, run_nil, step, ScopeTree.step, onTree]
    split <;> rfl

theorem run_exported (index : ScopeIndex) (declaration : Statement) :
    index.run (Walk.exported declaration) = index := by
  unfold Walk.exported
  split <;> rfl

theorem statement_exportDecl {index : ScopeIndex} {declaration : Statement} {span : Span}
    (hassign : declaration.isAssignment = false) :
    index.statement (.exportDecl declaration span) =
      (index.record span).statement declaration := by
  cases declaration with
  | expression value =>
    cases value with
    | assign => cases hassign
    | _ => rfl
  | _ => rfl

mutual

theorem expression_eq_run (index : ScopeIndex) (depth : Nat) :
    ∀ value, index.expression value = index.run (Walk.expression depth value)
  | .string _ _ | .number _ _ | .name _ _ => rfl
  | .array items _ => expressions_eq_run _ (depth + 1) items
  | .object entries _ => fields_eq_run _ (depth + 1) entries
  | .property owner _ _ => expression_eq_run _ depth owner
  | .assign target _ value isLocal span => by
    simp only [expression, Walk.expression, List.cons_append, List.append_assoc, run_cons,
      run_append, run_target]
    rw [expression_eq_run _ depth target, expression_eq_run _ depth value]
    rfl
  | .binary left _ right _ => by
    simp only [expression, Walk.expression, List.cons_append, run_cons, run_append]
    rw [expression_eq_run _ depth left, expression_eq_run _ depth right]
    rfl
  | .unary _ operand _ => expression_eq_run _ depth operand
  | .lambda params body _ => block_eq_run _ depth .function params body
  | .call callee arguments _ | .construct callee arguments _ => by
    simp only [expression, Walk.expression, List.cons_append, run_cons, run_append]
    rw [expression_eq_run _ depth callee, expressions_eq_run _ depth arguments]
    rfl

theorem expressions_eq_run (index : ScopeIndex) (depth : Nat) :
    ∀ items, index.expressions items = index.run (Walk.expressions depth items)
  | [] => rfl
  | item :: more => by
    simp only [expressions, Walk.expressions, run_append]
    rw [expression_eq_run _ depth item, expressions_eq_run _ depth more]

theorem fields_eq_run (index : ScopeIndex) (depth : Nat) :
    ∀ entries, index.fields entries = index.run (Walk.fields depth entries)
  | [] => rfl
  | .mk _ value :: more => by
    simp only [fields, Walk.fields, run_append]
    rw [expression_eq_run _ depth value, fields_eq_run _ depth more]

theorem block_eq_run (index : ScopeIndex) (depth : Nat) (kind : ScopeKind)
    (params : List Identifier) :
    ∀ body, index.block kind params body = index.run (Walk.block depth kind params body)
  | .mk body span => by
    simp only [block, Walk.block, List.cons_append, run_cons, run_append, run_names]
    rw [statements_eq_run _ (depth + 1) body]
    rfl

theorem statements_eq_run (index : ScopeIndex) (depth : Nat) :
    ∀ body, index.statements body = index.run (Walk.statements depth body)
  | [] => rfl
  | first :: more => by
    simp only [statements, Walk.statements, run_append]
    rw [statement_eq_run _ depth first, statements_eq_run _ depth more]

theorem statement_eq_run (index : ScopeIndex) (depth : Nat) :
    ∀ value, index.statement value = index.run (Walk.statement depth value)
  | .expression value _ => expression_eq_run _ depth value
  | .block inner => block_eq_run _ depth .block [] inner
  | .condition test thenBranch none _ => by
    simp only [statement, Walk.statement, List.cons_append, List.append_nil, run_cons, run_append]
    rw [expression_eq_run _ depth test, block_eq_run _ depth .block [] thenBranch]
    rfl
  | .condition test thenBranch (some branch) _ => by
    have hsame := fun index => statement_eq_run index depth branch
    have hdeeper := fun index => statement_eq_run index (depth + 1) branch
    rw [statement, expression_eq_run _ depth test, block_eq_run _ depth .block [] thenBranch]
    -- Only a block stays on the level of the condition.
    cases branch with
    | block inner =>
      simp only [hsame, Walk.statement, List.cons_append, List.append_assoc, run_cons, run_append]
      rfl
    | _ =>
      simp only [hdeeper, Walk.statement, List.cons_append, List.append_assoc, run_cons, run_append]
      rfl
  | .forLoop item iterable body span => by
    simp only [statement, Walk.statement, List.cons_append, run_cons, run_append]
    rw [expression_eq_run _ depth iterable, block_eq_run _ depth .block [] body]
    rfl
  | .whileLoop test body _ => by
    simp only [statement, Walk.statement, List.cons_append, run_cons, run_append]
    rw [expression_eq_run _ depth test, block_eq_run _ depth .block [] body]
    rfl
  | .returnValue none _ | .breakLoop _ | .continueLoop _ | .hostDecl _ _ _ => rfl
  | .returnValue (some value) _ => expression_eq_run _ depth value
  | .functionDecl _ params body _ => block_eq_run _ depth .function params body
  | .classDecl _ parts _ => by
    simp only [statement, Walk.statement, List.cons_append, run_cons, run_append]
    rw [members_eq_run _ (depth + 1) parts]
    rfl
  | .importDecl _ names _ _ => (run_names _ names).symm
  | .exportDecl declaration _ => by
    have hinner := fun index => statement_eq_run index depth declaration
    cases hassign : declaration.isAssignment with
    | false =>
      rw [statement_exportDecl hassign, Walk.statement_exportDecl hassign]
      simp only [List.cons_append, run_cons, run_append, run_exported, hinner]
      rfl
    | true =>
      cases declaration with
      | expression value =>
        cases value with
        | assign target op value =>
          simp only [statement, Walk.statement, List.cons_append, List.append_assoc, run_cons,
            run_append, run_exportTarget]
          rw [expression_eq_run _ depth target, expression_eq_run _ depth value]
          rfl
        | _ => cases hassign
      | _ => cases hassign
  | .guarded inner test _ => by
    simp only [statement, Walk.statement, List.cons_append, run_cons, run_append]
    rw [expression_eq_run _ depth test, statement_eq_run _ (depth + 1) inner]
    rfl

theorem members_eq_run (index : ScopeIndex) (depth : Nat) :
    ∀ parts, index.members parts = index.run (Walk.members depth parts)
  | [] => rfl
  | first :: more => by
    simp only [members, Walk.members, run_append]
    rw [member_eq_run _ depth first, members_eq_run _ depth more]

theorem member_eq_run (index : ScopeIndex) (depth : Nat) :
    ∀ part, index.member part = index.run (Walk.member depth part)
  | .field _ value _ => expression_eq_run _ depth value
  | .method _ params body _ => block_eq_run _ depth .function params body

end

theorem ofProgram_eq_run (program : Program) :
    ofProgram program = empty.run (Walk.program program) :=
  statements_eq_run _ 0 program.body

/-- The finished scope tree of a program is what its walk makes of the tree of nothing. -/
theorem tree_ofProgram (program : Program) :
    (ofProgram program).tree = ScopeTree.start.run (Walk.program program) := by
  rw [ofProgram_eq_run, tree_run]
  rfl

end ScopeIndex

end KaLang
