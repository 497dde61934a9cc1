import KaLang.Proofs.Scope.Encounters
import KaLang.Proofs.Script.Pass
import KaLang.Proofs.Syntax.Formed

/-!
When a pass fails. It ends at the first step of the walk that has a fault
(`Program.emit_error_iff`), and the steps have the faults of the nodes that are visited (`Meets`):
so a pass fails exactly at the first node that offends, with that node's fault
(`Program.emit_fails_iff`).
-/

namespace KaLang

/-! ### Faults of steps -/

/-- The fault in which a pass ends at a step, if it does. -/
def Step.fault? (env : Environment) (tree : ScopeTree) : Step → Option CompileError
  | .publish name span =>
    if (tree.lookup name).isSome then some (.emitting .exportAfterUse span) else none
  | .seek _ span => if env.files.isNone then some (.emitting .importWithoutFiles span) else none
  | .refuse error => some error
  | _ => none

/-- The fault of the first step that has one. -/
def Walk.fault? (env : Environment) (tree : ScopeTree) : List Step → Option CompileError
  | [] => none
  | step :: steps => (step.fault? env tree).or (fault? env (tree.step step) steps)

theorem Walk.fault?_append {env : Environment} (tree : ScopeTree) (steps more : List Step) :
    fault? env tree (steps ++ more) =
      (fault? env tree steps).or (fault? env (tree.run steps) more) := by
  induction steps generalizing tree with
  | nil => rfl
  | cons step steps ih =>
    rw [List.cons_append, fault?, fault?, ih, Option.or_assoc]
    rfl

/-- Names are declared without a fault. -/
theorem Walk.fault?_names {env : Environment} (tree : ScopeTree) (names : List Identifier) :
    fault? env tree (Walk.names names) = none := by
  induction names generalizing tree with
  | nil => rfl
  | cons name names ih => exact ih _

namespace Emitter

variable {env : Environment} {α : Type}

/-- The fault in which a pass ends, if it does. -/
def fault? (emitter : Emitter α) (before : Session) : Option CompileError :=
  match emitter.run before with
  | .ok _ _ => none
  | .error error _ => some error

/-- A step ends the pass in its fault. -/
theorem fault?_perform (step : Step) (before : Session) :
    fault? (perform env step) before = step.fault? env before.tree := by
  cases step with
  | publish name span =>
    have hrun : (perform env (.publish name span)).run before =
        EStateM.run (if (before.tree.lookup name).isSome then
          throw (.emitting .exportAfterUse span)
        else onTree fun tree => tree.declare name .variable span.first) before := rfl
    rw [fault?, hrun, Step.fault?]
    by_cases hbound : (before.tree.lookup name).isSome = true
    · rw [if_pos hbound, if_pos hbound]
      rfl
    · rw [if_neg hbound, if_neg hbound]
      rfl
  | seek source span =>
    simp only [fault?, Step.fault?, perform, effect, moduleSpecifier]
    cases env.files <;> rfl
  | _ => rfl

/-- Steps in a row end the pass in the fault of the first of them that has one. -/
theorem fault?_forM (steps : List Step) (before : Session) :
    fault? (steps.forM (perform env)) before = Walk.fault? env before.tree steps := by
  induction steps generalizing before with
  | nil => rfl
  | cons step steps ih =>
    have hrun : ((step :: steps).forM (perform env)).run before =
        EStateM.run (perform env step >>= fun _ => steps.forM (perform env)) before := rfl
    have hstep : fault? (perform env step) before = _ := fault?_perform step before
    rw [fault?] at hstep
    rw [fault?, hrun, Walk.fault?, ← hstep]
    simp only [EStateM.run_bind]
    cases hperform : (perform env step).run before with
    | ok value middle =>
      rw [← tree_of_run_perform hperform]
      exact ih middle
    | error error middle => rfl

/-- So does what takes exactly these steps. -/
theorem Performs.fault?_eq {emitter : Emitter α} {steps : List Step}
    (hperforms : Performs env emitter steps) (before : Session) :
    fault? emitter before = Walk.fault? env before.tree steps := by
  rw [← fault?_forM, ← hperforms]
  simp only [fault?, effect, EStateM.run_bind]
  cases emitter.run before <;> rfl

end Emitter

/-- A pass fails in the fault of the first step of the walk that has one. -/
theorem Program.emit_error_iff_fault? {program : Program} {env : Environment}
    {error : CompileError} : (program.emit env).result = .error error ↔
      Walk.fault? env .start (Walk.program program) = some error := by
  have hfault := (Emitter.performs_program env program).fault?_eq ⟨.start, []⟩
  rw [← hfault, Emitter.fault?, emit]
  cases (Emitter.program env program).run ⟨.start, []⟩ <;> simp

/-! ### Faults of nodes -/

/-- The fault of exporting a statement to scopes: only a function, a class and an assignment to a
    name that is not bound yet have none. -/
def Statement.exportFault? (tree : ScopeTree) : Statement → Option CompileError
  | functionDecl _ _ _ _ | classDecl _ _ _ => none
  | expression (.assign target _ _ _ place) _ =>
    match target.name? with
    | none => some (.emitting .unexportable target.span)
    | some name =>
      if (tree.lookup name).isSome then some (.emitting .exportAfterUse place) else none
  | other => some (.emitting .unexportable other.span)

/-- The fault that a node has itself where it is reached, if it has one. -/
def Encounter.fault? (env : Environment) (met : Encounter) : Option CompileError :=
  match met.node with
  | .expression (.assign target _ _ _ _) =>
    if target.path?.isSome then none else some (.emitting .invalidTarget target.span)
  | .statement (.importDecl _ _ _ span) =>
    if env.files.isNone then some (.emitting .importWithoutFiles span) else none
  | .statement (.exportDecl declaration _) => declaration.exportFault? met.index.tree
  | _ => none

/-- Whether the nodes met on some steps are the given ones and those below them, and the first of
    them that has a fault has the fault of the steps. -/
structure Meets (env : Environment) (index : ScopeIndex) (roots : List Node) (steps : List Step)
    (met : List Encounter) : Prop where
  fault : Walk.fault? env index.tree steps = met.findSome? (Encounter.fault? env)
  cover : Encounters.Cover index roots steps met

namespace Meets

variable {env : Environment} {index later : ScopeIndex} {roots others : List Node} {node : Node}
  {own steps more : List Step} {met next : List Encounter}

theorem nil : Meets env index [] [] [] := ⟨rfl, .nil index []⟩

theorem append (hmet : Meets env index roots steps met) (hindex : later = index.run steps)
    (hnext : Meets env later others more next) :
    Meets env index (roots ++ others) (steps ++ more) (met ++ next) where
  fault := by
    rw [Walk.fault?_append, List.findSome?_append, hmet.fault, ← hnext.fault, hindex,
      ScopeIndex.tree_run]
  cover := hmet.cover.append hindex hnext.cover

theorem perm (hmet : Meets env index roots steps met) (hroots : roots.Perm others) :
    Meets env index others steps met :=
  ⟨hmet.fault, hmet.cover.perm hroots⟩

/-- A step without a fault and without a node. -/
theorem behind (step : Step) (hstep : Walk.fault? env index.tree [step] = none)
    (hmet : Meets env (index.step step) roots steps met) :
    Meets env index roots (step :: steps) met where
  fault := by
    have htree := ScopeIndex.tree_run index [step]
    rw [← List.singleton_append, Walk.fault?_append, hstep, Option.none_or, ← htree]
    exact hmet.fault
  cover := hmet.cover.behind step

/-- Leaving a scope has no fault. -/
theorem exit (hmet : Meets env index roots steps met) :
    Meets env index roots (steps ++ [.exit]) met := by
  simpa using hmet.append rfl (.behind .exit rfl nil)

/-- A node with steps of its own, in front of the nodes below it. -/
theorem amid (own : List Step)
    (hown : Walk.fault? env index.tree own = Encounter.fault? env ⟨index, node⟩)
    (hindex : later = index.run own) (hmet : Meets env later (others ++ node.children) steps met) :
    Meets env index (others ++ [node]) (own ++ steps) (⟨index, node⟩ :: met) where
  fault := by
    rw [Walk.fault?_append, hown, ← ScopeIndex.tree_run, ← hindex, hmet.fault,
      List.findSome?_cons]
    cases Encounter.fault? env ⟨index, node⟩ <;> rfl
  cover := hmet.cover.amid own hindex

theorem visited (own : List Step)
    (hown : Walk.fault? env index.tree own = Encounter.fault? env ⟨index, node⟩)
    (hindex : later = index.run own) (hmet : Meets env later node.children steps met) :
    Meets env index [node] (own ++ steps) (⟨index, node⟩ :: met) :=
  @amid env index later [] node steps met own hown hindex hmet

/-- A node that has no nodes below it. -/
theorem leaf (own : List Step)
    (hown : Walk.fault? env index.tree own = Encounter.fault? env ⟨index, node⟩)
    (hchildren : node.children = []) : Meets env index [node] own [⟨index, node⟩] := by
  have hnode := visited own hown rfl (hchildren ▸ nil)
  rwa [List.append_nil] at hnode

/-- A node of which the own steps end the pass. -/
theorem refused {error : CompileError} (hown : Walk.fault? env index.tree own = some error)
    (hnode : Encounter.fault? env ⟨index, node⟩ = some error) (hindex : later = index.run own)
    (hcover : Encounters.Cover later node.children steps met) :
    Meets env index [node] (own ++ steps) (⟨index, node⟩ :: met) where
  fault := by
    rw [Walk.fault?_append, hown, Option.some_or, List.findSome?_cons, hnode]
  cover := hcover.visited own hindex

end Meets

/-! ### The walk -/

variable {env : Environment}

namespace Meets

variable {index : ScopeIndex} {depth : Nat}

theorem parameters (index : ScopeIndex) (params : List Identifier) :
    Meets env index (params.map .parameter) (Walk.names params)
      (Encounters.parameters index params) := by
  induction params generalizing index with
  | nil => exact nil
  | cons param params ih =>
    have hparam : Meets env index [.parameter param] _ _ :=
      leaf [.visit param.span, .declare param.name .variable param.span.first] rfl rfl
    exact hparam.append rfl (ih _)

/-- A block, with its parameters between it and its statements. -/
theorem block {kind : ScopeKind} {params : List Identifier} {body : List Statement} {span : Span}
    (hbody : Meets env (index.enterBlock kind params span) (body.map .statement)
      (Walk.statements (depth + 1) body)
      (Encounters.statements (index.enterBlock kind params span) body)) :
    Meets env index (params.map .parameter ++ [.block (.mk body span)])
      (Walk.block depth kind params (.mk body span))
      (Encounters.block index kind params (.mk body span)) := by
  let opened := index.onTree fun tree => tree.enter kind
  have hparams : Meets env (opened.record span) (params.map .parameter) _ _ := parameters _ params
  have hinside := hparams.append (ScopeIndex.run_names _ params).symm hbody
  have hblock : Meets env opened (params.map .parameter ++ [.block (.mk body span)]) _ _ :=
    amid [.visit span] rfl rfl hinside
  exact (hblock.behind (.enter ⟨kind, depth, params, body⟩) rfl).exit

/-- An assignment has the fault of its target. -/
theorem assign {target value : Expression} {op : AssignmentOperator} {isLocal : Bool} {span : Span}
    (htarget : ∀ index, Meets env index [.expression target] (Walk.expression depth target)
      (Encounters.expression index target))
    (hvalue : ∀ index, Meets env index [.expression value] (Walk.expression depth value)
      (Encounters.expression index value)) :
    Meets env index [.expression (.assign target op value isLocal span)]
      (Walk.expression depth (.assign target op value isLocal span))
      (Encounters.expression index (.assign target op value isLocal span)) := by
  have hparts := (htarget ((index.record span).assignTo target span.first isLocal)).append
    (ScopeIndex.expression_eq_run _ depth target) (hvalue _)
  have hown : Walk.fault? env index.tree (.visit span :: Walk.target target span.first isLocal) =
      Encounter.fault? env ⟨index, .expression (.assign target op value isLocal span)⟩ := by
    cases hname : target.name? <;> cases hpath : target.path? <;>
      simp [Walk.fault?, Step.fault?, Walk.target, Encounter.fault?, hname, hpath]
  have hindex : (index.record span).assignTo target span.first isLocal =
      index.run (.visit span :: Walk.target target span.first isLocal) := by
    rw [ScopeIndex.run_cons, ScopeIndex.run_target]
    rfl
  simp only [Walk.expression, Encounters.expression, List.append_assoc, List.cons_append]
  exact visited _ hown hindex hparts

/-- An exported assignment has the fault of its name, and if it has none, its target has none
    either. -/
theorem exportAssign {target value : Expression} {op : AssignmentOperator} {isLocal : Bool}
    {place inner span : Span}
    (htarget : ∀ index, Meets env index [.expression target] (Walk.expression depth target)
      (Encounters.expression index target))
    (hvalue : ∀ index, Meets env index [.expression value] (Walk.expression depth value)
      (Encounters.expression index value)) :
    Meets env index
      [.statement (.exportDecl (.expression (.assign target op value isLocal place) inner) span)]
      (Walk.statement depth
        (.exportDecl (.expression (.assign target op value isLocal place) inner) span))
      (Encounters.statement index
        (.exportDecl (.expression (.assign target op value isLocal place) inner) span)) := by
  let declared := (index.record span).exportTo target place.first
  have hdeclared : declared = index.run (.visit span :: Walk.exportTarget target place) := by
    rw [ScopeIndex.run_cons, ScopeIndex.run_exportTarget]
    rfl
  have hparts := (htarget (declared.record place)).append
    (ScopeIndex.expression_eq_run _ depth target) (hvalue _)
  simp only [Walk.statement, Encounters.statement, List.append_assoc, List.cons_append]
  cases hname : target.name? with
  | none =>
    have hassign : Encounters.Cover declared
        [.expression (.assign target op value isLocal place)] _ _ :=
      hparts.cover.visited [.visit place] rfl
    have hinner : Encounters.Cover declared
        [.statement (.expression (.assign target op value isLocal place) inner)] _ _ :=
      hassign.visited [] rfl
    have hown : Walk.fault? env index.tree (.visit span :: Walk.exportTarget target place) =
        some (.emitting .unexportable target.span) := by
      simp [Walk.fault?, Step.fault?, Walk.exportTarget, hname]
    exact refused hown (by simp [Encounter.fault?, Statement.exportFault?, hname]) hdeclared hinner
  | some name =>
    have hpath := target.path?_of_name? hname
    have hassign : Meets env declared [.expression (.assign target op value isLocal place)] _ _ :=
      visited [.visit place] (by simp [Walk.fault?, Step.fault?, Encounter.fault?, hpath]) rfl
        hparts
    have hinner : Meets env declared
        [.statement (.expression (.assign target op value isLocal place) inner)] _ _ :=
      visited [] rfl rfl hassign
    refine visited (.visit span :: Walk.exportTarget target place) ?_ hdeclared hinner
    simp [Walk.fault?, Step.fault?, ScopeTree.step, Walk.exportTarget, Encounter.fault?,
      Statement.exportFault?, hname]

/-- Anything else that is exported has the fault of not being a declaration. -/
theorem exportDecl {declaration : Statement} {span : Span}
    (hassign : declaration.isAssignment = false)
    (hinner : ∀ index, Meets env index [.statement declaration] (Walk.statement depth declaration)
      (Encounters.statement index declaration)) :
    Meets env index [.statement (.exportDecl declaration span)]
      (Walk.statement depth (.exportDecl declaration span))
      (Encounters.statement index (.exportDecl declaration span)) := by
  have hown : Walk.fault? env index.tree (.visit span :: Walk.exported declaration) =
      Encounter.fault? env ⟨index, .statement (.exportDecl declaration span)⟩ := by
    cases declaration with
    | expression value =>
      cases value with
      | assign => cases hassign
      | _ => rfl
    | _ => rfl
  rw [Walk.statement_exportDecl hassign, Encounters.statement_exportDecl hassign,
    List.cons_append]
  refine visited (.visit span :: Walk.exported declaration) hown ?_ (hinner (index.record span))
  rw [ScopeIndex.run_cons, ScopeIndex.run_exported]
  rfl

end Meets

mutual

theorem meets_expression (index : ScopeIndex) (depth : Nat) : ∀ value,
    Meets env index [.expression value] (Walk.expression depth value)
      (Encounters.expression index value)
  | .string _ span | .number _ span | .name _ span => .leaf [.visit span] rfl rfl
  | .array items span => .visited [.visit span] rfl rfl (meets_expressions _ (depth + 1) items)
  | .object entries span => .visited [.visit span] rfl rfl (meets_fields _ (depth + 1) entries)
  | .property owner _ span => .visited [.visit span] rfl rfl (meets_expression _ depth owner)
  | .assign target _ value _ _ =>
    .assign (fun index => meets_expression index depth target)
      fun index => meets_expression index depth value
  | .binary left _ right span =>
    .visited [.visit span] rfl rfl ((meets_expression _ depth left).append
      (ScopeIndex.expression_eq_run _ depth left) (meets_expression _ depth right))
  | .unary _ operand span => .visited [.visit span] rfl rfl (meets_expression _ depth operand)
  | .lambda params body span =>
    .visited [.visit span] rfl rfl (meets_block _ depth .function params body)
  | .call callee arguments span | .construct callee arguments span =>
    .visited [.visit span] rfl rfl ((meets_expression _ depth callee).append
      (ScopeIndex.expression_eq_run _ depth callee) (meets_expressions _ depth arguments))

theorem meets_expressions (index : ScopeIndex) (depth : Nat) : ∀ items,
    Meets env index (items.map .expression) (Walk.expressions depth items)
      (Encounters.expressions index items)
  | [] => .nil
  | item :: more =>
    (meets_expression index depth item).append (ScopeIndex.expression_eq_run _ depth item)
      (meets_expressions _ depth more)

theorem meets_fields (index : ScopeIndex) (depth : Nat) : ∀ entries,
    Meets env index ((entries.map Field.value).map .expression) (Walk.fields depth entries)
      (Encounters.fields index entries)
  | [] => .nil
  | .mk _ value :: more =>
    (meets_expression index depth value).append (ScopeIndex.expression_eq_run _ depth value)
      (meets_fields _ depth more)

theorem meets_block (index : ScopeIndex) (depth : Nat) (kind : ScopeKind)
    (params : List Identifier) : ∀ body,
    Meets env index (params.map .parameter ++ [.block body]) (Walk.block depth kind params body)
      (Encounters.block index kind params body)
  | .mk body _ => .block (meets_statements _ (depth + 1) body)

theorem meets_statements (index : ScopeIndex) (depth : Nat) : ∀ body,
    Meets env index (body.map .statement) (Walk.statements depth body)
      (Encounters.statements index body)
  | [] => .nil
  | first :: more =>
    (meets_statement index depth first).append (ScopeIndex.statement_eq_run _ depth first)
      (meets_statements _ depth more)

theorem meets_statement (index : ScopeIndex) (depth : Nat) : ∀ value,
    Meets env index [.statement value] (Walk.statement depth value)
      (Encounters.statement index value)
  | .expression value span => .visited [.visit span] rfl rfl (meets_expression _ depth value)
  | .block inner => .visited [.visit inner.span] rfl rfl (meets_block _ depth .block [] inner)
  | .condition test thenBranch none span => by
    have hparts := (meets_expression (index.record span) depth test).append
      (ScopeIndex.expression_eq_run _ depth test) (meets_block _ depth .block [] thenBranch)
    simp only [Walk.statement, Encounters.statement, List.append_nil, List.cons_append]
    exact .visited [.visit span] rfl rfl hparts
  | .condition test thenBranch (some branch) span => by
    have hsame := fun index => meets_statement index depth branch
    have hdeeper := fun index => meets_statement index (depth + 1) branch
    have hparts := (meets_expression (index.record span) depth test).append
      (ScopeIndex.expression_eq_run _ depth test) (meets_block _ depth .block [] thenBranch)
    have hlater : ((index.record span).expression test).block .block [] thenBranch =
        (index.record span).run
          (Walk.expression depth test ++ Walk.block depth .block [] thenBranch) := by
      rw [ScopeIndex.run_append, ← ScopeIndex.expression_eq_run, ← ScopeIndex.block_eq_run]
    -- Only a block stays on the level of the condition.
    cases branch with
    | block inner => exact .visited [.visit span] rfl rfl (hparts.append hlater (hsame _))
    | _ => exact .visited [.visit span] rfl rfl (hparts.append hlater (hdeeper _))
  | .forLoop item iterable body span =>
    .visited [.visit span, .assign item.name span.first false] rfl rfl
      ((meets_expression _ depth iterable).append (ScopeIndex.expression_eq_run _ depth iterable)
        (meets_block _ depth .block [] body))
  | .whileLoop test body span =>
    .visited [.visit span] rfl rfl ((meets_expression _ depth test).append
      (ScopeIndex.expression_eq_run _ depth test) (meets_block _ depth .block [] body))
  | .returnValue none span | .breakLoop span | .continueLoop span => .leaf [.visit span] rfl rfl
  | .returnValue (some value) span =>
    .visited [.visit span] rfl rfl (meets_expression _ depth value)
  | .functionDecl name params body span =>
    .visited [.visit span, .declare name.name .function span.first] rfl rfl
      (meets_block _ depth .function params body)
  | .classDecl name parts span =>
    .visited [.visit span, .declare name.name .classType span.first,
      .enter ⟨.classBody, depth, [], []⟩] rfl rfl (meets_members _ (depth + 1) parts).exit
  | .hostDecl name kind span => .leaf [.visit span, .host name.name kind] rfl rfl
  | .importDecl source names kind span => by
    refine .leaf (.visit span :: .seek source span :: Walk.names names) ?_ rfl
    simp [Walk.fault?, Step.fault?, Walk.fault?_names, Encounter.fault?]
  | .exportDecl declaration span => by
    have hinner := fun index => meets_statement index depth declaration
    cases hassign : declaration.isAssignment with
    | false => exact .exportDecl hassign hinner
    | true =>
      cases declaration with
      | expression value =>
        cases value with
        | assign target op value =>
          exact .exportAssign (fun index => meets_expression index depth target)
            fun index => meets_expression index depth value
        | _ => cases hassign
      | _ => cases hassign
  | .guarded inner test span => by
    let tested := (index.record span).expression test
    have hinner : Meets env tested [.statement inner] _ _ :=
      (Meets.behind (.enter ⟨.block, depth, [], [inner]⟩) rfl
        (meets_statement _ (depth + 1) inner)).exit
    have hparts := (meets_expression (index.record span) depth test).append
      (ScopeIndex.expression_eq_run _ depth test) hinner
    -- The test is visited in front of the statement that it guards.
    exact .visited [.visit span] rfl rfl (hparts.perm (List.Perm.swap _ _ _))

theorem meets_members (index : ScopeIndex) (depth : Nat) : ∀ parts,
    Meets env index (parts.map .member) (Walk.members depth parts)
      (Encounters.members index parts)
  | [] => .nil
  | first :: more =>
    (meets_member index depth first).append (ScopeIndex.member_eq_run _ depth first)
      (meets_members _ depth more)

theorem meets_member (index : ScopeIndex) (depth : Nat) : ∀ part,
    Meets env index [.member part] (Walk.member depth part) (Encounters.member index part)
  | .field _ value span => .visited [.visit span] rfl rfl (meets_expression _ depth value)
  | .method _ params body span =>
    .visited [.visit span] rfl rfl (meets_block _ depth .function params body)

end

/-! ### Passes that fail -/

/-- How a node offends where it is reached, and the fault of that: an import while no module can be
    looked for, the export of what is neither a function nor a class nor an assignment, of an
    assignment to more than a name, or of one to a name that is bound already. -/
inductive Node.Offends (env : Environment) (index : ScopeIndex) : Node → CompileError → Prop where
  | importDecl {source names : List Identifier} {kind : ImportKind} {span : Span}
      (hfiles : env.files = none) :
      Offends env index (.statement (.importDecl source names kind span))
        (.emitting .importWithoutFiles span)
  | declaration {declaration : Statement} {span : Span}
      (hdeclaration : Emitter.isDeclaration declaration = false)
      (hassign : declaration.isAssignment = false) :
      Offends env index (.statement (.exportDecl declaration span))
        (.emitting .unexportable declaration.span)
  | target {target value : Expression} {op : AssignmentOperator} {isLocal : Bool}
      {place inner span : Span} (htarget : ∀ name nameSpan, target ≠ .name name nameSpan) :
      Offends env index
        (.statement (.exportDecl (.expression (.assign target op value isLocal place) inner) span))
        (.emitting .unexportable target.span)
  | bound {name : String} {nameSpan place inner span : Span} {op : AssignmentOperator}
      {value : Expression} {isLocal : Bool} (hbound : (index.tree.lookup name).isSome = true) :
      Offends env index
        (.statement (.exportDecl
          (.expression (.assign (.name name nameSpan) op value isLocal place) inner) span))
        (.emitting .exportAfterUse place)

/-- What offends has the fault with which it offends. -/
theorem Node.Offends.fault?_eq {index : ScopeIndex} {node : Node} {error : CompileError}
    (hoffends : node.Offends env index error) :
    Encounter.fault? env ⟨index, node⟩ = some error := by
  cases hoffends with
  | importDecl hfiles => simp [Encounter.fault?, hfiles]
  | @declaration declaration span hdeclaration hassign =>
    cases declaration with
    | functionDecl | classDecl => cases hdeclaration
    | expression value =>
      cases value with
      | assign => cases hassign
      | _ => rfl
    | _ => rfl
  | @target target _ _ _ _ _ _ htarget =>
    cases target with
    | name name nameSpan => exact absurd rfl (htarget name nameSpan)
    | _ => rfl
  | bound hbound => simp [Encounter.fault?, Statement.exportFault?, Expression.name?, hbound]

/-- Nothing else has a fault, unless it assigns to what is no path. -/
theorem Node.offends_iff {index : ScopeIndex} {node : Node} {error : CompileError}
    (htarget : ∀ {target op value isLocal span},
      node = .expression (.assign target op value isLocal span) → target.path?.isSome = true) :
    node.Offends env index error ↔ Encounter.fault? env ⟨index, node⟩ = some error := by
  refine ⟨Offends.fault?_eq, fun hfault => ?_⟩
  cases node with
  | expression value =>
    cases value with
    | assign => simp [Encounter.fault?, htarget rfl] at hfault
    | _ => cases hfault
  | statement value =>
    cases value with
    | importDecl source names kind span =>
      simp only [Encounter.fault?, Option.isNone_iff_eq_none, Option.ite_none_right_eq_some,
        Option.some.injEq] at hfault
      obtain ⟨hfiles, rfl⟩ := hfault
      exact .importDecl hfiles
    | exportDecl declaration span =>
      cases declaration with
      | functionDecl | classDecl => cases hfault
      | expression value =>
        cases value with
        | assign target =>
          cases target with
          | name name nameSpan =>
            simp only [Encounter.fault?, Statement.exportFault?, Expression.name?,
              Option.ite_none_right_eq_some, Option.some.injEq] at hfault
            obtain ⟨hbound, rfl⟩ := hfault
            exact .bound hbound
          | _ =>
            cases hfault
            exact .target nofun
        | _ =>
          cases hfault
          exact .declaration rfl rfl
      | _ =>
        cases hfault
        exact .declaration rfl rfl
    | _ => cases hfault
  | _ => cases hfault

namespace Program

variable {program : Program} {error : CompileError}

theorem meets_program (env : Environment) (program : Program) :
    Meets env (ScopeIndex.empty.record program.span) (program.body.map .statement)
      (Walk.statements 0 program.body) program.encounters :=
  meets_statements _ 0 program.body

/-- A pass fails in the fault of the first node that has one. -/
theorem emit_error_iff : (program.emit env).result = .error error ↔
    program.encounters.findSome? (Encounter.fault? env) = some error := by
  rw [emit_error_iff_fault?, ← (meets_program env program).fault]
  rfl

/-- The nodes that are visited are those of the program. -/
theorem exists_encounter_iff {node : Node} :
    (∃ index, ⟨index, node⟩ ∈ program.encounters) ↔ program.Holds node := by
  rw [(meets_program {} program).cover.mem_iff node, holds_iff]

/-- They are met along the walk that makes the scope index. -/
theorem encounters_follow (program : Program) :
    Encounters.Follow .empty (Walk.program program) program.encounters :=
  .step (.visit program.span) (meets_program {} program).cover.follow

/-- In a program that is read off a text, the first fault is that of the first node that offends. -/
theorem emit_error_iff_offends {source : String} (hread : ofSource source = .ok program) :
    (program.emit env).result = .error error ↔
      ∃ ahead index node behind, program.encounters = ahead ++ ⟨index, node⟩ :: behind ∧
        node.Offends env index error ∧
        ∀ met ∈ ahead, ∀ other, ¬ met.node.Offends env met.index other := by
  have hoffends {met : Encounter} (hmet : met ∈ program.encounters) (other : CompileError) :
      met.node.Offends env met.index other ↔ met.fault? env = some other := by
    have hholds := exists_encounter_iff.mp ⟨met.index, hmet⟩
    have hshaped := ((formed_of_ofSource hread).2 _ hholds).self.shaped
    exact Node.offends_iff fun hnode => (hshaped.target hnode).2
  rw [emit_error_iff, List.findSome?_eq_some_iff]
  constructor
  · rintro ⟨ahead, met, behind, hmet, hfault, hahead⟩
    refine ⟨ahead, met.index, met.node, behind, hmet, ?_, fun earlier hearlier other => ?_⟩
    · exact (hoffends (by simp [hmet]) error).mpr hfault
    · rw [hoffends (by simp [hmet, hearlier]) other, hahead earlier hearlier]
      exact (Option.some_ne_none other).symm
  · rintro ⟨ahead, index, node, behind, hmet, hnode, hahead⟩
    refine ⟨ahead, ⟨index, node⟩, behind, hmet, hnode.fault?_eq, fun earlier hearlier => ?_⟩
    refine Option.eq_none_iff_forall_ne_some.mpr fun other hother => ?_
    refine hahead earlier hearlier other ?_
    exact (hoffends (by simp [hmet, hearlier]) other).mpr hother

/-- A pass over a program that is read off a text fails exactly if some node offends where it is
    reached. It fails at the first such node and in its fault, so never for want of a valid target.
    The nodes that are reached are all nodes of the program, along the walk of the scope index. -/
theorem emit_fails_iff {source : String} (hread : ofSource source = .ok program)
    (env : Environment) :
    (∀ error, (program.emit env).result = .error error ↔
      ∃ ahead index node behind, program.encounters = ahead ++ ⟨index, node⟩ :: behind ∧
        node.Offends env index error ∧
        ∀ met ∈ ahead, ∀ other, ¬ met.node.Offends env met.index other) ∧
    ((∃ error, (program.emit env).result = .error error) ↔
      ∃ index node error, ⟨index, node⟩ ∈ program.encounters ∧ node.Offends env index error) ∧
    (∀ node, (∃ index, ⟨index, node⟩ ∈ program.encounters) ↔ program.Holds node) ∧
    Encounters.Follow .empty (Walk.program program) program.encounters ∧
    ∀ span, (program.emit env).result ≠ .error (.emitting .invalidTarget span) := by
  refine ⟨fun error => emit_error_iff_offends hread, ?_, fun node => exists_encounter_iff,
    encounters_follow program, fun span hfails => ?_⟩
  · constructor
    · rintro ⟨error, hfails⟩
      obtain ⟨ahead, index, node, behind, hmet, hoffends, _⟩ :=
        (emit_error_iff_offends hread).mp hfails
      exact ⟨index, node, error, by simp [hmet], hoffends⟩
    · rintro ⟨index, node, error, hmet, hoffends⟩
      have hsome : (program.encounters.findSome? (Encounter.fault? env)).isSome = true :=
        List.findSome?_isSome_iff.mpr ⟨_, hmet, by simp [hoffends.fault?_eq]⟩
      obtain ⟨first, hfirst⟩ := Option.isSome_iff_exists.mp hsome
      exact ⟨first, emit_error_iff.mpr hfirst⟩
  · obtain ⟨_, _, _, _, _, hoffends, _⟩ := (emit_error_iff_offends hread).mp hfails
    cases hoffends

/-- A name that is assigned to in front of its export. -/
theorem emit_fails_bound : ∃ program, ofSource "x = 1 export x = 2" = .ok program ∧
    (program.emit {}).result =
      .error (.emitting .exportAfterUse ⟨⟨13, 0, 13⟩, ⟨17, 0, 17⟩⟩) ∧
    ∃ ahead index node behind, program.encounters = ahead ++ ⟨index, node⟩ :: behind ∧
      node.Offends {} index (.emitting .exportAfterUse ⟨⟨13, 0, 13⟩, ⟨17, 0, 17⟩⟩) ∧
      ∀ met ∈ ahead, ∀ other, ¬ met.node.Offends {} met.index other := by
  have hread : ∃ program, ofSource "x = 1 export x = 2" = .ok program ∧
      (program.emit {}).result =
        .error (.emitting .exportAfterUse ⟨⟨13, 0, 13⟩, ⟨17, 0, 17⟩⟩) := ⟨_, by cbv, rfl⟩
  obtain ⟨program, hread, hfails⟩ := hread
  exact ⟨program, hread, hfails, ((emit_fails_iff hread {}).1 _).mp hfails⟩

end Program

end KaLang
