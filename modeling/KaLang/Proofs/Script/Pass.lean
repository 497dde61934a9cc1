import KaLang.Proofs.Scope.Binding

/-!
The pass that writes a script takes the steps of the walk, in order and with nothing between them:
as far as scopes, files and faults are concerned, `Emitter.program` is the list
`Walk.program program`. So the scope tree of a pass that ends well is the one of the scope index.
-/

namespace KaLang

theorem Expression.path?_of_name? (target : Expression) {name : String}
    (hname : target.name? = some name) : target.path? = some name := by
  cases target <;> simp_all [Expression.name?, Expression.path?]

namespace Emitter

/-- An emitter without the text it builds. -/
def effect {α : Type} (emitter : Emitter α) : Emitter Unit := do
  let _ ← emitter
  return ()

/-- A step as a pass takes it: it changes the scopes, asks for a file, or ends the pass. -/
def perform (env : Environment) : Step → Emitter Unit
  | .visit _ => return ()
  | .enter opening => onTree fun tree => tree.enter opening.kind
  | .exit => onTree ScopeTree.exit
  | .declare name kind place => onTree fun tree => tree.declare name kind place
  | .assign name place isLocal => onTree fun tree => tree.assign name place isLocal
  | .publish name span => do
    if ((← tree).lookup name).isSome then throw (.emitting .exportAfterUse span)
    else onTree fun tree => tree.declare name .variable span.first
  | .host name kind => onTree fun tree => tree.declareHost name kind
  | .seek source span => effect (moduleSpecifier env source span)
  | .refuse error => throw error

/-- Whether an emitter takes exactly the given steps, whatever text it builds. -/
def Performs {α : Type} (env : Environment) (emitter : Emitter α) (steps : List Step) : Prop :=
  effect emitter = steps.forM (perform env)

variable {env : Environment}

/-- Exporting an assignment to a name publishes the name before anything else. -/
theorem exported_eq_perform {target : Expression} {op : AssignmentOperator} {value : Expression}
    {isLocal : Bool} {place inner : Span} {depth : Nat} {name : String}
    (hname : target.name? = some name) :
    exported env depth (.expression (.assign target op value isLocal place) inner) = (do
      perform env (.publish name place)
      let code ← expression env depth value
      return [.ofText ("export let " ++ name ++ " = ") ++ assigned name op code ++
        .ofText ";"]) := by
  simp only [exported, hname, perform, bind_assoc]
  refine bind_congr fun tree => ?_
  split <;> rfl

theorem exported_eq_throw {declaration : Statement} {depth : Nat}
    (hassign : declaration.isAssignment = false) :
    exported env depth declaration = throw (.emitting .unexportable declaration.span) := by
  cases declaration with
  | expression value =>
    cases value with
    | assign => cases hassign
    | _ => simp only [exported]
  | _ => simp only [exported]

namespace Performs

variable {α β : Type} {env : Environment} {emitter : Emitter α} {steps more : List Step}

theorem pure (value : α) : Performs env (Pure.pure value) [] := by
  simp [Performs, effect]

theorem bind {next : α → Emitter β} (hfirst : Performs env emitter steps)
    (hnext : ∀ value, Performs env (next value) more) :
    Performs env (emitter >>= next) (steps ++ more) := by
  have hrest : ∀ value, (do let _ ← next value; return ()) = more.forM (perform env) := hnext
  have hmiddle : effect emitter >>= (fun _ => more.forM (perform env)) =
      emitter >>= fun _ => more.forM (perform env) := by
    simp [effect]
  rw [Performs, List.forM_eq_forM, List.forM_append, ← List.forM_eq_forM, ← hfirst, hmiddle]
  simp only [effect, bind_assoc, hrest]

/-- What takes no step afterwards makes no difference. -/
theorem finish {next : α → Emitter β} (hemitter : Performs env emitter steps)
    (hnext : ∀ value, Performs env (next value) []) : Performs env (emitter >>= next) steps := by
  have h := hemitter.bind hnext
  rwa [List.append_nil] at h

theorem map {result : α → β} (hemitter : Performs env emitter steps) :
    Performs env (do let value ← emitter; return result value) steps :=
  hemitter.finish fun value => pure (result value)

theorem single (step : Step) : Performs env (perform env step) [step] := by
  simp [Performs, effect]

theorem step (step : Step) (hemitter : Performs env emitter steps) {before : Emitter Unit}
    (hbefore : before = perform env step) :
    Performs env (do before; emitter) (step :: steps) := by
  rw [hbefore]
  exact (single step).bind fun _ => hemitter

theorem visit (span : Span) (hemitter : Performs env emitter steps) :
    Performs env emitter (.visit span :: steps) := by
  simpa [Performs, perform] using hemitter

/-- Looking at the scopes is no step. -/
theorem query {next : ScopeTree → Emitter β} (hnext : ∀ tree, Performs env (next tree) steps) :
    Performs env (do next (← tree)) steps := by
  have htree : Performs env tree [] := rfl
  exact htree.bind hnext

/-- A fault is the last step. -/
theorem refuse (error : CompileError) (steps : List Step) :
    Performs env (throw error : Emitter α) (.refuse error :: steps) := rfl

theorem names (params : List Identifier) :
    Performs env (onTree fun tree => tree.declareParams params) (Walk.names params) := by
  induction params with
  | nil => rfl
  | cons param params ih =>
    exact visit param.span (step (.declare param.name .variable param.span.first) ih rfl)

theorem inScope {body : Emitter (List Layout)} (opening : Opening) {declared : List Step}
    (hdeclared : Performs env (onTree fun tree => tree.declareParams opening.params) declared)
    (hbody : Performs env body steps) :
    Performs env (Emitter.inScope opening.kind opening.params body)
      (.enter opening :: declared ++ steps ++ [.exit]) := by
  have henter : (onTree fun tree => (tree.enter opening.kind).declareParams opening.params) =
      (do onTree fun tree => tree.enter opening.kind
          onTree fun tree => tree.declareParams opening.params) := rfl
  unfold Emitter.inScope
  rw [henter]
  simp only [bind_assoc, List.cons_append, List.append_assoc]
  exact query fun _ => step (.enter opening)
    (hdeclared.bind fun _ => hbody.bind fun lines => query fun closed =>
      step .exit (pure (declarations closed _ ++ lines)) rfl) rfl

theorem moduleSpecifier (source : List Identifier) (span : Span) :
    Performs env (Emitter.moduleSpecifier env source span) [.seek source span] := by
  simp [Performs, perform, effect]

theorem bindTarget (target : Expression) (place : Position) (isLocal : Bool) :
    Performs env (Emitter.bindTarget target place isLocal)
      (match target.name? with
        | some name => [.assign name place isLocal]
        | none => []) := by
  unfold Emitter.bindTarget
  cases target.name? <;> rfl

/-- Steps that do nothing may stand before others. -/
theorem skip (hsteps : Performs env (Pure.pure () : Emitter Unit) steps)
    (hmore : Performs env emitter more) : Performs env emitter (steps ++ more) := by
  have h := hsteps.bind fun _ => hmore
  rwa [pure_bind] at h

/-- A target that may be assigned to is only visited. -/
theorem expression_of_path? (depth : Nat) {target : Expression} {path : String}
    (hpath : target.path? = some path) :
    Performs env (Pure.pure () : Emitter Unit) (Walk.expression depth target) := by
  induction target using Expression.path?.induct generalizing path with
  | case1 text span => exact visit span (pure ())
  | case2 owner key span ih =>
    simp only [Expression.path?, Option.map_eq_some_iff] at hpath
    obtain ⟨base, hbase, _⟩ := hpath
    exact visit span (ih hbase)
  | case3 other hname hproperty => simp [Expression.path?] at hpath

theorem assign {target : Expression} {op : AssignmentOperator} {value : Expression}
    {isLocal : Bool} {span : Span} {depth : Nat}
    (hvalue : Performs env (expression env depth value) (Walk.expression depth value)) :
    Performs env (expression env depth (.assign target op value isLocal span))
      (Walk.expression depth (.assign target op value isLocal span)) := by
  simp only [expression, Walk.expression, Walk.target, List.cons_append, List.append_assoc]
  refine visit span ((bindTarget target span.first isLocal).bind fun _ => ?_)
  cases hpath : target.path? with
  | none => exact refuse _ _
  | some path => exact (expression_of_path? depth hpath).skip hvalue.map

theorem exportAssign {target : Expression} {op : AssignmentOperator} {value : Expression}
    {isLocal : Bool} {place inner span : Span} {depth : Nat}
    (hvalue : Performs env (expression env depth value) (Walk.expression depth value)) :
    Performs env
      (statement env depth
        (.exportDecl (.expression (.assign target op value isLocal place) inner) span))
      (Walk.statement depth
        (.exportDecl (.expression (.assign target op value isLocal place) inner) span)) := by
  simp only [statement, Walk.statement, Walk.exportTarget, List.cons_append, List.append_assoc]
  refine visit span ?_
  change Performs env (exported env depth _) _
  cases hname : target.name? with
  | none =>
    simp only [exported, hname]
    exact refuse _ _
  | some name =>
    rw [exported_eq_perform hname]
    have hpath := target.path?_of_name? hname
    exact step (.publish name place)
      (visit place ((expression_of_path? depth hpath).skip hvalue.map)) rfl

theorem exportDecl {declaration : Statement} {span : Span} {depth : Nat}
    (hassign : declaration.isAssignment = false)
    (hinner : Performs env (statement env depth declaration) (Walk.statement depth declaration)) :
    Performs env (statement env depth (.exportDecl declaration span))
      (Walk.statement depth (.exportDecl declaration span)) := by
  rw [Walk.statement_exportDecl hassign]
  simp only [statement, Walk.exported, List.cons_append]
  refine visit span ?_
  cases hdeclares : isDeclaration declaration with
  | true => exact hinner.map
  | false =>
    rw [if_neg Bool.false_ne_true, exported_eq_throw hassign]
    exact refuse _ _

end Performs

variable (env : Environment)

mutual

theorem performs_expression (depth : Nat) :
    ∀ value, Performs env (expression env depth value) (Walk.expression depth value)
  | .string _ span | .number _ span | .name _ span => .visit span (.pure _)
  | .array items span => .visit span (performs_expressions (depth + 1) items).map
  | .object entries span => .visit span (performs_fields (depth + 1) entries).map
  | .property owner _ span => .visit span (performs_expression depth owner).map
  | .assign _ _ value _ _ => .assign (performs_expression depth value)
  | .binary left op right span =>
    .visit span <| (performs_expression depth left).bind fun _ =>
      (performs_expression depth right).finish fun _ => by split <;> exact .pure _
  | .unary _ operand span => .visit span (performs_expression depth operand).map
  | .lambda params body span => .visit span (performs_block depth _ .function params body)
  | .call callee arguments span | .construct callee arguments span =>
    .visit span <| (performs_expression depth callee).bind fun _ =>
      (performs_expressions depth arguments).map

theorem performs_expressions (depth : Nat) :
    ∀ items, Performs env (expressions env depth items) (Walk.expressions depth items)
  | [] => .pure []
  | item :: more =>
    (performs_expression depth item).bind fun _ => (performs_expressions depth more).map

theorem performs_fields (depth : Nat) :
    ∀ entries, Performs env (fields env depth entries) (Walk.fields depth entries)
  | [] => .pure []
  | .mk _ value :: more =>
    (performs_expression depth value).bind fun _ => (performs_fields depth more).map

theorem performs_block (depth : Nat) (head : Layout) (kind : ScopeKind)
    (params : List Identifier) :
    ∀ body, Performs env (block env depth head kind params body) (Walk.block depth kind params body)
  | .mk body span =>
    (Performs.inScope ⟨kind, depth, params, body⟩ (.visit span (.names params))
      (performs_statements (depth + 1) body)).map

theorem performs_statements (depth : Nat) :
    ∀ body, Performs env (statements env depth body) (Walk.statements depth body)
  | [] => .pure []
  | first :: more =>
    (performs_statement depth first).bind fun _ => (performs_statements depth more).map

theorem performs_statement (depth : Nat) :
    ∀ value, Performs env (statement env depth value) (Walk.statement depth value)
  | .expression value span => .visit span (performs_expression depth value).map
  | .block inner => .visit inner.span (performs_block depth _ .block [] inner).map
  | .condition test thenBranch none span => by
    rw [Walk.statement, List.append_nil]
    exact .visit span <| (performs_expression depth test).bind fun _ =>
      (performs_block depth _ .block [] thenBranch).map
  | .condition test thenBranch (some branch) span => by
    have hdeeper := performs_statement (depth + 1) branch
    have htest := performs_expression depth test
    have hthen := fun head => performs_block depth head .block [] thenBranch
    cases branch with
    | block inner =>
      simp only [Walk.statement, List.cons_append, List.append_assoc]
      exact .visit span <| htest.bind fun _ => (hthen _).bind fun _ =>
        .visit inner.span (performs_block depth _ .block [] inner).map
    | _ =>
      simp only [Walk.statement, List.cons_append, List.append_assoc]
      exact .visit span <| htest.bind fun _ => (hthen _).bind fun _ => hdeeper.map
  | .forLoop item iterable body span =>
    .visit span <| .step (.assign item.name span.first false)
      ((performs_expression depth iterable).bind fun _ =>
        (performs_block depth _ .block [] body).map) rfl
  | .whileLoop test body span =>
    .visit span <| (performs_expression depth test).bind fun _ =>
      (performs_block depth _ .block [] body).map
  | .returnValue none span | .breakLoop span | .continueLoop span => .visit span (.pure _)
  | .returnValue (some value) span => .visit span (performs_expression depth value).map
  | .functionDecl name params body span =>
    .visit span <| .step (.declare name.name .function span.first)
      (performs_block depth _ .function params body).map rfl
  | .classDecl name parts span => by
    have hopen : (onTree fun tree =>
        (tree.declare name.name .classType span.first).enter .classBody) =
        (do onTree fun tree => tree.declare name.name .classType span.first
            onTree fun tree => tree.enter .classBody) := rfl
    simp only [statement, Walk.statement, List.cons_append]
    rw [hopen, bind_assoc]
    exact .visit span <| .step (.declare name.name .classType span.first)
      (.step (.enter ⟨.classBody, depth, [], []⟩)
        ((performs_members (depth + 1) parts).bind fun _ => .step .exit (.pure _) rfl) rfl) rfl
  | .hostDecl name kind span => .visit span <| .step (.host name.name kind) (.pure []) rfl
  | .importDecl source names _ span =>
    .visit span <| (Performs.moduleSpecifier source span).bind fun _ => (Performs.names names).map
  | .exportDecl declaration span => by
    have hinner := performs_statement depth declaration
    cases hassign : declaration.isAssignment with
    | false => exact .exportDecl hassign hinner
    | true =>
      cases declaration with
      | expression value =>
        cases value with
        | assign target op value => exact .exportAssign (performs_expression depth value)
        | _ => cases hassign
      | _ => cases hassign
  | .guarded inner test span =>
    .visit span <| (performs_expression depth test).bind fun _ =>
      (Performs.inScope ⟨.block, depth, [], [inner]⟩ (.pure ())
        (performs_statement (depth + 1) inner)).map

theorem performs_members (depth : Nat) :
    ∀ parts, Performs env (members env depth parts) (Walk.members depth parts)
  | [] => .pure []
  | first :: more =>
    (performs_member depth first).bind fun _ => (performs_members depth more).map

theorem performs_member (depth : Nat) :
    ∀ part, Performs env (member env depth part) (Walk.member depth part)
  | .field _ value span => .visit span (performs_expression depth value).map
  | .method _ params body span => .visit span (performs_block depth _ .function params body)

end

theorem performs_program (program : Program) :
    Performs env (Emitter.program env program) (Walk.program program) :=
  .visit program.span <| (performs_statements env 0 program.body).finish fun _ =>
    .query fun _ => .pure _

/-! ### Passes that end well -/

variable {env} {α β : Type}

theorem run_bind_eq_ok_iff {emitter : Emitter α} {next : α → Emitter β} {value : β}
    {before after : Session} :
    (emitter >>= next).run before = .ok value after ↔
      ∃ first middle, emitter.run before = .ok first middle ∧
        (next first).run middle = .ok value after := by
  simp only [EStateM.run, Bind.bind, EStateM.bind]
  cases emitter before <;> simp

/-- A step that does not end the pass does to the scopes what it does in any walk. -/
theorem tree_of_run_perform {step : Step} {before after : Session}
    (hrun : (perform env step).run before = .ok () after) :
    after.tree = before.tree.step step := by
  cases step with
  | publish name span =>
    obtain ⟨tree, middle, htree, hrun⟩ := run_bind_eq_ok_iff.mp hrun
    cases htree
    simp only [ScopeTree.step]
    split at hrun
    · cases hrun
    · next hfree =>
      cases hrun
      rw [if_neg hfree]
  | seek source span =>
    obtain ⟨specifier, middle, hseek, hrun⟩ := run_bind_eq_ok_iff.mp hrun
    cases hrun
    unfold moduleSpecifier at hseek
    split at hseek
    · cases hseek
    · cases hseek
      rfl
  | refuse error => cases hrun
  | _ =>
    cases hrun
    rfl

theorem tree_of_run_forM {steps : List Step} {before after : Session}
    (hrun : (steps.forM (perform env)).run before = .ok () after) :
    after.tree = before.tree.run steps := by
  induction steps generalizing before with
  | nil =>
    cases hrun
    rfl
  | cons step steps ih =>
    obtain ⟨_, middle, hstep, hrest⟩ := run_bind_eq_ok_iff.mp hrun
    rw [ih hrest, tree_of_run_perform hstep]
    rfl

namespace Performs

variable {emitter : Emitter α} {steps : List Step} {value : α} {before after : Session}

theorem run_forM (hperforms : Performs env emitter steps)
    (hrun : emitter.run before = .ok value after) :
    (steps.forM (perform env)).run before = .ok () after := by
  rw [← hperforms]
  exact run_bind_eq_ok_iff.mpr ⟨value, after, hrun, rfl⟩

theorem tree_of_run (hperforms : Performs env emitter steps)
    (hrun : emitter.run before = .ok value after) : after.tree = before.tree.run steps :=
  tree_of_run_forM (hperforms.run_forM hrun)

/-- In a pass that ends well no step ends it. -/
theorem exists_run_perform (hperforms : Performs env emitter steps)
    (hrun : emitter.run before = .ok value after) {ahead behind : List Step} {step : Step}
    (hsteps : steps = ahead ++ step :: behind) :
    ∃ middle later, (perform env step).run middle = .ok () later ∧
      middle.tree = before.tree.run ahead := by
  have hforM := hperforms.run_forM hrun
  rw [hsteps, List.forM_eq_forM, List.forM_append] at hforM
  obtain ⟨_, middle, hahead, hbehind⟩ := run_bind_eq_ok_iff.mp hforM
  obtain ⟨_, later, hstep, _⟩ := run_bind_eq_ok_iff.mp hbehind
  exact ⟨middle, later, hstep, tree_of_run_forM hahead⟩

end Performs

end Emitter

/-- A pass that ends well has run the walk. -/
theorem Program.exists_run_of_emit {program : Program} {env : Environment} {script : Script}
    (hemit : (program.emit env).result = .ok script) :
    ∃ session, (Emitter.program env program).run ⟨.start, []⟩ = .ok script.lines session ∧
      session.tree = (program.emit env).tree := by
  unfold Program.emit at hemit ⊢
  split at hemit
  · next lines session hrun =>
    cases hemit
    exact ⟨session, hrun, rfl⟩
  · cases hemit

theorem Program.tree_emit {program : Program} {env : Environment} {script : Script}
    (hemit : (program.emit env).result = .ok script) :
    (program.emit env).tree = ScopeTree.start.run (Walk.program program) := by
  obtain ⟨session, hrun, htree⟩ := Program.exists_run_of_emit hemit
  rw [← htree]
  exact (Emitter.performs_program env program).tree_of_run hrun

/-- A pass that ends well has built the scope tree of the index, scope by scope and symbol by
    symbol, and is back in the program's scope. -/
theorem Program.tree_emit_eq_tree_index {program : Program} {env : Environment} {script : Script}
    (hemit : (program.emit env).result = .ok script) :
    (program.emit env).tree = (ScopeIndex.ofProgram program).tree ∧
      (program.emit env).tree.current = 0 := by
  rw [Program.tree_emit hemit, ScopeIndex.tree_ofProgram]
  exact ⟨rfl, ScopeTree.current_run (Walk.nested_program program) ScopeTree.wellFormed_start⟩

/-- The script of `Program.capturing`. -/
def Script.capturing : Script :=
  ⟨[[.text "let x;"], [.text "x = ", .text "1", .text ";"],
    [.text "if (", .text "c", .text ") ", .text "\x7b", .newline 1, .text "let x;", .newline 1,
      .text "x = ", .text "2", .text ";", .newline 1, .text "x = ", .text "3", .text ";",
      .newline 0, .text "\x7d"]]⟩

theorem Program.emit_capturing : (capturing.emit {}).result = .ok .capturing := rfl

theorem Program.tree_emit_capturing :
    (capturing.emit {}).result = .ok .capturing ∧
      (capturing.emit {}).tree = (ScopeIndex.ofProgram .capturing).tree ∧
      (capturing.emit {}).tree.current = 0 :=
  ⟨emit_capturing, tree_emit_eq_tree_index emit_capturing⟩

end KaLang
