import KaLang.Proofs.Script.Faults
import KaLang.Proofs.Script.Parallel

/-!
Passes over one program that are told of other files. What files there are is asked for each import
statement that is reached and for nothing else (`Emitter.probes_run_forM`), and the answers only
decide the names of modules: both passes go through the same scopes, ask for the same paths, end in
the same error, and write scripts that differ in those names alone (`Emitter.Agrees`).
-/

namespace KaLang

/-! ### What is asked for -/

/-- The module that is looked for at a step, if one is. -/
def Step.module? : Step → Option (List String)
  | .seek source _ => some (source.map Identifier.name)
  | _ => none

namespace Walk

/-- The modules that are looked for on steps, in order. -/
def modules (steps : List Step) : List (List String) := steps.filterMap Step.module?

/-- The steps that a pass takes: those ahead of the first one that has a fault. -/
def taken (env : Environment) (tree : ScopeTree) : List Step → List Step
  | [] => []
  | step :: steps =>
    if (step.fault? env tree).isSome then [] else step :: taken env (tree.step step) steps

/-- Without a fault all steps are taken. -/
theorem taken_of_fault?_eq_none {env : Environment} {tree : ScopeTree} {steps : List Step}
    (hfault : fault? env tree steps = none) : taken env tree steps = steps := by
  induction steps generalizing tree with
  | nil => rfl
  | cons step steps ih =>
    obtain ⟨hstep, hsteps⟩ := Option.or_eq_none_iff.mp hfault
    rw [taken, hstep, ih hsteps]
    rfl

@[simp] theorem modules_nil : modules [] = [] := rfl

@[simp] theorem modules_append (steps more : List Step) :
    modules (steps ++ more) = modules steps ++ modules more := List.filterMap_append

theorem modules_cons (step : Step) (steps : List Step) :
    modules (step :: steps) = step.module?.toList ++ modules steps := by
  cases h : step.module? <;> simp [modules, h]

end Walk

namespace Emitter

variable {env : Environment} {files : String → Bool}

/-- What a pass has asked for in the end. -/
def asked {α : Type} : EStateM.Result CompileError Session α → List String
  | .ok _ session => session.probes
  | .error _ session => session.probes

/-- A step asks for the file of the module that is looked for, unless it ends the pass. -/
theorem asked_run_perform (hfiles : env.files = some files) (step : Step) (before : Session) :
    asked ((perform env step).run before) =
      before.probes ++
        (Walk.modules (Walk.taken env before.tree [step])).map (ModulePath.candidate env.path) := by
  cases step with
  | publish name span =>
    have hrun : (perform env (.publish name span)).run before =
        EStateM.run (if (before.tree.lookup name).isSome then
          throw (.emitting .exportAfterUse span)
        else onTree fun tree => tree.declare name .variable span.first) before := rfl
    rw [hrun, Walk.taken, Step.fault?]
    by_cases hbound : (before.tree.lookup name).isSome = true
    · rw [if_pos hbound, if_pos hbound]
      exact (List.append_nil _).symm
    · rw [if_neg hbound, if_neg hbound]
      exact (List.append_nil _).symm
  | seek source span =>
    simp only [perform, effect, moduleSpecifier, hfiles, Walk.taken, Step.fault?]
    rfl
  | _ => exact (List.append_nil _).symm

/-- Steps in a row ask for the files of the modules that are looked for on those that are taken. -/
theorem asked_run_forM (hfiles : env.files = some files) (steps : List Step) (before : Session) :
    asked ((steps.forM (perform env)).run before) =
      before.probes ++
        (Walk.modules (Walk.taken env before.tree steps)).map
          (ModulePath.candidate env.path) := by
  induction steps generalizing before with
  | nil => exact (List.append_nil _).symm
  | cons step steps ih =>
    have hrun : ((step :: steps).forM (perform env)).run before =
        EStateM.run (perform env step >>= fun _ => steps.forM (perform env)) before := rfl
    have hstep := asked_run_perform hfiles step before
    have hfault : fault? (perform env step) before = _ := fault?_perform step before
    rw [fault?] at hfault
    rw [hrun, Walk.taken]
    rw [Walk.taken] at hstep
    simp only [EStateM.run_bind]
    cases hperform : (perform env step).run before with
    | ok value middle =>
      rw [hperform] at hfault hstep
      rw [← hfault] at hstep ⊢
      have hrest := ih middle
      rw [tree_of_run_perform hperform] at hrest
      change middle.probes = _ at hstep
      simp only [hrest, hstep, Option.isSome_none, Bool.false_eq_true, ↓reduceIte, Walk.taken,
        Walk.modules_cons, List.map_append, List.append_assoc]
      simp
    | error error middle =>
      rw [hperform] at hfault hstep
      rw [← hfault] at hstep ⊢
      exact hstep

/-- So does what takes exactly these steps. -/
theorem Performs.asked_run {α : Type} {emitter : Emitter α} {steps : List Step}
    (hperforms : Performs env emitter steps) (hfiles : env.files = some files) (before : Session) :
    asked (emitter.run before) =
      before.probes ++
        (Walk.modules (Walk.taken env before.tree steps)).map
          (ModulePath.candidate env.path) := by
  rw [← asked_run_forM hfiles, ← hperforms]
  simp only [effect, EStateM.run_bind]
  cases emitter.run before <;> rfl

/-! ### Two passes -/

/-- Whether two passes end alike: in the same error, or with values that are related; the scopes and
    what has been asked for are the same. -/
inductive Alike {α : Type} (related : α → α → Prop) :
    EStateM.Result CompileError Session α → EStateM.Result CompileError Session α → Prop where
  | ok {value other : α} (session : Session) (hvalue : related value other) :
      Alike related (.ok value session) (.ok other session)
  | error (error : CompileError) (session : Session) :
      Alike related (.error error session) (.error error session)

/-- Whether two emitters end alike wherever they start together. -/
def Agrees {α : Type} (related : α → α → Prop) (first second : Emitter α) : Prop :=
  ∀ before, Alike related (first.run before) (second.run before)

namespace Agrees

variable {α β : Type} {related : α → α → Prop} {wanted : β → β → Prop}
  {first second emitter : Emitter α} {next later : α → Emitter β}

theorem pure {value other : α} (hvalue : related value other) :
    Agrees related (Pure.pure value) (Pure.pure other) := fun before => .ok before hvalue

theorem fault (error : CompileError) :
    Agrees related (throw error : Emitter α) (throw error) := fun before => .error error before

theorem bind (hfirst : Agrees related first second)
    (hnext : ∀ value other, related value other → Agrees wanted (next value) (later other)) :
    Agrees wanted (first >>= next) (second >>= later) := by
  intro before
  simp only [EStateM.run_bind]
  have hends := hfirst before
  generalize first.run before = end₁, second.run before = end₂ at hends ⊢
  cases hends with
  | ok session hvalue => exact hnext _ _ hvalue session
  | error error session => exact .error error session

theorem map {change : α → β} {other : α → β} (hfirst : Agrees related first second)
    (hchange : ∀ value value', related value value' → wanted (change value) (other value')) :
    Agrees wanted (do return change (← first)) (do return other (← second)) :=
  hfirst.bind fun _ _ hvalue => pure (hchange _ _ hvalue)

/-- An emitter that both passes have in common. -/
theorem after (hnext : ∀ value, Agrees wanted (next value) (later value)) :
    Agrees wanted (emitter >>= next) (emitter >>= later) := by
  have hsame : Agrees Eq emitter emitter := by
    intro before
    cases emitter.run before with
    | ok value session => exact .ok session rfl
    | error error session => exact .error error session
  exact hsame.bind fun value _ heq => heq ▸ hnext value

end Agrees

end Emitter

/-- The name of each module in the script of a file: the relative path of the module's own script if
    its file is there, and else the path of its segments. -/
def ModulePath.naming (file : String) (files : String → Bool) : Naming := fun segments =>
  if files (candidate file segments) then "./" ++ "/".intercalate segments ++ ".js"
  else "/".intercalate segments

namespace Walk

theorem modules_names (names : List Identifier) : modules (Walk.names names) = [] := by
  induction names with
  | nil => rfl
  | cons name names ih => exact ih

/-- A target that may be assigned to has no import in it. -/
theorem modules_of_path? (depth : Nat) {target : Expression} {path : String}
    (hpath : target.path? = some path) : modules (Walk.expression depth target) = [] := by
  induction target using Expression.path?.induct generalizing path with
  | case1 text span => rfl
  | case2 owner key span ih =>
    obtain ⟨base, hbase, -⟩ := Option.map_eq_some_iff.mp hpath
    exact ih hbase
  | case3 other hname hproperty => simp [Expression.path?] at hpath

theorem modules_target {target : Expression} {path : String} (hpath : target.path? = some path)
    (place : Position) (isLocal : Bool) : modules (Walk.target target place isLocal) = [] := by
  simp only [Walk.target, hpath, List.append_nil]
  split <;> rfl

theorem modules_assign (depth : Nat) {target value : Expression} {op : AssignmentOperator}
    {isLocal : Bool} {span : Span} {path : String} (hpath : target.path? = some path) :
    modules (Walk.expression depth (.assign target op value isLocal span)) =
      modules (Walk.expression depth value) := by
  rw [Walk.expression, modules_append, modules_append, modules_of_path? depth hpath]
  exact congrArg (· ++ _) (List.append_nil _ |>.trans (modules_target hpath _ _))

theorem modules_exit (steps : List Step) : modules (steps ++ [.exit]) = modules steps :=
  (modules_append steps [.exit]).trans (List.append_nil _)

theorem modules_block (depth : Nat) (kind : ScopeKind) (params : List Identifier)
    (body : List Statement) (span : Span) :
    modules (Walk.block depth kind params (.mk body span)) =
      modules (Walk.statements (depth + 1) body) := by
  rw [Walk.block, modules_exit, modules_append]
  exact congrArg (· ++ _) (modules_names params)

theorem modules_condition {depth : Nat} {test : Expression} {thenBranch : Block}
    {branch : Statement} {span : Span} (hblock : ∀ inner, branch ≠ .block inner) :
    modules (Walk.statement depth (.condition test thenBranch (some branch) span)) =
      modules (Walk.expression depth test) ++ modules (Walk.block depth .block [] thenBranch) ++
        modules (Walk.statement (depth + 1) branch) := by
  rw [Walk.statement, modules_append, modules_append]
  · rfl
  · exact hblock

theorem modules_export (declaration : Statement) (span : Span) (steps : List Step) :
    modules (.visit span :: exported declaration ++ steps) = modules steps := by
  rw [modules_append, exported]
  split <;> rfl

theorem modules_exportAssign (depth : Nat) {target value : Expression} {op : AssignmentOperator}
    {isLocal : Bool} {place inner span : Span} {name : String} (hname : target.name? = some name) :
    modules (Walk.statement depth
        (.exportDecl (.expression (.assign target op value isLocal place) inner) span)) =
      modules (Walk.expression depth value) := by
  have htarget := modules_of_path? depth (target.path?_of_name? hname)
  rw [Walk.statement, exportTarget, hname, modules_append]
  exact congrArg (· ++ _) htarget

end Walk

namespace Emitter

open Layout Walk

variable (path : String) (here there : String → Bool)

/-- Whether two passes with different files end alike, and the code of an expression is the same but
    for the names of the modules in it. -/
def SameCode (steps : List Step) : Emitter Layout → Emitter Layout → Prop :=
  Agrees (Twin (ModulePath.naming path here) (ModulePath.naming path there) (modules steps))

/-- Whether two passes with different files end alike, and the lines are the same but for the names
    of the modules in them. -/
def SameLines (steps : List Step) : Emitter (List Layout) → Emitter (List Layout) → Prop :=
  Agrees (Rows (Parallel (ModulePath.naming path here) (ModulePath.naming path there))
    (modules steps))

/-- The same for the codes of expressions in a row. -/
def SameItems (steps : List Step) : Emitter (List Layout) → Emitter (List Layout) → Prop :=
  Agrees (Rows (Twin (ModulePath.naming path here) (ModulePath.naming path there))
    (modules steps))

variable {path here there}

theorem SameLines.inScope {steps : List Step} {kind : ScopeKind} {params : List Identifier}
    {first second : Emitter (List Layout)} (hbody : SameLines path here there steps first second) :
    SameLines path here there steps (Emitter.inScope kind params first)
      (Emitter.inScope kind params second) :=
  .after fun _ => .after fun _ => hbody.bind fun _ _ hlines => .after fun _ => .after fun _ =>
    .pure ((Rows.refl .refl _).append hlines)

theorem agrees_moduleSpecifier (source : List Identifier) (span : Span) :
    Agrees (fun name other =>
        name = ModulePath.naming path here (source.map Identifier.name) ∧
          other = ModulePath.naming path there (source.map Identifier.name))
      (moduleSpecifier ⟨path, some here⟩ source span)
      (moduleSpecifier ⟨path, some there⟩ source span) := fun _ => .ok _ ⟨rfl, rfl⟩

variable (path here there)

mutual

theorem agrees_expression (depth : Nat) : ∀ value, SameCode path here there
    (Walk.expression depth value) (expression ⟨path, some here⟩ depth value)
    (expression ⟨path, some there⟩ depth value)
  | .string _ _ | .number _ _ | .name _ _ => .pure (.refl _)
  | .array items _ => (agrees_expressions (depth + 1) items).map fun _ _ => twin_array depth
  | .object entries _ => (agrees_fields (depth + 1) entries).map fun _ _ => twin_object depth
  | .property owner _ _ => (agrees_expression depth owner).map fun _ _ hcode =>
    (twin_inParenthesesIf _ hcode).behind _
  | .assign target op value isLocal span => by
    have hvalue := agrees_expression depth value
    simp only [expression]
    refine .after fun _ => ?_
    cases hpath : target.path? with
    | none => exact .fault _
    | some path =>
      rw [modules_assign depth hpath]
      exact hvalue.map fun _ _ hcode => (twin_assigned path op hcode).ahead _
  | .binary left op right _ => by
    rw [SameCode, Walk.expression, modules_append]
    refine (agrees_expression depth left).bind fun _ _ hleft =>
      (agrees_expression depth right).bind fun _ _ hright => ?_
    split
    · exact .pure (((hleft.behind _).append hright).behind _)
    · exact .pure (twin_applied _ (.cons hleft (.single hright)))
  | .unary _ operand _ => (agrees_expression depth operand).map fun _ _ hcode =>
    twin_applied _ (.single hcode)
  | .lambda params body _ => agrees_block depth .function params body (.refl _)
  | .call callee arguments _ => by
    rw [SameCode, Walk.expression, modules_append]
    exact (agrees_expression depth callee).bind fun _ _ hcode =>
      (agrees_expressions depth arguments).map fun _ _ hargs =>
        (twin_inParenthesesIf _ hcode).append (twin_inParentheses (Twin.intercalate hargs _))
  | .construct callee arguments _ => by
    rw [SameCode, Walk.expression, modules_append]
    exact (agrees_expression depth callee).bind fun _ _ hcode =>
      (agrees_expressions depth arguments).map fun _ _ hargs =>
        ((twin_inParenthesesIf _ hcode).ahead _).append
          (twin_inParentheses (Twin.intercalate hargs _))

theorem agrees_expressions (depth : Nat) : ∀ items, SameItems path here there
    (Walk.expressions depth items) (expressions ⟨path, some here⟩ depth items)
    (expressions ⟨path, some there⟩ depth items)
  | [] => .pure .nil
  | item :: more => by
    rw [SameItems, Walk.expressions, modules_append]
    exact (agrees_expression depth item).bind fun _ _ hcode =>
      (agrees_expressions depth more).map fun _ _ hcodes => .cons hcode hcodes

theorem agrees_fields (depth : Nat) : ∀ entries, SameItems path here there
    (Walk.fields depth entries) (fields ⟨path, some here⟩ depth entries)
    (fields ⟨path, some there⟩ depth entries)
  | [] => .pure .nil
  | .mk _ value :: more => by
    rw [SameItems, Walk.fields, modules_append]
    exact (agrees_expression depth value).bind fun _ _ hcode =>
      (agrees_fields depth more).map fun _ _ hcodes => .cons (hcode.ahead _) hcodes

theorem agrees_block (depth : Nat) (kind : ScopeKind) (params : List Identifier) (body : Block)
    {ahead : List (List String)} {head other : Layout}
    (hhead : Twin (ModulePath.naming path here) (ModulePath.naming path there) ahead head other) :
    Agrees (Twin (ModulePath.naming path here) (ModulePath.naming path there)
        (ahead ++ modules (Walk.block depth kind params body)))
      (block ⟨path, some here⟩ depth head kind params body)
      (block ⟨path, some there⟩ depth other kind params body) := by
  cases body with
  | mk body span =>
    rw [modules_block]
    exact (agrees_statements (depth + 1) body).inScope.map fun _ _ hlines =>
      hhead.braced depth hlines

theorem agrees_statements (depth : Nat) : ∀ body, SameLines path here there
    (Walk.statements depth body) (statements ⟨path, some here⟩ depth body)
    (statements ⟨path, some there⟩ depth body)
  | [] => .pure .nil
  | first :: more => by
    rw [SameLines, Walk.statements, modules_append]
    exact (agrees_statement depth first).bind fun _ _ hlines =>
      (agrees_statements depth more).map fun _ _ hmore => hlines.append hmore

theorem agrees_statement (depth : Nat) : ∀ value, SameLines path here there
    (Walk.statement depth value) (statement ⟨path, some here⟩ depth value)
    (statement ⟨path, some there⟩ depth value)
  | .expression value _ => (agrees_expression depth value).map fun _ _ hcode =>
    .single (parallel_expressionLine hcode)
  | .block inner => (agrees_block depth .block [] inner (.refl [])).map fun _ _ hcode =>
    .single hcode.parallel
  | .condition test thenBranch none _ => by
    rw [SameLines, Walk.statement, modules_append, modules_append, modules_nil, List.append_nil]
    exact (agrees_expression depth test).bind fun _ _ hcode =>
      (agrees_block depth .block [] thenBranch ((hcode.ahead _).behind _)).map fun _ _ hthen =>
        .single hthen.parallel
  | .condition test thenBranch (some branch) _ => by
    have htest := agrees_expression depth test
    have hthen := @agrees_block depth .block [] thenBranch
    have hdeeper := agrees_statement (depth + 1) branch
    -- Only a block stays on the level of the condition.
    cases branch with
    | block inner =>
      have helse := agrees_block depth .block [] inner (.refl (ofText "else "))
      simp only [SameLines, Walk.statement, modules_append]
      exact htest.bind fun _ _ hcode => (hthen ((hcode.ahead _).behind _)).bind fun _ _ hbody =>
        helse.map fun _ _ hother => .single ((hbody.behind _).append hother).parallel
    | _ =>
      rw [SameLines, modules_condition]
      · exact htest.bind fun _ _ hcode => (hthen ((hcode.ahead _).behind _)).bind fun _ _ hbody =>
          hdeeper.map fun _ _ hlines =>
            .single ((hbody.behind _).append ((Twin.refl _).braced depth hlines)).parallel
      · nofun
  | .forLoop item iterable body span => by
    rw [SameLines, Walk.statement, modules_append]
    exact .after fun _ => (agrees_expression depth iterable).bind fun _ _ hcode =>
      (agrees_block depth .block [] body ((hcode.ahead _).behind _)).map fun _ _ hbody =>
        .single hbody.parallel
  | .whileLoop test body _ => by
    rw [SameLines, Walk.statement, modules_append]
    exact (agrees_expression depth test).bind fun _ _ hcode =>
      (agrees_block depth .block [] body ((hcode.ahead _).behind _)).map fun _ _ hbody =>
        .single hbody.parallel
  | .returnValue none _ | .breakLoop _ | .continueLoop _ => .pure (.single (.refl _))
  | .returnValue (some value) _ => (agrees_expression depth value).map fun _ _ hcode =>
    .single ((hcode.ahead _).behind _).parallel
  | .functionDecl name params body span =>
    .after fun _ => (agrees_block depth .function params body (.refl _)).map fun _ _ hbody =>
      .single hbody.parallel
  | .classDecl name parts span => by
    rw [SameLines, Walk.statement, modules_exit]
    exact .after fun _ => (agrees_members (depth + 1) parts).bind fun _ _ hlines =>
      .after fun _ => .pure (.single ((Twin.refl _).braced depth hlines).parallel)
  | .hostDecl name kind _ => .after fun _ => .pure .nil
  | .importDecl source names kind span => by
    refine (agrees_moduleSpecifier source span).bind fun _ _ ⟨hname, hother⟩ => .after fun _ => ?_
    rw [hname, hother]
    have hmodules : modules (Walk.statement depth (.importDecl source names kind span)) =
        [source.map Identifier.name] := congrArg (_ :: ·) (modules_names names)
    rw [hmodules]
    exact .pure (.single (.source _ _ .nil))
  | .exportDecl declaration span => by
    have hinner := agrees_statement depth declaration
    cases hassign : declaration.isAssignment with
    | false =>
      rw [SameLines, Walk.statement_exportDecl hassign, modules_export, statement, statement,
        exported_eq_throw hassign, exported_eq_throw hassign]
      split
      · exact hinner.map fun _ _ hlines => hlines.map fun _ _ _ hline => hline.ahead _
      · exact .fault _
    | true =>
      cases declaration with
      | expression value =>
        cases value with
        | assign target op value isLocal place =>
          have hvalue := agrees_expression depth value
          simp only [statement, exported]
          cases hname : target.name? with
          | none => exact .fault _
          | some name =>
            refine .after fun tree => ?_
            split
            · exact .fault _
            · rw [modules_exportAssign depth hname]
              exact .after fun _ => hvalue.map fun _ _ hcode =>
                .single (((twin_assigned name op hcode).ahead _).behind _).parallel
        | _ => cases hassign
      | _ => cases hassign
  | .guarded inner test _ => by
    rw [SameLines, Walk.statement, modules_append, modules_exit]
    exact (agrees_expression depth test).bind fun _ _ hcode =>
      (agrees_statement (depth + 1) inner).inScope.map fun _ _ hlines =>
        .single (((hcode.ahead _).behind _).braced depth hlines).parallel

theorem agrees_members (depth : Nat) : ∀ parts, SameLines path here there
    (Walk.members depth parts) (members ⟨path, some here⟩ depth parts)
    (members ⟨path, some there⟩ depth parts)
  | [] => .pure .nil
  | first :: more => by
    rw [SameLines, Walk.members, modules_append]
    exact (agrees_member depth first).bind fun _ _ hcode =>
      (agrees_members depth more).map fun _ _ hcodes => .cons hcode.parallel hcodes

theorem agrees_member (depth : Nat) : ∀ part, SameCode path here there
    (Walk.member depth part) (member ⟨path, some here⟩ depth part)
    (member ⟨path, some there⟩ depth part)
  | .field _ value _ => (agrees_expression depth value).map fun _ _ hcode =>
    (hcode.ahead _).behind _
  | .method _ params body _ => agrees_block depth .function params body (.refl _)

end

theorem agrees_program (program : Program) : SameLines path here there (Walk.program program)
    (Emitter.program ⟨path, some here⟩ program) (Emitter.program ⟨path, some there⟩ program) :=
  (agrees_statements path here there 0 program.body).bind fun _ _ hlines => .after fun _ =>
    .pure ((Rows.refl .refl _).append hlines)

end Emitter

namespace Program

/-- A pass asks for one file for each import statement that it reaches. -/
theorem probes_emit (program : Program) (path : String) (files : String → Bool) :
    (program.emit ⟨path, some files⟩).probes =
      (Walk.modules (Walk.taken ⟨path, some files⟩ .start (Walk.program program))).map
        (ModulePath.candidate path) := by
  have hasked := (Emitter.performs_program ⟨path, some files⟩ program).asked_run rfl ⟨.start, []⟩
  rw [List.nil_append] at hasked
  rw [← hasked, emit]
  cases (Emitter.program ⟨path, some files⟩ program).run ⟨.start, []⟩ <;> rfl

/-- A pass that ends well has taken all steps. -/
theorem taken_of_emit {program : Program} {env : Environment} {script : Script}
    (hemit : (program.emit env).result = .ok script) :
    Walk.taken env .start (Walk.program program) = Walk.program program := by
  apply Walk.taken_of_fault?_eq_none
  refine Option.eq_none_iff_forall_ne_some.mpr fun error hfault => ?_
  rw [emit_error_iff_fault?.mpr hfault] at hemit
  cases hemit

/-- Two passes that are told of different files end alike. -/
theorem emit_alike (program : Program) (path : String) (here there : String → Bool) :
    let first := program.emit ⟨path, some here⟩
    let second := program.emit ⟨path, some there⟩
    second.probes = first.probes ∧
      ((∃ error, first.result = .error error ∧ second.result = .error error) ∨
        ∃ script other, first.result = .ok script ∧ second.result = .ok other ∧
          Layout.Rows
            (Layout.Parallel (ModulePath.naming path here) (ModulePath.naming path there))
            (Walk.modules (Walk.program program)) script.lines other.lines) := by
  have hends := Emitter.agrees_program path here there program ⟨.start, []⟩
  unfold emit
  generalize (Emitter.program ⟨path, some here⟩ program).run ⟨.start, []⟩ = first,
    (Emitter.program ⟨path, some there⟩ program).run ⟨.start, []⟩ = second at hends ⊢
  cases hends with
  | ok session hlines => exact ⟨rfl, .inr ⟨_, _, rfl, rfl, hlines⟩⟩
  | error error session => exact ⟨rfl, .inl ⟨error, rfl, rfl⟩⟩

/-- Two passes over a program, for a path, that are told of different files. Both ask for the same
    files in the same order, one for each import statement that is reached. They end in the same
    error, or both end well; then all import statements are reached, and the scripts are the same at
    every width but for the name of each import's module: where the pass was told that the file is
    there it is the relative path of the module's script, and elsewhere the path of its segments. -/
theorem emit_files (program : Program) (path : String) (here there : String → Bool) :
    let first := program.emit ⟨path, some here⟩
    let second := program.emit ⟨path, some there⟩
    let reached := Walk.modules (Walk.taken ⟨path, some here⟩ .start (Walk.program program))
    first.probes = reached.map (ModulePath.candidate path) ∧ second.probes = first.probes ∧
      ((∃ error, first.result = .error error ∧ second.result = .error error) ∨
        ∃ script other, first.result = .ok script ∧ second.result = .ok other ∧
          reached = Walk.modules (Walk.program program) ∧
          ∀ width, ∃ passages : List Passage, passages.filterMap Passage.module? = reached ∧
            script.text width = Passage.writeAll (ModulePath.naming path here) passages ∧
            other.text width = Passage.writeAll (ModulePath.naming path there) passages) := by
  intro first second reached
  obtain ⟨hprobes, hends⟩ := emit_alike program path here there
  refine ⟨probes_emit program path here, hprobes, hends.imp_right ?_⟩
  rintro ⟨script, other, hfirst, hsecond, hlines⟩
  have hreached : reached = Walk.modules (Walk.program program) :=
    congrArg Walk.modules (taken_of_emit hfirst)
  refine ⟨script, other, hfirst, hsecond, hreached, fun width => ?_⟩
  have hlayout := Layout.Parallel.intercalate hlines [.newline 0]
  obtain ⟨passages, hmodules, hhere, hthere⟩ := hlayout.exists_passages width
  refine ⟨.fixed (Preamble.text width) :: passages, hmodules.trans hreached.symm, ?_, ?_⟩
  · rw [Script.text, Script.body, Layout.lines, hhere]
    simp [Passage.writeAll, Passage.write, String.join_cons]
  · rw [Script.text, Script.body, Layout.lines, hthere]
    simp [Passage.writeAll, Passage.write, String.join_cons]

end Program

end KaLang
