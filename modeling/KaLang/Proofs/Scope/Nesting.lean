import KaLang.Proofs.Scope.Walk

/-!
Walks are well nested (`Walk.nested_program`): every scope that is opened is closed again, inside
the scope in which it was opened. So a scope that was closed is off the way outwards for the rest
of the walk, and what stands in it then is what stands in it at the end.
-/

namespace KaLang

/-- Whether a step neither opens nor closes a scope. -/
def Step.isFlat : Step → Bool
  | .enter _ | .exit => false
  | _ => true

/-- Steps in a scope of a given kind that close every scope they open, and do inside it what its
    opening says. Every other step has to be allowed in the kind of scope in which it is taken. -/
inductive Nested (allowed : ScopeKind → Step → Prop) : ScopeKind → List Step → Prop where
  | nil {kind : ScopeKind} : Nested allowed kind []
  | flat {kind : ScopeKind} {step : Step} {more : List Step} (hflat : step.isFlat = true)
      (hallowed : allowed kind step) (hmore : Nested allowed kind more) :
      Nested allowed kind (step :: more)
  | scope {kind : ScopeKind} {opening : Opening} {body more : List Step}
      (hinside : opening.kind ≠ .classBody → ∀ tree : ScopeTree,
        tree.run body = tree.run opening.inside)
      (hbody : Nested allowed opening.kind body) (hmore : Nested allowed kind more) :
      Nested allowed kind (.enter opening :: (body ++ .exit :: more))

namespace Nested

variable {allowed : ScopeKind → Step → Prop} {kind : ScopeKind} {steps more : List Step}

theorem append (hsteps : Nested allowed kind steps) (hmore : Nested allowed kind more) :
    Nested allowed kind (steps ++ more) := by
  induction hsteps with
  | nil => exact hmore
  | flat hflat hallowed _ ih => exact .flat hflat hallowed (ih hmore)
  | scope hinside hbody _ _ ih =>
    simpa only [List.cons_append, List.append_assoc] using scope hinside hbody (ih hmore)

theorem of_flat (hflat : ∀ step ∈ steps, step.isFlat = true)
    (hallowed : ∀ step ∈ steps, allowed kind step) : Nested allowed kind steps := by
  induction steps with
  | nil => exact .nil
  | cons step steps ih =>
    refine .flat (hflat step List.mem_cons_self) (hallowed step List.mem_cons_self) (ih ?_ ?_)
    · exact fun other hother => hflat other (List.mem_cons_of_mem _ hother)
    · exact fun other hother => hallowed other (List.mem_cons_of_mem _ hother)

/-- What follows steps that open nothing is well nested by itself. -/
theorem of_flat_append (hflat : ∀ step ∈ steps, step.isFlat = true)
    (hnested : Nested allowed kind (steps ++ more)) : Nested allowed kind more := by
  induction steps with
  | nil => exact hnested
  | cons step steps ih =>
    refine ih (fun other hother => hflat other (List.mem_cons_of_mem _ hother)) ?_
    rw [List.cons_append] at hnested
    generalize hall : step :: (steps ++ more) = all at hnested
    cases hnested with
    | nil => cases hall
    | flat _ _ hmore =>
      cases hall
      exact hmore
    | scope _ _ _ =>
      injection hall with hstep _
      have hfirst := hflat step List.mem_cons_self
      rw [hstep] at hfirst
      cases hfirst

/-- A body between its opening and its closing. -/
theorem enclosed {opening : Opening}
    (hinside : opening.kind ≠ .classBody → ∀ tree : ScopeTree,
      tree.run steps = tree.run opening.inside)
    (hbody : Nested allowed opening.kind steps) :
    Nested allowed kind (.enter opening :: steps ++ [.exit]) :=
  scope hinside hbody .nil

theorem block {depth : Nat} {params : List Identifier} {body : List Statement} {span : Span}
    {inner : ScopeKind}
    (hvisit : allowed inner (.visit span))
    (hnames : Nested allowed inner (Walk.names params))
    (hbody : Nested allowed inner (Walk.statements (depth + 1) body)) :
    Nested allowed kind (Walk.block depth inner params (.mk body span)) :=
  scope (fun _ _ => rfl) (.flat rfl hvisit (hnames.append hbody)) .nil

theorem guarded {depth : Nat} {inner : Statement}
    (hinner : Nested allowed .block (Walk.statement (depth + 1) inner)) :
    Nested allowed kind
      (.enter ⟨.block, depth, [], [inner]⟩ :: Walk.statement (depth + 1) inner ++ [.exit]) := by
  refine enclosed (fun _ tree => ?_) hinner
  simp [Opening.inside, Walk.names, Walk.statements]

theorem classBody {depth : Nat} {parts : List ClassMember}
    (hparts : Nested allowed .classBody (Walk.members (depth + 1) parts)) :
    Nested allowed kind
      (.enter ⟨.classBody, depth, [], []⟩ :: Walk.members (depth + 1) parts ++ [.exit]) :=
  enclosed (fun hkind => absurd rfl hkind) hparts

end Nested

namespace Walk

/-- Steps that are well nested wherever they are taken. -/
abbrev Free (steps : List Step) : Prop := ∀ kind, Nested (fun _ _ => True) kind steps

theorem free_visit (span : Span) {steps : List Step} (hsteps : Free steps) :
    Free (.visit span :: steps) :=
  fun kind => .flat rfl trivial (hsteps kind)

theorem free_append {steps more : List Step} (hsteps : Free steps) (hmore : Free more) :
    Free (steps ++ more) :=
  fun kind => (hsteps kind).append (hmore kind)

theorem free_of_flat {steps : List Step} (hflat : ∀ step ∈ steps, step.isFlat = true) :
    Free steps :=
  fun _ => .of_flat hflat fun _ _ => trivial

theorem isFlat_names (names : List Identifier) : ∀ step ∈ Walk.names names, step.isFlat = true := by
  simp only [Walk.names, List.mem_flatMap, List.mem_cons, List.not_mem_nil, or_false]
  rintro step ⟨name, _, rfl | rfl⟩ <;> rfl

theorem isFlat_target (target : Expression) (place : Position) (isLocal : Bool) :
    ∀ step ∈ Walk.target target place isLocal, step.isFlat = true := by
  unfold Walk.target
  cases target.name? <;> cases target.path? <;> simp [Step.isFlat]

theorem isFlat_exportTarget (target : Expression) (span : Span) :
    ∀ step ∈ exportTarget target span, step.isFlat = true := by
  unfold exportTarget
  cases target.name? <;> simp [Step.isFlat]

theorem isFlat_exported (declaration : Statement) :
    ∀ step ∈ exported declaration, step.isFlat = true := by
  unfold exported
  split <;> simp [Step.isFlat]

mutual

theorem free_expression (depth : Nat) : ∀ value, Free (expression depth value)
  | .string _ span | .number _ span | .name _ span => free_visit span fun _ => .nil
  | .array items span => free_visit span (free_expressions (depth + 1) items)
  | .object entries span => free_visit span (free_fields (depth + 1) entries)
  | .property owner _ span => free_visit span (free_expression depth owner)
  | .assign target _ value isLocal span =>
    free_append
      (free_append (free_visit span (free_of_flat (isFlat_target target span.first isLocal)))
        (free_expression depth target))
      (free_expression depth value)
  | .binary left _ right span =>
    free_append (free_visit span (free_expression depth left)) (free_expression depth right)
  | .unary _ operand span => free_visit span (free_expression depth operand)
  | .lambda params body span => free_visit span (free_block depth .function params body)
  | .call callee arguments span | .construct callee arguments span =>
    free_append (free_visit span (free_expression depth callee)) (free_expressions depth arguments)

theorem free_expressions (depth : Nat) : ∀ items, Free (expressions depth items)
  | [] => fun _ => .nil
  | item :: more => free_append (free_expression depth item) (free_expressions depth more)

theorem free_fields (depth : Nat) : ∀ entries, Free (fields depth entries)
  | [] => fun _ => .nil
  | .mk _ value :: more => free_append (free_expression depth value) (free_fields depth more)

theorem free_block (depth : Nat) (kind : ScopeKind) (params : List Identifier) :
    ∀ body, Free (block depth kind params body)
  | .mk body _ => fun _ =>
    .block trivial (free_of_flat (isFlat_names params) kind) (free_statements (depth + 1) body kind)

theorem free_statements (depth : Nat) : ∀ body, Free (statements depth body)
  | [] => fun _ => .nil
  | first :: more => free_append (free_statement depth first) (free_statements depth more)

theorem free_statement (depth : Nat) : ∀ value, Free (statement depth value)
  | .expression value span => free_visit span (free_expression depth value)
  | .block inner => free_visit inner.span (free_block depth .block [] inner)
  | .condition test thenBranch none span =>
    free_append
      (free_append (free_visit span (free_expression depth test))
        (free_block depth .block [] thenBranch))
      fun _ => .nil
  | .condition test thenBranch (some branch) span => by
    have hsame := free_statement depth branch
    have hdeeper := free_statement (depth + 1) branch
    have hcondition := free_append (free_visit span (free_expression depth test))
      (free_block depth .block [] thenBranch)
    cases branch with
    | block inner => exact free_append hcondition hsame
    | _ => exact free_append hcondition hdeeper
  | .forLoop item iterable body span =>
    free_append
      (free_visit span fun kind => .flat rfl trivial (free_expression depth iterable kind))
      (free_block depth .block [] body)
  | .whileLoop test body span =>
    free_append (free_visit span (free_expression depth test)) (free_block depth .block [] body)
  | .returnValue none span | .breakLoop span | .continueLoop span =>
    free_visit span fun _ => .nil
  | .returnValue (some value) span => free_visit span (free_expression depth value)
  | .functionDecl _ params body span =>
    free_visit span fun kind => .flat rfl trivial (free_block depth .function params body kind)
  | .classDecl _ parts span =>
    free_visit span fun _ => .flat rfl trivial (.classBody (free_members (depth + 1) parts _))
  | .hostDecl _ _ span => free_visit span fun _ => .flat rfl trivial .nil
  | .importDecl _ names _ span =>
    free_visit span fun kind => .flat rfl trivial (free_of_flat (isFlat_names names) kind)
  | .exportDecl declaration span => by
    have hinner := free_statement depth declaration
    cases hassign : declaration.isAssignment with
    | false =>
      rw [statement_exportDecl hassign]
      exact free_append (free_visit span (free_of_flat (isFlat_exported declaration))) hinner
    | true =>
      cases declaration with
      | expression value =>
        cases value with
        | assign target op value isLocal place =>
          exact free_append
            (free_append (free_visit span (free_of_flat (isFlat_exportTarget target place)))
              (free_visit place (free_expression depth target)))
            (free_expression depth value)
        | _ => cases hassign
      | _ => cases hassign
  | .guarded inner test span =>
    free_append (free_visit span (free_expression depth test)) fun _ =>
      .guarded (free_statement (depth + 1) inner _)

theorem free_members (depth : Nat) : ∀ parts, Free (members depth parts)
  | [] => fun _ => .nil
  | first :: more => free_append (free_member depth first) (free_members depth more)

theorem free_member (depth : Nat) : ∀ part, Free (member depth part)
  | .field _ value span => free_visit span (free_expression depth value)
  | .method _ params body span => free_visit span (free_block depth .function params body)

end

theorem nested_program (program : Program) :
    Nested (fun _ _ => True) .function (Walk.program program) :=
  free_visit program.span (free_statements 0 program.body) .function

end Walk

namespace ScopeTree

variable {tree : ScopeTree} {steps : List Step} {id : ScopeId}

/-! ### Runs -/

theorem change_step (tree : ScopeTree) (step : Step) : tree.Change (tree.step step) := by
  cases step with
  | visit span => exact tree.change_self
  | enter opening => exact .opened opening.kind
  | exit => exact .closed
  | declare name kind place => exact tree.change_declare name kind place
  | assign name place isLocal => exact tree.change_assign name place isLocal
  | publish name span =>
    simp only [step]
    split
    · exact tree.change_self
    · exact tree.change_declare name .variable span.first
  | host name kind => exact .hosts _
  | seek source span => exact tree.change_self
  | refuse error => exact tree.change_self

theorem wellFormed_step (hwell : tree.WellFormed) (step : Step) : (tree.step step).WellFormed :=
  (tree.change_step step).wellFormed hwell

theorem wellFormed_run (hwell : tree.WellFormed) (steps : List Step) :
    (tree.run steps).WellFormed := by
  induction steps generalizing tree with
  | nil => exact hwell
  | cons step steps ih => exact ih (wellFormed_step hwell step)

theorem grows_run (hwell : tree.WellFormed) (steps : List Step) : tree.Grows (tree.run steps) := by
  induction steps generalizing tree with
  | nil => exact .refl tree
  | cons step steps ih =>
    exact ((tree.change_step step).grows hwell).trans (ih (wellFormed_step hwell step))

/-- A scope off the way outwards is left alone for good. -/
theorem scope?_run_of_not_mem_path (hwell : tree.WellFormed) (hid : id < tree.size)
    (hoff : id ∉ tree.path tree.current) (steps : List Step) :
    (tree.run steps).scope? id = tree.scope? id := by
  induction steps generalizing tree with
  | nil => rfl
  | cons step steps ih =>
    have hchange := tree.change_step step
    have hsize := Nat.lt_of_lt_of_le hid (hchange.grows hwell).size_le
    rw [run_cons, ih (hchange.wellFormed hwell) hsize (hchange.not_mem_path hwell hid hoff),
      hchange.scope?_of_not_mem_path hwell hid hoff]

theorem current_step_of_isFlat {step : Step} (hflat : step.isFlat = true) :
    (tree.step step).current = tree.current := by
  cases step with
  | enter opening => cases hflat
  | exit => cases hflat
  | assign name place isLocal =>
    simp only [step, assign]
    split
    · split <;> rfl
    · split <;> rfl
  | publish name span =>
    simp only [step]
    split <;> rfl
  | _ => rfl

/-- Well-nested steps end in the scope in which they begin. -/
theorem current_run {allowed : ScopeKind → Step → Prop} {kind : ScopeKind}
    (hnested : Nested allowed kind steps) (hwell : tree.WellFormed) :
    (tree.run steps).current = tree.current := by
  induction hnested generalizing tree with
  | nil => rfl
  | flat hflat _ _ ih =>
    rw [run_cons, ih (wellFormed_step hwell _), current_step_of_isFlat hflat]
  | @scope kind opening body more _ _ _ ihbody ihmore =>
    have hopen := wellFormed_step hwell (.enter opening)
    have hbody := wellFormed_run hopen body
    have hcurrent : ((tree.step (.enter opening)).run body).current = tree.size := ihbody hopen
    rw [run_cons, run_append, run_cons, ihmore (wellFormed_step hbody .exit)]
    exact (grows_run hopen body).current_exit hcurrent

/-- Well-nested steps have closed what they opened: no scope that is newer than the tree in which
    they begin is on the way outwards when they end. -/
theorem not_mem_path_run {allowed : ScopeKind → Step → Prop} {kind : ScopeKind}
    (hnested : Nested allowed kind steps) (hwell : tree.WellFormed) (hold : tree.size ≤ id) :
    id ∉ (tree.run steps).path (tree.run steps).current := by
  intro hmem
  have hafter := wellFormed_run hwell steps
  have hle := hafter.le_of_mem_path hafter.current_lt hmem
  rw [current_run hnested hwell] at hle
  exact Nat.not_lt_of_le (Nat.le_trans hold hle) hwell.current_lt

end ScopeTree

namespace ScopeIndex

variable {index : ScopeIndex}

theorem wellFormed_step (hwell : index.tree.WellFormed) (step : Step) :
    (index.step step).tree.WellFormed := by
  rw [tree_step]
  exact ScopeTree.wellFormed_step hwell step

theorem wellFormed_run (hwell : index.tree.WellFormed) (steps : List Step) :
    (index.run steps).tree.WellFormed := by
  rw [tree_run]
  exact ScopeTree.wellFormed_run hwell steps

theorem grows_run (hwell : index.tree.WellFormed) (steps : List Step) :
    index.tree.Grows (index.run steps).tree := by
  rw [tree_run]
  exact ScopeTree.grows_run hwell steps

end ScopeIndex

end KaLang
