import KaLang.Proofs.Scope.Walk

/-!
No assignment is missed on the walk. The names that a program assigns to are read off its syntax,
without regard to scopes, lines and faults, and the walk meets exactly these, in the same order
(`Walk.assigned_program`). So whatever is hoisted in the end is a name that the program assigns to
(`Program.mem_assignedNames_of_hoists`).
-/

namespace KaLang

/-- The name that a step assigns to, be it exported or not. -/
def Step.assigned? : Step → Option String
  | .assign name _ _ => some name
  | .publish name _ => some name
  | _ => none

namespace Assigned

mutual

/-- The names that an expression assigns to, however deep inside it. -/
def expression : Expression → List String
  | .string _ _ | .number _ _ | .name _ _ => []
  | .array items _ => expressions items
  | .object entries _ => fields entries
  | .property owner _ _ => expression owner
  | .assign target _ value _ _ =>
    target.name?.toList ++ expression target ++ expression value
  | .binary left _ right _ => expression left ++ expression right
  | .unary _ operand _ => expression operand
  | .lambda _ body _ => block body
  | .call callee arguments _ | .construct callee arguments _ =>
    expression callee ++ expressions arguments

/-- The names that expressions in a row assign to. -/
def expressions : List Expression → List String
  | [] => []
  | item :: more => expression item ++ expressions more

/-- The names that the fields of an object assign to. -/
def fields : List Field → List String
  | [] => []
  | .mk _ value :: more => expression value ++ fields more

/-- The names that a block assigns to. -/
def block : Block → List String
  | .mk body _ => statements body

/-- The names that statements in a row assign to. -/
def statements : List Statement → List String
  | [] => []
  | first :: more => statement first ++ statements more

/-- The names that a statement assigns to. A loop assigns to its variable. -/
def statement : Statement → List String
  | .expression value _ => expression value
  | .block inner => block inner
  | .condition test thenBranch none _ => expression test ++ block thenBranch
  | .condition test thenBranch (some branch) _ =>
    expression test ++ block thenBranch ++ statement branch
  | .forLoop item iterable body _ => item.name :: expression iterable ++ block body
  | .whileLoop test body _ => expression test ++ block body
  | .returnValue none _ | .breakLoop _ | .continueLoop _ => []
  | .returnValue (some value) _ => expression value
  | .functionDecl _ _ body _ => block body
  | .classDecl _ parts _ => members parts
  | .hostDecl _ _ _ | .importDecl _ _ _ _ => []
  | .exportDecl declaration _ => statement declaration
  | .guarded inner test _ => expression test ++ statement inner

/-- The names that the members of a class assign to. -/
def members : List ClassMember → List String
  | [] => []
  | first :: more => member first ++ members more

/-- The names that a member of a class assigns to. -/
def member : ClassMember → List String
  | .field _ value _ => expression value
  | .method _ _ body _ => block body

end

end Assigned

/-- The names that a program assigns to, each as often as it does. -/
def Program.assignedNames (program : Program) : List String := Assigned.statements program.body

namespace Walk

/-- The names that steps assign to. -/
def assigned (steps : List Step) : List String := steps.filterMap Step.assigned?

@[simp] theorem assigned_nil : assigned [] = [] := rfl

@[simp] theorem assigned_cons (step : Step) (steps : List Step) :
    assigned (step :: steps) = step.assigned?.toList ++ assigned steps := by
  cases hname : step.assigned? <;> simp [assigned, hname]

@[simp] theorem assigned_append (steps more : List Step) :
    assigned (steps ++ more) = assigned steps ++ assigned more :=
  List.filterMap_append

theorem assigned_names (names : List Identifier) : assigned (Walk.names names) = [] := by
  refine List.filterMap_eq_nil_iff.mpr ?_
  simp only [Walk.names, List.mem_flatMap, List.mem_cons, List.not_mem_nil, or_false]
  rintro step ⟨name, _, rfl | rfl⟩ <;> rfl

theorem assigned_target (target : Expression) (place : Position) (isLocal : Bool) :
    assigned (Walk.target target place isLocal) = target.name?.toList := by
  unfold Walk.target
  cases target.name? <;> cases target.path? <;> rfl

theorem assigned_exportTarget (target : Expression) (span : Span) :
    assigned (exportTarget target span) = target.name?.toList := by
  unfold exportTarget
  cases target.name? <;> rfl

theorem assigned_exported (declaration : Statement) : assigned (exported declaration) = [] := by
  unfold exported
  split <;> rfl

mutual

theorem assigned_expression (depth : Nat) :
    ∀ value, assigned (expression depth value) = Assigned.expression value
  | .string _ _ | .number _ _ | .name _ _ => rfl
  | .array items _ => assigned_expressions (depth + 1) items
  | .object entries _ => assigned_fields (depth + 1) entries
  | .property owner _ _ => assigned_expression depth owner
  | .assign target _ value isLocal span => by
    have hfirst := assigned_target target span.first isLocal
    have htarget := assigned_expression depth target
    have hvalue := assigned_expression depth value
    simp [expression, Assigned.expression, Step.assigned?, hfirst, htarget, hvalue]
  | .binary left _ right _ => by
    have hleft := assigned_expression depth left
    have hright := assigned_expression depth right
    simp [expression, Assigned.expression, Step.assigned?, hleft, hright]
  | .unary _ operand _ => assigned_expression depth operand
  | .lambda params body _ => assigned_block depth .function params body
  | .call callee arguments _ | .construct callee arguments _ => by
    have hcallee := assigned_expression depth callee
    have harguments := assigned_expressions depth arguments
    simp [expression, Assigned.expression, Step.assigned?, hcallee, harguments]

theorem assigned_expressions (depth : Nat) :
    ∀ items, assigned (expressions depth items) = Assigned.expressions items
  | [] => rfl
  | item :: more => by
    rw [expressions, assigned_append, assigned_expression depth item,
      assigned_expressions depth more, Assigned.expressions]

theorem assigned_fields (depth : Nat) :
    ∀ entries, assigned (fields depth entries) = Assigned.fields entries
  | [] => rfl
  | .mk _ value :: more => by
    rw [fields, assigned_append, assigned_expression depth value, assigned_fields depth more,
      Assigned.fields]

theorem assigned_block (depth : Nat) (kind : ScopeKind) (params : List Identifier) :
    ∀ body, assigned (block depth kind params body) = Assigned.block body
  | .mk body _ => by
    have hnames := assigned_names params
    have hbody := assigned_statements (depth + 1) body
    simp [block, Assigned.block, Step.assigned?, hnames, hbody]

theorem assigned_statements (depth : Nat) :
    ∀ body, assigned (statements depth body) = Assigned.statements body
  | [] => rfl
  | first :: more => by
    rw [statements, assigned_append, assigned_statement depth first,
      assigned_statements depth more, Assigned.statements]

theorem assigned_statement (depth : Nat) :
    ∀ value, assigned (statement depth value) = Assigned.statement value
  | .expression value _ => assigned_expression depth value
  | .block inner => assigned_block depth .block [] inner
  | .condition test thenBranch none _ => by
    have htest := assigned_expression depth test
    have hthen := assigned_block depth .block [] thenBranch
    simp [statement, Assigned.statement, Step.assigned?, htest, hthen]
  | .condition test thenBranch (some branch) span => by
    have hsame := assigned_statement depth branch
    have hdeeper := assigned_statement (depth + 1) branch
    have htest := assigned_expression depth test
    have hthen := assigned_block depth .block [] thenBranch
    have hcondition : assigned
        (.visit span :: expression depth test ++ block depth .block [] thenBranch) =
          Assigned.expression test ++ Assigned.block thenBranch := by
      simp [Step.assigned?, htest, hthen]
    cases branch with
    | block inner => exact (assigned_append _ _).trans (congrArg₂ _ hcondition hsame)
    | _ => exact (assigned_append _ _).trans (congrArg₂ _ hcondition hdeeper)
  | .forLoop item iterable body _ => by
    have hiterable := assigned_expression depth iterable
    have hbody := assigned_block depth .block [] body
    simp [statement, Assigned.statement, Step.assigned?, hiterable, hbody]
  | .whileLoop test body _ => by
    have htest := assigned_expression depth test
    have hbody := assigned_block depth .block [] body
    simp [statement, Assigned.statement, Step.assigned?, htest, hbody]
  | .returnValue none _ | .breakLoop _ | .continueLoop _ => rfl
  | .returnValue (some value) _ => assigned_expression depth value
  | .functionDecl _ params body _ => assigned_block depth .function params body
  | .classDecl _ parts _ => by
    have hparts := assigned_members (depth + 1) parts
    simp [statement, Assigned.statement, Step.assigned?, hparts]
  | .hostDecl _ _ _ => rfl
  | .importDecl _ names _ _ => assigned_names names
  | .exportDecl declaration span => by
    have hinner := assigned_statement depth declaration
    cases hassign : declaration.isAssignment with
    | false =>
      have hfirst := assigned_exported declaration
      rw [statement_exportDecl hassign]
      simp [Assigned.statement, Step.assigned?, hfirst, hinner]
    | true =>
      cases declaration with
      | expression value =>
        cases value with
        | assign target op value isLocal place =>
          have hfirst := assigned_exportTarget target place
          have htarget := assigned_expression depth target
          have hvalue := assigned_expression depth value
          simp [statement, Assigned.statement, Assigned.expression, Step.assigned?, hfirst,
            htarget, hvalue]
        | _ => cases hassign
      | _ => cases hassign
  | .guarded inner test _ => by
    have htest := assigned_expression depth test
    have hinner := assigned_statement (depth + 1) inner
    simp [statement, Assigned.statement, Step.assigned?, htest, hinner]

theorem assigned_members (depth : Nat) :
    ∀ parts, assigned (members depth parts) = Assigned.members parts
  | [] => rfl
  | first :: more => by
    rw [members, assigned_append, assigned_member depth first, assigned_members depth more,
      Assigned.members]

theorem assigned_member (depth : Nat) :
    ∀ part, assigned (member depth part) = Assigned.member part
  | .field _ value _ => assigned_expression depth value
  | .method _ params body _ => assigned_block depth .function params body

end

/-- The walk over a program meets every assignment in it, in order, and no other one. -/
theorem assigned_program (program : Program) :
    assigned (Walk.program program) = program.assignedNames :=
  assigned_statements 0 program.body

end Walk

/-! ### Hoisted names -/

theorem Symbol.mem_put {symbols : List Symbol} {symbol other : Symbol}
    (hother : other ∈ put symbols symbol) : other = symbol ∨ other ∈ symbols := by
  induction symbols with
  | nil => exact Or.inl (List.mem_singleton.mp hother)
  | cons first more ih =>
    simp only [put] at hother
    split at hother
    · exact (List.mem_cons.mp hother).imp_right (List.mem_cons_of_mem first)
    · rcases List.mem_cons.mp hother with rfl | hother
      · exact Or.inr List.mem_cons_self
      · exact (ih hother).imp_right (List.mem_cons_of_mem first)

namespace ScopeTree

variable {tree : ScopeTree} {name : String}

/-- Whether some scope has a hoisted symbol of a name. -/
def Hoists (tree : ScopeTree) (name : String) : Prop :=
  ∃ scope ∈ tree.newestFirst, name ∈ scope.hoistedNames

theorem hoists_bindIn {id : ScopeId} {symbol : Symbol}
    (hhoists : (tree.bindIn id symbol).Hoists name) :
    tree.Hoists name ∨ symbol.hoisted = true ∧ symbol.name = name := by
  obtain ⟨scope, hscope, hname⟩ := hhoists
  obtain ⟨earlier, hearlier, rfl⟩ := List.mem_map.mp hscope
  split at hname
  · simp only [Scope.hoistedNames, Scope.bind, List.mem_map, List.mem_filter] at hname
    obtain ⟨own, ⟨hmem, hhoisted⟩, hown⟩ := hname
    rcases Symbol.mem_put hmem with rfl | hmem
    · exact Or.inr ⟨hhoisted, hown⟩
    · exact Or.inl ⟨earlier, hearlier, List.mem_map.mpr
        ⟨own, List.mem_filter.mpr ⟨hmem, hhoisted⟩, hown⟩⟩
  · exact Or.inl ⟨earlier, hearlier, hname⟩

/-- Only an assignment hoists a name. -/
theorem hoists_step {step : Step} (hhoists : (tree.step step).Hoists name) :
    tree.Hoists name ∨ step.assigned? = some name := by
  have hdeclare {other : String} {kind : SymbolKind} {place : Position}
      (hdeclared : (tree.declare other kind place).Hoists name) : tree.Hoists name :=
    (hoists_bindIn hdeclared).elim id fun hnew => by cases hnew.1
  cases step with
  | visit | seek | refuse | host => exact Or.inl hhoists
  | enter opening =>
    obtain ⟨scope, hscope, hname⟩ := hhoists
    rcases List.mem_cons.mp hscope with rfl | hscope
    · cases hname
    · exact Or.inl ⟨scope, hscope, hname⟩
  | exit =>
    obtain ⟨scope, hscope, hname⟩ := hhoists
    exact Or.inl ⟨scope, newestFirst_exit tree ▸ hscope, hname⟩
  | declare other kind place => exact Or.inl (hdeclare hhoists)
  | publish other span =>
    simp only [step] at hhoists
    split at hhoists
    · exact Or.inl hhoists
    · exact Or.inl (hdeclare hhoists)
  | assign other place isLocal =>
    have hbind {id : ScopeId}
        (hbound : (tree.bindIn id ⟨other, .variable, place, true⟩).Hoists name) :
        tree.Hoists name ∨ some other = some name :=
      (hoists_bindIn hbound).imp_right fun hnew => congrArg some hnew.2
    simp only [step, assign] at hhoists
    split at hhoists
    · split at hhoists
      · exact Or.inl hhoists
      · exact hbind hhoists
    · split at hhoists
      · exact Or.inl hhoists
      · exact hbind hhoists

theorem hoists_run {steps : List Step} (hhoists : (tree.run steps).Hoists name) :
    tree.Hoists name ∨ name ∈ Walk.assigned steps := by
  induction steps generalizing tree with
  | nil => exact Or.inl hhoists
  | cons step steps ih =>
    rw [Walk.assigned_cons]
    rcases ih hhoists with hstep | hmem
    · rcases hoists_step hstep with htree | hname
      · exact Or.inl htree
      · exact Or.inr (List.mem_append_left _ (by simp [hname]))
    · exact Or.inr (List.mem_append_right _ hmem)

end ScopeTree

/-- A name that is hoisted anywhere in the end is one that the program assigns to. -/
theorem Program.mem_assignedNames_of_hoists {program : Program} {name : String}
    (hhoists : (ScopeTree.start.run (Walk.program program)).Hoists name) :
    name ∈ program.assignedNames := by
  rw [← Walk.assigned_program]
  refine (ScopeTree.hoists_run hhoists).resolve_left ?_
  rintro ⟨scope, hscope, hname⟩
  rw [List.mem_singleton.mp hscope] at hname
  cases hname

end KaLang
