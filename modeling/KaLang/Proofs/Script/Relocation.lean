import KaLang.Proofs.Script.Pass
import KaLang.Proofs.Syntax.Relocation

/-!
The script of a program that is put elsewhere. Places go into the scopes and into errors, and
nothing that is decided on the way looks at them: a pass over the relocated program does to the
relocated scopes what the pass over the program does to the scopes, and writes the same text
(`Emitter.Relocates`).
-/

namespace KaLang

variable (r : Relocation)

/-! ### Scopes -/

/-- The symbol with the place of its binding changed. -/
def Symbol.relocate (symbol : Symbol) : Symbol :=
  { symbol with definedAt := r.first symbol.definedAt }

/-- The scope with the places of its symbols changed. -/
def Scope.relocate (scope : Scope) : Scope :=
  { scope with symbols := scope.symbols.map (Symbol.relocate r) }

/-- The scopes with the places of their symbols changed. -/
def ScopeTree.relocate (tree : ScopeTree) : ScopeTree :=
  { tree with newestFirst := tree.newestFirst.map (Scope.relocate r) }

theorem Symbol.relocate_put (symbols : List Symbol) (symbol : Symbol) :
    (put symbols symbol).map (relocate r) = put (symbols.map (relocate r)) (symbol.relocate r) := by
  induction symbols with
  | nil => rfl
  | cons other more ih =>
    have hother : (other.relocate r).name = other.name := rfl
    have hsymbol : (symbol.relocate r).name = symbol.name := rfl
    simp only [put, List.map_cons, hother, hsymbol]
    split
    · rfl
    · rw [List.map_cons, ih]

namespace Scope

variable (scope : Scope)

@[simp] theorem get?_relocate (name : String) :
    (scope.relocate r).get? name = (scope.get? name).map (Symbol.relocate r) := by
  simp only [get?, relocate, List.find?_map]
  rfl

@[simp] theorem hoistedNames_relocate : (scope.relocate r).hoistedNames = scope.hoistedNames := by
  simp only [hoistedNames, relocate, List.filter_map, List.map_map]
  rfl

theorem relocate_bind (symbol : Symbol) :
    (scope.bind symbol).relocate r = (scope.relocate r).bind (symbol.relocate r) := by
  simp only [bind, relocate, Symbol.relocate_put]

end Scope

namespace ScopeTree

variable (tree : ScopeTree)

@[simp] theorem size_relocate : (tree.relocate r).size = tree.size := by
  simp [size, relocate]

@[simp] theorem scope?_relocate (id : ScopeId) :
    (tree.relocate r).scope? id = (tree.scope? id).map (Scope.relocate r) := by
  simp only [scope?, relocate, List.find?_map]
  rfl

@[simp] theorem chainFrom_relocate (id : ScopeId) :
    (tree.relocate r).chainFrom id = (tree.chainFrom id).map (Scope.relocate r) :=
  Scope.chain_map tree.newestFirst (Scope.relocate r) (fun _ => rfl) (fun _ => rfl) id

@[simp] theorem isSome_lookup_relocate (name : String) :
    ((tree.relocate r).lookup name).isSome = (tree.lookup name).isSome := by
  simp only [lookup, lookupFrom, chainFrom_relocate]
  change ((List.findSome? _ ((tree.chainFrom tree.current).map (Scope.relocate r))).isSome) = _
  induction tree.chainFrom tree.current with
  | nil => rfl
  | cons scope more ih =>
    simp only [List.map_cons, List.findSome?_cons, Scope.get?_relocate]
    cases scope.get? name with
    | none => exact ih
    | some symbol => rfl

@[simp] theorem functionScope_relocate : (tree.relocate r).functionScope = tree.functionScope := by
  simp only [functionScope, chainFrom_relocate, List.find?_map]
  change (Option.map (Scope.relocate r) ((tree.chainFrom tree.current).find?
    fun scope => scope.kind = .function)).elim 0 Scope.id = _
  cases (tree.chainFrom tree.current).find? fun scope => scope.kind = .function <;> rfl

@[simp] theorem hostKind?_relocate (name : String) :
    (tree.relocate r).hostKind? name = tree.hostKind? name := rfl

theorem relocate_enter (kind : ScopeKind) :
    (tree.enter kind).relocate r = (tree.relocate r).enter kind := by
  simp [enter, relocate, size, Scope.relocate]

theorem relocate_exit : tree.exit.relocate r = (tree.relocate r).exit := by
  have hcurrent : (tree.relocate r).scope? (tree.relocate r).current =
      (tree.scope? tree.current).map (Scope.relocate r) := scope?_relocate ..
  unfold exit
  rw [hcurrent]
  cases tree.scope? tree.current with
  | none => rfl
  | some scope => cases hparent : scope.parent <;> simp [Scope.relocate, hparent, relocate]

theorem relocate_bindIn (id : ScopeId) (symbol : Symbol) :
    (tree.bindIn id symbol).relocate r = (tree.relocate r).bindIn id (symbol.relocate r) := by
  simp only [bindIn, relocate, List.map_map, ScopeTree.mk.injEq, and_self, and_true]
  refine List.map_congr_left fun scope _ => ?_
  simp only [Function.comp_apply]
  split
  · next hid => rw [if_pos (show (scope.relocate r).id = id from hid), Scope.relocate_bind]
  · next hid => rw [if_neg (show ¬ (scope.relocate r).id = id from hid)]

theorem relocate_declare (name : String) (kind : SymbolKind) (place : Position) :
    (tree.declare name kind place).relocate r =
      (tree.relocate r).declare name kind (r.first place) :=
  relocate_bindIn r tree tree.current ⟨name, kind, place, false⟩

theorem relocate_declareParams (params : List Identifier) :
    (tree.declareParams params).relocate r =
      (tree.relocate r).declareParams (params.map (Identifier.relocate r)) := by
  unfold declareParams
  induction params generalizing tree with
  | nil => rfl
  | cons param params ih =>
    rw [List.foldl_cons, ih, relocate_declare, List.map_cons, List.foldl_cons]
    rfl

/-- Whether an assignment binds its name, and where, depends on no place. -/
theorem relocate_assign (name : String) (place : Position) (isLocal : Bool) :
    (tree.assign name place isLocal).relocate r =
      (tree.relocate r).assign name (r.first place) isLocal := by
  have hown : ((tree.relocate r).scope? (tree.relocate r).current).bind (fun s => s.get? name) =
      ((tree.scope? tree.current).bind fun s => s.get? name).map (Symbol.relocate r) := by
    rw [scope?_relocate]
    change ((tree.scope? tree.current).map (Scope.relocate r)).bind (fun s => s.get? name) = _
    cases tree.scope? tree.current <;> simp
  unfold assign
  cases isLocal with
  | true =>
    simp only [↓reduceIte, hown]
    cases (tree.scope? tree.current).bind fun s => s.get? name with
    | none => exact relocate_bindIn r tree tree.current _
    | some symbol =>
      obtain ⟨_, _, _, hoisted⟩ := symbol
      cases hoisted with
      | true => exact relocate_bindIn r tree tree.current _
      | false => rfl
  | false =>
    simp only [Bool.false_eq_true, ↓reduceIte, hostKind?_relocate, isSome_lookup_relocate,
      functionScope_relocate]
    split
    · rfl
    · exact relocate_bindIn r tree tree.functionScope _

theorem declarations_relocate (id : ScopeId) :
    Emitter.declarations (tree.relocate r) id = Emitter.declarations tree id := by
  unfold Emitter.declarations
  rw [scope?_relocate]
  cases tree.scope? id <;> simp

end ScopeTree

/-- What a pass has built, with the places in its scopes changed. -/
def Session.relocate (session : Session) : Session :=
  { session with tree := session.tree.relocate r }

namespace Emitter

/-! ### Passes -/

/-- The end of a pass, with places changed in its scopes and its error. -/
def relocated {α : Type} :
    EStateM.Result CompileError Session α → EStateM.Result CompileError Session α
  | .ok value session => .ok value (session.relocate r)
  | .error error session => .error (error.relocate r) (session.relocate r)

/-- Whether the second emitter does with relocated scopes what the first does with the scopes. -/
def Relocates {α : Type} (first second : Emitter α) : Prop :=
  ∀ session, second.run (session.relocate r) = relocated r (first.run session)

variable {r}

namespace Relocates

variable {α β : Type} {first second : Emitter α} {next later : α → Emitter β}

theorem pure (value : α) : Relocates r (Pure.pure value) (Pure.pure value) := fun _ => rfl

theorem throw (error : CompileError) :
    Relocates r (MonadExcept.throw error : Emitter α) (MonadExcept.throw (error.relocate r)) :=
  fun _ => rfl

theorem bind (hfirst : Relocates r first second)
    (hnext : ∀ value, Relocates r (next value) (later value)) :
    Relocates r (first >>= next) (second >>= later) := by
  intro session
  have hsession := hfirst session
  simp only [EStateM.run, Bind.bind, EStateM.bind] at hsession ⊢
  rw [hsession]
  cases first session with
  | ok value middle => exact hnext value middle
  | error error middle => rfl

theorem map {change : α → β} (hfirst : Relocates r first second) :
    Relocates r (do return change (← first)) (do return change (← second)) :=
  hfirst.bind fun value => pure (change value)

theorem ite {c : Prop} [Decidable c] {more others : Emitter α} (hthen : Relocates r first second)
    (helse : Relocates r more others) :
    Relocates r (if c then first else more) (if c then second else others) := by
  split
  · exact hthen
  · exact helse

theorem onTree {change other : ScopeTree → ScopeTree}
    (hchange : ∀ tree, (change tree).relocate r = other (tree.relocate r)) :
    Relocates r (Emitter.onTree change) (Emitter.onTree other) := by
  intro session
  exact congrArg (fun tree => EStateM.Result.ok () (Session.mk tree session.probes))
    (hchange session.tree).symm

/-- What is done with the scopes may look at them, but not at the places in them. -/
theorem query {next later : ScopeTree → Emitter β}
    (hnext : ∀ tree, Relocates r (next tree) (later (tree.relocate r))) :
    Relocates r (do next (← tree)) (do later (← tree)) :=
  fun session => hnext session.tree session

theorem probe (files : String → Bool) (path : String) :
    Relocates r (Emitter.probe files path) (Emitter.probe files path) := fun _ => rfl

theorem inScope {kind : ScopeKind} {params : List Identifier} {first second : Emitter (List Layout)}
    (hbody : Relocates r first second) :
    Relocates r (Emitter.inScope kind params first)
      (Emitter.inScope kind (params.map (Identifier.relocate r)) second) := by
  refine query fun tree => ?_
  rw [ScopeTree.size_relocate]
  refine (onTree fun tree => ?_).bind fun _ => hbody.bind fun lines => query fun closed => ?_
  · rw [ScopeTree.relocate_declareParams, ScopeTree.relocate_enter]
  · rw [ScopeTree.declarations_relocate]
    exact (onTree (ScopeTree.relocate_exit r)).map

theorem bindTarget (target : Expression) (place : Position) (isLocal : Bool) :
    Relocates r (Emitter.bindTarget target place isLocal)
      (Emitter.bindTarget (target.relocate r) (r.first place) isLocal) := by
  unfold Emitter.bindTarget
  rw [Expression.name?_relocate]
  cases target.name? with
  | none => exact pure ()
  | some name => exact onTree fun tree => tree.relocate_assign r name place isLocal

theorem moduleSpecifier {env : Environment} (source : List Identifier) (span : Span) :
    Relocates r (Emitter.moduleSpecifier env source span)
      (Emitter.moduleSpecifier env (source.map (Identifier.relocate r)) (span.relocate r)) := by
  unfold Emitter.moduleSpecifier
  cases env.files with
  | none => exact throw _
  | some files =>
    simp only [List.map_map, Function.comp_def, Identifier.name_relocate]
    exact (probe files _).map

end Relocates

@[simp] theorem row_relocate (names : List Identifier) :
    Identifier.row (names.map (Identifier.relocate r)) = Identifier.row names := by
  simp [Identifier.row, Function.comp_def]

@[simp] theorem isNumber_relocate (e : Expression) : isNumber (e.relocate r) = isNumber e := by
  cases e <;> rfl

@[simp] theorem isLambda_relocate (e : Expression) : isLambda (e.relocate r) = isLambda e := by
  cases e <;> rfl

@[simp] theorem methodName_relocate (name : MethodName) :
    methodName (name.relocate r) = methodName name := by
  cases name <;> rfl

@[simp] theorem isDeclaration_relocate (value : Statement) :
    isDeclaration (value.relocate r) = isDeclaration value := by
  cases value with
  | condition _ _ branch => cases branch <;> rfl
  | returnValue value => cases value <;> rfl
  | _ => rfl

@[simp] theorem isAssignment_relocate (value : Statement) :
    (value.relocate r).isAssignment = value.isAssignment := by
  cases value with
  | expression value => cases value <;> rfl
  | condition _ _ branch => cases branch <;> rfl
  | returnValue value => cases value <;> rfl
  | _ => rfl

variable (env : Environment)

mutual

theorem relocates_expression (depth : Nat) : ∀ value : Expression,
    Relocates r (expression env depth value) (expression env depth (value.relocate r))
  | .string _ _ | .number _ _ | .name _ _ => .pure _
  | .array items _ => (relocates_expressions (depth + 1) items).map
  | .object entries _ => (relocates_fields (depth + 1) entries).map
  | .property owner key _ => by
    simp only [Expression.relocate, expression, isNumber_relocate, Identifier.name_relocate]
    exact (relocates_expression depth owner).map
  | .assign target op value isLocal span => by
    have hvalue := relocates_expression depth value
    simp only [Expression.relocate, expression, Expression.path?_relocate]
    refine (Relocates.bindTarget target span.first isLocal).bind fun _ => ?_
    cases target.path? with
    | none =>
      rw [Expression.span_relocate]
      exact .throw _
    | some path => exact hvalue.map
  | .binary left op right _ =>
    (relocates_expression depth left).bind fun _ =>
      (relocates_expression depth right).bind fun _ => .ite (.pure _) (.pure _)
  | .unary _ operand _ => (relocates_expression depth operand).map
  | .lambda params body _ => by
    simp only [Expression.relocate, expression, signature, row_relocate]
    exact relocates_block depth _ .function params body
  | .call callee arguments _ => by
    simp only [Expression.relocate, expression, isLambda_relocate]
    exact (relocates_expression depth callee).bind fun _ =>
      (relocates_expressions depth arguments).map
  | .construct callee arguments _ => by
    simp only [Expression.relocate, expression, Expression.isAssignable_relocate]
    exact (relocates_expression depth callee).bind fun _ =>
      (relocates_expressions depth arguments).map

theorem relocates_expressions (depth : Nat) : ∀ items : List Expression,
    Relocates r (expressions env depth items)
      (expressions env depth (Expression.relocateAll r items))
  | [] => .pure []
  | item :: more =>
    (relocates_expression depth item).bind fun _ => (relocates_expressions depth more).map

theorem relocates_fields (depth : Nat) : ∀ entries : List Field,
    Relocates r (fields env depth entries) (fields env depth (Field.relocateAll r entries))
  | [] => .pure []
  | .mk _ value :: more =>
    (relocates_expression depth value).bind fun _ => (relocates_fields depth more).map

theorem relocates_block (depth : Nat) (head : Layout) (kind : ScopeKind)
    (params : List Identifier) : ∀ body : Block,
    Relocates r (block env depth head kind params body)
      (block env depth head kind (params.map (Identifier.relocate r)) (body.relocate r))
  | .mk body _ => (Relocates.inScope (relocates_statements (depth + 1) body)).map

theorem relocates_statements (depth : Nat) : ∀ body : List Statement,
    Relocates r (statements env depth body)
      (statements env depth (Statement.relocateAll r body))
  | [] => .pure []
  | first :: more =>
    (relocates_statement depth first).bind fun _ => (relocates_statements depth more).map

theorem relocates_statement (depth : Nat) : ∀ value : Statement,
    Relocates r (statement env depth value) (statement env depth (value.relocate r))
  | .expression value _ => (relocates_expression depth value).map
  | .block inner => (relocates_block depth _ .block [] inner).map
  | .condition test thenBranch none _ =>
    (relocates_expression depth test).bind fun _ =>
      (relocates_block depth _ .block [] thenBranch).map
  | .condition test thenBranch (some branch) _ => by
    have htest := relocates_expression depth test
    have hthen := fun head => relocates_block depth head .block [] thenBranch
    have hdeeper := relocates_statement (depth + 1) branch
    -- Only a block stays on the level of the condition.
    cases branch with
    | block inner =>
      exact htest.bind fun _ => (hthen _).bind fun _ =>
        (relocates_block depth _ .block [] inner).map
    | condition _ _ other =>
      cases other <;> exact htest.bind fun _ => (hthen _).bind fun _ => hdeeper.map
    | returnValue value =>
      cases value <;> exact htest.bind fun _ => (hthen _).bind fun _ => hdeeper.map
    | _ => exact htest.bind fun _ => (hthen _).bind fun _ => hdeeper.map
  | .forLoop item iterable body span =>
    (Relocates.onTree fun tree => tree.relocate_assign r item.name span.first false).bind fun _ =>
      (relocates_expression depth iterable).bind fun _ =>
        (relocates_block depth _ .block [] body).map
  | .whileLoop test body _ =>
    (relocates_expression depth test).bind fun _ => (relocates_block depth _ .block [] body).map
  | .returnValue none _ | .breakLoop _ | .continueLoop _ => .pure _
  | .returnValue (some value) _ => (relocates_expression depth value).map
  | .functionDecl name params body span => by
    simp only [Statement.relocate, statement, signature, row_relocate, Identifier.name_relocate]
    exact (Relocates.onTree fun tree => tree.relocate_declare r name.name .function span.first).bind
      fun _ => (relocates_block depth _ .function params body).map
  | .classDecl name parts span =>
    (Relocates.onTree fun tree => by
      rw [ScopeTree.relocate_enter, ScopeTree.relocate_declare]
      rfl).bind fun _ => (relocates_members (depth + 1) parts).bind fun _ =>
        (Relocates.onTree (ScopeTree.relocate_exit r)).map
  | .hostDecl name kind _ =>
    have hhost (tree : ScopeTree) : (tree.declareHost name.name kind).relocate r =
        (tree.relocate r).declareHost name.name kind := rfl
    (Relocates.onTree hhost).map
  | .importDecl source names kind span => by
    have hbinding : importBinding kind (names.map (Identifier.relocate r)) =
        importBinding kind names := by
      cases kind <;> simp [importBinding]
    simp only [Statement.relocate, statement, hbinding]
    exact (Relocates.moduleSpecifier source span).bind fun _ =>
      (Relocates.onTree fun tree => tree.relocate_declareParams r names).map
  | .exportDecl declaration _ => by
    simp only [Statement.relocate, statement, isDeclaration_relocate]
    exact .ite (relocates_statement depth declaration).map (relocates_exported depth declaration)
  | .guarded inner test _ =>
    (relocates_expression depth test).bind fun _ =>
      (Relocates.inScope (relocates_statement (depth + 1) inner)).map

theorem relocates_exported (depth : Nat) (declaration : Statement) :
    Relocates r (exported env depth declaration) (exported env depth (declaration.relocate r)) := by
  cases hassign : declaration.isAssignment with
  | false =>
    rw [exported_eq_throw hassign, exported_eq_throw (by rwa [isAssignment_relocate]),
      Statement.span_relocate]
    exact .throw _
  | true =>
    cases declaration with
    | expression value =>
      cases value with
      | assign target op value isLocal span =>
        have hvalue := relocates_expression depth value
        simp only [Statement.relocate, Expression.relocate, exported, Expression.name?_relocate]
        cases target.name? with
        | none =>
          rw [Expression.span_relocate]
          exact .throw _
        | some name =>
          refine .query fun tree => ?_
          rw [ScopeTree.isSome_lookup_relocate]
          refine .ite (.throw _) ?_
          exact (Relocates.onTree fun tree =>
            tree.relocate_declare r name .variable span.first).bind fun _ => hvalue.map
      | _ => cases hassign
    | _ => cases hassign

theorem relocates_members (depth : Nat) : ∀ parts : List ClassMember,
    Relocates r (members env depth parts) (members env depth (ClassMember.relocateAll r parts))
  | [] => .pure []
  | first :: more =>
    (relocates_member depth first).bind fun _ => (relocates_members depth more).map

theorem relocates_member (depth : Nat) : ∀ part : ClassMember,
    Relocates r (member env depth part) (member env depth (part.relocate r))
  | .field _ value _ => (relocates_expression depth value).map
  | .method name params body _ => by
    simp only [ClassMember.relocate, member, row_relocate, methodName_relocate]
    exact relocates_block depth _ .function params body

end

theorem relocates_program (program other : Program)
    (hbody : other.body = Statement.relocateAll r program.body) :
    Relocates r (Emitter.program env program) (Emitter.program env other) := by
  unfold Emitter.program
  rw [hbody]
  refine (relocates_statements env 0 program.body).bind fun lines => .query fun tree => ?_
  rw [ScopeTree.declarations_relocate]
  exact .pure _

end Emitter

/-- A program without its places has the same script, or no script for the same reason, and asks for
    the same files. -/
theorem Program.emit_unplaced (program : Program) (env : Environment) :
    (program.unplaced.emit env).result =
        (program.emit env).result.mapError (CompileError.relocate .nowhere) ∧
      (program.unplaced.emit env).probes = (program.emit env).probes := by
  have hbody : program.unplaced.body = Statement.relocateAll .nowhere program.body :=
    (Statement.relocateAll_eq_map .nowhere program.body).symm
  have hrun := Emitter.relocates_program env program program.unplaced hbody ⟨.start, []⟩
  change (Emitter.program env program.unplaced).run ⟨.start, []⟩ = _ at hrun
  unfold emit
  rw [hrun]
  cases (Emitter.program env program).run ⟨.start, []⟩ <;> exact ⟨rfl, rfl⟩

end KaLang
