import KaLang.Proofs.Script.Pass

/-!
The pass with its level in its state. Where `Emitter` hands the depth of a line down to the parts
of a node, a visitor raises the level where a body or brackets open and lowers it where they close.
Each visitor does what the emitter does at the depth that is the level when the visit begins, and
unless a fault ends the pass, the level is the same when the visit ends
(`Visitor.follows_statement` and its companions). So both passes over a program have the same end
(`Visitor.ends_program`).
-/

namespace KaLang

namespace Visitor

/-- What a pass has built and asked so far, and the level of the line that is being written. -/
structure State extends Session where
  level : Nat

end Visitor

/-- A step of the pass that counts levels. -/
abbrev Visitor := EStateM CompileError Visitor.State

namespace Visitor

variable {α β : Type}

/-- A step that does not look at the level. -/
def lift (emitter : Emitter α) : Visitor α := fun state =>
  match emitter.run state.toSession with
  | .ok value session => .ok value { state with toSession := session }
  | .error error session => .error error { state with toSession := session }

/-- The level of the line that is being written. -/
def level : Visitor Nat := return (← get).level

/-- Go a level deeper. -/
def raise : Visitor Unit := modify fun state => { state with level := state.level + 1 }

/-- Come back from a level. -/
def lower : Visitor Unit := modify fun state => { state with level := state.level - 1 }

/-- A part that is a level deeper. Its end is a level higher again, also if it is a fault. -/
def deeper (visitor : Visitor α) : Visitor α := fun state =>
  match visitor.run { state with level := state.level + 1 } with
  | .ok value after => .ok value { after with level := after.level - 1 }
  | .error error after => .error error { after with level := after.level - 1 }

/-- The lines of a body with a scope of its own, a level deeper: the declarations of the scope
    before all else. A fault in the body leaves the scope open and the level raised. -/
def inScope (kind : ScopeKind) (params : List Identifier) (body : Visitor (List Layout)) :
    Visitor (List Layout) := do
  raise
  let id := (← lift Emitter.tree).size
  lift (Emitter.onTree fun tree => (tree.enter kind).declareParams params)
  let lines ← body
  let declared := Emitter.declarations (← lift Emitter.tree) id
  lift (Emitter.onTree ScopeTree.exit)
  lower
  return declared ++ lines

open Emitter (declarations signature methodName applied assigned inParentheses inParenthesesIf array
  object expressionLine importBinding isNumber isLambda isDeclaration)

mutual

/-- Visit an expression. -/
def expression (env : Environment) : Expression → Visitor Layout
  | .string value _ => return .ofText (Literal.template value)
  | .number text _ => return .ofText text
  | .name text _ => return .ofText text
  | .array items _ => do
    let codes ← deeper (expressions env items)
    return array (← level) codes
  | .object entries _ => do
    let codes ← deeper (fields env entries)
    return object (← level) codes
  | .property owner key _ => do
    let code ← expression env owner
    return inParenthesesIf (isNumber owner) code ++ .ofText ("." ++ key.name)
  | .assign target op value isLocal span => do
    lift (Emitter.bindTarget target span.first isLocal)
    match target.path? with
    | none => throw (.emitting .invalidTarget target.span)
    | some path =>
      let code ← expression env value
      return .ofText (path ++ " = ") ++ assigned path op code
  | .binary left op right _ => do
    let leftCode ← expression env left
    let rightCode ← expression env right
    if op = .member then return leftCode ++ .ofText "[" ++ rightCode ++ .ofText "]"
    else return applied (Preamble.binaryKey op) [leftCode, rightCode]
  | .unary op operand _ => return applied (Preamble.unaryKey op) [← expression env operand]
  | .lambda params body _ => block env (signature "" params) .function params body
  | .call callee arguments _ => do
    let code ← expression env callee
    let args ← expressions env arguments
    return inParenthesesIf (isLambda callee) code ++ inParentheses (Layout.row args)
  | .construct callee arguments _ => do
    let code ← expression env callee
    let args ← expressions env arguments
    return .ofText "new " ++ inParenthesesIf (!callee.isAssignable) code ++
      inParentheses (Layout.row args)

/-- Visit expressions in a row. -/
def expressions (env : Environment) : List Expression → Visitor (List Layout)
  | [] => return []
  | item :: more => do
    let code ← expression env item
    return code :: (← expressions env more)

/-- Visit the fields of an object. -/
def fields (env : Environment) : List Field → Visitor (List Layout)
  | [] => return []
  | .mk key value :: more => do
    let code ← expression env value
    return (.ofText (Literal.key key ++ ": ") ++ code) :: (← fields env more)

/-- Visit a block behind its head, in a scope of its own. The braces are on the level of the
    head. -/
def block (env : Environment) (head : Layout) (kind : ScopeKind) (params : List Identifier) :
    Block → Visitor Layout
  | .mk body _ => do
    let lines ← inScope kind params (statements env body)
    return Layout.braced (← level) head lines

/-- Visit statements in a row. -/
def statements (env : Environment) : List Statement → Visitor (List Layout)
  | [] => return []
  | first :: more => do
    let lines ← statement env first
    return lines ++ (← statements env more)

/-- Visit a statement. A condition in the alternative of another one is a level deeper. -/
def statement (env : Environment) : Statement → Visitor (List Layout)
  | .expression value _ => return [expressionLine (← expression env value)]
  | .block inner => return [← block env [] .block [] inner]
  | .condition test thenBranch elseBranch _ => do
    let code ← expression env test
    let head := .ofText "if (" ++ code ++ .ofText ") "
    let thenCode ← block env head .block [] thenBranch
    match elseBranch with
    | none => return [thenCode]
    | some (.block inner) =>
      return [thenCode ++ .ofText " " ++ (← block env (.ofText "else ") .block [] inner)]
    | some branch =>
      let lines ← deeper (statement env branch)
      return [thenCode ++ .ofText " " ++ Layout.braced (← level) (.ofText "else ") lines]
  | .forLoop item iterable body span => do
    lift (Emitter.onTree fun tree => tree.assign item.name span.first false)
    let code ← expression env iterable
    let head := .ofText ("for (" ++ item.name ++ " of ") ++ code ++ .ofText ") "
    return [← block env head .block [] body]
  | .whileLoop test body _ => do
    let code ← expression env test
    return [← block env (.ofText "while (" ++ code ++ .ofText ") ") .block [] body]
  | .returnValue none _ => return [.ofText "return;"]
  | .returnValue (some value) _ => do
    let code ← expression env value
    return [.ofText "return " ++ code ++ .ofText ";"]
  | .breakLoop _ => return [.ofText "break;"]
  | .continueLoop _ => return [.ofText "continue;"]
  | .functionDecl name params body span => do
    lift (Emitter.onTree fun tree => tree.declare name.name .function span.first)
    return [← block env (signature (" " ++ name.name) params) .function params body]
  | .classDecl name parts span => do
    lift (Emitter.onTree fun tree =>
      (tree.declare name.name .classType span.first).enter .classBody)
    raise
    let lines ← members env parts
    lower
    lift (Emitter.onTree ScopeTree.exit)
    return [Layout.braced (← level) (.ofText ("class " ++ name.name ++ " ")) lines]
  | .hostDecl name kind _ => do
    lift (Emitter.onTree fun tree => tree.declareHost name.name kind)
    return []
  | .importDecl source names kind span => do
    let specifier ← lift (Emitter.moduleSpecifier env source span)
    lift (Emitter.onTree fun tree => tree.declareParams names)
    return [.ofText
      ("import " ++ importBinding kind names ++ " from \"" ++ specifier ++ "\";")]
  | .exportDecl declaration _ => do
    if isDeclaration declaration then
      let lines ← statement env declaration
      return lines.map fun line => .ofText "export " ++ line
    else exported env declaration
  | .guarded inner test _ => do
    let code ← expression env test
    let lines ← inScope .block [] (statement env inner)
    return [Layout.braced (← level) (.ofText "if (" ++ code ++ .ofText ") ") lines]

/-- Visit an exported assignment, which declares its name. Nothing else is exported here. -/
def exported (env : Environment) : Statement → Visitor (List Layout)
  | .expression (.assign target op value _ span) _ =>
    match target.name? with
    | none => throw (.emitting .unexportable target.span)
    | some name => do
      if ((← lift Emitter.tree).lookup name).isSome then throw (.emitting .exportAfterUse span)
      else
        lift (Emitter.onTree fun tree => tree.declare name .variable span.first)
        let code ← expression env value
        return [.ofText ("export let " ++ name ++ " = ") ++ assigned name op code ++ .ofText ";"]
  | other => throw (.emitting .unexportable other.span)

/-- Visit the members of a class. -/
def members (env : Environment) : List ClassMember → Visitor (List Layout)
  | [] => return []
  | first :: more => do
    let line ← member env first
    return line :: (← members env more)

/-- Visit a member of a class. -/
def member (env : Environment) : ClassMember → Visitor Layout
  | .field name value _ => do
    let code ← expression env value
    return .ofText (name.name ++ " = ") ++ code ++ .ofText ";"
  | .method name params body _ =>
    let head := .ofText (methodName name ++ "(" ++ Identifier.row params ++ ") ")
    block env head .function params body

end

/-- Visit a program, whose lines are on the level where the pass begins. -/
def program (env : Environment) (program : Program) : Visitor (List Layout) := do
  let lines ← statements env program.body
  return declarations (← lift Emitter.tree) 0 ++ lines

/-! ### Visits and emitters -/

/-- How a visit ends that begins on a level, where the emitter ends in a given way: in the same way,
    and on the same level unless it is a fault. -/
inductive Ends (level : Nat) :
    EStateM.Result CompileError Session α → EStateM.Result CompileError State α → Prop where
  | ok (value : α) (session : Session) : Ends level (.ok value session) (.ok value ⟨session, level⟩)
  | error (error : CompileError) (session : Session) (stopped : Nat) :
      Ends level (.error error session) (.error error ⟨session, stopped⟩)

/-- Whether a visitor does on every level what the emitter for that depth does. -/
def Follows (visitor : Visitor α) (emitter : Nat → Emitter α) : Prop :=
  ∀ session level, Ends level ((emitter level).run session) (visitor.run ⟨session, level⟩)

namespace Follows

variable {visitor : Visitor α} {emitter : Nat → Emitter α} {next : α → Visitor β}
  {later : Nat → α → Emitter β}

theorem pure (value : Nat → α) :
    Follows (do return value (← level)) fun depth => Pure.pure (value depth) :=
  fun session level => .ok (value level) session

theorem lift (emitter : Emitter α) : Follows (Visitor.lift emitter) fun _ => emitter := by
  intro session level
  simp only [Visitor.lift, EStateM.run]
  cases emitter session with
  | ok value after => exact .ok value after
  | error error after => exact .error error after level

theorem throw (error : CompileError) :
    Follows (MonadExcept.throw error : Visitor α) fun _ => MonadExcept.throw error :=
  fun session level => .error error session level

theorem bind (hvisitor : Follows visitor emitter)
    (hnext : ∀ value, Follows (next value) fun depth => later depth value) :
    Follows (visitor >>= next) fun depth => emitter depth >>= later depth := by
  intro session level
  have hends := hvisitor session level
  simp only [EStateM.run_bind]
  generalize (emitter level).run session = end₁, visitor.run ⟨session, level⟩ = end₂ at hends ⊢
  cases hends with
  | ok value after => exact hnext value after level
  | error error after stopped => exact .error error after stopped

/-- What is made of the outcome may depend on the level. -/
theorem map (hvisitor : Follows visitor emitter) (change : Nat → α → β) :
    Follows (do let value ← visitor; return change (← level) value)
      fun depth => do return change depth (← emitter depth) :=
  hvisitor.bind fun value => pure fun depth => change depth value

theorem deeper (hvisitor : Follows visitor emitter) :
    Follows (Visitor.deeper visitor) fun depth => emitter (depth + 1) := by
  intro session level
  have hends := hvisitor session (level + 1)
  simp only [Visitor.deeper, EStateM.run] at hends ⊢
  generalize emitter (level + 1) session = end₁, visitor ⟨session, level + 1⟩ = end₂ at hends ⊢
  cases hends with
  | ok value after => exact .ok value after
  | error error after stopped => exact .error error after (stopped - 1)

/-- Between raising the level and lowering it again, a visitor is a level deeper. -/
theorem raised (hvisitor : Follows visitor emitter) :
    Follows (do raise; let value ← visitor; lower; return value)
      fun depth => emitter (depth + 1) := by
  intro session level
  have hends := hvisitor session (level + 1)
  have hraise : raise.run ⟨session, level⟩ = .ok () ⟨session, level + 1⟩ := rfl
  simp only [EStateM.run_bind, hraise]
  generalize (emitter (level + 1)).run session = end₁, visitor.run ⟨session, level + 1⟩ = end₂
    at hends ⊢
  cases hends with
  | ok value after => exact .ok value after
  | error error after stopped => exact .error error after stopped

theorem inScope {kind : ScopeKind} {params : List Identifier} {body : Visitor (List Layout)}
    {lines : Nat → Emitter (List Layout)} (hbody : Follows body lines) :
    Follows (Visitor.inScope kind params body)
      fun depth => Emitter.inScope kind params (lines (depth + 1)) := by
  have hinside := (lift Emitter.tree).bind fun before =>
    (lift (Emitter.onTree fun tree => (tree.enter kind).declareParams params)).bind fun _ =>
      hbody.bind fun lines => (lift Emitter.tree).bind fun tree =>
        (lift (Emitter.onTree ScopeTree.exit)).map fun _ _ =>
          Emitter.declarations tree before.size ++ lines
  have hraised := hinside.raised
  simp only [bind_assoc, pure_bind] at hraised
  exact hraised

end Follows

variable (env : Environment)

theorem exported_eq_throw {declaration : Statement} (hassign : declaration.isAssignment = false) :
    exported env declaration = throw (.emitting .unexportable declaration.span) := by
  cases declaration with
  | expression value =>
    cases value with
    | assign => cases hassign
    | _ => simp only [exported]
  | _ => simp only [exported]

mutual

theorem follows_expression : ∀ value,
    Follows (expression env value) fun depth => Emitter.expression env depth value
  | .string _ _ | .number _ _ | .name _ _ => .pure fun _ => _
  | .array items _ => (follows_expressions items).deeper.map Emitter.array
  | .object entries _ => (follows_fields entries).deeper.map Emitter.object
  | .property owner _ _ => (follows_expression owner).map fun _ _ => _
  | .assign target op value isLocal span => by
    have hvalue := follows_expression value
    simp only [expression, Emitter.expression]
    refine (Follows.lift (Emitter.bindTarget target span.first isLocal)).bind fun _ => ?_
    cases target.path? with
    | none => exact .throw _
    | some path => exact hvalue.map fun _ _ => _
  | .binary left op right _ => by
    have hleft := follows_expression left
    have hright := follows_expression right
    simp only [expression, Emitter.expression]
    refine hleft.bind fun _ => hright.bind fun _ => ?_
    split
    · exact .pure fun _ => _
    · exact .pure fun _ => _
  | .unary _ operand _ => (follows_expression operand).map fun _ _ => _
  | .lambda params body _ => follows_block _ .function params body
  | .call callee arguments _ | .construct callee arguments _ =>
    (follows_expression callee).bind fun _ => (follows_expressions arguments).map fun _ _ => _

theorem follows_expressions : ∀ items,
    Follows (expressions env items) fun depth => Emitter.expressions env depth items
  | [] => .pure fun _ => []
  | item :: more =>
    (follows_expression item).bind fun code =>
      (follows_expressions more).map fun _ codes => code :: codes

theorem follows_fields : ∀ entries,
    Follows (fields env entries) fun depth => Emitter.fields env depth entries
  | [] => .pure fun _ => []
  | .mk _ value :: more =>
    (follows_expression value).bind fun _ => (follows_fields more).map fun _ _ => _

theorem follows_block (head : Layout) (kind : ScopeKind) (params : List Identifier) : ∀ body,
    Follows (block env head kind params body)
      fun depth => Emitter.block env depth head kind params body
  | .mk body _ => (follows_statements body).inScope.map fun depth => Layout.braced depth head

theorem follows_statements : ∀ body,
    Follows (statements env body) fun depth => Emitter.statements env depth body
  | [] => .pure fun _ => []
  | first :: more =>
    (follows_statement first).bind fun lines =>
      (follows_statements more).map fun _ rest => lines ++ rest

theorem follows_statement : ∀ value,
    Follows (statement env value) fun depth => Emitter.statement env depth value
  | .expression value _ => (follows_expression value).map fun _ _ => _
  | .block inner => (follows_block [] .block [] inner).map fun _ _ => _
  | .condition test thenBranch none _ =>
    (follows_expression test).bind fun _ => (follows_block _ .block [] thenBranch).map fun _ _ => _
  | .condition test thenBranch (some branch) _ => by
    have htest := follows_expression test
    have hthen := fun head => follows_block head .block [] thenBranch
    have hbranch := follows_statement branch
    -- Only a block stays on the level of the condition.
    cases branch with
    | block inner =>
      exact htest.bind fun _ => (hthen _).bind fun _ =>
        (follows_block _ .block [] inner).map fun _ _ => _
    | _ => exact htest.bind fun _ => (hthen _).bind fun _ => hbranch.deeper.map fun _ _ => _
  | .forLoop item iterable body span =>
    (Follows.lift (Emitter.onTree fun tree => tree.assign item.name span.first false)).bind
      fun _ => (follows_expression iterable).bind fun _ =>
        (follows_block _ .block [] body).map fun _ _ => _
  | .whileLoop test body _ =>
    (follows_expression test).bind fun _ => (follows_block _ .block [] body).map fun _ _ => _
  | .returnValue none _ | .breakLoop _ | .continueLoop _ => .pure fun _ => _
  | .returnValue (some value) _ => (follows_expression value).map fun _ _ => _
  | .functionDecl name params body span =>
    (Follows.lift (Emitter.onTree fun tree => tree.declare name.name .function span.first)).bind
      fun _ => (follows_block _ .function params body).map fun _ _ => _
  | .classDecl name parts span => by
    have hparts := (follows_members parts).raised.bind fun lines =>
      (Follows.lift (Emitter.onTree ScopeTree.exit)).map fun depth _ =>
        [Layout.braced depth (.ofText ("class " ++ name.name ++ " ")) lines]
    simp only [bind_assoc, pure_bind] at hparts
    exact (Follows.lift (Emitter.onTree fun tree =>
      (tree.declare name.name .classType span.first).enter .classBody)).bind fun _ => hparts
  | .hostDecl name kind _ =>
    (Follows.lift (Emitter.onTree fun tree => tree.declareHost name.name kind)).map fun _ _ => []
  | .importDecl source names _ span =>
    (Follows.lift (Emitter.moduleSpecifier env source span)).bind fun _ =>
      (Follows.lift (Emitter.onTree fun tree => tree.declareParams names)).map fun _ _ => _
  | .exportDecl declaration _ => by
    have hdeclaration := follows_statement declaration
    have hexported := follows_exported declaration
    simp only [statement, Emitter.statement]
    split
    · exact hdeclaration.map fun _ lines => lines.map fun line => .ofText "export " ++ line
    · exact hexported
  | .guarded inner test _ =>
    (follows_expression test).bind fun _ => (follows_statement inner).inScope.map fun _ _ => _

theorem follows_exported (declaration : Statement) :
    Follows (exported env declaration) fun depth => Emitter.exported env depth declaration := by
  cases hassign : declaration.isAssignment with
  | false =>
    simp only [exported_eq_throw env hassign, Emitter.exported_eq_throw hassign]
    exact .throw _
  | true =>
    cases declaration with
    | expression value =>
      cases value with
      | assign target op value =>
        have hvalue := follows_expression value
        simp only [exported, Emitter.exported]
        cases target.name? with
        | none => exact .throw _
        | some name =>
          refine (Follows.lift Emitter.tree).bind fun tree => ?_
          split
          · exact .throw _
          · exact (Follows.lift _).bind fun _ => hvalue.map fun _ _ => _
      | _ => cases hassign
    | _ => cases hassign

theorem follows_members : ∀ parts,
    Follows (members env parts) fun depth => Emitter.members env depth parts
  | [] => .pure fun _ => []
  | first :: more =>
    (follows_member first).bind fun line =>
      (follows_members more).map fun _ lines => line :: lines

theorem follows_member : ∀ part,
    Follows (member env part) fun depth => Emitter.member env depth part
  | .field _ value _ => (follows_expression value).map fun _ _ => _
  | .method _ params body _ => follows_block _ .function params body

end

/-- Both passes over a program have the same end. -/
theorem ends_program (program : Program) (session : Session) :
    Ends 0 ((Emitter.program env program).run session)
      ((Visitor.program env program).run ⟨session, 0⟩) :=
  ((follows_statements env program.body).bind fun lines =>
    (Follows.lift Emitter.tree).map fun _ tree => Emitter.declarations tree 0 ++ lines) session 0

end Visitor

end KaLang
