import KaLang.Proofs.Scope.Opening
import KaLang.Proofs.Script.Pass
import KaLang.Proofs.Script.Part

/-!
Where the bodies of scopes stand in a script. Every scope that a pass opens, but for a class's, has
its lines in braces somewhere in what the pass builds (`Emitter.Writes`): no text is dropped on the
way from a part to the whole.
-/

namespace KaLang

/-- Whether a scope that is opened in a tree has the given lines in some pass that ends well. -/
def Opening.Emits (opening : Opening) (env : Environment) (outside : ScopeTree)
    (lines : List Layout) : Prop :=
  ∃ probes after, (Emitter.inScope opening.kind opening.params
    (Emitter.statements env (opening.depth + 1) opening.body)).run ⟨outside, probes⟩ =
      .ok lines after

namespace Emitter

variable {α β : Type} {env : Environment} {emitter : Emitter α}

theorem run_inScope_eq_ok_iff {kind : ScopeKind} {params : List Identifier}
    {body : Emitter (List Layout)} {before after : Session} {lines : List Layout} :
    (inScope kind params body).run before = .ok lines after ↔
      ∃ inner middle,
        body.run ⟨(before.tree.enter kind).declareParams params, before.probes⟩ =
          .ok inner middle ∧
        lines = declarations middle.tree before.tree.size ++ inner ∧
        after = { middle with tree := middle.tree.exit } := by
  constructor
  · intro hrun
    obtain ⟨tree, first, htree, hrun⟩ := run_bind_eq_ok_iff.mp hrun
    cases htree
    obtain ⟨_, opened, hopened, hrun⟩ := run_bind_eq_ok_iff.mp hrun
    cases hopened
    obtain ⟨inner, middle, hinner, hrun⟩ := run_bind_eq_ok_iff.mp hrun
    cases hrun
    exact ⟨inner, middle, hinner, rfl, rfl⟩
  · rintro ⟨inner, middle, hinner, rfl, rfl⟩
    refine run_bind_eq_ok_iff.mpr ⟨before.tree, before, rfl, ?_⟩
    refine run_bind_eq_ok_iff.mpr ⟨(), _, rfl, ?_⟩
    exact run_bind_eq_ok_iff.mpr ⟨inner, middle, hinner, rfl⟩

/-- Whether a pass that ends well builds only what is asked for. -/
def Yields (emitter : Emitter α) (asked : α → Prop) : Prop :=
  ∀ before value after, emitter.run before = .ok value after → asked value

namespace Yields

variable {asked : α → Prop} {next : α → Emitter β} {wanted : β → Prop}

theorem pure {value : α} (hvalue : asked value) : Yields (Pure.pure value) asked := by
  intro before other after hrun
  cases hrun
  exact hvalue

theorem fault (error : CompileError) : Yields (throw error : Emitter α) asked := by
  intro before value after hrun
  cases hrun

theorem trivial : Yields emitter fun _ => True := fun _ _ _ _ => True.intro

theorem imp {claimed : α → Prop} (hemitter : Yields emitter asked)
    (himp : ∀ value, asked value → claimed value) : Yields emitter claimed :=
  fun before value after hrun => himp value (hemitter before value after hrun)

theorem bind (hfirst : Yields emitter asked)
    (hnext : ∀ value, asked value → Yields (next value) wanted) :
    Yields (emitter >>= next) wanted := by
  intro before value after hrun
  obtain ⟨first, middle, hrun, hrest⟩ := run_bind_eq_ok_iff.mp hrun
  exact hnext first (hfirst before first middle hrun) middle value after hrest

theorem after (hnext : ∀ value, Yields (next value) wanted) : Yields (emitter >>= next) wanted :=
  trivial.bind fun value _ => hnext value

/-- Whatever is built into a result that is always as wanted. -/
theorem map {result : α → β} (hresult : ∀ value, wanted (result value)) :
    Yields (do let value ← emitter; return result value) wanted :=
  after fun value => pure (hresult value)

end Yields

/-- A block keeps its head. -/
theorem yields_block {depth : Nat} {head part : Layout} {kind : ScopeKind}
    {params : List Identifier} (body : Block) (hpart : part <:+: head) :
    Yields (block env depth head kind params body) (part <:+: ·) := by
  cases body with
  | mk body span => exact .map fun lines => Layout.infix_braced_of_head hpart depth lines

/-- Whether the body of every scope that the steps open, but for a class's, stands in braces in what
    the emitter builds. -/
def Writes (env : Environment) (emitter : Emitter α) (steps : List Step)
    (shows : Layout → α → Prop) : Prop :=
  ∀ before value after, emitter.run before = .ok value after →
    ∀ opening outside, (opening, outside) ∈ before.tree.openings steps →
      opening.kind ≠ .classBody → ∃ head lines, opening.Emits env outside lines ∧
        shows (Layout.braced opening.depth head lines) value

namespace Writes

variable {steps more : List Step} {shown : Layout → α → Prop} {next : α → Emitter β}
  {shows : Layout → β → Prop}

theorem of_flat (hflat : ∀ step ∈ steps, step.isFlat = true) : Writes env emitter steps shown := by
  intro before value after _ opening outside hmem
  rw [ScopeTree.openings_of_flat hflat] at hmem
  cases hmem

theorem pure (value : α) : Writes env (Pure.pure value) [] shown := of_flat (by simp)

theorem fault (error : CompileError) : Writes env (throw error : Emitter α) steps shown := by
  intro before value after hrun
  cases hrun

theorem visit (span : Span) (hwrites : Writes env emitter steps shown) :
    Writes env emitter (.visit span :: steps) shown := hwrites

/-- What the first part has built has to be kept by the second one. -/
theorem bind (hperforms : Performs env emitter steps) (hfirst : Writes env emitter steps shown)
    (hnext : ∀ value, Writes env (next value) more shows)
    (hkeeps : ∀ value part, shown part value → Yields (next value) (shows part)) :
    Writes env (emitter >>= next) (steps ++ more) shows := by
  intro before value after hrun opening outside hmem hkind
  obtain ⟨first, middle, hrun, hrest⟩ := run_bind_eq_ok_iff.mp hrun
  rw [ScopeTree.openings_append, ← hperforms.tree_of_run hrun] at hmem
  rcases List.mem_append.mp hmem with hmem | hmem
  · obtain ⟨head, lines, hlines, hshown⟩ :=
      hfirst before first middle hrun opening outside hmem hkind
    exact ⟨head, lines, hlines, hkeeps first _ hshown middle value after hrest⟩
  · exact hnext first middle value after hrest opening outside hmem hkind

theorem map {result : α → β} (hwrites : Writes env emitter steps shown)
    (hkeeps : ∀ value part, shown part value → shows part (result value)) :
    Writes env (do let value ← emitter; return result value) steps shows := by
  intro before value after hrun opening outside hmem hkind
  obtain ⟨first, middle, hrun, hrest⟩ := run_bind_eq_ok_iff.mp hrun
  cases hrest
  obtain ⟨head, lines, hlines, hshown⟩ := hwrites before first _ hrun opening outside hmem hkind
  exact ⟨head, lines, hlines, hkeeps first _ hshown⟩

/-- Steps that open nothing and build nothing. -/
theorem behind {before : Emitter Unit} (hperforms : Performs env before steps)
    (hflat : ∀ step ∈ steps, step.isFlat = true) (hwrites : Writes env emitter more shown) :
    Writes env (do before; emitter) (steps ++ more) shown := by
  have hnothing : Writes env before steps fun _ _ => False := of_flat hflat
  exact bind hperforms hnothing (fun _ => hwrites) fun _ _ hshown => hshown.elim

theorem step (step : Step) (hflat : step.isFlat = true) (hwrites : Writes env emitter steps shown)
    {before : Emitter Unit} (hbefore : before = perform env step) :
    Writes env (do before; emitter) (step :: steps) shown := by
  rw [hbefore]
  exact behind (Performs.single step) (by simpa using hflat) hwrites

/-- A target that may be assigned to opens nothing. -/
theorem isFlat_expression_of_path? (depth : Nat) {target : Expression} {path : String}
    (hpath : target.path? = some path) :
    ∀ step ∈ Walk.expression depth target, step.isFlat = true := by
  induction target using Expression.path?.induct generalizing path with
  | case1 text span => simp [Walk.expression, Step.isFlat]
  | case2 owner key span ih =>
    simp only [Expression.path?, Option.map_eq_some_iff] at hpath
    obtain ⟨base, hbase, _⟩ := hpath
    simpa [Walk.expression, Step.isFlat] using ih hbase
  | case3 other hname hproperty => simp [Expression.path?] at hpath

theorem target (depth : Nat) {target : Expression} {path : String}
    (hpath : target.path? = some path) (hwrites : Writes env emitter more shown) :
    Writes env emitter (Walk.expression depth target ++ more) shown := by
  have hskip := behind (Performs.expression_of_path? depth hpath)
    (isFlat_expression_of_path? depth hpath) hwrites
  rwa [pure_bind] at hskip

/-- The body is shown itself, and what is opened in it stands on one of its lines. -/
theorem inScope (opening : Opening) {head : Layout} {declared : List Step}
    {body : Emitter (List Layout)} {result : List Layout → α}
    (hbody : statements env (opening.depth + 1) opening.body = body)
    (hdeclared : Performs env (onTree fun tree => tree.declareParams opening.params) declared)
    (hflat : ∀ step ∈ declared, step.isFlat = true) (hwrites : Writes env body steps Layout.OnLine)
    (hresult : ∀ lines part, part <:+: Layout.braced opening.depth head lines →
      shown part (result lines)) :
    Writes env
      (do let lines ← Emitter.inScope opening.kind opening.params body
          return result lines)
      (.enter opening :: declared ++ steps ++ [.exit]) shown := by
  intro before value after hrun other outside hmem hkind
  obtain ⟨lines, last, hscope, hvalue⟩ := run_bind_eq_ok_iff.mp hrun
  cases hvalue
  obtain ⟨inner, middle, hinner, rfl, _⟩ := run_inScope_eq_ok_iff.mp hscope
  have hopen : (before.tree.enter opening.kind).declareParams opening.params =
      (before.tree.step (.enter opening)).run declared := by
    have hparams : (onTree fun tree => tree.declareParams opening.params).run
      ⟨before.tree.enter opening.kind, before.probes⟩ = .ok () ⟨_, before.probes⟩ := rfl
    exact hdeclared.tree_of_run hparams
  simp only [List.cons_append, List.append_assoc, ScopeTree.openings, ScopeTree.openings_append,
    ScopeTree.openings_of_flat hflat, List.mem_cons, List.mem_append] at hmem
  rcases hmem with heq | hmem | hmem | hmem
  · cases heq
    exact ⟨head, _, ⟨before.probes, _, by rw [hbody]; exact hscope⟩,
      hresult _ _ List.infix_rfl⟩
  · cases hmem
  · obtain ⟨deeper, code, hcode, hshown⟩ := hwrites _ inner middle hinner other outside
      (by rw [hopen]; exact hmem) hkind
    exact ⟨deeper, code, hcode, hresult _ _ ((hshown.append_right _).braced opening.depth head)⟩
  · cases hmem

/-- A class has no body of its own to show. -/
theorem classBody {depth : Nat} {result : α → β} (hwrites : Writes env emitter steps shown)
    (hkeeps : ∀ value part, shown part value → shows part (result value)) :
    Writes env
      (do onTree fun tree => tree.enter .classBody
          let value ← emitter
          onTree ScopeTree.exit
          return result value)
      (.enter ⟨.classBody, depth, [], []⟩ :: steps ++ [.exit]) shows := by
  intro before value after hrun opening outside hmem hkind
  obtain ⟨_, opened, hopened, hrun⟩ := run_bind_eq_ok_iff.mp hrun
  cases hopened
  obtain ⟨inner, middle, hinner, hrun⟩ := run_bind_eq_ok_iff.mp hrun
  cases hrun
  simp only [List.cons_append, ScopeTree.openings, ScopeTree.openings_append, List.mem_cons,
    List.mem_append] at hmem
  rcases hmem with heq | hmem | hmem
  · cases heq
    exact absurd rfl hkind
  · obtain ⟨head, lines, hlines, hshown⟩ := hwrites _ inner middle hinner opening outside hmem hkind
    exact ⟨head, lines, hlines, hkeeps inner _ hshown⟩
  · cases hmem

theorem assign {target : Expression} {op : AssignmentOperator} {value : Expression}
    {isLocal : Bool} {span : Span} {depth : Nat}
    (hvalue : Writes env (expression env depth value) (Walk.expression depth value) (· <:+: ·)) :
    Writes env (expression env depth (.assign target op value isLocal span))
      (Walk.expression depth (.assign target op value isLocal span)) (· <:+: ·) := by
  simp only [expression, Walk.expression, Walk.target, List.cons_append, List.append_assoc]
  refine visit span (behind (Performs.bindTarget target span.first isLocal) ?_ ?_)
  · cases target.name? <;> simp [Step.isFlat]
  · cases hpath : target.path? with
    | none => exact fault _
    | some path =>
      exact .target depth hpath (hvalue.map fun code part hpart =>
        List.infix_append_of_infix_right (infix_assigned path op hpart))

theorem exportAssign {target : Expression} {op : AssignmentOperator} {value : Expression}
    {isLocal : Bool} {place inner span : Span} {depth : Nat}
    (hvalue : Writes env (expression env depth value) (Walk.expression depth value) (· <:+: ·)) :
    Writes env
      (statement env depth
        (.exportDecl (.expression (.assign target op value isLocal place) inner) span))
      (Walk.statement depth
        (.exportDecl (.expression (.assign target op value isLocal place) inner) span))
      Layout.OnLine := by
  simp only [statement, Walk.statement, Walk.exportTarget, List.cons_append, List.append_assoc]
  refine visit span ?_
  change Writes env (exported env depth _) _ _
  cases hname : target.name? with
  | none =>
    simp only [exported, hname]
    exact fault _
  | some name =>
    rw [exported_eq_perform hname]
    refine step (.publish name place) rfl ?_ rfl
    refine visit place (.target depth (target.path?_of_name? hname) ?_)
    refine hvalue.map fun code part hpart => .singleton ?_
    exact Layout.infix_between (infix_assigned name op hpart) _ _

/-- A row of items, each of them on a line of its own. -/
theorem row (hperforms : Performs env emitter steps) (hfirst : Writes env emitter steps shown)
    {line : α → Layout} (hline : ∀ value part, shown part value → part <:+: line value)
    {rest : Emitter (List Layout)} (hrest : Writes env rest more Layout.OnLine) :
    Writes env (do
        let value ← emitter
        let lines ← rest
        return line value :: lines)
      (steps ++ more) Layout.OnLine := by
  refine hfirst.bind hperforms (fun value => ?_) fun value part hpart => ?_
  · exact hrest.map fun lines part hpart => hpart.tail (line value)
  · exact .map fun lines => ⟨line value, List.mem_cons_self, hline value part hpart⟩

/-- An expression that is applied to others. -/
theorem applied {depth : Nat} {callee : Expression} {arguments : List Expression}
    {head : Layout → Layout}
    (hcallee : Writes env (expression env depth callee) (Walk.expression depth callee) (· <:+: ·))
    (harguments : Writes env (expressions env depth arguments) (Walk.expressions depth arguments)
      Layout.OnLine)
    (hhead : ∀ code part, part <:+: code → part <:+: head code) :
    Writes env (do
        let code ← expression env depth callee
        let args ← expressions env depth arguments
        return head code ++ inParentheses (Layout.row args))
      (Walk.expression depth callee ++ Walk.expressions depth arguments) (· <:+: ·) := by
  refine hcallee.bind (performs_expression env depth callee) (fun code => ?_)
    fun code part hpart => ?_
  · refine harguments.map fun args part hpart => ?_
    exact List.infix_append_of_infix_right (infix_inParentheses (hpart.intercalate _))
  · exact .map fun args => List.infix_append_of_infix_left (hhead code part hpart)

/-- A test or what is iterated over, in the head of a block. -/
theorem headed {depth : Nat} {test : Expression} {body : Block} {ahead behind : Layout}
    (htest : Writes env (expression env depth test) (Walk.expression depth test) (· <:+: ·))
    (hbody : ∀ head, Writes env (block env depth head .block [] body)
      (Walk.block depth .block [] body) (· <:+: ·)) :
    Writes env (do
        let code ← expression env depth test
        let line ← block env depth (ahead ++ code ++ behind) .block [] body
        return [line])
      (Walk.expression depth test ++ Walk.block depth .block [] body) Layout.OnLine := by
  refine htest.bind (performs_expression env depth test) (fun code => ?_)
    fun code part hpart => ?_
  · exact (hbody _).map fun _ _ => .singleton
  · refine (yields_block body ?_).bind fun line hline => .pure (.singleton hline)
    exact Layout.infix_between hpart ahead behind

/-- A test with a block, and whatever follows the block on its last line. -/
theorem condition {depth : Nat} {test : Expression} {thenBranch : Block}
    (htest : Writes env (expression env depth test) (Walk.expression depth test) (· <:+: ·))
    (hthen : ∀ head, Writes env (block env depth head .block [] thenBranch)
      (Walk.block depth .block [] thenBranch) (· <:+: ·))
    {rest : Emitter β} {build : β → Layout} (hrest : Writes env rest more shows)
    (hbuild : ∀ value part, shows part value → part <:+: build value) :
    Writes env (do
        let code ← expression env depth test
        let thenCode ← block env depth (.ofText "if (" ++ code ++ .ofText ") ") .block [] thenBranch
        let value ← rest
        return [thenCode ++ .ofText " " ++ build value])
      (Walk.expression depth test ++ (Walk.block depth .block [] thenBranch ++ more))
      Layout.OnLine := by
  have hfirst {line part : Layout} (hpart : part <:+: line) (value : β) :
      Layout.OnLine part [line ++ Layout.ofText " " ++ build value] :=
    .singleton (List.infix_append_of_infix_left (List.infix_append_of_infix_left hpart))
  refine .bind (performs_expression env depth test) htest (fun code => ?_) fun code part hpart => ?_
  · refine .bind (performs_block env depth _ .block [] thenBranch) (hthen _) (fun line => ?_)
      fun line part hpart => .map (hfirst hpart)
    exact hrest.map fun value part hpart =>
      .singleton (List.infix_append_of_infix_right (hbuild value part hpart))
  · refine (yields_block thenBranch ?_).bind fun line hline => .map (hfirst hline)
    exact Layout.infix_between hpart _ _

theorem exportDecl {declaration : Statement} {span : Span} {depth : Nat}
    (hassign : declaration.isAssignment = false)
    (hinner : Writes env (statement env depth declaration) (Walk.statement depth declaration)
      Layout.OnLine) :
    Writes env (statement env depth (.exportDecl declaration span))
      (Walk.statement depth (.exportDecl declaration span)) Layout.OnLine := by
  rw [Walk.statement_exportDecl hassign]
  simp only [statement, Walk.exported, List.cons_append]
  refine visit span ?_
  cases hdeclares : isDeclaration declaration with
  | true =>
    refine hinner.map fun lines part hpart => ?_
    exact hpart.map fun line => List.infix_append_right
  | false =>
    rw [if_neg Bool.false_ne_true, exported_eq_throw hassign]
    exact fault _

end Writes

variable (env)

mutual

theorem writes_expression (depth : Nat) :
    ∀ value, Writes env (expression env depth value) (Walk.expression depth value) (· <:+: ·)
  | .string _ span | .number _ span | .name _ span => .visit span (.pure _)
  | .array items span => by
    refine .visit span ((writes_expressions (depth + 1) items).map fun codes part hpart => ?_)
    exact infix_array depth hpart
  | .object entries span => by
    refine .visit span ((writes_fields (depth + 1) entries).map fun codes part hpart => ?_)
    exact infix_object depth hpart
  | .property owner key span => by
    refine .visit span ((writes_expression depth owner).map fun code part hpart => ?_)
    exact List.infix_append_of_infix_left (infix_inParenthesesIf _ hpart)
  | .assign _ _ value _ _ => .assign (writes_expression depth value)
  | .binary left op right span => by
    have hright := writes_expression depth right
    refine .visit span (.bind (performs_expression env depth left) (writes_expression depth left)
      (fun leftCode => ?_) fun leftCode part hpart => ?_)
    · by_cases hop : op = .member
      · simp only [hop, ↓reduceIte]
        exact hright.map fun code part hpart => Layout.infix_between hpart _ _
      · simp only [hop, ↓reduceIte]
        exact hright.map fun code part hpart => infix_applied _ ⟨code, by simp, hpart⟩
    · by_cases hop : op = .member
      · simp only [hop, ↓reduceIte]
        exact .map fun code => List.infix_append_of_infix_left
          (List.infix_append_of_infix_left (List.infix_append_of_infix_left hpart))
      · simp only [hop, ↓reduceIte]
        exact .map fun code => infix_applied _ ⟨leftCode, by simp, hpart⟩
  | .unary _ operand span => by
    refine .visit span ((writes_expression depth operand).map fun code part hpart => ?_)
    exact infix_applied _ (.singleton hpart)
  | .lambda params body span => .visit span (writes_block depth _ .function params body)
  | .call callee arguments span => by
    refine .visit span (.applied (writes_expression depth callee)
      (writes_expressions depth arguments) fun code part hpart => ?_)
    exact infix_inParenthesesIf (isLambda callee) hpart
  | .construct callee arguments span => by
    refine .visit span (.applied (writes_expression depth callee)
      (writes_expressions depth arguments) fun code part hpart => ?_)
    exact List.infix_append_of_infix_right (infix_inParenthesesIf (!callee.isAssignable) hpart)

theorem writes_expressions (depth : Nat) :
    ∀ items, Writes env (expressions env depth items) (Walk.expressions depth items) Layout.OnLine
  | [] => .pure []
  | item :: more =>
    .row (performs_expression env depth item) (writes_expression depth item)
      (fun _ _ hpart => hpart) (writes_expressions depth more)

theorem writes_fields (depth : Nat) :
    ∀ entries, Writes env (fields env depth entries) (Walk.fields depth entries) Layout.OnLine
  | [] => .pure []
  | .mk _ value :: more =>
    .row (performs_expression env depth value) (writes_expression depth value)
      (fun _ _ hpart => List.infix_append_of_infix_right hpart) (writes_fields depth more)

theorem writes_block (depth : Nat) (head : Layout) (kind : ScopeKind) (params : List Identifier) :
    ∀ body, Writes env (block env depth head kind params body)
      (Walk.block depth kind params body) (· <:+: ·)
  | .mk body span => by
    have hflat : ∀ step ∈ .visit span :: Walk.names params, step.isFlat = true := by
      simpa [Step.isFlat] using Walk.isFlat_names params
    exact .inScope ⟨kind, depth, params, body⟩ rfl (.visit span (.names params)) hflat
      (writes_statements (depth + 1) body) fun lines part hpart => hpart

theorem writes_statements (depth : Nat) :
    ∀ body, Writes env (statements env depth body) (Walk.statements depth body) Layout.OnLine
  | [] => .pure []
  | first :: more => by
    refine .bind (performs_statement env depth first) (writes_statement depth first)
      (fun lines => ?_) fun lines part hpart => ?_
    · exact (writes_statements depth more).map fun rest part hpart => hpart.append_right lines
    · exact .map fun rest => hpart.append_left rest

theorem writes_statement (depth : Nat) :
    ∀ value, Writes env (statement env depth value) (Walk.statement depth value) Layout.OnLine
  | .expression value span => by
    refine .visit span ((writes_expression depth value).map fun code part hpart => ?_)
    exact .singleton (infix_expressionLine hpart)
  | .block inner =>
    .visit inner.span ((writes_block depth [] .block [] inner).map fun _ _ => .singleton)
  | .condition test thenBranch elseBranch span => by
    have htest := writes_expression depth test
    have hthen := fun head => writes_block depth head .block [] thenBranch
    cases elseBranch with
    | none =>
      rw [Walk.statement, List.append_nil]
      exact .visit span (.headed htest hthen)
    | some branch =>
      have hdeeper := writes_statement (depth + 1) branch
      cases branch with
      | block inner =>
        simp only [Walk.statement, List.cons_append, List.append_assoc]
        exact .visit span (.condition htest hthen
          (.visit inner.span (writes_block depth _ .block [] inner)) fun code part hpart => hpart)
      | _ =>
        simp only [Walk.statement, List.cons_append, List.append_assoc]
        exact .visit span (.condition htest hthen hdeeper fun lines part hpart =>
          hpart.braced depth _)
  | .forLoop item iterable body span => by
    have hbody := fun head => writes_block depth head .block [] body
    refine .visit span (.step (.assign item.name span.first false) rfl ?_ rfl)
    exact .headed (writes_expression depth iterable) hbody
  | .whileLoop test body span =>
    .visit span (.headed (writes_expression depth test)
      fun head => writes_block depth head .block [] body)
  | .returnValue none span | .breakLoop span | .continueLoop span => .visit span (.pure _)
  | .returnValue (some value) span => by
    refine .visit span ((writes_expression depth value).map fun code part hpart => ?_)
    exact .singleton (Layout.infix_between hpart _ _)
  | .functionDecl name params body span =>
    .visit span (.step (.declare name.name .function span.first) rfl
      ((writes_block depth _ .function params body).map fun _ _ => .singleton) rfl)
  | .classDecl name parts span => by
    refine .visit span (.step (.declare name.name .classType span.first) rfl (.classBody
      (writes_members (depth + 1) parts) fun lines part hpart => ?_) rfl)
    exact .singleton (hpart.braced depth _)
  | .hostDecl name kind span =>
    .visit span (.step (.host name.name kind) rfl (.pure []) rfl)
  | .importDecl source names kind span => by
    refine .of_flat ?_
    simpa [Walk.statement, Step.isFlat] using Walk.isFlat_names names
  | .exportDecl declaration span => by
    have hinner := writes_statement depth declaration
    cases hassign : declaration.isAssignment with
    | false => exact .exportDecl hassign hinner
    | true =>
      cases declaration with
      | expression value =>
        cases value with
        | assign target op value => exact .exportAssign (writes_expression depth value)
        | _ => cases hassign
      | _ => cases hassign
  | .guarded inner test span => by
    refine .visit span (.bind (performs_expression env depth test) (writes_expression depth test)
      (fun code => ?_) fun code part hpart => ?_)
    · refine .inScope ⟨.block, depth, [], [inner]⟩ ?_ (.pure ()) (by simp)
        (writes_statement (depth + 1) inner) fun lines part => .singleton
      simp [statements]
    · have hhead := Layout.infix_between hpart (.ofText "if (") (.ofText ") ")
      exact .map fun lines => .singleton (Layout.infix_braced_of_head hhead depth lines)

theorem writes_members (depth : Nat) :
    ∀ parts, Writes env (members env depth parts) (Walk.members depth parts) Layout.OnLine
  | [] => .pure []
  | first :: more =>
    .row (performs_member env depth first) (writes_member depth first)
      (fun _ _ hpart => hpart) (writes_members depth more)

theorem writes_member (depth : Nat) :
    ∀ part, Writes env (member env depth part) (Walk.member depth part) (· <:+: ·)
  | .field name value span => by
    refine .visit span ((writes_expression depth value).map fun code part hpart => ?_)
    exact Layout.infix_between hpart _ _
  | .method _ params body span => .visit span (writes_block depth _ .function params body)

end

end Emitter

end KaLang
