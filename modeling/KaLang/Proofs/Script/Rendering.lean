import KaLang.Proofs.Scope.Assigned
import KaLang.Proofs.Script.Declarations
import KaLang.Proofs.Syntax.Formed

/-!
What is written for every node. A rendering relates nodes to layouts, and it is closed if the pass
never leaves it: whatever is written for the parts of a node in one of the ways that the pass has,
the relation carries over to the node (`Emitter.Rendering.Closed`, with a clause for each way). So
the whole script of a program is related to its statements, with declarations of hoisted names at
the top of every body (`Program.declared_of_emit`), and no instance needs an induction over the pass
of its own.
-/

namespace KaLang

/-! ### Hoisted names -/

/-- Whether all names that are hoisted in a tree are of a kind. -/
def ScopeTree.HoistsOnly (named : String → Prop) (tree : ScopeTree) : Prop :=
  ∀ name, tree.Hoists name → named name

namespace ScopeTree.HoistsOnly

variable {named : String → Prop} {tree : ScopeTree}

theorem start : ScopeTree.start.HoistsOnly named := by
  rintro name ⟨scope, hscope, hname⟩
  rw [List.mem_singleton.mp hscope] at hname
  cases hname

theorem run (htree : tree.HoistsOnly named) {steps : List Step}
    (hsteps : ∀ name ∈ Walk.assigned steps, named name) : (tree.run steps).HoistsOnly named :=
  fun name hhoists => (hoists_run hhoists).elim (htree name) (hsteps name)

theorem step (htree : tree.HoistsOnly named) (step : Step)
    (hstep : ∀ name, step.assigned? = some name → named name) :
    (tree.step step).HoistsOnly named :=
  fun name hhoists => (hoists_step hhoists).elim (htree name) (hstep name)

theorem assign (htree : tree.HoistsOnly named) {name : String} (hname : named name)
    (place : Position) (isLocal : Bool) : (tree.assign name place isLocal).HoistsOnly named :=
  htree.step (.assign name place isLocal) (by rintro _ ⟨⟩; exact hname)

theorem declare (htree : tree.HoistsOnly named) (name : String) (kind : SymbolKind)
    (place : Position) : (tree.declare name kind place).HoistsOnly named :=
  htree.step (.declare name kind place) nofun

theorem declareHost (htree : tree.HoistsOnly named) (name : String) (kind : HostKind) :
    (tree.declareHost name kind).HoistsOnly named :=
  htree.step (.host name kind) nofun

theorem declareParams (htree : tree.HoistsOnly named) (params : List Identifier) :
    (tree.declareParams params).HoistsOnly named := by
  rw [← run_names]
  exact htree.run (by simp [Walk.assigned_names])

theorem enter (htree : tree.HoistsOnly named) (kind : ScopeKind) :
    (tree.enter kind).HoistsOnly named :=
  htree.step (.enter ⟨kind, 0, [], []⟩) nofun

theorem exit (htree : tree.HoistsOnly named) : tree.exit.HoistsOnly named := htree.step .exit nofun

end ScopeTree.HoistsOnly

namespace Emitter

/-! ### Renderings -/

/-- What is asked of nodes and of hoisted names, and how the layouts that are written are related to
    nodes: the code of an expression, the lines in the braces of a block, those of a statement, and
    the line of a member of a class. -/
structure Rendering where
  held : Node → Prop
  named : String → Prop
  code : Expression → Layout → Prop
  body : Block → List Layout → Prop
  lines : Statement → List Layout → Prop
  part : ClassMember → Layout → Prop

namespace Rendering

/-- A field of an object: its key with the code of its value. -/
inductive Entry (r : Rendering) : Field → Layout → Prop where
  | mk {key : String} {value : Expression} {code : Layout} (hcode : r.code value code) :
      Entry r (.mk key value) (.ofText (Literal.key key ++ ": ") ++ code)

/-- The lines of statements in a row. -/
inductive Row (r : Rendering) : List Statement → List Layout → Prop where
  | nil : Row r [] []
  | cons {first : Statement} {more : List Statement} {lines rest : List Layout}
      (hlines : r.lines first lines) (hrest : Row r more rest) :
      Row r (first :: more) (lines ++ rest)

/-- Lines with declarations of hoisted names ahead of them. -/
inductive Declared (r : Rendering) (shown : List Layout → Prop) : List Layout → Prop where
  | mk {names : List String} {lines : List Layout} (hnames : ∀ name ∈ names, r.named name)
      (hlines : shown lines) : Declared r shown (names.map Layout.letLine ++ lines)

/-- The lines in the braces of an alternative: a block has its own, and any other statement is put
    into some. -/
inductive Alternative (r : Rendering) : Statement → List Layout → Prop where
  | block {inner : Block} {lines : List Layout} (hlines : r.body inner lines) :
      Alternative r (.block inner) lines
  | other {branch : Statement} {lines : List Layout} (hbranch : branch.isBlock = false)
      (hlines : r.lines branch lines) : Alternative r branch lines

/-- Whether the relations carry over to a node from its parts in all ways in which the pass writes
    it. -/
structure Closed (r : Rendering) : Prop where
  -- Names are hoisted by assignments and by loops.
  assigned : ∀ {text op value isLocal place span},
    (Node.expression (.assign (.name text place) op value isLocal span)).Every r.held →
      r.named text
  iterated : ∀ {item iterable body span},
    (Node.statement (.forLoop item iterable body span)).Every r.held → r.named item.name
  string : ∀ value span, r.code (.string value span) (.ofText (Literal.template value))
  number : ∀ {text span}, (Node.expression (.number text span)).Every r.held →
    r.code (.number text span) (.ofText text)
  name : ∀ {text span}, (Node.expression (.name text span)).Every r.held →
    r.code (.name text span) (.ofText text)
  array : ∀ depth {items span codes}, List.Forall₂ r.code items codes →
    r.code (.array items span) (array depth codes)
  object : ∀ depth {entries span codes}, List.Forall₂ r.Entry entries codes →
    r.code (.object entries span) (object depth codes)
  property : ∀ {owner key span code},
    (Node.expression (.property owner key span)).Every r.held → r.code owner code →
      r.code (.property owner key span)
        (inParenthesesIf (isNumber owner) code ++ .ofText ("." ++ key.name))
  assign : ∀ {target op value isLocal span path code},
    (Node.expression (.assign target op value isLocal span)).Every r.held →
      target.path? = some path → r.code value code →
        r.code (.assign target op value isLocal span)
          (.ofText (path ++ " = ") ++ Emitter.assigned path op code)
  computed : ∀ {left right span code key}, r.code left code → r.code right key →
    r.code (.binary left .member right span) (code ++ .ofText "[" ++ key ++ .ofText "]")
  binary : ∀ {left op right span first second}, op ≠ .member → r.code left first →
    r.code right second →
      r.code (.binary left op right span) (applied (Preamble.binaryKey op) [first, second])
  unary : ∀ {op operand span code}, r.code operand code →
    r.code (.unary op operand span) (applied (Preamble.unaryKey op) [code])
  lambda : ∀ depth {params body span lines},
    (Node.expression (.lambda params body span)).Every r.held → r.body body lines →
      r.code (.lambda params body span) (Layout.braced depth (signature "" params) lines)
  call : ∀ {callee arguments span code args}, r.code callee code →
    List.Forall₂ r.code arguments args →
      r.code (.call callee arguments span)
        (inParenthesesIf (isLambda callee) code ++ inParentheses (Layout.row args))
  construct : ∀ {callee arguments span code args}, r.code callee code →
    List.Forall₂ r.code arguments args →
      r.code (.construct callee arguments span)
        (.ofText "new " ++ inParenthesesIf (!callee.isAssignable) code ++
          inParentheses (Layout.row args))
  body : ∀ {statements span lines}, r.Declared (r.Row statements) lines →
    r.body (.mk statements span) lines
  expression : ∀ {value span code}, r.code value code →
    r.lines (.expression value span) [expressionLine code]
  block : ∀ depth {inner lines}, r.body inner lines →
    r.lines (.block inner) [Layout.braced depth [] lines]
  condition : ∀ depth {test thenBranch span code lines}, r.code test code →
    r.body thenBranch lines →
      r.lines (.condition test thenBranch none span)
        [Layout.braced depth (.ofText "if (" ++ code ++ .ofText ") ") lines]
  otherwise : ∀ depth {test thenBranch branch span code lines others}, r.code test code →
    r.body thenBranch lines → r.Alternative branch others →
      r.lines (.condition test thenBranch (some branch) span)
        [Layout.braced depth (.ofText "if (" ++ code ++ .ofText ") ") lines ++ .ofText " " ++
          Layout.braced depth (.ofText "else ") others]
  forLoop : ∀ depth {item iterable body span code lines},
    (Node.statement (.forLoop item iterable body span)).Every r.held → r.code iterable code →
      r.body body lines →
        r.lines (.forLoop item iterable body span)
          [Layout.braced depth (.ofText ("for (" ++ item.name ++ " of ") ++ code ++ .ofText ") ")
            lines]
  whileLoop : ∀ depth {test body span code lines}, r.code test code → r.body body lines →
    r.lines (.whileLoop test body span)
      [Layout.braced depth (.ofText "while (" ++ code ++ .ofText ") ") lines]
  returnNothing : ∀ span, r.lines (.returnValue none span) [.ofText "return;"]
  returnValue : ∀ {value span code}, r.code value code →
    r.lines (.returnValue (some value) span) [.ofText "return " ++ code ++ .ofText ";"]
  breakLoop : ∀ span, r.lines (.breakLoop span) [.ofText "break;"]
  continueLoop : ∀ span, r.lines (.continueLoop span) [.ofText "continue;"]
  functionDecl : ∀ depth {name params body span lines},
    (Node.statement (.functionDecl name params body span)).Every r.held → r.body body lines →
      r.lines (.functionDecl name params body span)
        [Layout.braced depth (signature (" " ++ name.name) params) lines]
  classDecl : ∀ depth {name parts span lines},
    (Node.statement (.classDecl name parts span)).Every r.held →
      List.Forall₂ r.part parts lines →
        r.lines (.classDecl name parts span)
          [Layout.braced depth (.ofText ("class " ++ name.name ++ " ")) lines]
  hostDecl : ∀ name kind span, r.lines (.hostDecl name kind span) []
  importDecl : ∀ found {source names kind span},
    (Node.statement (.importDecl source names kind span)).Every r.held →
      r.lines (.importDecl source names kind span)
        [.ofText ("import " ++ importBinding kind names ++ " from \"" ++
          ModulePath.specifier (source.map Identifier.name) found ++ "\";")]
  exportDecl : ∀ {declaration span lines}, r.lines declaration lines →
    r.lines (.exportDecl declaration span) (lines.map fun line => .ofText "export " ++ line)
  exportAssign : ∀ {text place op value isLocal inner outer span code},
    (Node.expression (.assign (.name text place) op value isLocal inner)).Every r.held →
      r.code value code →
        r.lines (.exportDecl (.expression (.assign (.name text place) op value isLocal inner) outer)
            span)
          [.ofText ("export let " ++ text ++ " = ") ++ Emitter.assigned text op code ++ .ofText ";"]
  guarded : ∀ depth {inner test span code lines}, r.code test code →
    r.Declared (r.lines inner) lines →
      r.lines (.guarded inner test span)
        [Layout.braced depth (.ofText "if (" ++ code ++ .ofText ") ") lines]
  field : ∀ {name value span code}, (Node.member (.field name value span)).Every r.held →
    r.code value code →
      r.part (.field name value span) (.ofText (name.name ++ " = ") ++ code ++ .ofText ";")
  method : ∀ depth {name params body span lines},
    (Node.member (.method name params body span)).Every r.held → r.body body lines →
      r.part (.method name params body span)
        (Layout.braced depth
          (.ofText (methodName name ++ "(" ++ Identifier.row params ++ ") ")) lines)

/-! ### One property of all layouts -/

/-- The rendering that asks the same of all layouts, whatever they are written for. -/
def uniform (held : Node → Prop) (named : String → Prop) (wanted : Layout → Prop) : Rendering where
  held := held
  named := named
  code _ code := wanted code
  body _ lines := ∀ line ∈ lines, wanted line
  lines _ lines := ∀ line ∈ lines, wanted line
  part _ line := wanted line

section Uniform

variable {held : Node → Prop} {named : String → Prop} {wanted : Layout → Prop}

theorem forall_mem_codes {items : List Expression} {codes : List Layout}
    (hcodes : List.Forall₂ (uniform held named wanted).code items codes) :
    ∀ code ∈ codes, wanted code := by
  induction hcodes with
  | nil => exact List.forall_mem_nil _
  | cons hcode _ ih => exact List.forall_mem_cons.mpr ⟨hcode, ih⟩

theorem forall_mem_entries
    (hfield : ∀ key {code}, wanted code → wanted (.ofText (Literal.key key ++ ": ") ++ code))
    {entries : List Field} {codes : List Layout}
    (hcodes : List.Forall₂ (uniform held named wanted).Entry entries codes) :
    ∀ code ∈ codes, wanted code := by
  induction hcodes with
  | nil => exact List.forall_mem_nil _
  | cons hentry _ ih =>
    cases hentry with
    | mk hcode => exact List.forall_mem_cons.mpr ⟨hfield _ hcode, ih⟩

theorem forall_mem_row {body : List Statement} {lines : List Layout}
    (hlines : (uniform held named wanted).Row body lines) : ∀ line ∈ lines, wanted line := by
  induction hlines with
  | nil => exact List.forall_mem_nil _
  | cons hlines _ ih => exact List.forall_mem_append.mpr ⟨hlines, ih⟩

theorem forall_mem_parts {parts : List ClassMember} {lines : List Layout}
    (hlines : List.Forall₂ (uniform held named wanted).part parts lines) :
    ∀ line ∈ lines, wanted line := by
  induction hlines with
  | nil => exact List.forall_mem_nil _
  | cons hline _ ih => exact List.forall_mem_cons.mpr ⟨hline, ih⟩

theorem forall_mem_declared (hletLine : ∀ name, named name → wanted (.letLine name))
    {shown : List Layout → Prop} {lines : List Layout}
    (hshown : ∀ {lines}, shown lines → ∀ line ∈ lines, wanted line)
    (hlines : (uniform held named wanted).Declared shown lines) : ∀ line ∈ lines, wanted line := by
  cases hlines with
  | mk hnames hlines =>
    have hdeclared := List.forall_mem_map.mpr fun name hname => hletLine name (hnames name hname)
    exact List.forall_mem_append.mpr ⟨hdeclared, hshown hlines⟩

theorem forall_mem_alternative {branch : Statement} {lines : List Layout}
    (hlines : (uniform held named wanted).Alternative branch lines) :
    ∀ line ∈ lines, wanted line := by
  cases hlines with
  | block hlines => exact hlines
  | other _ hlines => exact hlines

end Uniform

end Rendering

/-! ### The pass -/

/-- Whether a pass that ends well builds what is asked for, and hoists names of a kind alone. -/
def Carries {α : Type} (named : String → Prop) (emitter : Emitter α) (asked : α → Prop) : Prop :=
  ∀ before value after, before.tree.HoistsOnly named → emitter.run before = .ok value after →
    after.tree.HoistsOnly named ∧ asked value

variable {α β : Type} {env : Environment}

namespace Carries

variable {named : String → Prop} {emitter : Emitter α} {asked : α → Prop} {next : α → Emitter β}
  {wanted : β → Prop}

theorem pure {value : α} (hvalue : asked value) : Carries named (Pure.pure value) asked := by
  intro before other after htree hrun
  cases hrun
  exact ⟨htree, hvalue⟩

theorem fault (error : CompileError) : Carries named (throw error : Emitter α) asked := by
  intro before value after _ hrun
  cases hrun

theorem imp {claimed : α → Prop} (hemitter : Carries named emitter asked)
    (himp : ∀ value, asked value → claimed value) : Carries named emitter claimed := by
  intro before value after htree hrun
  exact (hemitter before value after htree hrun).imp_right (himp value)

theorem bind (hfirst : Carries named emitter asked)
    (hnext : ∀ value, asked value → Carries named (next value) wanted) :
    Carries named (emitter >>= next) wanted := by
  intro before value after htree hrun
  obtain ⟨first, middle, hrun, hrest⟩ := run_bind_eq_ok_iff.mp hrun
  obtain ⟨hmiddle, hfirst⟩ := hfirst before first middle htree hrun
  exact hnext first hfirst middle value after hmiddle hrest

theorem onTree {change : ScopeTree → ScopeTree}
    (hchange : ∀ tree, tree.HoistsOnly named → (change tree).HoistsOnly named) {more : Emitter β}
    (hmore : Carries named more wanted) :
    Carries named (do Emitter.onTree change; more) wanted := by
  intro before value after htree hrun
  obtain ⟨_, middle, hchanged, hrest⟩ := run_bind_eq_ok_iff.mp hrun
  cases hchanged
  exact hmore _ value after (hchange before.tree htree) hrest

/-- The scopes may be looked at, and may lead to a fault. -/
theorem query {next : ScopeTree → Emitter β} (hnext : ∀ tree, Carries named (next tree) wanted) :
    Carries named (do next (← tree)) wanted := by
  intro before value after htree hrun
  obtain ⟨tree, middle, hasked, hrest⟩ := run_bind_eq_ok_iff.mp hrun
  cases hasked
  exact hnext _ _ value after htree hrest

theorem moduleSpecifier (source : List Identifier) (span : Span) :
    Carries named (Emitter.moduleSpecifier env source span) fun specifier =>
      ∃ found, specifier = ModulePath.specifier (source.map Identifier.name) found := by
  unfold Emitter.moduleSpecifier
  split
  · exact fault _
  · intro before specifier after htree hrun
    cases hrun
    exact ⟨htree, _, rfl⟩

end Carries

/-- The declarations at the top of a scope are those of names that are hoisted. -/
theorem exists_declarations {named : String → Prop} {tree : ScopeTree}
    (htree : tree.HoistsOnly named) (id : ScopeId) :
    ∃ names : List String,
      declarations tree id = names.map Layout.letLine ∧ ∀ name ∈ names, named name := by
  cases hscope : tree.scope? id with
  | none => exact ⟨[], by simp [declarations, hscope], List.forall_mem_nil _⟩
  | some scope =>
    refine ⟨scope.hoistedNames, declarations_of_scope? hscope, fun name hname => ?_⟩
    exact htree name ⟨scope, ScopeTree.mem_of_scope? hscope, hname⟩

variable {r : Rendering}

theorem carries_inScope (kind : ScopeKind) (params : List Identifier) {body : Emitter (List Layout)}
    {shown : List Layout → Prop} (hbody : Carries r.named body shown) :
    Carries r.named (inScope kind params body) (r.Declared shown) := by
  intro before lines after htree hrun
  obtain ⟨inner, middle, hinner, rfl, rfl⟩ := run_inScope_eq_ok_iff.mp hrun
  obtain ⟨hmiddle, hlines⟩ := hbody _ inner middle ((htree.enter kind).declareParams params) hinner
  obtain ⟨names, hdeclared, hnames⟩ := exists_declarations hmiddle before.tree.size
  rw [hdeclared]
  exact ⟨hmiddle.exit, .mk hnames hlines⟩

theorem carries_bindTarget (hr : r.Closed) {target value : Expression} {op : AssignmentOperator}
    {isLocal : Bool} {span : Span} (place : Position)
    (hheld : (Node.expression (.assign target op value isLocal span)).Every r.held)
    {more : Emitter β} {wanted : β → Prop} (hmore : Carries r.named more wanted) :
    Carries r.named (do bindTarget target place isLocal; more) wanted := by
  cases target with
  | name text inner => exact .onTree (fun tree htree => htree.assign (hr.assigned hheld) _ _) hmore
  | _ => exact hmore

/-- A test with a block, and whatever follows the block on its last line. -/
theorem carries_condition {named : String → Prop} {depth : Nat} {test : Expression}
    {thenBranch : Block} {rest : Emitter α} {build : α → Layout} {code : Layout → Prop}
    {line : Layout → Layout → Prop} {wanted : α → Prop} {asked : List Layout → Prop}
    (htest : Carries named (expression env depth test) code)
    (hthen : ∀ head, Carries named (block env depth head .block [] thenBranch) (line head))
    (hrest : Carries named rest wanted)
    (hasked : ∀ first second value, code first →
      line (.ofText "if (" ++ first ++ .ofText ") ") second → wanted value →
        asked [second ++ .ofText " " ++ build value]) :
    Carries named (do
        let code ← expression env depth test
        let thenCode ← block env depth (.ofText "if (" ++ code ++ .ofText ") ") .block [] thenBranch
        let value ← rest
        return [thenCode ++ .ofText " " ++ build value]) asked :=
  htest.bind fun first hfirst => (hthen _).bind fun second hsecond =>
    hrest.bind fun value hvalue => .pure (hasked first second value hfirst hsecond hvalue)

/-- The line of a block: its head with its lines in braces. -/
def Rendering.Braced (r : Rendering) (depth : Nat) (inner : Block) (head line : Layout) : Prop :=
  ∃ lines, r.body inner lines ∧ line = Layout.braced depth head lines

theorem carries_exportAssign (hr : r.Closed) {depth : Nat} {target value : Expression}
    {op : AssignmentOperator} {isLocal : Bool} {inner outer span : Span}
    (hheld : (Node.expression (.assign target op value isLocal inner)).Every r.held)
    (hvalue : Carries r.named (expression env depth value) (r.code value)) :
    Carries r.named (exported env depth (.expression (.assign target op value isLocal inner) outer))
      (r.lines (.exportDecl (.expression (.assign target op value isLocal inner) outer) span)) := by
  cases target with
  | name text place =>
    simp only [exported, Expression.name?]
    refine .query fun tree => ?_
    split
    · exact .fault _
    · refine .onTree (fun tree htree => htree.declare text .variable _) ?_
      exact hvalue.bind fun code hcode => .pure (hr.exportAssign hheld hcode)
  | _ => exact .fault _

variable (env)

mutual

theorem carries_expression (hr : r.Closed) (depth : Nat) : ∀ value,
    (Node.expression value).Every r.held →
      Carries r.named (expression env depth value) (r.code value)
  | .string value span, _ => .pure (hr.string value span)
  | .number _ _, hheld => .pure (hr.number hheld)
  | .name _ _, hheld => .pure (hr.name hheld)
  | .array items _, hheld =>
    (carries_expressions hr (depth + 1) items hheld.children).bind fun _ hcodes =>
      .pure (hr.array depth hcodes)
  | .object entries _, hheld =>
    (carries_fields hr (depth + 1) entries hheld.children).bind fun _ hcodes =>
      .pure (hr.object depth hcodes)
  | .property owner key _, hheld =>
    (carries_expression hr depth owner hheld.children.head).bind fun _ hcode =>
      .pure (hr.property hheld hcode)
  | .assign target op value isLocal span, hheld => by
    refine carries_bindTarget hr span.first hheld ?_
    cases hpath : target.path? with
    | none => exact .fault _
    | some path =>
      exact (carries_expression hr depth value hheld.children.tail.head).bind fun _ hcode =>
        .pure (hr.assign hheld hpath hcode)
  | .binary left op right _, hheld => by
    refine (carries_expression hr depth left hheld.children.head).bind fun _ hleft => ?_
    refine (carries_expression hr depth right hheld.children.tail.head).bind fun _ hright => ?_
    split
    · next hop =>
      subst hop
      exact .pure (hr.computed hleft hright)
    · next hop => exact .pure (hr.binary hop hleft hright)
  | .unary op operand _, hheld =>
    (carries_expression hr depth operand hheld.children.head).bind fun _ hcode =>
      .pure (hr.unary hcode)
  | .lambda params body _, hheld =>
    (carries_block hr depth _ .function params body hheld.children.last).imp
      fun _ ⟨_, hlines, hline⟩ => hline ▸ hr.lambda depth hheld hlines
  | .call callee arguments _, hheld =>
    (carries_expression hr depth callee hheld.children.head).bind fun _ hcode =>
      (carries_expressions hr depth arguments hheld.children.tail).bind fun _ hargs =>
        .pure (hr.call hcode hargs)
  | .construct callee arguments _, hheld =>
    (carries_expression hr depth callee hheld.children.head).bind fun _ hcode =>
      (carries_expressions hr depth arguments hheld.children.tail).bind fun _ hargs =>
        .pure (hr.construct hcode hargs)

theorem carries_expressions (hr : r.Closed) (depth : Nat) : ∀ items,
    Node.EachEvery r.held (items.map .expression) →
      Carries r.named (expressions env depth items) (List.Forall₂ r.code items)
  | [], _ => .pure .nil
  | item :: more, hheld =>
    (carries_expression hr depth item hheld.head).bind fun _ hcode =>
      (carries_expressions hr depth more hheld.tail).bind fun _ hcodes => .pure (.cons hcode hcodes)

theorem carries_fields (hr : r.Closed) (depth : Nat) : ∀ entries,
    Node.EachEvery r.held ((entries.map Field.value).map .expression) →
      Carries r.named (fields env depth entries) (List.Forall₂ r.Entry entries)
  | [], _ => .pure .nil
  | .mk _ value :: more, hheld =>
    (carries_expression hr depth value hheld.head).bind fun _ hcode =>
      (carries_fields hr depth more hheld.tail).bind fun _ hcodes =>
        .pure (.cons (.mk hcode) hcodes)

theorem carries_block (hr : r.Closed) (depth : Nat) (head : Layout) (kind : ScopeKind)
    (params : List Identifier) : ∀ body, (Node.block body).Every r.held →
      Carries r.named (block env depth head kind params body) (r.Braced depth body head)
  | .mk body _, hheld =>
    (carries_inScope kind params (carries_statements hr (depth + 1) body hheld.children)).bind
      fun _ hlines => .pure ⟨_, hr.body hlines, rfl⟩

theorem carries_statements (hr : r.Closed) (depth : Nat) : ∀ body,
    Node.EachEvery r.held (body.map .statement) →
      Carries r.named (statements env depth body) (r.Row body)
  | [], _ => .pure .nil
  | first :: more, hheld =>
    (carries_statement hr depth first hheld.head).bind fun _ hlines =>
      (carries_statements hr depth more hheld.tail).bind fun _ hrest => .pure (.cons hlines hrest)

theorem carries_statement (hr : r.Closed) (depth : Nat) : ∀ value,
    (Node.statement value).Every r.held →
      Carries r.named (statement env depth value) (r.lines value)
  | .expression value _, hheld =>
    (carries_expression hr depth value hheld.children.head).bind fun _ hcode =>
      .pure (hr.expression hcode)
  | .block inner, hheld =>
    (carries_block hr depth [] .block [] inner hheld.children.head).bind
      fun _ ⟨_, hlines, hline⟩ => .pure (hline ▸ hr.block depth hlines)
  | .condition test thenBranch none _, hheld =>
    (carries_expression hr depth test hheld.children.head).bind fun _ hcode =>
      (carries_block hr depth _ .block [] thenBranch hheld.children.tail.head).bind
        fun _ ⟨_, hlines, hline⟩ => .pure (hline ▸ hr.condition depth hcode hlines)
  | .condition test thenBranch (some branch) span, hheld => by
    have hbranch : (Node.statement branch).Every r.held := hheld.children.tail.tail.head
    have hdeeper := carries_statement hr (depth + 1) branch hbranch
    have htest := carries_expression hr depth test hheld.children.head
    have hthen := fun head =>
      carries_block hr depth head .block [] thenBranch hheld.children.tail.head
    cases branch with
    | block inner =>
      refine carries_condition htest hthen
        (carries_block hr depth _ .block [] inner hbranch.children.head) ?_
      rintro first _ _ hfirst ⟨lines, hlines, rfl⟩ ⟨others, hothers, rfl⟩
      exact hr.otherwise depth hfirst hlines (.block hothers)
    | _ =>
      refine carries_condition htest hthen hdeeper ?_
      rintro first _ others hfirst ⟨lines, hlines, rfl⟩ hothers
      exact hr.otherwise depth hfirst hlines (.other rfl hothers)
  | .forLoop item iterable body span, hheld =>
    .onTree (fun tree htree => htree.assign (hr.iterated hheld) _ _)
      ((carries_expression hr depth iterable hheld.children.head).bind fun _ hcode =>
        (carries_block hr depth _ .block [] body hheld.children.tail.head).bind
          fun _ ⟨_, hlines, hline⟩ => .pure (hline ▸ hr.forLoop depth hheld hcode hlines))
  | .whileLoop test body _, hheld =>
    (carries_expression hr depth test hheld.children.head).bind fun _ hcode =>
      (carries_block hr depth _ .block [] body hheld.children.tail.head).bind
        fun _ ⟨_, hlines, hline⟩ => .pure (hline ▸ hr.whileLoop depth hcode hlines)
  | .returnValue none span, _ => .pure (hr.returnNothing span)
  | .breakLoop span, _ => .pure (hr.breakLoop span)
  | .continueLoop span, _ => .pure (hr.continueLoop span)
  | .returnValue (some value) _, hheld =>
    (carries_expression hr depth value hheld.children.head).bind fun _ hcode =>
      .pure (hr.returnValue hcode)
  | .functionDecl name params body span, hheld =>
    .onTree (fun tree htree => htree.declare name.name .function _)
      ((carries_block hr depth _ .function params body hheld.children.last).bind
        fun _ ⟨_, hlines, hline⟩ => .pure (hline ▸ hr.functionDecl depth hheld hlines))
  | .classDecl name parts span, hheld =>
    .onTree (fun tree htree => (htree.declare name.name .classType _).enter .classBody)
      ((carries_members hr (depth + 1) parts hheld.children).bind fun _ hlines =>
        .onTree (fun tree htree => htree.exit) (.pure (hr.classDecl depth hheld hlines)))
  | .hostDecl name kind span, _ =>
    .onTree (fun tree htree => htree.declareHost name.name kind)
      (.pure (hr.hostDecl name kind span))
  | .importDecl source names kind span, hheld => by
    refine (Carries.moduleSpecifier source span).bind ?_
    rintro specifier ⟨found, rfl⟩
    exact .onTree (fun tree htree => htree.declareParams names)
      (.pure (hr.importDecl found hheld))
  | .exportDecl declaration span, hheld => by
    have hheld := hheld.children.head
    have hinner := carries_statement hr depth declaration hheld
    simp only [statement]
    split
    · exact hinner.bind fun _ hlines => .pure (hr.exportDecl hlines)
    · cases hassign : declaration.isAssignment with
      | false =>
        rw [exported_eq_throw hassign]
        exact .fault _
      | true =>
        cases declaration with
        | expression value =>
          cases value with
          | assign target op value =>
            have hheld := hheld.children.head
            exact carries_exportAssign hr hheld
              (carries_expression hr depth value hheld.children.tail.head)
          | _ => cases hassign
        | _ => cases hassign
  | .guarded inner test span, hheld =>
    (carries_expression hr depth test hheld.children.tail.head).bind fun _ hcode =>
      (carries_inScope .block []
        (carries_statement hr (depth + 1) inner hheld.children.head)).bind fun _ hlines =>
          .pure (hr.guarded depth hcode hlines)

theorem carries_members (hr : r.Closed) (depth : Nat) : ∀ parts,
    Node.EachEvery r.held (parts.map .member) →
      Carries r.named (members env depth parts) (List.Forall₂ r.part parts)
  | [], _ => .pure .nil
  | first :: more, hheld =>
    (carries_member hr depth first hheld.head).bind fun _ hline =>
      (carries_members hr depth more hheld.tail).bind fun _ hlines => .pure (.cons hline hlines)

theorem carries_member (hr : r.Closed) (depth : Nat) : ∀ part,
    (Node.member part).Every r.held → Carries r.named (member env depth part) (r.part part)
  | .field _ value _, hheld =>
    (carries_expression hr depth value hheld.children.head).bind fun _ hcode =>
      .pure (hr.field hheld hcode)
  | .method _ params body _, hheld =>
    (carries_block hr depth _ .function params body hheld.children.last).imp
      fun _ ⟨_, hlines, hline⟩ => hline ▸ hr.method depth hheld hlines

end

end Emitter

/-! ### Scripts -/

/-- A closed rendering relates the statements of a program to the lines of its script. -/
theorem Program.declared_of_emit {program : Program} {env : Environment} {script : Script}
    {r : Emitter.Rendering} (hr : r.Closed)
    (hheld : Node.EachEvery r.held (program.body.map .statement))
    (hemit : (program.emit env).result = .ok script) :
    r.Declared (r.Row program.body) script.lines := by
  obtain ⟨session, hrun, _⟩ := exists_run_of_emit hemit
  obtain ⟨inner, hinner, hlines⟩ := Emitter.run_program_eq_ok_iff.mp hrun
  obtain ⟨htree, hrow⟩ := Emitter.carries_statements env hr 0 program.body hheld _ inner session
    .start hinner
  obtain ⟨names, hdeclared, hnames⟩ := Emitter.exists_declarations htree 0
  rw [hlines, hdeclared]
  exact .mk hnames hrow

/-- What a closed rendering asks of all layouts is so of every line of a script. -/
theorem Program.forall_lines_of_emit {program : Program} {env : Environment} {script : Script}
    {held : Node → Prop} {named : String → Prop} {wanted : Layout → Prop}
    (hclosed : (Emitter.Rendering.uniform held named wanted).Closed)
    (hletLine : ∀ name, named name → wanted (.letLine name))
    (hheld : Node.EachEvery held (program.body.map .statement))
    (hemit : (program.emit env).result = .ok script) : ∀ line ∈ script.lines, wanted line :=
  Emitter.Rendering.forall_mem_declared hletLine Emitter.Rendering.forall_mem_row
    (declared_of_emit hclosed hheld hemit)

end KaLang
