import KaLang.Proofs.Scope.History

/-!
What the index of a program finds at a byte offset. Every part of the walk keeps to the spans of
its own nodes (`Walk.keeps_statement` and its siblings), so the history of a program is in layers
(`ScopeIndex.recorded_ofProgram`), and the node that is found first there is the innermost one
(`ScopeIndex.scopeAtOffset?_innermost`).
-/

namespace KaLang

/-- Whether a span reaches from the start of the text or of a token to the end of a token. -/
structure Span.Bounded (tokens : List Token) (s : Span) : Prop where
  first : s.first = .zero ∨ ∃ token ∈ tokens, s.first = token.span.first
  last : ∃ token ∈ tokens, s.last = token.span.last

theorem Span.Bounded.mono {tokens more : List Token} {s : Span} (hs : s.Bounded tokens)
    (htokens : tokens ⊆ more) : s.Bounded more where
  first := hs.first.imp_right fun ⟨token, htoken, hfirst⟩ => ⟨token, htokens htoken, hfirst⟩
  last := hs.last.imp fun _ htoken => ⟨htokens htoken.1, htoken.2⟩

namespace Node

variable {tokens : List Token} {node : Node} {nodes others : List Node}

theorem Tidy.bounded (htidy : node.Tidy tokens) : node.span.Bounded tokens :=
  ⟨.inr htidy.first, htidy.last⟩

/-- Whether a node is tidy all the way down, the names of its imports included. -/
structure Settled (tokens : List Token) (node : Node) : Prop where
  proper : node.Proper tokens
  names : node.Every (ListsNames tokens)

/-- Whether nodes are settled and no two of them overlap. -/
structure Row (tokens : List Token) (nodes : List Node) : Prop where
  settled : ∀ node ∈ nodes, node.Settled tokens
  apart : nodes.Pairwise fun a b => a.span.Apart b.span

theorem Settled.row_children (hnode : node.Settled tokens) : Row tokens node.children where
  settled _ hchild := ⟨hnode.proper.child hchild, hnode.names.children _ hchild⟩
  apart := hnode.proper.tidy.apart

namespace Row

theorem only (hrow : Row tokens [node]) : node.Settled tokens :=
  hrow.settled node List.mem_cons_self

theorem left (hrow : Row tokens (nodes ++ others)) : Row tokens nodes where
  settled node hnode := hrow.settled node (List.mem_append_left others hnode)
  apart := (List.pairwise_append.mp hrow.apart).1

theorem right (hrow : Row tokens (nodes ++ others)) : Row tokens others where
  settled node hnode := hrow.settled node (List.mem_append_right nodes hnode)
  apart := (List.pairwise_append.mp hrow.apart).2.1

theorem perm (hrow : Row tokens nodes) (hperm : nodes.Perm others) : Row tokens others where
  settled node hnode := hrow.settled node (hperm.mem_iff.mpr hnode)
  apart := (hperm.pairwise_iff fun hab => Span.Apart.symm hab).mp hrow.apart

end Row

theorem row_of_stretch {rest : List Token} (hnodes : Stretch tokens rest (nodes.map .node))
    (hnames : ∀ node ∈ nodes, node.Every (ListsNames tokens)) : Row tokens nodes where
  settled node hnode := by
    have hplaced : node.Placed tokens rest := hnodes.placed _ (List.mem_map_of_mem hnode)
    exact ⟨hplaced.proper, hnames node hnode⟩
  apart := (List.pairwise_map.mp hnodes.row).imp fun hbefore => .inl hbefore

/-- The names of an import stand in a row inside it. -/
theorem Settled.row_names {source names : List Identifier} {kind : ImportKind} {span : Span}
    (hnode : (statement (.importDecl source names kind span)).Settled tokens) :
    Row tokens (names.map parameter) := by
  obtain ⟨⟨rest, hnames⟩, -⟩ := hnode.names.self
  constructor
  case settled =>
    refine List.forall_mem_map.mpr fun name hname => ?_
    have hplaced : (parameter name).Placed tokens rest :=
      placed_of_leaf (hnames.between (List.mem_map_of_mem hname)) rfl
    exact ⟨hplaced.proper, .leaf trivial rfl⟩
  case apart =>
    have hrow := List.pairwise_map.mp hnames.row
    exact List.pairwise_map.mpr (hrow.imp fun hbefore => .inl hbefore)

end Node

/-! ### Parts of a walk -/

namespace Walk

variable {tokens : List Token} {node child : Node} {nodes others : List Node}
  {steps more : List Step}

/-- Whether steps keep to the spans of some nodes, if these are in a row. -/
def Keeps (tokens : List Token) (nodes : List Node) (steps : List Step) : Prop :=
  Node.Row tokens nodes → Confined (Span.Bounded tokens) (nodes.map Node.span) steps

namespace Keeps

theorem nil : Keeps tokens [] [] := fun _ => .nil

theorem append (hsteps : Keeps tokens nodes steps) (hmore : Keeps tokens others more) :
    Keeps tokens (nodes ++ others) (steps ++ more) := by
  intro hrow
  rw [List.map_append]
  refine (hsteps hrow.left).append (hmore hrow.right) ?_
  refine List.forall_mem_map.mpr fun node hnode => List.forall_mem_map.mpr fun other hother => ?_
  exact (List.pairwise_append.mp hrow.apart).2.2 node hnode other hother

theorem perm (hsteps : Keeps tokens nodes steps) (hperm : nodes.Perm others) :
    Keeps tokens others steps := fun hrow =>
  (hsteps (hrow.perm hperm.symm)).widen fun region hregion =>
    ⟨region, (hperm.map Node.span).mem_iff.mp hregion, .refl region⟩

/-- Steps that keep to the children of a node keep to the node. -/
theorem below (hsteps : Keeps tokens node.children steps) : Keeps tokens [node] steps := by
  intro hrow
  refine (hsteps hrow.only.row_children).widen (List.forall_mem_map.mpr fun child hchild => ?_)
  exact ⟨node.span, List.mem_cons_self, hrow.only.proper.tidy.inside child hchild⟩

/-- A node is recorded ahead of its children. -/
theorem visit (hsteps : Keeps tokens node.children steps) :
    Keeps tokens [node] (.visit node.span :: steps) := by
  intro hrow
  refine (hsteps.below hrow).around hrow.only.proper.tidy.bounded ?_
  exact List.forall_mem_singleton.mpr (.refl node.span)

theorem leaf (hchildren : node.children = []) : Keeps tokens [node] [.visit node.span] :=
  visit (hchildren ▸ nil)

theorem silent {step : Step} (hsilent : step.isSilent = true)
    (hsteps : Keeps tokens nodes steps) : Keeps tokens nodes (step :: steps) :=
  fun hrow => (hsteps hrow).silent hsilent

theorem of_silent (hsilent : ∀ step ∈ steps, step.isSilent = true) : Keeps tokens [] steps := by
  induction steps with
  | nil => exact .nil
  | cons step steps ih =>
    obtain ⟨hstep, hsteps⟩ := List.forall_mem_cons.mp hsilent
    exact (ih hsteps).silent hstep

theorem enclosed {opening : Opening} (hsteps : Keeps tokens nodes steps) :
    Keeps tokens nodes (.enter opening :: steps ++ [.exit]) :=
  fun hrow => (hsteps hrow).enclosed

theorem target (target : Expression) (place : Position) (isLocal : Bool) :
    Keeps tokens [] (Walk.target target place isLocal) := by
  refine of_silent ?_
  unfold Walk.target
  cases target.name? <;> cases target.path? <;> simp [Step.isSilent]

theorem exportTarget (target : Expression) (span : Span) :
    Keeps tokens [] (Walk.exportTarget target span) := by
  refine of_silent ?_
  unfold Walk.exportTarget
  cases target.name? <;> simp [Step.isSilent]

theorem exported (declaration : Statement) : Keeps tokens [] (Walk.exported declaration) := by
  refine of_silent ?_
  unfold Walk.exported
  split <;> simp [Step.isSilent]

theorem names (names : List Identifier) :
    Keeps tokens (names.map .parameter) (Walk.names names) := by
  induction names with
  | nil => exact .nil
  | cons name names ih =>
    have hname : Keeps tokens [.parameter name]
        [.visit name.span, .declare name.name .variable name.span.first] :=
      visit (silent rfl nil)
    exact hname.append ih

/-- Parameters stand ahead of the block in which they are declared, and are recorded in it. -/
theorem block {depth : Nat} {kind : ScopeKind} {params : List Identifier} {body : List Statement}
    {span : Span} (hbody : Keeps tokens (body.map .statement) (statements (depth + 1) body)) :
    Keeps tokens (params.map .parameter ++ [.block (.mk body span)])
      (Walk.block depth kind params (.mk body span)) := by
  intro hrow
  have hblock := hrow.right.only
  have hapart : ∀ param ∈ params.map Node.parameter, param.span.Apart span := fun param hparam =>
    (List.pairwise_append.mp hrow.apart).2.2 param hparam _ List.mem_cons_self
  have hinside : ∀ child ∈ body.map Node.statement, child.span.Inside span :=
    hblock.proper.tidy.inside
  have hparts := (Keeps.names params hrow.left).append (hbody hblock.row_children) <|
    List.forall_mem_map.mpr fun param hparam => List.forall_mem_map.mpr fun child hchild =>
      (hapart param hparam).mono (.refl _) (hinside child hchild)
  refine .enclosed (.widen (.visit hblock.proper.tidy.bounded hparts ?_) ?_)
  · refine List.forall_mem_append.mpr ⟨List.forall_mem_map.mpr fun param hparam => ?_,
      List.forall_mem_map.mpr fun child hchild => ?_⟩
    · exact .inr (hapart param hparam)
    · exact .inl (hinside child hchild)
  · have hlast : span ∈ (params.map Node.parameter ++ [Node.block (.mk body span)]).map Node.span :=
      List.mem_map.mpr ⟨_, List.mem_append_right _ List.mem_cons_self, rfl⟩
    refine List.forall_mem_cons.mpr ⟨⟨span, hlast, .refl span⟩, List.forall_mem_append.mpr
      ⟨fun region hregion => ⟨region, ?_, .refl region⟩, List.forall_mem_map.mpr fun child hchild =>
        ⟨span, hlast, hinside child hchild⟩⟩⟩
    rw [List.map_append]
    exact List.mem_append_left _ hregion

/-- The names of an import are recorded inside it. -/
theorem importDecl {source names : List Identifier} {kind : ImportKind} {span : Span} :
    Keeps tokens [.statement (.importDecl source names kind span)]
      (.visit span :: .seek source span :: Walk.names names) := by
  intro hrow
  have hnames : Keeps tokens (names.map .parameter) (.seek source span :: Walk.names names) :=
    (Keeps.names names).silent rfl
  refine (hnames hrow.only.row_names).around hrow.only.proper.tidy.bounded ?_
  exact List.forall_mem_map.mpr (List.forall_mem_map.mpr hrow.only.names.self.2)

end Keeps

mutual

theorem keeps_expression (depth : Nat) :
    ∀ value, Keeps tokens [.expression value] (expression depth value)
  | .string _ _ | .number _ _ | .name _ _ => .leaf rfl
  | .array items _ => .visit (keeps_expressions (depth + 1) items)
  | .object entries _ => .visit (keeps_fields (depth + 1) entries)
  | .property owner _ _ => .visit (keeps_expression depth owner)
  | .assign target _ value isLocal span =>
    .visit (((Keeps.target target span.first isLocal).append (keeps_expression depth target)).append
      (keeps_expression depth value))
  | .binary left _ right _ =>
    .visit ((keeps_expression depth left).append (keeps_expression depth right))
  | .unary _ operand _ => .visit (keeps_expression depth operand)
  | .lambda params body _ => .visit (keeps_block depth .function params body)
  | .call callee arguments _ | .construct callee arguments _ =>
    .visit ((keeps_expression depth callee).append (keeps_expressions depth arguments))

theorem keeps_expressions (depth : Nat) :
    ∀ items, Keeps tokens (items.map .expression) (expressions depth items)
  | [] => .nil
  | item :: more => (keeps_expression depth item).append (keeps_expressions depth more)

theorem keeps_fields (depth : Nat) :
    ∀ entries, Keeps tokens ((entries.map Field.value).map .expression) (fields depth entries)
  | [] => .nil
  | .mk _ value :: more => (keeps_expression depth value).append (keeps_fields depth more)

theorem keeps_block (depth : Nat) (kind : ScopeKind) (params : List Identifier) :
    ∀ body, Keeps tokens (params.map .parameter ++ [.block body]) (block depth kind params body)
  | .mk body _ => .block (keeps_statements (depth + 1) body)

theorem keeps_statements (depth : Nat) :
    ∀ body, Keeps tokens (body.map .statement) (statements depth body)
  | [] => .nil
  | first :: more => (keeps_statement depth first).append (keeps_statements depth more)

theorem keeps_statement (depth : Nat) :
    ∀ value, Keeps tokens [.statement value] (statement depth value)
  | .expression value _ => .visit (keeps_expression depth value)
  | .block inner => .visit (keeps_block depth .block [] inner)
  | .condition test thenBranch none _ =>
    .visit (((keeps_expression depth test).append (keeps_block depth .block [] thenBranch)).append
      .nil)
  | .condition test thenBranch (some branch) _ => by
    have hsame := keeps_statement depth branch
    have hdeeper := keeps_statement (depth + 1) branch
    have hcondition := (keeps_expression depth test).append (keeps_block depth .block [] thenBranch)
    -- Only a block stays on the level of the condition.
    cases branch with
    | block inner => exact .visit (hcondition.append hsame)
    | _ => exact .visit (hcondition.append hdeeper)
  | .forLoop item iterable body span =>
    .visit (.silent rfl
      ((keeps_expression depth iterable).append (keeps_block depth .block [] body)))
  | .whileLoop test body _ =>
    .visit ((keeps_expression depth test).append (keeps_block depth .block [] body))
  | .returnValue none _ | .breakLoop _ | .continueLoop _ => .leaf rfl
  | .returnValue (some value) _ => .visit (keeps_expression depth value)
  | .functionDecl _ params body _ => .visit (.silent rfl (keeps_block depth .function params body))
  | .classDecl _ parts _ => .visit (.silent rfl (.enclosed (keeps_members (depth + 1) parts)))
  | .hostDecl _ _ _ => .visit (.silent rfl .nil)
  | .importDecl _ _ _ _ => .importDecl
  | .exportDecl declaration span => by
    have hinner := keeps_statement depth declaration
    cases hassign : declaration.isAssignment with
    | false =>
      rw [statement_exportDecl hassign]
      exact .visit ((Keeps.exported declaration).append hinner)
    | true =>
      cases declaration with
      | expression value inner =>
        cases value with
        | assign target op value isLocal place =>
          have hassigned : Keeps tokens [.expression (.assign target op value isLocal place)]
              (.visit place :: (expression depth target ++ expression depth value)) :=
            .visit ((keeps_expression depth target).append (keeps_expression depth value))
          have hsteps : statement depth
              (.exportDecl (.expression (.assign target op value isLocal place) inner) span) =
              .visit span :: (exportTarget target place ++
                .visit place :: (expression depth target ++ expression depth value)) := by
            simp [statement]
          rw [hsteps]
          exact .visit (.below ((Keeps.exportTarget target place).append hassigned))
        | _ => cases hassign
      | _ => cases hassign
  | .guarded inner test span =>
    .visit (.perm ((keeps_expression depth test).append
      (.enclosed (keeps_statement (depth + 1) inner))) (.swap _ _ []))

theorem keeps_members (depth : Nat) :
    ∀ parts, Keeps tokens (parts.map .member) (members depth parts)
  | [] => .nil
  | first :: more => (keeps_member depth first).append (keeps_members depth more)

theorem keeps_member (depth : Nat) : ∀ part, Keeps tokens [.member part] (member depth part)
  | .field _ value _ => .visit (keeps_expression depth value)
  | .method _ params body _ => .visit (keeps_block depth .function params body)

end

end Walk

/-! ### Programs -/

namespace Program

variable {source : String} {program : Program} {tokens all : List Token} {body : List Statement}
  {stop : Span}

/-- A program reaches to the end of its last statement, so all its statements lie inside it. -/
theorem inside_ofStatements (hbody : Stretch tokens [] ((body.map Node.statement).map .node)) :
    ∀ node ∈ body.map Node.statement, node.span.Inside (ofStatements stop body).span := by
  have hforward : ∀ statement ∈ body, statement.span.first.offset ≤ statement.span.last.offset :=
    fun statement hstatement =>
      (hbody.between (List.mem_map_of_mem (List.mem_map_of_mem hstatement))).forward
  have hrow : body.Pairwise fun a b => a.span.Before b.span := by
    simpa [List.pairwise_map, Portion.span, Node.span] using hbody.row
  refine List.forall_mem_map.mpr fun statement hstatement => ⟨Nat.zero_le _, ?_⟩
  have hend := List.getLast?_eq_some_getLast (List.ne_nil_of_mem hstatement)
  have hlast := Span.last_le_of_row hforward hrow hend statement hstatement
  simpa [ofStatements, hend, Node.span] using hlast

/-- A program starts with its text, and ends with a token if the input does. -/
theorem bounded_ofStatements (hbody : Stretch tokens [] ((body.map Node.statement).map .node))
    (htokens : tokens ⊆ all) (hstop : ∃ token ∈ all, stop.last = token.span.last) :
    (ofStatements stop body).span.Bounded all := by
  refine ⟨.inl rfl, ?_⟩
  cases hend : body.getLast? with
  | none => simpa [ofStatements, hend] using hstop
  | some statement =>
    have hmem := List.mem_map_of_mem (f := Node.statement) (List.mem_of_getLast? hend)
    obtain ⟨token, htoken, hlast⟩ := (hbody.between (List.mem_map_of_mem hmem)).last
    refine ⟨token, htokens htoken, ?_⟩
    rw [← hlast]
    simp [ofStatements, hend, Portion.span, Node.span]

end Program

namespace ScopeIndex

variable {source : String} {program : Program}

/-- All that is recorded of a program, the latest first. -/
theorem recorded_ofProgram (hread : Program.ofSource source = .ok program) :
    ∃ tokens, tokenize source = .ok tokens ∧
      empty.Recorded (Span.Bounded tokens) [program.span] (ofProgram program)
        (ofProgram program).history := by
  obtain ⟨tokens, htokens, hread⟩ := Except.bind_eq_ok_iff.mp hread
  obtain ⟨body, hreads, rfl⟩ := Program.ofTokens_eq_ok_iff.mp hread
  refine ⟨tokens, htokens, ?_⟩
  have hsublist : (programTokens tokens).Sublist tokens := List.takeWhile_sublist _
  have horder := (inOrder_of_tokenize htokens).of_sublist hsublist
  have hbody : Stretch (programTokens tokens) [] ((body.map .statement).map .node) :=
    hreads.placed horder
  obtain ⟨stop, hstop, _, hspan⟩ := Program.exists_endSpan_of_tokenize htokens
  have hbounded := Program.bounded_ofStatements hbody hsublist.subset
    ⟨stop, hstop, congrArg Span.last hspan⟩
  have hrow := Node.row_of_stretch hbody
    (hreads.every (Node.throughout_listsNames horder) horder List.suffix_rfl)
  have hstatements := (Walk.keeps_statements 0 body hrow).weaken fun _ hs =>
    hs.mono hsublist.subset
  have hprogram := hstatements.around hbounded (List.forall_mem_map.mpr
    (Program.inside_ofStatements hbody))
  obtain ⟨entries, hentries⟩ := hprogram empty ScopeTree.wellFormed_start
  have hhistory : (empty.run _).history = entries := hentries.history.trans (List.append_nil _)
  rw [ofProgram_eq_run]
  exact hhistory ▸ hentries

/-- Whether an entry is recorded of a node that covers an offset, inside every other such node and
    in a scope inside that one's scope, or in the same. -/
structure Innermost (index : ScopeIndex) (offset : Nat) (entry : Span × ScopeId) : Prop where
  recorded : entry ∈ index.history
  covers : entry.1.coversOffset offset = true
  inside : ∀ other ∈ index.history, other.1.coversOffset offset = true → entry.1.Inside other.1
  scope : ∀ other ∈ index.history, other.1.coversOffset offset = true →
    other.2 ∈ index.tree.path entry.2

/-- In a history in layers, the first entry to cover an offset is the innermost one. -/
theorem innermost_of_find? {index : ScopeIndex} {offset : Nat} {entry : Span × ScopeId}
    (hwell : index.tree.WellFormed) (hsize : ∀ entry ∈ index.history, entry.2 < index.tree.size)
    (hlayered : index.history.Pairwise index.tree.Layered)
    (hfind : index.history.find? (fun entry => entry.1.coversOffset offset) = some entry) :
    index.Innermost offset entry := by
  obtain ⟨hcovers, later, earlier, hhistory, hlater⟩ := List.find?_eq_some_iff_append.mp hfind
  have hrecorded : entry ∈ index.history := List.mem_of_find?_eq_some hfind
  have hothers : ∀ other ∈ index.history, other.1.coversOffset offset = true →
      entry.1.Inside other.1 ∧ other.2 ∈ index.tree.path entry.2 := by
    intro other hother hcover
    rw [hhistory] at hother hlayered
    rcases List.mem_append.mp hother with hother | hother
    · simpa [hcover] using hlater other hother
    · rcases List.mem_cons.mp hother with rfl | hother
      · exact ⟨.refl _, hwell.mem_path_self (hsize _ hrecorded)⟩
      · have hlayered := (List.pairwise_append.mp hlayered).2.1
        rcases (List.pairwise_cons.mp hlayered).1 other hother with hapart | hinside
        · exact absurd hcover fun hcover => hapart.not_covers hcovers hcover
        · exact hinside
  exact ⟨hrecorded, hcovers, fun other hother hcover => (hothers other hother hcover).1,
    fun other hother hcover => (hothers other hother hcover).2⟩

theorem wellFormed_ofProgram (program : Program) : (ofProgram program).tree.WellFormed := by
  rw [ofProgram_eq_run]
  exact wellFormed_run ScopeTree.wellFormed_start _

/-- Two entries that are innermost are in the same scope. -/
theorem Innermost.scope_eq {index : ScopeIndex} {offset : Nat} {a b : Span × ScopeId}
    (hwell : index.tree.WellFormed) (hsize : ∀ entry ∈ index.history, entry.2 < index.tree.size)
    (ha : index.Innermost offset a) (hb : index.Innermost offset b) : a.2 = b.2 := by
  have hle := hwell.le_of_mem_path (hsize b hb.recorded) (hb.scope a ha.recorded ha.covers)
  have hge := hwell.le_of_mem_path (hsize a ha.recorded) (ha.scope b hb.recorded hb.covers)
  exact Nat.le_antisymm hle hge

/-- At an offset that no recorded node covers nothing is found. At every other one the entry that is
    found is the innermost one that covers it, and its scope is the answer. -/
theorem scopeAtOffset?_innermost (hread : Program.ofSource source = .ok program) (offset : Nat) :
    ((ofProgram program).scopeAtOffset? offset = none ↔
      ∀ entry ∈ (ofProgram program).history, entry.1.coversOffset offset = false) ∧
    (∀ entry, (ofProgram program).history.find? (fun entry => entry.1.coversOffset offset) =
        some entry → (ofProgram program).Innermost offset entry) ∧
    ∀ id, (ofProgram program).scopeAtOffset? offset = some id ↔
      ∃ span, (ofProgram program).Innermost offset (span, id) := by
  obtain ⟨tokens, _, hrecorded⟩ := recorded_ofProgram hread
  have hwell := wellFormed_ofProgram program
  have hpicked : ∀ entry,
      (ofProgram program).history.find? (fun entry => entry.1.coversOffset offset) = some entry →
        (ofProgram program).Innermost offset entry :=
    fun _ => innermost_of_find? hwell hrecorded.size hrecorded.layered
  refine ⟨by simp [scopeAtOffset?], hpicked, fun id => ⟨fun hfound => ?_, ?_⟩⟩
  · obtain ⟨⟨span, scope⟩, hfind, rfl⟩ := Option.map_eq_some_iff.mp hfound
    exact ⟨span, hpicked _ hfind⟩
  · rintro ⟨span, hinnermost⟩
    cases hfind : (ofProgram program).history.find? fun entry => entry.1.coversOffset offset with
    | none =>
      have hnone := List.find?_eq_none.mp hfind _ hinnermost.recorded
      exact absurd hinnermost.covers hnone
    | some entry =>
      have hscope := (hpicked entry hfind).scope_eq hwell hrecorded.size hinnermost
      simp [scopeAtOffset?, hfind, hscope]

/-- Inside an object with a repeated key, in a guarded assignment, whose test is recorded first, in
    a function whose parameter is recorded after its block. -/
theorem scopeAtOffset?_innermost_guarded :
    ∃ program, Program.ofSource "function f(a) do x = \x7bk: 1, k: a\x7d if a end" = .ok program ∧
      (ofProgram program).scopeAtOffset? 28 = some 2 ∧
        ∃ span, (ofProgram program).Innermost 28 (span, 2) := by
  have hread : ∃ program, Program.ofSource "function f(a) do x = \x7bk: 1, k: a\x7d if a end" =
      .ok program ∧ (ofProgram program).scopeAtOffset? 28 = some 2 := ⟨_, by cbv, by cbv⟩
  obtain ⟨program, hread, hscope⟩ := hread
  exact ⟨program, hread, hscope, ((scopeAtOffset?_innermost hread 28).2.2 2).mp hscope⟩

end ScopeIndex

end KaLang
