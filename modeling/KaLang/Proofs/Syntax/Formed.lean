import KaLang.Proofs.Syntax.Throughout

/-!
The form of parsed trees. The readers build less than the types of syntax trees allow: targets are
paths, alternatives are blocks or conditions, only the expression of a statement is marked as local,
keys are distinct, and every name and number is legible. All of this is one property of single nodes
and of what stands right below them (`Node.Formed`), which whatever is read has throughout
(`Reads.formed`).
-/

namespace KaLang

/-! ### Forms -/

/-- Whether the expression is an assignment that is marked as local. -/
def Expression.isLocal : Expression → Bool
  | assign _ _ _ isLocal _ => isLocal
  | _ => false

namespace Statement

/-- Whether the statement is a block. -/
def isBlock : Statement → Bool
  | block _ => true
  | _ => false

/-- Whether the statement has a guard. -/
def isGuarded : Statement → Bool
  | guarded _ _ _ => true
  | _ => false

/-- Whether the statement is a condition, with a guard or without one. -/
def isCondition : Statement → Bool
  | condition _ _ _ _ | guarded (condition _ _ _ _) _ _ => true
  | _ => false

/-- Whether the statement may be the alternative of a condition: another condition, or a block that
    does not start with one. -/
def isAlternative : Statement → Bool
  | condition _ _ _ _ => true
  | block (.mk body _) => !body.head?.any isCondition
  | _ => false

/-- Whether the statement may be exported: a function, a class or an expression. -/
def isExportable : Statement → Bool
  | functionDecl _ _ _ _ | classDecl _ _ _ | expression _ _ => true
  | _ => false

end Statement

/-- Whether the operator is an arithmetic one. -/
def BinaryOperator.isArithmetic (op : BinaryOperator) : Bool := op ∈ [add, sub, mul, div, mod]

/-- Whether the operator is the plain one or an arithmetic one. -/
def AssignmentOperator.isArithmetic : AssignmentOperator → Bool
  | plain => true
  | compound op => op.isArithmetic

/-- Whether an import of a kind may bind given names. Only exports may be several; a whole module is
    bound to the last segment of its path. -/
def ImportKind.Binds (source names : List Identifier) : ImportKind → Prop
  | wholeModule => ∃ last ∈ source.getLast?, names = [last]
  | defaultExport => ∃ name, names = [name]
  | namedExports => names ≠ []

namespace Node

/-- Whether a node may stand below most others. An assignment that is marked as local may not, nor
    may a block. -/
def isOrdinary : Node → Bool
  | expression value => !value.isLocal
  | statement value => !value.isBlock
  | _ => true

/-- Whether a node may have another one right below it. -/
def bears : Node → Node → Bool
  | statement (.expression _ _), _ => true
  | statement (.condition _ _ _ _), statement _ => true
  | _, child => child.isOrdinary

/-- Whether what a node is made of itself, its names and its choice of parts, is as it is read. -/
def Made : Node → Prop
  | statement (.condition _ _ elseBranch _) =>
    ∀ branch ∈ elseBranch, branch.isAlternative = true
  | statement (.forLoop name _ _ _) | statement (.functionDecl name _ _ _)
  | statement (.classDecl name _ _) | statement (.hostDecl name _ _) => IsName name.name
  | statement (.importDecl source names kind _) =>
    source ≠ [] ∧ kind.Binds source names ∧ (∀ segment ∈ source, IsName segment.name) ∧
      ∀ name ∈ names, IsName name.name
  | statement (.exportDecl declaration _) => declaration.isExportable = true
  | statement (.guarded inner _ _) => inner.isGuarded = false
  | expression (.number text _) => IsNumber text
  | expression (.name text _) => IsName text
  | expression (.property _ key _) => IsName key.name
  | expression (.object fields _) => (fields.map Field.key).Nodup
  | expression (.assign target op _ _ _) => target.isAssignable = true ∧ op.isArithmetic = true
  | member (.field name _ _) | member (.method (.identifier name) _ _ _) => IsName name.name
  | parameter name => IsName name.name
  | _ => True

/-- Whether a node is as it is read, and bears what stands right below it. -/
structure Formed (node : Node) : Prop where
  made : node.Made
  bears : ∀ child ∈ node.children, node.bears child = true

/-- Whether a node is formed all the way down and may stand below most others. -/
structure Built (node : Node) : Prop where
  every : node.Every Formed
  ordinary : node.isOrdinary = true

/-- Whether this is so of all nodes in a row. -/
def EachBuilt (nodes : List Node) : Prop := ∀ node ∈ nodes, node.Built

variable {node parent : Node} {nodes more : List Node}

theorem bears_of_isOrdinary (hnode : node.isOrdinary = true) : parent.bears node = true := by
  unfold bears
  split <;> first | rfl | exact hnode

theorem EachBuilt.nil : EachBuilt [] := fun _ hnode => absurd hnode List.not_mem_nil

theorem EachBuilt.cons (hnode : node.Built) (hnodes : EachBuilt nodes) :
    EachBuilt (node :: nodes) :=
  List.forall_mem_cons.mpr ⟨hnode, hnodes⟩

theorem EachBuilt.single (hnode : node.Built) : EachBuilt [node] := .cons hnode .nil

theorem EachBuilt.every (hnodes : EachBuilt nodes) : EachEvery Formed nodes :=
  fun node hnode => (hnodes node hnode).every

/-- Most nodes bear none but ordinary ones. -/
theorem every_of_built (hmade : node.Made) (hchildren : EachBuilt node.children) :
    node.Every Formed :=
  .of_children ⟨hmade, fun child hchild => bears_of_isOrdinary (hchildren child hchild).ordinary⟩
    hchildren.every

theorem built_of_children (hmade : node.Made) (hchildren : EachBuilt node.children)
    (hordinary : node.isOrdinary = true) : node.Built :=
  ⟨every_of_built hmade hchildren, hordinary⟩

theorem built_leaf (hmade : node.Made) (hchildren : node.children = [])
    (hordinary : node.isOrdinary = true) : node.Built :=
  built_of_children hmade (hchildren ▸ .nil) hordinary

/-- What stands right below a function. -/
theorem EachBuilt.withBody {params : List Identifier} {body : Block}
    (hparams : ∀ name ∈ params, IsName name.name) (hbody : (block body).Built) :
    EachBuilt (params.map parameter ++ [block body]) :=
  List.forall_mem_append.mpr ⟨List.forall_mem_map.mpr fun name hname =>
    built_leaf (hparams name hname) rfl rfl, EachBuilt.single hbody⟩

theorem isName_of_params {params : List Identifier}
    (hnodes : EachEvery Formed (params.map parameter ++ nodes)) :
    ∀ name ∈ params, IsName name.name := by
  intro name hname
  have hparam := hnodes _ (List.mem_append_left nodes (List.mem_map_of_mem hname))
  exact hparam.self.made

end Node

variable {stop start : Span} {tokens rest : List Token}

/-! ### Names -/

namespace Reading

theorem isName_identifier {name : Identifier} {hrest : rest.length < tokens.length}
    (htokens : LegibleTokens tokens) (hread : identifier stop tokens = .ok ⟨name, rest, hrest⟩) :
    IsName name.name := by
  obtain ⟨token, rfl, hkind, rfl⟩ := eq_cons_of_identifier hread
  exact htokens.head.isName hkind

theorem isName_identifiersBy {separator : Token → Bool} {tokens : List Token}
    {names : Reading (Identifier × List Identifier) tokens} (htokens : LegibleTokens tokens)
    (hread : identifiersBy stop separator tokens = .ok names) :
    ∀ name ∈ names.value.1 :: names.value.2, IsName name.name := by
  rw [identifiersBy] at hread
  obtain ⟨⟨first, afterFirst, hlater⟩, hfirst, hread⟩ := Except.bind_eq_ok_iff.mp hread
  have hname := isName_identifier htokens hfirst
  have hafter := (advances_identifier.reaches _ hfirst).suffix
  dsimp only at hread
  split at hread
  · cases hread
    exact List.forall_mem_singleton.mpr hname
  · next haccept =>
    obtain ⟨more, hmore, hread⟩ := Except.bind_eq_ok_iff.mp hread
    cases hread
    obtain ⟨rfl, _⟩ := eq_cons_of_accept haccept
    exact List.forall_mem_cons.mpr
      ⟨hname, isName_identifiersBy (htokens.of_suffix hafter).tail hmore⟩
termination_by tokens.length

theorem isName_parameters {params : Reading (List Identifier) tokens}
    (htokens : LegibleTokens tokens) (hread : parameters stop tokens = .ok params) :
    ∀ name ∈ params.value, IsName name.name := by
  obtain ⟨⟨opening, inside, hinside⟩, hopening, hread⟩ := Except.bind_eq_ok_iff.mp hread
  obtain ⟨⟨⟨names, close⟩, rest, hrest⟩, hnames, hread⟩ := Except.bind_eq_ok_iff.mp hread
  cases hread
  obtain ⟨rfl, _⟩ := eq_cons_of_delimiter hopening
  refine derives_of_itemsUntil (fun _ names _ tokens _ => LegibleTokens tokens →
    ∀ name ∈ names, IsName name.name) ?_ ?_ ?_ true inside _ hnames htokens.tail
  · exact fun _ _ _ _ _ _ hname => absurd hname List.not_mem_nil
  · intro tokens _ first middle _ more last rest hfirst hmore htokens
    have hafter := (advances_identifier.reaches _ hfirst).suffix
    exact List.forall_mem_cons.mpr
      ⟨isName_identifier htokens hfirst, hmore (htokens.of_suffix hafter)⟩
  · intro comma tail _ first middle _ more last rest _ hfirst hmore htokens
    have hafter := (advances_identifier.reaches _ hfirst).suffix
    exact List.forall_mem_cons.mpr
      ⟨isName_identifier htokens.tail hfirst, hmore (htokens.tail.of_suffix hafter)⟩

theorem isName_lambdaParameters {tokens : List Token} {params : Reading (List Identifier) tokens}
    (htokens : LegibleTokens tokens) (hread : lambdaParameters stop tokens = .ok params) :
    ∀ name ∈ params.value, IsName name.name := by
  rw [lambdaParameters] at hread
  obtain ⟨⟨first, afterFirst, hlater⟩, hfirst, hread⟩ := Except.bind_eq_ok_iff.mp hread
  have hname := isName_identifier htokens hfirst
  have hafter := (advances_identifier.reaches _ hfirst).suffix
  dsimp only at hread
  split at hread
  · cases hread
    exact List.forall_mem_singleton.mpr hname
  · obtain ⟨⟨comma, afterComma, hcomma⟩, hsign, hread⟩ := Except.bind_eq_ok_iff.mp hread
    obtain ⟨more, hmore, hread⟩ := Except.bind_eq_ok_iff.mp hread
    cases hread
    obtain ⟨rfl, _⟩ := eq_cons_of_delimiter hsign
    exact List.forall_mem_cons.mpr
      ⟨hname, isName_lambdaParameters (htokens.of_suffix hafter).tail hmore⟩
termination_by tokens.length

end Reading

namespace Parser

theorem made_importModule {reading : Reading Statement tokens} (htokens : LegibleTokens tokens)
    (hread : importModule stop start tokens = .ok reading) :
    (Node.statement reading.value).Made := by
  obtain ⟨⟨⟨first, more⟩, rest, hrest⟩, hpath, hread⟩ := Except.bind_eq_ok_iff.mp hread
  cases hread
  have hsource := Reading.isName_identifiersBy htokens hpath
  have hlast : (first :: more).getLast? = some (more.getLast?.getD first) := List.getLast?_cons
  exact ⟨List.cons_ne_nil _ _, ⟨_, hlast, rfl⟩, hsource,
    List.forall_mem_singleton.mpr (hsource _ (List.mem_of_getLast? hlast))⟩

theorem made_importExports {reading : Reading Statement tokens} (htokens : LegibleTokens tokens)
    (hread : importExports stop start tokens = .ok reading) :
    (Node.statement reading.value).Made := by
  obtain ⟨⟨⟨segment, segments⟩, afterPath, hafter⟩, hpath, hread⟩ := Except.bind_eq_ok_iff.mp hread
  obtain ⟨⟨word, afterWord, hafterWord⟩, hword, hread⟩ := Except.bind_eq_ok_iff.mp hread
  obtain ⟨rfl, _⟩ := Reading.eq_cons_of_keyword hword
  have hsource := Reading.isName_identifiersBy htokens hpath
  have hsuffix := (advances_dottedPath.reaches _ hpath).suffix
  have hwords := (htokens.of_suffix hsuffix).tail
  dsimp only at hread
  split at hread
  · next haccept =>
    obtain ⟨⟨name, rest, hrest⟩, hname, hread⟩ := Except.bind_eq_ok_iff.mp hread
    cases hread
    obtain ⟨rfl, _⟩ := Reading.eq_cons_of_accept haccept
    exact ⟨List.cons_ne_nil _ _, ⟨name, rfl⟩, hsource,
      List.forall_mem_singleton.mpr (Reading.isName_identifier hwords.tail hname)⟩
  · obtain ⟨⟨⟨name, names⟩, rest, hrest⟩, hnames, hread⟩ := Except.bind_eq_ok_iff.mp hread
    cases hread
    exact ⟨List.cons_ne_nil _ _, List.cons_ne_nil _ _, hsource,
      Reading.isName_identifiersBy hwords hnames⟩

theorem made_hostDecl {reading : Reading Statement tokens} (htokens : LegibleTokens tokens)
    (hread : hostDecl stop start tokens = .ok reading) : (Node.statement reading.value).Made := by
  unfold hostDecl at hread
  split at hread
  · next haccept =>
    obtain ⟨⟨name, rest, hrest⟩, hname, hread⟩ := Except.bind_eq_ok_iff.mp hread
    cases hread
    obtain ⟨rfl, _⟩ := Reading.eq_cons_of_accept haccept
    exact Reading.isName_identifier htokens.tail hname
  · obtain ⟨⟨name, rest, hrest⟩, hname, hread⟩ := Except.bind_eq_ok_iff.mp hread
    cases hread
    exact Reading.isName_identifier htokens hname

theorem made_methodName {name : Reading MethodName tokens} {params : List Identifier}
    {body : Block} {span : Span} (htokens : LegibleTokens tokens)
    (hread : methodName stop tokens = .ok name) :
    (Node.member (.method name.value params body span)).Made := by
  unfold methodName at hread
  split at hread
  · split at hread
    · cases hread
    · cases hread
    · cases hread
      exact trivial
  · obtain ⟨⟨name, rest, hrest⟩, hname, hread⟩ := Except.bind_eq_ok_iff.mp hread
    cases hread
    exact Reading.isName_identifier htokens hname

end Parser

/-! ### Statements -/

/-- A condition without a guard may be an alternative. -/
theorem Statement.isAlternative_of_isCondition {value : Statement}
    (hcondition : value.isCondition = true) (hguard : value.isGuarded = false) :
    value.isAlternative = true := by
  cases value <;> first | rfl | cases hcondition | cases hguard

/-- What the opening word of a statement says about it. -/
structure Statement.Behind (word : Keyword) (value : Statement) : Prop where
  ordinary : value.isBlock = false
  unguarded : value.isGuarded = false
  condition : value.isCondition = true ↔ word = .ifWord
  exportable : word ∈ [Keyword.functionWord, .classWord, .localWord] → value.isExportable = true

/-- A word that opens no part of the program itself. -/
theorem Parser.behind_outside {word : Keyword} {reading : Reading Statement tokens}
    (hword : word ∈ [Keyword.hostWord, .importWord, .fromWord])
    (hread : hostDecl stop start tokens = .ok reading ∨
      importModule stop start tokens = .ok reading ∨
      importExports stop start tokens = .ok reading) : reading.value.Behind word := by
  have hother : word ≠ .ifWord ∧ word ∉ [Keyword.functionWord, .classWord, .localWord] := by
    revert hword
    cases word <;> decide
  have hvalue : reading.value.isBlock = false ∧ reading.value.isGuarded = false ∧
      reading.value.isCondition = false := by
    rcases hread with hread | hread | hread
    · unfold hostDecl at hread
      split at hread
      · obtain ⟨_, _, hread⟩ := Except.bind_eq_ok_iff.mp hread
        cases hread
        exact ⟨rfl, rfl, rfl⟩
      · obtain ⟨_, _, hread⟩ := Except.bind_eq_ok_iff.mp hread
        cases hread
        exact ⟨rfl, rfl, rfl⟩
    · obtain ⟨⟨⟨_, _⟩, _, _⟩, _, hread⟩ := Except.bind_eq_ok_iff.mp hread
      cases hread
      exact ⟨rfl, rfl, rfl⟩
    · obtain ⟨⟨⟨_, _⟩, _, _⟩, _, hread⟩ := Except.bind_eq_ok_iff.mp hread
      obtain ⟨_, _, hread⟩ := Except.bind_eq_ok_iff.mp hread
      dsimp only at hread
      split at hread
      · obtain ⟨_, _, hread⟩ := Except.bind_eq_ok_iff.mp hread
        cases hread
        exact ⟨rfl, rfl, rfl⟩
      · obtain ⟨⟨⟨_, _⟩, _, _⟩, _, hread⟩ := Except.bind_eq_ok_iff.mp hread
        cases hread
        exact ⟨rfl, rfl, rfl⟩
  exact ⟨hvalue.1, hvalue.2.1, by simp [hvalue.2.2, hother.1], fun hmem => absurd hmem hother.2⟩

theorem Reads.behind {word : Keyword} {value : Statement}
    (hreads : Reads stop (.behind word start value) tokens rest) : value.Behind word := by
  cases hreads with
  | hostDecl hreading => exact Parser.behind_outside (by decide) (.inl hreading)
  | importModule hreading => exact Parser.behind_outside (by decide) (.inr (.inl hreading))
  | importExports hreading => exact Parser.behind_outside (by decide) (.inr (.inr hreading))
  | _ => exact ⟨rfl, rfl, by simp [Statement.isCondition], by simp [Statement.isExportable]⟩

/-- A statement without its guard. -/
theorem Reads.isGuarded_bare {value : Statement} (hreads : Reads stop (.bare value) tokens rest) :
    value.isGuarded = false := by
  cases hreads with
  | opened _ hvalue => exact hvalue.behind.unguarded
  | plain => rfl

/-- A condition starts with its word. -/
theorem Reads.isCondition_bare {value : Statement} (hreads : Reads stop (.bare value) tokens rest)
    (hword : Reading.accept (fun token => token.isKeyword .ifWord) tokens = .none) :
    value.isCondition = false := by
  cases hreads with
  | opened htoken hvalue =>
    refine Bool.eq_false_iff.mpr fun hcondition => ?_
    obtain rfl := hvalue.behind.condition.mp hcondition
    simp [Reading.accept, Token.isKeyword_iff.mpr htoken] at hword
  | plain => rfl

/-- So do statements of which the first is a condition. -/
theorem Reads.isCondition_first {words : List Keyword} {body : List Statement}
    (hreads : Reads stop (.sequence words body) tokens rest)
    (hword : Reading.accept (fun token => token.isKeyword .ifWord) tokens = .none) :
    body.head?.any Statement.isCondition = false := by
  cases hreads with
  | none => rfl
  | more hfirst _ =>
    cases hfirst with
    | unguarded hvalue _ => exact hvalue.isCondition_bare hword
    | @guarded inner _ _ _ _ _ hinner =>
      have hinner := hinner.isCondition_bare hword
      cases inner <;> first | rfl | cases hinner

/-! ### Objects -/

namespace Field

variable {fields : List Field} {key : String} {value : Expression}

/-- Putting a field adds its key behind the others, unless it is one of them. -/
theorem map_key_put : (put fields key value).map Field.key =
    if key ∈ fields.map Field.key then fields.map Field.key
    else fields.map Field.key ++ [key] := by
  induction fields with
  | nil => rfl
  | cons first more ih =>
    rw [put]
    split
    · next hkey => simp [← hkey, Field.key]
    · next hkey =>
      simp only [List.map_cons, ih, List.mem_cons, Ne.symm hkey, false_or]
      split <;> rfl

theorem nodup_foldl_put {entries : List (String × Expression)}
    (hfields : (fields.map Field.key).Nodup) :
    ((entries.foldl (fun fields entry => put fields entry.1 entry.2) fields).map
      Field.key).Nodup := by
  induction entries generalizing fields with
  | nil => exact hfields
  | cons entry entries ih =>
    refine ih ?_
    rw [map_key_put]
    split
    · exact hfields
    · next hnew => exact List.nodup_append.mpr ⟨hfields, by simp, by simpa using hnew⟩

end Field

/-! ### Whatever is read -/

/-- Whether all nodes that a phrase adds to what was read before are formed. -/
def Phrase.Formed : Phrase → Prop
  | .statement value | .bare value | .behind _ _ value => (Node.statement value).Built
  | .sequence _ body => Node.EachBuilt (body.map .statement)
  | .block body => (Node.block body).Built
  | .members parts => Node.EachBuilt (parts.map .member)
  | .member part => (Node.member part).Built
  | .expression value | .primary value => (Node.expression value).Built
  | .onwards left _ whole | .constructed left whole =>
    (Node.expression left).Built → (Node.expression whole).Built
  | .items _ _ values _ => Node.EachBuilt (values.map .expression)
  | .entries _ fields _ => ∀ field ∈ fields, (Node.expression field.2).Built

namespace Node

theorem Built.join {left right : Expression} (hleft : (expression left).Built)
    (hright : (expression right).Built) (op : BinaryOperator) (inParentheses : Bool) :
    (expression (left.join op right inParentheses)).Built := by
  unfold Expression.join
  dsimp only
  split
  · exact built_of_children hright.every.self.made (.single hleft) rfl
  · exact built_of_children trivial (.cons hleft (.single hright)) rfl

theorem built_block {body : List Statement} (span : Span)
    (hbody : EachBuilt (body.map statement)) : (block (.mk body span)).Built :=
  built_of_children trivial hbody rfl

/-- An expression as a statement, which may also be marked as local. -/
theorem built_expression {value : Expression} {span : Span}
    (hvalue : (expression value).Every Formed) : (statement (.expression value span)).Built :=
  ⟨.of_children ⟨trivial, fun _ _ => rfl⟩ (.single hvalue), rfl⟩

theorem built_condition {test : Expression} {thenBranch : Block} {alternative : Option Statement}
    {span : Span} (htest : (expression test).Built) (hthen : (block thenBranch).Built)
    (hbranch : ∀ branch ∈ alternative,
      (statement branch).Every Formed ∧ branch.isAlternative = true) :
    (statement (.condition test thenBranch alternative span)).Built := by
  refine ⟨.of_children ⟨fun branch hmem => (hbranch branch hmem).2, ?_⟩ ?_, rfl⟩
  · refine List.forall_mem_cons.mpr ⟨htest.ordinary, List.forall_mem_cons.mpr ⟨rfl, ?_⟩⟩
    exact List.forall_mem_map.mpr fun _ _ => rfl
  · refine .cons htest.every (.cons hthen.every ?_)
    exact List.forall_mem_map.mpr fun branch hmem => (hbranch branch (by simpa using hmem)).1

theorem built_outside {reading : Reading Statement tokens}
    (hordinary : reading.value.isBlock = false) (hmade : (statement reading.value).Made)
    (hread : Parser.hostDecl stop start tokens = .ok reading ∨
      Parser.importModule stop start tokens = .ok reading ∨
      Parser.importExports stop start tokens = .ok reading) : (statement reading.value).Built :=
  built_leaf hmade (Parser.children_eq_nil hread) (by rw [isOrdinary, hordinary]; rfl)

theorem built_object {entries : List (String × Expression)} {span : Span}
    (hentries : ∀ entry ∈ entries, (expression entry.2).Built) :
    (expression (.object (entries.foldl (fun fields entry => Field.put fields entry.1 entry.2) [])
      span)).Built := by
  refine built_of_children (Field.nodup_foldl_put List.nodup_nil) ?_ rfl
  refine List.forall_mem_map.mpr (List.forall_mem_map.mpr ?_)
  exact Field.forall_foldl_put (p := fun value => (expression value).Built) (by simp) hentries

end Node

/-- The signs that are read as compound assignments. -/
theorem Sign.isArithmetic_of_mem : ∀ sign ∈ Sign.table, sign.kind = .compoundAssign →
    ∀ op ∈ (Token.mk sign.kind sign.text (.point .zero)).assignment?, op.isArithmetic = true := by
  decide

theorem Token.isArithmetic_of_assignment? {token : Token} {op : AssignmentOperator}
    (htoken : token.form.Legible) (hsign : token.isAssignment = true)
    (hop : token.assignment? = some op) : op.isArithmetic = true := by
  obtain ⟨kind, text, span⟩ := token
  generalize hform : (Token.mk kind text span).form = form at htoken
  cases htoken with
  | @sign sign hmem =>
    cases hform
    rcases Sign.kind_of_mem sign hmem with hkind | hkind
    · simp [isAssignment, hkind] at hsign
    · exact Sign.isArithmetic_of_mem sign hmem hkind op hop
  | equals =>
    cases hform
    cases hop
    rfl
  | _ =>
    cases hform
    cases hsign

open Node (built_of_children built_leaf built_block built_condition) in
/-- Whatever is read off legible tokens is formed. -/
theorem Reads.formed {phrase : Phrase} (hreads : Reads stop phrase tokens rest)
    (htokens : LegibleTokens tokens) : phrase.Formed := by
  induction hreads with
  | unguarded _ _ ih => exact ih htokens
  | guarded hinner _ _ ihinner ihtest =>
    have htest := ihtest (htokens.of_suffix hinner.suffix).tail
    exact built_of_children hinner.isGuarded_bare (.cons (ihinner htokens) (.single htest)) rfl
  | opened _ _ ih => exact ih htokens.tail
  | plain _ ih => exact Node.built_expression (ih htokens).every
  | none | noMember | lastItem => exact .nil
  | lastEntry => exact fun _ hentry => absurd hentry List.not_mem_nil
  | more hfirst _ ihfirst ihmore | moreMembers hfirst _ ihfirst ihmore
  | firstItem hfirst _ ihfirst ihmore =>
    exact .cons (ihfirst htokens) (ihmore (htokens.of_suffix hfirst.suffix))
  | block _ _ _ ih => exact built_block _ (ih htokens.tail)
  | conditionAlone htest _ _ _ _ _ ihtest ihthen =>
    have hinside := (htokens.of_suffix htest.suffix).tail
    exact built_condition (ihtest htokens) (built_block _ (ihthen hinside)) (by simp)
  | conditionChain htest _ hthen _ _ hbranch _ _ ihtest ihthen ihbranch =>
    have hinside := (htokens.of_suffix htest.suffix).tail
    have helse := (hinside.of_suffix hthen.suffix).tail
    have hcondition := hbranch.behind.condition.mpr rfl
    refine built_condition (ihtest htokens) (built_block _ (ihthen hinside)) ?_
    rintro branch ⟨⟩
    exact ⟨(ihbranch helse.tail).every,
      Statement.isAlternative_of_isCondition hcondition hbranch.behind.unguarded⟩
  | conditionElse htest _ hthen _ hif hbody _ _ _ _ hblock ihtest ihthen ihbody =>
    subst hblock
    have hinside := (htokens.of_suffix htest.suffix).tail
    have helse := (hinside.of_suffix hthen.suffix).tail
    refine built_condition (ihtest htokens) (built_block _ (ihthen hinside)) ?_
    rintro branch ⟨⟩
    refine ⟨Node.every_of_built trivial (.single (built_block _ (ihbody helse))), ?_⟩
    rw [Statement.isAlternative, hbody.isCondition_first hif]
    rfl
  | forLoop hname _ hiterable _ ihiterable ihbody =>
    have hitems := htokens.tail.tail
    exact built_of_children (htokens.head.isName hname) (.cons (ihiterable hitems)
      (.single (ihbody (hitems.of_suffix hiterable.suffix)))) rfl
  | whileLoop htest _ ihtest ihbody =>
    exact built_of_children trivial (.cons (ihtest htokens)
      (.single (ihbody (htokens.of_suffix htest.suffix)))) rfl
  | functionDecl hname _ _ ih =>
    exact built_of_children (htokens.head.isName hname) (.withBody (by simp) (ih htokens.tail)) rfl
  | functionWith hname hparams _ ih =>
    have hafter := (Reading.advances_parameters.reaches _ hparams).suffix
    exact built_of_children (htokens.head.isName hname)
      (.withBody (Reading.isName_parameters htokens.tail hparams)
        (ih (htokens.tail.of_suffix hafter))) rfl
  | classDecl hname _ _ _ ih =>
    exact built_of_children (htokens.head.isName hname) (ih htokens.tail.tail) rfl
  | returnNothing | breakLoop | continueLoop => exact built_leaf trivial rfl rfl
  | returnValue _ _ ih => exact built_of_children trivial (.single (ih htokens)) rfl
  | hostDecl hreading =>
    exact Node.built_outside (Reads.hostDecl hreading).behind.ordinary
      (Parser.made_hostDecl htokens hreading) (.inl hreading)
  | importModule hreading =>
    exact Node.built_outside (Reads.importModule hreading).behind.ordinary
      (Parser.made_importModule htokens hreading) (.inr (.inl hreading))
  | importExports hreading =>
    exact Node.built_outside (Reads.importExports hreading).behind.ordinary
      (Parser.made_importExports htokens hreading) (.inr (.inr hreading))
  | localAssignment _ ih =>
    have hassign := (ih htokens).every
    exact Node.built_expression (.of_children ⟨hassign.self.made, hassign.self.bears⟩
      hassign.children)
  | exportOpened _ hkind hdeclaration ih =>
    exact built_of_children (hdeclaration.behind.exportable hkind) (.single (ih htokens.tail)) rfl
  | exportPlain _ ih =>
    exact built_of_children rfl (.single (Node.built_expression (ih htokens).every)) rfl
  | field hname _ _ ih =>
    exact built_of_children (htokens.head.isName hname) (.single (ih htokens.tail.tail)) rfl
  | method hname hparams _ ih =>
    have hafter := htokens.of_suffix (Parser.advances_methodName.reaches _ hname).suffix
    have hbody := hafter.of_suffix (Reading.advances_parameters.reaches _ hparams).suffix
    exact built_of_children (Parser.made_methodName htokens hname)
      (.withBody (Reading.isName_parameters hafter hparams) (ih hbody)) rfl
  | operand hfirst _ _ ihfirst ihwhole =>
    exact ihwhole (htokens.of_suffix hfirst.suffix) (ihfirst htokens)
  | assignment hfirst htarget hsign hassignable hop _ ihfirst ihtarget ihvalue =>
    have hmiddle := htokens.of_suffix hfirst.suffix
    have hafter := hmiddle.of_suffix htarget.suffix
    have hop := Token.isArithmetic_of_assignment? hafter.head hsign hop
    exact built_of_children ⟨hassignable, hop⟩
      (.cons (ihtarget hmiddle (ihfirst htokens)) (.single (ihvalue hafter.tail))) rfl
  | enough | owner => exact fun hleft => hleft
  | call _ _ hargs _ ihargs ihwhole =>
    exact fun hleft => ihwhole (htokens.tail.of_suffix hargs.suffix)
      (built_of_children trivial (.cons hleft (ihargs htokens.tail)) rfl)
  | binary _ _ hoperand hright _ ihoperand ihright ihwhole =>
    have hafter := htokens.tail.of_suffix hoperand.suffix
    exact fun hleft => ihwhole (hafter.of_suffix hright.suffix)
      (.join hleft (ihright hafter (ihoperand htokens.tail)) _ _)
  | string => exact built_leaf trivial rfl rfl
  | number hkind => exact built_leaf (htokens.head.isNumber hkind) rfl rfl
  | name hkind => exact built_leaf (htokens.head.isName hkind) rfl rfl
  | unary _ _ hinner _ ihinner ihoperand =>
    exact built_of_children trivial
      (.single (ihoperand (htokens.tail.of_suffix hinner.suffix) (ihinner htokens.tail))) rfl
  | parentheses _ _ _ ih => exact ih htokens.tail
  | array _ _ ih => exact built_of_children trivial (ih htokens.tail) rfl
  | object _ _ ih => exact Node.built_object (ih htokens.tail)
  | lambda _ hparams _ ih =>
    have hafter := ((Reading.advances_lambdaParameters _).reaches _ hparams).suffix
    exact built_of_children trivial
      (.withBody (Reading.isName_lambdaParameters htokens.tail hparams)
        (ih (htokens.tail.of_suffix hafter))) rfl
  | lambdaAlone _ ih => exact built_of_children trivial (.withBody (by simp) (ih htokens)) rfl
  | construct _ howner hcallee _ _ ihowner ihcallee ihargs =>
    have hmiddle := htokens.tail.of_suffix howner.suffix
    have hargs := ihargs (hmiddle.of_suffix hcallee.suffix).tail
    exact built_of_children trivial (.cons (ihcallee hmiddle (ihowner htokens.tail)) hargs) rfl
  | joined _ hkey _ ihkey ihcallee =>
    exact fun howner => ihcallee (htokens.tail.of_suffix hkey.suffix)
      (.join howner (ihkey htokens.tail) _ _)
  | nextItem _ hfirst _ ihfirst ihmore =>
    exact .cons (ihfirst htokens.tail) (ihmore (htokens.tail.of_suffix hfirst.suffix))
  | firstEntry hkey hvalue _ ihvalue ihmore =>
    have hafter := htokens.of_suffix (Parser.advances_fieldKey.reaches _ hkey).suffix
    exact List.forall_mem_cons.mpr ⟨ihvalue hafter, ihmore (hafter.of_suffix hvalue.suffix)⟩
  | nextEntry _ hkey hvalue _ ihvalue ihmore =>
    have hafter := htokens.tail.of_suffix (Parser.advances_fieldKey.reaches _ hkey).suffix
    exact List.forall_mem_cons.mpr ⟨ihvalue hafter, ihmore (hafter.of_suffix hvalue.suffix)⟩

/-- Every node of a program that is read off a text is formed, and no statement of the program
    itself is a block. -/
theorem Program.formed_of_ofSource {source : String} {program : Program}
    (hread : ofSource source = .ok program) :
    (∀ statement ∈ program.body, statement.isBlock = false) ∧
      ∀ node, program.Holds node → node.Every Node.Formed := by
  obtain ⟨tokens, htokens, hread⟩ := Except.bind_eq_ok_iff.mp hread
  obtain ⟨body, hreads, rfl⟩ := ofTokens_eq_ok_iff.mp hread
  have hbody : Node.EachBuilt (body.map .statement) :=
    hreads.formed (legible_programTokens htokens)
  refine ⟨fun statement hstatement => ?_, fun node hnode => ?_⟩
  · have hbuilt := hbody _ (List.mem_map_of_mem hstatement)
    simpa [Node.isOrdinary] using hbuilt.ordinary
  · induction hnode with
    | body hstatement => exact (hbody _ (List.mem_map_of_mem hstatement)).every
    | child _ hchild ih => exact ih.children _ hchild

theorem Program.eachFormed_of_ofSource {source : String} {program : Program}
    (hread : ofSource source = .ok program) :
    Node.EachEvery Node.Formed (program.body.map .statement) :=
  List.forall_mem_map.mpr fun _ hmem => (formed_of_ofSource hread).2 _ (.body hmem)

/-! ### Shapes -/

/-- Whether a node has the shape that the pass over the tree relies on. -/
structure Node.Shaped (node : Node) : Prop where
  /-- What is assigned to is a name, or names joined by points. -/
  target : ∀ {target op value isLocal span},
    node = .expression (.assign target op value isLocal span) →
      target.isAssignable = true ∧ target.path?.isSome = true
  /-- Only arithmetic is done on the way. -/
  sign : ∀ {target op value isLocal span},
    node = .expression (.assign target (.compound op) value isLocal span) →
      op ∈ [BinaryOperator.add, .sub, .mul, .div, .mod]
  /-- Only the whole expression of a statement is marked as local. -/
  marked : ∀ {target op value span},
    .expression (.assign target op value true span) ∈ node.children →
      ∃ place, node = .statement (.expression (.assign target op value true span) place)
  /-- An alternative is a block or a condition. -/
  alternative : ∀ {test thenBranch branch span},
    node = .statement (.condition test thenBranch (some branch) span) →
      (∃ inner, branch = .block inner) ∨
        ∃ test thenBranch alternative span, branch = .condition test thenBranch alternative span
  /-- A block is an alternative. -/
  block : ∀ {inner}, .statement (.block inner) ∈ node.children →
    ∃ test thenBranch span,
      node = .statement (.condition test thenBranch (some (.block inner)) span)
  /-- The block that is an alternative does not start with a condition, be it guarded or not. -/
  opening : ∀ {test thenBranch first more place span},
    node =
      .statement (.condition test thenBranch (some (.block (.mk (first :: more) place))) span) →
      (∀ test thenBranch alternative span,
        first ≠ .condition test thenBranch alternative span) ∧
      ∀ test thenBranch alternative span guard place,
        first ≠ .guarded (.condition test thenBranch alternative span) guard place
  /-- A function, a class or an expression is exported. -/
  exported : ∀ {declaration span}, node = .statement (.exportDecl declaration span) →
    (∃ name params body span, declaration = .functionDecl name params body span) ∨
      (∃ name members span, declaration = .classDecl name members span) ∨
      ∃ value span, declaration = .expression value span
  /-- There is one guard at most. -/
  guarded : ∀ {inner guard span}, node = .statement (.guarded inner guard span) →
    ∀ innermost test place, inner ≠ .guarded innermost test place
  /-- The keys of an object are distinct. -/
  keys : ∀ {fields span}, node = .expression (.object fields span) →
    (fields.map Field.key).Nodup
  /-- An import has a path and binds a name. A whole module is bound to the last segment of its path
      alone, and a default export to one name. -/
  imported : ∀ {source names kind span}, node = .statement (.importDecl source names kind span) →
    source ≠ [] ∧ names ≠ [] ∧
      (kind = .wholeModule → ∃ last, source.getLast? = some last ∧ names = [last]) ∧
      (kind = .defaultExport → ∃ name, names = [name])

namespace Node

variable {node child : Node}

/-- Who bears a node that is not ordinary. -/
theorem Formed.bears_of_not_isOrdinary (hnode : node.Formed) (hchild : child ∈ node.children)
    (hordinary : child.isOrdinary = false) :
    (∃ value span, node = .statement (.expression value span)) ∨
      ∃ test thenBranch alternative span value,
        node = .statement (.condition test thenBranch alternative span) ∧
          child = .statement value := by
  have hbears := hnode.bears child hchild
  revert hbears
  fun_cases Node.bears node child with
  | case1 value span => exact fun _ => .inl ⟨value, span, rfl⟩
  | case2 => exact fun _ => .inr ⟨_, _, _, _, _, rfl, rfl⟩
  | case3 => exact fun hbears => absurd hbears (by simp [hordinary])

theorem Formed.shaped (hnode : node.Formed) : node.Shaped where
  target := by
    rintro target op value isLocal span rfl
    exact ⟨hnode.made.1, target.isAssignable_eq_isSome_path? ▸ hnode.made.1⟩
  sign := by
    rintro target op value isLocal span rfl
    exact of_decide_eq_true hnode.made.2
  marked := by
    intro target op value span hchild
    rcases hnode.bears_of_not_isOrdinary hchild rfl with
      ⟨value, place, rfl⟩ | ⟨_, _, _, _, _, _, hother⟩
    · cases List.mem_singleton.mp hchild
      exact ⟨place, rfl⟩
    · cases hother
  alternative := by
    rintro test thenBranch branch span rfl
    have hbranch := hnode.made branch rfl
    cases branch with
    | block inner => exact .inl ⟨inner, rfl⟩
    | condition test thenBranch alternative span => exact .inr ⟨_, _, _, _, rfl⟩
    | _ => cases hbranch
  block := by
    intro inner hchild
    rcases hnode.bears_of_not_isOrdinary hchild rfl with
      ⟨value, place, rfl⟩ | ⟨test, thenBranch, alternative, span, _, rfl, _⟩
    · cases List.mem_singleton.mp hchild
    · cases alternative with
      | none => simp [children] at hchild
      | some branch =>
        obtain rfl : .block inner = branch := by simpa [children] using hchild
        exact ⟨test, thenBranch, span, rfl⟩
  opening := by
    rintro test thenBranch first more place span rfl
    have hfirst := hnode.made _ rfl
    constructor
    · rintro test thenBranch alternative span rfl
      cases hfirst
    · rintro test thenBranch alternative span guard place rfl
      cases hfirst
  exported := by
    rintro declaration span rfl
    have hdeclaration := hnode.made
    cases declaration with
    | functionDecl name params body span => exact .inl ⟨_, _, _, _, rfl⟩
    | classDecl name members span => exact .inr (.inl ⟨_, _, _, rfl⟩)
    | expression value span => exact .inr (.inr ⟨_, _, rfl⟩)
    | _ => cases hdeclaration
  guarded := by
    rintro inner guard span rfl innermost test place rfl
    cases hnode.made
  keys := by
    rintro fields span rfl
    exact hnode.made
  imported := by
    rintro source names kind span rfl
    obtain ⟨hsource, hnames, -⟩ := hnode.made
    refine ⟨hsource, ?_, ?_, ?_⟩
    · cases kind with
      | wholeModule =>
        obtain ⟨last, -, rfl⟩ := hnames
        exact List.cons_ne_nil _ _
      | defaultExport =>
        obtain ⟨name, rfl⟩ := hnames
        exact List.cons_ne_nil _ _
      | namedExports => exact hnames
    · rintro rfl
      exact hnames
    · rintro rfl
      exact hnames

end Node

/-- What may be assigned to is words joined by points. -/
theorem Expression.exists_word_of_path? {target : Expression} {path : String}
    (hformed : (Node.expression target).Every Node.Formed) (hpath : target.path? = some path) :
    ∃ first more, path.toList = first :: more ∧ isWordStart first = true ∧
      ∀ char ∈ more, isWordChar char = true ∨ char = '.' := by
  induction target using Expression.path?.induct generalizing path with
  | case1 text span =>
    cases hpath
    have hname : IsName text := hformed.self.made
    obtain ⟨first, more, htext, hstart⟩ := hname.exists_start
    have hchars := hname.chars
    rw [htext] at hchars
    exact ⟨first, more, htext, hstart, fun char hchar =>
      .inl (hchars char (List.mem_cons_of_mem first hchar))⟩
  | case2 owner key span ih =>
    obtain ⟨base, hbase, rfl⟩ := Option.map_eq_some_iff.mp hpath
    obtain ⟨first, more, hbase, hstart, hmore⟩ := ih hformed.children.head hbase
    have hkey : IsName key.name := hformed.self.made
    refine ⟨first, more ++ '.' :: key.name.toList, by simp [hbase], hstart, ?_⟩
    exact List.forall_mem_append.mpr ⟨hmore, List.forall_mem_cons.mpr ⟨.inr rfl, fun char hchar =>
      .inl (hkey.chars char hchar)⟩⟩
  | case3 other hname hproperty => simp [Expression.path?] at hpath

/-- Every program that is read off a text has this shape at every depth, and no statement of the
    program itself is a block. -/
theorem Program.shaped_of_ofSource {source : String} {program : Program}
    (hread : ofSource source = .ok program) :
    (∀ statement ∈ program.body, ∀ inner, statement ≠ .block inner) ∧
      ∀ node, program.Holds node → node.Shaped := by
  obtain ⟨hbody, hevery⟩ := formed_of_ofSource hread
  refine ⟨?_, fun node hnode => (hevery node hnode).self.shaped⟩
  rintro _ hstatement inner rfl
  cases hbody _ hstatement

/-- A compound assignment that is marked as local, in a block that is an alternative. -/
theorem Program.shaped_alternative : ∃ program,
    ofSource "if a then else local b += 1 end" = .ok program ∧
      (∀ statement ∈ program.body, ∀ inner, statement ≠ .block inner) ∧
      ∀ node, program.Holds node → node.Shaped := by
  have hread : ∃ program, ofSource "if a then else local b += 1 end" = .ok program :=
    ⟨_, by cbv⟩
  obtain ⟨program, hread⟩ := hread
  exact ⟨program, hread, shaped_of_ofSource hread⟩

end KaLang
