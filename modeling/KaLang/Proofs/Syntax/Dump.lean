import KaLang.Proofs.Syntax.Captions
import KaLang.Proofs.Text.Quoted

/-!
Dumps tell programs apart. An outline is read back as the tree that it shows, node by node: the
label says what kind of node it is, and the nodes below it are its parts (`Outline.part?`). Since
the outline is read off the text of the dump again, two programs with one dump show the same
(`Program.dump_eq_iff`).
-/

namespace KaLang

/-! ### Parts -/

/-- What an outline can stand for. -/
inductive Part where
  | expression (value : Expression)
  | statement (value : Statement)
  | block (value : Block)
  | member (value : ClassMember)
  | field (value : Field)
  | params (names : List Identifier)
  | alternative (value : Statement)
  | guard (test : Expression)
  | program (value : Program)

namespace Part

/-- The expression that a part is, if it is one. -/
def expression? : Part → Option Expression
  | expression value => some value
  | _ => none

/-- The statement that a part is, if it is one. -/
def statement? : Part → Option Statement
  | statement value => some value
  | _ => none

/-- The member that a part is, if it is one. -/
def member? : Part → Option ClassMember
  | member value => some value
  | _ => none

/-- The field that a part is, if it is one. -/
def field? : Part → Option Field
  | field value => some value
  | _ => none

/-- What is made of the parameters and the body of a function. -/
def function? {α : Type} (make : List Identifier → Block → α) : List Part → Option α
  | [block body] => some (make [] body)
  | [params names, block body] => some (make names body)
  | _ => none

/-- What is made of a callee and arguments. -/
def call? (make : Expression → List Expression → Expression) : List Part → Option Part
  | expression callee :: arguments =>
    some (expression (make callee (arguments.filterMap expression?)))
  | _ => none

/-- The part with a caption that is made of others. -/
def ofCaption? (caption : Caption) (parts : List Part) : Option Part :=
  let span := caption.span
  match caption.kind with
  | "String" =>
    some (expression (.string (String.ofList (Quoted.unquote caption.detail.toList)) span))
  | "Number" => some (expression (.number caption.detail span))
  | "Variable" => some (expression (.name caption.detail span))
  | "Array" => some (expression (.array (parts.filterMap expression?) span))
  | "Object" => some (expression (.object (parts.filterMap field?) span))
  | "PropertyAccess" => do
    let [expression owner] := parts | none
    let key := Identifier.ofName (String.ofList caption.detail.toList.tail)
    return expression (.property owner key span)
  | "Assign" => do
    let [expression target, expression value] := parts | none
    let (op, isLocal) ← AssignmentOperator.ofDetail? caption.detail
    return expression (.assign target op value isLocal span)
  | "Binary" => do
    let [expression left, expression right] := parts | none
    return expression (.binary left (← BinaryOperator.ofText? caption.detail) right span)
  | "Unary" => do
    let [expression operand] := parts | none
    return expression (.unary (← UnaryOperator.ofText? caption.detail) operand span)
  | "Lambda" => function? (fun params body => expression (.lambda params body span)) parts
  | "Call" => call? (fun callee arguments => .call callee arguments span) parts
  | "New" => call? (fun callee arguments => .construct callee arguments span) parts
  | "Body" | "Then" => some (block (.mk (parts.filterMap statement?) span))
  | "Block" => some (statement (.block (.mk (parts.filterMap statement?) span)))
  | "ExpressionStatement" => do
    let [expression value] := parts | none
    return statement (.expression value span)
  | "If" =>
    match parts with
    | [expression test, block thenBranch] =>
      some (statement (.condition test thenBranch none span))
    | [expression test, block thenBranch, alternative branch] =>
      some (statement (.condition test thenBranch (some branch) span))
    | _ => none
  | "For" => do
    let [expression iterable, block body] := parts | none
    return statement (.forLoop (.ofName caption.detail) iterable body span)
  | "While" => do
    let [expression test, block body] := parts | none
    return statement (.whileLoop test body span)
  | "Return" =>
    match parts with
    | [] => some (statement (.returnValue none span))
    | [expression value] => some (statement (.returnValue (some value) span))
    | _ => none
  | "Break" => some (statement (.breakLoop span))
  | "Continue" => some (statement (.continueLoop span))
  | "FunctionDeclaration" =>
    function? (fun params body =>
      statement (.functionDecl (.ofName caption.detail) params body span)) parts
  | "ClassDeclaration" =>
    some (statement (.classDecl (.ofName caption.detail) (parts.filterMap member?) span))
  | "Extern" => do
    let (kind, name) ← HostKind.ofDetail? caption.detail
    return statement (.hostDecl (.ofName name) kind span)
  | "Import" => do
    let (kind, source, names) ← ImportKind.ofDetail? caption.detail
    return statement (.importDecl (source.map .ofName) (names.map .ofName) kind span)
  | "Export" => do
    let [statement declaration] := parts | none
    return statement (.exportDecl declaration span)
  | "Guarded" => do
    let [statement inner, guard test] := parts | none
    return statement (.guarded inner test span)
  | "Field" => do
    let [expression value] := parts | none
    return member (.field (.ofName caption.detail) value span)
  | "Method" =>
    function? (fun params body =>
      member (.method (.ofDetail caption.detail) params body span)) parts
  | "Program" => some (program ⟨parts.filterMap statement?, span⟩)
  | "params" => some (params ((namesAmong caption.words).map .ofName))
  | "Else" => do
    let [statement branch] := parts | none
    return alternative branch
  | "When" => do
    let [expression test] := parts | none
    return guard test
  | _ => none

/-- The part with a label that is made of others. A key in quotes labels a field of an object. -/
def ofLabel? (label : String) (parts : List Part) : Option Part :=
  if label.toList.head? = some '"' then
    match parts with
    | [expression value] =>
      some (field (.mk (String.ofList (Quoted.unquote label.toList)) value))
    | _ => none
  else ofCaption? (.ofLabel label) parts

variable {parts : List Part}

theorem ofLabel?_kind {kind : String} (hkind : Caption.isKind kind = true) (rest : String) :
    ofLabel? (kind ++ rest) parts = ofCaption? (.ofLabel (kind ++ rest)) parts := by
  obtain ⟨first, hfirst, hletter⟩ := Caption.exists_head_kind hkind rest
  refine if_neg fun hquote => ?_
  rw [hfirst] at hquote
  cases hquote
  cases hletter

theorem filterMap_expression? (items : List Expression) :
    (items.map expression).filterMap expression? = items := by
  simp [List.filterMap_map, Function.comp_def, expression?]

theorem filterMap_statement? (items : List Statement) :
    (items.map statement).filterMap statement? = items := by
  simp [List.filterMap_map, Function.comp_def, statement?]

theorem filterMap_member? (items : List ClassMember) :
    (items.map member).filterMap member? = items := by
  simp [List.filterMap_map, Function.comp_def, member?]

theorem filterMap_field? (items : List Field) :
    (items.map field).filterMap field? = items := by
  simp [List.filterMap_map, Function.comp_def, field?]

end Part

mutual

/-- What an outline stands for. -/
def Outline.part? : Outline → Option Part
  | .node label children => Part.ofLabel? label (Outline.parts children)

/-- What outlines in a row stand for. -/
def Outline.parts : List Outline → List Part
  | [] => []
  | child :: more => (Outline.part? child).toList ++ Outline.parts more

end

/-! ### Reading back -/

/-- Whether an outline tells a part: the part is read back from it, and every label in it can stand
    on a line. -/
structure Tells (outline : Outline) (part : Part) : Prop where
  read : outline.part? = some part
  plain : outline.Plain

/-- Whether outlines in a row tell parts one by one. -/
def TellEach (outlines : List Outline) (parts : List Part) : Prop :=
  List.Forall₂ Tells outlines parts

variable {label kind detail : String} {outline other : Outline} {outlines others : List Outline}
  {part second : Part} {parts more : List Part}

theorem TellEach.parts_eq (houtlines : TellEach outlines parts) :
    Outline.parts outlines = parts := by
  induction houtlines with
  | nil => rfl
  | cons hfirst _ ih => simp [Outline.parts, hfirst.read, ih]

theorem TellEach.plain (houtlines : TellEach outlines parts) :
    ∀ outline ∈ outlines, outline.Plain := by
  induction houtlines with
  | nil => exact nofun
  | cons hfirst _ ih => exact List.forall_mem_cons.mpr ⟨hfirst.plain, ih⟩

theorem TellEach.single (houtline : Tells outline part) : TellEach [outline] [part] :=
  .cons houtline .nil

theorem TellEach.pair (houtline : Tells outline part) (hother : Tells other second) :
    TellEach [outline, other] [part, second] := .cons houtline (TellEach.single hother)

namespace Tells

theorem node (hlabel : Outline.IsLabel label) (houtlines : TellEach outlines parts)
    (hpart : Part.ofLabel? label parts = some part) : Tells (.node label outlines) part where
  read := by rw [Outline.part?, houtlines.parts_eq, hpart]
  plain := .node hlabel houtlines.plain

/-- A label with a word for the kind of node and a span. -/
theorem plainly (kind : String) (hkind : Caption.isKind kind = true) {span : Span}
    (houtlines : TellEach outlines parts)
    (hpart : ∀ words, Part.ofCaption? ⟨kind, words, "", span.shown⟩ parts = some part) :
    Tells (.node (kind ++ " " ++ span.label) outlines) part := by
  refine node ?_ houtlines ?_
  · rw [String.append_assoc]
    refine Caption.isLabel_kind hkind ?_
    simp [Caption.newline_not_mem_span]
  · rw [String.append_assoc, Part.ofLabel?_kind hkind, ← String.append_assoc,
      Caption.ofLabel_plain hkind, hpart]

/-- A label that says more about the node. -/
theorem detailed (kind : String) (hkind : Caption.isKind kind = true) {span : Span}
    (hdetail : '\n' ∉ detail.toList) (houtlines : TellEach outlines parts)
    (hpart : ∀ words, Part.ofCaption? ⟨kind, words, detail, span.shown⟩ parts = some part) :
    Tells (.node (kind ++ " " ++ detail ++ " " ++ span.label) outlines) part := by
  have hlabel : kind ++ " " ++ detail ++ " " ++ span.label =
      kind ++ (" " ++ detail ++ " " ++ span.label) := by simp [String.append_assoc]
  refine node ?_ houtlines ?_
  · rw [hlabel]
    refine Caption.isLabel_kind hkind ?_
    simp [Caption.newline_not_mem_span, hdetail]
  · rw [hlabel, Part.ofLabel?_kind hkind, ← hlabel, Caption.ofLabel_detail hkind, hpart]

end Tells

/-! ### Parameters -/

theorem tells_params {params : List Identifier} (hsome : params ≠ [])
    (hparams : ∀ name ∈ params, IsName name.name) :
    Tells (.leaf ("params " ++ Identifier.row params)) (.params (params.map Identifier.shown)) := by
  have hkind : Caption.isKind "params" = true := rfl
  have hlabel : "params " ++ Identifier.row params =
      "params" ++ (" " ++ Identifier.row params) := by
    simp [← String.toList_inj]
  have hbreak : '\n' ∉ (Identifier.row params).toList :=
    not_mem_intercalate (by decide) (by decide) hparams
  obtain ⟨detail, span, hcaption⟩ := Caption.exists_ofLabel hkind (Identifier.row params)
  have hnames : namesAmong (splitAtEach ' ' ([] ++ (Identifier.row params).toList ++ [])) =
      params.map Identifier.name := namesAmong_row hsome hparams nofun nofun
  rw [List.nil_append, List.append_nil] at hnames
  refine .node ?_ .nil ?_
  · rw [hlabel]
    exact Caption.isLabel_kind hkind (by simp [hbreak])
  · rw [hlabel, Part.ofLabel?_kind hkind, ← String.append_assoc, hcaption]
    have hparts : Part.ofCaption? ⟨"params", splitAtEach ' ' (Identifier.row params).toList,
        detail, span⟩ [] = some (.params ((namesAmong _).map .ofName)) := rfl
    rw [hparts, hnames, Identifier.map_ofName]

/-- What is made of the parameters and the body of a function is made of what their outlines
    tell. -/
theorem exists_tellEach_function {params : List Identifier} {body : Block}
    (hparams : ∀ name ∈ params, IsName name.name)
    (hbody : Tells (body.outline "Body") (.block body.shown)) :
    ∃ parts, TellEach (Identifier.outline params ++ [body.outline "Body"]) parts ∧
      ∀ {α : Type} (make : List Identifier → Block → α),
        Part.function? make parts = some (make (params.map Identifier.shown) body.shown) := by
  cases params with
  | nil => exact ⟨_, TellEach.single hbody, fun _ => rfl⟩
  | cons name more =>
    exact ⟨_, TellEach.pair (tells_params (List.cons_ne_nil _ _) hparams) hbody, fun _ => rfl⟩

/-! ### Trees -/

open Node (Formed isName_of_params)

theorem tells_field (key : String) {value : Expression}
    (hvalue : Tells value.outline (.expression value.shown)) :
    Tells (.node (Quoted.quote key ++ ":") [value.outline]) (.field (.mk key value.shown)) := by
  have hquote : (Quoted.quote key ++ ":").toList.head? = some '"' := by
    simp [Quoted.quote, Quoted.chars]
  refine .node ⟨?_, ?_⟩ (.single hvalue) ?_
  · simp [Quoted.newline_not_mem_quote]
  · rw [hquote]
    simp
  · rw [Part.ofLabel?, if_pos hquote]
    exact congrArg (fun key => some (Part.field (.mk key value.shown)))
      (Quoted.unquote_append key ":")

mutual

theorem tells_expression : (value : Expression) → (Node.expression value).Every Formed →
    Tells value.outline (.expression value.shown)
  | .string value span, _ =>
    .detailed "String" rfl (Quoted.newline_not_mem_quote value) .nil fun _ =>
      congrArg (fun value => some (Part.expression (.string value span.shown)))
        (Quoted.unquote_quote value)
  | .number text span, hvalue => by
    have hnumber : IsNumber text := hvalue.self.made
    have hbreak : '\n' ∉ text.toList := by
      intro hmem
      rcases hnumber.forall_mem _ hmem with hdigit | hpoint
      · cases hdigit
      · cases hpoint
    exact .detailed "Number" rfl hbreak .nil fun _ => rfl
  | .name text span, hvalue =>
    have hname : IsName text := hvalue.self.made
    .detailed "Variable" rfl (hname.not_mem (by decide)) .nil fun _ => rfl
  | .array items span, hvalue =>
    .plainly "Array" rfl (tells_expressions items hvalue.children) fun _ =>
      congrArg (fun items => some (Part.expression (.array items span.shown)))
        (Part.filterMap_expression? _)
  | .object fields span, hvalue =>
    .plainly "Object" rfl (tells_fields fields hvalue.children) fun _ =>
      congrArg (fun fields => some (Part.expression (.object fields span.shown)))
        (Part.filterMap_field? _)
  | .property owner key span, hvalue => by
    have hname : IsName key.name := hvalue.self.made
    have hlabel : "PropertyAccess ." ++ key.name ++ " " ++ span.label =
        "PropertyAccess" ++ " " ++ ("." ++ key.name) ++ " " ++ span.label := by
      simp [← String.toList_inj]
    have hbreak : '\n' ∉ key.name.toList := hname.not_mem (by decide)
    have hpointed : '\n' ∉ ("." ++ key.name).toList := by simp [hbreak]
    have hkey : String.ofList ("." ++ key.name).toList.tail = key.name := by simp
    rw [Expression.outline, hlabel]
    exact .detailed "PropertyAccess" rfl hpointed
      (.single (tells_expression owner hvalue.children.head)) fun _ =>
        congrArg (fun key =>
          some (Part.expression (.property owner.shown (.ofName key) span.shown))) hkey
  | .assign target op value isLocal span, hvalue => by
    have htarget := tells_expression target hvalue.children.head
    have hassigned := tells_expression value hvalue.children.tail.head
    have hlabel : "Assign " ++ op.text ++ (if isLocal then " local " else " ") ++ span.label =
        "Assign" ++ " " ++ (op.text ++ if isLocal then " local" else "") ++ " " ++ span.label := by
      cases isLocal <;> simp [← String.toList_inj]
    have hbreak : '\n' ∉ (op.text ++ if isLocal then " local" else "").toList := by
      cases op with
      | plain => cases isLocal <;> decide
      | compound op => cases op <;> cases isLocal <;> decide
    rw [Expression.outline, hlabel]
    refine .detailed "Assign" rfl hbreak (.pair htarget hassigned) fun _ => ?_
    simp only [Part.ofCaption?, AssignmentOperator.ofDetail?_text]
    rfl
  | .binary left op right span, hvalue => by
    have hleft := tells_expression left hvalue.children.head
    have hright := tells_expression right hvalue.children.tail.head
    refine .detailed "Binary" rfl (by cases op <;> decide) (.pair hleft hright) fun _ => ?_
    cases op <;> rfl
  | .unary op operand span, hvalue => by
    have hoperand := tells_expression operand hvalue.children.head
    refine .detailed "Unary" rfl (by cases op <;> decide) (.single hoperand) fun _ => ?_
    cases op <;> rfl
  | .lambda params body span, hvalue => by
    have hbody := tells_block "Body" (.inl rfl) body hvalue.children.last
    obtain ⟨parts, hparts, hfunction⟩ :=
      exists_tellEach_function (isName_of_params hvalue.children) hbody
    exact .plainly "Lambda" rfl hparts fun _ =>
      hfunction fun params body => Part.expression (.lambda params body span.shown)
  | .call callee arguments span, hvalue =>
    .plainly "Call" rfl (.cons (tells_expression callee hvalue.children.head)
      (tells_expressions arguments hvalue.children.tail)) fun _ =>
        congrArg (fun items => some (Part.expression (.call callee.shown items span.shown)))
          (Part.filterMap_expression? _)
  | .construct callee arguments span, hvalue =>
    .plainly "New" rfl (.cons (tells_expression callee hvalue.children.head)
      (tells_expressions arguments hvalue.children.tail)) fun _ =>
        congrArg (fun items => some (Part.expression (.construct callee.shown items span.shown)))
          (Part.filterMap_expression? _)

theorem tells_expressions : (items : List Expression) →
    Node.EachEvery Formed (items.map .expression) →
    TellEach (Expression.outlines items) ((Expression.shownAll items).map .expression)
  | [], _ => .nil
  | item :: more, hitems =>
    .cons (tells_expression item hitems.head) (tells_expressions more hitems.tail)

theorem tells_fields : (fields : List Field) →
    Node.EachEvery Formed ((fields.map Field.value).map .expression) →
    TellEach (Field.outlines fields) ((Field.shownAll fields).map .field)
  | [], _ => .nil
  | .mk key value :: more, hfields =>
    .cons (tells_field key (tells_expression value hfields.head)) (tells_fields more hfields.tail)

theorem tells_block (heading : String) (hheading : heading = "Body" ∨ heading = "Then") :
    (body : Block) → (Node.block body).Every Formed →
    Tells (body.outline heading) (.block body.shown)
  | .mk body span, hbody => by
    have hstatements := tells_statements body hbody.children
    rcases hheading with rfl | rfl
    · exact .plainly "Body" rfl hstatements fun _ =>
        congrArg (fun body => some (Part.block (.mk body span.shown))) (Part.filterMap_statement? _)
    · exact .plainly "Then" rfl hstatements fun _ =>
        congrArg (fun body => some (Part.block (.mk body span.shown))) (Part.filterMap_statement? _)

theorem tells_statements : (body : List Statement) →
    Node.EachEvery Formed (body.map .statement) →
    TellEach (Statement.outlines body) ((Statement.shownAll body).map .statement)
  | [], _ => .nil
  | first :: more, hbody =>
    .cons (tells_statement first hbody.head) (tells_statements more hbody.tail)

theorem tells_statement : (value : Statement) → (Node.statement value).Every Formed →
    Tells value.outline (.statement value.shown)
  | .expression value span, hvalue =>
    .plainly "ExpressionStatement" rfl (.single (tells_expression value hvalue.children.head))
      fun _ => rfl
  | .block (.mk body span), hvalue =>
    .plainly "Block" rfl (tells_statements body hvalue.children.head.children) fun _ =>
      congrArg (fun body => some (Part.statement (.block (.mk body span.shown))))
        (Part.filterMap_statement? _)
  | .condition test thenBranch none span, hvalue =>
    .plainly "If" rfl (.pair (tells_expression test hvalue.children.head)
      (tells_block "Then" (.inr rfl) thenBranch hvalue.children.tail.head)) fun _ => rfl
  | .condition test thenBranch (some branch) span, hvalue => by
    have hbranch := tells_statement branch hvalue.children.tail.tail.head
    have helse : Tells (.node "Else" [branch.outline]) (.alternative branch.shown) :=
      .node ⟨by decide, by decide⟩ (.single hbranch) rfl
    exact .plainly "If" rfl (.cons (tells_expression test hvalue.children.head)
      (TellEach.pair (tells_block "Then" (.inr rfl) thenBranch hvalue.children.tail.head) helse))
      fun _ => rfl
  | .forLoop item iterable body span, hvalue => by
    have hname : IsName item.name := hvalue.self.made
    exact .detailed "For" rfl (hname.not_mem (by decide))
      (.pair (tells_expression iterable hvalue.children.head)
        (tells_block "Body" (.inl rfl) body hvalue.children.tail.head)) fun _ => rfl
  | .whileLoop test body span, hvalue =>
    .plainly "While" rfl (.pair (tells_expression test hvalue.children.head)
      (tells_block "Body" (.inl rfl) body hvalue.children.tail.head)) fun _ => rfl
  | .returnValue none span, _ => .plainly "Return" rfl .nil fun _ => rfl
  | .returnValue (some value) span, hvalue =>
    .plainly "Return" rfl (.single (tells_expression value hvalue.children.head)) fun _ => rfl
  | .breakLoop span, _ => .plainly "Break" rfl .nil fun _ => rfl
  | .continueLoop span, _ => .plainly "Continue" rfl .nil fun _ => rfl
  | .functionDecl name params body span, hvalue => by
    have hname : IsName name.name := hvalue.self.made
    have hbody := tells_block "Body" (.inl rfl) body hvalue.children.last
    obtain ⟨parts, hparts, hfunction⟩ :=
      exists_tellEach_function (isName_of_params hvalue.children) hbody
    exact .detailed "FunctionDeclaration" rfl (hname.not_mem (by decide)) hparts fun _ =>
      hfunction fun params body =>
        Part.statement (.functionDecl name.shown params body span.shown)
  | .classDecl name members span, hvalue => by
    have hname : IsName name.name := hvalue.self.made
    exact .detailed "ClassDeclaration" rfl (hname.not_mem (by decide))
      (tells_members members hvalue.children) fun _ =>
        congrArg (fun members => some (Part.statement (.classDecl name.shown members span.shown)))
          (Part.filterMap_member? _)
  | .hostDecl name kind span, hvalue => by
    have hname : IsName name.name := hvalue.self.made
    have hlabel : "Extern " ++ kind.label ++ " " ++ name.name ++ " " ++ span.label =
        "Extern" ++ " " ++ (kind.label ++ " " ++ name.name) ++ " " ++ span.label := by
      simp [← String.toList_inj]
    have hkind : '\n' ∉ kind.label.toList := by cases kind <;> decide
    have hword : '\n' ∉ name.name.toList := hname.not_mem (by decide)
    have hbreak : '\n' ∉ (kind.label ++ " " ++ name.name).toList := by simp [hkind, hword]
    rw [Statement.outline, hlabel]
    refine .detailed "Extern" rfl hbreak .nil fun _ => ?_
    simp only [Part.ofCaption?, HostKind.ofDetail?_label hname]
    rfl
  | .importDecl source names kind span, hvalue => by
    obtain ⟨hsome, hbinds, hsource, hnames⟩ := hvalue.self.made
    have hbound : names ≠ [] := hbinds.names_ne_nil
    have hlabel : "Import " ++ kind.label ++ " " ++ ".".intercalate (source.map Identifier.name) ++
        " [" ++ Identifier.row names ++ "] " ++ span.label =
          "Import" ++ " " ++ kind.detail source names ++ " " ++ span.label := by
      simp [← String.toList_inj, ImportKind.detail]
    rw [Statement.outline, hlabel]
    refine .detailed "Import" rfl (ImportKind.newline_not_mem_detail hsource hnames kind) .nil
      fun _ => ?_
    simp only [Part.ofCaption?, ImportKind.ofDetail?_detail hsome hsource hbound hnames]
    rw [Statement.shown, ← Identifier.map_ofName, ← Identifier.map_ofName]
    rfl
  | .exportDecl declaration span, hvalue =>
    .plainly "Export" rfl (.single (tells_statement declaration hvalue.children.head)) fun _ => rfl
  | .guarded inner test span, hvalue => by
    have hwhen : Tells (.node "When" [test.outline]) (.guard test.shown) :=
      .node ⟨by decide, by decide⟩
        (.single (tells_expression test hvalue.children.tail.head)) rfl
    exact .plainly "Guarded" rfl (.pair (tells_statement inner hvalue.children.head) hwhen)
      fun _ => rfl

theorem tells_members : (members : List ClassMember) →
    Node.EachEvery Formed (members.map .member) →
    TellEach (ClassMember.outlines members) ((ClassMember.shownAll members).map .member)
  | [], _ => .nil
  | first :: more, hmembers =>
    .cons (tells_member first hmembers.head) (tells_members more hmembers.tail)

theorem tells_member : (value : ClassMember) → (Node.member value).Every Formed →
    Tells value.outline (.member value.shown)
  | .field name value span, hvalue => by
    have hname : IsName name.name := hvalue.self.made
    exact .detailed "Field" rfl (hname.not_mem (by decide))
      (.single (tells_expression value hvalue.children.head)) fun _ => rfl
  | .method name params body span, hvalue => by
    have hbody := tells_block "Body" (.inl rfl) body hvalue.children.last
    obtain ⟨parts, hparts, hfunction⟩ :=
      exists_tellEach_function (isName_of_params hvalue.children) hbody
    have hname : MethodName.ofDetail name.label = name.shown ∧ '\n' ∉ name.label.toList := by
      cases name with
      | identifier name =>
        have hname : IsName name.name := hvalue.self.made
        exact ⟨MethodName.ofDetail_identifier hname, hname.not_mem (by decide)⟩
      | operator op span =>
        have hsign : '\n' ∉ op.text.toList := by cases op <;> decide
        exact ⟨MethodName.ofDetail_operator op span, by simp [MethodName.label, hsign]⟩
    refine .detailed "Method" rfl hname.2 hparts fun _ => ?_
    rw [ClassMember.shown, ← hname.1]
    exact hfunction fun params body =>
      Part.member (.method (.ofDetail name.label) params body span.shown)

end

theorem Program.tells {source : String} {program : Program}
    (hread : ofSource source = .ok program) : Tells program.outline (.program program.shown) := by
  have hbody := tells_statements program.body (eachFormed_of_ofSource hread)
  exact .plainly "Program" rfl hbody fun _ =>
    congrArg (fun body => some (Part.program ⟨body, program.span.shown⟩))
      (Part.filterMap_statement? _)

/-! ### Dumps -/

/-- Two sources have the same dump exactly if they are the same program but for what the dump does
    not show: byte offsets, and the places of the names that stand in labels. -/
theorem Program.dump_eq_iff {source text : String} {program other : Program}
    (hprogram : ofSource source = .ok program) (hother : ofSource text = .ok other) :
    program.dump = other.dump ↔ program.shown = other.shown := by
  have htells := tells hprogram
  have hothers := tells hother
  constructor
  · intro hdump
    have houtline : program.outline = other.outline :=
      Outline.eq_of_text htells.plain hothers.plain hdump
    have hpart := htells.read
    rw [houtline, hothers.read] at hpart
    exact (Part.program.inj (Option.some.inj hpart)).symm
  · intro hshown
    rw [dump, dump, ← outline_shown program, ← outline_shown other, hshown]

/-- An import as a dump shows it. -/
def shownImport : Program :=
  ⟨[.importDecl [.ofName "a", .ofName "b"] [.ofName "b"] .wholeModule ⟨⟨0, 1, 0⟩, ⟨0, 1, 10⟩⟩],
    ⟨⟨0, 0, 0⟩, ⟨0, 1, 10⟩⟩⟩

/-- The dump shows neither where the first segment stands nor how many bytes the comment has. -/
theorem Program.dump_eq_iff_commented : ∃ program other,
    ofSource "# é\nimport  a.b" = .ok program ∧ ofSource "# e\nimport a .b" = .ok other ∧
      program.dump = other.dump := by
  have hprogram : ∃ program, ofSource "# é\nimport  a.b" = .ok program ∧
      program.shown = shownImport := ⟨_, by cbv, by cbv⟩
  have hother : ∃ other, ofSource "# e\nimport a .b" = .ok other ∧
      other.shown = shownImport := ⟨_, by cbv, by cbv⟩
  obtain ⟨program, hprogram, hshown⟩ := hprogram
  obtain ⟨other, hother, hsame⟩ := hother
  exact ⟨program, other, hprogram, hother,
    (dump_eq_iff hprogram hother).mpr (hshown.trans hsame.symm)⟩

end KaLang
