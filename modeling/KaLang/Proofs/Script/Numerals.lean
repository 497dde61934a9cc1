import KaLang.Compile
import KaLang.Proofs.Script.NumberLiterals
import KaLang.Proofs.Script.Rendering

/-!
The numbers of a program in its script. They are listed in the order in which the script has them,
each with the mark whether a property of it is taken right behind. The number literals of the script
are those, one by one; a number keeps its value if it has no superfluous zero in front and, where a
property is taken, a fraction, and else it is no literal at all (`Program.values_body`).
-/

namespace KaLang

open Emitter
open Scanner (Mode isQuiet)

/-! ### Numbers of trees -/

namespace Numerals

mutual

/-- The numbers of an expression, where a property may be taken right behind it. A number alone is
    put in parentheses then; only the value of a plain assignment is not. -/
def expression (pointed : Bool) : Expression → List Numeral
  | .string _ _ | .name _ _ => []
  | .number text _ => [⟨text, pointed⟩]
  | .array items _ => expressions items
  | .object entries _ => fields entries
  | .property owner _ _ => expression (!isNumber owner) owner
  | .assign target op value _ _ =>
    expression false target ++ expression (pointed && op = .plain) value
  | .binary left _ right _ => expression false left ++ expression false right
  | .unary _ operand _ => expression false operand
  | .lambda _ body _ => block body
  | .call callee arguments _ | .construct callee arguments _ =>
    expression false callee ++ expressions arguments

/-- The numbers of expressions in a row. -/
def expressions : List Expression → List Numeral
  | [] => []
  | item :: more => expression false item ++ expressions more

/-- The numbers of the fields of an object. -/
def fields : List Field → List Numeral
  | [] => []
  | .mk _ value :: more => expression false value ++ fields more

/-- The numbers of a block. -/
def block : Block → List Numeral
  | .mk body _ => statements body

/-- The numbers of statements in a row. -/
def statements : List Statement → List Numeral
  | [] => []
  | first :: more => statement first ++ statements more

/-- The numbers of a statement. The test of a guard is written first. -/
def statement : Statement → List Numeral
  | .expression value _ => expression false value
  | .block inner => block inner
  | .condition test thenBranch none _ => expression false test ++ block thenBranch
  | .condition test thenBranch (some branch) _ =>
    expression false test ++ block thenBranch ++ statement branch
  | .forLoop _ iterable body _ => expression false iterable ++ block body
  | .whileLoop test body _ => expression false test ++ block body
  | .returnValue none _ | .breakLoop _ | .continueLoop _ => []
  | .returnValue (some value) _ => expression false value
  | .functionDecl _ _ body _ => block body
  | .classDecl _ parts _ => members parts
  | .hostDecl _ _ _ | .importDecl _ _ _ _ => []
  | .exportDecl declaration _ => statement declaration
  | .guarded inner test _ => expression false test ++ statement inner

/-- The numbers of the members of a class. -/
def members : List ClassMember → List Numeral
  | [] => []
  | first :: more => member first ++ members more

/-- The numbers of a member of a class. -/
def member : ClassMember → List Numeral
  | .field _ value _ => expression false value
  | .method _ _ body _ => block body

end

/-- There is no number in what may be assigned to. -/
theorem expression_of_path? {target : Expression} {path : String}
    (hpath : target.path? = some path) (pointed : Bool) : expression pointed target = [] := by
  induction target using Expression.path?.induct generalizing path pointed with
  | case1 text span => rfl
  | case2 owner key span ih =>
    obtain ⟨base, hbase, _⟩ := Option.map_eq_some_iff.mp hpath
    exact ih hbase _
  | case3 other hname hproperty => simp [Expression.path?] at hpath

/-- The numbers of a node, where no property is taken of it. -/
def node : Node → List Numeral
  | .statement value => statement value
  | .expression value => expression false value
  | .block value => block value
  | .member value => member value
  | .parameter _ => []

theorem expressions_eq_flatMap (items : List Expression) :
    expressions items = (items.map .expression).flatMap node := by
  induction items with
  | nil => rfl
  | cons item more ih => simp [expressions, ih, node]

theorem fields_eq_flatMap (entries : List Field) :
    fields entries = ((entries.map Field.value).map .expression).flatMap node := by
  induction entries with
  | nil => rfl
  | cons entry more ih =>
    cases entry with
    | mk key value => simp [fields, ih, node, Field.value]

theorem statements_eq_flatMap (body : List Statement) :
    statements body = (body.map .statement).flatMap node := by
  induction body with
  | nil => rfl
  | cons first more ih => simp [statements, ih, node]

theorem members_eq_flatMap (parts : List ClassMember) :
    members parts = (parts.map .member).flatMap node := by
  induction parts with
  | nil => rfl
  | cons first more ih => simp [members, ih, node]

/-- Only the marks depend on what stands behind. -/
theorem map_text_expression (pointed : Bool) : ∀ value,
    (expression pointed value).map Numeral.text = (expression false value).map Numeral.text
  | .number _ _ => rfl
  | .assign target op value _ _ => by
    have hvalue := map_text_expression (pointed && op = .plain) value
    simp [expression, hvalue]
  | .string _ _ | .name _ _ | .array _ _ | .object _ _ | .property _ _ _ | .binary _ _ _ _
  | .unary _ _ _ | .lambda _ _ _ | .call _ _ _ | .construct _ _ _ => rfl

@[simp] theorem flatMap_node_parameters (params : List Identifier) :
    (params.map Node.parameter).flatMap node = [] := by
  simp [List.flatMap_map, node]

/-- No number below a node is missed. -/
theorem texts_children_subset (parent : Node) :
    (parent.children.flatMap node).map Numeral.text ⊆ (node parent).map Numeral.text := by
  cases parent with
  | parameter value => exact List.nil_subset _
  | block value =>
    cases value with
    | mk body span => simp [Node.children, node, block, statements_eq_flatMap]
  | member value => cases value <;> simp [Node.children, node, member]
  | expression value =>
    cases value with
    | property owner key span =>
      have howner := map_text_expression (!isNumber owner) owner
      simp [Node.children, node, expression, howner]
    | _ => simp [Node.children, node, expression, expressions_eq_flatMap, fields_eq_flatMap]
  | statement value =>
    cases value with
    | condition test thenBranch elseBranch span =>
      cases elseBranch <;> simp [Node.children, node, statement]
    | returnValue value span => cases value <;> simp [Node.children, node, statement]
    | _ => simp [Node.children, node, statement, members_eq_flatMap]

end Numerals

/-- The numbers of a program, in the order in which they are written. -/
def Program.numerals (program : Program) : List Numeral := Numerals.statements program.body

/-- Every number of the tree is among them. -/
theorem Program.exists_mem_numerals {program : Program} {text : String} {span : Span}
    (hnumber : program.Holds (.expression (.number text span))) :
    ∃ pointed, ⟨text, pointed⟩ ∈ program.numerals := by
  have hrow {node : Node} {nodes : List Node} (hnode : node ∈ nodes) :
      (Numerals.node node).map Numeral.text ⊆ (nodes.flatMap Numerals.node).map Numeral.text :=
    List.map_subset _ fun numeral hmem => List.mem_flatMap.mpr ⟨node, hnode, hmem⟩
  have hmem {node : Node} (hnode : program.Holds node) :
      (Numerals.node node).map Numeral.text ⊆ program.numerals.map Numeral.text := by
    induction hnode with
    | body hstatement =>
      rw [numerals, Numerals.statements_eq_flatMap]
      exact hrow (List.mem_map_of_mem hstatement)
    | child _ hchild ih =>
      have hbelow := List.Subset.trans (Numerals.texts_children_subset _) ih
      exact List.Subset.trans (hrow hchild) hbelow
  obtain ⟨⟨_, pointed⟩, hnumeral, rfl⟩ := List.mem_map.mp (hmem hnumber List.mem_cons_self)
  exact ⟨pointed, hnumeral⟩

namespace NumberLiteral

variable {width : Nat} {numerals others : List Numeral} {pointed : Bool → List Numeral}
  {text : String} {code head : Layout} {codes lines : List Layout}

/-! ### Texts with names -/

theorem Ahead.name (hname : IsName text) : Ahead (fun _ => []) text.toList := by
  obtain ⟨first, more, htext, hstart⟩ := hname.exists_start
  have hchars := hname.chars
  rw [htext] at hchars ⊢
  exact .word hstart fun char hchar =>
    isInner_of_isWordChar (hchars char (List.mem_cons_of_mem first hchar))

theorem Ahead.path {target : Expression} (hformed : (Node.expression target).Every Node.Formed)
    (hpath : target.path? = some text) : Ahead (fun _ => []) text.toList := by
  obtain ⟨first, more, htext, hstart, hmore⟩ := Expression.exists_word_of_path? hformed hpath
  rw [htext]
  refine .word hstart fun char hchar => ?_
  rcases hmore char hchar with hword | rfl
  · exact isInner_of_isWordChar hword
  · rfl

theorem Lists.names {names : List Identifier} (hnames : ∀ name ∈ names, IsName name.name) :
    Lists [] (Identifier.row names).toList := by
  rw [Identifier.row, String.toList_intercalate, List.map_map]
  refine .intercalate (.of_isSeparating rfl) (.none (List.forall_mem_map.mpr fun name hname => ?_))
  exact (Ahead.name (hnames name hname)).lists

/-- Texts that are known around one without numbers. -/
theorem Opens.around {ahead behind : String} (hahead : isOpening ahead = true)
    (htext : Lists [] text.toList) (hbehind : isSeparating behind = true) :
    Opens (ahead ++ text ++ behind).toList := by
  rw [String.toList_append, String.toList_append]
  exact ((Opens.of_isOpening hahead).append htext).opens (.of_isSeparating hbehind)

theorem Opens.behind {behind : String} (htext : Lists [] text.toList)
    (hbehind : isSeparating behind = true) : Opens (text ++ behind).toList := by
  rw [String.toList_append]
  exact htext.opens (.of_isSeparating hbehind)

/-- A head with parameters. -/
theorem Opens.parameters {params : List Identifier} (htext : Lists [] text.toList)
    (hparams : ∀ name ∈ params, IsName name.name) :
    Opens (text ++ "(" ++ Identifier.row params ++ ") ").toList := by
  rw [String.toList_append, String.toList_append]
  have hopen : Opens (text ++ "(").toList := .behind htext rfl
  exact (hopen.append (.names hparams)).opens (.of_isSeparating rfl)

theorem Lists.signature {params : List Identifier} (htext : Lists [] ("function" ++ text).toList)
    (hparams : ∀ name ∈ params, IsName name.name) :
    Lists [] ((Emitter.signature text params).chars width) := by
  rw [Emitter.signature, Layout.chars_ofText]
  exact (Opens.parameters htext hparams).lists

theorem Opens.reference {key : String}
    (hplain : ∀ char ∈ key.toList, Scanner.stepString char = some .string) :
    Opens (Preamble.reference key ++ "(").toList := by
  have hahead : Opens "__kaOperators[".toList := .of_isOpening rfl
  have hbehind : Separates "](".toList := .of_isSeparating rfl
  have hkey : Ahead (fun _ => []) ('"' :: (key.toList ++ ['"'])) :=
    .literal rfl (Mode.closes_string hplain)
  have hopens := (hahead.ahead hkey).lists.opens hbehind
  simpa [Preamble.reference, Preamble.operatorTable] using hopens

theorem Ahead.template (value : String) : Ahead (fun _ => []) (Literal.template value).toList := by
  rw [Literal.template, String.toList_ofList, List.cons_append]
  exact .literal rfl (Mode.closes_template (.inl rfl))

theorem Ahead.key (value : String) : Ahead (fun _ => []) (Literal.key value).toList := by
  rw [Literal.key, String.toList_ofList, List.cons_append]
  exact .literal rfl (Mode.closes_key value.toList)

/-! ### Layouts -/

theorem Separates.newline (width depth : Nat) :
    Separates (Layout.chars width [.newline depth]) := by
  have hchars : Layout.chars width [.newline depth] =
      '\n' :: List.replicate (width * depth) ' ' := by
    simp [Layout.chars, Piece.render]
  rw [hchars]
  refine .of_signs (List.cons_ne_nil _ _) (List.forall_mem_cons.mpr ⟨⟨rfl, rfl⟩, ?_⟩)
  intro char hchar
  rw [List.eq_of_mem_replicate hchar]
  exact ⟨rfl, rfl⟩

theorem Ahead.inParentheses (hcode : Lists numerals (code.chars width)) :
    Ahead (fun _ => numerals) ((inParentheses code).chars width) := by
  have hopen : Opens "(".toList := .of_isOpening rfl
  have hclose : Separates ")".toList := .of_isSeparating rfl
  simp only [Emitter.inParentheses, Layout.chars_append, Layout.chars_ofText]
  exact (hopen.append hcode).shut hclose

theorem Lists.inParenthesesIf (hcode : Lists numerals (code.chars width)) (needed : Bool) :
    Lists numerals ((inParenthesesIf needed code).chars width) := by
  cases needed with
  | true => exact (Ahead.inParentheses hcode).lists
  | false => exact hcode

theorem Lists.row (hcodes : ListsEach numerals (codes.map (Layout.chars width))) :
    Lists numerals ((Layout.row codes).chars width) := by
  have hcomma : Separates ", ".toList := .of_isSeparating rfl
  rw [Layout.chars_row]
  exact .intercalate hcomma hcodes

/-- A list in brackets. -/
theorem Ahead.bracketed {opening close : Char} {items : List (List Char)} {chars : List Char}
    (hchars : ScriptReader.Bracketed opening close items chars)
    (hopening : isQuiet opening = true ∧ isInner opening = false)
    (hclose : isQuiet close = true ∧ isInner close = false) (hitems : ListsEach numerals items) :
    Ahead (fun _ => numerals) chars := by
  have hblank {gap : List Char} (hgap : ScriptReader.Blank gap) :
      ∀ char ∈ gap, isQuiet char = true ∧ isInner char = false := by
    intro char hchar
    rcases hgap char hchar with rfl | rfl <;> exact ⟨rfl, rfl⟩
  cases hchars with
  | @intro front gap back hfront hgap hback =>
    have hahead : Separates (opening :: front) :=
      .of_signs (List.cons_ne_nil _ _) (List.forall_mem_cons.mpr ⟨hopening, hblank hfront⟩)
    have hbehind : Separates (back ++ [close]) := by
      refine .of_signs (List.append_ne_nil_of_right_ne_nil back (List.cons_ne_nil _ _)) ?_
      exact List.forall_mem_append.mpr ⟨hblank hback, List.forall_mem_singleton.mpr hclose⟩
    have hseparator : Separates (',' :: gap) :=
      .of_signs (List.cons_ne_nil _ _) (List.forall_mem_cons.mpr ⟨⟨rfl, rfl⟩, hblank hgap⟩)
    have hinside := Lists.intercalate hseparator hitems
    have hlist := (hahead.toOpens.append hinside).shut hbehind
    simpa using hlist

theorem Ahead.array (depth : Nat) (hcodes : ListsEach numerals (codes.map (Layout.chars width))) :
    Ahead (fun _ => numerals) ((Emitter.array depth codes).chars width) :=
  .bracketed (ScriptReader.bracketed_array width depth codes) ⟨rfl, rfl⟩ ⟨rfl, rfl⟩ hcodes

theorem Ahead.object (depth : Nat) (hcodes : ListsEach numerals (codes.map (Layout.chars width))) :
    Ahead (fun _ => numerals) ((Emitter.object depth codes).chars width) :=
  .bracketed (ScriptReader.bracketed_object width depth codes) ⟨rfl, rfl⟩ ⟨rfl, rfl⟩ hcodes

/-- A head with lines in braces. -/
theorem Ahead.braced (depth : Nat) (hhead : Lists others (head.chars width))
    (hlines : ListsEach numerals (lines.map (Layout.chars width))) :
    Ahead (fun _ => others ++ numerals) ((Layout.braced depth head lines).chars width) := by
  cases lines with
  | nil =>
    cases hlines
    rw [List.append_nil, Layout.braced, Layout.chars_append, Layout.chars_ofText]
    exact hhead.shut (.of_isSeparating rfl)
  | cons first more =>
    have hbrace : Separates "\x7b".toList := .of_isSeparating rfl
    have hopen : Separates ("\x7b".toList ++ Layout.chars width [.newline (depth + 1)]) :=
      hbrace.append (.newline width (depth + 1))
    have hclose : Separates (Layout.chars width [.newline depth] ++ "\x7d".toList) :=
      (Separates.newline width depth).append (.of_isSeparating rfl)
    have hinside := Lists.intercalate (.newline width (depth + 1)) hlines
    have hblock := (hhead.join hopen hinside).shut hclose
    simp only [Layout.braced, Layout.lines, Layout.chars_append, Layout.chars_ofText,
      Layout.chars_intercalate]
    simpa using hblock

/-- A head without numbers. -/
theorem Ahead.headed (depth : Nat) (hhead : Lists [] (head.chars width))
    (hlines : ListsEach numerals (lines.map (Layout.chars width))) :
    Ahead (fun _ => numerals) ((Layout.braced depth head lines).chars width) :=
  .braced depth hhead hlines

theorem Ahead.applied {key : String}
    (hplain : ∀ char ∈ key.toList, Scanner.stepString char = some .string)
    (hcodes : ListsEach numerals (codes.map (Layout.chars width))) :
    Ahead (fun _ => numerals) ((Emitter.applied key codes).chars width) := by
  have hclose : Separates ")".toList := .of_isSeparating rfl
  rw [Emitter.applied, Layout.chars_append, Layout.chars_append, Layout.chars_ofText,
    Layout.chars_ofText]
  exact ((Opens.reference hplain).append (.row hcodes)).shut hclose

/-- The value of a compound assignment stands in parentheses. -/
theorem Ahead.assigned {op : AssignmentOperator} (htarget : Lists [] text.toList)
    (hcode : Ahead pointed (code.chars width)) :
    Ahead (fun behind => pointed (behind && op = .plain))
      ((Emitter.assigned text op code).chars width) := by
  cases op with
  | plain => simpa [Emitter.assigned] using hcode
  | compound op =>
    have hoperands : ListsEach (pointed false)
        ([Layout.ofText text, code].map (Layout.chars width)) := by
      simpa using ListsEach.cons htarget (.single hcode.lists)
    have hkey : ∀ char ∈ (Preamble.binaryKey op).toList,
        Scanner.stepString char = some .string :=
      Preamble.Tame.stepString_binary op
    simpa [Emitter.assigned] using Ahead.applied hkey hoperands

/-- A property of what is written. -/
theorem Ahead.property {chars : List Char} (hchars : Ahead pointed chars) (hkey : IsName text) :
    Ahead (fun _ => pointed true) (chars ++ ("." ++ text).toList) := by
  refine ⟨fun {behind} hbehind => ?_⟩
  obtain ⟨first, more, htext, hstart⟩ := hkey.exists_start
  have hinner := hkey.chars
  rw [htext] at hinner
  have hmore : ∀ char ∈ more ++ behind, isInner char = true :=
    List.forall_mem_append.mpr ⟨fun char hchar =>
      isInner_of_isWordChar (hinner char (List.mem_cons_of_mem first hchar)), hbehind.forall_inner⟩
  simpa [htext] using hchars.access (.property hstart hmore)

/-- What is applied to arguments. -/
theorem Ahead.call (hcode : Lists numerals (code.chars width))
    (hcodes : ListsEach others (codes.map (Layout.chars width))) :
    Ahead (fun _ => numerals ++ others)
      ((code ++ Emitter.inParentheses (Layout.row codes)).chars width) := by
  have hopen : Separates "(".toList := .of_isSeparating rfl
  have hclose : Separates ")".toList := .of_isSeparating rfl
  have hcall := (hcode.join hopen (.row hcodes)).shut hclose
  simpa [Emitter.inParentheses] using hcall

theorem Lists.ofText (htext : Lists [] text.toList) :
    Lists [] ((Layout.ofText text).chars width) := by
  rwa [Layout.chars_ofText]

theorem Lists.known (htext : text.toList.all isStill = true) :
    Lists [] ((Layout.ofText text).chars width) :=
  .ofText (Ahead.known htext).lists

/-- What stands between two texts that are known. -/
theorem Lists.between {ahead behind : String} (hahead : Opens ahead.toList)
    (hcode : Lists numerals (code.chars width)) (hbehind : isSeparating behind = true) :
    Lists numerals ((Layout.ofText ahead ++ code ++ .ofText behind).chars width) := by
  simp only [Layout.chars_append, Layout.chars_ofText]
  exact ((hahead.append hcode).shut (.of_isSeparating hbehind)).lists

theorem Lists.test (hcode : Lists numerals (code.chars width)) :
    Lists numerals ((Layout.ofText "if (" ++ code ++ .ofText ") ").chars width) :=
  .between (.of_isOpening rfl) hcode rfl

theorem Lists.expressionLine (hcode : Lists numerals (code.chars width)) :
    Lists numerals ((Emitter.expressionLine code).chars width) := by
  rw [Emitter.expressionLine, Layout.chars_append, Layout.chars_ofText]
  exact ((hcode.inParenthesesIf _).shut (.of_isSeparating rfl)).lists

theorem Lists.beside (hcode : Lists numerals (code.chars width))
    (hrest : Lists others (head.chars width)) :
    Lists (numerals ++ others) ((code ++ Layout.ofText " " ++ head).chars width) := by
  have hgap : Separates " ".toList := .of_isSeparating rfl
  rw [Layout.chars_append, Layout.chars_append, Layout.chars_ofText, List.append_assoc]
  exact hcode.join hgap hrest

end NumberLiteral

/-! ### The pass -/

namespace NumberLiteral

variable {width : Nat}

theorem stepString_unaryKey (op : UnaryOperator) :
    ∀ char ∈ (Preamble.unaryKey op).toList, Scanner.stepString char = some .string := by
  cases op <;> simp [Preamble.unaryKey, UnaryOperator.text, Scanner.stepString]

theorem Lists.letLine {name : String} (hname : IsName name) :
    Lists [] ((Layout.letLine name).chars width) := by
  rw [Layout.letLine, Layout.chars_ofText]
  exact (Opens.around rfl (Ahead.name hname).lists rfl).lists

theorem Lists.methodName {name : MethodName} {params : List Identifier} {body : Block}
    {span : Span} (hmade : (Node.member (.method name params body span)).Made) :
    Lists [] (Emitter.methodName name).toList := by
  cases name with
  | identifier name =>
    unfold Emitter.methodName
    dsimp only
    split
    · exact (Ahead.known rfl).lists
    · exact (Ahead.name hmade).lists
  | operator op place =>
    have hstring : Ahead (fun _ => []) ('"' :: (op.text.toList ++ ['"'])) :=
      .literal rfl (Mode.closes_string (Preamble.Tame.stepString_binary op))
    simpa [Emitter.methodName] using hstring.lists

theorem Lists.importLine {source names : List Identifier} (kind : ImportKind) (found : Bool)
    (hsource : ∀ segment ∈ source, IsName segment.name)
    (hnames : ∀ name ∈ names, IsName name.name) :
    Lists [] ("import " ++ importBinding kind names ++ " from \"" ++
      ModulePath.specifier (source.map Identifier.name) found ++ "\";").toList := by
  have hbinding : Lists [] (importBinding kind names).toList := by
    cases kind with
    | wholeModule =>
      have hstar : Opens "* as ".toList := .of_isOpening rfl
      simpa [importBinding] using hstar.append (.names hnames)
    | defaultExport => exact .names hnames
    | namedExports => exact (Opens.around rfl (.names hnames) rfl).lists
  have hahead : Opens ("import " ++ importBinding kind names ++ " from ").toList :=
    .around rfl hbinding rfl
  have hspecifier : Ahead (fun _ => []) ('"' ::
      ((ModulePath.specifier (source.map Identifier.name) found).toList ++ ['"'])) :=
    .literal rfl (Mode.closes_string (ModulePath.stepString_specifier hsource found))
  have hend : Separates ";".toList := .of_isSeparating rfl
  have hline := (hahead.append hspecifier.lists).shut hend
  simpa using hline.lists

/-- The rendering that lists the numbers of every node. -/
def rendering (width : Nat) : Rendering where
  held := Node.Formed
  named := IsName
  code value code := Ahead (Numerals.expression · value) (code.chars width)
  body inner lines := ListsEach (Numerals.block inner) (lines.map (Layout.chars width))
  lines value lines := ListsEach (Numerals.statement value) (lines.map (Layout.chars width))
  part value line := Lists (Numerals.member value) (line.chars width)

theorem listsEach_codes {items : List Expression} {codes : List Layout}
    (hcodes : List.Forall₂ (rendering width).code items codes) :
    ListsEach (Numerals.expressions items) (codes.map (Layout.chars width)) := by
  induction hcodes with
  | nil => exact .nil
  | cons hcode _ ih => exact .cons hcode.lists ih

theorem listsEach_entries {entries : List Field} {codes : List Layout}
    (hcodes : List.Forall₂ (rendering width).Entry entries codes) :
    ListsEach (Numerals.fields entries) (codes.map (Layout.chars width)) := by
  induction hcodes with
  | nil => exact .nil
  | cons hentry _ ih =>
    cases hentry with
    | @mk key value code hcode =>
      refine .cons ?_ ih
      rw [Layout.chars_append, Layout.chars_ofText]
      exact (Opens.behind (Ahead.key key).lists rfl).append hcode.lists

theorem listsEach_row {body : List Statement} {lines : List Layout}
    (hlines : (rendering width).Row body lines) :
    ListsEach (Numerals.statements body) (lines.map (Layout.chars width)) := by
  induction hlines with
  | nil => exact .nil
  | cons hfirst _ ih =>
    rw [List.map_append]
    exact hfirst.append ih

theorem listsEach_parts {parts : List ClassMember} {lines : List Layout}
    (hlines : List.Forall₂ (rendering width).part parts lines) :
    ListsEach (Numerals.members parts) (lines.map (Layout.chars width)) := by
  induction hlines with
  | nil => exact .nil
  | cons hline _ ih => exact .cons hline ih

/-- Declarations of hoisted names have no numbers. -/
theorem listsEach_declared {shown : List Layout → Prop} {numerals : List Numeral}
    {lines : List Layout}
    (hshown : ∀ {lines}, shown lines → ListsEach numerals (lines.map (Layout.chars width)))
    (hlines : (rendering width).Declared shown lines) :
    ListsEach numerals (lines.map (Layout.chars width)) := by
  cases hlines with
  | @mk names lines hnames hlines =>
    rw [List.map_append, List.map_map]
    refine ListsEach.append (.none (List.forall_mem_map.mpr fun name hname => ?_)) (hshown hlines)
    exact .letLine (hnames name hname)

theorem listsEach_alternative {branch : Statement} {lines : List Layout}
    (hlines : (rendering width).Alternative branch lines) :
    ListsEach (Numerals.statement branch) (lines.map (Layout.chars width)) := by
  cases hlines with
  | block hlines => exact hlines
  | other _ hlines => exact hlines

theorem closed_rendering (width : Nat) : (rendering width).Closed where
  assigned hheld := hheld.children.head.self.made
  iterated hheld := hheld.self.made
  string value _ := by
    simp only [rendering, Layout.chars_ofText]
    exact .template value
  number hheld := by
    simp only [rendering, Layout.chars_ofText]
    exact NumberLiteral.number hheld.self.made
  name hheld := by
    simp only [rendering, Layout.chars_ofText]
    exact .name hheld.self.made
  array depth _ _ _ hcodes := .array depth (listsEach_codes hcodes)
  object depth _ _ _ hcodes := .object depth (listsEach_entries hcodes)
  property {owner key span code} hheld hcode := by
    simp only [rendering, Layout.chars_append, Layout.chars_ofText]
    cases howner : isNumber owner with
    | true =>
      have hnumber := (Ahead.inParentheses (Ahead.lists hcode)).property hheld.self.made
      simpa [Numerals.expression, howner, inParenthesesIf] using hnumber
    | false =>
      have hother := Ahead.property hcode hheld.self.made
      simpa [Numerals.expression, howner, inParenthesesIf] using hother
  assign {target op value isLocal span path code} hheld hpath hcode := by
    have hword : Lists [] path.toList := (Ahead.path hheld.children.head hpath).lists
    have htarget := Numerals.expression_of_path? hpath false
    simp only [rendering, Layout.chars_append, Layout.chars_ofText, Numerals.expression, htarget]
    exact (Opens.behind hword rfl).ahead (.assigned hword hcode)
  computed {left right span code key} hleft hright := by
    have hopen : Separates "[".toList := .of_isSeparating rfl
    have hclose : Separates "]".toList := .of_isSeparating rfl
    have haccess := ((Ahead.lists hleft).join hopen (Ahead.lists hright)).shut hclose
    simpa [rendering, Numerals.expression] using haccess
  binary _ hleft hright := by
    have hoperands := ListsEach.cons (Ahead.lists hleft) (.single (Ahead.lists hright))
    exact .applied (Preamble.Tame.stepString_binary _) hoperands
  unary hcode := .applied (stepString_unaryKey _) (.single (Ahead.lists hcode))
  lambda depth _ _ _ _ hheld hlines := by
    have hhead : Lists [] ("function" ++ "").toList := (Ahead.known rfl).lists
    exact .headed depth (.signature hhead (Node.isName_of_params hheld.children)) hlines
  call hcode hargs := .call (.inParenthesesIf (Ahead.lists hcode) _) (listsEach_codes hargs)
  construct {callee _ _ code _} hcode hargs := by
    have hnew : Opens "new ".toList := .of_isOpening rfl
    have hcallee := hnew.append (.inParenthesesIf (Ahead.lists hcode) !callee.isAssignable)
    refine .call ?_ (listsEach_codes hargs)
    rwa [Layout.chars_append, Layout.chars_ofText]
  body hlines := listsEach_declared listsEach_row hlines
  expression hcode := .single (.expressionLine (Ahead.lists hcode))
  block depth _ _ hlines := by
    have hnothing : Lists [] (Layout.chars width []) := .nil
    exact .single (Ahead.headed depth hnothing hlines).lists
  condition depth _ _ _ _ _ hcode hlines :=
    .single (Ahead.braced depth (.test (Ahead.lists hcode)) hlines).lists
  otherwise depth _ _ _ _ _ _ _ hcode hlines hothers := by
    have hblock := (Ahead.braced depth (.test (Ahead.lists hcode)) hlines).lists
    have helse : Lists [] ((Layout.ofText "else ").chars width) := .known rfl
    have hbranch := (Ahead.headed depth helse (listsEach_alternative hothers)).lists
    exact .single (.beside hblock hbranch)
  forLoop depth item _ _ _ _ _ hheld hcode hlines := by
    have hitem : Opens ("for (" ++ item.name ++ " of ").toList :=
      .around rfl (Ahead.name hheld.self.made).lists rfl
    exact .single (Ahead.braced depth (.between hitem (Ahead.lists hcode) rfl) hlines).lists
  whileLoop depth _ _ _ _ _ hcode hlines :=
    .single (Ahead.braced depth (.between (.of_isOpening rfl) (Ahead.lists hcode) rfl) hlines).lists
  returnNothing _ := .single (.known rfl)
  returnValue hcode := .single (.between (.of_isOpening rfl) (Ahead.lists hcode) rfl)
  breakLoop _ := .single (.known rfl)
  continueLoop _ := .single (.known rfl)
  functionDecl depth name _ _ _ _ hheld hlines := by
    have hopen : Opens "function ".toList := .of_isOpening rfl
    have hname := hopen.append (Ahead.name hheld.self.made).lists
    have hhead : Lists [] ("function" ++ (" " ++ name.name)).toList := by
      simpa using hname
    exact .single (Ahead.headed depth (.signature hhead (Node.isName_of_params hheld.children))
      hlines).lists
  classDecl depth name _ _ _ hheld hlines := by
    have hhead : Opens ("class " ++ name.name ++ " ").toList :=
      .around rfl (Ahead.name hheld.self.made).lists rfl
    exact .single (Ahead.headed depth (.ofText hhead.lists) (listsEach_parts hlines)).lists
  hostDecl _ _ _ := .nil
  importDecl found _ _ kind _ hheld := by
    obtain ⟨_, _, hsource, hnames⟩ := hheld.self.made
    exact .single (.ofText (.importLine kind found hsource hnames))
  exportDecl hlines := by
    have hexport : Opens "export ".toList := .of_isOpening rfl
    have hlisted := ListsEach.opened hexport hlines
    simpa [rendering, Numerals.statement, Function.comp_def] using hlisted
  exportAssign {text place op value isLocal inner outer span code} hheld hcode := by
    have hname : IsName text := hheld.children.head.self.made
    have hahead : Opens ("export let " ++ text ++ " = ").toList :=
      .around rfl (Ahead.name hname).lists rfl
    have hvalue : Ahead _ ((Emitter.assigned text op code).chars width) :=
      .assigned (Ahead.name hname).lists hcode
    exact .single (.between hahead hvalue.lists rfl)
  guarded depth _ _ _ _ _ hcode hlines :=
    .single (Ahead.braced depth (.test (Ahead.lists hcode)) (listsEach_declared id hlines)).lists
  field {name _ _ _} hheld hcode := by
    have hahead : Opens (name.name ++ " = ").toList :=
      .behind (Ahead.name hheld.self.made).lists rfl
    exact .between hahead (Ahead.lists hcode) rfl
  method depth _ _ _ _ _ hheld hlines := by
    have hparams := Node.isName_of_params hheld.children
    have hhead := Opens.parameters (.methodName hheld.self.made) hparams
    exact (Ahead.headed depth (.ofText hhead.lists) hlines).lists

end NumberLiteral

/-! ### Scripts -/

namespace Program

variable {source : String} {program : Program} {env : Environment} {script : Script}

/-- The number literals of a script stand for the numbers of the program one by one, and none of
    these is missed: each keeps its value, unless it has a superfluous zero in front or a property
    is taken of it right behind digits without a fraction, and is no literal then. -/
theorem values_body (hread : ofSource source = .ok program)
    (hemit : (program.emit env).result = .ok script) (width : Nat) :
    NumberLiteral.values (script.body width).toList = program.numerals.map Numeral.reading ∧
      ∀ text span, Holds program (.expression (.number text span)) →
        ∃ pointed, ⟨text, pointed⟩ ∈ program.numerals := by
  have hlines := declared_of_emit (NumberLiteral.closed_rendering width)
    (eachFormed_of_ofSource hread) hemit
  have heach := NumberLiteral.listsEach_declared NumberLiteral.listsEach_row hlines
  have hlists := NumberLiteral.Lists.intercalate (NumberLiteral.Separates.newline width 0) heach
  refine ⟨?_, fun text span hnumber => exists_mem_numerals hnumber⟩
  rw [Script.body, Layout.toList_render, Layout.lines, Layout.chars_intercalate]
  exact hlists.values

/-- Numbers that keep their values, one of them although a property is taken of it. -/
theorem values_body_kept : ∃ program script,
    ofSource "y = (x = 2.50).c + [0, 1.5].(0)" = .ok program ∧
      (program.emit {}).result = .ok script ∧
      program.numerals = [⟨"2.50", true⟩, ⟨"0", false⟩, ⟨"1.5", false⟩, ⟨"0", false⟩] ∧
      NumberLiteral.values (script.body 2).toList =
        [some (5 / 2), some 0, some (3 / 2), some 0] := by
  have hprogram : ∃ program, ofSource "y = (x = 2.50).c + [0, 1.5].(0)" = .ok program ∧
      program.numerals = [⟨"2.50", true⟩, ⟨"0", false⟩, ⟨"1.5", false⟩, ⟨"0", false⟩] :=
    ⟨_, by cbv, by cbv⟩
  have hcompile : ∃ script, (compile "y = (x = 2.50).c + [0, 1.5].(0)" {}).result = .ok script :=
    ⟨_, by cbv⟩
  obtain ⟨program, hread, hnumerals⟩ := hprogram
  obtain ⟨script, hemit⟩ := hcompile
  rw [compile, hread] at hemit
  refine ⟨program, script, hread, hemit, hnumerals, ?_⟩
  rw [(values_body hread hemit 2).1, hnumerals]
  decide +kernel

/-- A superfluous zero is written as it stands, and what is written for the number seven is no
    literal. -/
theorem values_body_padded : ∃ program script,
    ofSource "x = 007" = .ok program ∧ (program.emit {}).result = .ok script ∧
      program.numerals.map Numeral.value = [7] ∧ script.body 2 = "let x;\nx = 007;" ∧
      NumberLiteral.literals (script.body 2).toList = ["007".toList] ∧
      NumberLiteral.values (script.body 2).toList = [none] := by
  have hprogram : ∃ program, ofSource "x = 007" = .ok program ∧
      program.numerals = [⟨"007", false⟩] := ⟨_, by cbv, by cbv⟩
  have hcompile : ∃ script, (compile "x = 007" {}).result = .ok script ∧
      script.body 2 = "let x;\nx = 007;" := ⟨_, by cbv, by cbv⟩
  obtain ⟨program, hread, hnumerals⟩ := hprogram
  obtain ⟨script, hemit, hbody⟩ := hcompile
  rw [compile, hread] at hemit
  refine ⟨program, script, hread, hemit, ?_, hbody, ?_, ?_⟩
  · rw [hnumerals]
    decide +kernel
  · rw [hbody]
    rfl
  · rw [hbody]
    decide +kernel

end Program

end KaLang
