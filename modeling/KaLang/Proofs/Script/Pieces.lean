import KaLang.Proofs.Script.Rendering
import KaLang.Proofs.Text.Parts

/-!
The pieces of scripts. A script is put together from line breaks and from texts of a few kinds, some
of which declare names (`Piece.Written`). What the names are known to be is a parameter, and so is
what nodes are known to be: whatever the pass writes for nodes whose names are so is of these kinds
(`Program.written_of_emit`).
-/

namespace KaLang

open Emitter
open Rendering

/-! ### Declared names -/

/-- Whether a node declares a name: one that is assigned to or iterated over, that of a function, a
    class or a parameter, or one that is imported. -/
inductive Node.Binds : Node → String → Prop where
  | assigned {text : String} {op : AssignmentOperator} {value : Expression} {isLocal : Bool}
      {place span : Span} :
      Binds (.expression (.assign (.name text place) op value isLocal span)) text
  | iterated {item : Identifier} {iterable : Expression} {body : Block} {span : Span} :
      Binds (.statement (.forLoop item iterable body span)) item.name
  | function {name : Identifier} {params : List Identifier} {body : Block} {span : Span} :
      Binds (.statement (.functionDecl name params body span)) name.name
  | classDecl {name : Identifier} {parts : List ClassMember} {span : Span} :
      Binds (.statement (.classDecl name parts span)) name.name
  | parameter {name : Identifier} : Binds (.parameter name) name.name
  | imported {source names : List Identifier} {kind : ImportKind} {span : Span} {name : Identifier}
      (hname : name ∈ names) : Binds (.statement (.importDecl source names kind span)) name.name

/-- Whether a program declares a name anywhere. -/
def Program.Binds (program : Program) (name : String) : Prop :=
  ∃ node, program.Holds node ∧ node.Binds name

/-- What is declared is a word that is neither reserved nor an operator. -/
theorem Node.Binds.isName {node : Node} {name : String} (hbinds : node.Binds name)
    (hnode : node.Every Formed) : IsName name := by
  cases hbinds with
  | assigned => exact hnode.children.head.self.made
  | iterated | function | classDecl | parameter => exact hnode.self.made
  | imported hname => exact hnode.self.made.2.2.2 _ hname

namespace Piece

/-- The texts that are the same in all scripts. -/
def fixedTexts : List String :=
  ["(", ")", "[", "]", "[]", "[ ", " ]", "\x7b", "\x7d", "\x7b\x7d", "\x7b ", " \x7d", ",", ", ",
    ";", " ", ") ", "if (", "while (", "else ", "new ", "return ", "return;", "break;", "continue;",
    "export "]

/-- The pieces that are written where declared names are of a kind. -/
inductive Written (named : String → Prop) : Piece → Prop where
  | newline (depth : Nat) : Written named (.newline depth)
  | fixed {text : String} (htext : text ∈ fixedTexts) : Written named (.text text)
  | template (value : String) : Written named (.text (Literal.template value))
  | key (value : String) : Written named (.text (Literal.key value ++ ": "))
  | number {text : String} (hnumber : IsNumber text) : Written named (.text text)
  | property {key : String} (hkey : IsName key) : Written named (.text ("." ++ key))
  | path {target : Expression} {path : String}
      (htarget : (Node.expression target).Every Node.Formed) (hpath : target.path? = some path) :
      Written named (.text path)
  | target {target : Expression} {path : String}
      (htarget : (Node.expression target).Every Node.Formed) (hpath : target.path? = some path) :
      Written named (.text (path ++ " = "))
  | binary {op : BinaryOperator} (hop : op ≠ .member) :
      Written named (.text (Preamble.reference (Preamble.binaryKey op) ++ "("))
  | unary (op : UnaryOperator) :
      Written named (.text (Preamble.reference (Preamble.unaryKey op) ++ "("))
  | field {name : String} (hname : IsName name) : Written named (.text (name ++ " = "))
  | iterated {item : String} (hitem : IsName item) :
      Written named (.text ("for (" ++ item ++ " of "))
  | lambda {params : List Identifier} (hparams : ∀ param ∈ params, named param.name) :
      Written named (.text ("function" ++ "" ++ "(" ++ Identifier.row params ++ ") "))
  | function {name : String} {params : List Identifier} (hname : named name)
      (hparams : ∀ param ∈ params, named param.name) :
      Written named (.text ("function" ++ (" " ++ name) ++ "(" ++ Identifier.row params ++ ") "))
  | method {name : MethodName} {params : List Identifier} {body : Block} {span : Span}
      (hmade : (Node.member (.method name params body span)).Made)
      (hparams : ∀ param ∈ params, named param.name) :
      Written named (.text (methodName name ++ "(" ++ Identifier.row params ++ ") "))
  | classHead {name : String} (hname : named name) : Written named (.text ("class " ++ name ++ " "))
  | imported {source names : List Identifier} (kind : ImportKind) (found : Bool)
      (hsource : ∀ segment ∈ source, IsName segment.name)
      (hnames : ∀ name ∈ names, named name.name) :
      Written named (.text ("import " ++ importBinding kind names ++ " from \"" ++
        ModulePath.specifier (source.map Identifier.name) found ++ "\";"))
  | exported {name : String} (hname : named name) :
      Written named (.text ("export let " ++ name ++ " = "))
  | hoisted {name : String} (hname : named name) : Written named (.text ("let " ++ name ++ ";"))

end Piece

/-! ### Layouts -/

namespace Layout

variable {named : String → Prop} {code more : Layout} {items : List Layout} {text : String}

/-- Whether every piece of a layout is of one of these kinds. -/
def IsWritten (named : String → Prop) (code : Layout) : Prop := ∀ piece ∈ code, piece.Written named

namespace IsWritten

theorem ofText (htext : (Piece.text text).Written named) : (Layout.ofText text).IsWritten named :=
  List.forall_mem_singleton.mpr htext

theorem fixed (htext : text ∈ Piece.fixedTexts) : (Layout.ofText text).IsWritten named :=
  ofText (.fixed htext)

theorem newline (depth : Nat) : IsWritten named [.newline depth] :=
  List.forall_mem_singleton.mpr (.newline depth)

theorem append (hcode : code.IsWritten named) (hmore : more.IsWritten named) :
    (code ++ more).IsWritten named :=
  List.forall_mem_append.mpr ⟨hcode, hmore⟩

theorem between {ahead behind : Layout} (hahead : ahead.IsWritten named)
    (hcode : code.IsWritten named) (hbehind : behind.IsWritten named) :
    (ahead ++ code ++ behind).IsWritten named :=
  (hahead.append hcode).append hbehind

theorem intercalate {separator : Layout} (hseparator : separator.IsWritten named)
    (hitems : ∀ item ∈ items, item.IsWritten named) :
    IsWritten named (separator.intercalate items) :=
  forall_mem_intercalate hseparator hitems

theorem row (hitems : ∀ item ∈ items, item.IsWritten named) : (Layout.row items).IsWritten named :=
  intercalate (fixed (by decide)) hitems

theorem braced (depth : Nat) (hhead : code.IsWritten named)
    (hitems : ∀ item ∈ items, item.IsWritten named) :
    (Layout.braced depth code items).IsWritten named := by
  cases items with
  | nil => exact hhead.append (fixed (by decide))
  | cons first more =>
    have hopening : (Layout.ofText "\x7b").IsWritten named := fixed (by decide)
    have hopened := (hhead.append hopening).append (newline (depth + 1))
    have hlines := intercalate (newline (depth + 1)) hitems
    exact ((hopened.append hlines).append (newline depth)).append (fixed (by decide))

theorem stacked {opening closing : String} (depth : Nat) (hopening : opening ∈ Piece.fixedTexts)
    (hclosing : closing ∈ Piece.fixedTexts) (hitems : ∀ item ∈ items, item.IsWritten named) :
    (Layout.stacked depth opening closing items).IsWritten named := by
  have hcomma : (Layout.ofText ",").IsWritten named := fixed (by decide)
  have hseparator := hcomma.append (newline (depth + 1))
  have hopening : (Layout.ofText opening).IsWritten named := fixed hopening
  have hopened := hopening.append (newline (depth + 1))
  exact ((hopened.append (intercalate hseparator hitems)).append (newline depth)).append
    (fixed hclosing)

theorem array (depth : Nat) (hitems : ∀ item ∈ items, item.IsWritten named) :
    (Emitter.array depth items).IsWritten named := by
  cases items with
  | nil => exact fixed (by decide)
  | cons first more =>
    unfold Emitter.array
    dsimp only
    split
    · exact between (fixed (by decide)) (row hitems) (fixed (by decide))
    · exact stacked depth (by decide) (by decide) hitems

theorem object (depth : Nat) (hitems : ∀ item ∈ items, item.IsWritten named) :
    (Emitter.object depth items).IsWritten named := by
  unfold Emitter.object
  split
  · exact fixed (by decide)
  · exact between (fixed (by decide)) (List.forall_mem_singleton.mp hitems) (fixed (by decide))
  · exact stacked depth (by decide) (by decide) hitems

theorem inParentheses (hcode : code.IsWritten named) :
    (Emitter.inParentheses code).IsWritten named :=
  between (fixed (by decide)) hcode (fixed (by decide))

theorem inParenthesesIf (hcode : code.IsWritten named) (needed : Bool) :
    (Emitter.inParenthesesIf needed code).IsWritten named := by
  cases needed with
  | true => exact inParentheses hcode
  | false => exact hcode

/-- A compound assignment has an arithmetic operator, and none of these is member access. -/
theorem assigned {op : AssignmentOperator} (hop : op.isArithmetic = true)
    (htarget : (Piece.text text).Written named) (hcode : code.IsWritten named) :
    (Emitter.assigned text op code).IsWritten named := by
  cases op with
  | plain => exact hcode
  | compound op =>
    have hother : op ≠ .member := by
      rintro rfl
      cases hop
    have hoperands : ∀ operand ∈ [Layout.ofText text, code], operand.IsWritten named :=
      List.forall_mem_cons.mpr ⟨ofText htarget, List.forall_mem_singleton.mpr hcode⟩
    exact between (ofText (.binary hother)) (row hoperands) (fixed (by decide))

end IsWritten

end Layout

/-! ### The pass -/

namespace Emitter

variable {named : String → Prop}

/-- The rendering under which every layout is made up of these pieces. -/
def pieceRendering (named : String → Prop) : Rendering :=
  .uniform (fun node => node.Formed ∧ ∀ name, node.Binds name → named name) named
    (Layout.IsWritten named)

theorem formed_of_pieces {node : Node} (hheld : node.Every (pieceRendering named).held) :
    node.Every Node.Formed :=
  hheld.mono fun _ hnode => hnode.1

/-- The parameters of a function are declared. -/
theorem named_of_pieces {params : List Identifier} {body : Block}
    (hheld : Node.EachEvery (pieceRendering named).held (params.map .parameter ++ [.block body])) :
    ∀ param ∈ params, named param.name := by
  intro param hparam
  have hnode := hheld _ (List.mem_append_left _ (List.mem_map_of_mem hparam))
  exact hnode.self.2 _ .parameter

theorem isWritten_letLine (name : String) (hname : named name) :
    (Layout.letLine name).IsWritten named :=
  .ofText (.hoisted hname)

theorem isWritten_name {text : String} {span : Span}
    (hheld : (Node.expression (.name text span)).Every (pieceRendering named).held) :
    (Piece.text text).Written named :=
  .path (formed_of_pieces hheld) rfl

theorem isWritten_test {code : Layout} (hcode : code.IsWritten named) :
    (Layout.ofText "if (" ++ code ++ .ofText ") ").IsWritten named :=
  .between (.fixed (by decide)) hcode (.fixed (by decide))

theorem closed_pieceRendering (named : String → Prop) : (pieceRendering named).Closed where
  assigned hheld := hheld.self.2 _ .assigned
  iterated hheld := hheld.self.2 _ .iterated
  string value _ := .ofText (.template value)
  number hheld := .ofText (.number hheld.self.1.made)
  name hheld := .ofText (isWritten_name hheld)
  array depth _ _ _ hcodes := .array depth (forall_mem_codes hcodes)
  object depth _ _ _ hcodes :=
    .object depth (forall_mem_entries (fun key _ => .append (.ofText (.key key))) hcodes)
  property hheld hcode :=
    (Layout.IsWritten.inParenthesesIf hcode _).append (.ofText (.property hheld.self.1.made))
  assign hheld hpath hcode := by
    have htarget := (formed_of_pieces hheld).children.head
    exact .append (.ofText (.target htarget hpath))
      (.assigned hheld.self.1.made.2 (.path htarget hpath) hcode)
  computed hleft hright := .append (.between hleft (.fixed (by decide)) hright) (.fixed (by decide))
  binary hop hleft hright := by
    have hoperands := List.forall_mem_cons.mpr ⟨hleft, List.forall_mem_singleton.mpr hright⟩
    exact .between (.ofText (.binary hop)) (.row hoperands) (.fixed (by decide))
  unary hcode :=
    .between (.ofText (.unary _)) (.row (List.forall_mem_singleton.mpr hcode)) (.fixed (by decide))
  lambda depth _ _ _ _ hheld hlines :=
    .braced depth (.ofText (.lambda (named_of_pieces hheld.children))) hlines
  call hcode hargs := (Layout.IsWritten.inParenthesesIf hcode _).append
    (.inParentheses (.row (forall_mem_codes hargs)))
  construct hcode hargs := .between (.fixed (by decide)) (Layout.IsWritten.inParenthesesIf hcode _)
    (.inParentheses (.row (forall_mem_codes hargs)))
  body hlines := forall_mem_declared isWritten_letLine forall_mem_row hlines
  expression hcode := List.forall_mem_singleton.mpr
    ((Layout.IsWritten.inParenthesesIf hcode _).append (.fixed (by decide)))
  block depth _ _ hlines :=
    List.forall_mem_singleton.mpr (.braced depth (List.forall_mem_nil _) hlines)
  condition depth _ _ _ _ _ hcode hlines :=
    List.forall_mem_singleton.mpr (.braced depth (isWritten_test hcode) hlines)
  otherwise depth _ _ _ _ _ _ _ hcode hlines hothers :=
    List.forall_mem_singleton.mpr (.between (.braced depth (isWritten_test hcode) hlines)
      (.fixed (by decide)) (.braced depth (.fixed (by decide)) (forall_mem_alternative hothers)))
  forLoop depth _ _ _ _ _ _ hheld hcode hlines :=
    List.forall_mem_singleton.mpr (.braced depth
      (.between (.ofText (.iterated hheld.self.1.made)) hcode (.fixed (by decide))) hlines)
  whileLoop depth _ _ _ _ _ hcode hlines :=
    List.forall_mem_singleton.mpr (.braced depth
      (.between (.fixed (by decide)) hcode (.fixed (by decide))) hlines)
  returnNothing _ := List.forall_mem_singleton.mpr (.fixed (by decide))
  returnValue hcode :=
    List.forall_mem_singleton.mpr (.between (.fixed (by decide)) hcode (.fixed (by decide)))
  breakLoop _ := List.forall_mem_singleton.mpr (.fixed (by decide))
  continueLoop _ := List.forall_mem_singleton.mpr (.fixed (by decide))
  functionDecl depth _ _ _ _ _ hheld hlines :=
    List.forall_mem_singleton.mpr (.braced depth (.ofText
      (.function (hheld.self.2 _ .function) (named_of_pieces hheld.children))) hlines)
  classDecl depth _ _ _ _ hheld hlines :=
    List.forall_mem_singleton.mpr (.braced depth
      (.ofText (.classHead (hheld.self.2 _ .classDecl))) (forall_mem_parts hlines))
  hostDecl _ _ _ := List.forall_mem_nil _
  importDecl found _ _ kind _ hheld :=
    List.forall_mem_singleton.mpr (.ofText (.imported kind found hheld.self.1.made.2.2.1
      fun name hname => hheld.self.2 _ (.imported hname)))
  exportDecl hlines := List.forall_mem_map.mpr fun line hline =>
    .append (.fixed (by decide)) (hlines line hline)
  exportAssign hheld hcode := by
    have hname := (formed_of_pieces hheld).children.head
    exact List.forall_mem_singleton.mpr (.between (.ofText (.exported (hheld.self.2 _ .assigned)))
      (.assigned hheld.self.1.made.2 (.path hname rfl) hcode) (.fixed (by decide)))
  guarded depth _ _ _ _ _ hcode hlines :=
    List.forall_mem_singleton.mpr
      (.braced depth (isWritten_test hcode) (forall_mem_declared isWritten_letLine id hlines))
  field hheld hcode := .between (.ofText (.field hheld.self.1.made)) hcode (.fixed (by decide))
  method depth _ _ _ _ _ hheld hlines :=
    .braced depth (.ofText (.method hheld.self.1.made (named_of_pieces hheld.children))) hlines

end Emitter

/-! ### Scripts -/

theorem Program.isName_of_binds {source : String} {program : Program} {name : String}
    (hread : ofSource source = .ok program) (hbinds : program.Binds name) : IsName name := by
  obtain ⟨node, hholds, hbinds⟩ := hbinds
  exact hbinds.isName ((formed_of_ofSource hread).2 node hholds)

/-- What holds of every node of a program that is formed throughout. -/
theorem Program.Holds.every {program : Program} {p : Node → Prop}
    (hall : ∀ node, program.Holds node → p node) {node : Node} (hnode : program.Holds node)
    (hformed : node.Every Node.Formed) : node.Every p := by
  induction hformed with
  | mk _ _ ih => exact .mk (hall _ hnode) fun child hchild => ih child hchild (.child hnode hchild)

/-- A script of a program that is read off a text is made up of these pieces, whatever the declared
    names are known to be. -/
theorem Program.written_of_emit {source : String} {program : Program} {env : Environment}
    {script : Script} {named : String → Prop} (hread : ofSource source = .ok program)
    (hemit : (program.emit env).result = .ok script)
    (hnamed : ∀ name, program.Binds name → named name) :
    ∀ line ∈ script.lines, line.IsWritten named := by
  obtain ⟨_, hformed⟩ := formed_of_ofSource hread
  have hall : ∀ node, program.Holds node →
      node.Formed ∧ ∀ name, node.Binds name → named name := fun node hnode =>
    ⟨(hformed node hnode).self, fun name hname => hnamed name ⟨node, hnode, hname⟩⟩
  have hbody := List.forall_mem_map.mpr fun statement hmem =>
    Holds.every hall (.body hmem) (hformed (.statement statement) (.body hmem))
  exact forall_lines_of_emit (Emitter.closed_pieceRendering named) Emitter.isWritten_letLine hbody
    hemit

end KaLang
