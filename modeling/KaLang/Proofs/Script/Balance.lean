import KaLang.Proofs.Script.Scanner
import KaLang.Proofs.Syntax.Formed
import KaLang.Proofs.Text.Parts

/-!
Balanced layouts. A layout is balanced if a scanner finds no literal and no bracket open behind it,
however far lines are indented (`Layout.IsBalanced`). Whatever a script is put together from keeps
this: names, numbers and paths have no sign of a literal or a bracket in them, and every bracket is
written in one go with the one that closes it.
-/

namespace KaLang

/-! ### Words -/

namespace Scanner

variable {before middle after : List Char}

theorem isPlain_of_isWordChar {char : Char} (hchar : isWordChar char = true) :
    isPlain char = true := by
  have hsign : ∀ sign ∈ ['"', '\x60', '/', '(', ')', '[', ']', '\x7b', '\x7d'],
      isWordChar sign = false := by simp [isWordChar]
  refine decide_eq_true fun hmem => ?_
  rw [hsign char hmem] at hchar
  cases hchar

theorem isPlain_of_isDigit {char : Char} (hchar : char.isDigit = true) : isPlain char = true :=
  isPlain_of_isWordChar (by simp [isWordChar, Char.isAlphanum, hchar])

/-- Whether a text has no sign of a literal, a comment or a bracket. -/
def Plain (text : String) : Prop := ∀ char ∈ text.toList, isPlain char = true

theorem stepString_of_isWordChar {char : Char} (hchar : isWordChar char = true) :
    stepString char = some .string := by
  apply stepString_plain <;>
    · rintro rfl
      cases hchar

/-! ### Plain texts -/

namespace Plain

theorem name {text : String} (hname : IsName text) : Plain text :=
  fun char hchar => isPlain_of_isWordChar (hname.chars char hchar)

theorem number {text : String} (hnumber : IsNumber text) : Plain text := by
  intro char hchar
  cases hnumber with
  | whole hsome hdigits =>
    rw [String.toList_ofList] at hchar
    exact isPlain_of_isDigit (hdigits char hchar)
  | fraction hsome hdigits hfraction hmore =>
    rw [String.toList_ofList] at hchar
    rcases List.mem_append.mp hchar with hchar | hchar
    · exact isPlain_of_isDigit (hdigits char hchar)
    · rcases List.mem_cons.mp hchar with rfl | hchar
      · rfl
      · exact isPlain_of_isDigit (hmore char hchar)

theorem names {names : List Identifier} (hnames : ∀ name ∈ names, IsName name.name) :
    Plain (Identifier.row names) := by
  rw [Plain, Identifier.row, String.toList_intercalate, List.map_map]
  exact forall_mem_intercalate (List.all_eq_true.mp rfl)
    (List.forall_mem_map.mpr fun segment hsegment => name (hnames segment hsegment))

/-- What may be assigned to. -/
theorem path {target : Expression} {text : String}
    (hformed : (Node.expression target).Every Node.Formed) (hpath : target.path? = some text) :
    Plain text := by
  obtain ⟨first, more, htext, hstart, hmore⟩ := Expression.exists_word_of_path? hformed hpath
  have hfirst := isPlain_of_isWordChar (Lexeme.isWordChar_of_isWordStart hstart)
  rw [Plain, htext]
  refine List.forall_mem_cons.mpr ⟨hfirst, fun char hchar => ?_⟩
  rcases hmore char hchar with hword | rfl
  · exact isPlain_of_isWordChar hword
  · rfl

end Plain

namespace Scans

/-- Texts that are joined. -/
theorem join {text more : String} (htext : Scans before text.toList middle)
    (hmore : Scans middle more.toList after) : Scans before (text ++ more).toList after := by
  rw [String.toList_append]
  exact htext.append hmore

/-- A text between two others. -/
theorem around {ahead text behind : String} (hahead : Scans before ahead.toList middle)
    (htext : Scans [] text.toList []) (hbehind : Scans middle behind.toList after) :
    Scans before (ahead ++ text ++ behind).toList after :=
  (hahead.join (htext.inside middle)).join hbehind

theorem name {text : String} (hname : IsName text) : Scans [] text.toList [] :=
  plain (Plain.name hname)

theorem names {names : List Identifier} (hnames : ∀ name ∈ names, IsName name.name) :
    Scans [] (Identifier.row names).toList [] :=
  plain (Plain.names hnames)

/-- Parameters in parentheses behind a head. -/
theorem parameters {head : String} {params : List Identifier} (hhead : Scans [] head.toList [])
    (hparams : ∀ name ∈ params, IsName name.name) :
    Scans [] (head ++ "(" ++ Identifier.row params ++ ") ").toList [] :=
  have hopened : Scans [] (head ++ "(").toList [')'] := hhead.join fun _ => rfl
  hopened.around (names hparams) fun _ => rfl

/-- The sign of an operator in quotes. -/
theorem sign (op : BinaryOperator) : Scans [] ("\"" ++ op.text ++ "\"").toList [] := by
  cases op <;> exact fun _ => rfl

theorem methodName {name : MethodName} {params : List Identifier} {body : Block} {span : Span}
    (hmade : (Node.member (.method name params body span)).Made) :
    Scans [] (Emitter.methodName name).toList [] := by
  cases name with
  | identifier name =>
    change Scans [] (if name.name = "__init__" then "constructor" else name.name).toList []
    split
    · exact fun _ => rfl
    · exact Scans.name hmade
  | operator op place => exact sign op

/-- Items in brackets. -/
theorem bracketed {opening close : Char} {items : List (List Char)} {text : List Char}
    (hopening : closing? opening = some close)
    (htext : ScriptReader.Bracketed opening close items text)
    (hitems : ∀ item ∈ items, Scans [] item []) : Scans [] text [] := by
  have hblank {gap : List Char} (hgap : ScriptReader.Blank gap) : Scans [] gap [] :=
    plain fun char hchar => by rcases hgap char hchar with rfl | rfl <;> rfl
  obtain ⟨hfront, hgap, hback⟩ := htext
  have hpair : Scans [] [opening] [close] ∧ Scans [close] [close] [] := by
    unfold closing? at hopening
    split at hopening <;> cases hopening <;> exact ⟨fun _ => rfl, fun _ => rfl⟩
  have hcomma : Scans [] [','] [] := fun _ => rfl
  have hrow := intercalate (hcomma.append (hblank hgap)) hitems
  exact hpair.1.append (((hblank hfront).inside _).append
    ((hrow.inside _).append (((hblank hback).inside _).append hpair.2)))

end Scans

end Scanner

/-! ### Layouts -/

namespace Layout

variable {before middle after : List Char} {code : Layout} {items : List Layout}

/-- Whether a layout leads from some awaited brackets to others, however far lines are indented. -/
def Scans (before : List Char) (code : Layout) (after : List Char) : Prop :=
  ∀ width, Scanner.Scans before (code.chars width) after

/-- Whether a layout leaves no literal and no bracket open. -/
def IsBalanced (code : Layout) : Prop := Scans [] code []

/-- Whether this is so of all layouts in a row. -/
def EachBalanced (items : List Layout) : Prop := ∀ item ∈ items, item.IsBalanced

theorem EachBalanced.nil : EachBalanced [] := fun _ hitem => absurd hitem List.not_mem_nil

theorem EachBalanced.cons (hcode : code.IsBalanced) (hitems : EachBalanced items) :
    EachBalanced (code :: items) :=
  List.forall_mem_cons.mpr ⟨hcode, hitems⟩

theorem EachBalanced.single (hcode : code.IsBalanced) : EachBalanced [code] := .cons hcode .nil

theorem EachBalanced.chars (hitems : EachBalanced items) (width : Nat) :
    ∀ item ∈ items.map (Layout.chars width), Scanner.Scans [] item [] :=
  List.forall_mem_map.mpr fun item hitem => hitems item hitem width

theorem Scans.ofText {text : String} (htext : Scanner.Scans before text.toList after) :
    Scans before (ofText text) after := by
  intro width
  rwa [chars_ofText]

theorem Scans.append {more : Layout} (hcode : Scans before code middle)
    (hmore : Scans middle more after) : Scans before (code ++ more) after := by
  intro width
  rw [chars_append]
  exact (hcode width).append (hmore width)

/-- A balanced layout behind brackets that are open. -/
theorem Scans.andThen (hcode : Scans before code middle) {more : Layout} (hmore : more.IsBalanced) :
    Scans before (code ++ more) middle :=
  hcode.append fun width => (hmore width).inside middle

namespace IsBalanced

/-- A balanced layout between texts of which the last closes what the first one opens. -/
theorem between {ahead behind : String} (hcode : code.IsBalanced)
    (hahead : Scanner.Scans [] ahead.toList middle)
    (hbehind : Scanner.Scans middle behind.toList []) :
    (Layout.ofText ahead ++ code ++ Layout.ofText behind).IsBalanced :=
  ((Scans.ofText hahead).andThen hcode).append (.ofText hbehind)

theorem newline (depth : Nat) : IsBalanced [.newline depth] := by
  refine fun width => Scanner.Scans.plain fun char hchar => ?_
  rcases ScriptReader.blank_newline width depth char hchar with rfl | rfl <;> rfl

theorem intercalate {separator : Layout} (hseparator : separator.IsBalanced)
    (hitems : EachBalanced items) : IsBalanced (separator.intercalate items) := by
  intro width
  rw [chars_intercalate]
  exact .intercalate (hseparator width) (hitems.chars width)

theorem row (hitems : EachBalanced items) : (Layout.row items).IsBalanced :=
  intercalate (.ofText fun _ => rfl) hitems

theorem braced (depth : Nat) (hhead : code.IsBalanced) (hitems : EachBalanced items) :
    (Layout.braced depth code items).IsBalanced := by
  cases items with
  | nil => exact Scans.append hhead (.ofText fun _ => rfl)
  | cons first more =>
    have hopened : Scans [] (code ++ Layout.ofText "\x7b") ['\x7d'] :=
      Scans.append hhead (.ofText fun _ => rfl)
    have hinside := (hopened.andThen (newline (depth + 1))).andThen
      (intercalate (newline (depth + 1)) hitems)
    exact (hinside.andThen (newline depth)).append (.ofText fun _ => rfl)

end IsBalanced

end Layout

/-! ### What expressions and statements are put together from -/

namespace Emitter

open Layout (IsBalanced EachBalanced)

variable {code : Layout} {items : List Layout}

theorem balanced_array (depth : Nat) (hitems : EachBalanced items) :
    (array depth items).IsBalanced :=
  fun width => .bracketed rfl (ScriptReader.bracketed_array width depth items) (hitems.chars width)

theorem balanced_object (depth : Nat) (hitems : EachBalanced items) :
    (object depth items).IsBalanced :=
  fun width => .bracketed rfl (ScriptReader.bracketed_object width depth items) (hitems.chars width)

theorem balanced_inParentheses (hcode : code.IsBalanced) : (inParentheses code).IsBalanced :=
  have hopened : Scanner.Scans [] "(".toList [')'] := fun _ => rfl
  hcode.between hopened fun _ => rfl

theorem balanced_inParenthesesIf (needed : Bool) (hcode : code.IsBalanced) :
    (inParenthesesIf needed code).IsBalanced := by
  cases needed with
  | true => exact balanced_inParentheses hcode
  | false => exact hcode

theorem balanced_expressionLine (hcode : code.IsBalanced) : (expressionLine code).IsBalanced :=
  Layout.Scans.append (balanced_inParenthesesIf _ hcode) (.ofText fun _ => rfl)

/-- An operator of the table, applied to operands. -/
theorem balanced_applied {key : String}
    (hkey : Scanner.Scans [] (Preamble.reference key ++ "(").toList [')'])
    (hitems : EachBalanced items) : (applied key items).IsBalanced :=
  (IsBalanced.row hitems).between hkey fun _ => rfl

theorem balanced_appliedBinary (op : BinaryOperator) (hitems : EachBalanced items) :
    (applied (Preamble.binaryKey op) items).IsBalanced :=
  balanced_applied (by cases op <;> exact fun _ => rfl) hitems

theorem balanced_appliedUnary (op : UnaryOperator) (hitems : EachBalanced items) :
    (applied (Preamble.unaryKey op) items).IsBalanced :=
  balanced_applied (by cases op <;> exact fun _ => rfl) hitems

theorem balanced_assigned {target : String} (op : AssignmentOperator)
    (htarget : Scanner.Scans [] target.toList []) (hcode : code.IsBalanced) :
    (assigned target op code).IsBalanced := by
  cases op with
  | plain => exact hcode
  | compound op => exact balanced_appliedBinary op (.cons (.ofText htarget) (.single hcode))

theorem balanced_signature {name : String} {params : List Identifier}
    (hname : Scanner.Scans [] name.toList [])
    (hparams : ∀ name ∈ params, IsName name.name) : (signature name params).IsBalanced := by
  have hhead : Scanner.Scans [] "function".toList [] := fun _ => rfl
  exact .ofText (.parameters (hhead.join hname) hparams)

/-- An import, for a module whose name has no sign in it that ends a string. -/
theorem balanced_import {names : List Identifier} {specifier : String} (kind : ImportKind)
    (hnames : ∀ name ∈ names, IsName name.name)
    (hspecifier : ∀ char ∈ specifier.toList, Scanner.stepString char = some .string) :
    (Layout.ofText ("import " ++ importBinding kind names ++ " from \"" ++ specifier ++
      "\";")).IsBalanced := by
  have hbinding : Scanner.Scans [] (importBinding kind names).toList [] := by
    cases kind with
    | wholeModule => exact Scanner.Scans.join (fun _ => rfl) (.names hnames)
    | defaultExport => exact .names hnames
    | namedExports =>
      have hopened : Scanner.Scans [] "\x7b ".toList ['\x7d'] := fun _ => rfl
      exact hopened.around (.names hnames) fun _ => rfl
  have hfrom : Scanner.Scans [] " from ".toList [] := fun _ => rfl
  have hend : Scanner.Scans [] [';'] [] := fun _ => rfl
  have htext : ("import " ++ importBinding kind names ++ " from \"" ++ specifier ++ "\";").toList =
      "import ".toList ++ (importBinding kind names).toList ++ " from ".toList ++
        ('"' :: specifier.toList ++ ['"']) ++ [';'] := by
    simp
  refine .ofText ?_
  rw [htext]
  exact ((Scanner.Scans.between (fun _ => rfl) hbinding hfrom).append
    (.quoted hspecifier)).append hend

end Emitter

/-! ### Names of modules -/

/-- A module whose path is made of names has no sign in its name that ends a string. -/
theorem ModulePath.stepString_specifier {source : List Identifier}
    (hsource : ∀ segment ∈ source, IsName segment.name) (found : Bool) :
    ∀ char ∈ (specifier (source.map Identifier.name) found).toList,
      Scanner.stepString char = some .string := by
  have hjoined : ∀ char ∈ (joined (source.map Identifier.name)).toList,
      Scanner.stepString char = some .string := by
    rw [joined, String.toList_intercalate]
    refine forall_mem_intercalate (by simp [Scanner.stepString]) ?_
    refine List.forall_mem_map.mpr (List.forall_mem_map.mpr fun segment hsegment char hchar => ?_)
    exact Scanner.stepString_of_isWordChar ((hsource segment hsegment).chars char hchar)
  cases found with
  | false => exact hjoined
  | true =>
    rw [specifier, if_pos rfl, String.toList_append, String.toList_append]
    refine List.forall_mem_append.mpr ⟨List.forall_mem_append.mpr ⟨?_, hjoined⟩, ?_⟩
    all_goals simp [Scanner.stepString]

end KaLang
