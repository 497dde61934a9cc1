import KaLang.Compile
import KaLang.Proofs.Script.Pieces

/-!
The names that a script declares. Every declaration is written in one go with the names in it:
those of hoisted and exported variables, functions, parameters, classes and imports
(`Piece.Declares`). All of them are names that the program itself declares
(`Program.binds_of_declares`). So they may be any words that the language does not reserve, and it
does not reserve all that a script may not declare (`Script.mem_unguardedNames`).
-/

namespace KaLang

/-- The words that name nothing in the code of a module. -/
def Script.reservedWords : List String :=
  ["await", "break", "case", "catch", "class", "const", "continue", "debugger", "default", "delete",
    "do", "else", "enum", "export", "extends", "false", "finally", "for", "function", "if",
    "implements", "import", "in", "instanceof", "interface", "let", "new", "null", "package",
    "private", "protected", "public", "return", "static", "super", "switch", "this", "throw",
    "true", "try", "typeof", "var", "void", "while", "with", "yield"]

/-- The names that a script may not declare: the reserved words, and what the preamble declares and
    the code below it refers to. -/
def Script.takenNames : List String :=
  reservedWords ++ [Preamble.rangeHelper, Preamble.operatorTable]

/-- Those of them that are names in a program all the same. -/
def Script.unguardedNames : List String :=
  ["await", "case", "catch", "const", "debugger", "delete", "enum", "extends", "false", "finally",
    "implements", "instanceof", "interface", "let", "null", "package", "private", "protected",
    "public", "static", "super", "switch", "this", "throw", "true", "try", "typeof", "var", "void",
    "yield", "__kaGetRange", "__kaOperators"]

/-- The language reserves the others itself. -/
theorem Script.mem_unguardedNames {name : String} :
    name ∈ unguardedNames ↔ name ∈ takenNames ∧ IsName name := by
  have hunguarded : ∀ name ∈ unguardedNames, name ∈ takenNames ∧
      name.toList.head?.any isWordStart = true ∧ name.toList.all isWordChar = true ∧
        Keyword.ofText? name = none ∧ name ∉ ["and", "or", "not"] := by decide +kernel
  have hguarded : ∀ name ∈ takenNames, name ∈ unguardedNames ∨ Keyword.ofText? name ≠ none := by
    decide
  constructor
  · intro hmem
    obtain ⟨htaken, hfirst, hchars, hreserved, hoperator⟩ := hunguarded name hmem
    obtain ⟨first, hfirst, hstart⟩ := (Option.any_eq_true _ _).mp hfirst
    exact ⟨htaken, ⟨first, hfirst, hstart⟩, List.all_eq_true.mp hchars, hreserved, hoperator⟩
  · rintro ⟨htaken, hname⟩
    exact (hguarded name htaken).resolve_right fun hreserved => hreserved hname.notReserved

/-! ### Words in a row -/

/-- Whether a text is a word. -/
structure IsWord (text : String) : Prop where
  some : text.toList ≠ []
  chars : ∀ char ∈ text.toList, isWordChar char = true

theorem IsName.isWord {text : String} (hname : IsName text) : IsWord text := by
  obtain ⟨first, more, htext, _⟩ := hname.exists_start
  exact ⟨by simp [htext], hname.chars⟩

theorem IsWord.not_mem {text : String} (hword : IsWord text) {char : Char}
    (hchar : isWordChar char = false) : char ∉ text.toList := by
  intro hmem
  rw [hword.chars char hmem] at hchar
  cases hchar

theorem IsWord.exists_last {text : String} (hword : IsWord text) :
    ∃ front last, text.toList = front ++ [last] ∧ isWordChar last = true := by
  have hlast := List.getLast?_eq_getLast_of_ne_nil hword.some
  obtain ⟨front, htext⟩ := List.getLast?_eq_some_iff.mp hlast
  exact ⟨front, _, htext, hword.chars _ (List.getLast_mem hword.some)⟩

/-- The words of a text. -/
def wordsOf (text : List Char) : List (List Char) :=
  (text.splitOnP fun char => !isWordChar char).filter (!·.isEmpty)

theorem wordsOf_append_cons {char : Char} (hchar : isWordChar char = false)
    (text more : List Char) : wordsOf (text ++ char :: more) = wordsOf text ++ wordsOf more := by
  rw [wordsOf, List.splitOnP_append_cons _ _ (by simp [hchar]), List.filter_append]
  rfl

theorem wordsOf_word {text : String} (hword : IsWord text) :
    wordsOf text.toList = [text.toList] := by
  rw [wordsOf, List.splitOnP_eq_singleton fun char hchar => by simp [hword.chars char hchar]]
  simp [hword.some]

theorem wordsOf_row {names : List Identifier} (hnames : ∀ name ∈ names, IsWord name.name) :
    wordsOf (Identifier.row names).toList = names.map (·.name.toList) := by
  induction names with
  | nil => rfl
  | cons first more ih =>
    obtain ⟨hfirst, hmore⟩ := List.forall_mem_cons.mp hnames
    cases more with
    | nil => simpa [Identifier.row] using wordsOf_word hfirst
    | cons second more =>
      have hrow : (Identifier.row (first :: second :: more)).toList =
          first.name.toList ++ ',' :: ([] ++ ' ' :: (Identifier.row (second :: more)).toList) := by
        simp [Identifier.row, String.toList_intercalate]
      have hnothing : wordsOf [] = [] := rfl
      rw [hrow, wordsOf_append_cons rfl, wordsOf_append_cons rfl, wordsOf_word hfirst, ih hmore,
        hnothing]
      rfl

/-- Names in a row are told by their words. -/
theorem mem_of_row {names others : List Identifier} (hnames : ∀ name ∈ names, IsWord name.name)
    (hothers : ∀ name ∈ others, IsWord name.name)
    (hrow : Identifier.row names = Identifier.row others) :
    ∀ name ∈ names, ∃ other ∈ others, other.name = name.name := by
  intro name hname
  have hmem : name.name.toList ∈ others.map (·.name.toList) := by
    rw [← wordsOf_row hothers, ← hrow, wordsOf_row hnames]
    exact List.mem_map_of_mem hname
  obtain ⟨other, hother, hsame⟩ := List.mem_map.mp hmem
  exact ⟨other, hother, String.toList_inj.mp hsame⟩

/-- What stands ahead of the first mark is told by it. -/
theorem eq_of_append_cons {mark : Char} {ahead other more rest : List Char} (hahead : mark ∉ ahead)
    (hother : mark ∉ other) (htext : ahead ++ mark :: more = other ++ mark :: rest) :
    ahead = other := by
  have hparts := congrArg (splitAtEach mark) htext
  rw [splitAtEach_append_cons, splitAtEach_append_cons, splitAtEach_of_not_mem hahead,
    splitAtEach_of_not_mem hother] at hparts
  exact (List.cons.inj hparts).1

theorem forall_mem_row {names : List Identifier} (hnames : ∀ name ∈ names, IsWord name.name) :
    ∀ char ∈ (Identifier.row names).toList, isWordChar char = true ∨ char = ',' ∨ char = ' ' := by
  rw [Identifier.row, String.toList_intercalate]
  refine forall_mem_intercalate (by simp) fun item hitem char hchar => .inl ?_
  simp only [List.map_map] at hitem
  obtain ⟨name, hname, rfl⟩ := List.mem_map.mp hitem
  exact (hnames name hname).chars char hchar

theorem not_mem_row {names : List Identifier} (hnames : ∀ name ∈ names, IsWord name.name)
    {char : Char} (hword : isWordChar char = false) (hcomma : char ≠ ',') (hblank : char ≠ ' ') :
    char ∉ (Identifier.row names).toList := by
  intro hmem
  rcases forall_mem_row hnames char hmem with hchar | hchar | hchar
  · rw [hword] at hchar
    cases hchar
  · exact hcomma hchar
  · exact hblank hchar

/-- Bindings that read the same have the same names in a row. -/
theorem row_of_importBinding {kind other : ImportKind} {names others : List Identifier}
    (hnames : ∀ name ∈ names, IsWord name.name) (hothers : ∀ name ∈ others, IsWord name.name)
    (hbinding : Emitter.importBinding kind names = Emitter.importBinding other others) :
    Identifier.row names = Identifier.row others := by
  have hchars := congrArg String.toList hbinding
  cases kind <;> cases other
  case wholeModule.wholeModule => exact (String.append_right_inj _).mp hbinding
  case defaultExport.defaultExport => exact hbinding
  case namedExports.namedExports =>
    exact (String.append_right_inj _).mp ((String.append_left_inj _).mp hbinding)
  case wholeModule.namedExports | namedExports.wholeModule =>
    simp [Emitter.importBinding] at hchars
  case wholeModule.defaultExport =>
    have hstar : '*' ∈ (Identifier.row others).toList := hchars ▸ by simp [Emitter.importBinding]
    exact absurd hstar (not_mem_row hothers rfl (by decide) (by decide))
  case defaultExport.wholeModule =>
    have hstar : '*' ∈ (Identifier.row names).toList :=
      hchars.symm ▸ by simp [Emitter.importBinding]
    exact absurd hstar (not_mem_row hnames rfl (by decide) (by decide))
  case namedExports.defaultExport =>
    have hbrace : '\x7b' ∈ (Identifier.row others).toList :=
      hchars ▸ by simp [Emitter.importBinding]
    exact absurd hbrace (not_mem_row hothers rfl (by decide) (by decide))
  case defaultExport.namedExports =>
    have hbrace : '\x7b' ∈ (Identifier.row names).toList :=
      hchars.symm ▸ by simp [Emitter.importBinding]
    exact absurd hbrace (not_mem_row hnames rfl (by decide) (by decide))

theorem quote_not_mem_importBinding {names : List Identifier}
    (hnames : ∀ name ∈ names, IsWord name.name) (kind : ImportKind) :
    '"' ∉ (Emitter.importBinding kind names).toList := by
  have hrow : '"' ∉ (Identifier.row names).toList :=
    not_mem_row hnames rfl (by decide) (by decide)
  cases kind <;> simpa [Emitter.importBinding] using hrow

/-! ### Declarations -/

/-- Whether a text declares a name. It ends where the names of a declaration are complete. -/
inductive Piece.Declares : String → String → Prop where
  | hoisted {name : String} (hname : IsWord name) : Declares ("let " ++ name ++ ";") name
  | exported {name : String} (hname : IsWord name) : Declares ("export let " ++ name ++ " = ") name
  | classDecl {name : String} (hname : IsWord name) : Declares ("class " ++ name ++ " ") name
  | function {name : String} {params : List Identifier} (hname : IsWord name)
      (hparams : ∀ param ∈ params, IsWord param.name) :
      Declares ("function " ++ name ++ "(" ++ Identifier.row params ++ ") ") name
  | parameter {head : String} {params : List Identifier} {param : Identifier}
      (hparams : ∀ param ∈ params, IsWord param.name) (hparam : param ∈ params) :
      Declares (head ++ "(" ++ Identifier.row params ++ ") ") param.name
  | imported {kind : ImportKind} {names : List Identifier} {specifier : String} {name : Identifier}
      (hnames : ∀ name ∈ names, IsWord name.name) (hname : name ∈ names) :
      Declares ("import " ++ Emitter.importBinding kind names ++ " from \"" ++ specifier ++ "\";")
        name.name

/-- Whether a script declares a name anywhere. -/
def Script.Declares (script : Script) (name : String) : Prop :=
  ∃ line ∈ script.lines, ∃ text, Piece.text text ∈ line ∧ Piece.Declares text name

namespace Piece.Declares

variable {text front name : String}

theorem blank (hdeclares : Declares text name) : ' ' ∈ text.toList := by
  cases hdeclares <;> simp

/-- What ends with a semicolon declares a hoisted name or imported ones. -/
theorem of_semicolon (hdeclares : Declares (front ++ ";") name) :
    front = "let " ++ name ∨ ∃ kind names specifier,
      front = "import " ++ Emitter.importBinding kind names ++ " from \"" ++ specifier ++ "\"" ∧
        (∀ name ∈ names, IsWord name.name) ∧ ∃ inner ∈ names, inner.name = name := by
  generalize htext : front ++ ";" = text at hdeclares
  have hreverse := congrArg (fun text => text.toList.reverse) htext
  cases hdeclares with
  | hoisted hname => exact .inl ((String.append_left_inj _).mp htext)
  | exported | classDecl | function | parameter => simp at hreverse
  | @imported kind names specifier inner hnames hname =>
    refine .inr ⟨kind, names, specifier, ?_, hnames, inner, hname, rfl⟩
    apply (String.append_left_inj ";").mp
    simpa [String.append_assoc] using htext

theorem of_equals (hdeclares : Declares (front ++ " = ") name) :
    front = "export let " ++ name := by
  generalize htext : front ++ " = " = text at hdeclares
  have hreverse := congrArg (fun text => text.toList.reverse) htext
  cases hdeclares with
  | exported hname => exact (String.append_left_inj _).mp htext
  | hoisted | imported | function | parameter => simp at hreverse
  | classDecl hname =>
    obtain ⟨ahead, last, hname, hlast⟩ := hname.exists_last
    simp [hname] at hreverse
    obtain ⟨rfl, _⟩ := hreverse
    cases hlast

theorem of_blank (hdeclares : Declares (front ++ " ") name) {ahead : List Char} {last : Char}
    (hfront : front.toList = ahead ++ [last]) (hlast : isWordChar last = true) :
    front = "class " ++ name := by
  generalize htext : front ++ " " = text at hdeclares
  have hreverse := congrArg (fun text => text.toList.reverse) htext
  cases hdeclares with
  | classDecl hname => exact (String.append_left_inj _).mp htext
  | hoisted | imported => simp at hreverse
  | exported | function | parameter =>
    simp [hfront] at hreverse
    obtain ⟨rfl, _⟩ := hreverse
    cases hlast

theorem of_parameters (hdeclares : Declares (front ++ ") ") name) :
    (∃ params, (∀ param ∈ params, IsWord param.name) ∧
      front = "function " ++ name ++ "(" ++ Identifier.row params) ∨
    ∃ head params, (∀ param ∈ params, IsWord param.name) ∧
      front = head ++ "(" ++ Identifier.row params ∧ ∃ param ∈ params, param.name = name := by
  generalize htext : front ++ ") " = text at hdeclares
  have hreverse := congrArg (fun text => text.toList.reverse) htext
  cases hdeclares with
  | classDecl hname =>
    obtain ⟨ahead, last, hname, hlast⟩ := hname.exists_last
    simp [hname] at hreverse
    obtain ⟨rfl, _⟩ := hreverse
    cases hlast
  | hoisted | imported | exported => simp at hreverse
  | @function name params hname hparams =>
    exact .inl ⟨params, hparams, (String.append_left_inj _).mp htext⟩
  | @parameter head params param hparams hparam =>
    exact .inr ⟨head, params, hparams, (String.append_left_inj _).mp htext, param, hparam, rfl⟩

/-- A head with parameters declares these, and what it names if it is that of a function. -/
theorem of_head {head : String} {params : List Identifier}
    (hdeclares : Declares (head ++ "(" ++ Identifier.row params ++ ") ") name)
    (hhead : '(' ∉ head.toList) (hparams : ∀ param ∈ params, IsWord param.name) :
    head = "function " ++ name ∨ ∃ param ∈ params, param.name = name := by
  have hrow : '(' ∉ (Identifier.row params).toList :=
    not_mem_row hparams rfl (by decide) (by decide)
  have hsplit {other : String} {others : List Identifier}
      (heq : head ++ "(" ++ Identifier.row params = other ++ "(" ++ Identifier.row others) :
      head = other ∧ Identifier.row params = Identifier.row others := by
    have hchars : head.toList ++ '(' :: (Identifier.row params).toList =
        other.toList ++ '(' :: (Identifier.row others).toList := by
      simpa using congrArg String.toList heq
    obtain ⟨hheads, _, hrows⟩ := (List.append_cons_inj_of_notMem hhead hrow).mp hchars
    exact ⟨String.toList_inj.mp hheads, String.toList_inj.mp hrows⟩
  rcases of_parameters hdeclares with ⟨others, _, hfront⟩ | ⟨other, others, hothers, hfront, hname⟩
  · exact .inl (hsplit hfront).1
  · obtain ⟨inner, hinner, rfl⟩ := hname
    exact .inr (mem_of_row hothers hparams (hsplit hfront).2.symm inner hinner)

/-- An import declares the names of its binding. -/
theorem of_import {kind : ImportKind} {names : List Identifier} {specifier : String}
    (hdeclares : Declares ("import " ++ Emitter.importBinding kind names ++ " from \"" ++
      specifier ++ "\";") name) (hnames : ∀ name ∈ names, IsWord name.name) :
    ∃ inner ∈ names, inner.name = name := by
  have hfront : "import " ++ Emitter.importBinding kind names ++ " from \"" ++ specifier ++ "\";" =
      "import " ++ Emitter.importBinding kind names ++ " from \"" ++ specifier ++ "\"" ++ ";" := by
    simp [String.append_assoc]
  rw [hfront] at hdeclares
  rcases of_semicolon hdeclares with hfront | ⟨other, others, module, hfront, hothers, hname⟩
  · have hchars := congrArg String.toList hfront
    simp at hchars
  · have hchars : ((Emitter.importBinding kind names).toList ++ " from ".toList) ++
        '"' :: (specifier.toList ++ ['"']) =
          ((Emitter.importBinding other others).toList ++ " from ".toList) ++
            '"' :: (module.toList ++ ['"']) := by
      simpa using congrArg String.toList hfront
    have hblank : '"' ∉ " from ".toList := by decide
    have hbinding : Emitter.importBinding kind names = Emitter.importBinding other others :=
      String.toList_inj.mp (List.append_cancel_right (eq_of_append_cons
        (List.not_mem_append (quote_not_mem_importBinding hnames kind) hblank)
        (List.not_mem_append (quote_not_mem_importBinding hothers other) hblank) hchars))
    obtain ⟨inner, hinner, rfl⟩ := hname
    have hrow := row_of_importBinding hnames hothers hbinding
    exact mem_of_row hothers hnames hrow.symm inner hinner

end Piece.Declares

/-! ### What pieces declare -/

namespace Piece

/-- Whether a text starts, or starts and ends, as declarations do. -/
def MayDeclare (text : List Char) : Prop :=
  (∃ opening ∈ ["let ", "export let ", "class ", "import "], opening.toList <+: text) ∨
    '(' ∈ text ∧ [' ', ')'] <+: text.reverse

instance : DecidablePred MayDeclare := fun _ => inferInstanceAs (Decidable (_ ∨ _))

theorem Declares.mayDeclare {text name : String} (hdeclares : Declares text name) :
    MayDeclare text.toList := by
  cases hdeclares with
  | hoisted | exported | classDecl | imported => simp [MayDeclare]
  | function | parameter => exact .inr ⟨by simp, by simp⟩

theorem not_mayDeclare_fixed : ∀ text ∈ fixedTexts, ¬MayDeclare text.toList := by
  decide

theorem not_mayDeclare_template (value : String) : ¬MayDeclare (Literal.template value).toList := by
  simp [MayDeclare, Literal.template]

theorem not_mayDeclare_key (value : String) :
    ¬MayDeclare (Literal.key value ++ ": ").toList := by
  simp [MayDeclare, Literal.key]

theorem not_mayDeclare_iterated (item : String) :
    ¬MayDeclare ("for (" ++ item ++ " of ").toList := by
  simp [MayDeclare]

theorem not_mayDeclare_reference (key : String) :
    ¬MayDeclare (Preamble.reference key ++ "(").toList := by
  simp [MayDeclare, Preamble.reference, Preamble.operatorTable]

theorem not_mem_methodName {name : MethodName} {params : List Identifier} {body : Block}
    {span : Span} (hmade : (Node.member (.method name params body span)).Made) {char : Char}
    (hchar : char = ' ' ∨ char = '(') : char ∉ (Emitter.methodName name).toList := by
  cases name with
  | identifier name =>
    have hname : IsName name.name := hmade
    unfold Emitter.methodName
    dsimp only
    split
    · rcases hchar with rfl | rfl <;> decide
    · exact hname.not_mem (by rcases hchar with rfl | rfl <;> rfl)
  | operator op place =>
    rcases hchar with rfl | rfl <;> cases op <;> simp [Emitter.methodName, BinaryOperator.text]

theorem blank_not_mem_path {target : Expression} {path : String}
    (htarget : (Node.expression target).Every Node.Formed) (hpath : target.path? = some path) :
    ' ' ∉ path.toList := by
  obtain ⟨first, more, hfirst, hstart, hmore⟩ := Expression.exists_word_of_path? htarget hpath
  rw [hfirst, List.mem_cons, not_or]
  constructor
  · rintro rfl
    cases hstart
  · intro hmem
    rcases hmore _ hmem with hword | hpoint
    · cases hword
    · cases hpoint

/-- A piece declares no names but those that are known to be declared. -/
theorem Written.named_of_declares {named : String → Prop} {text name : String}
    (hwritten : (Piece.text text).Written named) (hdeclares : Declares text name)
    (hnamed : ∀ name, named name → IsWord name) : named name := by
  cases hwritten with
  | fixed htext => exact absurd hdeclares.mayDeclare (not_mayDeclare_fixed _ htext)
  | template value => exact absurd hdeclares.mayDeclare (not_mayDeclare_template value)
  | key value => exact absurd hdeclares.mayDeclare (not_mayDeclare_key value)
  | iterated hitem => exact absurd hdeclares.mayDeclare (not_mayDeclare_iterated _)
  | binary hop => exact absurd hdeclares.mayDeclare (not_mayDeclare_reference _)
  | unary op => exact absurd hdeclares.mayDeclare (not_mayDeclare_reference _)
  | number hnumber =>
    rcases hnumber.forall_mem _ hdeclares.blank with hdigit | hpoint
    · cases hdigit
    · cases hpoint
  | property hkey =>
    have hblank := hdeclares.blank
    rw [String.toList_append] at hblank
    exact absurd hblank (List.not_mem_append (by decide) (hkey.not_mem rfl))
  | path htarget hpath => exact absurd hdeclares.blank (blank_not_mem_path htarget hpath)
  | target htarget hpath =>
    have hexported := hdeclares.of_equals
    exact absurd (by simp [hexported]) (blank_not_mem_path htarget hpath)
  | field hname =>
    have hexported := hdeclares.of_equals
    exact absurd (by simp [hexported]) (hname.not_mem (rfl : isWordChar ' ' = false))
  | lambda hparams =>
    have hwords := fun param hparam => hnamed _ (hparams param hparam)
    rcases hdeclares.of_head (by decide) hwords with hhead | ⟨param, hparam, rfl⟩
    · have hchars := congrArg String.toList hhead
      simp at hchars
    · exact hparams param hparam
  | function hname hparams =>
    have hwords := fun param hparam => hnamed _ (hparams param hparam)
    have hopen := (hnamed _ hname).not_mem (rfl : isWordChar '(' = false)
    rcases hdeclares.of_head (by simpa using hopen) hwords with hhead | ⟨param, hparam, rfl⟩
    · rw [← String.append_assoc] at hhead
      rwa [← (String.append_right_inj "function ").mp hhead]
    · exact hparams param hparam
  | method hmade hparams =>
    have hwords := fun param hparam => hnamed _ (hparams param hparam)
    rcases hdeclares.of_head (not_mem_methodName hmade (.inr rfl)) hwords with
      hhead | ⟨param, hparam, rfl⟩
    · exact absurd (by simp [hhead]) (not_mem_methodName hmade (.inl rfl))
    · exact hparams param hparam
  | classHead hname =>
    obtain ⟨ahead, last, htext, hlast⟩ := (hnamed _ hname).exists_last
    have hfront := hdeclares.of_blank
      (show _ = ("class ".toList ++ ahead) ++ [last] by simp [htext]) hlast
    rwa [← (String.append_right_inj _).mp hfront]
  | imported kind found hsource hnames =>
    have hwords := fun name hname => hnamed _ (hnames name hname)
    obtain ⟨inner, hinner, rfl⟩ := hdeclares.of_import hwords
    exact hnames inner hinner
  | exported hname =>
    have hfront := hdeclares.of_equals
    rwa [← (String.append_right_inj _).mp hfront]
  | hoisted hname =>
    rcases hdeclares.of_semicolon with hfront | ⟨kind, names, specifier, hfront, _⟩
    · rwa [← (String.append_right_inj _).mp hfront]
    · have hchars := congrArg String.toList hfront
      simp at hchars

end Piece

/-- Every name that a script declares is one that the program declares. It may be taken all the
    same, as a word that the language does not reserve, or by the preamble. -/
theorem Program.binds_of_declares {source : String} {program : Program} {env : Environment}
    {script : Script} (hread : ofSource source = .ok program)
    (hemit : (program.emit env).result = .ok script) {name : String}
    (hdeclares : script.Declares name) :
    program.Binds name ∧ IsName name ∧
      (name ∈ Script.takenNames → name ∈ Script.unguardedNames) := by
  obtain ⟨line, hline, text, htext, hdeclares⟩ := hdeclares
  have hwritten := written_of_emit hread hemit (fun _ hbinds => hbinds) line hline _ htext
  have hbinds := hwritten.named_of_declares hdeclares fun _ hbinds =>
    (isName_of_binds hread hbinds).isWord
  have hname := isName_of_binds hread hbinds
  exact ⟨hbinds, hname, fun htaken => Script.mem_unguardedNames.mpr ⟨htaken, hname⟩⟩

/-- A parameter may be such a name. -/
theorem Program.binds_of_declares_parameter : ∃ program script,
    ofSource "function f(this) do end" = .ok program ∧ (program.emit {}).result = .ok script ∧
      script.Declares "this" ∧ program.Binds "this" ∧ IsName "this" ∧
        "this" ∈ Script.takenNames ∧ "this" ∈ Script.unguardedNames := by
  have hcompile : ∃ script, (compile "function f(this) do end" {}).result = .ok script ∧
      script.lines = [[.text "function f(this) ", .text "\x7b\x7d"]] := ⟨_, by cbv, by cbv⟩
  obtain ⟨script, hcompile, hlines⟩ := hcompile
  have hhead : Piece.Declares "function f(this) " "this" := by
    have hparam : IsWord "this" := ⟨by decide, List.all_eq_true.mp rfl⟩
    let param : Identifier := ⟨"this", ⟨⟨0, 0, 0⟩, ⟨0, 0, 0⟩⟩⟩
    have htext : "function f(this) " = "function f" ++ "(" ++ Identifier.row [param] ++ ") " := by
      decide
    rw [htext]
    exact .parameter (List.forall_mem_singleton.mpr hparam) List.mem_cons_self
  have hdeclares : script.Declares "this" := by
    rw [Script.Declares, hlines]
    exact ⟨_, List.mem_cons_self, _, List.mem_cons_self, hhead⟩
  have htaken : "this" ∈ Script.takenNames := by decide
  unfold compile at hcompile
  split at hcompile
  · next program hread =>
    obtain ⟨hbinds, hname, hunguarded⟩ := binds_of_declares hread hcompile hdeclares
    exact ⟨program, script, hread, hcompile, hdeclares, hbinds, hname, htaken, hunguarded htaken⟩
  · cases hcompile

/-- A word that the code of a module reserves is declared. -/
theorem Program.declares_reservedWord : ∃ script, (compile "var = 1" {}).result = .ok script ∧
    script.body 2 = "let var;\nvar = 1;" ∧ script.Declares "var" ∧
      "var" ∈ Script.reservedWords := by
  have hcompile : ∃ script, (compile "var = 1" {}).result = .ok script ∧
      script.lines = [[.text "let var;"], [.text "var = ", .text "1", .text ";"]] :=
    ⟨_, by cbv, by cbv⟩
  obtain ⟨script, hemit, hlines⟩ := hcompile
  have hbody : script.body 2 = "let var;\nvar = 1;" := by
    rw [Script.body, hlines]
    rfl
  have hhoisted : Piece.Declares "let var;" "var" := by
    have htext : "let var;" = "let " ++ "var" ++ ";" := by decide
    rw [htext]
    exact .hoisted ⟨by decide, List.all_eq_true.mp rfl⟩
  have hdeclares : script.Declares "var" := by
    rw [Script.Declares, hlines]
    exact ⟨_, List.mem_cons_self, _, List.mem_cons_self, hhoisted⟩
  exact ⟨script, hemit, hbody, hdeclares, by decide⟩

end KaLang
