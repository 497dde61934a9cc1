import KaLang.Compile
import KaLang.Proofs.Scope.Assigned
import KaLang.Proofs.Script.Shown

/-!
How far a script keeps the grouping of an expression. Two sources that are one expression each are
compiled to the same script only if the expressions are the same with every step behind an
assignment taken behind its value (`Expression.regrouped_eq_of_compiledTo`). The difference between
`(a = b).c` and `a = b.c` is lost, because no parentheses are written around an assignment.
-/

namespace KaLang

open ScriptReader

/-! ### The names that an expression declares -/

mutual

/-- Every name that an expression without lambdas assigns to is one that can be read. -/
theorem Assigned.isName_of_expression : (e : Expression) → e.Every Expression.IsLegible →
    e.Every Expression.IsPlain → ∀ name ∈ Assigned.expression e, IsName name
  | .string _ _, _, _ | .number _ _, _, _ | .name _ _, _, _ => by simp [Assigned.expression]
  | .array items _, hlegible, hplain => Assigned.isName_of_expressions items hlegible.2 hplain.2
  | .object entries _, hlegible, hplain => Assigned.isName_of_fields entries hlegible.2 hplain.2
  | .property owner _ _, hlegible, hplain | .unary _ owner _, hlegible, hplain =>
    Assigned.isName_of_expression owner hlegible.2 hplain.2
  | .assign target _ value _ _, hlegible, hplain => by
    have htarget := Assigned.isName_of_expression target hlegible.2.1 hplain.2.1
    have hvalue := Assigned.isName_of_expression value hlegible.2.2 hplain.2.2
    have hself : ∀ name ∈ target.name?.toList, IsName name := by
      cases target with
      | name text span =>
        have hname : IsName text := hlegible.2.1
        simpa [Expression.name?] using hname
      | _ => simp [Expression.name?]
    exact List.forall_mem_append.mpr ⟨List.forall_mem_append.mpr ⟨hself, htarget⟩, hvalue⟩
  | .binary left _ right _, hlegible, hplain =>
    List.forall_mem_append.mpr
      ⟨Assigned.isName_of_expression left hlegible.2.1 hplain.2.1,
        Assigned.isName_of_expression right hlegible.2.2 hplain.2.2⟩
  | .lambda _ _ _, _, hplain => absurd hplain id
  | .call callee arguments _, hlegible, hplain | .construct callee arguments _, hlegible, hplain =>
    List.forall_mem_append.mpr
      ⟨Assigned.isName_of_expression callee hlegible.2.1 hplain.2.1,
        Assigned.isName_of_expressions arguments hlegible.2.2 hplain.2.2⟩

theorem Assigned.isName_of_expressions : (items : List Expression) →
    Expression.EachEvery Expression.IsLegible items →
    Expression.EachEvery Expression.IsPlain items →
      ∀ name ∈ Assigned.expressions items, IsName name
  | [], _, _ => by simp [Assigned.expressions]
  | item :: more, hlegible, hplain =>
    List.forall_mem_append.mpr ⟨Assigned.isName_of_expression item hlegible.1 hplain.1,
      Assigned.isName_of_expressions more hlegible.2 hplain.2⟩

theorem Assigned.isName_of_fields : (entries : List Field) →
    Field.EachEvery Expression.IsLegible entries →
    Field.EachEvery Expression.IsPlain entries →
      ∀ name ∈ Assigned.fields entries, IsName name
  | [], _, _ => by simp [Assigned.fields]
  | .mk _ value :: more, hlegible, hplain =>
    List.forall_mem_append.mpr ⟨Assigned.isName_of_expression value hlegible.1 hplain.1,
      Assigned.isName_of_fields more hlegible.2 hplain.2⟩

end

/-! ### Declarations ahead of a line -/

namespace ScriptReader

/-- A text with the declarations of names ahead of it. -/
def declared (names : List String) (text : List Char) : List Char :=
  names.foldr (fun name text => "let ".toList ++ (name.toList ++ ';' :: '\n' :: text)) text

theorem chars_lines (width : Nat) (names : List String) (line : Layout) :
    Layout.chars width (Layout.lines 0 (names.map Layout.letLine ++ [line])) =
      declared names (line.chars width) := by
  induction names with
  | nil => simp [Layout.lines, declared]
  | cons name names ih =>
    obtain ⟨second, more, hmore⟩ : ∃ second more, names.map Layout.letLine ++ [line] =
        second :: more := by
      cases names <;> simp
    have hbreak : Layout.chars width [.newline 0] = ['\n'] := by
      simp [Layout.chars, Piece.render]
    rw [Layout.lines, hmore] at ih
    rw [Layout.lines, List.map_cons, List.cons_append, hmore, List.intercalate_cons_cons,
      Layout.chars_append, Layout.chars_append, ih, hbreak]
    simp [declared, Layout.letLine]

/-- Whether a text starts with the declaration of a name. -/
def IsDeclared (text : List Char) : Prop := ∃ name rest, IsName name ∧ text = declared [name] rest

variable {e other : Expression} {text code otherCode : List Char}

/-- Behind the same declarations the texts are the same, if they start with no declaration. -/
theorem eq_of_declared_eq {names others : List String} {text other : List Char}
    (hnames : ∀ name ∈ names, IsName name) (hothers : ∀ name ∈ others, IsName name)
    (htext : ¬IsDeclared text) (hother : ¬IsDeclared other)
    (hsame : declared names text = declared others other) : text = other := by
  induction names generalizing others with
  | nil =>
    cases others with
    | nil => exact hsame
    | cons second others =>
      exact absurd ⟨second, declared others other, hothers second List.mem_cons_self, hsame⟩ htext
  | cons first names ih =>
    cases others with
    | nil =>
      exact absurd ⟨first, declared names text, hnames first List.mem_cons_self, hsame.symm⟩ hother
    | cons second others =>
      have hfirst := hnames first List.mem_cons_self
      have hsecond := hothers second List.mem_cons_self
      have hafter : first.toList ++ ';' :: '\n' :: declared names text =
          second.toList ++ ';' :: '\n' :: declared others other :=
        List.append_cancel_left hsame
      -- A name ends at the semicolon, so both texts are the same behind it.
      have hend (rest : List Char) : ∀ char ∈ (';' :: rest).head?, isWordChar char = false := by
        rintro _ ⟨⟩
        rfl
      have hbehind := (word_append hfirst.chars (hend ('\n' :: declared names text))).2
      rw [hafter, (word_append hsecond.chars (hend _)).2] at hbehind
      have hrest : declared names text = declared others other := by
        simpa using hbehind.symm
      exact ih (fun name hname => hnames name (List.mem_cons_of_mem _ hname))
        (fun name hname => hothers name (List.mem_cons_of_mem _ hname)) hrest

/-- The reader stops behind the first word of a declaration, and nowhere in an expression. -/
theorem not_isDeclared_of_shown (hshown : Shown e text) : ¬IsDeclared (text ++ [';']) := by
  rintro ⟨name, rest, hname, htext⟩
  have hlet : IsName "let" := ⟨⟨'l', rfl, rfl⟩, List.all_eq_true.mp rfl, rfl, by simp⟩
  have hstop : Stops (' ' :: (name.toList ++ ';' :: '\n' :: rest)) := by
    obtain ⟨first, more, hchars, hstart⟩ := hname.exists_start
    rw [hchars]
    rintro ⟨⟩
    cases hstart
  have hfound := finds_expression (finds_name hlet hstop.apart) (finds_end hstop)
  have hline : "let".toList ++ ' ' :: (name.toList ++ ';' :: '\n' :: rest) = text ++ [';'] := by
    rw [htext]
    rfl
  have hclosed : Stops [';'] := by simp [Stops]
  rw [hline] at hfound
  cases hfound.unique (hshown.finds hclosed)

/-! ### The line of an expression -/

theorem prefix_firstLine (width : Nat) (layout : Layout) :
    layout.firstLine.toList <+: layout.chars width := by
  obtain ⟨rest, hchars, -⟩ := layout.exists_firstLine_append width
  exact ⟨rest, hchars.symm⟩

/-- The line of an expression stands in parentheses only if it starts with a brace or a letter. -/
theorem chars_expressionLine (width : Nat) (code : Layout) :
    (Emitter.expressionLine code).chars width = code.chars width ++ [';'] ∨
      (Emitter.expressionLine code).chars width = '(' :: (code.chars width ++ [')', ';']) ∧
        ∃ char ∈ (code.chars width).head?, char.isDigit = false := by
  have hhead {first : Char} {more : List Char} (hdigit : first.isDigit = false)
      (hstarts : code.startsWith (first :: more) = true) :
      ∃ char ∈ (code.chars width).head?, char.isDigit = false := by
    have hprefix := (List.isPrefixOf_iff_prefix.mp hstarts).trans (prefix_firstLine width code)
    obtain ⟨rest, hrest⟩ := hprefix
    exact ⟨first, by rw [← hrest]; rfl, hdigit⟩
  have hword : "function".toList = 'f' :: "unction".toList := by simp
  unfold Emitter.expressionLine
  cases hneeded : code.startsWith ['\x7b'] || code.startsWith "function".toList with
  | false => exact Or.inl (by simp [Emitter.inParenthesesIf])
  | true =>
    refine Or.inr ⟨by simp [Emitter.inParenthesesIf, Emitter.inParentheses], ?_⟩
    rw [hword] at hneeded
    exact (Bool.or_eq_true_iff.mp hneeded).elim (hhead (by decide)) (hhead (by decide))

theorem not_isDeclared_expressionLine {width : Nat} {code : Layout}
    (hshown : Shown e (code.chars width)) :
    ¬IsDeclared ((Emitter.expressionLine code).chars width) := by
  rcases chars_expressionLine width code with hline | ⟨hline, _⟩
  · rw [hline]
    exact not_isDeclared_of_shown hshown
  · rw [hline]
    rintro ⟨name, rest, _, hname⟩
    cases hname

/-- Lines of expressions that are the same show the same. -/
theorem chars_eq_of_expressionLine_eq {width : Nat} {code otherCode : Layout}
    (hcode : Starts (code.chars width)) (hother : Starts (otherCode.chars width))
    (hsame : (Emitter.expressionLine code).chars width =
      (Emitter.expressionLine otherCode).chars width) :
    code.chars width = otherCode.chars width := by
  -- A line that is in parentheses is none that starts with a number in parentheses.
  have hmixed {inside plain : List Char} (hinside : ∃ char ∈ inside.head?, char.isDigit = false)
      (hplain : Starts plain) : '(' :: (inside ++ [')', ';']) ≠ plain ++ [';'] := by
    intro heq
    obtain ⟨char, hchar, hdigit⟩ := hinside
    have hstarts := hplain.append [';']
    rw [← heq] at hstarts
    cases inside with
    | nil => cases hchar
    | cons first more =>
      cases hchar
      cases hstarts with
      | sign hsign => simp at hsign
      | word hword => cases hword
      | number hfirst =>
        rw [hdigit] at hfirst
        cases hfirst
  rcases chars_expressionLine width code with hline | ⟨hline, hhead⟩ <;>
    rcases chars_expressionLine width otherCode with hotherLine | ⟨hotherLine, hotherHead⟩
  · rw [hline, hotherLine] at hsame
    exact List.append_cancel_right hsame
  · rw [hline, hotherLine] at hsame
    exact absurd hsame.symm (hmixed hotherHead hcode)
  · rw [hline, hotherLine] at hsame
    exact absurd hsame (hmixed hhead hother)
  · rw [hline, hotherLine] at hsame
    exact List.append_cancel_right (List.cons.inj hsame).2

end ScriptReader

/-! ### Whole scripts -/

/-- Whether a source text that is one expression, without lambdas and without assignments that apply
    an operator, is compiled to a text. -/
structure Expression.CompiledTo (value : Expression) (source : String) (env : Environment)
    (width : Nat) (text : String) : Prop where
  plain : value.Every IsPlain
  read : ∃ program span, Program.ofSource source = .ok program ∧
    program.body = [.expression value span]
  written : ∃ script, (compile source env).result = .ok script ∧ script.text width = text

namespace Expression

variable {value other : Expression} {source otherSource text : String} {env : Environment}
  {width : Nat}

/-- The script of an expression is its line behind the declarations of names. -/
theorem CompiledTo.exists_line (hvalue : value.CompiledTo source env width text) :
    ∃ names code, (∀ name ∈ names, IsName name) ∧
      Shown value.unmarked.regrouped (code.chars width) ∧
      text.toList = (Preamble.text width).toList ++
        declared names ((Emitter.expressionLine code).chars width) := by
  obtain ⟨hplain, ⟨program, span, hread, hbody⟩, script, hscript, rfl⟩ := hvalue
  have hlegible : value.Every IsLegible :=
    Program.every_isLegible hread (hbody ▸ List.mem_singleton_self _)
  have hemit : (program.emit env).result = .ok script := by rwa [compile, hread] at hscript
  obtain ⟨session, hrun, htree⟩ := Program.exists_run_of_emit hemit
  obtain ⟨inner, hinner, hlines⟩ := Emitter.run_program_eq_ok_iff.mp hrun
  rw [hbody] at hinner
  obtain ⟨first, middle, hfirst, hinner⟩ := Emitter.run_bind_eq_ok_iff.mp hinner
  obtain ⟨code, last, hcode, hfirst⟩ := Emitter.run_bind_eq_ok_iff.mp hfirst
  have hshown : Shown value.unmarked.regrouped (code.chars width) :=
    Emitter.shows_expression 0 value hlegible hplain _ code last hcode
  cases hfirst
  cases hinner
  let names := (session.tree.scope? 0).elim [] Scope.hoistedNames
  have hdeclared : script.lines =
      names.map Layout.letLine ++ [Emitter.expressionLine code] := hlines
  refine ⟨names, code, fun name hname => ?_, hshown, ?_⟩
  · have hhoists : session.tree.Hoists name := by
      cases hscope : session.tree.scope? 0 with
      | none => simp [names, hscope] at hname
      | some scope =>
        simp only [names, hscope, Option.elim_some] at hname
        exact ⟨scope, List.mem_of_find?_eq_some hscope, hname⟩
    rw [htree, Program.tree_emit hemit] at hhoists
    have hassigned := Program.mem_assignedNames_of_hoists hhoists
    rw [Program.assignedNames, hbody] at hassigned
    have hvalue : name ∈ Assigned.expression value := by
      simpa [Assigned.statements, Assigned.statement] using hassigned
    exact Assigned.isName_of_expression value hlegible hplain name hvalue
  · rw [Script.text, Script.body, String.toList_append, Layout.toList_render, hdeclared,
      chars_lines]

/-- Sources that are one expression each are compiled to the same script only if the expressions are
    the same up to places, marks of local assignments, and steps behind assignments. -/
theorem regrouped_eq_of_compiledTo (hvalue : value.CompiledTo source env width text)
    (hother : other.CompiledTo otherSource env width text) :
    value.unmarked.regrouped = other.unmarked.regrouped := by
  obtain ⟨names, code, hnames, hshown, htext⟩ := hvalue.exists_line
  obtain ⟨others, otherCode, hothers, hotherShown, hotherText⟩ := hother.exists_line
  have hdeclared := List.append_cancel_left (htext.symm.trans hotherText)
  have hline := eq_of_declared_eq hnames hothers (not_isDeclared_expressionLine hshown)
    (not_isDeclared_expressionLine hotherShown) hdeclared
  have hcode := chars_eq_of_expressionLine_eq hshown.starts hotherShown.starts hline
  rw [← hcode] at hotherShown
  exact hshown.unique hotherShown

/-- Sources that are one expression each and are compiled to the same script are the same up to
    places, marks of local assignments, and steps behind assignments. So they are the same up to
    places and marks if neither takes such a step. -/
theorem unmarked_eq_of_compiledTo (hvalue : value.CompiledTo source env width text)
    (hother : other.CompiledTo otherSource env width text) :
    value.unmarked.regrouped = other.unmarked.regrouped ∧
      (value.Every IsGrouped → other.Every IsGrouped → value.unmarked = other.unmarked) := by
  have hsame := regrouped_eq_of_compiledTo hvalue hother
  refine ⟨hsame, fun hgrouped hotherGrouped => ?_⟩
  have hkept : value.unmarked.regrouped = value.unmarked := regrouped_shape value hgrouped
  have hotherKept : other.unmarked.regrouped = other.unmarked :=
    regrouped_shape other hotherGrouped
  rw [← hkept, hsame, hotherKept]

end Expression

/-! ### Steps behind assignments -/

namespace Emitter

variable {env : Environment} {depth : Nat} {target value stepped : Expression} {isLocal : Bool}
  {span : Span}

/-- A step that only adds to what is written ahead of it is written behind an assignment as it is
    behind the value. -/
theorem expression_assign {step : Layout → Emitter Layout}
    (hstepped : expression env depth stepped = expression env depth value >>= step)
    (hstep : ∀ ahead code, step (ahead ++ code) = do return ahead ++ (← step code)) :
    expression env depth (.assign target .plain value isLocal span) >>= step =
      expression env depth (.assign target .plain stepped isLocal span) := by
  simp only [expression, bind_assoc]
  refine bind_congr fun _ => ?_
  cases target.path? with
  | none => rfl
  | some path => simp only [hstepped, bind_assoc, assigned, pure_bind, hstep]

/-- A property behind an assignment is written as one of the value. -/
theorem expression_property_assign (hvalue : isNumber value = false) (key : Identifier)
    (place : Span) :
    expression env depth (.property (.assign target .plain value isLocal span) key place) =
      expression env depth (.assign target .plain (.property value key place) isLocal span) := by
  have hproperty {owner : Expression} (howner : isNumber owner = false) :
      expression env depth (.property owner key place) =
        expression env depth owner >>= fun code => return code ++ .ofText ("." ++ key.name) := by
    rw [expression, howner]
    rfl
  rw [hproperty rfl, expression_assign (hproperty hvalue) (by simp)]

/-- A computed access behind an assignment is written as one to the value. -/
theorem expression_computed_assign (key : Expression) (place : Span) :
    expression env depth (.binary (.assign target .plain value isLocal span) .member key place) =
      expression env depth
        (.assign target .plain (.binary value .member key place) isLocal span) := by
  have hcomputed (left : Expression) : expression env depth (.binary left .member key place) =
      expression env depth left >>= fun code => do
        return code ++ .ofText "[" ++ (← expression env depth key) ++ .ofText "]" := rfl
  rw [hcomputed, expression_assign (hcomputed value) (by simp)]

/-- A call behind an assignment is written as one of the value. -/
theorem expression_call_assign (hvalue : isLambda value = false) (arguments : List Expression)
    (place : Span) :
    expression env depth (.call (.assign target .plain value isLocal span) arguments place) =
      expression env depth (.assign target .plain (.call value arguments place) isLocal span) := by
  have hcall {callee : Expression} (hcallee : isLambda callee = false) :
      expression env depth (.call callee arguments place) =
        expression env depth callee >>= fun code => do
          return code ++ inParentheses (Layout.row (← expressions env depth arguments)) := by
    rw [expression, hcallee]
    rfl
  rw [hcall rfl, expression_assign (hcall hvalue) (by simp)]

end Emitter

namespace Expression

/-- The expression `(a = b).c`. -/
def accessBehind : Expression :=
  .property
    (.assign (.name "a" (.stretch 1 0 1 1)) .plain (.name "b" (.stretch 5 0 5 1)) false
      (.stretch 1 0 1 5))
    ⟨"c", .stretch 8 0 8 1⟩ (.stretch 1 0 1 8)

/-- The expression `a = b.c`. -/
def accessInside : Expression :=
  .assign (.name "a" (.stretch 0 0 0 1)) .plain
    (.property (.name "b" (.stretch 4 0 4 1)) ⟨"c", .stretch 6 0 6 1⟩ (.stretch 4 0 4 3)) false
    (.stretch 0 0 0 7)

/-- The expression `a = b.c`, marked as local. -/
def accessLocal : Expression :=
  .assign (.name "a" (.stretch 6 0 6 1)) .plain
    (.property (.name "b" (.stretch 10 0 10 1)) ⟨"c", .stretch 12 0 12 1⟩ (.stretch 10 0 10 3)) true
    (.stretch 0 0 0 13)

/-- The script of all three. -/
def accessScript : Script :=
  ⟨[[.text "let a;"], [.text "a = ", .text "b", .text ".c", .text ";"]]⟩

theorem CompiledTo.of_emit {value : Expression} {source : String} {env : Environment}
    {script : Script} {span place : Span} (hplain : value.Every IsPlain)
    (hread : Program.ofSource source = .ok ⟨[.expression value span], place⟩)
    (hemit : (Program.emit ⟨[.expression value span], place⟩ env).result = .ok script)
    (width : Nat) : value.CompiledTo source env width (script.text width) :=
  ⟨hplain, ⟨_, span, hread, rfl⟩, script, by rwa [compile, hread], rfl⟩

theorem accessBehind_compiledTo :
    accessBehind.CompiledTo "(a = b).c" {} 4 (accessScript.text 4) := by
  have hread : Program.ofSource "(a = b).c" =
      .ok ⟨[.expression accessBehind (.stretch 1 0 1 8)], .stretch 0 0 0 9⟩ := by
    cbv
  exact .of_emit (by simp [accessBehind, Every, IsPlain]) hread rfl 4

theorem accessInside_compiledTo :
    accessInside.CompiledTo "a = b.c" {} 4 (accessScript.text 4) := by
  have hread : Program.ofSource "a = b.c" =
      .ok ⟨[.expression accessInside (.stretch 0 0 0 7)], .stretch 0 0 0 7⟩ := by
    cbv
  exact .of_emit (by simp [accessInside, Every, IsPlain]) hread rfl 4

theorem accessLocal_compiledTo :
    accessLocal.CompiledTo "local a = b.c" {} 4 (accessScript.text 4) := by
  have hread : Program.ofSource "local a = b.c" =
      .ok ⟨[.expression accessLocal (.stretch 0 0 0 13)], .stretch 0 0 0 13⟩ := by
    cbv
  exact .of_emit (by simp [accessLocal, Every, IsPlain]) hread rfl 4

/-- An access behind an assignment and one inside it are compiled to the same script. -/
theorem access_loses_grouping :
    accessBehind.CompiledTo "(a = b).c" {} 4 (accessScript.text 4) ∧
      accessInside.CompiledTo "a = b.c" {} 4 (accessScript.text 4) ∧
      accessBehind.unmarked ≠ accessInside.unmarked := by
  refine ⟨accessBehind_compiledTo, accessInside_compiledTo, ?_⟩
  rintro ⟨⟩

theorem unmarked_access :
    accessBehind.CompiledTo "(a = b).c" {} 4 (accessScript.text 4) ∧
      accessInside.CompiledTo "a = b.c" {} 4 (accessScript.text 4) ∧
      accessLocal.CompiledTo "local a = b.c" {} 4 (accessScript.text 4) ∧
      accessBehind.unmarked.regrouped = accessInside.unmarked.regrouped ∧
      accessLocal.unmarked = accessInside.unmarked := by
  have hinside : accessInside.Every IsGrouped := by simp [accessInside, Every, IsGrouped, isAssign]
  have hlocal : accessLocal.Every IsGrouped := by simp [accessLocal, Every, IsGrouped, isAssign]
  exact ⟨accessBehind_compiledTo, accessInside_compiledTo, accessLocal_compiledTo,
    (unmarked_eq_of_compiledTo accessBehind_compiledTo accessInside_compiledTo).1,
    (unmarked_eq_of_compiledTo accessLocal_compiledTo accessInside_compiledTo).2 hlocal hinside⟩

end Expression

end KaLang
