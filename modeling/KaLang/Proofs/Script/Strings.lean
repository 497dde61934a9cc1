import KaLang.Compile
import KaLang.Proofs.Script.Literals
import KaLang.Proofs.Script.Shown
import KaLang.Proofs.Syntax.Strings

/-!
The strings of a program in its script. Every string that a program has as an expression stands in
the script as a template, and every key as one in double quotes; both stand for what the lexer made
of the token they come from (`Program.literals_denote_strings`).
-/

namespace KaLang

namespace Layout

variable {part code : Layout} {codes lines : List Layout}

theorem OnLine.of_mem (hcode : code ∈ lines) : OnLine code lines := ⟨code, hcode, List.infix_rfl⟩

theorem OnLine.trans (hpart : OnLine part codes) (hcodes : ∀ code ∈ codes, OnLine code lines) :
    OnLine part lines := by
  obtain ⟨code, hcode, hpart⟩ := hpart
  obtain ⟨line, hline, hcode⟩ := hcodes code hcode
  exact ⟨line, hline, hpart.trans hcode⟩

theorem onLine_braced (depth : Nat) (head : Layout) :
    ∀ line ∈ lines, OnLine line [braced depth head lines] :=
  fun _ hline => .singleton ((OnLine.of_mem hline).braced depth head)

/-- What is part of a layout is part of its text. -/
theorem chars_infix (hpart : part <:+: code) (width : Nat) :
    part.chars width <:+: code.chars width := by
  obtain ⟨ahead, behind, rfl⟩ := hpart
  exact ⟨chars width ahead, chars width behind, by simp⟩

end Layout

namespace Node

/-- Whether the literals for the strings that a node is made of itself stand on given lines. -/
def Denoted (lines : List Layout) : Node → Prop
  | expression (.string value _) => Layout.OnLine (.ofText (Literal.template value)) lines
  | expression (.object fields _) =>
    ∀ field ∈ fields, Layout.OnLine (.ofText (Literal.key field.key ++ ": ")) lines
  | _ => True

variable {node : Node} {nodes : List Node} {code line : Layout} {codes lines : List Layout}

theorem Denoted.mono (hnode : node.Denoted codes)
    (hcodes : ∀ code ∈ codes, Layout.OnLine code lines) : node.Denoted lines := by
  unfold Denoted at hnode ⊢
  split
  · exact hnode.trans hcodes
  · exact fun field hfield => (hnode field hfield).trans hcodes
  · trivial

/-- Lines keep what stands in their parts. -/
theorem Every.onLines (hnode : node.Every (Denoted codes))
    (hcodes : ∀ code ∈ codes, Layout.OnLine code lines) : node.Every (Denoted lines) :=
  hnode.mono fun _ hdenoted => hdenoted.mono hcodes

theorem EachEvery.onLines (hnodes : EachEvery (Denoted codes) nodes)
    (hcodes : ∀ code ∈ codes, Layout.OnLine code lines) : EachEvery (Denoted lines) nodes :=
  fun node hnode => (hnodes node hnode).onLines hcodes

theorem Every.onLine (hnode : node.Every (Denoted [code])) (hcode : Layout.OnLine code lines) :
    node.Every (Denoted lines) :=
  hnode.onLines (by simpa using hcode)

theorem Every.within (hnode : node.Every (Denoted [code])) (hcode : code <:+: line) :
    node.Every (Denoted [line]) :=
  hnode.onLine (.singleton hcode)

/-- There is no string in what may be assigned to. -/
theorem every_of_path? {target : Expression} {path : String} (hpath : target.path? = some path) :
    (expression target).Every (Denoted lines) := by
  induction target using Expression.path?.induct generalizing path with
  | case1 text span => exact .of_children trivial .nil
  | case2 owner key span ih =>
    simp only [Expression.path?, Option.map_eq_some_iff] at hpath
    obtain ⟨base, hbase, _⟩ := hpath
    exact .of_children trivial (.single (ih hbase))
  | case3 other hname hproperty => simp [Expression.path?] at hpath

end Node

namespace Emitter

open Node (EachEvery Denoted)

variable {env : Environment}

theorem denotes_inScope (kind : ScopeKind) (params : List Identifier) {node : Node}
    {body : Emitter (List Layout)} (hbody : Yields body fun lines => node.Every (Denoted lines)) :
    Yields (inScope kind params body) fun lines => node.Every (Denoted lines) := by
  refine .after fun _ => .after fun _ => hbody.bind fun lines hlines => .after fun tree => ?_
  refine .map fun _ => hlines.onLines fun line hline => ?_
  exact (Layout.OnLine.of_mem hline).append_right _

/-- A test or what is iterated over, in the head of a block. -/
theorem denotes_headed {depth : Nat} {test : Expression} {body : Block} {ahead behind : Layout}
    (htest : Yields (expression env depth test) fun code =>
      (Node.expression test).Every (Denoted [code]))
    (hbody : ∀ head, Yields (block env depth head .block [] body) fun line =>
      head <:+: line ∧ (Node.block body).Every (Denoted [line])) :
    Yields (do
        let code ← expression env depth test
        let line ← block env depth (ahead ++ code ++ behind) .block [] body
        return [line]) fun lines =>
      (Node.expression test).Every (Denoted lines) ∧ (Node.block body).Every (Denoted lines) := by
  refine htest.bind fun code hcode => (hbody _).bind fun line ⟨hhead, hline⟩ => .pure ⟨?_, hline⟩
  exact hcode.within ((Layout.infix_between List.infix_rfl _ _).trans hhead)

/-- An expression that is applied to others. -/
theorem denotes_applied {depth : Nat} {callee : Expression} {arguments : List Expression}
    {head : Layout → Layout}
    (hcallee : Yields (expression env depth callee) fun code =>
      (Node.expression callee).Every (Denoted [code]))
    (harguments : Yields (expressions env depth arguments) fun codes =>
      EachEvery (Denoted codes) (arguments.map .expression))
    (hhead : ∀ code, code <:+: head code) :
    Yields (do
        let code ← expression env depth callee
        let args ← expressions env depth arguments
        return head code ++ inParentheses (Layout.row args)) fun code =>
      EachEvery (Denoted [code]) (.expression callee :: arguments.map .expression) := by
  refine hcallee.bind fun code hcode => harguments.bind fun args hargs => .pure ?_
  refine .cons (hcode.within ?_) (hargs.onLines fun arg harg => .singleton ?_)
  · exact List.infix_append_of_infix_left (hhead code)
  · exact List.infix_append_of_infix_right
      (infix_inParentheses ((Layout.OnLine.of_mem harg).intercalate _))

/-- A test with a block, and whatever follows the block on its last line. -/
theorem denotes_condition {α : Type} {depth : Nat} {test : Expression} {thenBranch : Block}
    {branch : Statement} {span : Span} {rest : Emitter α} {build : α → Layout}
    (htest : Yields (expression env depth test) fun code =>
      (Node.expression test).Every (Denoted [code]))
    (hthen : ∀ head, Yields (block env depth head .block [] thenBranch) fun line =>
      head <:+: line ∧ (Node.block thenBranch).Every (Denoted [line]))
    (hrest : Yields rest fun value => (Node.statement branch).Every (Denoted [build value])) :
    Yields (do
        let code ← expression env depth test
        let thenCode ← block env depth (.ofText "if (" ++ code ++ .ofText ") ") .block [] thenBranch
        let value ← rest
        return [thenCode ++ .ofText " " ++ build value]) fun lines =>
      (Node.statement (.condition test thenBranch (some branch) span)).Every (Denoted lines) := by
  refine htest.bind fun code hcode => (hthen _).bind fun line ⟨hhead, hline⟩ => ?_
  refine hrest.bind fun value hvalue => .pure ?_
  have hfirst : line <:+: line ++ Layout.ofText " " ++ build value :=
    List.infix_append_of_infix_left List.infix_append_left
  refine .of_children trivial (.cons (hcode.within ?_)
    (.cons (hline.within hfirst) (.single (hvalue.within List.infix_append_right))))
  exact ((Layout.infix_between List.infix_rfl _ _).trans hhead).trans hfirst

theorem denotes_exportDecl {depth : Nat} {declaration : Statement} {span : Span}
    (hassign : declaration.isAssignment = false)
    (hinner : Yields (statement env depth declaration) fun lines =>
      (Node.statement declaration).Every (Denoted lines)) :
    Yields (statement env depth (.exportDecl declaration span)) fun lines =>
      (Node.statement (.exportDecl declaration span)).Every (Denoted lines) := by
  simp only [statement]
  split
  · refine hinner.bind fun lines hlines => .pure (.of_children trivial (.single ?_))
    refine hlines.onLines fun line hline => ?_
    exact (Layout.OnLine.of_mem hline).map fun _ => List.infix_append_right
  · rw [exported_eq_throw hassign]
    exact .fault _

theorem denotes_exportAssign {depth : Nat} {target value : Expression} {op : AssignmentOperator}
    {isLocal : Bool} {place inner span : Span}
    (hvalue : Yields (expression env depth value) fun code =>
      (Node.expression value).Every (Denoted [code])) :
    Yields (statement env depth
        (.exportDecl (.expression (.assign target op value isLocal place) inner) span)) fun lines =>
      (Node.statement
        (.exportDecl (.expression (.assign target op value isLocal place) inner) span)).Every
          (Denoted lines) := by
  change Yields (exported env depth _) _
  cases hname : target.name? with
  | none =>
    simp only [exported, hname]
    exact .fault _
  | some name =>
    rw [exported_eq_perform hname]
    refine .after fun _ => hvalue.bind fun code hcode => .pure ?_
    refine .of_children trivial (.single (.of_children trivial (.single (.of_children trivial
      (.cons (Node.every_of_path? (target.path?_of_name? hname)) (.single ?_))))))
    exact hcode.within (Layout.infix_between (infix_assigned name op List.infix_rfl) _ _)

variable (env)

mutual

theorem denotes_expression (depth : Nat) : ∀ value, Yields (expression env depth value)
    fun code => (Node.expression value).Every (Denoted [code])
  | .string value span => .pure (.of_children (.of_mem (List.mem_singleton_self _)) .nil)
  | .number _ _ | .name _ _ => .pure (.of_children trivial .nil)
  | .array items span => by
    refine (denotes_expressions (depth + 1) items).bind fun codes hcodes => .pure ?_
    refine .of_children trivial (hcodes.onLines fun code hcode => ?_)
    exact .singleton (infix_array depth (.of_mem hcode))
  | .object entries span => by
    refine (denotes_fields (depth + 1) entries).bind fun codes ⟨hkeys, hvalues⟩ => .pure ?_
    have hcodes : ∀ code ∈ codes, Layout.OnLine code [object depth codes] :=
      fun code hcode => .singleton (infix_object depth (.of_mem hcode))
    refine .of_children (fun field hfield => (hkeys field hfield).trans hcodes) ?_
    exact hvalues.onLines hcodes
  | .property owner key span => by
    refine (denotes_expression depth owner).bind fun code hcode => .pure ?_
    refine .of_children trivial (.single (hcode.within ?_))
    exact List.infix_append_of_infix_left (infix_inParenthesesIf _ List.infix_rfl)
  | .assign target op value isLocal span => by
    refine .after fun _ => ?_
    cases hpath : target.path? with
    | none => exact .fault _
    | some path =>
      refine (denotes_expression depth value).bind fun code hcode => .pure ?_
      refine .of_children trivial (.cons (Node.every_of_path? hpath) (.single ?_))
      exact hcode.within (List.infix_append_of_infix_right (infix_assigned path op List.infix_rfl))
  | .binary left op right span => by
    refine (denotes_expression depth left).bind fun leftCode hleft => ?_
    refine (denotes_expression depth right).bind fun rightCode hright => ?_
    by_cases hop : op = .member
    · rw [if_pos hop]
      refine .pure (.of_children trivial (.cons (hleft.within ?_) (.single (hright.within ?_))))
      · exact List.infix_append_of_infix_left
          (List.infix_append_of_infix_left List.infix_append_left)
      · exact Layout.infix_between List.infix_rfl _ _
    · rw [if_neg hop]
      refine .pure (.of_children trivial (.cons (hleft.within ?_) (.single (hright.within ?_))))
      · exact infix_applied _ (.of_mem (by simp))
      · exact infix_applied _ (.of_mem (by simp))
  | .unary op operand span => by
    refine (denotes_expression depth operand).bind fun code hcode => .pure ?_
    exact .of_children trivial (.single (hcode.within (infix_applied _ (.of_mem (by simp)))))
  | .lambda params body span =>
    (denotes_block depth _ .function params body).imp fun code hbody =>
      .of_children trivial (.withBody (fun _ => trivial) hbody.2)
  | .call callee arguments span =>
    (denotes_applied (denotes_expression depth callee) (denotes_expressions depth arguments)
      fun code => infix_inParenthesesIf _ List.infix_rfl).imp fun code hcode =>
        .of_children trivial hcode
  | .construct callee arguments span =>
    (denotes_applied (denotes_expression depth callee) (denotes_expressions depth arguments)
      fun code => List.infix_append_of_infix_right (infix_inParenthesesIf _ List.infix_rfl)).imp
        fun code hcode => .of_children trivial hcode

theorem denotes_expressions (depth : Nat) : ∀ items, Yields (expressions env depth items)
    fun codes => EachEvery (Denoted codes) (items.map .expression)
  | [] => .pure .nil
  | item :: more => by
    refine (denotes_expression depth item).bind fun code hcode => ?_
    refine (denotes_expressions depth more).bind fun codes hcodes => .pure ?_
    exact .cons (hcode.onLine (.of_mem List.mem_cons_self))
      (hcodes.onLines fun other hother => (Layout.OnLine.of_mem hother).tail code)

theorem denotes_fields (depth : Nat) : ∀ entries, Yields (fields env depth entries)
    fun codes => (∀ field ∈ entries,
        Layout.OnLine (.ofText (Literal.key field.key ++ ": ")) codes) ∧
      EachEvery (Denoted codes) ((entries.map Field.value).map .expression)
  | [] => .pure ⟨by simp, .nil⟩
  | .mk key value :: more => by
    refine (denotes_expression depth value).bind fun code hcode => ?_
    refine (denotes_fields depth more).bind fun codes ⟨hkeys, hvalues⟩ => .pure ⟨?_, ?_⟩
    · exact List.forall_mem_cons.mpr ⟨⟨_, List.mem_cons_self, List.infix_append_left⟩,
        fun field hfield => (hkeys field hfield).tail _⟩
    · exact .cons (hcode.onLine ⟨_, List.mem_cons_self, List.infix_append_right⟩)
        (hvalues.onLines fun other hother => (Layout.OnLine.of_mem hother).tail _)

theorem denotes_block (depth : Nat) (head : Layout) (kind : ScopeKind)
    (params : List Identifier) : ∀ body, Yields (block env depth head kind params body)
    fun line => head <:+: line ∧ (Node.block body).Every (Denoted [line])
  | .mk body span => by
    have hbody : Yields (statements env (depth + 1) body) fun lines =>
        (Node.block (.mk body span)).Every (Denoted lines) :=
      (denotes_statements (depth + 1) body).imp fun _ hlines => .of_children trivial hlines
    refine (denotes_inScope kind params hbody).bind fun lines hlines => .pure ?_
    refine ⟨Layout.infix_braced_of_head List.infix_rfl depth lines, ?_⟩
    exact hlines.onLines (Layout.onLine_braced depth head)

theorem denotes_statements (depth : Nat) : ∀ body, Yields (statements env depth body)
    fun lines => EachEvery (Denoted lines) (body.map .statement)
  | [] => .pure .nil
  | first :: more => by
    refine (denotes_statement depth first).bind fun lines hlines => ?_
    refine (denotes_statements depth more).bind fun others hothers => .pure ?_
    exact .cons (hlines.onLines fun line hline => (Layout.OnLine.of_mem hline).append_left others)
      (hothers.onLines fun line hline => (Layout.OnLine.of_mem hline).append_right lines)

theorem denotes_statement (depth : Nat) : ∀ value, Yields (statement env depth value)
    fun lines => (Node.statement value).Every (Denoted lines)
  | .expression value span => by
    refine (denotes_expression depth value).bind fun code hcode => .pure ?_
    exact .of_children trivial (.single (hcode.within (infix_expressionLine List.infix_rfl)))
  | .block inner =>
    (denotes_block depth [] .block [] inner).bind fun line hline =>
      .pure (.of_children trivial (.single hline.2))
  | .condition test thenBranch none span =>
    (denotes_headed (denotes_expression depth test)
      fun head => denotes_block depth head .block [] thenBranch).imp fun lines hlines =>
        .of_children trivial (.cons hlines.1 (.single hlines.2))
  | .condition test thenBranch (some branch) span => by
    have hdeeper := denotes_statement (depth + 1) branch
    have htest := denotes_expression depth test
    have hthen := fun head => denotes_block depth head .block [] thenBranch
    cases branch with
    | block inner =>
      exact denotes_condition htest hthen ((denotes_block depth _ .block [] inner).imp
        fun line hline => .of_children trivial (.single hline.2))
    | _ =>
      exact denotes_condition htest hthen (hdeeper.imp fun lines hlines =>
        hlines.onLines (Layout.onLine_braced depth _))
  | .forLoop item iterable body span =>
    .after fun _ => (denotes_headed (denotes_expression depth iterable)
      fun head => denotes_block depth head .block [] body).imp fun lines hlines =>
        .of_children trivial (.cons hlines.1 (.single hlines.2))
  | .whileLoop test body span =>
    (denotes_headed (denotes_expression depth test)
      fun head => denotes_block depth head .block [] body).imp fun lines hlines =>
        .of_children trivial (.cons hlines.1 (.single hlines.2))
  | .returnValue none span | .breakLoop span | .continueLoop span =>
    .pure (.of_children trivial .nil)
  | .returnValue (some value) span => by
    refine (denotes_expression depth value).bind fun code hcode => .pure ?_
    exact .of_children trivial
      (.single (hcode.within (Layout.infix_between List.infix_rfl _ _)))
  | .functionDecl name params body span =>
    .after fun _ => (denotes_block depth _ .function params body).bind fun line hbody =>
      .pure (.of_children trivial (.withBody (fun _ => trivial) hbody.2))
  | .classDecl name parts span =>
    .after fun _ => (denotes_members (depth + 1) parts).bind fun lines hlines =>
      .map fun _ => .of_children trivial (hlines.onLines (Layout.onLine_braced depth _))
  | .hostDecl name kind span => .map fun _ => .of_children trivial .nil
  | .importDecl source names kind span =>
    .after fun specifier => .map fun _ => .of_children trivial .nil
  | .exportDecl declaration span => by
    have hinner := denotes_statement depth declaration
    cases hassign : declaration.isAssignment with
    | false => exact denotes_exportDecl hassign hinner
    | true =>
      cases declaration with
      | expression value =>
        cases value with
        | assign target op value => exact denotes_exportAssign (denotes_expression depth value)
        | _ => cases hassign
      | _ => cases hassign
  | .guarded inner test span => by
    refine (denotes_expression depth test).bind fun code hcode => ?_
    refine (denotes_inScope .block [] (denotes_statement (depth + 1) inner)).bind
      fun lines hlines => .pure ?_
    have hhead := Layout.infix_between (List.infix_refl code) (.ofText "if (") (.ofText ") ")
    exact .of_children trivial (.cons (hlines.onLines (Layout.onLine_braced depth _))
      (.single (hcode.within (Layout.infix_braced_of_head hhead depth lines))))

theorem denotes_members (depth : Nat) : ∀ parts, Yields (members env depth parts)
    fun lines => EachEvery (Denoted lines) (parts.map .member)
  | [] => .pure .nil
  | first :: more => by
    refine (denotes_member depth first).bind fun line hline => ?_
    refine (denotes_members depth more).bind fun lines hlines => .pure ?_
    exact .cons (hline.onLine (.of_mem List.mem_cons_self))
      (hlines.onLines fun other hother => (Layout.OnLine.of_mem hother).tail line)

theorem denotes_member (depth : Nat) : ∀ part, Yields (member env depth part)
    fun line => (Node.member part).Every (Denoted [line])
  | .field name value span => by
    refine (denotes_expression depth value).bind fun code hcode => .pure ?_
    exact .of_children trivial
      (.single (hcode.within (Layout.infix_between List.infix_rfl _ _)))
  | .method name params body span =>
    (denotes_block depth _ .function params body).imp fun code hbody =>
      .of_children trivial (.withBody (fun _ => trivial) hbody.2)

end

end Emitter

namespace Program

variable {program : Program} {env : Environment} {script : Script} {part : Layout}

theorem denoted_of_emit (hemit : (program.emit env).result = .ok script) :
    ∀ node, program.Holds node → node.Denoted script.lines := by
  intro node hnode
  obtain ⟨session, hrun, _⟩ := exists_run_of_emit hemit
  obtain ⟨inner, hinner, hlines⟩ := Emitter.run_program_eq_ok_iff.mp hrun
  have hbody := Emitter.denotes_statements env 0 program.body _ inner session hinner
  rw [hlines]
  refine (hnode.of_every hbody).mono fun line hline => ?_
  exact (Layout.OnLine.of_mem hline).append_right _

/-- What stands on a line of a script stands in its text. -/
theorem infix_text_of_onLine (hpart : part.OnLine script.lines) (width : Nat) :
    part.chars width <:+: (script.text width).toList := by
  have hbody := Layout.chars_infix (hpart.intercalate [.newline 0]) width
  rw [Script.text, Script.body, String.toList_append, Layout.toList_render]
  exact List.infix_append_of_infix_right hbody

/-- Every template and every key that is written for a string is read as one literal that stands for
    it. Every string that a program has as an expression is the text of a string token at its
    place, and stands in the script as a template; every key of an object is the text of a token,
    and stands in the script in double quotes. -/
theorem literals_denote_strings :
    (∀ value, Quotation.template.Denotes (Literal.template value) value) ∧
    (∀ value, Quotation.doubleQuoted.Denotes (Literal.key value) value) ∧
    ∀ {source : String} {tokens : List Token} {program : Program} {env : Environment}
      {script : Script}, tokenize source = .ok tokens → ofSource source = .ok program →
      (program.emit env).result = .ok script → ∀ width,
        (∀ value span, program.Holds (.expression (.string value span)) →
          ⟨.string, value, span⟩ ∈ tokens ∧
            (Literal.template value).toList <:+: (script.text width).toList) ∧
        ∀ fields span, program.Holds (.expression (.object fields span)) → ∀ field ∈ fields,
          (∃ token ∈ tokens, token.IsKey field.key) ∧
            (Literal.key field.key).toList <:+: (script.text width).toList := by
  refine ⟨Quotation.denotes_template, Quotation.denotes_key, ?_⟩
  intro source tokens program env script htokens hread hemit width
  have hquoted := quoted_of_ofSource htokens hread
  have hdenoted := denoted_of_emit hemit
  refine ⟨fun value span hnode => ⟨hquoted _ hnode, ?_⟩,
    fun fields span hnode field hfield => ⟨hquoted _ hnode field hfield, ?_⟩⟩
  · simpa using infix_text_of_onLine (hdenoted _ hnode) width
  · have hkey := infix_text_of_onLine (hdenoted _ hnode field hfield) width
    rw [Layout.chars_ofText, String.toList_append] at hkey
    exact List.infix_append_left.trans hkey

/-- A line break as a key, and the start of a substitution as its value. -/
theorem literals_denote_strings_substitution : ∃ tokens program script,
    tokenize "\x7b'\\n': '$\x7b'\x7d" = .ok tokens ∧
      ofSource "\x7b'\\n': '$\x7b'\x7d" = .ok program ∧
      (program.emit {}).result = .ok script ∧
      (∃ span, ⟨.string, "$\x7b", span⟩ ∈ tokens ∧
        (Literal.template "$\x7b").toList <:+: (script.text 4).toList) ∧
      (∃ token ∈ tokens, token.IsKey "\n") ∧
      (Literal.key "\n").toList <:+: (script.text 4).toList := by
  let string : Expression := .string "$\x7b" ⟨⟨7, 0, 7⟩, ⟨10, 0, 10⟩⟩
  let object : Expression := .object [.mk "\n" string] ⟨⟨0, 0, 0⟩, ⟨11, 0, 11⟩⟩
  let program : Program :=
    ⟨[.expression object ⟨⟨0, 0, 0⟩, ⟨11, 0, 11⟩⟩], ⟨⟨0, 0, 0⟩, ⟨11, 0, 11⟩⟩⟩
  have htokens : ∃ tokens, tokenize "\x7b'\\n': '$\x7b'\x7d" = .ok tokens := ⟨_, by cbv⟩
  have hread : ofSource "\x7b'\\n': '$\x7b'\x7d" = .ok program := by cbv
  have hemit : ∃ script, (program.emit {}).result = .ok script := ⟨_, rfl⟩
  have hobject : program.Holds (.expression object) :=
    .child (.body List.mem_cons_self) List.mem_cons_self
  have hstring : program.Holds (.expression string) := .child hobject List.mem_cons_self
  obtain ⟨tokens, htokens⟩ := htokens
  obtain ⟨script, hemit⟩ := hemit
  obtain ⟨hstrings, hkeys⟩ := literals_denote_strings.2.2 htokens hread hemit 4
  exact ⟨tokens, program, script, htokens, hread, hemit, ⟨_, hstrings _ _ hstring⟩,
    hkeys _ _ hobject _ List.mem_cons_self⟩

end Program

end KaLang
