import KaLang.Proofs.Scope.Binding
import KaLang.Proofs.Script.Bodies
import Mathlib.Data.List.Nodup

/-!
The declarations at the top of bodies. They are written when a scope is closed, and yet they are
those of the finished tree, because a closed scope is final; and a name that a scope declares
otherwise is never among them, because being declared lasts (`ScopeTree.Grows`).
-/

namespace KaLang

/-- The line that declares a hoisted name. -/
def Layout.letLine (name : String) : Layout := .ofText ("let " ++ name ++ ";")

/-- The name that a step declares in the current scope: a parameter, an import, a function, a class
    or an exported variable. -/
def Step.declared? : Step → Option String
  | .declare name _ _ => some name
  | .publish name _ => some name
  | _ => none

/-- Where a script has the body of a scope, at which depth and with which lines. The lines of the
    program's scope are all there are; those of any other one stand in braces behind a head, and
    are what the pass makes of the scope. -/
inductive Program.Body (program : Program) (env : Environment) (script : Script) :
    ScopeId → Nat → List Layout → Prop where
  | program : Body program env script 0 0 script.lines
  | opened {opening : Opening} {outside : ScopeTree} {head : Layout} {lines : List Layout}
      (hopening : (opening, outside) ∈ ScopeTree.start.openings (Walk.program program))
      (hlines : opening.Emits env outside lines)
      (hshown : Layout.braced opening.depth head lines <:+: Layout.lines 0 script.lines) :
      Body program env script outside.size (opening.depth + 1) lines

namespace Scope

variable {scope : Scope} {name : String}

theorem nodup_hoistedNames (hdistinct : (scope.symbols.map Symbol.name).Nodup) :
    scope.hoistedNames.Nodup :=
  hdistinct.sublist (List.filter_sublist.map Symbol.name)

/-- A name whose symbol is not hoisted needs no declaration. -/
theorem not_mem_hoistedNames (hdistinct : (scope.symbols.map Symbol.name).Nodup) {own : Symbol}
    (hown : scope.get? name = some own) (hdeclared : own.hoisted = false) :
    name ∉ scope.hoistedNames := by
  intro hmem
  obtain ⟨other, hother, hname⟩ := List.mem_map.mp hmem
  obtain ⟨hsymbol, hhoisted⟩ := List.mem_filter.mp hother
  have hsame : own = other := by
    refine List.inj_on_of_nodup_map hdistinct (List.mem_of_find?_eq_some hown) hsymbol ?_
    rw [hname]
    simpa using List.find?_some hown
  rw [← hsame, hdeclared] at hhoisted
  cases hhoisted

end Scope

/-- Whether the last piece of a line is a text, and not that of a declaration of a hoisted name. -/
def Layout.IsOther (line : Layout) : Prop :=
  ∃ ahead text, line = ahead ++ Layout.ofText text ∧ ∀ name, text ≠ "let " ++ name ++ ";"

namespace Layout

variable {line : Layout} {text : String}

theorem IsOther.append (hline : line.IsOther) (ahead : Layout) : (ahead ++ line).IsOther := by
  obtain ⟨before, text, rfl, htext⟩ := hline
  exact ⟨ahead ++ before, text, (List.append_assoc ahead before _).symm, htext⟩

theorem IsOther.ne_letLine (hline : line.IsOther) (name : String) : line ≠ letLine name := by
  obtain ⟨ahead, text, rfl, htext⟩ := hline
  intro heq
  have hlast := congrArg List.getLast? heq
  simp [ofText, letLine] at hlast
  exact htext name hlast

theorem IsOther.alone (hline : line.IsOther) : ∀ other ∈ [line], other.IsOther := by
  simpa using hline

theorem isOther_ofText (hstart : text.toList.head? ≠ some 'l') : (ofText text).IsOther := by
  refine ⟨[], text, rfl, fun name heq => hstart ?_⟩
  simp [heq]

theorem isOther_braced (depth : Nat) (head : Layout) (items : List Layout) :
    (braced depth head items).IsOther := by
  cases items with
  | nil => exact (isOther_ofText (by decide)).append head
  | cons first more => exact (isOther_ofText (by decide)).append _

end Layout

namespace Emitter

variable {env : Environment}

theorem isOther_block {depth : Nat} {head : Layout} {kind : ScopeKind} {params : List Identifier}
    (body : Block) : Yields (block env depth head kind params body) Layout.IsOther := by
  cases body with
  | mk body span => exact .map fun lines => Layout.isOther_braced depth head lines

theorem isOther_semicolon (code : Layout) : (code ++ Layout.ofText ";").IsOther :=
  (Layout.isOther_ofText (by decide)).append code

theorem isOther_exported (depth : Nat) (declaration : Statement) :
    Yields (exported env depth declaration) fun lines => ∀ line ∈ lines, line.IsOther := by
  cases hassign : declaration.isAssignment with
  | false =>
    rw [exported_eq_throw hassign]
    exact .fault _
  | true =>
    cases declaration with
    | expression value =>
      cases value with
      | assign target op value isLocal place =>
        cases hname : target.name? with
        | none =>
          simp only [exported, hname]
          exact .fault _
        | some name =>
          rw [exported_eq_perform hname]
          exact .after fun _ => .map fun code => .alone (isOther_semicolon _)
      | _ => cases hassign
    | _ => cases hassign

/-- No statement writes a line that could be taken for the declaration of a hoisted name. -/
theorem isOther_statement (depth : Nat) (value : Statement) :
    Yields (statement env depth value) fun lines => ∀ line ∈ lines, line.IsOther := by
  have hblock {line : Layout} (hline : line.IsOther) :
      Yields (Pure.pure [line] : Emitter (List Layout)) fun lines => ∀ line ∈ lines, line.IsOther :=
    .pure (.alone hline)
  cases value with
  | expression value => exact .map fun code => .alone (isOther_semicolon _)
  | block inner => exact (isOther_block inner).bind fun _ => hblock
  | condition test thenBranch elseBranch =>
    cases elseBranch with
    | none => exact .after fun code => (isOther_block thenBranch).bind fun _ => hblock
    | some branch =>
      cases branch with
      | block inner =>
        exact .after fun code => .after fun first =>
          (isOther_block inner).bind fun line hline => hblock (hline.append _)
      | _ =>
        exact .after fun code => .after fun first => .map fun lines =>
          .alone ((Layout.isOther_braced depth _ lines).append _)
  | forLoop item iterable body =>
    exact .after fun _ => .after fun code => (isOther_block body).bind fun _ => hblock
  | whileLoop test body => exact .after fun code => (isOther_block body).bind fun _ => hblock
  | returnValue value =>
    cases value with
    | none => exact hblock (Layout.isOther_ofText (by decide))
    | some value => exact .map fun code => .alone (isOther_semicolon _)
  | breakLoop => exact hblock (Layout.isOther_ofText (by decide))
  | continueLoop => exact hblock (Layout.isOther_ofText (by decide))
  | functionDecl name params body => exact .after fun _ => (isOther_block body).bind fun _ => hblock
  | classDecl name parts =>
    exact .after fun _ => .after fun lines => .map fun _ =>
      .alone (Layout.isOther_braced depth _ lines)
  | hostDecl name kind => exact .map fun _ _ hline => absurd hline List.not_mem_nil
  | importDecl source names kind =>
    exact .after fun specifier => .map fun _ => .alone (Layout.isOther_ofText (by simp))
  | exportDecl declaration =>
    have hinner := isOther_statement depth declaration
    simp only [statement]
    split
    · refine hinner.bind fun lines hlines => .pure fun line hline => ?_
      obtain ⟨inner, hmem, rfl⟩ := List.mem_map.mp hline
      exact (hlines inner hmem).append _
    · exact isOther_exported depth declaration
  | guarded inner test =>
    exact .after fun code => .map fun lines => .alone (Layout.isOther_braced depth _ lines)

theorem isOther_statements (depth : Nat) (body : List Statement) :
    Yields (statements env depth body) fun lines => ∀ line ∈ lines, line.IsOther := by
  induction body with
  | nil => exact .pure fun _ hline => absurd hline List.not_mem_nil
  | cons first more ih =>
    refine (isOther_statement depth first).bind fun lines hlines => ?_
    refine ih.bind fun rest hrest => .pure fun line hline => ?_
    exact (List.mem_append.mp hline).elim (hlines line) (hrest line)

theorem declarations_of_scope? {tree : ScopeTree} {id : ScopeId} {scope : Scope}
    (hscope : tree.scope? id = some scope) :
    declarations tree id = scope.hoistedNames.map Layout.letLine := by
  rw [declarations, hscope]
  rfl

theorem run_program_eq_ok_iff {program : Program} {before after : Session} {lines : List Layout} :
    (Emitter.program env program).run before = .ok lines after ↔
      ∃ inner, (statements env 0 program.body).run before = .ok inner after ∧
        lines = declarations after.tree 0 ++ inner := by
  constructor
  · intro hrun
    obtain ⟨inner, middle, hinner, hrun⟩ := run_bind_eq_ok_iff.mp hrun
    cases hrun
    exact ⟨inner, hinner, rfl⟩
  · rintro ⟨inner, hinner, rfl⟩
    exact run_bind_eq_ok_iff.mpr ⟨inner, after, hinner, rfl⟩

end Emitter

/-- The body of a scope begins with the declarations of the scope as it is when it is closed, and
    declares nothing further down. -/
theorem Opening.Emits.eq_declarations {opening : Opening} {env : Environment}
    {outside : ScopeTree} {lines : List Layout} (hlines : opening.Emits env outside lines) :
    ∃ statements,
      lines = Emitter.declarations (opening.closing outside) outside.size ++ statements ∧
        ∀ line ∈ statements, line.IsOther := by
  obtain ⟨probes, after, hrun⟩ := hlines
  obtain ⟨statements, middle, hstatements, hlines, _⟩ := Emitter.run_inScope_eq_ok_iff.mp hrun
  have htree := (Emitter.performs_statements env (opening.depth + 1) opening.body).tree_of_run
    hstatements
  have hclosing : middle.tree = opening.closing outside := by
    rw [htree, closing, inside, ScopeTree.run_append, ScopeTree.run_names]
  exact ⟨statements, by rw [hlines, hclosing],
    Emitter.isOther_statements _ _ _ statements middle hstatements⟩

namespace Program

variable {program : Program} {env : Environment} {script : Script}

theorem wellFormed_emit (hemit : (program.emit env).result = .ok script) :
    (program.emit env).tree.WellFormed := by
  rw [tree_emit hemit]
  exact ScopeTree.wellFormed_run ScopeTree.wellFormed_start _

/-- Every scope has a body in the script, but for a class's. -/
theorem exists_body (hemit : (program.emit env).result = .ok script) {scope : Scope}
    (hscope : (program.emit env).tree.scope? scope.id = some scope)
    (hkind : scope.kind ≠ .classBody) :
    ∃ depth lines, program.Body env script scope.id depth lines := by
  have hwell := wellFormed_emit hemit
  have hlt := hwell.lt_of_scope? hscope
  rw [tree_emit hemit] at hscope hlt
  cases hid : scope.id with
  | zero => exact ⟨0, script.lines, .program⟩
  | succ older =>
    rw [hid] at hlt hscope
    obtain ⟨opening, outside, hmem, hsize⟩ :=
      ScopeTree.exists_mem_openings (Nat.succ_le_succ (Nat.zero_le older)) hlt
    obtain ⟨same, hsame, hopening⟩ :=
      ScopeTree.exists_scope?_of_mem_openings ScopeTree.wellFormed_start hmem
    rw [hsize, hscope] at hsame
    cases hsame
    obtain ⟨session, hrun, _⟩ := exists_run_of_emit hemit
    obtain ⟨inner, hinner, hlines⟩ := Emitter.run_program_eq_ok_iff.mp hrun
    obtain ⟨head, lines, hemits, hshown⟩ := Emitter.writes_statements env 0 program.body _ inner
      session hinner opening outside hmem (hopening ▸ hkind)
    have hscript := (hshown.append_right (Emitter.declarations session.tree 0)).intercalate
      [.newline 0]
    rw [← hlines] at hscript
    exact ⟨opening.depth + 1, lines, hsize ▸ .opened hmem hemits hscript⟩

/-- Every body of a scope begins with the declarations of the scope as it is in the end. -/
theorem eq_letLines_of_body (hemit : (program.emit env).result = .ok script) {scope : Scope}
    (hscope : (program.emit env).tree.scope? scope.id = some scope)
    (hkind : scope.kind ≠ .classBody) {depth : Nat} {lines : List Layout}
    (hbody : program.Body env script scope.id depth lines) :
    ∃ statements, lines = scope.hoistedNames.map Layout.letLine ++ statements ∧
      ∀ name, Layout.letLine name ∉ statements := by
  have hother {statements : List Layout} (hstatements : ∀ line ∈ statements, line.IsOther)
      (name : String) : Layout.letLine name ∉ statements :=
    fun hmem => (hstatements _ hmem).ne_letLine name rfl
  generalize hid : scope.id = id at hscope hbody
  cases hbody with
  | program =>
    obtain ⟨session, hrun, htree⟩ := exists_run_of_emit hemit
    obtain ⟨inner, hinner, hlines⟩ := Emitter.run_program_eq_ok_iff.mp hrun
    rw [← htree] at hscope
    exact ⟨inner, by rw [hlines, Emitter.declarations_of_scope? hscope],
      hother (Emitter.isOther_statements 0 program.body _ inner session hinner)⟩
  | @opened opening outside head lines hopening hlines hshown =>
    rw [tree_emit hemit] at hscope
    obtain ⟨same, hsame, hopened⟩ :=
      ScopeTree.exists_scope?_of_mem_openings ScopeTree.wellFormed_start hopening
    rw [hscope] at hsame
    cases hsame
    have hfinal := ScopeTree.scope?_run_of_mem_openings (Walk.nested_program program)
      ScopeTree.wellFormed_start hopening (hopened ▸ hkind)
    rw [hscope] at hfinal
    obtain ⟨statements, hlines, hstatements⟩ := hlines.eq_declarations
    exact ⟨statements, by rw [hlines, Emitter.declarations_of_scope? hfinal.symm],
      hother hstatements⟩

/-- An export that does not end the pass is of a name that nothing stood for. -/
theorem lookup_eq_none_of_publish (hemit : (program.emit env).result = .ok script) {taken : Nat}
    {name : String} {span : Span}
    (hstep : (Walk.program program)[taken]? = some (.publish name span)) :
    (program.treeAfter taken).lookup name = none := by
  obtain ⟨session, hrun, _⟩ := exists_run_of_emit hemit
  obtain ⟨hlt, hget⟩ := List.getElem?_eq_some_iff.mp hstep
  have hsplit := List.take_append_drop taken (Walk.program program)
  rw [List.drop_eq_getElem_cons hlt, hget] at hsplit
  obtain ⟨middle, later, hperform, htree⟩ :=
    (Emitter.performs_program env program).exists_run_perform hrun hsplit.symm
  obtain ⟨tree, asked, hasked, hpublish⟩ := Emitter.run_bind_eq_ok_iff.mp hperform
  cases hasked
  cases hlookup : (program.treeAfter taken).lookup name with
  | none => rfl
  | some symbol =>
    rw [treeAfter, ← htree] at hlookup
    simp only [hlookup, Option.isSome_some, ↓reduceIte] at hpublish
    cases hpublish

/-- What a step declares is in the current scope behind it, and needs no declaration at the top. -/
theorem exists_own?_of_declared? (hemit : (program.emit env).result = .ok script) {taken : Nat}
    {step : Step} {name : String} (hstep : (Walk.program program)[taken]? = some step)
    (hname : step.declared? = some name) :
    ∃ own, ((program.treeAfter taken).step step).own? (program.treeAfter taken).current name =
      some own ∧ own.hoisted = false := by
  have hwell := program.wellFormed_treeAfter taken
  obtain ⟨scope, hscope⟩ := hwell.exists_scope? hwell.current_lt
  have hcurrent : ((program.treeAfter taken).scope? (program.treeAfter taken).current).isSome := by
    simp [hscope]
  have hdeclare (kind : SymbolKind) (place : Position) :
      ((program.treeAfter taken).declare name kind place).own? (program.treeAfter taken).current
        name = some ⟨name, kind, place, false⟩ := by
    rw [ScopeTree.declare, ScopeTree.own?_bindIn hcurrent, if_pos ⟨rfl, rfl⟩]
  cases step with
  | declare other kind place =>
    cases hname
    exact ⟨_, hdeclare kind place, rfl⟩
  | publish other span =>
    cases hname
    have hfree := lookup_eq_none_of_publish hemit hstep
    refine ⟨⟨name, .variable, span.first, false⟩, ?_, rfl⟩
    rw [ScopeTree.step, hfree]
    exact hdeclare .variable span.first
  | _ => cases hname

theorem not_mem_hoistedNames_of_declared? (hemit : (program.emit env).result = .ok script)
    {taken : Nat} {step : Step} {name : String}
    (hstep : (Walk.program program)[taken]? = some step) (hname : step.declared? = some name)
    {scope : Scope} (hscope : (program.emit env).tree.scope? scope.id = some scope)
    (hcurrent : (program.treeAfter taken).current = scope.id) : name ∉ scope.hoistedNames := by
  have hwell := wellFormed_emit hemit
  obtain ⟨own, hown, hdeclared⟩ := exists_own?_of_declared? hemit hstep hname
  have hbehind := ScopeTree.grows_run
    (ScopeTree.wellFormed_step (program.wellFormed_treeAfter taken) step)
    ((Walk.program program).drop (taken + 1))
  rw [run_treeAfter_step hstep, ← tree_emit hemit] at hbehind
  obtain ⟨last, hlast, hfree⟩ := hbehind.declared _ name own hown hdeclared
  rw [hcurrent, ScopeTree.own?_of_scope? hscope] at hlast
  exact scope.not_mem_hoistedNames (hwell.arena.distinct (ScopeTree.mem_of_scope? hscope)) hlast
    hfree

/-- In the script of a pass that ends well, every scope of the finished tree but a class's has a
    body, and its body begins with one line for every name hoisted in it, in the order of its
    symbols, and has no such line further down. No name is hoisted twice, and none that something in
    the scope declares, wherever in the scope the declaration stands. -/
theorem body_begins_with_declarations (hemit : (program.emit env).result = .ok script)
    {scope : Scope} (hscope : scope ∈ (program.emit env).tree.scopes)
    (hkind : scope.kind ≠ .classBody) :
    (∃ depth lines, program.Body env script scope.id depth lines) ∧
    (∀ depth lines, program.Body env script scope.id depth lines →
      ∃ statements, lines = scope.hoistedNames.map Layout.letLine ++ statements ∧
        ∀ name, Layout.letLine name ∉ statements) ∧
    scope.hoistedNames.Nodup ∧
    ∀ taken step name, (Walk.program program)[taken]? = some step →
      step.declared? = some name → (program.treeAfter taken).current = scope.id →
      name ∉ scope.hoistedNames := by
  have hwell := wellFormed_emit hemit
  have hmem := List.mem_reverse.mp hscope
  have hfound := hwell.scope?_id hmem
  refine ⟨exists_body hemit hfound hkind, ?_, ?_, ?_⟩
  · exact fun depth lines hbody => eq_letLines_of_body hemit hfound hkind hbody
  · exact Scope.nodup_hoistedNames (hwell.arena.distinct hmem)
  · intro taken step name hstep hname hcurrent
    exact not_mem_hoistedNames_of_declared? hemit hstep hname hfound hcurrent

theorem body_capturing :
    (capturing.emit {}).result = .ok .capturing ∧
      (∃ depth lines, capturing.Body {} .capturing 1 depth lines) ∧
      ∀ depth lines, capturing.Body {} .capturing 1 depth lines →
        ∃ statements, lines = [Layout.letLine "x"] ++ statements ∧
          ∀ name, Layout.letLine name ∉ statements := by
  have hblock : (⟨1, some 0, .block, [⟨"x", .variable, ⟨26, 3, 2⟩, true⟩]⟩ : Scope) ∈
      (capturing.emit {}).tree.scopes := by decide
  have hbody := body_begins_with_declarations emit_capturing hblock (by decide)
  exact ⟨emit_capturing, hbody.1, hbody.2.1⟩

end Program

end KaLang
