import KaLang.Proofs.Scope.Assigned
import KaLang.Proofs.Scope.Classes
import KaLang.Proofs.Script.Declarations

/-!
No implicit globals. A name that is assigned to is the host's, or some scope on the way outwards has
it from then on, and every scope that has a hoisted name is one whose body declares it.
-/

namespace KaLang

namespace ScopeTree

variable {tree : ScopeTree} {id : ScopeId} {name : String}

theorem own?_bindIn_self (hid : (tree.scope? id).isSome) (symbol : Symbol) :
    ((tree.bindIn id symbol).own? id symbol.name).isSome := by
  rw [own?_bindIn hid, if_pos ⟨rfl, rfl⟩]
  rfl

/-- Behind an assignment some scope on the way outwards has the name, if it is not the host's. -/
theorem exists_own?_step_of_assigned? (hwell : tree.WellFormed) {step : Step}
    (hname : step.assigned? = some name) :
    (tree.hostKind? name).isSome ∨
      ∃ outer ∈ tree.path tree.current, ((tree.step step).own? outer name).isSome := by
  obtain ⟨scope, hscope⟩ := hwell.exists_scope? hwell.current_lt
  have hcurrent : (tree.scope? tree.current).isSome := by simp [hscope]
  have hself := hwell.mem_path_self hwell.current_lt
  cases step with
  | assign other place isLocal =>
    cases hname
    cases isLocal with
    | true =>
      right
      refine ⟨tree.current, hself, ?_⟩
      simp only [step, assign, ↓reduceIte]
      split
      · next ownName kind definedAt hown =>
        rw [own?, hown]
        rfl
      · exact own?_bindIn_self hcurrent _
    | false =>
      simp only [step, assign, Bool.false_eq_true, ↓reduceIte]
      by_cases hhost : (tree.hostKind? name).isSome
      · exact Or.inl hhost
      · right
        by_cases hlookup : (tree.lookup name).isSome
        · rw [if_pos (by simp [hlookup])]
          exact (hwell.lookupFrom_isSome_iff hwell.current_lt name).mp hlookup
        · obtain ⟨hpath, function, hfunction, _⟩ := hwell.functionScope_spec
          rw [if_neg (by simp [hhost, hlookup])]
          exact ⟨tree.functionScope, hpath, own?_bindIn_self (by simp [hfunction]) _⟩
  | publish other span =>
    cases hname
    right
    simp only [step]
    split
    · next hlookup => exact (hwell.lookupFrom_isSome_iff hwell.current_lt name).mp hlookup
    · exact ⟨tree.current, hself, own?_bindIn_self hcurrent _⟩
  | _ => cases hname

end ScopeTree

namespace Program

variable {program : Program} {env : Environment} {script : Script}

theorem lookupFrom_of_assigned? {taken : Nat} {step : Step} {name : String}
    (hstep : (Walk.program program)[taken]? = some step) (hname : step.assigned? = some name) :
    ((program.treeAfter taken).hostKind? name).isSome ∨
      ((ScopeTree.start.run (Walk.program program)).lookupFrom
        (program.treeAfter taken).current name).isSome := by
  have hwell := program.wellFormed_treeAfter taken
  rcases ScopeTree.exists_own?_step_of_assigned? hwell hname with hhost | ⟨outer, houter, hown⟩
  · exact Or.inl hhost
  · right
    have hfirst := (ScopeTree.change_step _ step).grows hwell
    have hlater := ScopeTree.grows_run (ScopeTree.wellFormed_step hwell step)
      ((Walk.program program).drop (taken + 1))
    have hgrows := hfirst.trans hlater
    rw [run_treeAfter_step hstep] at hlater hgrows
    have hfinal := ScopeTree.wellFormed_run ScopeTree.wellFormed_start (Walk.program program)
    have hvalid := Nat.lt_of_lt_of_le hwell.current_lt hgrows.size_le
    refine (hfinal.lookupFrom_isSome_iff hvalid name).mpr ⟨outer, ?_, hlater.held outer name hown⟩
    rwa [hgrows.path_eq _ hwell.current_lt]

/-- No implicit globals: in a script that is written for a source text, the walk meets every
    assignment, and each name that is assigned to is provided by the host when it is met, or is
    found in the finished tree from where it is met. Every scope with a hoisted symbol has a body,
    which has the line that declares the symbol, and a class's scope has no symbol at all. -/
theorem no_implicit_globals {source : String} (hread : ofSource source = .ok program)
    (hemit : (program.emit env).result = .ok script) :
    Walk.assigned (Walk.program program) = program.assignedNames ∧
    (∀ taken step name, (Walk.program program)[taken]? = some step →
      step.assigned? = some name → ((program.treeAfter taken).hostKind? name).isSome ∨
        ((program.emit env).tree.lookupFrom (program.treeAfter taken).current name).isSome) ∧
    (∀ scope ∈ (program.emit env).tree.scopes, ∀ symbol ∈ scope.symbols, symbol.hoisted = true →
      (∃ depth lines, program.Body env script scope.id depth lines) ∧
      ∀ depth lines, program.Body env script scope.id depth lines →
        Layout.letLine symbol.name ∈ lines) ∧
    ∀ scope ∈ (program.emit env).tree.scopes, scope.kind = .classBody → scope.symbols = [] := by
  have hwell := wellFormed_emit hemit
  have hclasses : ∀ scope ∈ (program.emit env).tree.scopes, scope.kind = .classBody →
      scope.symbols = [] := by
    intro scope hscope hkind
    have hfound := hwell.scope?_id (List.mem_reverse.mp hscope)
    rw [tree_emit hemit] at hfound
    exact classesEmpty_ofSource hread scope.id scope hfound hkind
  refine ⟨Walk.assigned_program program, ?_, ?_, hclasses⟩
  · intro taken step name hstep hname
    rw [tree_emit hemit]
    exact lookupFrom_of_assigned? hstep hname
  · intro scope hscope symbol hsymbol hhoisted
    have hfound := hwell.scope?_id (List.mem_reverse.mp hscope)
    have hkind : scope.kind ≠ .classBody := by
      intro hclass
      rw [hclasses scope hscope hclass] at hsymbol
      cases hsymbol
    refine ⟨exists_body hemit hfound hkind, fun depth lines hbody => ?_⟩
    obtain ⟨statements, hlines, _⟩ := eq_letLines_of_body hemit hfound hkind hbody
    have hname : symbol.name ∈ scope.hoistedNames :=
      List.mem_map_of_mem (List.mem_filter.mpr ⟨hsymbol, hhoisted⟩)
    rw [hlines]
    exact List.mem_append_left _ (List.mem_map_of_mem hname)

theorem no_implicit_globals_capturing :
    ofSource "x = 1\nif c then\n  x = 2\n  local x = 3\nend" = .ok .capturing ∧
      (capturing.emit {}).result = .ok .capturing ∧
      (Walk.program .capturing)[12]? = some (.assign "x" ⟨18, 2, 2⟩ false) ∧
      (((capturing.treeAfter 12).hostKind? "x").isSome ∨
        ((capturing.emit {}).tree.lookupFrom (capturing.treeAfter 12).current "x").isSome) :=
  ⟨ofSource_capturing, emit_capturing, rfl,
    (no_implicit_globals ofSource_capturing emit_capturing).2.1 12 _ "x" rfl rfl⟩

end Program

end KaLang
