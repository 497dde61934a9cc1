import KaLang.Proofs.Scope.Nesting

/-!
The scopes that a walk opens. A scope is told by the tree in which it is opened, whose size is the
number that the scope gets. When the scope is closed its symbols are final
(`scope?_run_of_mem_openings`): no step behind it reaches a scope newer than the current one.
-/

namespace KaLang

/-- The tree at the end of the body of a scope that is no class's. -/
def Opening.closing (opening : Opening) (tree : ScopeTree) : ScopeTree :=
  (tree.enter opening.kind).run opening.inside

namespace ScopeTree

/-- What steps open, in order, each with the tree in which it is opened. -/
def openings (tree : ScopeTree) : List Step → List (Opening × ScopeTree)
  | [] => []
  | .enter opening :: more => (opening, tree) :: (tree.enter opening.kind).openings more
  | step :: more => (tree.step step).openings more

variable {tree outside : ScopeTree} {steps : List Step} {id : ScopeId} {opening : Opening}

theorem openings_cons_of_isFlat {step : Step} (hflat : step.isFlat = true) (tree : ScopeTree)
    (steps : List Step) : tree.openings (step :: steps) = (tree.step step).openings steps := by
  cases step with
  | enter opening => cases hflat
  | _ => rfl

theorem openings_append (tree : ScopeTree) (steps more : List Step) :
    tree.openings (steps ++ more) = tree.openings steps ++ (tree.run steps).openings more := by
  induction steps generalizing tree with
  | nil => rfl
  | cons step steps ih =>
    cases step with
    | enter opening => exact congrArg ((opening, tree) :: ·) (ih (tree.enter opening.kind))
    | _ => exact ih _

theorem openings_of_flat (hflat : ∀ step ∈ steps, step.isFlat = true) (tree : ScopeTree) :
    tree.openings steps = [] := by
  induction steps generalizing tree with
  | nil => rfl
  | cons step steps ih =>
    rw [openings_cons_of_isFlat (hflat step List.mem_cons_self)]
    exact ih (fun other hother => hflat other (List.mem_cons_of_mem _ hother)) _

/-- A scope that is opened is opened by a step, in the tree that the steps ahead of it leave. -/
theorem exists_eq_append_of_mem_openings (hmem : (opening, outside) ∈ tree.openings steps) :
    ∃ ahead behind, steps = ahead ++ .enter opening :: behind ∧ outside = tree.run ahead := by
  induction steps generalizing tree with
  | nil => cases hmem
  | cons step steps ih =>
    by_cases hfirst : step = .enter opening ∧ outside = tree
    · exact ⟨[], steps, by rw [hfirst.1]; rfl, hfirst.2⟩
    · have hrest : (opening, outside) ∈ (tree.step step).openings steps := by
        cases step with
        | enter other =>
          rcases List.mem_cons.mp hmem with heq | hrest
          · cases heq
            exact absurd ⟨rfl, rfl⟩ hfirst
          · exact hrest
        | _ => exact hmem
      obtain ⟨ahead, behind, hsteps, houtside⟩ := ih hrest
      exact ⟨step :: ahead, behind, by rw [hsteps]; rfl, houtside⟩

theorem size_step_of_isFlat {step : Step} (hflat : step.isFlat = true) (tree : ScopeTree) :
    (tree.step step).size = tree.size := by
  cases step with
  | enter opening => cases hflat
  | exit => cases hflat
  | declare name kind place => exact size_bindIn tree _ _
  | assign name place isLocal =>
    simp only [step, assign]
    split
    · split <;> simp
    · split <;> simp
  | publish name span =>
    simp only [step, declare]
    split <;> simp
  | _ => rfl

/-- Every scope that is new after some steps has been opened by one of them. -/
theorem exists_mem_openings (hold : tree.size ≤ id) (hnew : id < (tree.run steps).size) :
    ∃ opening outside, (opening, outside) ∈ tree.openings steps ∧ outside.size = id := by
  induction steps generalizing tree with
  | nil => exact absurd hnew (Nat.not_lt_of_le hold)
  | cons step steps ih =>
    have hsame (hsize : (tree.step step).size = tree.size)
        (hopenings : tree.openings (step :: steps) = (tree.step step).openings steps) :
        ∃ opening outside, (opening, outside) ∈ tree.openings (step :: steps) ∧
          outside.size = id := by
      rw [hopenings]
      exact ih (by rwa [hsize]) hnew
    cases step with
    | enter opening =>
      by_cases hid : tree.size = id
      · exact ⟨opening, tree, List.mem_cons_self, hid⟩
      · have hlater : (tree.enter opening.kind).size ≤ id := Nat.lt_of_le_of_ne hold hid
        obtain ⟨inner, outside, hmem, hsize⟩ := ih hlater hnew
        exact ⟨inner, outside, List.mem_cons_of_mem _ hmem, hsize⟩
    | exit => exact hsame (size_exit tree) rfl
    | _ => exact hsame (size_step_of_isFlat rfl tree) (openings_cons_of_isFlat rfl tree steps)

/-- What is opened on the way has a number between the sizes before and after it. -/
theorem size_of_mem_openings (hwell : tree.WellFormed)
    (hmem : (opening, outside) ∈ tree.openings steps) :
    tree.size ≤ outside.size ∧ outside.size < (tree.run steps).size := by
  obtain ⟨ahead, behind, rfl, rfl⟩ := exists_eq_append_of_mem_openings hmem
  have hahead := wellFormed_run hwell ahead
  have hbehind := grows_run (wellFormed_step hahead (.enter opening)) behind
  rw [run_append, run_cons]
  exact ⟨(grows_run hwell ahead).size_le, hbehind.size_le⟩

/-- A scope has the kind with which it was opened. -/
theorem exists_scope?_of_mem_openings (hwell : tree.WellFormed)
    (hmem : (opening, outside) ∈ tree.openings steps) :
    ∃ scope, (tree.run steps).scope? outside.size = some scope ∧ scope.kind = opening.kind := by
  obtain ⟨ahead, behind, rfl, rfl⟩ := exists_eq_append_of_mem_openings hmem
  have hopen := wellFormed_step (wellFormed_run hwell ahead) (.enter opening)
  obtain ⟨scope, hscope, _, hkind⟩ := (grows_run hopen behind).scope _ _
    (by rw [step, scope?_enter, if_pos rfl])
  rw [run_append, run_cons]
  exact ⟨scope, hscope, hkind⟩

/-- Well-nested steps have closed what they opened, and nothing that is done later reaches it. -/
theorem scope?_run_of_closed {allowed : ScopeKind → Step → Prop} {kind : ScopeKind}
    (hnested : Nested allowed kind steps) (hwell : tree.WellFormed) (hold : tree.size ≤ id)
    (hnew : id < (tree.run steps).size) (more : List Step) :
    ((tree.run steps).run more).scope? id = (tree.run steps).scope? id :=
  scope?_run_of_not_mem_path (wellFormed_run hwell steps) hnew
    (not_mem_path_run hnested hwell hold) more

/-- At the end a scope is what it was at the end of its own body. -/
theorem scope?_run_of_mem_openings {allowed : ScopeKind → Step → Prop} {kind : ScopeKind}
    (hnested : Nested allowed kind steps) (hwell : tree.WellFormed)
    (hmem : (opening, outside) ∈ tree.openings steps) (hkind : opening.kind ≠ .classBody) :
    (tree.run steps).scope? outside.size = (opening.closing outside).scope? outside.size := by
  induction hnested generalizing tree with
  | nil => cases hmem
  | @flat kind step more hflat _ _ ih =>
    rw [openings_cons_of_isFlat hflat] at hmem
    exact ih (wellFormed_step hwell step) hmem
  | @scope kind inner body more hinside hbody hmore ihbody ihmore =>
    have hopen := wellFormed_step hwell (.enter inner)
    have hclosed := wellFormed_run hopen body
    rw [run_cons, run_append, run_cons]
    simp only [openings, openings_append, List.mem_cons, List.mem_append] at hmem
    rcases hmem with heq | hmem | hmem
    · -- The scope itself: its closing ends a well-nested list of steps.
      cases heq
      have hlast : outside.run (.enter opening :: body ++ [.exit]) =
          ((outside.step (.enter opening)).run body).step .exit := by
        rw [List.cons_append, run_cons, run_append]
        rfl
      have hnew : outside.size < (outside.run (.enter opening :: body ++ [.exit])).size := by
        rw [hlast]
        exact Nat.lt_of_lt_of_eq (grows_run hopen body).size_le (size_exit _).symm
      have henclosed : Nested allowed kind _ := .enclosed hinside hbody
      have hstays := scope?_run_of_closed henclosed hwell (Nat.le_refl _) hnew more
      rw [hlast] at hstays
      rw [hstays, Opening.closing, ← hinside hkind]
      exact scope?_exit _ _
    · -- A scope inside: the end of the body closes it, and the rest comes later.
      have hsizes := size_of_mem_openings hopen hmem
      have hstays := scope?_run_of_closed hbody hopen hsizes.1 hsizes.2 (.exit :: more)
      rw [run_cons] at hstays
      rw [hstays]
      exact ihbody hopen hmem
    · exact ihmore (wellFormed_step hclosed .exit) hmem

end ScopeTree

end KaLang
