import KaLang.Proofs.Script.Levels

/-!
Visits are balanced. Whatever node is visited, and wherever the visit begins, it takes well-nested
steps; so the scope that was open is open again when it ends, and nothing has been done to a scope
that was closed before (`ScopeTree.balanced_run`). A visit for the scope index always ends, and
records nodes in the scope where it began or in scopes of its own (`ScopeIndex.balanced_run`); one
of the pass, if it ends well, ends on the level where it began (`Visitor.balances_of_follows`).
-/

namespace KaLang

/-! ### Scopes -/

/-- Whether a later tree has the same scopes open as an earlier one: the same scope is the current
    one, those off the way outwards are as they were, and each that has been opened is closed. -/
structure ScopeTree.Balanced (before after : ScopeTree) : Prop where
  current : after.current = before.current
  kept : ∀ id < before.size, id ∉ before.path before.current → after.scope? id = before.scope? id
  closed : ∀ id, before.size ≤ id → id ∉ after.path after.current

/-- Well-nested steps are balanced. -/
theorem ScopeTree.balanced_run {tree : ScopeTree} {steps : List Step}
    {allowed : ScopeKind → Step → Prop} {kind : ScopeKind} (hnested : Nested allowed kind steps)
    (hwell : tree.WellFormed) : tree.Balanced (tree.run steps) where
  current := current_run hnested hwell
  kept _ hid hoff := scope?_run_of_not_mem_path hwell hid hoff steps
  closed _ hold := not_mem_path_run hnested hwell hold

/-! ### The scope index -/

namespace ScopeIndex

/-- Whether the nodes that have been recorded between two indexes, the latest first, are in the
    scope that was open in the earlier one, or in scopes that have been opened since. -/
def Records (before after : ScopeIndex) : Prop :=
  ∃ entries, after.history = entries ++ before.history ∧ ∀ entry ∈ entries,
    entry.2 = before.tree.current ∨ before.tree.size ≤ entry.2 ∧ entry.2 < after.tree.size

/-- Whether a later index has the same scopes open as an earlier one, and nodes recorded since in
    the scope that is open or in scopes that have been opened since. -/
structure Balanced (before after : ScopeIndex) : Prop where
  tree : before.tree.Balanced after.tree
  history : before.Records after

variable {index before middle after : ScopeIndex} {steps : List Step}
  {allowed : ScopeKind → Step → Prop} {kind : ScopeKind}

theorem records_step (index : ScopeIndex) (step : Step) : index.Records (index.step step) := by
  cases step with
  | visit span => exact ⟨[(span, index.tree.current)], rfl, by simp⟩
  | _ => exact ⟨[], rfl, nofun⟩

/-- What is recorded after that, from the same scope on, is recorded in one of these scopes, too. -/
theorem Records.trans (hfirst : before.Records middle) (hsecond : middle.Records after)
    (hcurrent : middle.tree.current = before.tree.current)
    (hbefore : before.tree.size ≤ middle.tree.size) (hafter : middle.tree.size ≤ after.tree.size) :
    before.Records after := by
  obtain ⟨entries, hhistory, hentries⟩ := hfirst
  obtain ⟨later, hlater, hlaters⟩ := hsecond
  rw [hcurrent] at hlaters
  refine ⟨later ++ entries, by rw [hlater, hhistory, List.append_assoc], ?_⟩
  refine List.forall_mem_append.mpr ⟨fun entry hentry => ?_, fun entry hentry => ?_⟩
  · exact (hlaters entry hentry).imp_right fun hnew => ⟨Nat.le_trans hbefore hnew.1, hnew.2⟩
  · exact (hentries entry hentry).imp_right fun hnew =>
      ⟨hnew.1, Nat.lt_of_lt_of_le hnew.2 hafter⟩

/-- What is recorded inside a scope that has been opened is recorded in a new scope. -/
theorem Records.enclosed {opening : Opening} (hinside : (index.step (.enter opening)).Records after)
    (hsize : index.tree.size < after.tree.size) : index.Records (after.step .exit) := by
  obtain ⟨entries, hhistory, hentries⟩ := hinside
  have hclosed : (after.step .exit).tree.size = after.tree.size := ScopeTree.size_exit after.tree
  refine ⟨entries, hhistory, fun entry hentry => .inr ?_⟩
  rw [hclosed]
  rcases hentries entry hentry with hown | ⟨hold, hnew⟩
  · rw [hown]
    exact ⟨Nat.le_refl index.tree.size, hsize⟩
  · exact ⟨Nat.le_of_succ_le hold, hnew⟩

/-- Well-nested steps record nodes in the scope where they begin or in scopes that they open. -/
theorem records_run (hnested : Nested allowed kind steps) (hwell : index.tree.WellFormed) :
    index.Records (index.run steps) := by
  induction hnested generalizing index with
  | nil => exact ⟨[], rfl, nofun⟩
  | @flat kind step more hflat _ _ ih =>
    have hstep := wellFormed_step hwell step
    have hcurrent : (index.step step).tree.current = index.tree.current := by
      rw [tree_step, ScopeTree.current_step_of_isFlat hflat]
    exact (records_step index step).trans (ih hstep) hcurrent (grows_run hwell [step]).size_le
      (grows_run hstep more).size_le
  | @scope kind opening body more _ hbody _ ihbody ihmore =>
    have hopen := wellFormed_step hwell (.enter opening)
    have hclosed := wellFormed_step (wellFormed_run hopen body) .exit
    have hinside := ihbody hopen
    have hgrows : (index.tree.enter opening.kind).Grows _ := grows_run hopen body
    have hcurrent : ((index.step (.enter opening)).run body).tree.current = index.tree.size := by
      rw [tree_run]
      exact ScopeTree.current_run hbody hopen
    rw [run_cons, run_append, run_cons]
    generalize (index.step (.enter opening)).run body = inside at *
    have hsize : inside.tree.size = (inside.step .exit).tree.size :=
      (ScopeTree.size_exit inside.tree).symm
    exact (hinside.enclosed hgrows.size_le).trans (ihmore hclosed) (hgrows.current_exit hcurrent)
      (hsize ▸ Nat.le_of_succ_le hgrows.size_le) (grows_run hclosed more).size_le

theorem balanced_run (hnested : Nested allowed kind steps) (hwell : index.tree.WellFormed) :
    index.Balanced (index.run steps) where
  tree := by
    rw [tree_run]
    exact ScopeTree.balanced_run hnested hwell
  history := records_run hnested hwell

end ScopeIndex

/-! ### The pass -/

namespace Visitor

variable {α : Type} {env : Environment} {visitor : Visitor α} {emitter : Nat → Emitter α}
  {steps : Nat → List Step} {before : State}

/-- Whether a visit that begins in a state, if it ends well, ends on the same level and with the
    same scopes open, and has done what the emitter for that level does. -/
def Balances (visitor : Visitor α) (emitter : Nat → Emitter α) (before : State) : Prop :=
  ∀ value after, visitor.run before = .ok value after →
    after.level = before.level ∧ before.tree.Balanced after.tree ∧
      (emitter before.level).run before.toSession = .ok value after.toSession

/-- A visitor is balanced where the emitter that it follows takes well-nested steps. -/
theorem balances_of_follows (hfollows : Follows visitor emitter)
    (hperforms : ∀ depth, Emitter.Performs env (emitter depth) (steps depth))
    (hfree : ∀ depth, Walk.Free (steps depth)) (hbefore : before.tree.WellFormed) :
    visitor.Balances emitter before := by
  intro value after hrun
  have hends := hfollows before.toSession before.level
  rw [hrun] at hends
  generalize hemitter : (emitter before.level).run before.toSession = ending at hends
  cases hends with
  | ok value session =>
    have htree := (hperforms before.level).tree_of_run hemitter
    refine ⟨rfl, ?_, rfl⟩
    rw [htree]
    exact ScopeTree.balanced_run (hfree before.level .function) hbefore

end Visitor

/-- Every visit to a node is balanced, whatever the node is and wherever the visit begins: all trees
    that steps lead to are well formed (`ScopeTree.wellFormed_run`). One of the pass that ends well
    ends on the level where it began, with the same scope open, with the scopes that were closed
    left alone, and with all scopes closed that it opened. One for the scope index always does so,
    and records nodes in the scope that was open or in scopes that it opened. -/
theorem visits_balanced (env : Environment) {before : Visitor.State} {index : ScopeIndex}
    (hbefore : before.tree.WellFormed) (hindex : index.tree.WellFormed) :
    (∀ value : Expression,
      (Visitor.expression env value).Balances (Emitter.expression env · value) before ∧
        index.Balanced (index.expression value)) ∧
      (∀ value : Statement,
        (Visitor.statement env value).Balances (Emitter.statement env · value) before ∧
          index.Balanced (index.statement value)) ∧
      (∀ part : ClassMember,
        (Visitor.member env part).Balances (Emitter.member env · part) before ∧
          index.Balanced (index.member part)) ∧
      ∀ (head : Layout) (kind : ScopeKind) (params : List Identifier) (body : Block),
        (Visitor.block env head kind params body).Balances
            (Emitter.block env · head kind params body) before ∧
          index.Balanced (index.block kind params body) := by
  open Visitor Emitter Walk in
  refine ⟨fun value => ⟨?_, ?_⟩, fun value => ⟨?_, ?_⟩, fun part => ⟨?_, ?_⟩,
    fun head kind params body => ⟨?_, ?_⟩⟩
  · exact balances_of_follows (follows_expression env value)
      (fun depth => performs_expression env depth value) (free_expression · value) hbefore
  · rw [ScopeIndex.expression_eq_run index 0]
    exact ScopeIndex.balanced_run (free_expression 0 value .function) hindex
  · exact balances_of_follows (follows_statement env value)
      (fun depth => performs_statement env depth value) (free_statement · value) hbefore
  · rw [ScopeIndex.statement_eq_run index 0]
    exact ScopeIndex.balanced_run (free_statement 0 value .function) hindex
  · exact balances_of_follows (follows_member env part)
      (fun depth => performs_member env depth part) (free_member · part) hbefore
  · rw [ScopeIndex.member_eq_run index 0]
    exact ScopeIndex.balanced_run (free_member 0 part .function) hindex
  · exact balances_of_follows (follows_block env head kind params body)
      (fun depth => performs_block env depth head kind params body)
      (free_block · kind params body) hbefore
  · rw [ScopeIndex.block_eq_run index 0]
    exact ScopeIndex.balanced_run (free_block 0 kind params body .function) hindex

/-- A block behind a function body that has been closed. -/
def behindClosed : ScopeTree :=
  ScopeTree.start.run [.enter ⟨.function, 0, [], []⟩, .exit, .enter ⟨.block, 0, [], []⟩]

/-- An array under a guard, with a function in it that assigns to a new name. -/
def guardedArray : Statement :=
  let nowhere : Span := .point .zero
  let assignment := .assign (.name "m" nowhere) .plain (.name "n" nowhere) false nowhere
  let body := .mk [.expression assignment nowhere] nowhere
  .guarded (.expression (.array [.lambda [⟨"n", nowhere⟩] body nowhere] nowhere) nowhere)
    (.name "ok" nowhere) nowhere

/-- Two scopes are opened and closed under the guard. The scope that was closed is as it was, and
    the level is where the pass began. -/
theorem visits_balanced_guarded :
    let before : Visitor.State := ⟨⟨behindClosed, []⟩, 2⟩
    let index : ScopeIndex := ⟨behindClosed, []⟩
    behindClosed.WellFormed ∧
      (∃ lines after,
        (Visitor.statement {} guardedArray).run before = .ok lines after ∧ after.level = 2 ∧
          after.tree.size = behindClosed.size + 2 ∧ after.tree.current = 2 ∧
          after.tree.scope? 1 = behindClosed.scope? 1) ∧
      index.Records (index.statement guardedArray) := by
  intro before index
  have hbefore : before.tree.WellFormed :=
    ScopeTree.wellFormed_run ScopeTree.wellFormed_start _
  have hindex : index.tree.WellFormed := hbefore
  obtain ⟨-, hstatement, -, -⟩ := visits_balanced {} hbefore hindex
  obtain ⟨hpass, hvisited⟩ := hstatement guardedArray
  refine ⟨hbefore, ?_, hvisited.history⟩
  obtain ⟨lines, after, hrun, hsize⟩ : ∃ lines after,
      (Visitor.statement {} guardedArray).run before = .ok lines after ∧
        after.tree.size = behindClosed.size + 2 := ⟨_, _, rfl, rfl⟩
  obtain ⟨hlevel, htree, -⟩ := hpass lines after hrun
  exact ⟨lines, after, hrun, hlevel, hsize, htree.current, htree.kept 1 (by decide) (by decide)⟩

end KaLang
