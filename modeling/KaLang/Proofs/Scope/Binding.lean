import Mathlib
import KaLang.Proofs.Scope.Nesting
import KaLang.Syntax.Program

/-!
Which scope an assigned name belongs to when a walk is finished. At the assignment the name is held
by some scope `b` on the way outwards. Only a local assignment or a declaration that is met later,
in a scope of that way inside `b`, takes the name away from `b` (`holder?_run_eq_some_iff`).
-/

namespace KaLang

/-- Whether a step binds a name in the current scope, whatever holds the name further out. -/
def Step.rebinds (name : String) : Step → Bool
  | .assign other _ isLocal => isLocal && other = name
  | .declare other _ _ => other = name
  | _ => false

namespace ScopeTree

/-- The scopes that are current when one of the steps rebinds a name. -/
def rebinders (tree : ScopeTree) (name : String) : List Step → List ScopeId
  | [] => []
  | step :: more =>
    (if step.rebinds name then [tree.current] else []) ++ (tree.step step).rebinders name more

variable {tree : ScopeTree} {id holder : ScopeId} {name : String}

theorem own?_bindIn_isSome_iff (hid : (tree.scope? id).isSome) (symbol : Symbol)
    (other : ScopeId) (name : String) :
    ((tree.bindIn id symbol).own? other name).isSome ↔
      (tree.own? other name).isSome ∨ symbol.name = name ∧ other = id := by
  rw [own?_bindIn hid]
  by_cases hsame : other = id ∧ symbol.name = name
  · simp [hsame]
  · rw [if_neg hsame]
    exact ⟨Or.inl, fun h => h.resolve_right fun hname => hsame ⟨hname.2, hname.1⟩⟩

/-- A name that nothing stands for is not bound in a scope on whose way outwards it is held. -/
theorem own?_bindIn_of_lookup_eq_none (hwell : tree.WellFormed)
    (hholder : holder ∈ tree.path id) (hheld : (tree.own? holder name).isSome) {target : ScopeId}
    (htarget : target ∈ tree.path tree.current) (symbol : Symbol)
    (hfree : tree.lookup symbol.name = none) :
    (tree.bindIn target symbol).own? id name = tree.own? id name := by
  obtain ⟨scope, hscope⟩ := hwell.exists_scope? (hwell.lt_of_mem_path hwell.current_lt htarget)
  rw [own?_bindIn (by simp [hscope]), if_neg]
  rintro ⟨rfl, rfl⟩
  have hpath := (hwell.path_suffix hwell.current_lt htarget).subset hholder
  simp [hwell.own?_of_lookupFrom_eq_none hwell.current_lt hfree hpath] at hheld

/-- A name that some scope on the way outwards holds is new in a scope of that way only if the
    step rebinds it there. Every other step looks the name up first, and finds it. -/
theorem own?_step_isSome_iff (hwell : tree.WellFormed) (hid : id < tree.size)
    (hholder : holder ∈ tree.path id) (hheld : (tree.own? holder name).isSome) (step : Step) :
    ((tree.step step).own? id name).isSome ↔
      (tree.own? id name).isSome ∨ step.rebinds name = true ∧ id = tree.current := by
  obtain ⟨scope, hscope⟩ := hwell.exists_scope? hwell.current_lt
  have hcurrent : (tree.scope? tree.current).isSome := by simp [hscope]
  have hself := hwell.mem_path_self hwell.current_lt
  cases step with
  | enter opening => simp [step, Step.rebinds, own?_enter tree opening.kind hid]
  | exit => simp [step, Step.rebinds]
  | declare other kind place =>
    simp [step, Step.rebinds, declare, own?_bindIn_isSome_iff hcurrent]
  | assign other place isLocal =>
    cases isLocal with
    | true =>
      simp only [step, assign, Step.rebinds, ↓reduceIte, Bool.true_and, decide_eq_true_eq]
      split
      · next ownName kind definedAt hown =>
        constructor
        · exact Or.inl
        · rintro (hheld | ⟨rfl, rfl⟩)
          · exact hheld
          · rw [own?, hown]
            rfl
      · exact own?_bindIn_isSome_iff hcurrent _ id name
    | false =>
      simp only [step, assign, Step.rebinds, Bool.false_eq_true, ↓reduceIte, Bool.false_and,
        false_and, or_false]
      split
      · rfl
      · next hnew =>
        simp only [Bool.or_eq_true, not_or, Option.not_isSome_iff_eq_none] at hnew
        rw [own?_bindIn_of_lookup_eq_none hwell hholder hheld hwell.functionScope_spec.1 _
          hnew.2]
  | publish other span =>
    simp only [step, declare, Step.rebinds, Bool.false_eq_true, false_and, or_false]
    split
    · rfl
    · next hnew =>
      rw [own?_bindIn_of_lookup_eq_none hwell hholder hheld hself _
        (Option.not_isSome_iff_eq_none.mp hnew)]
  | host other kind =>
    simp only [Step.rebinds, Bool.false_eq_true, false_and, or_false]
    rfl
  | _ => simp [step, Step.rebinds]

theorem own?_run_isSome_iff (hwell : tree.WellFormed) (hid : id < tree.size)
    (hholder : holder ∈ tree.path id) (hheld : (tree.own? holder name).isSome)
    (steps : List Step) :
    ((tree.run steps).own? id name).isSome ↔
      (tree.own? id name).isSome ∨ id ∈ tree.rebinders name steps := by
  induction steps generalizing tree with
  | nil => simp [rebinders]
  | cons step steps ih =>
    have hgrows := (tree.change_step step).grows hwell
    have hstep := own?_step_isSome_iff hwell hid hholder hheld step
    have hrest := ih (wellFormed_step hwell step) (Nat.lt_of_lt_of_le hid hgrows.size_le)
      (by rwa [hgrows.path_eq id hid]) (hgrows.held holder name hheld)
    rw [run_cons, hrest, hstep, rebinders]
    by_cases hrebinds : step.rebinds name = true
    · simp [hrebinds, or_assoc]
    · simp [hrebinds]

/-- Every scope ahead of another one on a way outwards is further inside, and has the other one on
    its own way. -/
theorem WellFormed.inside_of_split (hwell : tree.WellFormed) (hid : id < tree.size)
    {inside outside : List ScopeId} (hpath : tree.path id = inside ++ holder :: outside)
    {inner : ScopeId} (hinner : inner ∈ inside) : holder < inner ∧ holder ∈ tree.path inner := by
  have hmem : inner ∈ tree.path id := by simp [hpath, hinner]
  have hsuffix := hwell.path_suffix hid hmem
  have hself := hwell.mem_path_self (hwell.lt_of_mem_path hid hmem)
  have horder := hwell.pairwise_path hid
  rw [hpath] at hsuffix horder
  have hlt := (List.pairwise_append.mp horder).2.2 inner hinner
  refine ⟨hlt holder List.mem_cons_self, ?_⟩
  rcases List.suffix_or_suffix_of_suffix hsuffix (List.suffix_append inside _) with hinto | honto
  · exact absurd (hlt inner (hinto.subset hself)) (Nat.lt_irrefl _)
  · exact honto.subset List.mem_cons_self

/-- Where a name is held after more steps: in the innermost scope on the way outwards that held it
    before or in which one of the steps rebound it. -/
theorem holder?_run (hwell : tree.WellFormed) (hid : id < tree.size)
    (hholder : tree.holder? id name = some holder) (steps : List Step) :
    (tree.run steps).holder? id name = (tree.path id).find? fun outer =>
      outer = holder || (tree.rebinders name steps).contains outer := by
  have hgrows := grows_run hwell steps
  rw [(wellFormed_run hwell steps).holder?_eq (Nat.lt_of_lt_of_le hid hgrows.size_le),
    hgrows.path_eq id hid]
  rw [hwell.holder?_eq hid] at hholder
  obtain ⟨hheld, inside, outside, hpath, hinside⟩ := List.find?_eq_some_iff_append.mp hholder
  have hlast := hgrows.held holder name hheld
  have hsame : ∀ inner ∈ inside, ((tree.run steps).own? inner name).isSome =
      (inner = holder || (tree.rebinders name steps).contains inner) := by
    intro inner hinner
    have hvalid := hwell.lt_of_mem_path hid (by simp [hpath, hinner] : inner ∈ tree.path id)
    obtain ⟨hlt, hway⟩ := hwell.inside_of_split hid hpath hinner
    have hiff := own?_run_isSome_iff hwell hvalid hway hheld steps
    have hfree : (tree.own? inner name).isSome = false := by simpa using hinside inner hinner
    rw [Bool.eq_iff_iff, hiff, hfree]
    simp [Nat.ne_of_gt hlt]
  rw [hpath, List.find?_append, List.find?_append, List.find?_congr hsame]
  simp [hlast]

/-- A name stays where it is held if and only if none of the steps rebinds it in a scope further
    inside. -/
theorem holder?_run_eq_some_iff (hwell : tree.WellFormed) (hid : id < tree.size)
    (hholder : tree.holder? id name = some holder) (steps : List Step) :
    (tree.run steps).holder? id name = some holder ↔
      ∀ inner ∈ tree.path id, holder < inner → inner ∉ tree.rebinders name steps := by
  have horder := hwell.pairwise_path hid
  rw [holder?_run hwell hid hholder]
  constructor
  · intro hfind inner hinner hlt hrebound
    obtain ⟨_, inside, outside, hpath, hinside⟩ := List.find?_eq_some_iff_append.mp hfind
    rw [hpath] at hinner horder
    rcases List.mem_append.mp hinner with hinner | hinner
    · simpa [hrebound] using hinside inner hinner
    · obtain ⟨_, htail, _⟩ := List.pairwise_append.mp horder
      rcases List.mem_cons.mp hinner with rfl | houter
      · exact Nat.lt_irrefl _ hlt
      · exact Nat.lt_asymm hlt ((List.pairwise_cons.mp htail).1 inner houter)
  · intro hfree
    rw [hwell.holder?_eq hid] at hholder
    obtain ⟨_, inside, outside, hpath, _⟩ := List.find?_eq_some_iff_append.mp hholder
    refine List.find?_eq_some_iff_append.mpr ⟨by simp, inside, outside, hpath, ?_⟩
    intro inner hinner
    obtain ⟨hlt, _⟩ := hwell.inside_of_split hid hpath hinner
    have hnot := hfree inner (by simp [hpath, hinner]) hlt
    simp [hnot, Nat.ne_of_gt hlt]

end ScopeTree

/-- The scope tree as it stands when so many steps of the walk have been taken. -/
def Program.treeAfter (program : Program) (taken : Nat) : ScopeTree :=
  ScopeTree.start.run ((Walk.program program).take taken)

theorem Program.wellFormed_treeAfter (program : Program) (taken : Nat) :
    (program.treeAfter taken).WellFormed :=
  ScopeTree.wellFormed_run ScopeTree.wellFormed_start _

theorem Program.run_treeAfter (program : Program) (taken : Nat) :
    (program.treeAfter taken).run ((Walk.program program).drop taken) =
      (ScopeIndex.ofProgram program).tree := by
  rw [ScopeIndex.tree_ofProgram, treeAfter, ← ScopeTree.run_append, List.take_append_drop]

theorem Program.run_treeAfter_step {program : Program} {taken : Nat} {step : Step}
    (hstep : (Walk.program program)[taken]? = some step) :
    ((program.treeAfter taken).step step).run ((Walk.program program).drop (taken + 1)) =
      ScopeTree.start.run (Walk.program program) := by
  obtain ⟨hlt, hget⟩ := List.getElem?_eq_some_iff.mp hstep
  rw [← ScopeTree.run_cons, treeAfter, ← ScopeTree.run_append, ← hget,
    ← List.drop_eq_getElem_cons hlt, List.take_append_drop]

/-- Where the name that an assignment writes belongs in the end, if `holder` holds it just after the
    assignment: to the innermost scope on the way outwards that is `holder` or in which the rest of
    the walk declares the name or assigns to it locally. So it stays with `holder` if and only if
    that happens in no scope further inside. -/
theorem Program.holder?_ofProgram (program : Program) (taken : Nat) {name : String}
    {holder : ScopeId}
    (hholder : (program.treeAfter taken).holder? (program.treeAfter taken).current name =
      some holder) :
    let visited := program.treeAfter taken
    let rebound := visited.rebinders name ((Walk.program program).drop taken)
    let last := (ScopeIndex.ofProgram program).tree.holder? visited.current name
    last = ((visited.path visited.current).find? fun outer =>
      outer = holder || rebound.contains outer) ∧
    (last = some holder ↔
      ∀ inner ∈ visited.path visited.current, holder < inner → inner ∉ rebound) := by
  have hwell := program.wellFormed_treeAfter taken
  rw [← program.run_treeAfter taken]
  exact ⟨ScopeTree.holder?_run hwell hwell.current_lt hholder _,
    ScopeTree.holder?_run_eq_some_iff hwell hwell.current_lt hholder _⟩

/-- A stretch of text within a line. -/
def Span.stretch (offset line column length : Nat) : Span :=
  ⟨⟨offset, line, column⟩, ⟨offset + length - 1, line, column + length - 1⟩⟩

/-- An assignment in a block to a variable of the program, which the same block makes its own
    afterwards. -/
def Program.capturing : Program :=
  ⟨[.expression
      (.assign (.name "x" (.stretch 0 0 0 1)) .plain (.number "1" (.stretch 4 0 4 1)) false
        (.stretch 0 0 0 5)) (.stretch 0 0 0 5),
    .condition (.name "c" (.stretch 9 1 3 1))
      (.mk
        [.expression
          (.assign (.name "x" (.stretch 18 2 2 1)) .plain (.number "2" (.stretch 22 2 6 1)) false
            (.stretch 18 2 2 5)) (.stretch 18 2 2 5),
        .expression
          (.assign (.name "x" (.stretch 32 3 8 1)) .plain (.number "3" (.stretch 36 3 12 1)) true
            (.stretch 26 3 2 11)) (.stretch 26 3 2 11)]
        ⟨⟨11, 1, 5⟩, ⟨36, 3, 12⟩⟩)
      none ⟨⟨6, 1, 0⟩, ⟨40, 4, 2⟩⟩],
    ⟨.zero, ⟨40, 4, 2⟩⟩⟩

theorem Program.ofSource_capturing :
    Program.ofSource "x = 1\nif c then\n  x = 2\n  local x = 3\nend" = .ok .capturing := by
  cbv

/-- The second assignment finds the variable of the program, and yet the name belongs to the block
    in the end. -/
theorem Program.capturing_moves_assigned_name :
    Program.ofSource "x = 1\nif c then\n  x = 2\n  local x = 3\nend" = .ok .capturing ∧
      (Walk.program .capturing)[12]? = some (.assign "x" ⟨18, 2, 2⟩ false) ∧
      (capturing.treeAfter 13).holder? (capturing.treeAfter 13).current "x" = some 0 ∧
      (ScopeIndex.ofProgram .capturing).tree.holder? (capturing.treeAfter 13).current "x" =
        some 1 :=
  ⟨ofSource_capturing, rfl, by decide, by decide⟩

theorem Program.holder?_capturing :
    (capturing.treeAfter 13).holder? (capturing.treeAfter 13).current "x" = some 0 ∧
      (ScopeIndex.ofProgram .capturing).tree.holder? (capturing.treeAfter 13).current "x" =
        [1, 0].find? (fun outer => outer = 0 || [1].contains outer) :=
  ⟨by decide, (holder?_ofProgram .capturing 13 (by decide)).1⟩

end KaLang
