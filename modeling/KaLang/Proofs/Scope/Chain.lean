import KaLang.Proofs.Scope.Arena
import Mathlib.Data.List.Find

/-!
The way outwards in a well-formed scope tree: the numbers of the scopes on it (`path`), the first
of them that has a name (`holder?`), and what looking a name up has to do with that.
-/

namespace KaLang.ScopeTree

/-- The scopes of the tree are an arena, and the current one is among them. -/
structure WellFormed (tree : ScopeTree) : Prop where
  arena : Scope.Arena tree.newestFirst
  current_lt : tree.current < tree.size

/-- The numbers of the scopes on the way outwards from a scope, its own first. -/
def path (tree : ScopeTree) (id : ScopeId) : List ScopeId := (tree.chainFrom id).map Scope.id

/-- The symbol that a scope itself has for a name. -/
def own? (tree : ScopeTree) (id : ScopeId) (name : String) : Option Symbol :=
  (tree.scope? id).bind fun scope => scope.get? name

/-- The first scope on the way outwards from a scope that has a name. -/
def holder? (tree : ScopeTree) (id : ScopeId) (name : String) : Option ScopeId :=
  ((tree.chainFrom id).find? fun scope => (scope.get? name).isSome).map Scope.id

theorem wellFormed_start : start.WellFormed :=
  ⟨.root [] (by simp), by decide⟩

variable {tree : ScopeTree} {id : ScopeId} {scope : Scope}

theorem id_of_scope? (hscope : tree.scope? id = some scope) : scope.id = id := by
  simpa using List.find?_some hscope

theorem mem_of_scope? (hscope : tree.scope? id = some scope) : scope ∈ tree.newestFirst :=
  List.mem_of_find?_eq_some hscope

theorem own?_of_scope? (hscope : tree.scope? id = some scope) (name : String) :
    tree.own? id name = scope.get? name := by
  simp [own?, hscope]

namespace WellFormed

theorem scope?_id (hwell : tree.WellFormed) (hscope : scope ∈ tree.newestFirst) :
    tree.scope? scope.id = some scope :=
  hwell.arena.find?_id hscope

theorem exists_scope? (hwell : tree.WellFormed) (hid : id < tree.size) :
    ∃ scope, tree.scope? id = some scope :=
  hwell.arena.exists_find? hid

theorem lt_of_scope? (hwell : tree.WellFormed) (hscope : tree.scope? id = some scope) :
    id < tree.size := by
  have hlt := hwell.arena.id_lt (mem_of_scope? hscope)
  rwa [id_of_scope? hscope] at hlt

theorem parent_lt (hwell : tree.WellFormed) (hscope : tree.scope? id = some scope)
    {parent : ScopeId} (hparent : scope.parent = some parent) : parent < id := by
  have hlt := hwell.arena.parent_lt (mem_of_scope? hscope) hparent
  rwa [id_of_scope? hscope] at hlt

theorem chainFrom_of_scope? (hwell : tree.WellFormed) (hscope : tree.scope? id = some scope) :
    tree.chainFrom id = scope :: scope.parent.elim [] tree.chainFrom := by
  have hchain := hwell.arena.chain_eq id
  simp only [scope?] at hscope
  rw [hscope] at hchain
  exact hchain

theorem path_of_scope? (hwell : tree.WellFormed) (hscope : tree.scope? id = some scope) :
    tree.path id = id :: scope.parent.elim [] tree.path := by
  rw [path, hwell.chainFrom_of_scope? hscope, List.map_cons, id_of_scope? hscope]
  cases scope.parent <;> rfl

theorem mem_path_self (hwell : tree.WellFormed) (hid : id < tree.size) : id ∈ tree.path id := by
  obtain ⟨scope, hscope⟩ := hwell.exists_scope? hid
  rw [hwell.path_of_scope? hscope]
  exact List.mem_cons_self

theorem le_of_mem_path (hwell : tree.WellFormed) (hid : id < tree.size) {outer : ScopeId}
    (houter : outer ∈ tree.path id) : outer ≤ id := by
  induction id using Nat.strongRecOn with
  | ind id ih =>
    obtain ⟨scope, hscope⟩ := hwell.exists_scope? hid
    rw [hwell.path_of_scope? hscope] at houter
    rcases List.mem_cons.mp houter with rfl | houter
    · exact Nat.le_refl _
    · cases hparent : scope.parent with
      | none => simp [hparent] at houter
      | some parent =>
        have hlt := hwell.parent_lt hscope hparent
        rw [hparent] at houter
        exact Nat.le_trans (ih parent hlt (Nat.lt_trans hlt hid) houter) (Nat.le_of_lt hlt)

/-- The way outwards from a scope on a way is the rest of that way. -/
theorem path_suffix (hwell : tree.WellFormed) (hid : id < tree.size) {outer : ScopeId}
    (houter : outer ∈ tree.path id) : tree.path outer <:+ tree.path id := by
  induction id using Nat.strongRecOn with
  | ind id ih =>
    obtain ⟨scope, hscope⟩ := hwell.exists_scope? hid
    have hpath := hwell.path_of_scope? hscope
    rw [hpath] at houter
    rcases List.mem_cons.mp houter with rfl | houter
    · exact List.suffix_refl _
    · cases hparent : scope.parent with
      | none => simp [hparent] at houter
      | some parent =>
        have hlt := hwell.parent_lt hscope hparent
        rw [hparent] at houter hpath
        rw [hpath]
        exact (ih parent hlt (Nat.lt_trans hlt hid) houter).trans (List.suffix_cons _ _)

/-- The way outwards leads to older and older scopes. -/
theorem pairwise_path (hwell : tree.WellFormed) (hid : id < tree.size) :
    (tree.path id).Pairwise (· > ·) := by
  induction id using Nat.strongRecOn with
  | ind id ih =>
    obtain ⟨scope, hscope⟩ := hwell.exists_scope? hid
    rw [hwell.path_of_scope? hscope]
    cases hparent : scope.parent with
    | none => simp
    | some parent =>
      have hlt := hwell.parent_lt hscope hparent
      have hvalid := Nat.lt_trans hlt hid
      refine List.pairwise_cons.mpr ⟨fun outer houter => ?_, ih parent hlt hvalid⟩
      exact Nat.lt_of_le_of_lt (hwell.le_of_mem_path hvalid houter) hlt

/-- Every scope on a way outwards is the one that its number names. -/
theorem scope?_of_mem_chainFrom (hwell : tree.WellFormed) (hid : id < tree.size)
    (hscope : scope ∈ tree.chainFrom id) : tree.scope? scope.id = some scope := by
  induction id using Nat.strongRecOn with
  | ind id ih =>
    obtain ⟨own, hown⟩ := hwell.exists_scope? hid
    rw [hwell.chainFrom_of_scope? hown] at hscope
    rcases List.mem_cons.mp hscope with rfl | hscope
    · rwa [id_of_scope? hown]
    · cases hparent : own.parent with
      | none => simp [hparent] at hscope
      | some parent =>
        have hlt := hwell.parent_lt hown hparent
        rw [hparent] at hscope
        exact ih parent hlt (Nat.lt_trans hlt hid) hscope

theorem lt_of_mem_path (hwell : tree.WellFormed) (hid : id < tree.size) {outer : ScopeId}
    (houter : outer ∈ tree.path id) : outer < tree.size :=
  Nat.lt_of_le_of_lt (hwell.le_of_mem_path hid houter) hid

/-- Every way outwards ends in a scope that belongs to a function or to the program. -/
theorem exists_function_mem_chainFrom (hwell : tree.WellFormed) (hid : id < tree.size) :
    ∃ scope ∈ tree.chainFrom id, scope.kind = .function := by
  induction id using Nat.strongRecOn with
  | ind id ih =>
    obtain ⟨own, hown⟩ := hwell.exists_scope? hid
    rw [hwell.chainFrom_of_scope? hown]
    cases hparent : own.parent with
    | none =>
      exact ⟨own, List.mem_cons_self, hwell.arena.kind_of_parent_none (mem_of_scope? hown) hparent⟩
    | some parent =>
      have hlt := hwell.parent_lt hown hparent
      obtain ⟨scope, hmem, hkind⟩ := ih parent hlt (Nat.lt_trans hlt hid)
      exact ⟨scope, List.mem_cons_of_mem _ hmem, hkind⟩

/-- New names are bound in a function's scope on the way outwards. -/
theorem functionScope_spec (hwell : tree.WellFormed) :
    tree.functionScope ∈ tree.path tree.current ∧
      ∃ scope, tree.scope? tree.functionScope = some scope ∧ scope.kind = .function := by
  obtain ⟨function, hmem, hkind⟩ := hwell.exists_function_mem_chainFrom hwell.current_lt
  cases hfind : (tree.chainFrom tree.current).find? fun scope => scope.kind = .function with
  | none =>
    have hnone := List.find?_eq_none.mp hfind function hmem
    simp [hkind] at hnone
  | some scope =>
    have hscope := List.mem_of_find?_eq_some hfind
    have heq : tree.functionScope = scope.id := by simp [functionScope, hfind]
    rw [heq]
    exact ⟨List.mem_map_of_mem hscope, scope,
      hwell.scope?_of_mem_chainFrom hwell.current_lt hscope, by simpa using List.find?_some hfind⟩

/-- The holder of a name is the first number on the way outwards whose scope has the name. -/
theorem holder?_eq (hwell : tree.WellFormed) (hid : id < tree.size) (name : String) :
    tree.holder? id name = (tree.path id).find? fun outer => (tree.own? outer name).isSome := by
  rw [path, List.find?_map, holder?]
  refine congrArg (Option.map Scope.id) (List.find?_congr fun scope hscope => ?_)
  have hown := own?_of_scope? (hwell.scope?_of_mem_chainFrom hid hscope) name
  simp [hown]

/-- Looking a name up gives the symbol of its holder. -/
theorem lookupFrom_eq (hwell : tree.WellFormed) (hid : id < tree.size) (name : String) :
    tree.lookupFrom id name = (tree.holder? id name).bind fun outer => tree.own? outer name := by
  have hchain : ∀ scope ∈ tree.chainFrom id, tree.scope? scope.id = some scope :=
    fun _ => hwell.scope?_of_mem_chainFrom hid
  simp only [lookupFrom, holder?]
  generalize tree.chainFrom id = chain at hchain
  induction chain with
  | nil => rfl
  | cons scope outer ih =>
    have hown := own?_of_scope? (hchain scope List.mem_cons_self) name
    cases hget : scope.get? name with
    | none => simpa [hget] using ih fun scope hscope => hchain scope (List.mem_cons_of_mem _ hscope)
    | some symbol => simp [hget, hown]

theorem lookupFrom_isSome_iff (hwell : tree.WellFormed) (hid : id < tree.size) (name : String) :
    (tree.lookupFrom id name).isSome ↔ ∃ outer ∈ tree.path id, (tree.own? outer name).isSome := by
  rw [hwell.lookupFrom_eq hid, hwell.holder?_eq hid]
  cases hfind : (tree.path id).find? fun outer => (tree.own? outer name).isSome with
  | none => simpa using List.find?_eq_none.mp hfind
  | some outer =>
    have hown := List.find?_some hfind
    simp only [Option.bind_some, hown, true_iff]
    exact ⟨outer, List.mem_of_find?_eq_some hfind, hown⟩

/-- A name that nothing stands for is in no scope on the way outwards. -/
theorem own?_of_lookupFrom_eq_none (hwell : tree.WellFormed) (hid : id < tree.size)
    {name : String} (hlookup : tree.lookupFrom id name = none) {outer : ScopeId}
    (houter : outer ∈ tree.path id) : tree.own? outer name = none := by
  cases hown : tree.own? outer name with
  | none => rfl
  | some symbol =>
    have hsome := (hwell.lookupFrom_isSome_iff hid name).mpr ⟨outer, houter, by simp [hown]⟩
    simp [hlookup] at hsome

end WellFormed

end KaLang.ScopeTree
