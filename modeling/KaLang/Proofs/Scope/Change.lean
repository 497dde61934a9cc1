import KaLang.Proofs.Scope.Chain

/-!
What one operation can do to a scope tree (`Change`), said once. From it follows what every
operation keeps: the tree stays well formed, scopes keep their place, kind and names (`Grows`), and
a scope that is off the way outwards from the current one is left alone for good.
-/

namespace KaLang

theorem Scope.chain_map (scopes : List Scope) (change : Scope → Scope)
    (hid : ∀ scope, (change scope).id = scope.id)
    (hparent : ∀ scope, (change scope).parent = scope.parent) (id : ScopeId) :
    chain (scopes.map change) id = (chain scopes id).map change := by
  induction scopes generalizing id with
  | nil => rfl
  | cons scope older ih =>
    by_cases hscope : scope.id = id
    · cases houter : scope.parent with
      | none => simp [chain, hid, hparent, hscope, houter]
      | some parent => simp [chain, hid, hparent, hscope, houter, ih]
    · simp [chain, hid, hscope, ih]

namespace ScopeTree

variable {tree after : ScopeTree} {id other : ScopeId} {name : String}

/-! ### Opening and closing -/

@[simp] theorem size_enter (tree : ScopeTree) (kind : ScopeKind) :
    (tree.enter kind).size = tree.size + 1 := rfl

@[simp] theorem current_enter (tree : ScopeTree) (kind : ScopeKind) :
    (tree.enter kind).current = tree.size := rfl

theorem scope?_enter (tree : ScopeTree) (kind : ScopeKind) (id : ScopeId) :
    (tree.enter kind).scope? id =
      if tree.size = id then some ⟨tree.size, some tree.current, kind, []⟩ else tree.scope? id := by
  by_cases hid : tree.size = id <;> simp [enter, scope?, hid]

theorem scope?_enter_of_lt (kind : ScopeKind) (hid : id < tree.size) :
    (tree.enter kind).scope? id = tree.scope? id := by
  rw [scope?_enter, if_neg (Nat.ne_of_gt hid)]

theorem own?_enter (tree : ScopeTree) (kind : ScopeKind) (hid : id < tree.size) (name : String) :
    (tree.enter kind).own? id name = tree.own? id name := by
  rw [own?, own?, scope?_enter_of_lt kind hid]

theorem path_enter (tree : ScopeTree) (kind : ScopeKind) (hid : id < tree.size) :
    (tree.enter kind).path id = tree.path id := by
  have hdiff : tree.size ≠ id := Nat.ne_of_gt hid
  simp [enter, path, chainFrom, Scope.chain, hdiff]

theorem path_enter_current (tree : ScopeTree) (kind : ScopeKind) :
    (tree.enter kind).path (tree.enter kind).current = tree.size :: tree.path tree.current := by
  simp [enter, path, chainFrom, Scope.chain]

@[simp] theorem newestFirst_exit (tree : ScopeTree) : tree.exit.newestFirst = tree.newestFirst := by
  unfold exit
  split <;> rfl

@[simp] theorem size_exit (tree : ScopeTree) : tree.exit.size = tree.size := by
  simp [size]

@[simp] theorem scope?_exit (tree : ScopeTree) (id : ScopeId) :
    tree.exit.scope? id = tree.scope? id := by
  simp [scope?]

@[simp] theorem own?_exit (tree : ScopeTree) (id : ScopeId) (name : String) :
    tree.exit.own? id name = tree.own? id name := by
  simp [own?]

@[simp] theorem path_exit (tree : ScopeTree) (id : ScopeId) :
    tree.exit.path id = tree.path id := by
  simp [path, chainFrom]

/-- Closing a scope opens the next one on the way outwards, if there is one. -/
theorem current_exit_mem_path (hwell : tree.WellFormed) :
    tree.exit.current ∈ tree.path tree.current := by
  obtain ⟨scope, hscope⟩ := hwell.exists_scope? hwell.current_lt
  have hself := hwell.mem_path_self hwell.current_lt
  cases hparent : scope.parent with
  | none => simpa [exit, hscope, hparent] using hself
  | some parent =>
    have hvalid := Nat.lt_trans (hwell.parent_lt hscope hparent) hwell.current_lt
    rw [hwell.path_of_scope? hscope]
    simpa [exit, hscope, hparent] using Or.inr (hwell.mem_path_self hvalid)

/-! ### Binding -/

@[simp] theorem size_bindIn (tree : ScopeTree) (id : ScopeId) (symbol : Symbol) :
    (tree.bindIn id symbol).size = tree.size := by
  simp [bindIn, size]

@[simp] theorem current_bindIn (tree : ScopeTree) (id : ScopeId) (symbol : Symbol) :
    (tree.bindIn id symbol).current = tree.current := rfl

@[simp] theorem path_bindIn (tree : ScopeTree) (id : ScopeId) (symbol : Symbol)
    (other : ScopeId) : (tree.bindIn id symbol).path other = tree.path other := by
  simp only [path, chainFrom, bindIn]
  rw [Scope.chain_map _ _ (by intro scope; split <;> rfl) (by intro scope; split <;> rfl),
    List.map_map]
  refine List.map_congr_left fun scope _ => ?_
  simp only [Function.comp_apply]
  split <;> rfl

theorem scope?_bindIn (tree : ScopeTree) (id : ScopeId) (symbol : Symbol) (other : ScopeId) :
    (tree.bindIn id symbol).scope? other =
      (tree.scope? other).map fun scope => if other = id then scope.bind symbol else scope := by
  have hcomp : ((fun scope : Scope => decide (scope.id = other)) ∘ fun scope =>
      if scope.id = id then scope.bind symbol else scope) =
      fun scope => decide (scope.id = other) := by
    funext scope
    simp only [Function.comp_apply]
    split <;> rfl
  simp only [bindIn, scope?, List.find?_map, hcomp]
  cases hfind : tree.newestFirst.find? fun scope => scope.id = other with
  | none => rfl
  | some scope =>
    have hscope : scope.id = other := by simpa using List.find?_some hfind
    simp [hscope]

theorem scope?_bindIn_of_ne (symbol : Symbol) (hne : other ≠ id) :
    (tree.bindIn id symbol).scope? other = tree.scope? other := by
  simp [scope?_bindIn, hne]

theorem own?_bindIn (hid : (tree.scope? id).isSome) (symbol : Symbol) (other : ScopeId)
    (name : String) :
    (tree.bindIn id symbol).own? other name =
      if other = id ∧ symbol.name = name then some symbol else tree.own? other name := by
  obtain ⟨scope, hscope⟩ := Option.isSome_iff_exists.mp hid
  by_cases hother : other = id
  · subst hother
    by_cases hname : symbol.name = name <;>
      simp [own?, scope?_bindIn, hscope, Scope.get?_bind, hname]
  · simp [own?, scope?_bindIn, hother]

/-! ### One operation -/

/-- What one operation makes of a tree. A symbol is bound in the current scope, where one that is
    hoisted takes no declaration's place, or in the function's scope if nothing on the way outwards
    has its name. -/
inductive Change (tree : ScopeTree) : ScopeTree → Prop where
  | hosts (hosts : List (String × HostKind)) : Change tree { tree with hosts }
  | opened (kind : ScopeKind) : Change tree (tree.enter kind)
  | closed : Change tree tree.exit
  | here (symbol : Symbol) (hkeep : symbol.hoisted = true → ∀ own,
      tree.own? tree.current symbol.name = some own → own.hoisted = true) :
      Change tree (tree.bindIn tree.current symbol)
  | outer (symbol : Symbol) (hfree : tree.lookup symbol.name = none) :
      Change tree (tree.bindIn tree.functionScope symbol)

theorem change_self (tree : ScopeTree) : tree.Change tree := .hosts tree.hosts

theorem change_declare (tree : ScopeTree) (name : String) (kind : SymbolKind) (place : Position) :
    tree.Change (tree.declare name kind place) :=
  .here ⟨name, kind, place, false⟩ (by simp)

theorem change_assign (tree : ScopeTree) (name : String) (place : Position) (isLocal : Bool) :
    tree.Change (tree.assign name place isLocal) := by
  unfold assign
  cases isLocal with
  | true =>
    simp only [↓reduceIte]
    split
    · exact tree.change_self
    · next hown =>
      refine .here _ fun _ own hsome => ?_
      obtain ⟨ownName, kind, definedAt, hoisted⟩ := own
      cases hoisted with
      | true => rfl
      | false => exact absurd hsome (hown ownName kind definedAt)
  | false =>
    simp only [Bool.false_eq_true, ↓reduceIte]
    split
    · exact tree.change_self
    · next hfree =>
      refine .outer _ ?_
      simp only [Bool.or_eq_true, not_or, Option.not_isSome_iff_eq_none] at hfree
      exact hfree.2

namespace Change

theorem wellFormed (hchange : tree.Change after) (hwell : tree.WellFormed) :
    after.WellFormed := by
  cases hchange with
  | hosts hosts => exact ⟨hwell.arena, hwell.current_lt⟩
  | opened kind =>
    exact ⟨.opened tree.current kind [] hwell.arena hwell.current_lt (by simp), by simp⟩
  | closed =>
    refine ⟨by simpa using hwell.arena, ?_⟩
    rw [size_exit]
    exact hwell.lt_of_mem_path hwell.current_lt (current_exit_mem_path hwell)
  | here symbol => exact ⟨hwell.arena.map_bind tree.current symbol, by simpa using hwell.current_lt⟩
  | outer symbol =>
    exact ⟨hwell.arena.map_bind tree.functionScope symbol, by simpa using hwell.current_lt⟩

/-- A scope off the way outwards is not changed. -/
theorem scope?_of_not_mem_path (hchange : tree.Change after) (hwell : tree.WellFormed)
    (hid : id < tree.size) (hoff : id ∉ tree.path tree.current) :
    after.scope? id = tree.scope? id := by
  cases hchange with
  | hosts hosts => rfl
  | opened kind => exact scope?_enter_of_lt kind hid
  | closed => exact scope?_exit tree id
  | here symbol =>
    refine scope?_bindIn_of_ne symbol fun heq => hoff ?_
    rw [heq]
    exact hwell.mem_path_self hwell.current_lt
  | outer symbol =>
    refine scope?_bindIn_of_ne symbol fun heq => hoff ?_
    rw [heq]
    exact hwell.functionScope_spec.1

/-- A scope off the way outwards does not come back to it. -/
theorem not_mem_path (hchange : tree.Change after) (hwell : tree.WellFormed)
    (hid : id < tree.size) (hoff : id ∉ tree.path tree.current) :
    id ∉ after.path after.current := by
  cases hchange with
  | hosts hosts => exact hoff
  | opened kind =>
    rw [path_enter_current]
    exact fun hmem => (List.mem_cons.mp hmem).elim (Nat.ne_of_lt hid) hoff
  | closed =>
    rw [path_exit]
    exact fun hmem => hoff
      ((hwell.path_suffix hwell.current_lt (current_exit_mem_path hwell)).subset hmem)
  | here symbol => simpa using hoff
  | outer symbol => simpa using hoff

end Change

/-! ### Growth -/

/-- What a later tree keeps of an earlier one: every scope has its place, its kind and its names,
    and a name that something declares stays declared. -/
structure Grows (before after : ScopeTree) : Prop where
  size_le : before.size ≤ after.size
  path_eq : ∀ id < before.size, after.path id = before.path id
  scope : ∀ id scope, before.scope? id = some scope →
    ∃ later, after.scope? id = some later ∧ later.parent = scope.parent ∧ later.kind = scope.kind
  held : ∀ id name, (before.own? id name).isSome → (after.own? id name).isSome
  declared : ∀ id name own, before.own? id name = some own → own.hoisted = false →
    ∃ later, after.own? id name = some later ∧ later.hoisted = false

namespace Grows

/-- Where the current scope is and what the host provides does not matter. -/
theorem of_newestFirst_eq {before after : ScopeTree}
    (hsame : after.newestFirst = before.newestFirst) : before.Grows after := by
  have hscope (id : ScopeId) : after.scope? id = before.scope? id := by
    rw [ScopeTree.scope?, hsame, ScopeTree.scope?]
  have hown (id : ScopeId) (name : String) : after.own? id name = before.own? id name := by
    rw [own?, hscope, own?]
  refine ⟨?_, ?_, ?_, ?_, ?_⟩
  · rw [size, size, hsame]
  · intro id _
    rw [path, chainFrom, hsame, path, chainFrom]
  · exact fun id scope hfound => ⟨scope, by rwa [hscope], rfl, rfl⟩
  · intro id name hheld
    rwa [hown]
  · intro id name own hfound hdeclared
    exact ⟨own, by rwa [hown], hdeclared⟩

theorem refl (tree : ScopeTree) : tree.Grows tree := of_newestFirst_eq rfl

theorem trans {before middle after : ScopeTree} (hfirst : before.Grows middle)
    (hsecond : middle.Grows after) : before.Grows after := by
  refine ⟨Nat.le_trans hfirst.size_le hsecond.size_le, ?_, ?_, ?_, ?_⟩
  · intro id hid
    rw [hsecond.path_eq id (Nat.lt_of_lt_of_le hid hfirst.size_le), hfirst.path_eq id hid]
  · intro id scope hscope
    obtain ⟨later, hlater, hparent, hkind⟩ := hfirst.scope id scope hscope
    obtain ⟨last, hlast, hsameParent, hsameKind⟩ := hsecond.scope id later hlater
    exact ⟨last, hlast, hsameParent.trans hparent, hsameKind.trans hkind⟩
  · exact fun id name hown => hsecond.held id name (hfirst.held id name hown)
  · intro id name own hown hhoisted
    obtain ⟨later, hlater, hfree⟩ := hfirst.declared id name own hown hhoisted
    exact hsecond.declared id name later hlater hfree

end Grows

theorem grows_enter (hwell : tree.WellFormed) (kind : ScopeKind) :
    tree.Grows (tree.enter kind) := by
  have hown : ∀ id name own, tree.own? id name = some own →
      (tree.enter kind).own? id name = some own := by
    intro id name own hsome
    obtain ⟨scope, hscope, _⟩ := Option.bind_eq_some_iff.mp hsome
    rwa [own?_enter tree kind (hwell.lt_of_scope? hscope)]
  refine ⟨Nat.le_succ _, fun id hid => path_enter tree kind hid, ?_, ?_, ?_⟩
  · intro id scope hscope
    exact ⟨scope, by rwa [scope?_enter_of_lt kind (hwell.lt_of_scope? hscope)], rfl, rfl⟩
  · intro id name hsome
    obtain ⟨own, hsome⟩ := Option.isSome_iff_exists.mp hsome
    simp [hown id name own hsome]
  · exact fun id name own hsome hhoisted => ⟨own, hown id name own hsome, hhoisted⟩

/-- Closing the scope that was opened last opens the one around it again. -/
theorem Grows.current_exit {kind : ScopeKind} (hgrows : (tree.enter kind).Grows after)
    (hcurrent : after.current = tree.size) : after.exit.current = tree.current := by
  obtain ⟨scope, hscope, hparent, _⟩ := hgrows.scope tree.size
    ⟨tree.size, some tree.current, kind, []⟩ (by simp [scope?_enter])
  simp [exit, hcurrent, hscope, hparent]

/-- Binding a symbol lets a tree grow, unless it asks to hoist what is declared already. -/
theorem grows_bindIn (hid : (tree.scope? id).isSome) (symbol : Symbol)
    (hkeep : symbol.hoisted = true → ∀ own, tree.own? id symbol.name = some own →
      own.hoisted = true) :
    tree.Grows (tree.bindIn id symbol) := by
  refine ⟨by simp, fun other _ => path_bindIn tree id symbol other, ?_, ?_, ?_⟩
  · intro other scope hscope
    refine ⟨if other = id then scope.bind symbol else scope, by simp [scope?_bindIn, hscope], ?_⟩
    split <;> exact ⟨rfl, rfl⟩
  · intro other name hsome
    rw [own?_bindIn hid]
    split
    · rfl
    · exact hsome
  · intro other name own hown hdeclared
    rw [own?_bindIn hid]
    split
    · next hsame =>
      obtain ⟨rfl, rfl⟩ := hsame
      cases hhoisted : symbol.hoisted with
      | false => exact ⟨symbol, rfl, hhoisted⟩
      | true =>
        have hown := hkeep hhoisted own hown
        simp [hdeclared] at hown
    · exact ⟨own, hown, hdeclared⟩

theorem Change.grows (hchange : tree.Change after) (hwell : tree.WellFormed) :
    tree.Grows after := by
  cases hchange with
  | hosts hosts => exact .of_newestFirst_eq rfl
  | opened kind => exact grows_enter hwell kind
  | closed => exact .of_newestFirst_eq (newestFirst_exit tree)
  | here symbol hkeep =>
    obtain ⟨scope, hscope⟩ := hwell.exists_scope? hwell.current_lt
    exact grows_bindIn (by simp [hscope]) symbol hkeep
  | outer symbol hfree =>
    obtain ⟨hpath, scope, hscope, _⟩ := hwell.functionScope_spec
    refine grows_bindIn (by simp [hscope]) symbol fun _ own hown => ?_
    simp [hwell.own?_of_lookupFrom_eq_none hwell.current_lt hfree hpath] at hown

end ScopeTree

end KaLang
