import KaLang.Proofs.Scope.Change

/-!
Runs of operations on a scope tree. Whatever is done to the starting tree, and in whatever order,
the scopes stay numbered in the order of opening with every parent older than its children
(`Ordered`), and what is bound stays bound (`Extends`). So going from a scope to its parent, and on
to the parent of that one, comes to an end at the program's scope (`outwards_eq_chainFrom`).
-/

namespace KaLang

/-- Binding a symbol keeps the names that are bound already, in their order. -/
theorem Scope.names_prefix_bind (scope : Scope) (symbol : Symbol) :
    scope.symbols.map Symbol.name <+: (scope.bind symbol).symbols.map Symbol.name := by
  rw [bind, Symbol.map_name_put]
  split
  · exact List.prefix_rfl
  · exact List.prefix_append _ _

namespace Scope.Arena

variable {scopes : List Scope}

theorem map_id_reverse (harena : Arena scopes) :
    scopes.reverse.map Scope.id = List.range scopes.length := by
  induction harena with
  | root symbols => rfl
  | opened parent kind symbols _ _ _ ih =>
    rw [List.reverse_cons, List.map_append, ih, List.length_cons, List.range_succ]
    rfl

theorem parent_eq_none_iff (harena : Arena scopes) {scope : Scope} (hscope : scope ∈ scopes) :
    scope.parent = none ↔ scope.id = 0 := by
  induction harena with
  | root symbols =>
    obtain rfl := List.mem_singleton.mp hscope
    simp
  | opened parent kind symbols _ hparent _ ih =>
    rcases List.mem_cons.mp hscope with rfl | hold
    · have hpositive := Nat.zero_lt_of_lt hparent
      simpa using List.ne_nil_of_length_pos hpositive
    · exact ih hold

end Scope.Arena

namespace ScopeTree

/-- What can be done to a scope tree. -/
inductive Operation where
  | enter (kind : ScopeKind)
  | exit
  | assign (name : String) (place : Position) (isLocal : Bool)
  | declare (name : String) (kind : SymbolKind) (place : Position)
  | declareHost (name : String) (kind : HostKind)

/-- What an operation makes of a tree. -/
def perform (tree : ScopeTree) : Operation → ScopeTree
  | .enter kind => tree.enter kind
  | .exit => tree.exit
  | .assign name place isLocal => tree.assign name place isLocal
  | .declare name kind place => tree.declare name kind place
  | .declareHost name kind => tree.declareHost name kind

/-- What operations in a row make of a tree. -/
def performAll (tree : ScopeTree) (operations : List Operation) : ScopeTree :=
  operations.foldl perform tree

@[simp] theorem performAll_nil (tree : ScopeTree) : tree.performAll [] = tree := rfl

@[simp] theorem performAll_cons (tree : ScopeTree) (operation : Operation)
    (more : List Operation) :
    tree.performAll (operation :: more) = (tree.perform operation).performAll more := rfl

variable {tree before middle after : ScopeTree} {id : ScopeId} {name : String}

theorem change_perform (tree : ScopeTree) (operation : Operation) :
    tree.Change (tree.perform operation) := by
  cases operation with
  | enter kind => exact .opened kind
  | exit => exact .closed
  | assign name place isLocal => exact tree.change_assign name place isLocal
  | declare name kind place => exact tree.change_declare name kind place
  | declareHost name kind => exact .hosts _

/-! ### What every tree is -/

/-- Whether the scopes are numbered in the order of opening, the program's scope is the only one
    without a parent and every other parent is older than its children, a scope is open, and no
    scope has two symbols of one name. -/
structure Ordered (tree : ScopeTree) : Prop where
  ids : tree.scopes.map Scope.id = List.range tree.size
  root : ∀ scope ∈ tree.scopes, scope.parent = none ↔ scope.id = 0
  older : ∀ scope ∈ tree.scopes, ∀ parent, scope.parent = some parent → parent < scope.id
  current_lt : tree.current < tree.size
  distinct : ∀ scope ∈ tree.scopes, (scope.symbols.map Symbol.name).Nodup

theorem WellFormed.ordered (hwell : tree.WellFormed) : tree.Ordered where
  ids := hwell.arena.map_id_reverse
  root _ hscope := hwell.arena.parent_eq_none_iff (List.mem_reverse.mp hscope)
  older _ hscope _ hparent := hwell.arena.parent_lt (List.mem_reverse.mp hscope) hparent
  current_lt := hwell.current_lt
  distinct _ hscope := hwell.arena.distinct (List.mem_reverse.mp hscope)

theorem WellFormed.performAll (hwell : tree.WellFormed) (operations : List Operation) :
    (tree.performAll operations).WellFormed := by
  induction operations generalizing tree with
  | nil => exact hwell
  | cons operation more ih => exact ih ((tree.change_perform operation).wellFormed hwell)

/-! ### What every later tree keeps -/

/-- Whether a later tree has every scope of an earlier one, of the same kind and inside the same
    scope, with the names that it had in their order and perhaps more behind them. -/
structure Extends (before after : ScopeTree) : Prop where
  size_le : before.size ≤ after.size
  kept : ∀ id scope, before.scope? id = some scope →
    ∃ later, after.scope? id = some later ∧ later.parent = scope.parent ∧
      later.kind = scope.kind ∧ scope.symbols.map Symbol.name <+: later.symbols.map Symbol.name

theorem Extends.of_newestFirst_eq (hsame : after.newestFirst = before.newestFirst) :
    before.Extends after := by
  constructor
  · rw [size, size, hsame]
  · intro id scope hscope
    refine ⟨scope, ?_, rfl, rfl, List.prefix_rfl⟩
    rwa [scope?, hsame]

theorem Extends.trans (hfirst : before.Extends middle) (hsecond : middle.Extends after) :
    before.Extends after := by
  constructor
  · exact Nat.le_trans hfirst.size_le hsecond.size_le
  · intro id scope hscope
    obtain ⟨later, hlater, hparent, hkind, hnames⟩ := hfirst.kept id scope hscope
    obtain ⟨last, hlast, hsameParent, hsameKind, hmore⟩ := hsecond.kept id later hlater
    exact ⟨last, hlast, hsameParent.trans hparent, hsameKind.trans hkind, hnames.trans hmore⟩

theorem extends_bindIn (tree : ScopeTree) (id : ScopeId) (symbol : Symbol) :
    tree.Extends (tree.bindIn id symbol) := by
  constructor
  · simp
  · intro other scope hscope
    rw [scope?_bindIn, hscope, Option.map_some]
    refine ⟨_, rfl, ?_⟩
    split
    · exact ⟨rfl, rfl, scope.names_prefix_bind symbol⟩
    · exact ⟨rfl, rfl, List.prefix_rfl⟩

theorem Change.extends (hchange : tree.Change after) (hwell : tree.WellFormed) :
    tree.Extends after := by
  cases hchange with
  | hosts hosts => exact .of_newestFirst_eq rfl
  | closed => exact .of_newestFirst_eq (newestFirst_exit tree)
  | here symbol => exact extends_bindIn tree _ symbol
  | outer symbol => exact extends_bindIn tree _ symbol
  | opened kind =>
    constructor
    · simp
    · intro id scope hscope
      refine ⟨scope, ?_, rfl, rfl, List.prefix_rfl⟩
      rwa [scope?_enter_of_lt kind (hwell.lt_of_scope? hscope)]

theorem WellFormed.extends_performAll (hwell : tree.WellFormed) (operations : List Operation) :
    tree.Extends (tree.performAll operations) := by
  induction operations generalizing tree with
  | nil => exact .of_newestFirst_eq rfl
  | cons operation more ih =>
    have hchange := tree.change_perform operation
    exact (hchange.extends hwell).trans (ih (hchange.wellFormed hwell))

theorem WellFormed.grows_performAll (hwell : tree.WellFormed) (operations : List Operation) :
    tree.Grows (tree.performAll operations) := by
  induction operations generalizing tree with
  | nil => exact .refl tree
  | cons operation more ih =>
    have hchange := tree.change_perform operation
    exact (hchange.grows hwell).trans (ih (hchange.wellFormed hwell))

/-! ### Declared names and names of the host -/

/-- A declared name is found in its scope, and is not hoisted. -/
theorem WellFormed.own?_declare (hwell : tree.WellFormed) (name : String) (kind : SymbolKind)
    (place : Position) :
    (tree.declare name kind place).own? tree.current name = some ⟨name, kind, place, false⟩ := by
  obtain ⟨scope, hscope⟩ := hwell.exists_scope? hwell.current_lt
  rw [declare, own?_bindIn (by simp [hscope])]
  simp

theorem hosts_assign (tree : ScopeTree) (name : String) (place : Position) (isLocal : Bool) :
    (tree.assign name place isLocal).hosts = tree.hosts := by
  simp only [assign]
  split
  · split <;> rfl
  · split <;> rfl

theorem hosts_exit (tree : ScopeTree) : tree.exit.hosts = tree.hosts := by
  unfold exit
  split <;> rfl

/-- What the host provides stays provided. -/
theorem hostKind?_perform (hprovided : (tree.hostKind? name).isSome) (operation : Operation) :
    ((tree.perform operation).hostKind? name).isSome := by
  cases operation with
  | enter kind => exact hprovided
  | exit => rwa [perform, hostKind?, hosts_exit]
  | assign other place isLocal => rwa [perform, hostKind?, hosts_assign]
  | declare other kind place => exact hprovided
  | declareHost other kind =>
    by_cases hname : name = other
    · simp [perform, declareHost, hostKind?, hname]
    · have hdiff : (name == other) = false := by simpa using hname
      simpa [perform, declareHost, hostKind?, List.lookup_cons, hdiff] using hprovided

theorem hostKind?_performAll (hprovided : (tree.hostKind? name).isSome)
    (operations : List Operation) : ((tree.performAll operations).hostKind? name).isSome := by
  induction operations generalizing tree with
  | nil => exact hprovided
  | cons operation more ih => exact ih (hostKind?_perform hprovided operation)

/-- Assigning to a name of the host binds nothing, unless it is asked to be local. -/
theorem assign_of_hostKind? (hprovided : (tree.hostKind? name).isSome) (place : Position) :
    tree.assign name place false = tree := by
  simp [assign, hprovided]

/-! ### The way outwards -/

/-- The scopes met on going from a scope to its parent, and on to the parent of that one, until one
    has none. There is no answer if a number names no scope, or if `fuel` scopes do not suffice. -/
def outwards (tree : ScopeTree) : Nat → ScopeId → Option (List Scope)
  | 0, _ => none
  | fuel + 1, id =>
    (tree.scope? id).bind fun scope =>
      match scope.parent with
      | none => some [scope]
      | some parent => (tree.outwards fuel parent).map (scope :: ·)

/-- Going outwards from a scope meets no more scopes than its number counts, itself not counted, and
    they are the ones among which names are looked up. -/
theorem WellFormed.outwards_eq_chainFrom (hwell : tree.WellFormed) {fuel : Nat}
    (hid : id < tree.size) (hfuel : id < fuel) :
    tree.outwards fuel id = some (tree.chainFrom id) := by
  induction fuel generalizing id with
  | zero => exact absurd hfuel (Nat.not_lt_zero id)
  | succ fuel ih =>
    obtain ⟨scope, hscope⟩ := hwell.exists_scope? hid
    have hchain := hwell.chainFrom_of_scope? hscope
    cases hparent : scope.parent with
    | none =>
      rw [hparent] at hchain
      simp [outwards, hscope, hparent, hchain]
    | some parent =>
      have hlt := hwell.parent_lt hscope hparent
      have hrest := ih (Nat.lt_trans hlt hid) (Nat.lt_of_lt_of_le hlt (Nat.le_of_lt_succ hfuel))
      rw [hparent] at hchain
      simp [outwards, hscope, hparent, hchain, hrest]

/-! ### Runs from the start -/

/-- After any operations the tree is ordered, and further ones only extend it. A name that is
    declared stays in the scope that was open then and is never hoisted there again; a name of the
    host is not bound any more by an assignment that is not local; and the way outwards from every
    scope comes to an end, with a function's scope on it. -/
theorem ordered_performAll (operations more : List Operation) :
    let tree := start.performAll operations
    tree.Ordered ∧ tree.Extends (tree.performAll more) ∧
      (∀ name kind place, ∃ own,
        ((tree.declare name kind place).performAll more).own? tree.current name = some own ∧
          own.hoisted = false) ∧
      (∀ name kind place,
        let later := (tree.declareHost name kind).performAll more
        later.assign name place false = later) ∧
      ∀ id < tree.size, (∀ fuel > id, tree.outwards fuel id = some (tree.chainFrom id)) ∧
        ∃ scope ∈ tree.chainFrom id, scope.kind = .function := by
  intro tree
  have hwell : tree.WellFormed := wellFormed_start.performAll operations
  refine ⟨hwell.ordered, hwell.extends_performAll more, ?_, ?_, ?_⟩
  · intro name kind place
    have hdeclared := (tree.change_declare name kind place).wellFormed hwell
    exact (hdeclared.grows_performAll more).declared tree.current name _
      (hwell.own?_declare name kind place) rfl
  · intro name kind place
    apply assign_of_hostKind?
    apply hostKind?_performAll
    simp [declareHost, hostKind?]
  · intro id hid
    exact ⟨fun fuel hfuel => hwell.outwards_eq_chainFrom hid hfuel,
      hwell.exists_function_mem_chainFrom hid⟩

/-- A name is hoisted, opened over and closed again, declared at the root, and asked to be hoisted
    there once more. -/
theorem ordered_performAll_rebound :
    let tree := start.performAll
      [.assign "x" ⟨0, 0, 0⟩ false, .enter .block, .assign "x" ⟨4, 0, 4⟩ true, .exit, .exit]
    let more := [.assign "x" ⟨8, 0, 8⟩ true]
    1 < tree.size ∧ 1 < 2 ∧ tree.Ordered ∧ tree.Extends (tree.performAll more) ∧
      (∃ own, ((tree.declare "x" .variable ⟨6, 0, 6⟩).performAll more).own? tree.current "x" =
        some own ∧ own.hoisted = false) ∧
      tree.outwards 2 1 = some (tree.chainFrom 1) := by
  intro tree more
  have hsize : 1 < tree.size := by decide
  obtain ⟨hordered, hextends, hdeclared, -, houtwards⟩ := ordered_performAll
    [.assign "x" ⟨0, 0, 0⟩ false, .enter .block, .assign "x" ⟨4, 0, 4⟩ true, .exit, .exit] more
  exact ⟨hsize, by decide, hordered, hextends, hdeclared "x" .variable ⟨6, 0, 6⟩,
    (houtwards 1 hsize).1 2 (by decide)⟩

end ScopeTree

end KaLang
