import KaLang.Proofs.Scope.Operations

/-!
What an assignment does to a scope tree, in full. It leaves the tree as it is or gives one scope
other symbols (`ScopeTree.withSymbols`), and nothing else; which scope that is, and what its symbols
are then, is told by the names that are known where the assignment stands
(`ScopeTree.assign_performAll`). Looking up any other name gives what it gave before, from every
scope.
-/

namespace KaLang

namespace Symbol

variable {symbols ahead behind : List Symbol} {symbol own : Symbol}

/-- A new name is put behind all others. -/
theorem put_of_not_mem (hnew : ∀ other ∈ symbols, other.name ≠ symbol.name) :
    put symbols symbol = symbols ++ [symbol] := by
  induction symbols with
  | nil => rfl
  | cons other more ih =>
    obtain ⟨hother, hmore⟩ := List.forall_mem_cons.mp hnew
    rw [put, if_neg hother, ih hmore, List.cons_append]

/-- A name that is put again is replaced at its place. -/
theorem put_of_mem (hahead : ∀ other ∈ ahead, other.name ≠ symbol.name)
    (hown : own.name = symbol.name) :
    put (ahead ++ own :: behind) symbol = ahead ++ symbol :: behind := by
  induction ahead with
  | nil => rw [List.nil_append, put, if_pos hown, List.nil_append]
  | cons other more ih =>
    obtain ⟨hother, hmore⟩ := List.forall_mem_cons.mp hahead
    rw [List.cons_append, put, if_neg hother, ih hmore, List.cons_append]

end Symbol

theorem Scope.get?_eq_none_iff {scope : Scope} {name : String} :
    scope.get? name = none ↔ ∀ symbol ∈ scope.symbols, symbol.name ≠ name := by
  simp [get?, List.find?_eq_none]

/-- A scope that has a symbol for a name has none for it ahead of that one. -/
theorem Scope.exists_symbols_eq {scope : Scope} {name : String} {own : Symbol}
    (hown : scope.get? name = some own) :
    ∃ ahead behind, scope.symbols = ahead ++ own :: behind ∧
      own.name = name ∧ ∀ other ∈ ahead, other.name ≠ name := by
  obtain ⟨hname, ahead, behind, hsymbols, hahead⟩ := List.find?_eq_some_iff_append.mp hown
  exact ⟨ahead, behind, hsymbols, by simpa using hname, by simpa using hahead⟩

namespace ScopeTree

variable {tree : ScopeTree} {id : ScopeId} {scope : Scope} {symbol : Symbol} {name : String}

/-- The tree with other symbols in one of its scopes. -/
def withSymbols (tree : ScopeTree) (id : ScopeId) (symbols : List Symbol) : ScopeTree :=
  { tree with
    newestFirst :=
      tree.newestFirst.map fun scope => if scope.id = id then { scope with symbols } else scope }

/-! ### Binding one symbol -/

theorem WellFormed.bindIn_eq_withSymbols (hwell : tree.WellFormed)
    (hscope : tree.scope? id = some scope) (symbol : Symbol) :
    tree.bindIn id symbol = tree.withSymbols id (Symbol.put scope.symbols symbol) := by
  have hchange : ∀ other ∈ tree.newestFirst,
      (if other.id = id then other.bind symbol else other) =
        if other.id = id then { other with symbols := Symbol.put scope.symbols symbol }
        else other := by
    intro other hother
    split
    · next hid =>
      have hsame := hwell.scope?_id hother
      rw [hid, hscope] at hsame
      cases hsame
      rfl
    · rfl
  rw [bindIn, withSymbols, List.map_congr_left hchange]

theorem chainFrom_bindIn (tree : ScopeTree) (id : ScopeId) (symbol : Symbol) (start : ScopeId) :
    (tree.bindIn id symbol).chainFrom start =
      (tree.chainFrom start).map fun scope =>
        if scope.id = id then scope.bind symbol else scope :=
  Scope.chain_map _ _ (by intro scope; split <;> rfl) (by intro scope; split <;> rfl) start

/-- A name is looked up in the scopes as they were, but for the one scope and the one name. -/
theorem lookupFrom_bindIn (tree : ScopeTree) (id : ScopeId) (symbol : Symbol) (start : ScopeId)
    (name : String) :
    (tree.bindIn id symbol).lookupFrom start name =
      (tree.chainFrom start).findSome? fun scope =>
        if scope.id = id ∧ symbol.name = name then some symbol else scope.get? name := by
  rw [lookupFrom, chainFrom_bindIn, List.findSome?_map]
  refine congrArg (List.findSome? · (tree.chainFrom start)) (funext fun scope => ?_)
  by_cases hid : scope.id = id <;> simp [hid, Scope.get?_bind]

/-- Binding a symbol does not change what another name stands for. -/
theorem lookupFrom_bindIn_of_ne (hname : name ≠ symbol.name) (id start : ScopeId) :
    (tree.bindIn id symbol).lookupFrom start name = tree.lookupFrom start name := by
  rw [lookupFrom_bindIn]
  simp [lookupFrom, Ne.symm hname]

/-- Nor does it change anything where the scope is not on the way outwards. -/
theorem lookupFrom_bindIn_of_not_mem_path {start : ScopeId} (hoff : id ∉ tree.path start)
    (symbol : Symbol) (name : String) :
    (tree.bindIn id symbol).lookupFrom start name = tree.lookupFrom start name := by
  have hchain : (tree.bindIn id symbol).chainFrom start = tree.chainFrom start := by
    rw [chainFrom_bindIn]
    refine (List.map_congr_left fun scope hscope => ?_).trans (List.map_id _)
    have hid : scope.id ≠ id := fun heq => hoff (heq ▸ List.mem_map_of_mem hscope)
    rw [if_neg hid, id_eq]
  rw [lookupFrom, hchain, lookupFrom]

/-- A new name stands for the symbol that is bound to it on the way outwards. -/
theorem lookupFrom_bindIn_self {start : ScopeId} (hon : id ∈ tree.path start)
    (hfree : tree.lookupFrom start symbol.name = none) :
    (tree.bindIn id symbol).lookupFrom start symbol.name = some symbol := by
  obtain ⟨scope, hscope, hid⟩ := List.mem_map.mp hon
  have hnone := List.findSome?_eq_none_iff.mp hfree
  have hfound : ((tree.chainFrom start).findSome? fun other =>
      if other.id = id ∧ symbol.name = symbol.name then some symbol
      else other.get? symbol.name).isSome := by
    refine List.findSome?_isSome_iff.mpr ⟨scope, hscope, ?_⟩
    rw [if_pos ⟨hid, rfl⟩]
    rfl
  obtain ⟨found, hfound⟩ := Option.isSome_iff_exists.mp hfound
  rw [lookupFrom_bindIn, hfound]
  obtain ⟨other, hother, heq⟩ := List.exists_of_findSome?_eq_some hfound
  split at heq
  · exact heq.symm
  · rw [hnone other hother] at heq
    cases heq

/-! ### Assignments that are not local -/

theorem assign_of_known (hknown : (tree.hostKind? name).isSome ∨ (tree.lookup name).isSome)
    (place : Position) : tree.assign name place false = tree := by
  simp [assign, hknown]

theorem assign_of_unknown (hhost : tree.hostKind? name = none) (hfree : tree.lookup name = none)
    (place : Position) : tree.assign name place false =
      tree.bindIn tree.functionScope ⟨name, .variable, place, true⟩ := by
  simp [assign, hhost, hfree]

/-- The function's scope is the first one of that kind on the way outwards. -/
theorem WellFormed.exists_functionScope (hwell : tree.WellFormed) :
    ∃ inner scope outer, tree.chainFrom tree.current = inner ++ scope :: outer ∧
      scope.kind = .function ∧ (∀ skipped ∈ inner, skipped.kind ≠ .function) ∧
      tree.functionScope = scope.id := by
  obtain ⟨function, hmem, hkind⟩ := hwell.exists_function_mem_chainFrom hwell.current_lt
  have hsome : ((tree.chainFrom tree.current).find? fun scope =>
      scope.kind = .function).isSome := by
    rw [List.find?_isSome]
    exact ⟨function, hmem, by simp [hkind]⟩
  obtain ⟨scope, hfind⟩ := Option.isSome_iff_exists.mp hsome
  have hid : tree.functionScope = scope.id := by simp [functionScope, hfind]
  obtain ⟨hfunction, inner, outer, hchain, hinner⟩ := List.find?_eq_some_iff_append.mp hfind
  exact ⟨inner, scope, outer, hchain, by simpa using hfunction, by simpa using hinner, hid⟩

/-- A name that is not known is bound as the last one of the function's scope. -/
theorem WellFormed.assign_of_unknown (hwell : tree.WellFormed) (hhost : tree.hostKind? name = none)
    (hfree : tree.lookup name = none) (place : Position) {inner outer : List Scope}
    (hchain : tree.chainFrom tree.current = inner ++ scope :: outer)
    (hid : tree.functionScope = scope.id) :
    tree.assign name place false =
      tree.withSymbols scope.id (scope.symbols ++ [⟨name, .variable, place, true⟩]) := by
  have hmem : scope ∈ tree.chainFrom tree.current := by simp [hchain]
  have hscope := hwell.scope?_of_mem_chainFrom hwell.current_lt hmem
  have hnew := Scope.get?_eq_none_iff.mp (List.findSome?_eq_none_iff.mp hfree scope hmem)
  rw [ScopeTree.assign_of_unknown hhost hfree, hid, hwell.bindIn_eq_withSymbols hscope,
    Symbol.put_of_not_mem hnew]

/-! ### Local assignments -/

theorem assign_of_declared {own : Symbol} (hown : tree.own? tree.current name = some own)
    (hdeclared : own.hoisted = false) (place : Position) :
    tree.assign name place true = tree := by
  obtain ⟨ownName, kind, definedAt, hoisted⟩ := own
  cases hdeclared
  rw [own?] at hown
  simp [assign, hown]

/-- A name that the current scope does not declare is bound in it, whatever else it stands for. -/
theorem assign_of_not_declared
    (hown : ∀ own, tree.own? tree.current name = some own → own.hoisted = true)
    (place : Position) : tree.assign name place true =
      tree.bindIn tree.current ⟨name, .variable, place, true⟩ := by
  rw [assign, if_pos rfl]
  split
  · next ownName kind definedAt hsome =>
    exact absurd (hown _ hsome) Bool.false_ne_true
  · rfl

/-! ### Every assignment -/

/-- An assignment leaves the tree alone, or binds its name in the scope to which it writes. -/
theorem assign_eq_or (tree : ScopeTree) (name : String) (place : Position) (isLocal : Bool) :
    tree.assign name place isLocal = tree ∨
      tree.assign name place isLocal =
        tree.bindIn (if isLocal then tree.current else tree.functionScope)
          ⟨name, .variable, place, true⟩ := by
  cases isLocal with
  | true =>
    simp only [assign, ↓reduceIte]
    split
    · exact .inl rfl
    · exact .inr rfl
  | false =>
    simp only [assign, Bool.false_eq_true, ↓reduceIte]
    split
    · exact .inl rfl
    · exact .inr rfl

theorem lookupFrom_assign_of_ne {other : String} (hother : other ≠ name) (place : Position)
    (isLocal : Bool) (start : ScopeId) :
    (tree.assign name place isLocal).lookupFrom start other = tree.lookupFrom start other := by
  rcases tree.assign_eq_or name place isLocal with heq | heq
  · rw [heq]
  · rw [heq]
    exact lookupFrom_bindIn_of_ne hother _ start

theorem lookupFrom_assign_of_not_mem_path (isLocal : Bool) {start : ScopeId}
    (hoff : (if isLocal then tree.current else tree.functionScope) ∉ tree.path start)
    (name : String) (place : Position) (other : String) :
    (tree.assign name place isLocal).lookupFrom start other = tree.lookupFrom start other := by
  rcases tree.assign_eq_or name place isLocal with heq | heq
  · rw [heq]
  · rw [heq]
    exact lookupFrom_bindIn_of_not_mem_path hoff _ other

/-- What an assignment does after any operations. One that is not local leaves the tree alone if the
    name is known, to the host or to a scope on the way outwards. Otherwise it adds the name to the
    symbols of the first function's scope on that way, past all scopes of blocks and classes, and
    the name stands for the new symbol from then on. A local one leaves the tree alone if the
    current scope declares the name. Otherwise it adds the name to the symbols of the current scope,
    or replaces its symbol there, whatever the name stands for. No other name is looked up with
    another result, from no scope, and neither is this one where the scope that is written is not
    on the way outwards. -/
theorem assign_performAll (operations : List Operation) (name : String) (place : Position) :
    let tree := start.performAll operations
    let symbol : Symbol := ⟨name, .variable, place, true⟩
    ((tree.hostKind? name).isSome ∨ (tree.lookup name).isSome →
      tree.assign name place false = tree) ∧
    (tree.hostKind? name = none → tree.lookup name = none →
      ∃ inner scope outer, tree.chainFrom tree.current = inner ++ scope :: outer ∧
        scope.kind = .function ∧ (∀ skipped ∈ inner, skipped.kind ≠ .function) ∧
        tree.assign name place false = tree.withSymbols scope.id (scope.symbols ++ [symbol]) ∧
        (tree.assign name place false).lookup name = some symbol ∧
        ∀ id, scope.id ∉ tree.path id →
          (tree.assign name place false).lookupFrom id name = tree.lookupFrom id name) ∧
    (∃ scope, tree.scope? tree.current = some scope ∧
      ((∃ own, scope.get? name = some own ∧ own.hoisted = false) →
        tree.assign name place true = tree) ∧
      (scope.get? name = none →
        tree.assign name place true = tree.withSymbols scope.id (scope.symbols ++ [symbol])) ∧
      ∀ own, scope.get? name = some own → own.hoisted = true →
        ∃ ahead behind, scope.symbols = ahead ++ own :: behind ∧
          tree.assign name place true = tree.withSymbols scope.id (ahead ++ symbol :: behind)) ∧
    (∀ id, tree.current ∉ tree.path id →
      (tree.assign name place true).lookupFrom id name = tree.lookupFrom id name) ∧
    ∀ isLocal id other, other ≠ name →
      (tree.assign name place isLocal).lookupFrom id other = tree.lookupFrom id other := by
  intro tree symbol
  have hwell : tree.WellFormed := wellFormed_start.performAll operations
  refine ⟨fun hknown => assign_of_known hknown place, ?_, ?_, ?_, ?_⟩
  · intro hhost hfree
    obtain ⟨inner, scope, outer, hchain, hkind, hinner, hid⟩ := hwell.exists_functionScope
    refine ⟨inner, scope, outer, hchain, hkind, hinner,
      hwell.assign_of_unknown hhost hfree place hchain hid, ?_, fun id hoff => ?_⟩
    · rw [ScopeTree.assign_of_unknown hhost hfree]
      exact lookupFrom_bindIn_self hwell.functionScope_spec.1 hfree
    · exact lookupFrom_assign_of_not_mem_path false (hid ▸ hoff) name place name
  · obtain ⟨scope, hscope⟩ := hwell.exists_scope? hwell.current_lt
    have hid := id_of_scope? hscope
    have hown := own?_of_scope? hscope name
    refine ⟨scope, hscope, ?_, fun hnew => ?_, fun own hsome hhoisted => ?_⟩
    · rintro ⟨own, hsome, hdeclared⟩
      exact assign_of_declared (hown.trans hsome) hdeclared place
    · have hnone : ∀ own, tree.own? tree.current name = some own → own.hoisted = true := by
        simp [hown, hnew]
      rw [assign_of_not_declared hnone, hwell.bindIn_eq_withSymbols hscope, hid,
        Symbol.put_of_not_mem (Scope.get?_eq_none_iff.mp hnew)]
    · obtain ⟨ahead, behind, hsymbols, hname, hahead⟩ := Scope.exists_symbols_eq hsome
      have honly : ∀ own, tree.own? tree.current name = some own → own.hoisted = true := by
        simpa [hown, hsome] using hhoisted
      refine ⟨ahead, behind, hsymbols, ?_⟩
      rw [assign_of_not_declared honly, hwell.bindIn_eq_withSymbols hscope, hid, hsymbols,
        Symbol.put_of_mem hahead hname]
  · exact fun id hoff => lookupFrom_assign_of_not_mem_path true hoff name place name
  · exact fun isLocal id other hother => lookupFrom_assign_of_ne hother place isLocal id

/-- In a block of a class's body in a function, a new name goes past both scopes to the function,
    and a name of the block is replaced there. -/
theorem assign_performAll_nested :
    let tree := start.performAll
      [.enter .function, .declare "a" .variable ⟨0, 0, 0⟩, .enter .classBody, .enter .block,
        .assign "b" ⟨4, 0, 4⟩ true]
    let symbol : Symbol := ⟨"x", .variable, ⟨8, 0, 8⟩, true⟩
    tree.hostKind? "x" = none ∧ tree.lookup "x" = none ∧ 3 ∉ tree.path 2 ∧
      tree.assign "x" ⟨8, 0, 8⟩ false =
        tree.withSymbols 1 [⟨"a", .variable, ⟨0, 0, 0⟩, false⟩, symbol] ∧
      (tree.assign "x" ⟨8, 0, 8⟩ false).lookup "x" = some symbol ∧
      tree.assign "b" ⟨8, 0, 8⟩ true =
        tree.withSymbols 3 [⟨"b", .variable, ⟨8, 0, 8⟩, true⟩] ∧
      (tree.assign "b" ⟨8, 0, 8⟩ true).lookupFrom 2 "b" = tree.lookupFrom 2 "b" := by
  intro tree symbol
  have hhost : tree.hostKind? "x" = none := by decide
  have hfree : tree.lookup "x" = none := by decide
  have hoff : 3 ∉ tree.path 2 := by decide
  have hx := assign_performAll [.enter .function, .declare "a" .variable ⟨0, 0, 0⟩,
    .enter .classBody, .enter .block, .assign "b" ⟨4, 0, 4⟩ true] "x" ⟨8, 0, 8⟩
  have hb := assign_performAll [.enter .function, .declare "a" .variable ⟨0, 0, 0⟩,
    .enter .classBody, .enter .block, .assign "b" ⟨4, 0, 4⟩ true] "b" ⟨8, 0, 8⟩
  obtain ⟨-, hunknown, -, -, -⟩ := hx
  obtain ⟨-, -, ⟨scope, hscope, -, -, hreplaced⟩, hframe, -⟩ := hb
  obtain ⟨-, -, -, -, -, -, -, hlookup, -⟩ := hunknown hhost hfree
  refine ⟨hhost, hfree, hoff, by decide, hlookup, ?_, hframe 2 hoff⟩
  obtain rfl : scope = ⟨3, some 2, .block, [⟨"b", .variable, ⟨4, 0, 4⟩, true⟩]⟩ :=
    Option.some.inj (hscope.symm.trans (by decide))
  obtain ⟨ahead, behind, hsymbols, hassign⟩ := hreplaced ⟨"b", .variable, ⟨4, 0, 4⟩, true⟩
    (by decide) rfl
  cases ahead with
  | nil =>
    cases hsymbols
    exact hassign
  | cons other more =>
    simp at hsymbols

end ScopeTree

end KaLang
