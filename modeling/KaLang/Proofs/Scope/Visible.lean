import KaLang.Proofs.Scope.Operations
import Mathlib.Data.List.Nodup

/-!
What is visible from a scope. Looking a name up goes outwards and stops at the first scope that has
it; what is visible is gathered on the whole way and told from the program's scope inwards. No scope
has two symbols of one name, so the two agree: a name stands for the last symbol of that name among
the visible ones (`ScopeTree.visibleFrom_performAll`).
-/

namespace KaLang

/-- Of symbols with distinct names, the one found for a name is the only one of that name. -/
theorem Symbol.find?_eq_some_iff {symbols : List Symbol}
    (hdistinct : (symbols.map Symbol.name).Nodup) {name : String} {symbol : Symbol} :
    symbols.find? (fun other => other.name = name) = some symbol ↔
      symbol ∈ symbols ∧ symbol.name = name := by
  constructor
  · intro hfind
    exact ⟨List.mem_of_find?_eq_some hfind, by simpa using List.find?_some hfind⟩
  · rintro ⟨hsymbol, rfl⟩
    have hsome : (symbols.find? fun other => other.name = symbol.name).isSome :=
      List.find?_isSome.mpr ⟨symbol, hsymbol, by simp⟩
    obtain ⟨found, hfind⟩ := Option.isSome_iff_exists.mp hsome
    have hname : found.name = symbol.name := by simpa using List.find?_some hfind
    rw [hfind, List.inj_on_of_nodup_map hdistinct (List.mem_of_find?_eq_some hfind) hsymbol hname]

/-- Where names are distinct, they are found from behind as they are from the front. -/
theorem Scope.find?_reverse {scope : Scope} (hdistinct : (scope.symbols.map Symbol.name).Nodup)
    (name : String) :
    scope.symbols.reverse.find? (fun symbol => symbol.name = name) = scope.get? name := by
  have hreverse : (scope.symbols.reverse.map Symbol.name).Nodup := by
    rw [List.map_reverse]
    exact List.nodup_reverse.mpr hdistinct
  ext symbol
  rw [get?, Symbol.find?_eq_some_iff hreverse, Symbol.find?_eq_some_iff hdistinct,
    List.mem_reverse]

namespace ScopeTree

variable {tree : ScopeTree} {id : ScopeId} {scope : Scope} {name : String} {symbol : Symbol}

namespace WellFormed

/-- What is visible from a scope is what is visible from the scope around it, and behind that its
    own symbols. -/
theorem visibleFrom_of_scope? (hwell : tree.WellFormed) (hscope : tree.scope? id = some scope) :
    tree.visibleFrom id = scope.parent.elim [] tree.visibleFrom ++ scope.symbols := by
  rw [visibleFrom, hwell.chainFrom_of_scope? hscope, List.reverse_cons, List.flatMap_append]
  cases scope.parent <;> simp [visibleFrom]

/-- Looking a name up is looking for it among the visible symbols, from the last one on. -/
theorem lookupFrom_eq_find?_reverse (hwell : tree.WellFormed) (hid : id < tree.size)
    (name : String) :
    tree.lookupFrom id name =
      (tree.visibleFrom id).reverse.find? fun symbol => symbol.name = name := by
  have hown : ∀ scope ∈ tree.chainFrom id,
      scope.symbols.reverse.find? (fun symbol => symbol.name = name) = scope.get? name := by
    intro scope hscope
    have hmem := mem_of_scope? (hwell.scope?_of_mem_chainFrom hid hscope)
    exact Scope.find?_reverse (hwell.arena.distinct hmem) name
  -- Turned around, what is visible is gathered from the inside out, each scope from its end.
  rw [visibleFrom, List.reverse_flatMap, List.reverse_reverse, List.find?_flatMap, lookupFrom]
  generalize tree.chainFrom id = chain at hown ⊢
  induction chain with
  | nil => rfl
  | cons scope outer ih =>
    obtain ⟨hscope, houter⟩ := List.forall_mem_cons.mp hown
    rw [List.findSome?_cons, List.findSome?_cons, Function.comp_apply, hscope, ih houter]

/-- A name stands for a symbol exactly if that is the last visible one of the name. -/
theorem lookupFrom_eq_some_iff (hwell : tree.WellFormed) (hid : id < tree.size) :
    tree.lookupFrom id name = some symbol ↔
      ∃ ahead behind, tree.visibleFrom id = ahead ++ symbol :: behind ∧ symbol.name = name ∧
        ∀ other ∈ behind, other.name ≠ name := by
  rw [hwell.lookupFrom_eq_find?_reverse hid, List.find?_eq_some_iff_append]
  constructor
  · rintro ⟨hname, behind, ahead, hvisible, hbehind⟩
    refine ⟨ahead.reverse, behind.reverse, ?_, by simpa using hname, by simpa using hbehind⟩
    rw [← List.reverse_reverse (tree.visibleFrom id), hvisible]
    simp
  · rintro ⟨ahead, behind, hvisible, hname, hbehind⟩
    exact ⟨by simpa using hname, behind.reverse, ahead.reverse, by simp [hvisible],
      by simpa using hbehind⟩

theorem lookupFrom_isSome_iff_visible (hwell : tree.WellFormed) (hid : id < tree.size)
    (name : String) :
    (tree.lookupFrom id name).isSome ↔ name ∈ (tree.visibleFrom id).map Symbol.name := by
  rw [hwell.lookupFrom_eq_find?_reverse hid, List.find?_isSome]
  simp

end WellFormed

/-- What is visible after any operations. A name stands for something exactly if a visible symbol
    has it, and then for the last one that does. What is visible from the scope around another comes
    first there, and the symbols of the inner one behind it; so the scopes that are met on going
    from parent to parent, each met once, have their symbols told from the outermost one inwards,
    each in its own order. -/
theorem visibleFrom_performAll (operations : List Operation) {id : ScopeId}
    (hid : id < (start.performAll operations).size) :
    let tree := start.performAll operations
    (∀ name, (tree.lookupFrom id name).isSome ↔ name ∈ (tree.visibleFrom id).map Symbol.name) ∧
    (∀ name symbol, tree.lookupFrom id name = some symbol ↔
      ∃ ahead behind, tree.visibleFrom id = ahead ++ symbol :: behind ∧ symbol.name = name ∧
        ∀ other ∈ behind, other.name ≠ name) ∧
    (∀ scope, tree.scope? id = some scope → ∀ parent, scope.parent = some parent →
      tree.visibleFrom id = tree.visibleFrom parent ++ scope.symbols) ∧
    ∃ chain, tree.outwards (id + 1) id = some chain ∧ (chain.map Scope.id).Nodup ∧
      tree.visibleFrom id = chain.reverse.flatMap Scope.symbols := by
  intro tree
  have hwell : tree.WellFormed := wellFormed_start.performAll operations
  refine ⟨hwell.lookupFrom_isSome_iff_visible hid, fun _ _ => hwell.lookupFrom_eq_some_iff hid,
    fun scope hscope parent hparent => ?_, tree.chainFrom id,
    hwell.outwards_eq_chainFrom hid (Nat.lt_succ_self id), ?_, rfl⟩
  · rw [hwell.visibleFrom_of_scope? hscope, hparent, Option.elim_some]
  · exact (hwell.pairwise_path hid).imp Nat.ne_of_gt

/-- A parameter of a function in which an inner block has a name of its own, and replaces it. -/
theorem visibleFrom_performAll_shadowed :
    let operations : List Operation :=
      [.assign "x" ⟨0, 0, 0⟩ false, .enter .function, .declare "y" .variable ⟨2, 0, 2⟩,
        .enter .block, .assign "x" ⟨4, 0, 4⟩ true, .assign "x" ⟨6, 0, 6⟩ true, .exit, .exit]
    let tree := start.performAll operations
    let outer : List Symbol :=
      [⟨"x", .variable, ⟨0, 0, 0⟩, true⟩, ⟨"y", .variable, ⟨2, 0, 2⟩, false⟩]
    let inner : Symbol := ⟨"x", .variable, ⟨6, 0, 6⟩, true⟩
    2 < tree.size ∧ tree.visibleFrom 2 = outer ++ [inner] ∧
      tree.lookupFrom 2 "x" = some inner ∧ tree.visibleFrom 1 <+: tree.visibleFrom 2 := by
  intro operations tree outer inner
  have hsize : 2 < tree.size := by decide
  have hvisible : tree.visibleFrom 2 = outer ++ [inner] := by decide
  have hscope : tree.scope? 2 = some ⟨2, some 1, .block, [inner]⟩ := by decide
  obtain ⟨-, hlast, hparent, -⟩ := visibleFrom_performAll operations hsize
  exact ⟨hsize, hvisible, (hlast "x" inner).mpr ⟨outer, [], hvisible, rfl, by simp⟩,
    ⟨[inner], (hparent _ hscope 1 rfl).symm⟩⟩

end ScopeTree

end KaLang
