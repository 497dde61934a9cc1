import KaLang.Scope.Tree

/-!
Well-formed scope trees. The scopes of such a tree are numbered in the order of opening and every
parent is older than its children, so the way outwards from a scope is given by one equation
(`chainFrom_of_scope?`), and facts about it are proved by strong induction on the scope's number.
-/

namespace KaLang

namespace Symbol

/-- Putting a symbol changes what is found under its own name, and nothing else. -/
theorem find?_put (symbols : List Symbol) (symbol : Symbol) (name : String) :
    (put symbols symbol).find? (fun other => other.name = name) =
      if symbol.name = name then some symbol
      else symbols.find? fun other => other.name = name := by
  induction symbols with
  | nil => by_cases hname : symbol.name = name <;> simp [put, hname]
  | cons other more ih =>
    by_cases hother : other.name = symbol.name
    · by_cases hname : symbol.name = name <;> simp [put, hother, hname]
    · by_cases hname : symbol.name = name
      · have hdiff : other.name ≠ name := hname ▸ hother
        simp [put, ih, hname, hdiff]
      · simp [put, hother, List.find?_cons, ih, hname]

/-- A name that is put again keeps its place; a new one comes last. -/
theorem map_name_put (symbols : List Symbol) (symbol : Symbol) :
    (put symbols symbol).map name =
      if symbol.name ∈ symbols.map name then symbols.map name
      else symbols.map name ++ [symbol.name] := by
  induction symbols with
  | nil => simp [put]
  | cons other more ih =>
    by_cases hother : other.name = symbol.name
    · simp [put, hother]
    · have hsymbol : symbol.name ≠ other.name := fun h => hother h.symm
      by_cases hmem : symbol.name ∈ more.map name
      · simp [put, hother, ih, hmem]
      · simp [put, hother, ih, hmem, hsymbol]

theorem nodup_map_name_put {symbols : List Symbol} (hdistinct : (symbols.map name).Nodup)
    (symbol : Symbol) : ((put symbols symbol).map name).Nodup := by
  rw [map_name_put]
  split
  · exact hdistinct
  · next hnew =>
    refine List.nodup_append.mpr ⟨hdistinct, by simp, ?_⟩
    intro old hold new hmem heq
    rw [List.mem_singleton.mp hmem] at heq
    exact hnew (heq ▸ hold)

end Symbol

namespace Scope

theorem get?_bind (scope : Scope) (symbol : Symbol) (name : String) :
    (scope.bind symbol).get? name =
      if symbol.name = name then some symbol else scope.get? name :=
  Symbol.find?_put scope.symbols symbol name

/-- What stands in an arena, newest first: the program's scope is the oldest, every other scope
    is opened inside an older one, and no scope has two symbols of one name. -/
inductive Arena : List Scope → Prop where
  | root (symbols : List Symbol) (hdistinct : (symbols.map Symbol.name).Nodup) :
      Arena [⟨0, none, .function, symbols⟩]
  | opened {older : List Scope} (parent : ScopeId) (kind : ScopeKind) (symbols : List Symbol)
      (holder : Arena older) (hparent : parent < older.length)
      (hdistinct : (symbols.map Symbol.name).Nodup) :
      Arena (⟨older.length, some parent, kind, symbols⟩ :: older)

namespace Arena

variable {scopes : List Scope}

/-- What is so of every scope of an arena. The one scope that is inside no other is a function's. -/
theorem spec_of_mem (harena : Arena scopes) {scope : Scope} (hscope : scope ∈ scopes) :
    scope.id < scopes.length ∧ (scope.symbols.map Symbol.name).Nodup ∧
      scope.parent.elim (scope.kind = .function) (· < scope.id) := by
  induction harena with
  | root symbols hdistinct =>
    obtain rfl := List.mem_singleton.mp hscope
    exact ⟨Nat.zero_lt_one, hdistinct, rfl⟩
  | opened parent kind symbols _ hparent hdistinct ih =>
    rcases List.mem_cons.mp hscope with rfl | hold
    · exact ⟨Nat.lt_succ_self _, hdistinct, hparent⟩
    · obtain ⟨hlt, hspec⟩ := ih hold
      exact ⟨Nat.lt_succ_of_lt hlt, hspec⟩

theorem id_lt (harena : Arena scopes) {scope : Scope} (hscope : scope ∈ scopes) :
    scope.id < scopes.length :=
  (harena.spec_of_mem hscope).1

theorem distinct (harena : Arena scopes) {scope : Scope} (hscope : scope ∈ scopes) :
    (scope.symbols.map Symbol.name).Nodup :=
  (harena.spec_of_mem hscope).2.1

theorem parent_lt (harena : Arena scopes) {scope : Scope} (hscope : scope ∈ scopes)
    {parent : ScopeId} (hparent : scope.parent = some parent) : parent < scope.id := by
  have hinside := (harena.spec_of_mem hscope).2.2
  rwa [hparent] at hinside

theorem kind_of_parent_none (harena : Arena scopes) {scope : Scope} (hscope : scope ∈ scopes)
    (hparent : scope.parent = none) : scope.kind = .function := by
  have hinside := (harena.spec_of_mem hscope).2.2
  rwa [hparent] at hinside

theorem exists_find? (harena : Arena scopes) {id : ScopeId} (hid : id < scopes.length) :
    ∃ scope, scopes.find? (fun scope => scope.id = id) = some scope := by
  induction harena with
  | root symbols =>
    have hzero : id = 0 := by simpa using hid
    subst hzero
    exact ⟨_, rfl⟩
  | @opened older parent kind symbols _ _ _ ih =>
    by_cases hlast : older.length = id
    · exact ⟨_, by simp [hlast]; rfl⟩
    · have hlt : id < older.length := Nat.lt_of_le_of_ne (Nat.le_of_lt_succ hid) (Ne.symm hlast)
      obtain ⟨scope, hfind⟩ := ih hlt
      exact ⟨scope, by simp [hlast, hfind]⟩

/-- A scope is found under its number. -/
theorem find?_id (harena : Arena scopes) {scope : Scope} (hscope : scope ∈ scopes) :
    scopes.find? (fun other => other.id = scope.id) = some scope := by
  induction harena with
  | root symbols => simp_all
  | @opened older parent kind symbols holder _ _ ih =>
    rcases List.mem_cons.mp hscope with rfl | hold
    · simp
    · have hdiff : older.length ≠ scope.id := Nat.ne_of_gt (holder.id_lt hold)
      simp [hdiff, ih hold]

/-- The equation of the way outwards. That only older scopes are searched for a parent makes no
    difference, because no other scope can be one. -/
theorem chain_eq (harena : Arena scopes) (id : ScopeId) :
    chain scopes id =
      match scopes.find? fun scope => scope.id = id with
      | none => []
      | some scope => scope :: scope.parent.elim [] (chain scopes) := by
  induction harena generalizing id with
  | root symbols =>
    by_cases hid : (0 : ScopeId) = id
    · subst hid
      rfl
    · simp [chain, hid]
  | @opened older parent kind symbols holder hparent _ ih =>
    by_cases hid : older.length = id
    · subst hid
      have hdiff : older.length ≠ parent := Nat.ne_of_gt hparent
      simp [chain, hdiff]
    · simp only [chain, hid, ↓reduceIte, List.find?_cons, decide_false]
      rw [ih id]
      cases hfind : older.find? fun scope => scope.id = id with
      | none => rfl
      | some scope =>
        cases hscope : scope.parent with
        | none => simp [hscope]
        | some outer =>
          have hmem := List.mem_of_find?_eq_some hfind
          have hlt := Nat.lt_trans (holder.parent_lt hmem hscope) (holder.id_lt hmem)
          have hdiff : older.length ≠ outer := Nat.ne_of_gt hlt
          simp [hscope, hdiff]

theorem map_bind (harena : Arena scopes) (id : ScopeId) (symbol : Symbol) :
    Arena (scopes.map fun scope => if scope.id = id then scope.bind symbol else scope) := by
  induction harena with
  | root symbols hdistinct =>
    by_cases hid : (0 : ScopeId) = id
    · simpa [hid, Scope.bind] using
        Arena.root (Symbol.put symbols symbol) (Symbol.nodup_map_name_put hdistinct symbol)
    · simpa [hid] using Arena.root symbols hdistinct
  | @opened older parent kind symbols _ hparent hdistinct ih =>
    have hlength : parent < (older.map fun scope =>
      if scope.id = id then scope.bind symbol else scope).length := by simpa using hparent
    by_cases hid : older.length = id
    · simpa [hid, Scope.bind] using Arena.opened parent kind (Symbol.put symbols symbol) ih
        hlength (Symbol.nodup_map_name_put hdistinct symbol)
    · simpa [hid] using Arena.opened parent kind symbols ih hlength hdistinct

end Arena

end Scope

end KaLang
