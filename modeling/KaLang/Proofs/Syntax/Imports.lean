import KaLang.Proofs.Syntax.Throughout

/-!
The names that imports declare. They are no nodes of their own, but they stand one behind the other
inside their import (`Node.throughout_listsNames`).
-/

namespace KaLang

namespace Node

/-- Whether the names of an import stand one behind the other inside it. Nothing is asked of any
    other node. -/
def ListsNames (tokens : List Token) : Node → Prop
  | statement (.importDecl _ names _ span) =>
    (∃ rest, Stretch tokens rest (names.map fun name => .mark name.span)) ∧
      ∀ name ∈ names, name.span.Inside span
  | _ => True

end Node

variable {stop start : Span} {tokens all rest : List Token}

/-! ### Imports -/

/-- Names with separating tokens between them stand one behind the other. -/
theorem Reading.stretch_identifiersBy {separator : Token → Bool} {tokens rest : List Token}
    {name : Identifier} {names : List Identifier} {hrest : rest.length < tokens.length}
    (htokens : InOrder tokens)
    (hread : identifiersBy stop separator tokens = .ok ⟨(name, names), rest, hrest⟩) :
    Stretch tokens rest ((name :: names).map fun name => .mark name.span) := by
  rw [identifiersBy] at hread
  obtain ⟨⟨first, afterFirst, hlater⟩, hfirst, hread⟩ := Except.bind_eq_ok_iff.mp hread
  have hname : Portion.Placed tokens afterFirst (.mark first.span) :=
    between_of_identifier htokens hfirst
  dsimp only at hread
  split at hread
  · cases hread
    exact .single hname
  · next haccept =>
    obtain ⟨⟨⟨second, more⟩, _, _⟩, hmore, hread⟩ := Except.bind_eq_ok_iff.mp hread
    cases hread
    obtain ⟨rfl, _⟩ := eq_cons_of_accept haccept
    have hnames := stretch_identifiersBy (htokens.of_suffix hname.between.suffix).tail hmore
    exact .cons hname hnames.behind
termination_by tokens.length

/-- The names of an import that reaches from its opening word to the last of them. -/
theorem Node.listsNames_importDecl {source : List Identifier} {name : Identifier}
    {names : List Identifier} {kind : ImportKind} (hstart : start.Between all tokens)
    (hnames : Stretch tokens rest ((name :: names).map fun name => .mark name.span)) :
    ListsNames all (.statement (.importDecl source (name :: names) kind
      (start.through (names.getLast?.getD name).span))) := by
  have hportions : Stretch all rest
      (.mark start :: (name :: names).map fun name => .mark name.span) := .cons hstart hnames
  have hlast : (Portion.mark start :: (name :: names).map fun name => .mark name.span).getLast? =
      some (.mark (names.getLast?.getD name).span) := by
    cases names using List.reverseRecOn <;> simp [List.getLast?_cons]
  obtain ⟨-, hinside⟩ := hportions.ends rfl hlast
  refine ⟨⟨rest, hnames.mono hstart.suffix List.suffix_rfl⟩, fun name hname => ?_⟩
  exact hinside _ (List.mem_cons_of_mem _ (List.mem_map_of_mem hname))

namespace Parser

theorem listsNames_hostDecl {reading : Reading Statement tokens}
    (hread : hostDecl stop start tokens = .ok reading) :
    (Node.statement reading.value).ListsNames all := by
  unfold hostDecl at hread
  split at hread
  · obtain ⟨_, _, hread⟩ := Except.bind_eq_ok_iff.mp hread
    cases hread
    exact trivial
  · obtain ⟨_, _, hread⟩ := Except.bind_eq_ok_iff.mp hread
    cases hread
    exact trivial

theorem listsNames_importModule {reading : Reading Statement tokens} (htokens : InOrder tokens)
    (hread : importModule stop start tokens = .ok reading) (hstart : start.Between all tokens) :
    (Node.statement reading.value).ListsNames all := by
  obtain ⟨⟨⟨first, more⟩, rest, hrest⟩, hpath, hread⟩ := Except.bind_eq_ok_iff.mp hread
  cases hread
  have hlast : Portion.Placed tokens rest (.mark (more.getLast?.getD first).span) :=
    Reading.between_of_identifiersBy htokens hpath
  exact Node.listsNames_importDecl hstart (.single hlast)

theorem listsNames_importExports {reading : Reading Statement tokens} (htokens : InOrder tokens)
    (hread : importExports stop start tokens = .ok reading) (hstart : start.Between all tokens) :
    (Node.statement reading.value).ListsNames all := by
  obtain ⟨⟨⟨segment, segments⟩, afterPath, hafter⟩, hpath, hread⟩ := Except.bind_eq_ok_iff.mp hread
  obtain ⟨⟨word, afterWord, hafterWord⟩, hword, hread⟩ := Except.bind_eq_ok_iff.mp hread
  obtain ⟨rfl, _⟩ := Reading.eq_cons_of_keyword hword
  have hpath := Reading.between_of_identifiersBy htokens hpath
  have hwords := htokens.of_suffix hpath.suffix
  dsimp only at hread
  split at hread
  · next haccept =>
    obtain ⟨⟨name, rest, hrest⟩, hname, hread⟩ := Except.bind_eq_ok_iff.mp hread
    cases hread
    obtain ⟨rfl, _⟩ := Reading.eq_cons_of_accept haccept
    have hname : Portion.Placed _ rest (.mark name.span) :=
      Reading.between_of_identifier hwords.tail.tail hname
    have hnames := (Stretch.single hname).behind.behind.mono hpath.suffix List.suffix_rfl
    exact Node.listsNames_importDecl hstart hnames
  · obtain ⟨⟨⟨name, names⟩, rest, hrest⟩, hnames, hread⟩ := Except.bind_eq_ok_iff.mp hread
    cases hread
    have hnames := Reading.stretch_identifiersBy hwords.tail hnames
    exact Node.listsNames_importDecl hstart (hnames.behind.mono hpath.suffix List.suffix_rfl)

end Parser

theorem Node.throughout_listsNames (hall : InOrder all) : Throughout all (ListsNames all) where
  plain {node} hplain := by
    unfold ListsNames
    split
    · exact hplain.elim
    · trivial
  string _ _ := trivial
  object _ := trivial
  outside hstart hread := by
    rcases hread with hread | hread | hread
    · exact Parser.listsNames_hostDecl hread
    · exact Parser.listsNames_importModule (hall.of_suffix hstart.suffix) hread hstart
    · exact Parser.listsNames_importExports (hall.of_suffix hstart.suffix) hread hstart

end KaLang
