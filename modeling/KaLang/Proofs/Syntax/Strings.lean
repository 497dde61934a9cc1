import KaLang.Proofs.Syntax.Throughout

/-!
Where the strings of a syntax tree come from. A string that is an expression is the text of a
string token at the same place, and every key of an object is the text of a token
(`Program.quoted_of_ofSource`).
-/

namespace KaLang

namespace Node

/-- Whether the strings that a node is made of itself are those of tokens. -/
def Quoted (tokens : List Token) : Node → Prop
  | expression (.string value span) => ⟨.string, value, span⟩ ∈ tokens
  | expression (.object fields _) => ∀ field ∈ fields, ∃ token ∈ tokens, token.IsKey field.key
  | _ => True

theorem Quoted.mono {node : Node} {tokens more : List Token} (hnode : node.Quoted tokens)
    (htokens : tokens ⊆ more) : node.Quoted more := by
  unfold Quoted at hnode ⊢
  split
  · exact htokens hnode
  · exact fun field hfield => (hnode field hfield).imp fun _ htoken =>
      ⟨htokens htoken.1, htoken.2⟩
  · trivial

theorem throughout_quoted (all : List Token) : Throughout all (Quoted all) where
  plain {node} hplain := by
    unfold Quoted
    split
    · exact hplain.elim
    · exact hplain.elim
    · trivial
  string {token} htoken hkind :=
    show Token.mk .string token.text token.span ∈ all from hkind ▸ htoken
  object hkeys := hkeys
  outside _ _ := trivial

end Node

/-- The strings in a program that is read off a text are those of its tokens. -/
theorem Program.quoted_of_ofSource {source : String} {program : Program} {tokens : List Token}
    (htokens : tokenize source = .ok tokens) (hread : ofSource source = .ok program) :
    ∀ node, program.Holds node → node.Quoted tokens := by
  obtain ⟨same, hsame, hread⟩ := Except.bind_eq_ok_iff.mp hread
  rw [htokens] at hsame
  cases hsame
  obtain ⟨body, hreads, rfl⟩ := ofTokens_eq_ok_iff.mp hread
  have hsublist : (programTokens tokens).Sublist tokens := List.takeWhile_sublist _
  have horder := (inOrder_of_tokenize htokens).of_sublist hsublist
  have hbody : Node.EachEvery (Node.Quoted (programTokens tokens)) (body.map .statement) :=
    hreads.every (Node.throughout_quoted _) horder List.suffix_rfl
  intro node hnode
  have hquoted : node.Quoted (programTokens tokens) := hnode.of_every hbody
  exact hquoted.mono hsublist.subset

end KaLang
