import KaLang.Compile
import KaLang.Proofs.Script.Relocation
import KaLang.Proofs.Syntax.GrammarRelocation

/-!
Formatting does not change what a text means. If the tokens of two texts are of the same forms, and
start and end on the same lines as one another in both or in neither (`Reformatted`), the second
ones are the first ones relocated, so both texts are the same program but for its places and have
the same script, or both have none for the same cause (`compile_reformatted`).
-/

namespace KaLang

/-- Whether two lists of tokens differ in nothing but blanks, comments and line breaks that do not
    matter: they have the same forms, and one token starts on the line where another one ends in
    both lists or in neither. -/
structure Reformatted (tokens others : List Token) : Prop where
  forms : tokens.map Token.form = others.map Token.form
  lines : ∀ a ∈ tokens.zip others, ∀ b ∈ tokens.zip others,
    a.1.span.first.line = b.1.span.last.line ↔ a.2.span.first.line = b.2.span.last.line

/-- What is told about an error besides its place: the stage that failed and the reason. -/
def CompileError.cause (error : CompileError) : Stage × String :=
  (error.report.stage, error.report.reason)

theorem CompileError.cause_relocate (r : Relocation) (error : CompileError) :
    (error.relocate r).cause = error.cause := by
  cases error <;> rfl

/-! ### Relocations between two lists of tokens -/

/-- Where keys are distinct, an item is the one that is found by its key. -/
theorem find?_key_eq {α κ : Type} [DecidableEq κ] {key : α → κ} {items : List α}
    (hdistinct : items.Pairwise fun a b => key a ≠ key b) {item : α} (hitem : item ∈ items) :
    items.find? (fun other => key other = key item) = some item := by
  induction items with
  | nil => cases hitem
  | cons first more ih =>
    obtain ⟨hfirst, hmore⟩ := List.pairwise_cons.mp hdistinct
    rcases List.mem_cons.mp hitem with rfl | hitem
    · simp
    · have hdiff : key first ≠ key item := hfirst item hitem
      simp [hdiff, ih hmore hitem]

/-- No two of the tokens start at the same place, and no two end at the same place. -/
theorem InOrder.pairwise_ne {tokens : List Token} (htokens : InOrder tokens) :
    tokens.Pairwise fun a b => a.span.first ≠ b.span.first ∧ a.span.last ≠ b.span.last := by
  refine htokens.row.imp_of_mem fun ha hb hbefore => ?_
  have hfirst := htokens.forward _ ha
  have hsecond := htokens.forward _ hb
  unfold Span.Before at hbefore
  constructor
  · intro heq
    rw [heq] at hfirst
    omega
  · intro heq
    rw [heq] at hbefore
    omega

namespace Relocation

variable {pairs : List (Token × Token)}

/-- The relocation that puts each token of some pairs where its partner stands. -/
def between (pairs : List (Token × Token)) : Relocation where
  first p := (pairs.find? fun pair => pair.1.span.first = p).elim p fun pair => pair.2.span.first
  last p := (pairs.find? fun pair => pair.1.span.last = p).elim p fun pair => pair.2.span.last

theorem relocate_between (horder : InOrder (pairs.map Prod.fst)) {pair : Token × Token}
    (hpair : pair ∈ pairs) : pair.1.span.relocate (between pairs) = pair.2.span := by
  have hdistinct : pairs.Pairwise fun a b =>
      a.1.span.first ≠ b.1.span.first ∧ a.1.span.last ≠ b.1.span.last := by
    simpa [List.pairwise_map] using horder.pairwise_ne
  have hfirst := find?_key_eq (hdistinct.imp And.left) hpair
  have hlast := find?_key_eq (hdistinct.imp And.right) hpair
  simp only [Span.relocate, between, hfirst, hlast, Option.elim_some]

/-- Tokens that differ from others in formatting alone are relocated to them. -/
theorem exists_of_reformatted {tokens others : List Token} (horder : InOrder tokens)
    (hsame : Reformatted tokens others) :
    ∃ r : Relocation, r.KeepsLines tokens ∧ others = tokens.map (Token.relocate r) := by
  have hlength : tokens.length = others.length := by
    simpa using congrArg List.length hsame.forms
  obtain ⟨pairs, rfl, rfl⟩ : ∃ pairs : List (Token × Token),
      tokens = pairs.map Prod.fst ∧ others = pairs.map Prod.snd :=
    ⟨tokens.zip others, (List.map_fst_zip (Nat.le_of_eq hlength)).symm,
      (List.map_snd_zip (Nat.le_of_eq hlength.symm)).symm⟩
  have hzip : (pairs.map Prod.fst).zip (pairs.map Prod.snd) = pairs := by
    simp [List.zip_map']
  have hforms : ∀ pair ∈ pairs, pair.1.form = pair.2.form := by
    have hforms := hsame.forms
    rw [List.map_map, List.map_map] at hforms
    exact List.map_inj_left.mp hforms
  have hmoves : ∀ pair ∈ pairs, pair.1.relocate (between pairs) = pair.2 := by
    intro pair hpair
    have hspan := relocate_between horder hpair
    have hform := hforms pair hpair
    simp only [Token.form, Form.mk.injEq] at hform
    simp only [Token.relocate, hspan, hform.1, hform.2]
  have hlines := hsame.lines
  rw [hzip] at hlines
  refine ⟨between pairs, ⟨horder, ?_⟩, ?_⟩
  · refine List.forall_mem_map.mpr fun a ha => List.forall_mem_map.mpr fun b hb => ?_
    have hfirst : (between pairs).first a.1.span.first = a.2.span.first :=
      congrArg Span.first (relocate_between horder ha)
    have hlast : (between pairs).last b.1.span.last = b.2.span.last :=
      congrArg Span.last (relocate_between horder hb)
    rw [hfirst, hlast]
    exact (hlines a ha b hb).symm
  · rw [List.map_map]
    exact (List.map_inj_left.mpr hmoves).symm

end Relocation

/-! ### Programs -/

namespace Program

variable {r : Relocation} {tokens : List Token}

/-- Relocated tokens are the same program but for its places, or none for the same cause. -/
theorem alike_ofTokens (hkeeps : r.KeepsLines tokens)
    (hend : ∃ token ∈ tokens, token.kind = .endOfInput) :
    Alike r (fun a b => b.unplaced = a.unplaced) (ofTokens tokens)
      (ofTokens (tokens.map (Token.relocate r))) := by
  have halike := alike_ofTokens_moved r.moves hkeeps hend
  cases hread : ofTokens tokens with
  | error error =>
    rw [halike.eq_error hread]
    exact .error error
  | ok program =>
    obtain ⟨body, hreads, rfl⟩ := ofTokens_eq_ok_iff.mp hread
    have hbody : r.KeepsLines (programTokens tokens) :=
      hkeeps.of_sublist (List.takeWhile_sublist _)
    have hrelocated := hreads.relocate hbody List.suffix_rfl trivial
    rw [Phrase.relocate, ← endSpan_moved r.moves hend, ← programTokens_moved r.moves] at hrelocated
    rw [ofTokens_eq_ok_iff.mpr ⟨_, hrelocated, rfl⟩]
    refine .ok ?_
    simp only [ofStatements, unplaced, Statement.relocateAll_eq_map, List.map_map,
      Function.comp_def, Statement.relocate_nowhere]
    rfl

end Program

/-! ### Scripts -/

/-- The cause of an error is the same wherever it is. -/
theorem mapError_cause {α : Type} (result : Except CompileError Script) (change : Script → α) :
    ((result.mapError (CompileError.relocate .nowhere)).map change).mapError CompileError.cause =
      (result.map change).mapError CompileError.cause := by
  cases result with
  | ok script => rfl
  | error error => exact congrArg Except.error (error.cause_relocate .nowhere)

/-- Two texts that differ in formatting alone are the same program but for its places, or are none
    for the same cause. Then they have the same script under every environment, and ask for the same
    files, or have none for the same cause. -/
theorem compile_reformatted {source other : String} {tokens others : List Token}
    (hsource : tokenize source = .ok tokens) (hother : tokenize other = .ok others)
    (hsame : Reformatted tokens others) :
    ((Program.ofSource source).map Program.unplaced).mapError CompileError.cause =
        ((Program.ofSource other).map Program.unplaced).mapError CompileError.cause ∧
      ∀ env, (compile source env).probes = (compile other env).probes ∧
        ∀ width, ((compile source env).result.map fun script => script.text width).mapError
            CompileError.cause =
          ((compile other env).result.map fun script => script.text width).mapError
            CompileError.cause := by
  obtain ⟨r, hkeeps, rfl⟩ :=
    Relocation.exists_of_reformatted (inOrder_of_tokenize hsource) hsame
  obtain ⟨ahead, hahead, _⟩ := (laid_of_tokenize hsource).exists_body
  have hend : ∃ token ∈ tokens, token.kind = .endOfInput :=
    ⟨.endOfInput _, hahead ▸ List.mem_append_right ahead List.mem_cons_self, rfl⟩
  have halike := Program.alike_ofTokens hkeeps hend
  have hfirst : Program.ofSource source = Program.ofTokens tokens := by
    rw [Program.ofSource, hsource]
    rfl
  have hsecond : Program.ofSource other = Program.ofTokens (tokens.map (Token.relocate r)) := by
    rw [Program.ofSource, hother]
    rfl
  unfold compile
  rw [hfirst, hsecond]
  generalize Program.ofTokens tokens = first at halike
  generalize Program.ofTokens (tokens.map (Token.relocate r)) = second at halike
  cases halike with
  | error error =>
    have hcause := error.cause_relocate r
    exact ⟨congrArg Except.error hcause.symm, fun _ => ⟨rfl, fun _ =>
      congrArg Except.error hcause.symm⟩⟩
  | @ok a b hunplaced =>
    refine ⟨congrArg Except.ok hunplaced.symm, fun env => ?_⟩
    obtain ⟨hresult, hprobes⟩ := a.emit_unplaced env
    obtain ⟨hresultOther, hprobesOther⟩ := b.emit_unplaced env
    rw [hunplaced] at hresultOther hprobesOther
    refine ⟨hprobes.symm.trans hprobesOther, fun width => ?_⟩
    rw [← mapError_cause (a.emit env).result, ← mapError_cause (b.emit env).result, ← hresult,
      ← hresultOther]

/-- Comments and an empty line more leave the name off the line of the return. -/
theorem compile_reformatted_commented : ∃ tokens others,
    tokenize "return\nf" = .ok tokens ∧ tokenize "# é\n return # 1\n\n  f" = .ok others ∧
      Reformatted tokens others ∧
      ((Program.ofSource "return\nf").map Program.unplaced).mapError CompileError.cause =
        ((Program.ofSource "# é\n return # 1\n\n  f").map Program.unplaced).mapError
          CompileError.cause ∧
      ∀ env, (compile "return\nf" env).probes = (compile "# é\n return # 1\n\n  f" env).probes ∧
        ∀ width, ((compile "return\nf" env).result.map fun script => script.text width).mapError
            CompileError.cause =
          ((compile "# é\n return # 1\n\n  f" env).result.map fun script =>
            script.text width).mapError CompileError.cause := by
  have hsource : tokenize "return\nf" =
      .ok [⟨.keyword, "return", ⟨⟨0, 0, 0⟩, ⟨5, 0, 5⟩⟩⟩, ⟨.identifier, "f", ⟨⟨7, 1, 0⟩, ⟨7, 1, 0⟩⟩⟩,
        .endOfInput (.point ⟨8, 1, 1⟩)] := by
    cbv
  have hother : tokenize "# é\n return # 1\n\n  f" =
      .ok [⟨.keyword, "return", ⟨⟨6, 1, 1⟩, ⟨11, 1, 6⟩⟩⟩,
        ⟨.identifier, "f", ⟨⟨20, 3, 2⟩, ⟨20, 3, 2⟩⟩⟩, .endOfInput (.point ⟨21, 3, 3⟩)] := by
    cbv
  exact ⟨_, _, hsource, hother, ⟨by decide, by decide⟩,
    compile_reformatted hsource hother ⟨by decide, by decide⟩⟩

end KaLang
