import KaLang.Proofs.Scope.Lookup
import KaLang.Proofs.Token.Places

/-!
Scopes by byte offset and by line and column. Spans of recorded nodes reach from place to place of
the text, so the two ways to look a scope up agree everywhere in it
(`ScopeIndex.scopeAtOffset?_eq_scopeAtPlace?`).
-/

namespace KaLang

theorem Span.Bounded.isIn {source : String} {tokens : List Token} {s : Span}
    (htokens : tokenize source = .ok tokens) (hs : s.Bounded tokens) :
    s.first.IsIn source.toList ∧ s.last.IsIn source.toList := by
  have hplaces := @Laid.isIn _ [] _ _ (laid_of_tokenize htokens) rfl
  obtain ⟨last, hmemLast, hlast⟩ := hs.last
  refine ⟨?_, hlast ▸ (hplaces last hmemLast).2⟩
  rcases hs.first with hzero | ⟨first, hmemFirst, hfirst⟩
  · exact ⟨[], List.nil_prefix, hzero⟩
  · exact hfirst ▸ (hplaces first hmemFirst).1

namespace ScopeIndex

/-- At every place of the text, its end included, a scope is looked up by the number of bytes in
    front of it as it is by the number of line breaks in front and of characters since the last. -/
theorem scopeAtOffset?_eq_scopeAtPlace? {source : String} {program : Program}
    (hread : Program.ofSource source = .ok program) {before rest : List Char}
    (hsource : source.toList = before ++ rest) :
    (ofProgram program).scopeAtOffset? (String.utf8Len before) =
      (ofProgram program).scopeAtPlace? (before.count '\n')
        (before.reverse.takeWhile (· ≠ '\n')).length := by
  obtain ⟨tokens, htokens, hrecorded⟩ := recorded_ofProgram hread
  have hp : (Position.zero.after before).IsIn source.toList := ⟨before, ⟨rest, hsource.symm⟩, rfl⟩
  have hoffset : (Position.zero.after before).offset = String.utf8Len before := by
    simp [Position.zero]
  have hline : (Position.zero.after before).line = before.count '\n' := by
    simp [Position.line_after, Position.zero]
  rw [← hoffset, ← hline, ← Position.column_after]
  refine congrArg (Option.map Prod.snd) (List.find?_congr fun entry hentry => ?_)
  obtain ⟨hfirst, hlast⟩ := (hrecorded.good entry hentry).isIn htokens
  exact Span.coversOffset_eq_coversPlace hfirst hlast hp

/-- Behind a carriage return and a line break, a comment and a string with characters of several
    bytes. -/
theorem scopeAtOffset?_eq_scopeAtPlace?_behind : ∃ program,
    Program.ofSource "f = do\r\n# ä\n x = 'é😀' end" = .ok program ∧
      (ofProgram program).scopeAtOffset? 26 = (ofProgram program).scopeAtPlace? 2 9 := by
  have hread : ∃ program, Program.ofSource "f = do\r\n# ä\n x = 'é😀' end" = .ok program :=
    ⟨_, by cbv⟩
  have hsource : "f = do\r\n# ä\n x = 'é😀' end".toList =
      "f = do\r\n# ä\n x = 'é😀'".toList ++ " end".toList := rfl
  obtain ⟨program, hread⟩ := hread
  exact ⟨program, hread, scopeAtOffset?_eq_scopeAtPlace? hread hsource⟩

end ScopeIndex

end KaLang
