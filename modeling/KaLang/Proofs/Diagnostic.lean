import KaLang.Compile
import KaLang.Diagnostic
import KaLang.Proofs.Scope.Places
import KaLang.Proofs.Script.Faults
import KaLang.Proofs.Syntax.Progress
import KaLang.Proofs.Token.Settling

/-!
Errors point into the text. A fault of the lexer lies behind characters of the text, one of the
parser at a token, at the end of the input or at an expression, and one of the pass at a node; so
whatever stage fails, the span of the error reaches from one place of the text to another one that
is no earlier (`compileText_error_points`), and every line that is shown for it is a line of the
text.
-/

namespace KaLang

/-! ### Spans in a text -/

/-- Whether a span reaches from a place of a text to one that is no earlier. -/
structure Span.PointsInto (text : List Char) (s : Span) : Prop where
  first : s.first.IsIn text
  last : s.last.IsIn text
  forward : s.first.offset ≤ s.last.offset

namespace Span.PointsInto

variable {text : List Char} {s : Span} {source : String} {tokens : List Token}

theorem point {p : Position} (hp : p.IsIn text) : (Span.point p).PointsInto text :=
  ⟨hp, hp, Nat.le_refl _⟩

/-- In lines and columns the first place is no later than the last one either. -/
theorem placeLE (hs : s.PointsInto text) : s.first.PlaceLE s.last :=
  (Position.offset_le_iff_of_isIn hs.first hs.last).mp hs.forward

theorem of_bounded (htokens : tokenize source = .ok tokens) (hs : s.Bounded tokens)
    (hforward : s.first.offset ≤ s.last.offset) : s.PointsInto source.toList :=
  ⟨(hs.isIn htokens).1, (hs.isIn htokens).2, hforward⟩

theorem of_token {token : Token} (htokens : tokenize source = .ok tokens)
    (htoken : token ∈ tokens) : token.span.PointsInto source.toList :=
  of_bounded htokens ⟨.inr ⟨token, htoken, rfl⟩, ⟨token, htoken, rfl⟩⟩
    ((inOrder_of_tokenize htokens).forward token htoken)

theorem of_tidy {node : Node} (htokens : tokenize source = .ok tokens)
    (htidy : node.Tidy (programTokens tokens)) : node.span.PointsInto source.toList :=
  have hsublist : (programTokens tokens).Sublist tokens := List.takeWhile_sublist _
  of_bounded htokens (htidy.bounded.mono hsublist.subset) htidy.forward

end Span.PointsInto

namespace CompileError

variable {source : String} {tokens : List Token} {error : CompileError}

/-! ### Faults of the lexer -/

/-- The lexer fails behind some of the characters that are ahead where it stands. -/
theorem pointsInto_of_tokenize (hfails : tokenize source = .error error) :
    error.span.PointsInto source.toList := by
  obtain ⟨count, hfault⟩ := Cursor.exists_resume_of_tokens hfails
  obtain ⟨before, hsource, hposition⟩ := Cursor.exists_before_of_resume source count
  obtain ⟨fault, part, hpart, rfl⟩ := Cursor.exists_place_of_next (Prod.ext hfault rfl)
  refine .point ⟨before ++ part, ?_, by rw [hposition, Position.after_append]⟩
  rwa [hsource, List.prefix_append_right_inj]

/-! ### Faults of the parser -/

theorem pointsInto_of_blames (htokens : tokenize source = .ok tokens)
    (hblames : Blames (endSpan tokens) (programTokens tokens) error) :
    error.span.PointsInto source.toList := by
  have hsublist : (programTokens tokens).Sublist tokens := List.takeWhile_sublist _
  cases hblames with
  | @next rest hrest fault =>
    cases rest with
    | nil =>
      obtain ⟨token, htoken, _, hspan⟩ := Program.exists_endSpan_of_tokenize htokens
      have hpoints := Span.PointsInto.of_token htokens htoken
      rwa [← hspan] at hpoints
    | cons token rest =>
      exact .of_token htokens (hsublist.subset (hrest.subset List.mem_cons_self))
  | @unassigned value ahead rest hahead hvalue =>
    have horder : InOrder (programTokens tokens) :=
      (inOrder_of_tokenize htokens).of_sublist hsublist
    have hplaced : (Node.expression value).Placed ahead rest :=
      hvalue.placed (horder.of_suffix hahead)
    exact .of_tidy htokens (hplaced.proper.tidy.mono hahead.subset)

/-- A text whose tokens are no program has a fault at one of them or at the end of the input. -/
theorem blames_of_ofTokens (hfails : Program.ofTokens tokens = .error error) :
    Blames (endSpan tokens) (programTokens tokens) error := by
  have hstatements := (Parser.advancesBelow (endSpan tokens) _).statements []
    (Nat.lt_succ_self (programTokens tokens).length)
  rw [Program.ofTokens] at hfails
  cases hbody : Parser.statements (endSpan tokens) [] (programTokens tokens) with
  | ok scanned =>
    rw [hbody] at hfails
    cases hfails
  | error failed =>
    rw [hbody] at hfails
    cases hfails
    exact hstatements.blames error hbody

theorem pointsInto_of_ofSource (hfails : Program.ofSource source = .error error) :
    error.span.PointsInto source.toList := by
  rw [Program.ofSource] at hfails
  cases htokens : tokenize source with
  | error failed =>
    rw [htokens] at hfails
    cases hfails
    exact pointsInto_of_tokenize htokens
  | ok tokens =>
    rw [htokens] at hfails
    exact pointsInto_of_blames htokens (blames_of_ofTokens hfails)

/-! ### Faults of the pass -/

/-- What offends has its fault at a node: at itself, or at what it exports or a part of that. -/
theorem exists_node_of_offends {program : Program} {env : Environment} {index : ScopeIndex}
    {node : Node} (hnode : program.Holds node) (hoffends : node.Offends env index error) :
    ∃ other, program.Holds other ∧ error.span = other.span := by
  cases hoffends with
  | importDecl => exact ⟨_, hnode, rfl⟩
  | declaration => exact ⟨_, .child hnode List.mem_cons_self, rfl⟩
  | target =>
    have hassign := (hnode.child List.mem_cons_self).child List.mem_cons_self
    exact ⟨_, hassign.child List.mem_cons_self, rfl⟩
  | bound => exact ⟨_, (hnode.child List.mem_cons_self).child List.mem_cons_self, rfl⟩

/-- Every node of a program has its place among the tokens of the text. -/
theorem pointsInto_of_holds {program : Program} (hread : Program.ofSource source = .ok program)
    {node : Node} (hnode : program.Holds node) : node.span.PointsInto source.toList := by
  obtain ⟨tokens, htokens, hread⟩ := Except.bind_eq_ok_iff.mp hread
  obtain ⟨body, hreads, rfl⟩ := Program.ofTokens_eq_ok_iff.mp hread
  have horder : InOrder (programTokens tokens) :=
    (inOrder_of_tokenize htokens).of_sublist (List.takeWhile_sublist _)
  have hbody : Stretch (programTokens tokens) [] ((body.map .statement).map .node) :=
    hreads.placed horder
  have hproper : node.Proper (programTokens tokens) := by
    induction hnode with
    | body hstatement =>
      exact (hbody.placed _ (List.mem_map_of_mem (List.mem_map_of_mem hstatement))).proper
    | child _ hchild ih => exact ih.child hchild
  exact .of_tidy htokens hproper.tidy

theorem pointsInto_of_emit {program : Program} {env : Environment}
    (hread : Program.ofSource source = .ok program)
    (hfails : (program.emit env).result = .error error) :
    error.span.PointsInto source.toList := by
  obtain ⟨ahead, index, node, behind, hmet, hoffends, _⟩ :=
    (Program.emit_error_iff_offends hread).mp hfails
  have hnode : program.Holds node := Program.exists_encounter_iff.mp ⟨index, by simp [hmet]⟩
  obtain ⟨other, hother, hspan⟩ := exists_node_of_offends hnode hoffends
  exact hspan ▸ pointsInto_of_holds hread hother

/-- Whatever stage fails, its error points into the text. -/
theorem pointsInto_of_compileText {env : Environment}
    (hfails : compileText source env = .error error) : error.span.PointsInto source.toList := by
  unfold compileText compile at hfails
  cases hread : Program.ofSource source with
  | error failed =>
    rw [hread] at hfails
    cases hfails
    exact pointsInto_of_ofSource hread
  | ok program =>
    rw [hread] at hfails
    cases hemit : (program.emit env).result with
    | ok script =>
      dsimp only at hfails
      rw [hemit] at hfails
      cases hfails
    | error failed =>
      dsimp only at hfails
      rw [hemit] at hfails
      cases hfails
      exact pointsInto_of_emit hread hemit

end CompileError

/-! ### Lines -/

namespace Diagnostic

/-- No lines but those from the first of a span to its last one are shown. -/
theorem excerpts_congr {lines others : List (List Char)} {span : Span}
    (hforward : span.first.line ≤ span.last.line)
    (hsame : ∀ line, span.first.line ≤ line → line ≤ span.last.line →
      lines[line]? = others[line]?) (width : Nat) :
    excerpts lines width span = excerpts others width span := by
  have hexcerpt {line : Nat} (hfirst : span.first.line ≤ line) (hlast : line ≤ span.last.line) :
      excerpt lines width span line = excerpt others width span line := by
    have htext : lineText lines line = lineText others line := by
      rw [lineText, lineText, hsame line hfirst hlast]
    simp only [excerpt, sourceRow, caretRow, htext]
  simp only [excerpts]
  split
  · rw [hexcerpt (Nat.le_refl _) hforward, hexcerpt hforward (Nat.le_refl _)]
  · refine List.flatMap_congr fun line hline => ?_
    obtain ⟨hfirst, hlast⟩ := List.mem_range'_1.mp hline
    exact hexcerpt hfirst (by omega)

end Diagnostic

/-! ### Errors -/

/-- Whatever stage fails for a text, both ends of the error's span are places of the text, told by
    the bytes and line breaks in front and by the characters since the last one, and the first is
    not behind the last, in bytes as in lines and columns. So the lines of the span are counted
    from the first one on, all of them are lines of the text, and what is shown of the text does
    not depend on what would stand behind it. -/
theorem compileText_error_points {source : String} {env : Environment} {error : CompileError}
    (hfails : compileText source env = .error error) :
    (∀ p ∈ [error.span.first, error.span.last], ∃ before, before <+: source.toList ∧
      p = ⟨String.utf8Len before, before.count '\n',
        (before.reverse.takeWhile (· ≠ '\n')).length⟩) ∧
    error.span.first.offset ≤ error.span.last.offset ∧
    error.span.first.PlaceLE error.span.last ∧
    error.span.first.line ≤ error.span.last.line ∧
    (∀ line, error.span.first.line ≤ line → line ≤ error.span.last.line →
      ∃ text, (textLines source.toList)[line]? = some text) ∧
    ∀ more width, Diagnostic.excerpts (textLines source.toList ++ more) width error.span =
      Diagnostic.excerpts (textLines source.toList) width error.span := by
  have hpoints := CompileError.pointsInto_of_compileText hfails
  have hforward : error.span.first.line ≤ error.span.last.line := by
    rcases hpoints.placeLE with hline | ⟨hline, _⟩ <;> omega
  have hline (line : Nat) (hlast : line ≤ error.span.last.line) :
      line < (textLines source.toList).length :=
    Nat.lt_of_le_of_lt hlast hpoints.last.line_lt
  refine ⟨?_, hpoints.forward, hpoints.placeLE, hforward, ?_, fun more width => ?_⟩
  · have hplace {p : Position} (hp : p.IsIn source.toList) : ∃ before, before <+: source.toList ∧
        p = ⟨String.utf8Len before, before.count '\n',
          (before.reverse.takeWhile (· ≠ '\n')).length⟩ := by
      obtain ⟨before, hbefore, rfl⟩ := hp
      exact ⟨before, hbefore, Position.after_zero before⟩
    simp only [List.forall_mem_cons]
    exact ⟨hplace hpoints.first, hplace hpoints.last, nofun⟩
  · exact fun line _ hlast => ⟨_, List.getElem?_eq_getElem (hline line hlast)⟩
  · exact Diagnostic.excerpts_congr hforward
      (fun line _ hlast => List.getElem?_append_left (hline line hlast)) width

/-- A call that is exported, over two lines. -/
theorem compileText_error_points_call :
    compileText "export f(\n1)" {} =
        .error (.emitting .unexportable ⟨⟨7, 0, 7⟩, ⟨11, 1, 1⟩⟩) ∧
      ∀ more width,
        Diagnostic.excerpts (textLines "export f(\n1)".toList ++ more) width
            ⟨⟨7, 0, 7⟩, ⟨11, 1, 1⟩⟩ =
          Diagnostic.excerpts (textLines "export f(\n1)".toList) width
            ⟨⟨7, 0, 7⟩, ⟨11, 1, 1⟩⟩ := by
  have hfails : compileText "export f(\n1)" {} =
      .error (.emitting .unexportable ⟨⟨7, 0, 7⟩, ⟨11, 1, 1⟩⟩) := by
    cbv
  exact ⟨hfails, (compileText_error_points hfails).2.2.2.2.2⟩

end KaLang
