import KaLang.Diagnostic
import KaLang.Proofs.Syntax.Reformatting
import KaLang.Proofs.Token.Returns

/-!
Texts whose line breaks have a carriage return. The parser asks for lines alone, and for no text of
a string literal, so a text is a program with returns if and only if it is one without
(`Program.alike_ofSource_withReturns`). A report tells of lines and columns, and the lines of a text
are cut without their returns; so people are told the same, row by row
(`Program.ofSource_withReturns`).
-/

namespace KaLang

/-! ### Programs -/

/-- The token without what it stands for, if it is a string literal. -/
def Token.withoutValue (token : Token) : Token :=
  if token.kind = .string then { token with text := "" } else token

@[simp] theorem Token.kind_withoutValue (token : Token) :
    token.withoutValue.kind = token.kind := by
  unfold withoutValue
  split <;> rfl

@[simp] theorem Token.span_withoutValue (token : Token) :
    token.withoutValue.span = token.span := by
  unfold withoutValue
  split <;> rfl

theorem Token.withoutValue_of_ne {token : Token} (hkind : token.kind ≠ .string) :
    token.withoutValue = token :=
  if_neg hkind

theorem Relocation.moves_withoutValue (r : Relocation) :
    r.Moves fun token => (token.relocate r).withoutValue where
  kind token := Token.kind_withoutValue _
  text token hkind := by
    have hsame := @Token.withoutValue_of_ne (token.relocate r) hkind
    rw [hsame, Token.text_relocate]
  span token := Token.span_withoutValue _

/-- The relocation that leaves everything where it is. -/
def Relocation.still : Relocation := ⟨id, id⟩

namespace Token.Returned

variable {token other : Token} {tokens others : List Token}

/-- Without what string literals stand for, a token is only put elsewhere. -/
theorem withoutValue_eq (hreturned : token.Returned other) :
    (token.relocate .returns).withoutValue = other.withoutValue := by
  obtain ⟨hkind, htext, hspan⟩ := hreturned
  obtain ⟨kind, text, span⟩ := other
  obtain rfl : kind = token.kind := hkind
  obtain rfl : span = token.span.relocate .returns := hspan
  by_cases hstring : token.kind = .string
  · simp [withoutValue, hstring]
  · obtain rfl : text = token.text := htext hstring
    rfl

theorem map_withoutValue_eq (hreturned : List.Forall₂ Token.Returned tokens others) :
    tokens.map (fun token => (token.relocate .returns).withoutValue) =
      others.map fun token => (token.relocate .still).withoutValue := by
  induction hreturned with
  | nil => rfl
  | cons htoken _ ih =>
    rw [List.map_cons, List.map_cons, htoken.withoutValue_eq, ih]
    rfl

end Token.Returned

theorem Relocation.KeepsLines.returns {tokens : List Token} (horder : InOrder tokens) :
    Relocation.returns.KeepsLines tokens :=
  ⟨horder, fun _ _ _ _ => Iff.rfl⟩

theorem Relocation.KeepsLines.still {tokens : List Token} (horder : InOrder tokens) :
    Relocation.still.KeepsLines tokens :=
  ⟨horder, fun _ _ _ _ => Iff.rfl⟩

theorem CompileError.relocate_still (error : CompileError) : error.relocate .still = error := by
  cases error <;> rfl

/-- The tokens of a text end with the end of the input. -/
theorem exists_endOfInput_of_tokenize {source : String} {tokens : List Token}
    (htokens : tokenize source = .ok tokens) : ∃ token ∈ tokens, token.kind = .endOfInput := by
  obtain ⟨body, rfl, -⟩ := (laid_of_tokenize htokens).exists_body
  exact ⟨_, List.mem_append_right body List.mem_cons_self, rfl⟩

namespace Program

variable {source : String}

/-- Tokens are a program if and only if they are one in the text with returns. -/
theorem alike_ofTokens_returned {tokens others : List Token} (horder : InOrder tokens)
    (horderOther : InOrder others) (hend : ∃ token ∈ tokens, token.kind = .endOfInput)
    (hendOther : ∃ token ∈ others, token.kind = .endOfInput)
    (hreturned : List.Forall₂ Token.Returned tokens others) :
    Alike .returns (fun _ _ => True) (ofTokens tokens) (ofTokens others) := by
  have hfirst := alike_ofTokens_moved (Relocation.returns.moves_withoutValue)
    (.returns horder) hend
  have hsecond := alike_ofTokens_moved (Relocation.still.moves_withoutValue)
    (.still horderOther) hendOther
  rw [Token.Returned.map_withoutValue_eq hreturned] at hfirst
  generalize ofTokens (others.map fun token => (token.relocate .still).withoutValue) = both
    at hfirst hsecond
  generalize ofTokens tokens = first at hfirst ⊢
  generalize ofTokens others = second at hsecond ⊢
  cases hfirst with
  | ok =>
    cases hsecond with
    | ok => exact .ok trivial
  | error error =>
    generalize herror : error.relocate .returns = failed at hsecond
    cases hsecond with
    | error other =>
      rw [other.relocate_still] at herror
      rw [← herror]
      exact .error error

/-- A text is a program with returns if and only if it is one without, and else fails with the same
    fault, at the same line and column. -/
theorem alike_ofSource_withReturns {source other : String}
    (hother : other.toList = withReturns source.toList)
    (hescape : ¬['\\', '\n'] <:+: source.toList) :
    Alike .returns (fun _ _ => True) (ofSource source) (ofSource other) := by
  have hlexed := alike_tokenize_withReturns hother hescape
  rw [ofSource, ofSource]
  cases htokens : tokenize source with
  | error error =>
    rw [hlexed.eq_error htokens]
    exact .error error
  | ok tokens =>
    obtain ⟨others, hothers, hreturned⟩ := hlexed.exists_of_ok htokens
    rw [hothers]
    exact alike_ofTokens_returned (inOrder_of_tokenize htokens) (inOrder_of_tokenize hothers)
      (exists_endOfInput_of_tokenize htokens) (exists_endOfInput_of_tokenize hothers) hreturned

end Program

/-! ### Rows -/

theorem unifyBreaks_withReturns {text : List Char} (hreturn : '\r' ∉ text) :
    unifyBreaks (withReturns text) = text := by
  induction text with
  | nil => rfl
  | cons char text ih =>
    obtain ⟨hchar, hmore⟩ := not_or.mp (mt List.mem_cons.mpr hreturn)
    by_cases hline : char = '\n'
    · subst hline
      rw [withReturns_line, unifyBreaks, ih hmore]
    · rw [withReturns_cons hline, unifyBreaks, ih hmore]
      exact fun _ heq => absurd heq.symm hchar

/-- The lines of a text do not tell how they are ended. -/
theorem textLines_withReturns {text : List Char} (hreturn : '\r' ∉ text) :
    textLines (withReturns text) = textLines text := by
  rw [textLines, textLines, unifyBreaks_withReturns hreturn, unifyBreaks_of_not_mem hreturn]

theorem CompileError.report_relocate_returns (error : CompileError) :
    (error.relocate .returns).report =
      { error.report with span := error.report.span.relocate .returns } := by
  cases error <;> rfl

/-- People are told the same of a text with returns. -/
theorem Diagnostic.render_relocate_returns {source other : String}
    (hother : other.toList = withReturns source.toList) (hreturn : '\r' ∉ source.toList)
    (error : CompileError) (label : String) :
    render (error.relocate .returns).report other label = render error.report source label := by
  have hrows : rows (error.relocate .returns).report other label =
      rows error.report source label := by
    simp only [rows, hother, textLines_withReturns hreturn, error.report_relocate_returns]
    rfl
  rw [render, render, hrows]

/-! ### Texts -/

/-- Whether two spans are on the same lines and in the same columns. -/
structure Span.SamePlaces (s other : Span) : Prop where
  firstLine : other.first.line = s.first.line
  firstColumn : other.first.column = s.first.column
  lastLine : other.last.line = s.last.line
  lastColumn : other.last.column = s.last.column

theorem Span.samePlaces_relocate_returns (s : Span) : s.SamePlaces (s.relocate .returns) :=
  ⟨rfl, rfl, rfl, rfl⟩

/-- In a text that has no returns, and no backslash in front of a line break, returns may be put in
    front of all line breaks. Both texts fail or neither does. If they fail, then in the same stage,
    for the same reason and at the same lines and columns, and what is shown of the error is the
    same text, whatever the source is called. If they are programs, then their tokens are of the
    same kinds, at the same lines and columns, and with the same texts but for string literals. -/
theorem Program.ofSource_withReturns {source other : String}
    (hother : other.toList = withReturns source.toList) (hreturn : '\r' ∉ source.toList)
    (hescape : ¬['\\', '\n'] <:+: source.toList) :
    match ofSource source, ofSource other with
    | .error error, .error same =>
      same.report.stage = error.report.stage ∧ same.report.reason = error.report.reason ∧
        error.span.SamePlaces same.span ∧
        ∀ label, Diagnostic.render same.report other label =
          Diagnostic.render error.report source label
    | .ok _, .ok _ =>
      ∃ tokens others, tokenize source = .ok tokens ∧ tokenize other = .ok others ∧
        List.Forall₂ (fun token same => same.kind = token.kind ∧
          token.span.SamePlaces same.span ∧ (token.kind ≠ .string → same.text = token.text))
          tokens others
    | _, _ => False := by
  have hlexed := alike_tokenize_withReturns hother hescape
  have hparsed := alike_ofSource_withReturns hother hescape
  cases hfirst : ofSource source with
  | error error =>
    rw [hparsed.eq_error hfirst]
    refine ⟨?_, ?_, ?_, Diagnostic.render_relocate_returns hother hreturn error⟩
    · rw [error.report_relocate_returns]
    · rw [error.report_relocate_returns]
    · rw [CompileError.span, CompileError.span, error.report_relocate_returns]
      exact Span.samePlaces_relocate_returns _
  | ok program =>
    obtain ⟨same, hsecond, -⟩ := hparsed.exists_of_ok hfirst
    obtain ⟨tokens, htokens, -⟩ := Except.bind_eq_ok_iff.mp hfirst
    obtain ⟨others, hothers, hreturned⟩ := hlexed.exists_of_ok htokens
    rw [hsecond]
    refine ⟨tokens, others, htokens, hothers, hreturned.imp fun token same htoken => ?_⟩
    refine ⟨htoken.kind, ?_, htoken.text⟩
    rw [htoken.span]
    exact Span.samePlaces_relocate_returns _

/-- A string and a comment over line breaks, in front of a parenthesis that closes nothing. -/
theorem Program.ofSource_withReturns_unopened :
    ofSource "'a\nb' + # c\n)" = .error (.parsing .missingExpression (.point ⟨12, 2, 0⟩)) ∧
      ofSource "'a\r\nb' + # c\r\n)" =
        .error (.parsing .missingExpression (.point ⟨14, 2, 0⟩)) ∧
      ∀ label,
        Diagnostic.render (CompileError.parsing .missingExpression (.point ⟨14, 2, 0⟩)).report
            "'a\r\nb' + # c\r\n)" label =
          Diagnostic.render (CompileError.parsing .missingExpression (.point ⟨12, 2, 0⟩)).report
            "'a\nb' + # c\n)" label := by
  have hfirst : ofSource "'a\nb' + # c\n)" =
      .error (.parsing .missingExpression (.point ⟨12, 2, 0⟩)) := by
    cbv
  have hsecond : ofSource "'a\r\nb' + # c\r\n)" =
      .error (.parsing .missingExpression (.point ⟨14, 2, 0⟩)) := by
    cbv
  have hsame := @ofSource_withReturns "'a\nb' + # c\n)" "'a\r\nb' + # c\r\n)" (by decide)
    (by decide) (by decide)
  rw [hfirst, hsecond] at hsame
  exact ⟨hfirst, hsecond, hsame.2.2.2⟩

end KaLang
