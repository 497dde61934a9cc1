import KaLang.Proofs.Scope.Places
import KaLang.Proofs.Syntax.Complete
import KaLang.Proofs.Syntax.Legible

/-!
The guards of statements. The span of a statement ends with the last token that was read for it,
save for the closing parentheses around its last operand (`Reads.ends`); a word is the statement's
guard if it stands on the line on which this span ends. So the word is no guard if it stands on a
later line than the last token read, and it is one if it stands on the same line, unless the
parentheses that are left out of the span were closed on a line of their own
(`Parser.guardFollowsLine_of_tokenize`).
-/

namespace KaLang

variable {stop : Span} {tokens middle rest : List Token}

/-! ### The end of a span -/

/-- Whether a span ends with the last token that was read, closing parentheses behind it apart. -/
def Span.Ends (s : Span) (tokens rest : List Token) : Prop :=
  ∃ front last closers, tokens = front ++ last :: (closers ++ rest) ∧ s.last = last.span.last ∧
    ∀ close ∈ closers, close.isDelimiter ")" = true

/-- Whether a span ends like one that stands in front of the tokens, where none was read, or with
    the last token that was read. -/
def Span.EndsBehind (s start : Span) (tokens rest : List Token) : Prop :=
  s.last = start.last ∧ rest = tokens ∨ s.Ends tokens rest

namespace Span

variable {start s other : Span} {token close : Token}

theorem Ends.congr (hs : s.Ends tokens rest) (hlast : s.last = other.last) :
    other.Ends tokens rest := by
  obtain ⟨front, last, closers, htokens, hs, hclosers⟩ := hs
  exact ⟨front, last, closers, htokens, hlast.symm.trans hs, hclosers⟩

theorem Ends.of_suffix (hs : s.Ends middle rest) (hmiddle : middle <:+ tokens) :
    s.Ends tokens rest := by
  obtain ⟨used, rfl⟩ := hmiddle
  obtain ⟨front, last, closers, rfl, hlast, hclosers⟩ := hs
  exact ⟨used ++ front, last, closers, by simp, hlast, hclosers⟩

/-- A span read behind one more token. -/
theorem Ends.behind (hs : s.Ends tokens rest) : s.Ends (token :: tokens) rest :=
  hs.of_suffix (List.suffix_cons token tokens)

theorem ends_token (token : Token) (rest : List Token) : token.span.Ends (token :: rest) rest :=
  ⟨[], token, [], rfl, rfl, by simp⟩

/-- A token of which all that is ahead was read ends what was read. -/
theorem ends_of_suffix (hsuffix : token :: rest <:+ tokens) : token.span.Ends tokens rest :=
  (ends_token token rest).of_suffix hsuffix

/-- A closing parenthesis does not move the end of a span. -/
theorem Ends.parenthesis (hs : s.Ends tokens (close :: rest))
    (hclose : close.isDelimiter ")" = true) : s.Ends tokens rest := by
  obtain ⟨front, last, closers, rfl, hlast, hclosers⟩ := hs
  refine ⟨front, last, closers ++ [close], by simp, hlast, ?_⟩
  simpa [or_imp, forall_and] using ⟨hclosers, hclose⟩

/-- Reading on from what ends a span. -/
theorem EndsBehind.ends (hs : s.EndsBehind start middle rest) (hstart : start.Ends tokens middle) :
    s.Ends tokens rest := by
  rcases hs with ⟨hlast, rfl⟩ | hs
  · exact hstart.congr hlast.symm
  · obtain ⟨front, last, closers, rfl, _⟩ := hstart
    exact hs.of_suffix ⟨front ++ last :: closers, by simp⟩

end Span

/-! ### Names -/

namespace Reading

theorem ends_of_identifier {name : Identifier} {hrest : rest.length < tokens.length}
    (hread : identifier stop tokens = .ok ⟨name, rest, hrest⟩) : name.span.Ends tokens rest := by
  obtain ⟨token, rfl, _, rfl⟩ := eq_cons_of_identifier hread
  exact Span.ends_token token rest

/-- The last of the names with separating tokens between them. -/
theorem ends_of_identifiersBy {separator : Token → Bool} {tokens rest : List Token}
    {name : Identifier} {names : List Identifier} {hrest : rest.length < tokens.length}
    (hread : identifiersBy stop separator tokens = .ok ⟨(name, names), rest, hrest⟩) :
    (names.getLast?.getD name).span.Ends tokens rest := by
  rw [identifiersBy] at hread
  obtain ⟨⟨first, afterFirst, hlater⟩, hfirst, hread⟩ := Except.bind_eq_ok_iff.mp hread
  obtain ⟨token, rfl, _, _⟩ := eq_cons_of_identifier hfirst
  dsimp only at hread
  split at hread
  · cases hread
    exact ends_of_identifier hfirst
  · next haccept =>
    obtain ⟨⟨⟨second, more⟩, _, _⟩, hmore, hread⟩ := Except.bind_eq_ok_iff.mp hread
    cases hread
    obtain ⟨rfl, _⟩ := eq_cons_of_accept haccept
    simpa [List.getLast?_cons] using (ends_of_identifiersBy hmore).behind.behind
termination_by tokens.length

end Reading

namespace Parser

variable {start : Span} {reading : Reading Statement tokens}

theorem ends_hostDecl (hread : hostDecl stop start tokens = .ok reading) :
    reading.value.span.Ends tokens reading.rest := by
  unfold hostDecl at hread
  split at hread
  · next haccept =>
    obtain ⟨⟨name, rest, hrest⟩, hname, hread⟩ := Except.bind_eq_ok_iff.mp hread
    cases hread
    obtain ⟨rfl, _⟩ := Reading.eq_cons_of_accept haccept
    exact (Reading.ends_of_identifier hname).behind
  · obtain ⟨⟨name, rest, hrest⟩, hname, hread⟩ := Except.bind_eq_ok_iff.mp hread
    cases hread
    exact Reading.ends_of_identifier hname

theorem ends_importModule (hread : importModule stop start tokens = .ok reading) :
    reading.value.span.Ends tokens reading.rest := by
  obtain ⟨⟨⟨first, more⟩, rest, hrest⟩, hpath, hread⟩ := Except.bind_eq_ok_iff.mp hread
  cases hread
  exact Reading.ends_of_identifiersBy hpath

theorem ends_importExports (hread : importExports stop start tokens = .ok reading) :
    reading.value.span.Ends tokens reading.rest := by
  obtain ⟨⟨⟨segment, segments⟩, afterPath, hafter⟩, hpath, hread⟩ := Except.bind_eq_ok_iff.mp hread
  obtain ⟨⟨word, afterWord, hafterWord⟩, hword, hread⟩ := Except.bind_eq_ok_iff.mp hread
  have hpath := (advances_dottedPath.reaches _ hpath).suffix
  obtain ⟨rfl, _⟩ := Reading.eq_cons_of_keyword hword
  dsimp only at hread
  split at hread
  · next haccept =>
    obtain ⟨⟨name, rest, hrest⟩, hname, hread⟩ := Except.bind_eq_ok_iff.mp hread
    cases hread
    obtain ⟨rfl, _⟩ := Reading.eq_cons_of_accept haccept
    exact (Reading.ends_of_identifier hname).behind.behind.of_suffix hpath
  · obtain ⟨⟨⟨name, names⟩, rest, hrest⟩, hnames, hread⟩ := Except.bind_eq_ok_iff.mp hread
    cases hread
    exact (Reading.ends_of_identifiersBy hnames).behind.of_suffix hpath

end Parser

/-! ### Phrases -/

/-- Whether the span of what is read ends with the last token read for it, closing parentheses
    apart. What goes on with something read before ends like it if it reads no token. -/
def Phrase.Ends (tokens rest : List Token) : Phrase → Prop
  | .statement value | .bare value => value.span.Ends tokens rest
  | .behind _ start value => value.span.EndsBehind start tokens rest
  | .block body => body.span.Ends tokens rest
  | .expression value | .primary value => value.span.Ends tokens rest
  | .onwards left _ whole | .constructed left whole => whole.span.EndsBehind left.span tokens rest
  | .items _ _ _ last | .entries _ _ last => last.span.Ends tokens rest
  | .sequence _ _ | .members _ | .member _ => True

/-- Whether an expression ends with its value, if it is an assignment. -/
def Expression.EndsWithValue : Expression → Prop
  | .assign _ _ value _ span => span.last = value.span.last
  | _ => True

/-- Whether the assignments that a phrase adds to what was read before end with their value. -/
def Phrase.EndsWithValue : Phrase → Prop
  | .expression value | .primary value => value.EndsWithValue
  | .onwards left _ whole | .constructed left whole => left.EndsWithValue → whole.EndsWithValue
  | _ => True

/-- Two operands joined end like the right one. -/
theorem Expression.ends_join {left right : Expression} {op : BinaryOperator}
    {inParentheses : Bool} (hright : right.span.Ends tokens rest) :
    (left.join op right inParentheses).span.Ends tokens rest := by
  unfold join
  dsimp only
  split <;> exact hright

theorem Expression.endsWithValue_join (left right : Expression) (op : BinaryOperator)
    (inParentheses : Bool) : (left.join op right inParentheses).EndsWithValue := by
  unfold join
  dsimp only
  split <;> trivial

/-- Assignments end with their value, whatever was read in front of them. -/
theorem Reads.endsWithValue {phrase : Phrase} (hreads : Reads stop phrase tokens rest) :
    phrase.EndsWithValue := by
  induction hreads with
  | operand _ _ _ ihfirst ihwhole => exact ihwhole ihfirst
  | assignment => rfl
  | enough | owner => exact fun hleft => hleft
  | call _ _ _ _ _ ihwhole => exact fun _ => ihwhole trivial
  | binary _ _ _ _ _ _ _ ihwhole => exact fun _ => ihwhole (Expression.endsWithValue_join ..)
  | joined _ _ _ _ ihcallee => exact fun _ => ihcallee (Expression.endsWithValue_join ..)
  | parentheses _ _ _ ih => exact ih
  | _ => trivial

/-- The span of whatever is read ends with the last token read for it, closing parentheses apart. -/
theorem Reads.ends {phrase : Phrase} (hreads : Reads stop phrase tokens rest) :
    phrase.Ends tokens rest := by
  induction hreads with
  | unguarded _ _ ih | plain _ ih | lambdaAlone _ ih => exact ih
  | guarded hinner _ _ _ ih =>
    exact ih.of_suffix ((List.suffix_cons _ _).trans hinner.suffix)
  | opened _ _ ih => exact ih.ends (Span.ends_token _ _)
  | none | more | noMember | moreMembers | field | method => trivial
  | block _ hbody _ _ => exact (Span.ends_of_suffix hbody.suffix).behind
  | conditionAlone htest _ hthen _ _ _ =>
    have hinside := (List.suffix_cons _ _).trans htest.suffix
    exact .inr (Span.ends_of_suffix (hthen.suffix.trans hinside))
  | conditionChain htest _ hthen _ _ _ _ _ _ _ ih =>
    have hinside := (List.suffix_cons _ _).trans htest.suffix
    have hword := (List.suffix_cons _ _).trans (hthen.suffix.trans hinside)
    exact .inr (ih.ends (Span.ends_of_suffix hword))
  | conditionElse htest _ hthen _ _ hbody _ _ _ _ hblock =>
    have hinside := (List.suffix_cons _ _).trans htest.suffix
    have htail := (List.suffix_cons _ _).trans (hthen.suffix.trans hinside)
    exact .inr (hblock ▸ Span.ends_of_suffix (hbody.suffix.trans htail))
  | forLoop _ _ hiterable _ _ ih => exact .inr (ih.of_suffix hiterable.suffix).behind.behind
  | whileLoop htest _ _ ih => exact .inr (ih.of_suffix htest.suffix)
  | functionDecl _ _ _ ih => exact .inr ih.behind
  | functionWith _ hparams _ ih =>
    have hparams := (Reading.advances_parameters.reaches _ hparams).suffix
    exact .inr (ih.of_suffix hparams).behind
  | classDecl _ _ hparts _ _ => exact .inr (Span.ends_of_suffix hparts.suffix).behind.behind
  | returnNothing | breakLoop | continueLoop | enough | owner => exact .inl ⟨rfl, rfl⟩
  | returnValue _ _ ih | exportPlain _ ih => exact .inr ih
  | hostDecl hreading => exact .inr (Parser.ends_hostDecl hreading)
  | importModule hreading => exact .inr (Parser.ends_importModule hreading)
  | importExports hreading => exact .inr (Parser.ends_importExports hreading)
  | localAssignment hvalue ih =>
    have hlast := hvalue.endsWithValue
    exact .inr (ih.congr hlast)
  | exportOpened _ _ _ ih => exact .inr (ih.ends (Span.ends_token _ _))
  | operand _ _ _ ihfirst ihwhole => exact ihwhole.ends ihfirst
  | assignment hfirst htarget _ _ _ _ _ _ ih =>
    have htail := (List.suffix_cons _ _).trans (htarget.suffix.trans hfirst.suffix)
    exact ih.of_suffix htail
  | call _ _ _ _ ihargs ihwhole => exact .inr (ihwhole.ends ihargs.behind)
  | binary _ _ _ _ _ ihoperand ihright ihwhole =>
    exact .inr (ihwhole.ends (Expression.ends_join (ihright.ends ihoperand)).behind)
  | string | number | name | lastItem | lastEntry => exact Span.ends_token _ _
  | unary _ _ _ _ ihinner ihoperand => exact (ihoperand.ends ihinner).behind
  | parentheses _ _ hclose ih => exact (ih.parenthesis hclose).behind
  | array _ _ ih | object _ _ ih => exact ih.behind
  | lambda _ hparams _ ih =>
    have hparams := ((Reading.advances_lambdaParameters _).reaches _ hparams).suffix
    exact (ih.of_suffix hparams).behind
  | construct _ howner hcallee _ _ _ _ ihargs =>
    have hinside := (List.suffix_cons _ _).trans (hcallee.suffix.trans howner.suffix)
    exact (ihargs.of_suffix hinside).behind
  | joined _ _ _ ihkey ihcallee =>
    exact .inr (ihcallee.ends (Expression.ends_join ihkey).behind)
  | firstItem hfirst _ _ ihmore => exact ihmore.of_suffix hfirst.suffix
  | nextItem _ hfirst _ _ ihmore => exact (ihmore.of_suffix hfirst.suffix).behind
  | firstEntry hkey hvalue _ _ ihmore =>
    have hkey := (Parser.advances_fieldKey.reaches _ hkey).suffix
    exact ihmore.of_suffix (hvalue.suffix.trans hkey)
  | nextEntry _ hkey hvalue _ _ ihmore =>
    have hkey := (Parser.advances_fieldKey.reaches _ hkey).suffix
    exact (ihmore.of_suffix (hvalue.suffix.trans hkey)).behind

/-! ### Lines -/

/-- Tokens stand on lines in their order. -/
theorem lines_of_tokenize {source : String} {tokens : List Token}
    (htokens : tokenize source = .ok tokens) :
    (∀ token ∈ tokens, token.span.first.line ≤ token.span.last.line) ∧
      tokens.Pairwise fun a b => a.span.last.line ≤ b.span.first.line := by
  have hplaces := @Laid.isIn _ [] _ _ (laid_of_tokenize htokens) rfl
  have horder := inOrder_of_tokenize htokens
  have hline {a b : Position} (hab : a.PlaceLE b) : a.line ≤ b.line := by
    unfold Position.PlaceLE at hab
    omega
  refine ⟨fun token htoken => ?_, ?_⟩
  · obtain ⟨hfirst, hlast⟩ := hplaces token htoken
    exact hline ((Position.offset_le_iff_of_isIn hfirst hlast).mp (horder.forward token htoken))
  · refine horder.row.imp_of_mem fun ha hb hbefore => ?_
    have hle := Nat.le_of_lt hbefore
    exact hline ((Position.offset_le_iff_of_isIn (hplaces _ ha).2 (hplaces _ hb).1).mp hle)

/-! ### Guards -/

namespace Parser

/-- Whether the expression ahead becomes the guard of a statement: the statement is read with the
    expression as its condition, or fails as the expression does. -/
def TakesGuard (stop : Span) (tokens : List Token) (inner : Statement) (tail : List Token) : Prop :=
  (∃ test rest, Reading.Gives (expression stop tail) test rest ∧
    Reading.Gives (statement stop tokens) (.guarded inner test (inner.span.through test.span))
      rest) ∨
  ∃ error, expression stop tail = .error error ∧ statement stop tokens = .error error

variable {tail : List Token} {inner : Statement} {word : Token}

/-- A word on the line on which the statement's span ends is its guard. -/
theorem takesGuard (hinner : Reading.Gives (unguarded stop tokens) inner (word :: tail))
    (hword : word.isKeyword .ifWord = true)
    (hline : word.span.first.line = inner.span.last.line) : TakesGuard stop tokens inner tail := by
  have hguards : word.guards inner = true := by simp [Token.guards, hword, hline]
  cases htest : expression stop tail with
  | ok reading =>
    obtain ⟨test, rest, hrest⟩ := reading
    have htest : Reading.Gives (expression stop tail) test rest := ⟨hrest, htest⟩
    exact .inl ⟨test, rest, htest, gives_guarded hinner hguards htest⟩
  | error error =>
    obtain ⟨hrest, hinner⟩ := hinner
    have haccept : Reading.accept (fun token => token.guards inner) (word :: tail) =
        some ⟨word, tail, by simp⟩ := Reading.accept_cons hguards
    simp only [Token.guards] at haccept
    refine .inr ⟨error, htest, ?_⟩
    rw [statement, hinner]
    simp only [bind, Except.bind, haccept, htest]

/-- A word on another line is not. -/
theorem gives_of_other_line (hinner : Reading.Gives (unguarded stop tokens) inner (word :: tail))
    (hline : word.span.first.line ≠ inner.span.last.line) :
    Reading.Gives (statement stop tokens) inner (word :: tail) := by
  refine gives_unguarded hinner (Reading.accept_eq_none ?_)
  simp [Token.guards, hline]

/-- What the word `if` behind a statement does, by the line on which it stands. Here `consumed` is
    the last token read for the statement, and `last` the one with which its span ends. -/
structure GuardFollowsLine (stop : Span) (tokens : List Token) (inner : Statement) (word : Token)
    (tail : List Token) (last consumed : Token) : Prop where
  later : consumed.span.last.line < word.span.first.line →
    Reading.Gives (statement stop tokens) inner (word :: tail)
  same : word.span.first.line = consumed.span.last.line →
    last.span.last.line = consumed.span.last.line → TakesGuard stop tokens inner tail
  /-- Parentheses that are closed on a later line than what is in them leave the word out. -/
  closed : word.span.first.line = consumed.span.last.line →
    last.span.last.line ≠ consumed.span.last.line →
      Reading.Gives (statement stop tokens) inner (word :: tail)

/-- Of the tokens of a text, the word `if` behind a statement is its guard if it stands on the line
    on which the last token read for the statement ends, and is none if it stands on a later one;
    save that a statement whose last tokens close parentheses takes no guard on their line if the
    token in front of them ends on an earlier one. -/
theorem guardFollowsLine_of_tokenize {source : String} {all : List Token}
    (hsource : tokenize source = .ok all) (htokens : tokens <:+ programTokens all)
    (hinner : Reading.Gives (unguarded stop tokens) inner (word :: tail))
    (hword : word.isKeyword .ifWord = true) :
    ∃ used last closers consumed, tokens = used ++ last :: (closers ++ word :: tail) ∧
      (∀ close ∈ closers, close.isDelimiter ")" = true) ∧
      (last :: closers).getLast? = some consumed ∧ inner.span.last = last.span.last ∧
      GuardFollowsLine stop tokens inner word tail last consumed := by
  obtain ⟨_, hread⟩ := id hinner
  have hends : inner.span.Ends tokens (word :: tail) :=
    (reads_bare (soundBelow stop tokens.length) (Nat.le_refl _) hread).ends
  obtain ⟨used, last, closers, htext, hlast, hclosers⟩ := hends
  obtain ⟨consumed, hconsumed⟩ : ∃ consumed, (last :: closers).getLast? = some consumed :=
    ⟨_, List.getLast?_cons⟩
  refine ⟨used, last, closers, consumed, htext, hclosers, hconsumed, hlast, ?_⟩
  have hlines : last.span.last.line ≤ consumed.span.last.line := by
    have hbehind : (last :: closers).Sublist tokens := by
      rw [htext, ← List.cons_append]
      exact (List.sublist_append_left _ _).trans (List.sublist_append_right used _)
    have hall := hbehind.trans (htokens.sublist.trans (List.takeWhile_sublist _))
    obtain ⟨hforward, hrow⟩ := lines_of_tokenize hsource
    rcases List.mem_cons.mp (List.mem_of_getLast? hconsumed) with rfl | hclose
    · exact Nat.le_refl _
    · have hbefore := (List.pairwise_cons.mp (hrow.sublist hall)).1 consumed hclose
      exact Nat.le_trans hbefore
        (hforward consumed (hall.subset (List.mem_cons_of_mem last hclose)))
  constructor
  case later =>
    intro hlater
    apply gives_of_other_line hinner
    rw [hlast]
    omega
  case same =>
    intro hline hsame
    apply takesGuard hinner hword
    rw [hlast, hline, hsame]
  case closed =>
    intro hline hother
    apply gives_of_other_line hinner
    rw [hlast, hline]
    exact Ne.symm hother

/-- A call whose parentheses are closed on the line of the word takes the guard. -/
theorem guardFollowsLine_call : ∃ all inner word tail,
    tokenize "f(\n) if b" = .ok all ∧ programTokens all <:+ programTokens all ∧
      Reading.Gives (unguarded (endSpan all) (programTokens all)) inner (word :: tail) ∧
      word.isKeyword .ifWord = true ∧
      ∃ used last closers consumed,
        programTokens all = used ++ last :: (closers ++ word :: tail) ∧
        (∀ close ∈ closers, close.isDelimiter ")" = true) ∧
        (last :: closers).getLast? = some consumed ∧ inner.span.last = last.span.last ∧
        GuardFollowsLine (endSpan all) (programTokens all) inner word tail last consumed := by
  have hread : ∃ all inner word tail, tokenize "f(\n) if b" = .ok all ∧
      Reading.Gives (unguarded (endSpan all) (programTokens all)) inner (word :: tail) ∧
      word.isKeyword .ifWord = true := by
    refine ⟨_, _, _, _, by cbv, ⟨?_, by cbv⟩, by decide⟩
    decide
  obtain ⟨all, inner, word, tail, hsource, hinner, hword⟩ := hread
  exact ⟨all, inner, word, tail, hsource, List.suffix_rfl, hinner, hword,
    guardFollowsLine_of_tokenize hsource List.suffix_rfl hinner hword⟩

/-- A name in parentheses that are closed on the line of the word takes no guard, although the
    closing parenthesis is the last token read for the statement. -/
theorem not_takesGuard_parentheses : ∃ all used consumed inner word tail,
    tokenize "(a\n) if b" = .ok all ∧
      programTokens all = used ++ consumed :: word :: tail ∧
      Reading.Gives (unguarded (endSpan all) (programTokens all)) inner (word :: tail) ∧
      word.isKeyword .ifWord = true ∧ word.span.first.line = consumed.span.last.line ∧
      ¬ TakesGuard (endSpan all) (programTokens all) inner tail := by
  have hread : ∃ all used consumed inner word tail, tokenize "(a\n) if b" = .ok all ∧
      programTokens all = used ++ consumed :: word :: tail ∧
      Reading.Gives (unguarded (endSpan all) (programTokens all)) inner (word :: tail) ∧
      word.isKeyword .ifWord = true ∧ word.span.first.line = consumed.span.last.line ∧
      word.span.first.line ≠ inner.span.last.line := by
    refine ⟨_, [_, _], _, _, _, _, by cbv, by rfl, ⟨?_, by cbv⟩, by decide, by decide,
      by decide⟩
    decide
  obtain ⟨all, used, consumed, inner, word, tail, hsource, htokens, hinner, hword, hline, hend⟩ :=
    hread
  refine ⟨all, used, consumed, inner, word, tail, hsource, htokens, hinner, hword, hline, ?_⟩
  obtain ⟨_, hbare⟩ := gives_of_other_line hinner hend
  rintro (⟨test, rest, _, _, hguarded⟩ | ⟨error, _, hfails⟩)
  · rw [hbare] at hguarded
    cases hguarded
  · rw [hbare] at hfails
    cases hfails

end Parser

end KaLang
