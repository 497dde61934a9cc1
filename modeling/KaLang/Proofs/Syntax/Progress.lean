import KaLang.Proofs.Syntax.Complete

/-!
How far the parser goes. What a reader leaves is reached over tokens of which none ends the input,
and what it fails at is a token ahead of it or the end of the input (`Advances`). One rule carries
this through everything that is read in a row, so each reader is taken apart once, and the readers
together are covered by one induction on the length.
-/

namespace KaLang

/-- Whether `rest` is what is left of `tokens` behind some of them, of which none ends the input. -/
def Reaches (tokens rest : List Token) : Prop :=
  ∃ taken, tokens = taken ++ rest ∧ ∀ token ∈ taken, token.kind ≠ .endOfInput

namespace Reaches

variable {tokens middle rest : List Token} {token : Token}

theorem refl (tokens : List Token) : Reaches tokens tokens := ⟨[], rfl, by simp⟩

theorem trans (hfirst : Reaches tokens middle) (hmore : Reaches middle rest) :
    Reaches tokens rest := by
  obtain ⟨taken, rfl, htaken⟩ := hfirst
  obtain ⟨more, rfl, hmore⟩ := hmore
  refine ⟨taken ++ more, by simp, fun token htoken => ?_⟩
  rcases List.mem_append.mp htoken with htoken | htoken
  · exact htaken token htoken
  · exact hmore token htoken

theorem cons (htoken : token.kind ≠ .endOfInput) (hrest : Reaches middle rest) :
    Reaches (token :: middle) rest := by
  have hfirst : Reaches (token :: middle) middle := ⟨[token], rfl, by simpa using htoken⟩
  exact hfirst.trans hrest

theorem of_isDelimiter {text : String} (htoken : token.isDelimiter text = true) :
    Reaches (token :: rest) rest :=
  cons (by simp [(Token.spec_of_isDelimiter htoken).1]) (refl rest)

theorem suffix (hreaches : Reaches tokens rest) : rest <:+ tokens := by
  obtain ⟨taken, rfl, -⟩ := hreaches
  exact List.suffix_append taken rest

end Reaches

/-- Where a fault of the parser may lie: at the next token of some place ahead, or at an expression
    that is marked as local without being an assignment. -/
inductive Blames (stop : Span) (tokens : List Token) : CompileError → Prop where
  | next {rest : List Token} (hrest : rest <:+ tokens) (fault : ParseFault) :
      Blames stop tokens (.parsing fault (Reading.peek stop rest).span)
  | unassigned {value : Expression} {ahead rest : List Token} (hahead : ahead <:+ tokens)
      (hvalue : Reads stop (.expression value) ahead rest) :
      Blames stop tokens (.parsing .localWithoutAssignment value.span)

theorem Blames.of_suffix {stop : Span} {tokens rest : List Token} {error : CompileError}
    (hblames : Blames stop rest error) (hrest : rest <:+ tokens) : Blames stop tokens error := by
  cases hblames with
  | next hsuffix fault => exact .next (hsuffix.trans hrest) fault
  | unassigned hahead hvalue => exact .unassigned (hahead.trans hrest) hvalue

/-- How a reader that starts at `tokens` may end: `left` says what is left behind a value. -/
structure Advances (stop : Span) (tokens : List Token) {α : Type} (left : α → List Token)
    (result : Except CompileError α) : Prop where
  reaches : ∀ value, result = .ok value → Reaches tokens (left value)
  blames : ∀ error, result = .error error → Blames stop tokens error

namespace Advances

variable {stop : Span} {tokens : List Token} {α β : Type} {left : α → List Token}
  {leftThen : β → List Token} {first : Except CompileError α} {value : α}

theorem ok (hreaches : Reaches tokens (left value)) :
    Advances stop tokens left (.ok value) := by
  refine ⟨fun _ hvalue => ?_, fun _ herror => by cases herror⟩
  cases hvalue
  exact hreaches

theorem error {error : CompileError} (hblames : Blames stop tokens error) :
    Advances stop tokens left (.error error) := by
  refine ⟨fun _ hvalue => (by cases hvalue), fun _ herror => ?_⟩
  cases herror
  exact hblames

/-- A reader may start behind tokens that are taken already. -/
theorem behind {middle : List Token} (hreaches : Reaches tokens middle)
    (hfirst : Advances stop middle left first) : Advances stop tokens left first :=
  ⟨fun value hvalue => hreaches.trans (hfirst.reaches value hvalue),
    fun error herror => (hfirst.blames error herror).of_suffix hreaches.suffix⟩

/-- What is read next may start where the first reader stopped. -/
theorem bind {next : α → Except CompileError β} (hfirst : Advances stop tokens left first)
    (hnext : ∀ value, Advances stop (left value) leftThen (next value)) :
    Advances stop tokens leftThen (first >>= next) := by
  cases first with
  | ok value => exact (hnext value).behind (hfirst.reaches value rfl)
  | error error => exact .error (hfirst.blames error rfl)

theorem reading {first : Except CompileError (Reading α tokens)}
    {next : Reading α tokens → Except CompileError β}
    (hfirst : Advances stop tokens Reading.rest first)
    (hnext : ∀ value rest hrest, Advances stop rest leftThen (next ⟨value, rest, hrest⟩)) :
    Advances stop tokens leftThen (first >>= next) :=
  hfirst.bind fun ⟨value, rest, hrest⟩ => hnext value rest hrest

theorem scanning {first : Except CompileError (Scanning α tokens)}
    {next : Scanning α tokens → Except CompileError β}
    (hfirst : Advances stop tokens Scanning.rest first)
    (hnext : ∀ value rest hrest, Advances stop rest leftThen (next ⟨value, rest, hrest⟩)) :
    Advances stop tokens leftThen (first >>= next) :=
  hfirst.bind fun ⟨value, rest, hrest⟩ => hnext value rest hrest

theorem map {change : α → β} (hfirst : Advances stop tokens left first)
    (hchange : ∀ value, leftThen (change value) = left value) :
    Advances stop tokens leftThen (first.map change) := by
  cases first with
  | ok value => exact .ok (by rw [hchange]; exact hfirst.reaches value rfl)
  | error error => exact .error (hfirst.blames error rfl)

theorem unexpected (kind : TokenKind) (text : Option String) :
    Advances stop tokens left (.error (Reading.unexpected stop tokens kind text)) :=
  .error (.next (List.suffix_refl tokens) _)

theorem missingExpression :
    Advances stop tokens left (.error (Reading.missingExpression stop tokens)) :=
  .error (.next (List.suffix_refl tokens) _)

end Advances

namespace Reading

variable {stop : Span} {tokens : List Token}

theorem reaches_accept {test : Token → Bool} {token : Token} {rest : List Token} {hrest}
    (haccept : accept test tokens = some ⟨token, rest, hrest⟩)
    (htest : test token = true → token.kind ≠ .endOfInput) : Reaches tokens rest := by
  obtain ⟨rfl, htoken⟩ := eq_cons_of_accept haccept
  exact .cons (htest htoken) (.refl rest)

theorem advances_keyword (word : Keyword) :
    Advances stop tokens Reading.rest (keyword stop word tokens) := by
  unfold keyword
  split
  · next haccept =>
    refine .ok (reaches_accept haccept fun htoken => ?_)
    simp [(Token.spec_of_isKeyword htoken).1]
  · exact .unexpected _ _

theorem advances_delimiter (text : String) :
    Advances stop tokens Reading.rest (delimiter stop text tokens) := by
  unfold delimiter
  split
  · next haccept =>
    refine .ok (reaches_accept haccept fun htoken => ?_)
    simp [(Token.spec_of_isDelimiter htoken).1]
  · exact .unexpected _ _

theorem advances_ofKind {kind : TokenKind} (hkind : kind ≠ .endOfInput) :
    Advances stop tokens Reading.rest (ofKind stop kind tokens) := by
  unfold ofKind
  split
  · next haccept =>
    refine .ok (reaches_accept haccept fun htoken => ?_)
    rwa [of_decide_eq_true htoken]
  · exact .unexpected _ _

theorem advances_identifier : Advances stop tokens Reading.rest (identifier stop tokens) := by
  unfold identifier
  refine (advances_ofKind (by decide)).reading fun token rest hrest => ?_
  exact .ok (.refl rest)

theorem advances_identifiersBy {separator : Token → Bool}
    (hseparator : ∀ token, separator token = true → token.kind ≠ .endOfInput)
    (tokens : List Token) :
    Advances stop tokens Reading.rest (identifiersBy stop separator tokens) := by
  rw [identifiersBy]
  refine advances_identifier.reading fun first afterFirst hfirst => ?_
  dsimp only
  split
  · exact .ok (.refl afterFirst)
  · next token afterSeparator hafter haccept =>
    refine Advances.behind (reaches_accept haccept (hseparator token)) ?_
    refine (advances_identifiersBy hseparator afterSeparator).reading fun _ rest _ => ?_
    exact .ok (.refl rest)
termination_by tokens.length

theorem advances_itemsUntil {α : Type} {close : String} {bound : Nat}
    {item : (tokens : List Token) → tokens.length ≤ bound → Except CompileError (Reading α tokens)}
    (hitem : ∀ tokens hbound, Advances stop tokens Reading.rest (item tokens hbound))
    (isFirst : Bool) (tokens : List Token) (hbound : tokens.length ≤ bound) :
    Advances stop tokens Reading.rest (itemsUntil stop close bound item isFirst tokens hbound) := by
  rw [itemsUntil]
  split
  · next token rest hrest haccept =>
    refine .ok (reaches_accept haccept fun htoken => ?_)
    simp [(Token.spec_of_isDelimiter htoken).1]
  · have hcomma : Advances stop tokens Scanning.rest
        (show Except CompileError (Scanning Unit tokens) from
          if isFirst then .ok ⟨(), tokens, Nat.le_refl _⟩
          else (delimiter stop "," tokens).map fun r => ⟨(), r.rest, Nat.le_of_lt r.shorter⟩) := by
      split
      · exact .ok (.refl tokens)
      · exact (advances_delimiter ",").map fun _ => rfl
    refine hcomma.scanning fun _ beforeItem hbefore => ?_
    refine (hitem beforeItem _).reading fun first afterItem hafter => ?_
    refine (advances_itemsUntil hitem false afterItem _).reading fun ⟨more, token⟩ rest hrest => ?_
    exact .ok (.refl rest)
termination_by tokens.length

theorem advances_parameters : Advances stop tokens Reading.rest (parameters stop tokens) := by
  unfold parameters
  refine (advances_delimiter "(").reading fun _ inside _ => ?_
  refine (advances_itemsUntil (fun _ _ => advances_identifier) true inside _).reading
    fun ⟨names, _⟩ rest _ => ?_
  exact .ok (.refl rest)

theorem advances_lambdaParameters (tokens : List Token) :
    Advances stop tokens Reading.rest (lambdaParameters stop tokens) := by
  rw [lambdaParameters]
  refine advances_identifier.reading fun first afterFirst hfirst => ?_
  dsimp only
  split
  · exact .ok (.refl afterFirst)
  · refine (advances_delimiter ",").reading fun _ afterComma hcomma => ?_
    refine (advances_lambdaParameters afterComma).reading fun more rest hrest => ?_
    exact .ok (.refl rest)
termination_by tokens.length

end Reading

namespace Parser

open Reading

variable {stop : Span} {tokens : List Token}

theorem advances_hostDecl (start : Span) :
    Advances stop tokens Reading.rest (hostDecl stop start tokens) := by
  unfold hostDecl
  split
  · next token afterClass hclass haccept =>
    refine Advances.behind (reaches_accept haccept fun htoken => ?_) ?_
    · simp [(Token.spec_of_isKeyword htoken).1]
    · exact advances_identifier.reading fun _ rest _ => .ok (.refl rest)
  · exact advances_identifier.reading fun _ rest _ => .ok (.refl rest)

theorem advances_dottedPath : Advances stop tokens Reading.rest (dottedPath stop tokens) := by
  refine advances_identifiersBy (fun token htoken => ?_) tokens
  simp only [Token.isOperator, Bool.and_eq_true, decide_eq_true_eq] at htoken
  simp [htoken.1]

theorem advances_importModule (start : Span) :
    Advances stop tokens Reading.rest (importModule stop start tokens) :=
  advances_dottedPath.reading fun _ rest _ => .ok (.refl rest)

theorem advances_importExports (start : Span) :
    Advances stop tokens Reading.rest (importExports stop start tokens) := by
  refine advances_dottedPath.reading fun ⟨segment, segments⟩ afterPath _ => ?_
  refine (advances_keyword .importWord).reading fun _ afterWord _ => ?_
  dsimp only
  split
  · next token afterDefault hdefault haccept =>
    refine Advances.behind (reaches_accept haccept fun htoken => ?_) ?_
    · simp [(Token.spec_of_isKeyword htoken).1]
    · exact advances_identifier.reading fun _ rest _ => .ok (.refl rest)
  · refine (advances_identifiersBy (fun token htoken => ?_) afterWord).reading
      fun _ rest _ => .ok (.refl rest)
    simp [(Token.spec_of_isDelimiter htoken).1]

theorem advances_methodName : Advances stop tokens Reading.rest (methodName stop tokens) := by
  unfold methodName
  split
  · next token rest hrest haccept =>
    have hreaches : Reaches tokens rest := by
      refine reaches_accept haccept fun htoken => ?_
      simp [of_decide_eq_true htoken]
    split
    · exact .unexpected _ _
    · exact .unexpected _ _
    · exact .ok hreaches
  · exact advances_identifier.reading fun _ rest _ => .ok (.refl rest)

theorem advances_fieldKey : Advances stop tokens Reading.rest (fieldKey stop tokens) := by
  unfold fieldKey
  refine Advances.reading ?_ fun key afterKey _ =>
    (advances_delimiter ":").reading fun _ rest _ => .ok (.refl rest)
  split
  · next r haccept =>
    refine .ok (reaches_accept haccept fun htoken => ?_)
    simp [of_decide_eq_true htoken]
  · exact advances_ofKind (by decide)

variable (stop) in
/-- That lists of fewer tokens than a bound are read and left as they should be. These are the
    readers that are used behind a token already read. -/
structure AdvancesBelow (bound : Nat) : Prop where
  primary : ∀ {tokens}, tokens.length < bound →
    Advances stop tokens Reading.rest (primary stop tokens)
  climb : ∀ {tokens} left least, tokens.length < bound →
    Advances stop tokens Scanning.rest (climb stop left least tokens)
  expression : ∀ {tokens}, tokens.length < bound →
    Advances stop tokens Reading.rest (expression stop tokens)
  constructed : ∀ {tokens} owner, tokens.length < bound →
    Advances stop tokens Scanning.rest (constructed stop owner tokens)
  statements : ∀ {tokens} words, tokens.length < bound →
    Advances stop tokens Scanning.rest (statements stop words tokens)
  block : ∀ {tokens}, tokens.length < bound →
    Advances stop tokens Reading.rest (block stop tokens)
  condition : ∀ {tokens} start, tokens.length < bound →
    Advances stop tokens Reading.rest (condition stop start tokens)
  members : ∀ {tokens}, tokens.length < bound →
    Advances stop tokens Scanning.rest (members stop tokens)

variable {bound : Nat}

/-! ### Expressions -/

theorem advances_items (hbelow : AdvancesBelow stop bound) (close : String)
    (hlen : tokens.length < bound) :
    Advances stop tokens Reading.rest (itemsUntil stop close tokens.length
      (fun tokens _ => expression stop tokens) true tokens (Nat.le_refl _)) :=
  advances_itemsUntil (fun _ hbound => hbelow.expression (Nat.lt_of_le_of_lt hbound hlen)) true
    tokens _

theorem advances_entries (hbelow : AdvancesBelow stop bound) (hlen : tokens.length < bound) :
    Advances stop tokens Reading.rest (itemsUntil stop "\x7d" tokens.length
      (fun tokens _ => entry stop tokens) true tokens (Nat.le_refl _)) := by
  refine advances_itemsUntil (fun tokens hbound => ?_) true tokens _
  rw [entry]
  refine advances_fieldKey.reading fun key afterKey hkey => ?_
  refine (hbelow.expression (by omega)).reading fun value rest _ => ?_
  exact .ok (.refl rest)

theorem advances_primary (hbelow : AdvancesBelow stop bound) (hlen : tokens.length ≤ bound) :
    Advances stop tokens Reading.rest (primary stop tokens) := by
  cases tokens with
  | nil =>
    rw [primary]
    exact .missingExpression
  | cons token tail =>
    have htail : tail.length < bound := hlen
    have hproper (hkind : token.kind ≠ .endOfInput) : Reaches (token :: tail) tail :=
      .cons hkind (.refl tail)
    rw [primary]
    split
    · next hkind => exact .ok (hproper (by simp [hkind]))
    · next hkind => exact .ok (hproper (by simp [hkind]))
    · next hkind => exact .ok (hproper (by simp [hkind]))
    · next hkind =>
      split
      · exact .missingExpression
      · refine Advances.behind (hproper (by simp [hkind])) ?_
        refine (hbelow.primary htail).reading fun inner middle hmiddle => ?_
        refine (hbelow.climb inner callPower (by omega)).scanning fun operand rest _ => ?_
        exact .ok (.refl rest)
    · next hkind =>
      have hnext := hproper (by simp [hkind])
      split
      · refine Advances.behind hnext ?_
        refine (hbelow.expression htail).reading fun inner middle _ => ?_
        exact (advances_delimiter ")").reading fun _ rest _ => .ok (.refl rest)
      split
      · refine Advances.behind hnext ?_
        exact (advances_items hbelow "]" htail).reading fun ⟨_, _⟩ rest _ => .ok (.refl rest)
      split
      · refine Advances.behind hnext ?_
        exact (advances_entries hbelow htail).reading fun ⟨_, _⟩ rest _ => .ok (.refl rest)
      · exact .missingExpression
    · next hkind =>
      have hnext := hproper (by simp [hkind])
      split
      · refine Advances.behind hnext ?_
        refine (advances_lambdaParameters tail).reading fun params afterParams _ => ?_
        exact (hbelow.block (by omega)).reading fun _ rest _ => .ok (.refl rest)
      split
      · refine Advances.behind hnext ?_
        refine (hbelow.statements [.endWord] htail).scanning fun body afterBody _ => ?_
        exact (advances_keyword .endWord).reading fun _ rest _ => .ok (.refl rest)
      split
      · refine Advances.behind hnext ?_
        refine (hbelow.primary htail).reading fun owner middle hmiddle => ?_
        refine (hbelow.constructed owner (by omega)).scanning fun callee afterCallee hafter => ?_
        refine (advances_delimiter "(").reading fun _ inside hinside => ?_
        exact (advances_items hbelow ")" (by omega)).reading
          fun ⟨_, _⟩ rest _ => .ok (.refl rest)
      · exact .missingExpression
    · exact .missingExpression

theorem kind_of_binding? {token : Token} {binding : Binding}
    (hbinding : token.binding? = some binding) : token.kind ≠ .endOfInput := by
  intro hkind
  simp [Token.binding?, Token.isDelimiter, hkind] at hbinding

theorem advances_climb (hbelow : AdvancesBelow stop bound) (hlen : tokens.length ≤ bound)
    (left : Expression) (least : Nat) :
    Advances stop tokens Scanning.rest (climb stop left least tokens) := by
  cases tokens with
  | nil =>
    rw [climb]
    exact .ok (.refl [])
  | cons token tail =>
    have htail : tail.length < bound := hlen
    rw [climb]
    split
    · exact .ok (.refl (token :: tail))
    · next binding hbinding =>
      split
      · exact .ok (.refl (token :: tail))
      · refine Advances.behind (.cons (kind_of_binding? hbinding) (.refl tail)) ?_
        split
        · refine (advances_items hbelow ")" htail).reading fun ⟨args, close⟩ middle hmiddle => ?_
          refine (hbelow.climb _ least (by omega)).scanning fun _ rest _ => ?_
          exact .ok (.refl rest)
        · refine (hbelow.primary htail).reading fun operand middle hmiddle => ?_
          refine (hbelow.climb operand _ (by omega)).scanning fun right after hafter => ?_
          refine (hbelow.climb _ least (by omega)).scanning fun _ rest _ => ?_
          exact .ok (.refl rest)

theorem advances_expression (hbelow : AdvancesBelow stop bound) (hlen : tokens.length ≤ bound) :
    Advances stop tokens Reading.rest (expression stop tokens) := by
  rw [expression]
  refine (advances_primary hbelow hlen).reading fun operand middle hmiddle => ?_
  refine (hbelow.climb operand 0 (by omega)).scanning fun target afterTarget hafter => ?_
  dsimp only
  split
  · exact .ok (.refl afterTarget)
  · next sign afterSign hsign haccept =>
    split
    · obtain ⟨rfl, -⟩ := eq_cons_of_accept haccept
      exact .error (.next (List.suffix_refl _) _)
    · have hreaches : Reaches afterTarget afterSign := by
        refine reaches_accept haccept fun htoken hkind => ?_
        simp [Token.isAssignment, hkind] at htoken
      refine Advances.behind hreaches ?_
      exact (hbelow.expression (by omega)).reading fun _ rest _ => .ok (.refl rest)

theorem advances_constructed (hbelow : AdvancesBelow stop bound) (hlen : tokens.length ≤ bound)
    (owner : Expression) :
    Advances stop tokens Scanning.rest (constructed stop owner tokens) := by
  rw [constructed]
  split
  · exact .ok (.refl tokens)
  · next point afterPoint hpoint haccept =>
    have hreaches : Reaches tokens afterPoint := by
      refine reaches_accept haccept fun htoken hkind => ?_
      simp [Token.isOperator, hkind] at htoken
    refine Advances.behind hreaches ?_
    refine (hbelow.primary (by omega)).reading fun key middle hmiddle => ?_
    exact (hbelow.constructed _ (by omega)).scanning fun _ rest _ => .ok (.refl rest)

/-! ### Blocks and statements behind their opening word -/

theorem advances_block (hbelow : AdvancesBelow stop bound) (hlen : tokens.length ≤ bound) :
    Advances stop tokens Reading.rest (block stop tokens) := by
  rw [block]
  refine (advances_keyword .doWord).reading fun opening inside hinside => ?_
  refine (hbelow.statements [.endWord] (by omega)).scanning fun body afterBody _ => ?_
  exact (advances_keyword .endWord).reading fun _ rest _ => .ok (.refl rest)

theorem advances_condition (hbelow : AdvancesBelow stop bound) (hlen : tokens.length ≤ bound)
    (start : Span) : Advances stop tokens Reading.rest (condition stop start tokens) := by
  rw [condition]
  refine (advances_expression hbelow hlen).reading fun test afterTest htest => ?_
  refine (advances_keyword .thenWord).reading fun thenWord inside hinside => ?_
  refine (hbelow.statements _ (by omega)).scanning fun thenBody afterThen hthen => ?_
  dsimp only at hthen ⊢
  split
  · next close rest hrest haccept =>
    refine .ok (reaches_accept haccept fun htoken => ?_)
    simp [(Token.spec_of_isKeyword htoken).1]
  · refine (advances_keyword .elseWord).reading fun elseWord afterElse helse => ?_
    dsimp only
    split
    · next ifWord afterIf hif haccept =>
      refine Advances.behind (reaches_accept haccept fun htoken => ?_) ?_
      · simp [(Token.spec_of_isKeyword htoken).1]
      · exact (hbelow.condition _ (by omega)).reading fun _ rest _ => .ok (.refl rest)
    · refine (hbelow.statements [.endWord] (by omega)).scanning fun elseBody afterBody _ => ?_
      exact (advances_keyword .endWord).reading fun _ rest _ => .ok (.refl rest)

theorem advances_forLoop (hbelow : AdvancesBelow stop bound) (hlen : tokens.length ≤ bound)
    (start : Span) : Advances stop tokens Reading.rest (forLoop stop start tokens) := by
  rw [forLoop]
  refine advances_identifier.reading fun item afterItem hitem => ?_
  refine (advances_keyword .inWord).reading fun _ afterIn hin => ?_
  refine (hbelow.expression (by omega)).reading fun iterable middle hmiddle => ?_
  exact (hbelow.block (by omega)).reading fun _ rest _ => .ok (.refl rest)

theorem advances_whileLoop (hbelow : AdvancesBelow stop bound) (hlen : tokens.length ≤ bound)
    (start : Span) : Advances stop tokens Reading.rest (whileLoop stop start tokens) := by
  rw [whileLoop]
  refine (advances_expression hbelow hlen).reading fun test middle hmiddle => ?_
  exact (hbelow.block (by omega)).reading fun _ rest _ => .ok (.refl rest)

theorem advances_functionDecl (hbelow : AdvancesBelow stop bound) (hlen : tokens.length ≤ bound)
    (start : Span) : Advances stop tokens Reading.rest (functionDecl stop start tokens) := by
  rw [functionDecl]
  refine advances_identifier.reading fun name afterName hname => ?_
  have hparams : Advances stop afterName Scanning.rest
      (show Except CompileError (Scanning (List Identifier) afterName) from
        if (accept (fun token => token.isDelimiter "(") afterName).isSome then
          (parameters stop afterName).map fun r => ⟨r.value, r.rest, Nat.le_of_lt r.shorter⟩
        else .ok ⟨[], afterName, Nat.le_refl _⟩) := by
    split
    · exact advances_parameters.map fun _ => rfl
    · exact .ok (.refl afterName)
  refine hparams.scanning fun params afterParams hafter => ?_
  exact (hbelow.block (by omega)).reading fun _ rest _ => .ok (.refl rest)

theorem advances_classDecl (hbelow : AdvancesBelow stop bound) (hlen : tokens.length ≤ bound)
    (start : Span) : Advances stop tokens Reading.rest (classDecl stop start tokens) := by
  rw [classDecl]
  refine advances_identifier.reading fun name afterName hname => ?_
  refine (advances_keyword .doWord).reading fun _ inside hinside => ?_
  refine (hbelow.members (by omega)).scanning fun parts afterParts _ => ?_
  exact (advances_keyword .endWord).reading fun _ rest _ => .ok (.refl rest)

theorem advances_returnValue (hbelow : AdvancesBelow stop bound) (hlen : tokens.length ≤ bound)
    (start : Span) : Advances stop tokens Scanning.rest (returnValue stop start tokens) := by
  rw [returnValue]
  split
  · exact (advances_expression hbelow hlen).reading fun _ rest _ => .ok (.refl rest)
  · exact .ok (.refl tokens)

/-- What is marked as local without being an assignment is blamed itself. -/
theorem advances_localAssignment (hbelow : AdvancesBelow stop bound)
    (hlen : tokens.length ≤ bound) (start : Span) :
    Advances stop tokens Reading.rest (localAssignment stop start tokens) := by
  rw [localAssignment]
  cases hvalue : expression stop tokens with
  | error error => exact .error ((advances_expression hbelow hlen).blames error hvalue)
  | ok reading =>
    obtain ⟨value, rest, hrest⟩ := reading
    have hreaches := (advances_expression hbelow hlen).reaches _ hvalue
    have hreads := (soundBelow stop _).expression (Nat.lt_succ_self _) hvalue
    cases value with
    | assign => exact .ok hreaches
    | _ => exact .error (.unassigned (List.suffix_refl tokens) hreads)

theorem advances_expressionStatement (hbelow : AdvancesBelow stop bound)
    (hlen : tokens.length ≤ bound) :
    Advances stop tokens Reading.rest (expressionStatement stop tokens) := by
  rw [expressionStatement]
  exact (advances_expression hbelow hlen).reading fun _ rest _ => .ok (.refl rest)

/-- Behind an opening word the rest of a statement is read. -/
theorem advances_opened {word : Keyword} {token : Token} {tail : List Token} {α : Type}
    {left : α → List Token} {result : Except CompileError α}
    (hword : token.keyword? = some word) (hresult : Advances stop tail left result) :
    Advances stop (token :: tail) left result := by
  have hkind := (Token.spec_of_isKeyword (Token.isKeyword_iff.mpr hword)).1
  exact hresult.behind (.cons (by simp [hkind]) (.refl tail))

theorem advances_exportDecl (hbelow : AdvancesBelow stop bound) (hlen : tokens.length ≤ bound)
    (start : Span) : Advances stop tokens Reading.rest (exportDecl stop start tokens) := by
  cases tokens with
  | nil =>
    rw [exportDecl]
    exact (advances_expressionStatement hbelow hlen).reading fun _ rest _ => .ok (.refl rest)
  | cons token tail =>
    have htail : tail.length ≤ bound := Nat.le_of_lt hlen
    have hopened {word : Keyword} {result : Except CompileError (Reading Statement tail)}
        (hword : token.keyword? = some word) (hresult : Advances stop tail Reading.rest result) :
        Advances stop (token :: tail) Reading.rest
          (result.map fun reading => reading.behind token) :=
      (advances_opened hword hresult).map fun _ => rfl
    rw [exportDecl]
    split
    · next hword =>
      exact (hopened hword (advances_functionDecl hbelow htail _)).reading
        fun _ rest _ => .ok (.refl rest)
    · next hword =>
      exact (hopened hword (advances_classDecl hbelow htail _)).reading
        fun _ rest _ => .ok (.refl rest)
    · next hword =>
      exact (hopened hword (advances_localAssignment hbelow htail _)).reading
        fun _ rest _ => .ok (.refl rest)
    · exact (advances_expressionStatement hbelow hlen).reading fun _ rest _ => .ok (.refl rest)

/-! ### Statements and members -/

theorem advances_unguarded (hbelow : AdvancesBelow stop bound) (hlen : tokens.length ≤ bound) :
    Advances stop tokens Reading.rest (unguarded stop tokens) := by
  cases tokens with
  | nil =>
    rw [unguarded]
    exact advances_expressionStatement hbelow hlen
  | cons token tail =>
    have htail : tail.length ≤ bound := Nat.le_of_lt hlen
    have hopened {word : Keyword} {result : Except CompileError (Reading Statement tail)}
        (hword : token.keyword? = some word) (hresult : Advances stop tail Reading.rest result) :
        Advances stop (token :: tail) Reading.rest (do return (← result).behind token) :=
      advances_opened hword (hresult.reading fun _ rest _ => .ok (.refl rest))
    have halone {word : Keyword} (hword : token.keyword? = some word) (value : Statement) :
        Advances stop (token :: tail) Reading.rest
          (.ok (⟨value, tail, by simp⟩ : Reading Statement (token :: tail))) :=
      advances_opened hword (.ok (.refl tail))
    rw [unguarded]
    split
    · next hword => exact hopened hword (advances_condition hbelow htail _)
    · next hword => exact hopened hword (advances_forLoop hbelow htail _)
    · next hword => exact hopened hword (advances_whileLoop hbelow htail _)
    · next hword => exact hopened hword (advances_functionDecl hbelow htail _)
    · next hword => exact hopened hword (advances_classDecl hbelow htail _)
    · next hword =>
      refine advances_opened hword ?_
      exact (advances_returnValue hbelow htail _).scanning fun _ rest _ => .ok (.refl rest)
    · next hword => exact halone hword _
    · next hword => exact halone hword _
    · next hword => exact hopened hword (advances_hostDecl _)
    · next hword => exact hopened hword (advances_localAssignment hbelow htail _)
    · next hword => exact hopened hword (advances_importModule _)
    · next hword => exact hopened hword (advances_importExports _)
    · next hword => exact hopened hword (advances_exportDecl hbelow htail _)
    · exact advances_expressionStatement hbelow hlen

theorem advances_statement (hbelow : AdvancesBelow stop bound) (hlen : tokens.length ≤ bound) :
    Advances stop tokens Reading.rest (statement stop tokens) := by
  rw [statement]
  refine (advances_unguarded hbelow hlen).reading fun inner afterInner hinner => ?_
  dsimp only
  split
  · next word afterIf hif haccept =>
    have hreaches : Reaches afterInner afterIf := by
      refine reaches_accept haccept fun htoken => ?_
      simp [(Token.spec_of_isKeyword (Bool.and_eq_true_iff.mp htoken).1).1]
    refine Advances.behind hreaches ?_
    exact (hbelow.expression (by omega)).reading fun _ rest _ => .ok (.refl rest)
  · exact .ok (.refl afterInner)

theorem advances_statements (hbelow : AdvancesBelow stop bound) (hlen : tokens.length ≤ bound)
    (words : List Keyword) : Advances stop tokens Scanning.rest (statements stop words tokens) := by
  cases tokens with
  | nil =>
    rw [statements]
    exact .ok (.refl [])
  | cons token tail =>
    rw [statements]
    split
    · exact .ok (.refl (token :: tail))
    · refine (advances_statement hbelow hlen).reading fun first middle hmiddle => ?_
      exact (hbelow.statements words (by omega)).scanning fun _ rest _ => .ok (.refl rest)

theorem advances_method (hbelow : AdvancesBelow stop bound) (hlen : tokens.length ≤ bound) :
    Advances stop tokens Reading.rest (method stop tokens) := by
  rw [method]
  refine advances_methodName.reading fun name afterName hname => ?_
  refine advances_parameters.reading fun params afterParams hparams => ?_
  exact (hbelow.block (by omega)).reading fun _ rest _ => .ok (.refl rest)

theorem advances_member (hbelow : AdvancesBelow stop bound) (hlen : tokens.length ≤ bound) :
    Advances stop tokens Reading.rest (member stop tokens) := by
  match tokens, hlen with
  | [], hlen =>
    rw [member]
    · exact advances_method hbelow hlen
    · simp
  | [token], hlen =>
    rw [member]
    · exact advances_method hbelow hlen
    · simp
  | token :: sign :: afterSign, hlen =>
    rw [member]
    split
    · next hkinds =>
      simp only [Bool.and_eq_true, decide_eq_true_eq] at hkinds
      have hreaches : Reaches (token :: sign :: afterSign) afterSign :=
        .cons (by simp [hkinds.1]) (.cons (by simp [hkinds.2]) (.refl afterSign))
      have hshort : afterSign.length < bound := Nat.lt_of_succ_lt hlen
      refine Advances.behind hreaches ?_
      exact (hbelow.expression hshort).reading fun _ rest _ => .ok (.refl rest)
    · exact advances_method hbelow hlen

theorem advances_members (hbelow : AdvancesBelow stop bound) (hlen : tokens.length ≤ bound) :
    Advances stop tokens Scanning.rest (members stop tokens) := by
  cases tokens with
  | nil =>
    rw [members]
    exact .ok (.refl [])
  | cons token tail =>
    rw [members]
    split
    · exact .ok (.refl (token :: tail))
    · refine (advances_member hbelow hlen).reading fun first middle hmiddle => ?_
      exact (hbelow.members (by omega)).scanning fun _ rest _ => .ok (.refl rest)

/-- Every list of tokens is read and left as it should be. -/
theorem advancesBelow (stop : Span) (bound : Nat) : AdvancesBelow stop bound := by
  induction bound with
  | zero => constructor <;> (intros; omega)
  | succ bound ih =>
    constructor
    · exact fun hlen => advances_primary ih (Nat.le_of_lt_succ hlen)
    · exact fun left least hlen => advances_climb ih (Nat.le_of_lt_succ hlen) left least
    · exact fun hlen => advances_expression ih (Nat.le_of_lt_succ hlen)
    · exact fun owner hlen => advances_constructed ih (Nat.le_of_lt_succ hlen) owner
    · exact fun words hlen => advances_statements ih (Nat.le_of_lt_succ hlen) words
    · exact fun hlen => advances_block ih (Nat.le_of_lt_succ hlen)
    · exact fun start hlen => advances_condition ih (Nat.le_of_lt_succ hlen) start
    · exact fun hlen => advances_members ih (Nat.le_of_lt_succ hlen)

end Parser

/-! ### Whole token lists -/

/-- The index of the first token behind what is read. -/
def Reading.index {α : Type} {tokens : List Token} (reading : Reading α tokens) : Nat :=
  tokens.length - reading.rest.length

namespace Program

end Program

end KaLang
