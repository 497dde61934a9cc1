import KaLang.Proofs.Syntax.Moving

/-!
The parser on tokens that are put elsewhere. Between what is read off moved tokens and off the
tokens themselves no reader can tell: both runs fail with the same fault, or both succeed with
values that are like one another and leave the same tokens. As in the account of how far the readers
go, there is one lemma for each reader and one induction on the length (`Parser.alikeBelow`).
-/

namespace KaLang

variable {r : Relocation} {move : Token → Token} {all : List Token} (hmoves : r.Moves move)

namespace Parser

open Reading

variable {tokens : List Token} {stop start : Span}

variable (r move all stop) in
/-- That lists of fewer tokens than a bound are read alike where their tokens are moved. These are
    the readers that are used behind a token already read. -/
structure AlikeBelow (bound : Nat) : Prop where
  primary : ∀ {tokens}, tokens.length < bound → tokens <:+ all →
    Alike r (Reading.Follows move all (Expression.Like r)) (primary stop tokens)
      (primary (stop.relocate r) (tokens.map move))
  climb : ∀ {tokens left other} least, tokens.length < bound → tokens <:+ all →
    Expression.Like r left other →
    Alike r (Scanning.Follows move all (Expression.Like r)) (climb stop left least tokens)
      (climb (stop.relocate r) other least (tokens.map move))
  expression : ∀ {tokens}, tokens.length < bound → tokens <:+ all →
    Alike r (Reading.Follows move all (Expression.Like r)) (expression stop tokens)
      (expression (stop.relocate r) (tokens.map move))
  constructed : ∀ {tokens owner other}, tokens.length < bound → tokens <:+ all →
    Expression.Like r owner other →
    Alike r (Scanning.Follows move all (Expression.Like r)) (constructed stop owner tokens)
      (constructed (stop.relocate r) other (tokens.map move))
  statements : ∀ {tokens} words, tokens.length < bound → tokens <:+ all →
    Alike r (Scanning.Follows move all fun _ _ => True) (statements stop words tokens)
      (statements (stop.relocate r) words (tokens.map move))
  block : ∀ {tokens}, tokens.length < bound → tokens <:+ all →
    Alike r (Reading.Follows move all (Block.Like r)) (block stop tokens)
      (block (stop.relocate r) (tokens.map move))
  condition : ∀ {tokens} start, tokens.length < bound → tokens <:+ all →
    Alike r (Reading.Follows move all (Statement.Like r)) (condition stop start tokens)
      (condition (stop.relocate r) (start.relocate r) (tokens.map move))
  members : ∀ {tokens}, tokens.length < bound → tokens <:+ all →
    Alike r (Scanning.Follows move all fun _ _ => True) (members stop tokens)
      (members (stop.relocate r) (tokens.map move))

variable {bound : Nat} (hbelow : AlikeBelow r move all stop bound)

include hmoves hbelow

/-! ### Expressions -/

theorem alike_items (close : String) (hlen : tokens.length < bound) (htokens : tokens <:+ all) :
    Alike r (Reading.Follows move all fun a b =>
        List.Forall₂ (Expression.Like r) a.1 b.1 ∧ b.2 = a.2.relocate r)
      (itemsUntil stop close tokens.length (fun tokens _ => expression stop tokens) true tokens
        (Nat.le_refl _))
      (itemsUntil (stop.relocate r) close (tokens.map move).length
        (fun tokens _ => expression (stop.relocate r) tokens) true (tokens.map move)
        (Nat.le_refl _)) :=
  alike_itemsUntil hmoves (fun _ hbound _ hsuffix =>
    hbelow.expression (Nat.lt_of_le_of_lt hbound hlen) hsuffix) true tokens _ _ htokens

theorem alike_entries (hlen : tokens.length < bound) (htokens : tokens <:+ all) :
    Alike r (Reading.Follows move all fun a b =>
        List.Forall₂ (fun _ _ => True) a.1 b.1 ∧ b.2 = a.2.relocate r)
      (itemsUntil stop "\x7d" tokens.length (fun tokens _ => entry stop tokens) true tokens
        (Nat.le_refl _))
      (itemsUntil (stop.relocate r) "\x7d" (tokens.map move).length
        (fun tokens _ => entry (stop.relocate r) tokens) true (tokens.map move)
        (Nat.le_refl _)) := by
  have hentry (items : List Token) (hitems : items.length < bound) (hsuffix : items <:+ all) :
      Alike r (Reading.Follows move all fun _ _ => True) (entry stop items)
        (entry (stop.relocate r) (items.map move)) := by
    rw [entry, entry]
    refine (alike_fieldKey hmoves hsuffix).reading fun _ _ afterKey hkey _ _ hafter => ?_
    refine (hbelow.expression (by omega) hafter).reading fun _ _ rest _ _ _ hrest => ?_
    exact .ok ⟨trivial, rfl, hrest⟩
  exact alike_itemsUntil hmoves
    (fun items hitems _ hsuffix => hentry items (Nat.lt_of_le_of_lt hitems hlen) hsuffix)
    true tokens _ _ htokens

theorem alike_primary (hlen : tokens.length ≤ bound) (htokens : tokens <:+ all) :
    Alike r (Reading.Follows move all (Expression.Like r)) (primary stop tokens)
      (primary (stop.relocate r) (tokens.map move)) := by
  cases tokens with
  | nil =>
    rw [List.map_nil, primary, primary]
    exact .missingExpression hmoves
  | cons token tail =>
    have htail : tail.length < bound := hlen
    have hsuffix := (List.suffix_cons token tail).trans htokens
    have hmissing {β : Type} {related : Reading Expression (token :: tail) → β → Prop} :
        Alike r related (.error (missingExpression stop (token :: tail)))
          (.error (missingExpression (stop.relocate r) (move token :: tail.map move))) :=
      .missingExpression hmoves
    change @Alike r _ (Reading Expression (move token :: tail.map move))
      (Reading.Follows move all (Expression.Like r)) _ (primary _ (move token :: tail.map move))
    by_cases hstring : token.kind = .string
    · rw [primary, primary]
      simp only [hmoves.kind, hstring]
      exact .ok ⟨⟨hmoves.span token, rfl, rfl, rfl⟩, rfl, hsuffix⟩
    rw [hmoves.eq_relocate hstring] at hmissing ⊢
    rw [primary, primary]
    dsimp only [Token.kind_relocate, Token.text_relocate, Token.span_relocate,
      Token.isKeyword_relocate]
    cases hkind : token.kind with
    | string => exact absurd hkind hstring
    | number => exact .ok ⟨⟨rfl, rfl, rfl, rfl⟩, rfl, hsuffix⟩
    | identifier => exact .ok ⟨⟨rfl, rfl, rfl, rfl⟩, rfl, hsuffix⟩
    | operator =>
      dsimp only
      split
      · exact hmissing
      · refine (hbelow.primary htail hsuffix).reading
          fun inner _ middle hmiddle _ hinner hafter => ?_
        refine (hbelow.climb callPower (by omega) hafter hinner).scanning
          fun operand _ rest _ _ hoperand hrest => ?_
        exact .ok ⟨⟨Span.through_relocate rfl hoperand.span, rfl, rfl, rfl⟩, rfl, hrest⟩
    | delimiter =>
      refine .ite (fun _ => ?_) fun _ => .ite (fun _ => ?_) fun _ => .ite (fun _ => ?_) fun _ => ?_
      · refine (hbelow.expression htail hsuffix).reading fun inner _ middle _ _ hinner hafter => ?_
        refine (alike_delimiter hmoves ")" hafter).reading fun _ _ rest _ _ _ hrest => ?_
        exact .ok ⟨hinner, rfl, hrest⟩
      · refine (alike_items hmoves hbelow "]" htail hsuffix).reading
          fun row other rest _ _ hclose hrest => ?_
        obtain ⟨_, close⟩ := row
        obtain ⟨_, _⟩ := other
        obtain ⟨_, rfl⟩ := hclose
        exact .ok ⟨⟨rfl, rfl, rfl, rfl⟩, rfl, hrest⟩
      · refine (alike_entries hmoves hbelow htail hsuffix).reading
          fun row other rest _ _ hclose hrest => ?_
        obtain ⟨_, close⟩ := row
        obtain ⟨_, _⟩ := other
        obtain ⟨_, rfl⟩ := hclose
        exact .ok ⟨⟨rfl, rfl, rfl, rfl⟩, rfl, hrest⟩
      · exact hmissing
    | keyword =>
      refine .ite (fun _ => ?_) fun _ => .ite (fun _ => ?_) fun _ => .ite (fun _ => ?_) fun _ => ?_
      · refine (alike_lambdaParameters hmoves tail hsuffix).reading
          fun _ _ afterParams hparams _ _ hafter => ?_
        refine (hbelow.block (by omega) hafter).reading fun body _ rest _ _ hbody hrest => ?_
        exact .ok ⟨⟨Span.through_relocate rfl hbody, rfl, rfl, rfl⟩, rfl, hrest⟩
      · refine (hbelow.statements [.endWord] htail hsuffix).scanning
          fun _ _ afterBody _ _ _ hafter => ?_
        refine (alike_keyword hmoves .endWord hafter).reading
          fun close _ rest _ _ hclose hrest => ?_
        subst hclose
        exact .ok ⟨⟨rfl, rfl, rfl, rfl⟩, rfl, hrest⟩
      · refine (hbelow.primary htail hsuffix).reading fun _ _ middle hmiddle _ howner hafter => ?_
        refine (hbelow.constructed (by omega) hafter howner).scanning
          fun _ _ afterCallee hcallee _ _ hopening => ?_
        refine (alike_delimiter hmoves "(" hopening).reading fun _ _ inside hinside _ _ hopen => ?_
        refine (alike_items hmoves hbelow ")" (by omega) hopen).reading
          fun row other rest _ _ hclose hrest => ?_
        obtain ⟨_, close⟩ := row
        obtain ⟨_, _⟩ := other
        obtain ⟨_, rfl⟩ := hclose
        exact .ok ⟨⟨rfl, rfl, rfl, rfl⟩, rfl, hrest⟩
      · exact hmissing
    | endOfInput | equals | compoundAssign => exact hmissing

theorem alike_climb (hlen : tokens.length ≤ bound) (htokens : tokens <:+ all)
    {left other : Expression} (hleft : left.Like r other) (least : Nat) :
    Alike r (Scanning.Follows move all (Expression.Like r)) (climb stop left least tokens)
      (climb (stop.relocate r) other least (tokens.map move)) := by
  cases tokens with
  | nil =>
    rw [List.map_nil, climb, climb]
    exact .ok ⟨hleft, rfl, htokens⟩
  | cons token tail =>
    have htail : tail.length < bound := hlen
    have hsuffix := (List.suffix_cons token tail).trans htokens
    change Alike r _ _ (climb (stop.relocate r) other least (move token :: tail.map move))
    rw [climb, climb]
    rw [hmoves.binding?]
    cases token.binding? with
    | none => exact .ok ⟨hleft, rfl, htokens⟩
    | some binding =>
      refine .ite (fun _ => .ok ⟨hleft, rfl, htokens⟩) fun _ => ?_
      cases binding with
      | call =>
        refine (alike_items hmoves hbelow ")" htail hsuffix).reading
          fun row same middle hmiddle _ hclose hafter => ?_
        obtain ⟨args, close⟩ := row
        obtain ⟨others, _⟩ := same
        obtain ⟨_, rfl⟩ := hclose
        have hcalled : (Expression.call left args (left.span.through close.span)).Like r
            (.call other others (other.span.through (close.relocate r).span)) :=
          ⟨Span.through_relocate hleft.span rfl, rfl, rfl, rfl⟩
        refine (hbelow.climb least (by omega) hafter hcalled).scanning
          fun _ _ rest _ _ hwhole hrest => ?_
        exact .ok ⟨hwhole, rfl, hrest⟩
      | binary op =>
        rw [accept_delimiter hmoves, Option.isSome_map]
        refine (hbelow.primary htail hsuffix).reading fun _ _ middle hmiddle _ hoperand hafter => ?_
        refine (hbelow.climb _ (by omega) hafter hoperand).scanning
          fun _ _ after hafter _ hright hmore => ?_
        refine (hbelow.climb least (by omega) hmore (hleft.join hright)).scanning
          fun _ _ rest _ _ hwhole hrest => ?_
        exact .ok ⟨hwhole, rfl, hrest⟩

theorem alike_expression (hlen : tokens.length ≤ bound) (htokens : tokens <:+ all) :
    Alike r (Reading.Follows move all (Expression.Like r)) (expression stop tokens)
      (expression (stop.relocate r) (tokens.map move)) := by
  rw [expression, expression]
  refine (alike_primary hmoves hbelow hlen htokens).reading
    fun _ _ middle hmiddle _ hoperand hafter => ?_
  refine (hbelow.climb 0 (by omega) hafter hoperand).scanning
    fun target other afterTarget hafter _ htarget hbehind => ?_
  dsimp only
  rw [htarget.assignable,
    @accept_map move afterTarget (fun token => token.isAssignment && target.isAssignable) _
      fun token _ => by rw [hmoves.isAssignment]]
  cases haccept : accept (fun token => token.isAssignment && target.isAssignable) afterTarget with
  | none => exact .ok ⟨htarget, rfl, hbehind⟩
  | some reading =>
    have hmoved := eq_relocate_of_accept hmoves
      (fun _ htest => Token.kind_ne_of_isAssignment (Bool.and_elim_left htest)) haccept
    have hmore := suffix_of_accept haccept hbehind
    obtain ⟨sign, afterSign, hsign⟩ := reading
    dsimp only [Option.map_some, Reading.moved] at hmoved hmore ⊢
    rw [hmoved, Token.assignment?_relocate]
    cases sign.assignment? with
    | none => exact .error _
    | some op =>
      refine (hbelow.expression (by omega) hmore).reading fun value _ rest _ _ hvalue hrest => ?_
      have hspan := Span.through_relocate htarget.span hvalue.span
      exact .ok ⟨⟨hspan, rfl, rfl, congrArg some hvalue.span⟩, rfl, hrest⟩

theorem alike_constructed (hlen : tokens.length ≤ bound) (htokens : tokens <:+ all)
    {owner other : Expression} (howner : owner.Like r other) :
    Alike r (Scanning.Follows move all (Expression.Like r)) (constructed stop owner tokens)
      (constructed (stop.relocate r) other (tokens.map move)) := by
  rw [constructed, constructed]
  rw [accept_operator hmoves]
  cases haccept : accept (fun token => token.isOperator ".") tokens with
  | none => exact .ok ⟨howner, rfl, htokens⟩
  | some reading =>
    obtain ⟨point, afterPoint, hpoint⟩ := reading
    have hbehind : afterPoint <:+ all := suffix_of_accept haccept htokens
    dsimp only [Option.map_some, Reading.moved]
    rw [accept_delimiter hmoves, Option.isSome_map]
    refine (hbelow.primary (by omega) hbehind).reading fun _ _ middle hmiddle _ hkey hafter => ?_
    refine (hbelow.constructed (by omega) hafter (howner.join hkey)).scanning
      fun _ _ rest _ _ hcallee hrest => ?_
    exact .ok ⟨hcallee, rfl, hrest⟩

/-! ### Blocks and statements behind their opening word -/

theorem alike_block (hlen : tokens.length ≤ bound) (htokens : tokens <:+ all) :
    Alike r (Reading.Follows move all (Block.Like r)) (block stop tokens)
      (block (stop.relocate r) (tokens.map move)) := by
  rw [block, block]
  refine (alike_keyword hmoves .doWord htokens).reading
    fun opening _ inside hinside _ hopening hopen => ?_
  subst hopening
  refine (hbelow.statements [.endWord] (by omega) hopen).scanning
    fun _ _ afterBody _ _ _ hbody => ?_
  refine (alike_keyword hmoves .endWord hbody).reading fun close _ rest _ _ hclose hrest => ?_
  subst hclose
  exact .ok ⟨rfl, rfl, hrest⟩

theorem alike_condition (hlen : tokens.length ≤ bound) (htokens : tokens <:+ all) (start : Span) :
    Alike r (Reading.Follows move all (Statement.Like r)) (condition stop start tokens)
      (condition (stop.relocate r) (start.relocate r) (tokens.map move)) := by
  rw [condition, condition]
  refine (alike_expression hmoves hbelow hlen htokens).reading
    fun _ _ afterTest htest _ _ hbehind => ?_
  refine (alike_keyword hmoves .thenWord hbehind).reading fun _ _ inside hinside _ _ hopen => ?_
  refine (hbelow.statements _ (by omega) hopen).scanning fun _ _ afterThen hthen _ _ hbody => ?_
  dsimp only at hthen ⊢
  rw [accept_keyword hmoves]
  cases haccept : accept (fun token => token.isKeyword .endWord) afterThen with
  | some reading =>
    have hmoved := eq_relocate_of_accept hmoves (fun _ => Token.kind_ne_of_isKeyword) haccept
    refine .ok ⟨?_, rfl, suffix_of_accept haccept hbody⟩
    show Span.through _ (move reading.value).span = _
    rw [hmoved]
    rfl
  | none =>
    refine (alike_keyword hmoves .elseWord hbody).reading
      fun elseWord _ afterElse helse _ hword hbranch => ?_
    subst hword
    dsimp only
    rw [accept_keyword hmoves]
    cases haccept : accept (fun token => token.isKeyword .ifWord) afterElse with
    | some reading =>
      have hmoved := eq_relocate_of_accept hmoves (fun _ => Token.kind_ne_of_isKeyword) haccept
      have hchain := suffix_of_accept haccept hbranch
      obtain ⟨ifWord, afterIf, hif⟩ := reading
      dsimp only [Option.map_some, Reading.moved] at hmoved hchain ⊢
      rw [hmoved]
      refine (hbelow.condition ifWord.span (by omega) hchain).reading
        fun branch _ rest _ _ hbranch hrest => ?_
      exact .ok ⟨Span.through_relocate rfl hbranch, rfl, hrest⟩
    | none =>
      refine (hbelow.statements [.endWord] (by omega) hbranch).scanning
        fun _ _ afterBody _ _ _ hafter => ?_
      refine (alike_keyword hmoves .endWord hafter).reading fun close _ rest _ _ hclose hrest => ?_
      subst hclose
      exact .ok ⟨rfl, rfl, hrest⟩

theorem alike_forLoop (hlen : tokens.length ≤ bound) (htokens : tokens <:+ all) (start : Span) :
    Alike r (Reading.Follows move all (Statement.Like r)) (forLoop stop start tokens)
      (forLoop (stop.relocate r) (start.relocate r) (tokens.map move)) := by
  rw [forLoop, forLoop]
  refine (alike_identifier hmoves htokens).reading fun _ _ afterItem hitem _ _ hafter => ?_
  refine (alike_keyword hmoves .inWord hafter).reading fun _ _ afterIn hin _ _ hitems => ?_
  refine (hbelow.expression (by omega) hitems).reading fun _ _ middle hmiddle _ _ hopen => ?_
  refine (hbelow.block (by omega) hopen).reading fun body _ rest _ _ hbody hrest => ?_
  exact .ok ⟨Span.through_relocate rfl hbody, rfl, hrest⟩

theorem alike_whileLoop (hlen : tokens.length ≤ bound) (htokens : tokens <:+ all) (start : Span) :
    Alike r (Reading.Follows move all (Statement.Like r)) (whileLoop stop start tokens)
      (whileLoop (stop.relocate r) (start.relocate r) (tokens.map move)) := by
  rw [whileLoop, whileLoop]
  refine (alike_expression hmoves hbelow hlen htokens).reading
    fun _ _ middle hmiddle _ _ hopen => ?_
  refine (hbelow.block (by omega) hopen).reading fun body _ rest _ _ hbody hrest => ?_
  exact .ok ⟨Span.through_relocate rfl hbody, rfl, hrest⟩

theorem alike_functionDecl (hlen : tokens.length ≤ bound) (htokens : tokens <:+ all)
    (start : Span) :
    Alike r (Reading.Follows move all (Statement.Like r)) (functionDecl stop start tokens)
      (functionDecl (stop.relocate r) (start.relocate r) (tokens.map move)) := by
  rw [functionDecl, functionDecl]
  refine (alike_identifier hmoves htokens).reading fun _ _ afterName hname _ _ hafter => ?_
  dsimp only
  rw [accept_delimiter hmoves, Option.isSome_map]
  refine Alike.scanning (?_ : Alike r (Scanning.Follows move all fun _ _ => True) _ _)
    fun _ _ afterParams _ _ _ hopen => (hbelow.block (by omega) hopen).reading
      fun body _ rest _ _ hbody hrest => ?_
  · refine .ite (fun _ => ?_) fun _ => .ok ⟨trivial, rfl, hafter⟩
    exact (alike_parameters hmoves hafter).map fun _ _ hfollows =>
      ⟨trivial, hfollows.rest, hfollows.suffix⟩
  · exact .ok ⟨Span.through_relocate rfl hbody, rfl, hrest⟩

theorem alike_classDecl (hlen : tokens.length ≤ bound) (htokens : tokens <:+ all) (start : Span) :
    Alike r (Reading.Follows move all (Statement.Like r)) (classDecl stop start tokens)
      (classDecl (stop.relocate r) (start.relocate r) (tokens.map move)) := by
  rw [classDecl, classDecl]
  refine (alike_identifier hmoves htokens).reading fun _ _ afterName hname _ _ hafter => ?_
  refine (alike_keyword hmoves .doWord hafter).reading fun _ _ inside hinside _ _ hopen => ?_
  refine (hbelow.members (by omega) hopen).scanning fun _ _ afterParts _ _ _ hparts => ?_
  refine (alike_keyword hmoves .endWord hparts).reading fun close _ rest _ _ hclose hrest => ?_
  subst hclose
  exact .ok ⟨rfl, rfl, hrest⟩

omit hbelow in
/-- Whether a value stands on the line of its `return` is kept. -/
theorem returnsValue_moved (hkeeps : r.KeepsLines all) {word : Token} (hword : word ∈ all)
    (htokens : tokens <:+ all) :
    returnsValue (word.span.relocate r) (tokens.map move) = returnsValue word.span tokens := by
  cases tokens with
  | nil => rfl
  | cons token tail =>
    have hlines := hkeeps.lines token (htokens.mem List.mem_cons_self) word hword
    simp [returnsValue, Span.relocate, hlines, hmoves.span, hmoves.isKeyword]

theorem alike_returnValue (hkeeps : r.KeepsLines all) (hlen : tokens.length ≤ bound)
    (htokens : tokens <:+ all) {word : Token} (hword : word ∈ all) :
    Alike r (Scanning.Follows move all (Statement.Like r)) (returnValue stop word.span tokens)
      (returnValue (stop.relocate r) (word.span.relocate r) (tokens.map move)) := by
  rw [returnValue, returnValue, returnsValue_moved hmoves hkeeps hword htokens]
  refine .ite (fun _ => ?_) fun _ => .ok ⟨rfl, rfl, htokens⟩
  refine (alike_expression hmoves hbelow hlen htokens).reading
    fun value _ rest _ _ hvalue hrest => ?_
  exact .ok ⟨Span.through_relocate rfl hvalue.span, rfl, hrest⟩

omit hmoves hbelow in
/-- Only an assignment can be marked as local. -/
theorem localStatement_of_assigned?_eq_none {value : Expression} (hvalue : value.assigned? = none) :
    localStatement start value = .error (.parsing .localWithoutAssignment value.span) := by
  cases value with
  | assign => cases hvalue
  | _ => rfl

omit hmoves hbelow in
theorem localStatement_of_assigned?_eq_some {value : Expression} {place : Span}
    (hvalue : value.assigned? = some place) :
    ∃ marked, localStatement start value = .ok marked ∧ marked.span = start.through place := by
  cases value with
  | assign =>
    cases hvalue
    exact ⟨_, rfl, rfl⟩
  | _ => cases hvalue

omit hmoves hbelow in
theorem alike_localStatement (start : Span) {value other : Expression}
    (hlike : value.Like r other) :
    Alike r (Statement.Like r) (localStatement start value)
      (localStatement (start.relocate r) other) := by
  cases hvalue : value.assigned? with
  | none =>
    have hother : other.assigned? = none := by rw [hlike.assigned, hvalue, Option.map_none]
    rw [localStatement_of_assigned?_eq_none hvalue, localStatement_of_assigned?_eq_none hother,
      hlike.span]
    exact .error _
  | some place =>
    have hother : other.assigned? = some (place.relocate r) := by
      rw [hlike.assigned, hvalue, Option.map_some]
    obtain ⟨marked, hmarked, hspan⟩ := localStatement_of_assigned?_eq_some hvalue
    obtain ⟨moved, hmoved, hplace⟩ := localStatement_of_assigned?_eq_some hother
    rw [hmarked, hmoved]
    refine .ok ?_
    rw [Statement.Like, hspan, hplace, Span.relocate_through]

theorem alike_localAssignment (hlen : tokens.length ≤ bound) (htokens : tokens <:+ all)
    (start : Span) :
    Alike r (Reading.Follows move all (Statement.Like r)) (localAssignment stop start tokens)
      (localAssignment (stop.relocate r) (start.relocate r) (tokens.map move)) := by
  rw [localAssignment, localAssignment]
  refine (alike_expression hmoves hbelow hlen htokens).reading
    fun value _ rest _ _ hvalue hrest => ?_
  refine (alike_localStatement start hvalue).bind fun _ _ _ hmarked => ?_
  exact .ok ⟨hmarked, rfl, hrest⟩

theorem alike_expressionStatement (hlen : tokens.length ≤ bound) (htokens : tokens <:+ all) :
    Alike r (Reading.Follows move all (Statement.Like r)) (expressionStatement stop tokens)
      (expressionStatement (stop.relocate r) (tokens.map move)) := by
  rw [expressionStatement, expressionStatement]
  refine (alike_expression hmoves hbelow hlen htokens).reading
    fun value _ rest _ _ hvalue hrest => ?_
  exact .ok ⟨hvalue.span, rfl, hrest⟩

theorem alike_exportDecl (hlen : tokens.length ≤ bound) (htokens : tokens <:+ all) (start : Span) :
    Alike r (Reading.Follows move all (Statement.Like r)) (exportDecl stop start tokens)
      (exportDecl (stop.relocate r) (start.relocate r) (tokens.map move)) := by
  have hexport {value other : Statement} (hvalue : value.Like r other) :
      (Statement.exportDecl value (start.through value.span)).Like r
        (.exportDecl other ((start.relocate r).through other.span)) :=
    Span.through_relocate rfl hvalue
  cases tokens with
  | nil =>
    rw [List.map_nil, exportDecl, exportDecl]
    exact (alike_expressionStatement hmoves hbelow hlen htokens).reading
      fun value _ rest _ _ hvalue hrest => .ok ⟨hexport hvalue, rfl, hrest⟩
  | cons token tail =>
    have htail : tail.length ≤ bound := Nat.le_of_lt hlen
    have hsuffix := (List.suffix_cons token tail).trans htokens
    change Alike r _ _ (exportDecl (stop.relocate r) (start.relocate r)
      (move token :: tail.map move))
    rw [exportDecl, exportDecl]
    dsimp only
    rw [hmoves.keyword?, hmoves.span]
    have hopened {first : Except CompileError (Reading Statement tail)}
        {second : Except CompileError (Reading Statement (tail.map move))}
        (hfirst : Alike r (Reading.Follows move all (Statement.Like r)) first second) :
        Alike r (Reading.Follows move all (Statement.Like r)) (first.map (·.behind token))
          (second.map (·.behind (move token))) :=
      hfirst.map fun _ _ hfollows => ⟨hfollows.value, hfollows.rest, hfollows.suffix⟩
    split
    · exact (hopened (alike_functionDecl hmoves hbelow htail hsuffix _)).reading
        fun value _ rest _ _ hvalue hrest => .ok ⟨hexport hvalue, rfl, hrest⟩
    · exact (hopened (alike_classDecl hmoves hbelow htail hsuffix _)).reading
        fun value _ rest _ _ hvalue hrest => .ok ⟨hexport hvalue, rfl, hrest⟩
    · exact (hopened (alike_localAssignment hmoves hbelow htail hsuffix _)).reading
        fun value _ rest _ _ hvalue hrest => .ok ⟨hexport hvalue, rfl, hrest⟩
    · exact (alike_expressionStatement hmoves hbelow hlen htokens).reading
        fun value _ rest _ _ hvalue hrest => .ok ⟨hexport hvalue, rfl, hrest⟩

/-! ### Statements and members -/

theorem alike_unguarded (hkeeps : r.KeepsLines all) (hlen : tokens.length ≤ bound)
    (htokens : tokens <:+ all) :
    Alike r (Reading.Follows move all (Statement.Like r)) (unguarded stop tokens)
      (unguarded (stop.relocate r) (tokens.map move)) := by
  cases tokens with
  | nil =>
    rw [List.map_nil, unguarded, unguarded]
    exact alike_expressionStatement hmoves hbelow hlen htokens
  | cons token tail =>
    have htail : tail.length ≤ bound := Nat.le_of_lt hlen
    have hsuffix := (List.suffix_cons token tail).trans htokens
    have hopened {first : Except CompileError (Reading Statement tail)}
        {second : Except CompileError (Reading Statement (tail.map move))}
        (hfirst : Alike r (Reading.Follows move all (Statement.Like r)) first second) :
        Alike r (Reading.Follows move all (Statement.Like r))
          (do return (← first).behind token) (do return (← second).behind (move token)) :=
      hfirst.reading fun _ _ _ _ _ hvalue hrest => .ok ⟨hvalue, rfl, hrest⟩
    change Alike r _ _ (unguarded (stop.relocate r) (move token :: tail.map move))
    rw [unguarded, unguarded, hmoves.keyword?, hmoves.span]
    split
    · exact hopened (alike_condition hmoves hbelow htail hsuffix _)
    · exact hopened (alike_forLoop hmoves hbelow htail hsuffix _)
    · exact hopened (alike_whileLoop hmoves hbelow htail hsuffix _)
    · exact hopened (alike_functionDecl hmoves hbelow htail hsuffix _)
    · exact hopened (alike_classDecl hmoves hbelow htail hsuffix _)
    · have hword : token ∈ all := htokens.mem List.mem_cons_self
      exact (alike_returnValue hmoves hbelow hkeeps htail hsuffix hword).scanning
        fun _ _ _ _ _ hvalue hrest => .ok ⟨hvalue, rfl, hrest⟩
    · exact .ok ⟨rfl, rfl, hsuffix⟩
    · exact .ok ⟨rfl, rfl, hsuffix⟩
    · exact hopened ((alike_hostDecl hmoves hsuffix).imp fun _ _ => Statement.like_of_eq)
    · exact hopened (alike_localAssignment hmoves hbelow htail hsuffix _)
    · exact hopened ((alike_importModule hmoves hsuffix).imp fun _ _ => Statement.like_of_eq)
    · exact hopened ((alike_importExports hmoves hsuffix).imp fun _ _ => Statement.like_of_eq)
    · exact hopened (alike_exportDecl hmoves hbelow htail hsuffix _)
    · exact alike_expressionStatement hmoves hbelow hlen htokens

omit hmoves hbelow in
/-- What is read as a statement ends where one of the tokens ends. -/
theorem exists_last_of_unguarded (hall : InOrder all) (htokens : tokens <:+ all)
    {reading : Reading Statement tokens} (hread : unguarded stop tokens = .ok reading) :
    ∃ token ∈ all, reading.value.span.last = token.span.last := by
  obtain ⟨value, rest, hrest⟩ := reading
  have hreads := reads_bare (soundBelow stop tokens.length) (Nat.le_refl _) hread
  have hplaced : (Node.statement value).Placed tokens rest := hreads.placed (hall.of_suffix htokens)
  obtain ⟨token, htoken, hlast⟩ := hplaced.between.last
  exact ⟨token, htokens.mem htoken, hlast⟩

omit hbelow in
/-- A guard stands on the line of the last token, wherever the tokens are. -/
theorem guards_moved (hkeeps : r.KeepsLines all) (htokens : tokens <:+ all)
    {inner other : Statement} (hlike : inner.Like r other)
    (hends : ∃ token ∈ all, inner.span.last = token.span.last) :
    ∀ token ∈ tokens.head?, (move token).guards other = token.guards inner := by
  intro token htoken
  obtain ⟨last, hlast, hends⟩ := hends
  have hlines := hkeeps.lines token (htokens.mem (List.mem_of_head? htoken)) last hlast
  have hother : other.span.last = r.last last.span.last := by
    rw [show other.span = inner.span.relocate r from hlike, ← hends]
    rfl
  unfold Token.guards
  rw [hother, hends, hmoves.isKeyword, hmoves.span]
  simp [Span.relocate, hlines]

theorem alike_statement (hkeeps : r.KeepsLines all) (hlen : tokens.length ≤ bound)
    (htokens : tokens <:+ all) :
    Alike r (Reading.Follows move all fun _ _ => True) (statement stop tokens)
      (statement (stop.relocate r) (tokens.map move)) := by
  rw [statement, statement]
  refine (alike_unguarded hmoves hbelow hkeeps hlen htokens).bind
    fun reading other hread hfollows => ?_
  obtain ⟨inner, afterInner, hinner⟩ := reading
  obtain ⟨innerOther, _, _⟩ := other
  obtain ⟨hlike, rfl, hafter⟩ := hfollows
  have hguards := guards_moved hmoves hkeeps hafter hlike
    (exists_last_of_unguarded hkeeps.order htokens hread)
  unfold Token.guards at hguards
  dsimp only
  rw [accept_map hguards]
  cases haccept : accept (fun token : Token =>
      token.isKeyword .ifWord && token.span.first.line = inner.span.last.line) afterInner with
  | none => exact .ok ⟨trivial, rfl, hafter⟩
  | some reading =>
    obtain ⟨word, afterIf, hif⟩ := reading
    have hbehind : afterIf <:+ all := suffix_of_accept haccept hafter
    refine (hbelow.expression (by omega) hbehind).reading fun _ _ rest _ _ _ hrest => ?_
    exact .ok ⟨trivial, rfl, hrest⟩

theorem alike_statements (hkeeps : r.KeepsLines all) (hlen : tokens.length ≤ bound)
    (htokens : tokens <:+ all) (words : List Keyword) :
    Alike r (Scanning.Follows move all fun _ _ => True) (statements stop words tokens)
      (statements (stop.relocate r) words (tokens.map move)) := by
  cases tokens with
  | nil =>
    rw [List.map_nil, statements, statements]
    exact .ok ⟨trivial, rfl, htokens⟩
  | cons token tail =>
    have hfirst := alike_statement hmoves hbelow hkeeps hlen htokens
    change Alike r _ _ (statements (stop.relocate r) words (move token :: tail.map move))
    rw [statements, statements]
    rw [funext (hmoves.isKeyword token)]
    refine .ite (fun _ => .ok ⟨trivial, rfl, htokens⟩) fun _ => ?_
    refine hfirst.reading fun _ _ middle hmiddle _ _ hmore => ?_
    refine (hbelow.statements words (by omega) hmore).scanning fun _ _ rest _ _ _ hrest => ?_
    exact .ok ⟨trivial, rfl, hrest⟩

theorem alike_method (hlen : tokens.length ≤ bound) (htokens : tokens <:+ all) :
    Alike r (Reading.Follows move all fun _ _ => True) (method stop tokens)
      (method (stop.relocate r) (tokens.map move)) := by
  rw [method, method]
  refine (alike_methodName hmoves htokens).reading fun _ _ afterName hname _ _ hafter => ?_
  refine (alike_parameters hmoves hafter).reading fun _ _ afterParams hparams _ _ hopen => ?_
  refine (hbelow.block (by omega) hopen).reading fun _ _ rest _ _ _ hrest => ?_
  exact .ok ⟨trivial, rfl, hrest⟩

theorem alike_member (hlen : tokens.length ≤ bound) (htokens : tokens <:+ all) :
    Alike r (Reading.Follows move all fun _ _ => True) (member stop tokens)
      (member (stop.relocate r) (tokens.map move)) := by
  have hmethod := alike_method hmoves hbelow hlen htokens
  match tokens, hlen with
  | [], hlen =>
    rw [List.map_nil, member, member]
    · exact hmethod
    · simp
    · simp
  | [token], hlen =>
    rw [List.map_singleton, member, member]
    · exact hmethod
    · simp
    · simp
  | token :: sign :: afterSign, hlen =>
    have hshort : afterSign.length < bound := Nat.lt_of_succ_lt hlen
    have hsuffix : afterSign <:+ all :=
      ((List.suffix_cons sign afterSign).trans (List.suffix_cons token _)).trans htokens
    change Alike r _ _ (member (stop.relocate r) (move token :: move sign :: afterSign.map move))
    rw [member, member, hmoves.kind, hmoves.kind]
    refine .ite (fun _ => ?_) fun _ => hmethod
    refine (hbelow.expression hshort hsuffix).reading fun _ _ rest _ _ _ hrest => ?_
    exact .ok ⟨trivial, rfl, hrest⟩

theorem alike_members (hlen : tokens.length ≤ bound) (htokens : tokens <:+ all) :
    Alike r (Scanning.Follows move all fun _ _ => True) (members stop tokens)
      (members (stop.relocate r) (tokens.map move)) := by
  cases tokens with
  | nil =>
    rw [List.map_nil, members, members]
    exact .ok ⟨trivial, rfl, htokens⟩
  | cons token tail =>
    have hfirst := alike_member hmoves hbelow hlen htokens
    change Alike r _ _ (members (stop.relocate r) (move token :: tail.map move))
    rw [members, members, hmoves.isKeyword]
    refine .ite (fun _ => .ok ⟨trivial, rfl, htokens⟩) fun _ => ?_
    refine hfirst.reading fun _ _ middle hmiddle _ _ hmore => ?_
    refine (hbelow.members (by omega) hmore).scanning fun _ _ rest _ _ _ hrest => ?_
    exact .ok ⟨trivial, rfl, hrest⟩

omit hbelow in
/-- Every list of tokens is read alike wherever its tokens are moved. -/
theorem alikeBelow (hkeeps : r.KeepsLines all) (stop : Span) (bound : Nat) :
    AlikeBelow r move all stop bound := by
  induction bound with
  | zero => constructor <;> (intros; omega)
  | succ bound ih =>
    constructor
    · exact fun hlen => alike_primary hmoves ih (Nat.le_of_lt_succ hlen)
    · exact fun least hlen htokens hleft =>
        alike_climb hmoves ih (Nat.le_of_lt_succ hlen) htokens hleft least
    · exact fun hlen => alike_expression hmoves ih (Nat.le_of_lt_succ hlen)
    · exact fun hlen htokens howner =>
        alike_constructed hmoves ih (Nat.le_of_lt_succ hlen) htokens howner
    · exact fun words hlen htokens =>
        alike_statements hmoves ih hkeeps (Nat.le_of_lt_succ hlen) htokens words
    · exact fun hlen => alike_block hmoves ih (Nat.le_of_lt_succ hlen)
    · exact fun start hlen htokens =>
        alike_condition hmoves ih (Nat.le_of_lt_succ hlen) htokens start
    · exact fun hlen => alike_members hmoves ih (Nat.le_of_lt_succ hlen)

end Parser

/-! ### Programs -/

theorem Relocation.KeepsLines.of_sublist {tokens rest : List Token} (hkeeps : r.KeepsLines tokens)
    (hrest : rest.Sublist tokens) : r.KeepsLines rest where
  order := hkeeps.order.of_sublist hrest
  lines a ha b hb := hkeeps.lines a (hrest.subset ha) b (hrest.subset hb)

namespace Program

variable {tokens : List Token}

include hmoves

theorem programTokens_moved :
    programTokens (tokens.map move) = (programTokens tokens).map move := by
  simp only [programTokens, List.takeWhile_map, Function.comp_def, hmoves.kind]

theorem endSpan_moved (hend : ∃ token ∈ tokens, token.kind = .endOfInput) :
    endSpan (tokens.map move) = (endSpan tokens).relocate r := by
  have hmoved : (tokens.map move).find? (fun token => token.kind = .endOfInput) =
      (tokens.find? fun token => token.kind = .endOfInput).map move := by
    simp only [List.find?_map, Function.comp_def, hmoves.kind]
  rw [endSpan, endSpan, hmoved]
  cases hfind : tokens.find? fun token => token.kind = .endOfInput with
  | some token => exact hmoves.span token
  | none =>
    obtain ⟨token, htoken, hkind⟩ := hend
    exact absurd hkind (by simpa using List.find?_eq_none.mp hfind token htoken)

/-- Moved tokens are a program if and only if the tokens are, and else fail with the same fault. -/
theorem alike_ofTokens_moved (hkeeps : r.KeepsLines tokens)
    (hend : ∃ token ∈ tokens, token.kind = .endOfInput) :
    Alike r (fun _ _ => True) (ofTokens tokens) (ofTokens (tokens.map move)) := by
  have hbody : r.KeepsLines (programTokens tokens) :=
    hkeeps.of_sublist (List.takeWhile_sublist _)
  unfold ofTokens
  rw [programTokens_moved hmoves, endSpan_moved hmoves hend]
  exact ((Parser.alikeBelow hmoves hbody _ _).statements [] (Nat.lt_succ_self _)
    List.suffix_rfl).scanning fun _ _ _ _ _ _ _ => .ok trivial

end Program

end KaLang
