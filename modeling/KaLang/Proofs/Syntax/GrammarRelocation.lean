import KaLang.Proofs.Syntax.Reformatting

/-!
The grammar on tokens that are put elsewhere. What is read off tokens is read off them wherever a
relocation puts them, with every place relocated, if it keeps which tokens start on the line where
another one ends (`Reads.relocate`).
-/

namespace KaLang

variable {r : Relocation} {all tokens rest : List Token} {stop start : Span}

/-- What is read with every text at its new place. -/
def Phrase.relocate (r : Relocation) : Phrase → Phrase
  | .statement value => .statement (value.relocate r)
  | .bare value => .bare (value.relocate r)
  | .behind word start value => .behind word (start.relocate r) (value.relocate r)
  | .sequence words body => .sequence words (Statement.relocateAll r body)
  | .block body => .block (body.relocate r)
  | .members parts => .members (ClassMember.relocateAll r parts)
  | .member part => .member (part.relocate r)
  | .expression value => .expression (value.relocate r)
  | .onwards left least whole => .onwards (left.relocate r) least (whole.relocate r)
  | .primary value => .primary (value.relocate r)
  | .items close isFirst values last =>
    .items close isFirst (Expression.relocateAll r values) (last.relocate r)
  | .entries isFirst fields last =>
    .entries isFirst (fields.map fun entry => (entry.1, entry.2.relocate r)) (last.relocate r)
  | .constructed owner callee => .constructed (owner.relocate r) (callee.relocate r)

/-- Whether what is read behind an opening word starts with one of the tokens. -/
def Phrase.StartsIn (all : List Token) : Phrase → Prop
  | .behind _ start _ => ∃ word ∈ all, start = word.span
  | _ => True

theorem Reading.accept_eq_none_relocate {test other : Token → Bool}
    (htest : ∀ token ∈ tokens.head?, other (token.relocate r) = test token)
    (haccept : accept test tokens = none) :
    accept other (tokens.map (Token.relocate r)) = none := by
  rw [accept_map htest, haccept, Option.map_none]

/-- A token ahead meets a test wherever it is if it does so at its own place. -/
theorem forall_head?_relocate {p q : Token → Prop} (hp : ∀ token ∈ tokens.head?, p token)
    (himp : ∀ token, p token → q (token.relocate r)) :
    ∀ token ∈ (tokens.map (Token.relocate r)).head?, q token := by
  cases tokens with
  | nil => exact nofun
  | cons token tail => simpa using himp token (hp token rfl)

theorem Parser.fieldKey_relocate (htokens : tokens <:+ all) {key : Reading String tokens}
    (hkey : fieldKey stop tokens = .ok key) :
    ∃ other, fieldKey (stop.relocate r) (tokens.map (Token.relocate r)) = .ok other ∧
      other.value = key.value ∧ other.rest = key.rest.map (Token.relocate r) := by
  obtain ⟨other, hother, hfollows⟩ := (alike_fieldKey r.moves htokens).exists_of_ok hkey
  obtain ⟨token, hvalue, hsame⟩ := hfollows.value
  exact ⟨other, hother, hsame.trans hvalue.symm, hfollows.rest⟩

theorem Reads.relocate {phrase : Phrase} (hreads : Reads stop phrase tokens rest)
    (hkeeps : r.KeepsLines all) (htokens : tokens <:+ all) (hstart : phrase.StartsIn all) :
    Reads (stop.relocate r) (phrase.relocate r) (tokens.map (Token.relocate r))
      (rest.map (Token.relocate r)) := by
  have htail {token : Token} {tail : List Token} (hsuffix : token :: tail <:+ all) :
      tail <:+ all := (List.suffix_cons token tail).trans hsuffix
  have hhead {token : Token} {tail : List Token} (hsuffix : token :: tail <:+ all) :
      ∃ word ∈ all, token.span = word.span := ⟨token, hsuffix.mem List.mem_cons_self, rfl⟩
  have hguards {inner : Statement} {tokens rest : List Token} (htokens : tokens <:+ all)
      (hinner : Reads stop (.bare inner) tokens rest) :
      ∀ token ∈ rest.head?, (token.relocate r).guards (inner.relocate r) = token.guards inner := by
    have hplaced : (Node.statement inner).Placed tokens rest :=
      hinner.placed (hkeeps.order.of_suffix htokens)
    obtain ⟨token, htoken, hlast⟩ := hplaced.between.last
    exact Parser.guards_moved r.moves hkeeps (hinner.suffix.trans htokens)
      (Statement.like_of_eq rfl) ⟨token, htokens.mem htoken, hlast⟩
  have hkeyword {token : Token} {word : Keyword} (htoken : token.isKeyword word = true) :
      (token.relocate r).isKeyword word = true := htoken
  have hdelimiter {token : Token} {text : String} (htoken : token.isDelimiter text = true) :
      (token.relocate r).isDelimiter text = true := htoken
  have hkind {token : Token} {kind : TokenKind} (htoken : token.kind = kind) :
      (token.relocate r).kind = kind := htoken
  have hlast {before : Token} {tokens rest : List Token} {span : Span}
      (hspan : span = before.span.through (Reading.lastRead before tokens rest).span) :
      span.relocate r = (before.relocate r).span.through
        (Reading.lastRead (before.relocate r) (tokens.map (Token.relocate r))
          (rest.map (Token.relocate r))).span := by
    rw [hspan, Reading.lastRead_map]
    rfl
  have hopens (tokens : List Token) :
      (Reading.accept (fun token => token.isDelimiter "(") (tokens.map (Token.relocate r))).isSome =
        (Reading.accept (fun token => token.isDelimiter "(") tokens).isSome := by
    rw [Reading.accept_delimiter r.moves, Option.isSome_map]
  induction hreads with
  | unguarded hvalue hend ih =>
    exact .unguarded (ih htokens trivial)
      (Reading.accept_eq_none_relocate (hguards htokens hvalue) hend)
  | guarded hinner hword htest ihinner ihtest =>
    have hrest := hinner.suffix.trans htokens
    have hguard := (hguards htokens hinner _ rfl).trans hword
    simpa [Phrase.relocate, Statement.relocate] using
      Reads.guarded (ihinner htokens trivial) hguard (ihtest (htail hrest) trivial)
  | opened hword _ ih => exact .opened hword (ih (htail htokens) (hhead htokens))
  | plain _ ih =>
    simpa [Phrase.relocate, Statement.relocate] using
      Reads.plain (ih htokens trivial)
  | none hend => exact .none (forall_head?_relocate hend fun _ htoken => htoken)
  | more hfirst _ ihfirst ihmore =>
    exact .more (ihfirst htokens trivial) (ihmore (hfirst.suffix.trans htokens) trivial)
  | block hopening _ hclose ih =>
    exact .block (hkeyword hopening) (ih (htail htokens) trivial) (hkeyword hclose)
  | conditionAlone htest hword _ hclose _ hspan ihtest ihthen =>
    have hinside := htail (htest.suffix.trans htokens)
    exact .conditionAlone (ihtest htokens trivial) (hkeyword hword) (ihthen hinside trivial)
      (hkeyword hclose) _ (hlast hspan)
  | conditionChain htest hword hthen helse hif _ _ hspan ihtest ihthen ihbranch =>
    have hinside := htail (htest.suffix.trans htokens)
    have hafter := htail (hthen.suffix.trans hinside)
    have hbranch := ihbranch (htail hafter) (hhead hafter)
    simpa [Phrase.relocate, Statement.relocate, Block.relocate] using
      Reads.conditionChain (ihtest htokens trivial) (hkeyword hword) (ihthen hinside trivial)
        (hkeyword helse) (hkeyword hif) hbranch _ (hlast hspan)
  | conditionElse htest hword hthen helse hif _ hclose _ hspan _ hblock ihtest ihthen ihbody =>
    have hinside := htail (htest.suffix.trans htokens)
    have hafter := htail (hthen.suffix.trans hinside)
    subst hblock
    exact .conditionElse (ihtest htokens trivial) (hkeyword hword) (ihthen hinside trivial)
      (hkeyword helse) (Reading.accept_eq_none_relocate (fun _ _ => rfl) hif)
      (ihbody hafter trivial) (hkeyword hclose) _ (hlast hspan) _ rfl
  | forLoop hname hin hiterable _ ihiterable ihbody =>
    have hitems := htail (htail htokens)
    simpa [Phrase.relocate, Statement.relocate, Identifier.relocate] using
      Reads.forLoop (hkind hname) (hkeyword hin) (ihiterable hitems trivial)
        (ihbody (hiterable.suffix.trans hitems) trivial)
  | whileLoop htest _ ihtest ihbody =>
    simpa [Phrase.relocate, Statement.relocate] using
      Reads.whileLoop (ihtest htokens trivial)
        (ihbody (htest.suffix.trans htokens) trivial)
  | functionDecl hname hopening _ ih =>
    simpa [Phrase.relocate, Statement.relocate, Identifier.relocate] using
      Reads.functionDecl (hkind hname)
        (Reading.accept_eq_none_relocate (fun _ _ => rfl) hopening) (ih (htail htokens) trivial)
  | functionWith hname hparams _ ih =>
    have hinside := htail htokens
    obtain ⟨⟨_, _, _⟩, hothers, rfl, rfl, hrest⟩ :=
      (Reading.alike_parameters r.moves hinside).exists_of_ok hparams
    simpa [Phrase.relocate, Statement.relocate, Identifier.relocate] using
      Reads.functionWith (hkind hname) hothers (ih hrest trivial)
  | classDecl hname hopening _ hclose ih =>
    exact .classDecl (hkind hname) (hkeyword hopening) (ih (htail (htail htokens)) trivial)
      (hkeyword hclose)
  | returnNothing hend =>
    obtain ⟨word, hword, rfl⟩ := hstart
    exact .returnNothing ((Parser.returnsValue_moved r.moves hkeeps hword htokens).trans hend)
  | returnValue hmore _ ih =>
    obtain ⟨word, hword, rfl⟩ := hstart
    simpa [Phrase.relocate, Statement.relocate] using
      Reads.returnValue
        ((Parser.returnsValue_moved r.moves hkeeps hword htokens).trans hmore) (ih htokens trivial)
  | breakLoop => exact .breakLoop
  | continueLoop => exact .continueLoop
  | hostDecl hreading =>
    obtain ⟨⟨_, _, _⟩, hother, rfl, rfl, _⟩ :=
      (Parser.alike_hostDecl r.moves htokens).exists_of_ok hreading
    exact .hostDecl hother
  | importModule hreading =>
    obtain ⟨⟨_, _, _⟩, hother, rfl, rfl, _⟩ :=
      (Parser.alike_importModule r.moves htokens).exists_of_ok hreading
    exact .importModule hother
  | importExports hreading =>
    obtain ⟨⟨_, _, _⟩, hother, rfl, rfl, _⟩ :=
      (Parser.alike_importExports r.moves htokens).exists_of_ok hreading
    exact .importExports hother
  | localAssignment _ ih =>
    simpa [Phrase.relocate, Statement.relocate, Expression.relocate] using
      Reads.localAssignment (ih htokens trivial)
  | exportOpened hword hdeclared _ ih =>
    have hvalue := ih (htail htokens) (hhead htokens)
    rw [Phrase.relocate, ← Token.span_relocate] at hvalue
    simpa [Phrase.relocate, Statement.relocate] using
      Reads.exportOpened ((Token.keyword?_relocate r _).trans hword) hdeclared hvalue
  | exportPlain _ ih =>
    simpa [Phrase.relocate, Statement.relocate] using
      Reads.exportPlain (ih htokens trivial)
  | noMember hend => exact .noMember (forall_head?_relocate hend fun _ htoken => htoken)
  | moreMembers hfirst _ ihfirst ihmore =>
    exact .moreMembers (ihfirst htokens trivial) (ihmore (hfirst.suffix.trans htokens) trivial)
  | field hname hsign _ ih =>
    simpa [Phrase.relocate, ClassMember.relocate, Identifier.relocate] using
      Reads.field (hkind hname) (hkind hsign) (ih (htail (htail htokens)) trivial)
  | method hname hparams _ ih =>
    obtain ⟨⟨_, _, _⟩, hother, rfl, rfl, hafter⟩ :=
      (Parser.alike_methodName r.moves htokens).exists_of_ok hname
    obtain ⟨⟨_, _, _⟩, hothers, rfl, rfl, hrest⟩ :=
      (Reading.alike_parameters r.moves hafter).exists_of_ok hparams
    simpa [Phrase.relocate, ClassMember.relocate] using
      Reads.method hother hothers (ih hrest trivial)
  | operand hfirst _ hend ihfirst ihwhole =>
    refine .operand (ihfirst htokens trivial) (ihwhole (hfirst.suffix.trans htokens) trivial) ?_
    refine Reading.accept_eq_none_relocate (fun _ _ => ?_) hend
    rw [Expression.isAssignable_relocate, Token.isAssignment_relocate]
  | assignment hfirst htarget hsign hassignable hop _ ihfirst ihtarget ihvalue =>
    have hmiddle := hfirst.suffix.trans htokens
    have hassigned := ((Expression.isAssignable_relocate r _).trans hassignable)
    simpa [Phrase.relocate, Expression.relocate] using
      Reads.assignment (ihfirst htokens trivial) (ihtarget hmiddle trivial) hsign
        hassigned hop (ihvalue (htail (htarget.suffix.trans hmiddle)) trivial)
  | enough hend => exact .enough (forall_head?_relocate hend fun _ htoken => htoken)
  | call hbinding hleast hargs _ ihargs ihwhole =>
    have hinside := htail htokens
    have hwhole := ihwhole (hargs.suffix.trans hinside) trivial
    rw [Phrase.relocate, Expression.relocate, Span.relocate_through, ← Expression.span_relocate,
      ← Token.span_relocate] at hwhole
    exact .call ((Token.binding?_relocate r _).trans hbinding) hleast (ihargs hinside trivial)
      hwhole
  | binary hbinding hleast hoperand hright _ ihoperand ihright ihwhole =>
    have hinside := htail htokens
    have hafter := hoperand.suffix.trans hinside
    have hwhole := ihwhole (hright.suffix.trans hafter) trivial
    rw [Phrase.relocate, Expression.relocate_join, ← hopens] at hwhole
    exact .binary ((Token.binding?_relocate r _).trans hbinding) hleast (ihoperand hinside trivial)
      (ihright hafter trivial) hwhole
  | string hstring => exact .string (hkind hstring)
  | number hnumber => exact .number (hkind hnumber)
  | name hname => exact .name (hkind hname)
  | unary hoperator hop hinner _ ihinner ihoperand =>
    have hinside := htail htokens
    simpa [Phrase.relocate, Expression.relocate] using
      Reads.unary (hkind hoperator) hop (ihinner hinside trivial)
        (ihoperand (hinner.suffix.trans hinside) trivial)
  | parentheses hopening _ hclose ih =>
    exact .parentheses (hdelimiter hopening) (ih (htail htokens) trivial) (hdelimiter hclose)
  | array hopening _ ih => exact .array (hdelimiter hopening) (ih (htail htokens) trivial)
  | object hopening _ ih =>
    simpa [Phrase.relocate, Expression.relocate, Field.relocate_foldl_put] using
      Reads.object (hdelimiter hopening) (ih (htail htokens) trivial)
  | lambda hword hparams _ ih =>
    obtain ⟨⟨_, _, _⟩, hothers, rfl, rfl, hrest⟩ :=
      (Reading.alike_lambdaParameters r.moves _ (htail htokens)).exists_of_ok hparams
    simpa [Phrase.relocate, Expression.relocate] using
      Reads.lambda (hkeyword hword) hothers (ih hrest trivial)
  | lambdaAlone _ ih =>
    simpa [Phrase.relocate, Expression.relocate] using
      Reads.lambdaAlone (ih htokens trivial)
  | construct hword howner hcallee hopening _ ihowner ihcallee ihargs =>
    have hinside := htail htokens
    have hmiddle := howner.suffix.trans hinside
    exact .construct (hkeyword hword) (ihowner hinside trivial) (ihcallee hmiddle trivial)
      (hdelimiter hopening) (ihargs (htail (hcallee.suffix.trans hmiddle)) trivial)
  | owner hend => exact .owner (Reading.accept_eq_none_relocate (fun _ _ => rfl) hend)
  | joined hpoint hkey _ ihkey ihcallee =>
    have hinside := htail htokens
    have hcallee := ihcallee (hkey.suffix.trans hinside) trivial
    rw [Phrase.relocate, Expression.relocate_join, ← hopens] at hcallee
    exact .joined hpoint (ihkey hinside trivial) hcallee
  | lastItem hclose => exact .lastItem (hdelimiter hclose)
  | firstItem hfirst _ ihfirst ihmore =>
    exact .firstItem (ihfirst htokens trivial) (ihmore (hfirst.suffix.trans htokens) trivial)
  | nextItem hcomma hfirst _ ihfirst ihmore =>
    have hinside := htail htokens
    exact .nextItem (hdelimiter hcomma) (ihfirst hinside trivial)
      (ihmore (hfirst.suffix.trans hinside) trivial)
  | lastEntry hclose => exact .lastEntry (hdelimiter hclose)
  | firstEntry hkey hvalue _ ihvalue ihmore =>
    have hafter := (Parser.advances_fieldKey.reaches _ hkey).suffix.trans htokens
    obtain ⟨⟨_, _, _⟩, hother, rfl, rfl⟩ := Parser.fieldKey_relocate htokens hkey
    exact .firstEntry hother (ihvalue hafter trivial) (ihmore (hvalue.suffix.trans hafter) trivial)
  | nextEntry hcomma hkey hvalue _ ihvalue ihmore =>
    have hinside := htail htokens
    have hafter := (Parser.advances_fieldKey.reaches _ hkey).suffix.trans hinside
    obtain ⟨⟨_, _, _⟩, hother, rfl, rfl⟩ := Parser.fieldKey_relocate hinside hkey
    exact .nextEntry (hdelimiter hcomma) hother (ihvalue hafter trivial)
      (ihmore (hvalue.suffix.trans hafter) trivial)

end KaLang
