import KaLang.Proofs.Syntax.Nodes
import KaLang.Proofs.Syntax.Progress
import KaLang.Proofs.Token.Spelling

/-!
What every part of an expression has in common. A property of single expressions is one of an
expression with all its parts (`Expression.Every`); the one that holds of whatever is read off a
text is that numbers and names are legible (`Program.every_isLegible`).
-/

namespace KaLang

mutual

/-- Whether an expression and all expressions in it have a property. What stands in the body of a
    lambda is no part of the expression. -/
def Expression.Every (p : Expression → Prop) : Expression → Prop
  | .string value span => p (.string value span)
  | .number text span => p (.number text span)
  | .name text span => p (.name text span)
  | .array items span => p (.array items span) ∧ Expression.EachEvery p items
  | .object entries span => p (.object entries span) ∧ Field.EachEvery p entries
  | .property owner key span => p (.property owner key span) ∧ owner.Every p
  | .assign target op value isLocal span =>
    p (.assign target op value isLocal span) ∧ target.Every p ∧ value.Every p
  | .binary left op right span => p (.binary left op right span) ∧ left.Every p ∧ right.Every p
  | .unary op operand span => p (.unary op operand span) ∧ operand.Every p
  | .lambda params body span => p (.lambda params body span)
  | .call callee arguments span =>
    p (.call callee arguments span) ∧ callee.Every p ∧ Expression.EachEvery p arguments
  | .construct callee arguments span =>
    p (.construct callee arguments span) ∧ callee.Every p ∧ Expression.EachEvery p arguments

/-- Whether this is so of all expressions in a row. -/
def Expression.EachEvery (p : Expression → Prop) : List Expression → Prop
  | [] => True
  | item :: more => item.Every p ∧ Expression.EachEvery p more

/-- Whether this is so of all values of an object. -/
def Field.EachEvery (p : Expression → Prop) : List Field → Prop
  | [] => True
  | .mk _ value :: more => value.Every p ∧ Field.EachEvery p more

end

variable {p : Expression → Prop}

theorem Expression.eachEvery_iff {items : List Expression} :
    EachEvery p items ↔ ∀ item ∈ items, item.Every p := by
  induction items with
  | nil => simp [EachEvery]
  | cons item more ih => simp [EachEvery, ih]

theorem Field.eachEvery_iff {entries : List Field} :
    EachEvery p entries ↔ ∀ entry ∈ entries, entry.value.Every p := by
  induction entries with
  | nil => simp [EachEvery]
  | cons entry more ih =>
    obtain ⟨key, value⟩ := entry
    simp [EachEvery, ih, Field.value]

theorem Expression.Every.self {e : Expression} (he : e.Every p) : p e := by
  cases e with
  | string | number | name | lambda => exact he
  | _ => exact he.1

/-! ### Legible expressions -/

/-- Whether the number or the name that the expression is written with is legible. -/
def Expression.IsLegible : Expression → Prop
  | .number text _ => IsNumber text
  | .name text _ => IsName text
  | .property _ key _ => IsName key.name
  | _ => True

/-- Whether the expressions that a phrase adds to what was read before are legible. -/
def Phrase.IsLegible : Phrase → Prop
  | .statement value | .bare value | .behind _ _ value =>
    ∀ e span, value = .expression e span → e.Every Expression.IsLegible
  | .sequence _ body => ∀ statement ∈ body,
    ∀ e span, statement = .expression e span → e.Every Expression.IsLegible
  | .expression value | .primary value => value.Every Expression.IsLegible
  | .onwards left _ whole =>
    left.Every Expression.IsLegible → whole.Every Expression.IsLegible
  | .items _ _ values _ => ∀ value ∈ values, value.Every Expression.IsLegible
  | .entries _ fields _ => ∀ field ∈ fields, field.2.Every Expression.IsLegible
  | .constructed owner callee =>
    owner.Every Expression.IsLegible → callee.Every Expression.IsLegible
  | _ => True

/-- Whatever is read off a list of tokens leaves an end of it. -/
theorem Reads.suffix {stop : Span} {phrase : Phrase} {tokens rest : List Token}
    (hreads : Reads stop phrase tokens rest) : rest <:+ tokens := by
  have htail {token : Token} {tokens rest : List Token} (hrest : rest <:+ tokens) :
      rest <:+ token :: tokens := hrest.trans (List.suffix_cons token tokens)
  have hbehind {token : Token} {tokens rest : List Token} (hrest : token :: rest <:+ tokens) :
      rest <:+ tokens := (List.suffix_cons token rest).trans hrest
  induction hreads with
  | none | returnNothing | breakLoop | continueLoop | noMember | enough | owner =>
    exact List.suffix_refl _
  | string | number | name | lastItem | lastEntry => exact List.suffix_cons _ _
  | unguarded _ _ ih | plain _ ih | returnValue _ _ ih | localAssignment _ ih
  | exportPlain _ ih | lambdaAlone _ ih => exact ih
  | opened _ _ ih | exportOpened _ _ _ ih | array _ _ ih | object _ _ ih => exact htail ih
  | guarded _ _ _ ihinner ihtest => exact ihtest.trans (hbehind ihinner)
  | more _ _ ihfirst ihmore | moreMembers _ _ ihfirst ihmore | firstItem _ _ ihfirst ihmore
  | operand _ _ _ ihfirst ihmore | whileLoop _ _ ihfirst ihmore => exact ihmore.trans ihfirst
  | block _ _ _ ih | parentheses _ _ _ ih => exact htail (hbehind ih)
  | conditionAlone _ _ _ _ _ _ ihtest ihthen =>
    exact (hbehind ihthen).trans (hbehind ihtest)
  | conditionChain _ _ _ _ _ _ _ _ ihtest ihthen ihbranch =>
    exact ihbranch.trans ((hbehind (hbehind ihthen)).trans (hbehind ihtest))
  | conditionElse _ _ _ _ _ _ _ _ _ _ _ ihtest ihthen ihbody =>
    exact (hbehind ihbody).trans ((hbehind ihthen).trans (hbehind ihtest))
  | forLoop _ _ _ _ ihiterable ihbody => exact htail (htail (ihbody.trans ihiterable))
  | functionDecl _ _ _ ih => exact htail ih
  | functionWith _ hparams _ ih =>
    exact htail (ih.trans (Reading.advances_parameters.reaches _ hparams).suffix)
  | classDecl _ _ _ _ ih => exact htail (htail (hbehind ih))
  | hostDecl hreading => exact ((Parser.advances_hostDecl _).reaches _ hreading).suffix
  | importModule hreading => exact ((Parser.advances_importModule _).reaches _ hreading).suffix
  | importExports hreading => exact ((Parser.advances_importExports _).reaches _ hreading).suffix
  | field _ _ _ ih => exact htail (htail ih)
  | method hname hparams _ ih =>
    have hname := (Parser.advances_methodName.reaches _ hname).suffix
    exact ih.trans ((Reading.advances_parameters.reaches _ hparams).suffix.trans hname)
  | assignment _ _ _ _ _ _ ihfirst ihtarget ihvalue =>
    exact ihvalue.trans ((hbehind ihtarget).trans ihfirst)
  | call _ _ _ _ ihargs ihwhole => exact htail (ihwhole.trans ihargs)
  | binary _ _ _ _ _ ihoperand ihright ihwhole =>
    exact htail (ihwhole.trans (ihright.trans ihoperand))
  | unary _ _ _ _ ihinner ihoperand => exact htail (ihoperand.trans ihinner)
  | lambda _ hparams _ ih =>
    exact htail (ih.trans ((Reading.advances_lambdaParameters _).reaches _ hparams).suffix)
  | construct _ _ _ _ _ ihowner ihcallee ihargs =>
    exact htail (ihargs.trans ((hbehind ihcallee).trans ihowner))
  | joined _ _ _ ihkey ihcallee => exact htail (ihcallee.trans ihkey)
  | nextItem _ _ _ ihfirst ihmore => exact htail (ihmore.trans ihfirst)
  | firstEntry hkey _ _ ihvalue ihmore =>
    exact ihmore.trans (ihvalue.trans (Parser.advances_fieldKey.reaches _ hkey).suffix)
  | nextEntry _ hkey _ _ ihvalue ihmore =>
    exact htail (ihmore.trans (ihvalue.trans (Parser.advances_fieldKey.reaches _ hkey).suffix))

/-- What the parser joins is legible if its parts are. -/
theorem Expression.every_join {left right : Expression} (hleft : left.Every IsLegible)
    (hright : right.Every IsLegible) (op : BinaryOperator) (inParentheses : Bool) :
    (left.join op right inParentheses).Every IsLegible := by
  unfold join
  dsimp only
  split
  · exact ⟨hright, hleft⟩
  · exact ⟨trivial, hleft, hright⟩

/-- What the host declares and what is imported has no parts. -/
theorem Parser.children_eq_nil {stop start : Span} {tokens : List Token}
    {reading : Reading Statement tokens}
    (hread : hostDecl stop start tokens = .ok reading ∨
      importModule stop start tokens = .ok reading ∨
      importExports stop start tokens = .ok reading) :
    (Node.statement reading.value).children = [] := by
  rcases hread with hread | hread | hread
  · unfold hostDecl at hread
    split at hread
    · obtain ⟨_, _, hread⟩ := Except.bind_eq_ok_iff.mp hread
      cases hread
      rfl
    · obtain ⟨_, _, hread⟩ := Except.bind_eq_ok_iff.mp hread
      cases hread
      rfl
  · obtain ⟨⟨⟨_, _⟩, _, _⟩, _, hread⟩ := Except.bind_eq_ok_iff.mp hread
    cases hread
    rfl
  · obtain ⟨⟨⟨_, _⟩, _, _⟩, _, hread⟩ := Except.bind_eq_ok_iff.mp hread
    obtain ⟨_, _, hread⟩ := Except.bind_eq_ok_iff.mp hread
    dsimp only at hread
    split at hread
    · obtain ⟨_, _, hread⟩ := Except.bind_eq_ok_iff.mp hread
      cases hread
      rfl
    · obtain ⟨⟨⟨_, _⟩, _, _⟩, _, hread⟩ := Except.bind_eq_ok_iff.mp hread
      cases hread
      rfl

/-- Nor is it an expression. -/
theorem Parser.value_ne_expression {stop start : Span} {tokens : List Token}
    {reading : Reading Statement tokens}
    (hread : hostDecl stop start tokens = .ok reading ∨
      importModule stop start tokens = .ok reading ∨ importExports stop start tokens = .ok reading)
    (e : Expression) (span : Span) : reading.value ≠ .expression e span := by
  intro hvalue
  have hchildren := children_eq_nil hread
  rw [hvalue] at hchildren
  cases hchildren

/-- Whether all tokens of a list are legible. -/
def LegibleTokens (tokens : List Token) : Prop := ∀ token ∈ tokens, token.form.Legible

theorem LegibleTokens.of_suffix {tokens rest : List Token} (htokens : LegibleTokens tokens)
    (hrest : rest <:+ tokens) : LegibleTokens rest :=
  fun token htoken => htokens token (hrest.mem htoken)

theorem LegibleTokens.head {token : Token} {tail : List Token}
    (htokens : LegibleTokens (token :: tail)) : token.form.Legible :=
  htokens token List.mem_cons_self

theorem LegibleTokens.tail {token : Token} {tail : List Token}
    (htokens : LegibleTokens (token :: tail)) : LegibleTokens tail :=
  htokens.of_suffix (List.suffix_cons token tail)

theorem Reads.isLegible {stop : Span} {phrase : Phrase} {tokens rest : List Token}
    (hreads : Reads stop phrase tokens rest) (htokens : LegibleTokens tokens) :
    phrase.IsLegible := by
  induction hreads with
  | unguarded _ _ ih => exact ih htokens
  | guarded => rintro e span ⟨⟩
  | opened _ _ ih => exact ih htokens.tail
  | plain _ ih =>
    rintro e span ⟨⟩
    exact ih htokens
  | none => exact fun _ hstatement => by cases hstatement
  | more hfirst _ ihfirst ihmore =>
    exact List.forall_mem_cons.mpr
      ⟨ihfirst htokens, ihmore (htokens.of_suffix hfirst.suffix)⟩
  | block | noMember | moreMembers | field | method => trivial
  | conditionAlone | conditionChain | conditionElse | forLoop | whileLoop | functionDecl
  | functionWith | classDecl | returnNothing | returnValue | breakLoop | continueLoop
  | exportOpened | exportPlain => rintro e span ⟨⟩
  | hostDecl hreading =>
    exact fun e span hvalue => absurd hvalue (Parser.value_ne_expression (.inl hreading) e span)
  | importModule hreading =>
    exact fun e span hvalue =>
      absurd hvalue (Parser.value_ne_expression (.inr (.inl hreading)) e span)
  | importExports hreading =>
    exact fun e span hvalue =>
      absurd hvalue (Parser.value_ne_expression (.inr (.inr hreading)) e span)
  | localAssignment _ ih =>
    rintro e span ⟨⟩
    exact ih htokens
  | operand hfirst _ _ ihfirst ihwhole =>
    exact ihwhole (htokens.of_suffix hfirst.suffix) (ihfirst htokens)
  | assignment hfirst htarget _ _ _ _ ihfirst ihtarget ihvalue =>
    have hmiddle := htokens.of_suffix hfirst.suffix
    have htail := (hmiddle.of_suffix htarget.suffix).tail
    exact ⟨trivial, ihtarget hmiddle (ihfirst htokens), ihvalue htail⟩
  | enough => exact fun hleft => hleft
  | call _ _ hargs _ ihargs ihwhole =>
    exact fun hleft => ihwhole (htokens.tail.of_suffix hargs.suffix)
      ⟨trivial, hleft, Expression.eachEvery_iff.mpr (ihargs htokens.tail)⟩
  | binary _ _ hoperand hright _ ihoperand ihright ihwhole =>
    have hafter := htokens.tail.of_suffix hoperand.suffix
    exact fun hleft => ihwhole (hafter.of_suffix hright.suffix)
      (Expression.every_join hleft (ihright hafter (ihoperand htokens.tail)) _ _)
  | string => trivial
  | number hkind => exact htokens.head.isNumber hkind
  | name hkind => exact htokens.head.isName hkind
  | unary _ _ hinner _ ihinner ihoperand =>
    exact ⟨trivial, ihoperand (htokens.tail.of_suffix hinner.suffix) (ihinner htokens.tail)⟩
  | parentheses _ _ _ ih => exact ih htokens.tail
  | array _ _ ih => exact ⟨trivial, Expression.eachEvery_iff.mpr (ih htokens.tail)⟩
  | object _ _ ih =>
    exact ⟨trivial, Field.eachEvery_iff.mpr (Field.forall_foldl_put (by simp) (ih htokens.tail))⟩
  | lambda | lambdaAlone => trivial
  | construct _ howner hcallee _ _ ihowner ihcallee ihargs =>
    have hmiddle := htokens.tail.of_suffix howner.suffix
    have hinside := (hmiddle.of_suffix hcallee.suffix).tail
    exact ⟨trivial, ihcallee hmiddle (ihowner htokens.tail),
      Expression.eachEvery_iff.mpr (ihargs hinside)⟩
  | owner => exact fun howner => howner
  | joined _ hkey _ ihkey ihcallee =>
    exact fun howner => ihcallee (htokens.tail.of_suffix hkey.suffix)
      (Expression.every_join howner (ihkey htokens.tail) _ _)
  | lastItem | lastEntry => exact fun _ hitem => by cases hitem
  | firstItem hfirst _ ihfirst ihmore =>
    exact List.forall_mem_cons.mpr
      ⟨ihfirst htokens, ihmore (htokens.of_suffix hfirst.suffix)⟩
  | nextItem _ hfirst _ ihfirst ihmore =>
    exact List.forall_mem_cons.mpr
      ⟨ihfirst htokens.tail, ihmore (htokens.tail.of_suffix hfirst.suffix)⟩
  | firstEntry hkey hvalue _ ihvalue ihmore =>
    have hafter := htokens.of_suffix (Parser.advances_fieldKey.reaches _ hkey).suffix
    exact List.forall_mem_cons.mpr ⟨ihvalue hafter, ihmore (hafter.of_suffix hvalue.suffix)⟩
  | nextEntry _ hkey hvalue _ ihvalue ihmore =>
    have hafter := htokens.tail.of_suffix (Parser.advances_fieldKey.reaches _ hkey).suffix
    exact List.forall_mem_cons.mpr ⟨ihvalue hafter, ihmore (hafter.of_suffix hvalue.suffix)⟩

/-- The tokens that a program is read off are legible. -/
theorem legible_programTokens {source : String} {tokens : List Token}
    (htokens : tokenize source = .ok tokens) : LegibleTokens (programTokens tokens) := by
  intro token htoken
  have hmem := (List.takeWhile_prefix _).mem htoken
  have hkind := List.all_eq_true.mp List.all_takeWhile token htoken
  exact legible_of_tokenize htokens token hmem (by simpa using hkind)

/-- Every number and every name in an expression that is a statement of a text is legible. -/
theorem Program.every_isLegible {source : String} {program : Program}
    (hread : ofSource source = .ok program) {e : Expression} {span : Span}
    (he : .expression e span ∈ program.body) : e.Every Expression.IsLegible := by
  obtain ⟨tokens, htokens, hread⟩ := Except.bind_eq_ok_iff.mp hread
  obtain ⟨body, hreads, rfl⟩ := ofTokens_eq_ok_iff.mp hread
  exact hreads.isLegible (legible_programTokens htokens) _ he e span rfl

end KaLang
