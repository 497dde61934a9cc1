import KaLang.Proofs.Syntax.Precedence
import KaLang.Proofs.Syntax.Printing
import KaLang.Proofs.Syntax.Shape

/-!
Reading what is printed. The forms of an expression are read as that expression, up to its places:
as a whole where nothing goes on with it, and in parentheses anywhere (`Expression.Recovers`). So
what is printed of an expression is a program of one statement, and the statement is the
expression (`Program.ofSource_print`).
-/

namespace KaLang

/-- Whether the next token has this form. -/
def Form.Stands (form : Form) (tokens rest : List Token) : Prop :=
  ∃ token, tokens = token :: rest ∧ token.kind = form.kind ∧ token.text = form.text

section Rows

variable {stop : Span} {forms more : List Form} {tokens rest : List Token}

theorem Row.cons_form {form : Form} (hrow : Row Form.Stands (form :: more) tokens rest) :
    ∃ token tail, tokens = token :: tail ∧ (token.kind = form.kind ∧ token.text = form.text) ∧
      Row Form.Stands more tail rest := by
  obtain _ | ⟨⟨token, rfl, hkind, htext⟩, hmore⟩ := hrow
  exact ⟨token, _, rfl, ⟨hkind, htext⟩, hmore⟩

theorem Row.single_form {form : Form} (hrow : Row Form.Stands [form] tokens rest) :
    ∃ token, tokens = token :: rest ∧ token.kind = form.kind ∧ token.text = form.text := by
  obtain ⟨token, _, rfl, htoken, hrest⟩ := hrow.cons_form
  cases hrest
  exact ⟨token, rfl, htoken⟩

theorem isDelimiter_of_form {token : Token} {text : String}
    (htoken : token.kind = (Form.delimiter text).kind ∧ token.text = (Form.delimiter text).text) :
    token.isDelimiter text = true := by
  simpa [Token.isDelimiter, Form.delimiter] using htoken

theorem isOperator_of_form {token : Token} {text : String}
    (htoken : token.kind = (Form.sign text).kind ∧ token.text = (Form.sign text).text) :
    token.isOperator text = true := by
  simpa [Token.isOperator, Form.sign] using htoken

theorem Row.between {opening closing : String}
    (hrow : Row Form.Stands (Form.between opening closing forms) tokens rest) :
    ∃ first tail last, tokens = first :: tail ∧ first.isDelimiter opening = true ∧
      Row Form.Stands forms tail (last :: rest) ∧ last.isDelimiter closing = true := by
  obtain ⟨first, tail, rfl, hfirst, hrow⟩ := hrow.cons_form
  obtain ⟨middle, hforms, hlast⟩ := hrow.append
  obtain ⟨last, rfl, hclosing⟩ := hlast.single_form
  exact ⟨first, tail, last, rfl, isDelimiter_of_form hfirst, hforms, isDelimiter_of_form hclosing⟩

theorem EndsExpression.of_isDelimiter {token : Token} {text : String}
    (htoken : token.isDelimiter text = true) (htext : text ≠ "(") :
    EndsExpression (token :: rest) := by
  have hother := Token.isDelimiter_of_ne htoken htext
  obtain ⟨hkind, -⟩ := Token.spec_of_isDelimiter htoken
  rintro _ ⟨⟩
  simp [Token.binding?, Token.isAssignment, hkind, hother]

/-- Behind an item of a list stands a comma or what closes the list. -/
theorem Row.endsExpression {rows : List (List Form)} {last : Token} {close : String}
    (hrow : Row Form.Stands (Form.row false rows) tokens (last :: rest))
    (hlast : last.isDelimiter close = true) (hclose : close ≠ "(") : EndsExpression tokens := by
  cases rows with
  | nil =>
    cases hrow
    exact .of_isDelimiter hlast hclose
  | cons first more =>
    obtain ⟨comma, tail, rfl, hcomma, -⟩ := hrow.cons_form
    exact .of_isDelimiter (isDelimiter_of_form hcomma) (by decide)

/-- What is read as an operand is a whole expression where nothing goes on with it. -/
theorem Reads.expression_of_primary {value : Expression}
    (hvalue : Reads stop (.primary value) tokens rest) (hend : EndsExpression rest) :
    Reads stop (.expression value) tokens rest :=
  .operand hvalue (.enough (hend.endsBelow 0)) (hend.accept_eq_none _)

end Rows

theorem Parser.fieldKey_of_string {stop : Span} {key colon : Token} {rest : List Token}
    (hkey : key.kind = .string) (hcolon : colon.isDelimiter ":" = true) :
    fieldKey stop (key :: colon :: rest) =
      .ok ⟨key.text, rest, by simp only [List.length_cons]; omega⟩ := by
  simp [fieldKey, Reading.accept, hkey, Reading.delimiter_cons hcolon, bind, Except.bind, pure,
    Except.pure]

theorem Field.put_of_not_mem {fields : List Field} {key : String} {value : Expression}
    (hkey : key ∉ fields.map Field.key) : put fields key value = fields ++ [.mk key value] := by
  induction fields with
  | nil => rfl
  | cons field more ih =>
    simp only [List.map_cons, List.mem_cons, not_or] at hkey
    rw [put, if_neg (Ne.symm hkey.1), ih hkey.2, List.cons_append]

/-- Fields with different keys are put one behind the other. -/
theorem Field.foldl_put {fields : List Field} {entries : List (String × Expression)}
    (hkeys : (fields.map Field.key ++ entries.map Prod.fst).Nodup) :
    entries.foldl (fun fields entry => put fields entry.1 entry.2) fields =
      fields ++ entries.map fun entry => .mk entry.1 entry.2 := by
  induction entries generalizing fields with
  | nil => simp
  | cons entry more ih =>
    have hkey : entry.1 ∉ fields.map Field.key := by
      intro hmem
      exact (List.nodup_append.mp hkeys).2.2 _ hmem _ (by simp) rfl
    rw [List.foldl_cons, put_of_not_mem hkey, ih (by simpa [Field.key] using hkeys)]
    simp

theorem AssignmentOperator.spec_of_form {op : AssignmentOperator} (hop : op.isWritable = true)
    {token : Token} (htoken : token.kind = op.form.kind ∧ token.text = op.form.text) :
    token.isAssignment = true ∧ token.assignment? = some op ∧ token.binding? = none := by
  obtain ⟨hkind, htext⟩ := htoken
  cases op with
  | plain =>
    have hkind : token.kind = .equals := hkind
    simp [Token.isAssignment, Token.assignment?, Token.binding?, Token.isDelimiter, hkind]
  | compound op =>
    have hkind : token.kind = .compoundAssign := hkind
    have htext : token.text = (compound op).text := htext
    have hsign : BinaryOperator.ofText? (String.ofList
        ((compound op).text.toList.reverse.dropWhile (· = '=')).reverse) = some op := by
      revert hop
      cases op <;> decide
    refine ⟨by simp [Token.isAssignment, hkind], ?_, ?_⟩
    · simp [Token.assignment?, hkind, htext, hsign]
    · simp [Token.binding?, Token.isDelimiter, hkind]

/-- Whether the forms of an expression are read as that expression, up to its places: as a whole
    where nothing goes on with it, and an atom also as an operand. -/
structure Expression.Recovers (wraps : Expression → Bool) (stop : Span) (e : Expression) :
    Prop where
  whole : ∀ {tokens rest : List Token}, Row Form.Stands (e.forms wraps) tokens rest →
    EndsExpression rest → ∃ value : Expression, value.shape id = e.shape id ∧
      Reads stop (.expression value) tokens rest
  atom : e.isAtomic = true → ∀ {tokens rest : List Token},
    Row Form.Stands (e.forms wraps) tokens rest →
      ∃ value : Expression, value.shape id = e.shape id ∧ Reads stop (.primary value) tokens rest

namespace Expression.Recovers

variable {wraps : Expression → Bool} {stop : Span} {e : Expression}
  {tokens middle rest : List Token}

theorem of_primary (hprimary : ∀ {tokens rest : List Token},
    Row Form.Stands (e.forms wraps) tokens rest →
      ∃ value : Expression, value.shape id = e.shape id ∧ Reads stop (.primary value) tokens rest) :
    e.Recovers wraps stop := by
  refine ⟨fun hrow hend => ?_, fun _ => hprimary⟩
  obtain ⟨value, hvalue, hreads⟩ := hprimary hrow
  exact ⟨value, hvalue, hreads.expression_of_primary hend⟩

/-- What is no atom is only read as a whole. -/
theorem of_whole (hatomic : e.isAtomic = false) (hwhole : ∀ {tokens rest : List Token},
    Row Form.Stands (e.forms wraps) tokens rest → EndsExpression rest →
      ∃ value : Expression, value.shape id = e.shape id ∧
        Reads stop (.expression value) tokens rest) : e.Recovers wraps stop := by
  refine ⟨hwhole, fun hother => ?_⟩
  rw [hatomic] at hother
  cases hother

/-- In parentheses, an expression is an operand. -/
theorem inParentheses (he : e.Recovers wraps stop)
    (hrow : Row Form.Stands (Form.between "(" ")" (e.forms wraps)) tokens rest) :
    ∃ value : Expression, value.shape id = e.shape id ∧ ∃ opening tail close,
      tokens = opening :: tail ∧ opening.isDelimiter "(" = true ∧
      Reads stop (.expression value) tail (close :: rest) ∧ close.isDelimiter ")" = true := by
  obtain ⟨opening, tail, close, rfl, hopening, hforms, hclose⟩ := hrow.between
  obtain ⟨value, hvalue, hreads⟩ := he.whole hforms (.of_isDelimiter hclose (by decide))
  exact ⟨value, hvalue, opening, tail, close, rfl, hopening, hreads, hclose⟩

theorem enclosed (he : e.Recovers wraps stop)
    (hrow : Row Form.Stands (e.enclosed wraps (e.forms wraps)) tokens rest) :
    ∃ value : Expression, value.shape id = e.shape id ∧
      Reads stop (.primary value) tokens rest := by
  unfold Expression.enclosed at hrow
  split at hrow
  · next hatomic => exact he.atom (Bool.and_eq_true_iff.mp hatomic).1 hrow
  · obtain ⟨value, hvalue, _, _, _, rfl, hopening, hreads, hclose⟩ := he.inParentheses hrow
    exact ⟨value, hvalue, .parentheses hopening hreads hclose⟩

/-- A step behind an operand makes an expression. -/
theorem of_step {owner value : Expression} {step : PostfixStep}
    (howner : Reads stop (.primary owner) tokens middle) (hstep : step.Stands stop middle rest)
    (hvalue : step.apply owner = value) (hend : EndsExpression rest) :
    Reads stop (.expression value) tokens rest := by
  refine .operand howner (hstep.reads (Nat.zero_le _) ?_) (hend.accept_eq_none _)
  rw [hvalue]
  exact .enough (hend.endsBelow 0)

/-! #### Lists -/

theorem items {close : String} (hclose : close ≠ "(") {last : Token}
    (hlast : last.isDelimiter close = true) {values : List Expression}
    (hvalues : ∀ value ∈ values, value.Recovers wraps stop) {isFirst : Bool}
    (hrow : Row Form.Stands (Form.row isFirst (formsOfAll wraps values)) tokens (last :: rest)) :
    ∃ found : List Expression, found.map (shape id) = values.map (shape id) ∧
      Reads stop (.items close isFirst found last) tokens rest := by
  induction values generalizing isFirst tokens with
  | nil =>
    cases hrow
    exact ⟨[], rfl, .lastItem hlast⟩
  | cons value more ih =>
    obtain ⟨middle, hfirst, hmore⟩ := hrow.append
    have hend := hmore.endsExpression hlast hclose
    obtain ⟨found, hfound, hreadsMore⟩ := ih (fun value hvalue => hvalues value (by simp [hvalue]))
      hmore
    cases isFirst with
    | true =>
      obtain ⟨first, hvalue, hreads⟩ := (hvalues value (by simp)).enclosed hfirst
      exact ⟨first :: found, by simp [hvalue, hfound],
        .firstItem (hreads.expression_of_primary hend) hreadsMore⟩
    | false =>
      obtain ⟨comma, tail, rfl, hcomma, hfirst⟩ := hfirst.cons_form
      obtain ⟨first, hvalue, hreads⟩ := (hvalues value (by simp)).enclosed hfirst
      exact ⟨first :: found, by simp [hvalue, hfound],
        .nextItem (isDelimiter_of_form hcomma) (hreads.expression_of_primary hend) hreadsMore⟩

/-- Arguments in parentheses. -/
theorem arguments {values : List Expression}
    (hvalues : ∀ value ∈ values, value.Recovers wraps stop)
    (hrow : Row Form.Stands (Form.between "(" ")" (Form.row true (formsOfAll wraps values)))
      tokens rest) :
    ∃ found : List Expression, found.map (shape id) = values.map (shape id) ∧
      ∃ opening tail close, tokens = opening :: tail ∧ opening.isDelimiter "(" = true ∧
        Reads stop (.items ")" true found close) tail rest := by
  obtain ⟨opening, tail, close, rfl, hopening, hforms, hclose⟩ := hrow.between
  obtain ⟨found, hfound, hreads⟩ := items (by decide) hclose hvalues hforms
  exact ⟨found, hfound, opening, tail, close, rfl, hopening, hreads⟩

theorem entries {last : Token} (hlast : last.isDelimiter "\x7d" = true) {fields : List Field}
    (hfields : ∀ field ∈ fields, field.value.Recovers wraps stop) {isFirst : Bool}
    (hrow : Row Form.Stands (Form.row isFirst (Field.formsOfAll wraps fields)) tokens
      (last :: rest)) :
    ∃ found : List (String × Expression),
      found.map (fun entry => Field.mk entry.1 (entry.2.shape id)) =
        fields.map (fun field => .mk field.key (field.value.shape id)) ∧
      Reads stop (.entries isFirst found last) tokens rest := by
  induction fields generalizing isFirst tokens with
  | nil =>
    cases hrow
    exact ⟨[], rfl, .lastEntry hlast⟩
  | cons field more ih =>
    obtain ⟨key, value⟩ := field
    obtain ⟨middle, hfirst, hmore⟩ := hrow.append
    have hend := hmore.endsExpression hlast (by decide)
    obtain ⟨found, hfound, hreadsMore⟩ :=
      ih (fun field hfield => hfields field (by simp [hfield])) hmore
    have hentry {tokens : List Token} (hforms : Row Form.Stands (⟨.string, key⟩ ::
        .delimiter ":" :: value.enclosed wraps (value.forms wraps)) tokens middle) :
        ∃ reading first, Parser.fieldKey stop tokens = .ok reading ∧
          Field.mk reading.value (first.shape id) = Field.mk key (value.shape id) ∧
          Reads stop (.expression first) reading.rest middle := by
      obtain ⟨name, _, rfl, ⟨hkind, hname⟩, hforms⟩ := hforms.cons_form
      obtain ⟨colon, tail, rfl, hcolon, hforms⟩ := hforms.cons_form
      obtain ⟨first, hvalue, hreads⟩ := (hfields ⟨key, value⟩ (by simp)).enclosed hforms
      refine ⟨_, first, Parser.fieldKey_of_string hkind (isDelimiter_of_form hcolon), ?_,
        hreads.expression_of_primary hend⟩
      rw [hvalue]
      exact congrArg (Field.mk · _) hname
    cases isFirst with
    | true =>
      obtain ⟨reading, first, hkey, hentry, hreads⟩ := hentry hfirst
      exact ⟨(reading.value, first) :: found, by simp [hfound, hentry, Field.key, Field.value],
        .firstEntry hkey hreads hreadsMore⟩
    | false =>
      obtain ⟨comma, tail, rfl, hcomma, hfirst⟩ := hfirst.cons_form
      obtain ⟨reading, first, hkey, hentry, hreads⟩ := hentry hfirst
      exact ⟨(reading.value, first) :: found, by simp [hfound, hentry, Field.key, Field.value],
        .nextEntry (isDelimiter_of_form hcomma) hkey hreads hreadsMore⟩

/-! #### Every kind of expression -/

variable {left right owner callee target value : Expression}

theorem array {values : List Expression} (hvalues : ∀ value ∈ values, value.Recovers wraps stop)
    (span : Span) : (Expression.array values span).Recovers wraps stop := by
  refine of_primary fun hrow => ?_
  obtain ⟨opening, tail, close, rfl, hopening, hforms, hclose⟩ := hrow.between
  obtain ⟨found, hfound, hreads⟩ := items (by decide) hclose hvalues hforms
  exact ⟨_, by simp [shape, hfound], .array hopening hreads⟩

theorem object {fields : List Field} (hkeys : (fields.map Field.key).Nodup)
    (hfields : ∀ field ∈ fields, field.value.Recovers wraps stop) (span : Span) :
    (Expression.object fields span).Recovers wraps stop := by
  refine of_primary fun hrow => ?_
  obtain ⟨opening, tail, close, rfl, hopening, hforms, hclose⟩ := hrow.between
  obtain ⟨found, hfound, hreads⟩ := entries hclose hfields hforms
  have hsame : found.map Prod.fst = fields.map Field.key := by
    have hkeys := congrArg (List.map Field.key) hfound
    rw [List.map_map, List.map_map] at hkeys
    exact hkeys
  have hput : found.foldl (fun fields entry => Field.put fields entry.1 entry.2) [] =
      found.map fun entry => .mk entry.1 entry.2 := by
    apply Field.foldl_put
    simpa [hsame] using hkeys
  refine ⟨_, ?_, .object hopening hreads⟩
  rw [hput]
  simpa [shape, Function.comp_def, Field.key, Field.value] using hfound

theorem property (howner : owner.Recovers wraps stop) (key : Identifier) (span : Span) :
    (Expression.property owner key span).Recovers wraps stop := by
  refine of_whole rfl fun hrow hend => ?_
  obtain ⟨middle, hforms, hrow⟩ := hrow.append
  obtain ⟨point, _, rfl, hpoint, hrow⟩ := hrow.cons_form
  obtain ⟨name, rfl, hkind, hname⟩ := hrow.single_form
  obtain ⟨found, hfound, hreads⟩ := howner.enclosed hforms
  refine ⟨_, ?_, of_step hreads (.property (isOperator_of_form hpoint) hkind) rfl hend⟩
  simp [PostfixStep.apply, shape, hfound, hname, Form.name]

theorem computed (hleft : left.Recovers wraps stop) (hright : right.Recovers wraps stop)
    (span : Span) : (Expression.binary left .member right span).Recovers wraps stop := by
  refine of_whole rfl fun hrow hend => ?_
  obtain ⟨middle, hforms, hrow⟩ := hrow.append
  obtain ⟨point, _, rfl, hpoint, hrow⟩ := hrow.cons_form
  obtain ⟨key, hkey, _, _, _, rfl, hopening, hreadsKey, hclose⟩ := hright.inParentheses hrow
  obtain ⟨found, hfound, hreads⟩ := hleft.enclosed hforms
  refine ⟨_, ?_,
    of_step hreads (.computed (isOperator_of_form hpoint) hopening hreadsKey hclose) rfl hend⟩
  simp [PostfixStep.apply, shape, hfound, hkey]

theorem binary (hleft : left.Recovers wraps stop) (hright : right.Recovers wraps stop)
    {op : BinaryOperator} (hmember : op ≠ .member) (span : Span) :
    (Expression.binary left op right span).Recovers wraps stop := by
  refine of_whole rfl fun hrow hend => ?_
  obtain ⟨middle, hforms, hrow⟩ := hrow.append
  obtain ⟨sign, tail, rfl, hsign, hrow⟩ := hrow.cons_form
  rw [if_neg hmember] at hrow
  obtain ⟨found, hfound, hreads⟩ := hleft.enclosed hforms
  obtain ⟨operand, hoperand, hreadsOperand⟩ := hright.enclosed hrow
  have hbinding := Token.binding?_of_isOperator (isOperator_of_form hsign)
  refine ⟨_, ?_, .operand hreads (.binary hbinding (Nat.zero_le _) hreadsOperand
    (.enough (hend.endsBelow _)) (.enough (hend.endsBelow 0))) (hend.accept_eq_none _)⟩
  rw [Expression.join_of_ne hmember]
  simp [shape, hfound, hoperand]

theorem unary (hvalue : value.Recovers wraps stop) (op : UnaryOperator) (span : Span) :
    (Expression.unary op value span).Recovers wraps stop := by
  refine of_whole rfl fun hrow hend => ?_
  obtain ⟨sign, tail, rfl, ⟨hkind, htext⟩, hrow⟩ := hrow.cons_form
  obtain ⟨found, hfound, hreads⟩ := hvalue.enclosed hrow
  have hop : UnaryOperator.ofText? sign.text = some op := by
    rw [htext]
    cases op <;> rfl
  have hunary := Reads.unary hkind hop hreads (.enough (hend.endsBelow callPower))
  exact ⟨_, by simp [shape, hfound], hunary.expression_of_primary hend⟩

theorem call (hcallee : callee.Recovers wraps stop) {values : List Expression}
    (hvalues : ∀ value ∈ values, value.Recovers wraps stop) (span : Span) :
    (Expression.call callee values span).Recovers wraps stop := by
  refine of_whole rfl fun hrow hend => ?_
  obtain ⟨middle, hforms, hrow⟩ := hrow.append
  obtain ⟨args, hargs, _, _, _, rfl, hopening, hreadsArgs⟩ := arguments hvalues hrow
  obtain ⟨found, hfound, hreads⟩ := hcallee.enclosed hforms
  refine ⟨_, ?_, of_step hreads (.call hopening hreadsArgs) rfl hend⟩
  simp [PostfixStep.apply, shape, hfound, hargs]

theorem construct (hcallee : callee.Recovers wraps stop) {values : List Expression}
    (hvalues : ∀ value ∈ values, value.Recovers wraps stop) (span : Span) :
    (Expression.construct callee values span).Recovers wraps stop := by
  refine of_whole rfl fun hrow hend => ?_
  obtain ⟨word, tail, rfl, ⟨hkind, htext⟩, hrow⟩ := hrow.cons_form
  obtain ⟨middle, hforms, hrow⟩ := hrow.append
  obtain ⟨args, hargs, opening, _, _, rfl, hopening, hreadsArgs⟩ := arguments hvalues hrow
  obtain ⟨found, hfound, hreads⟩ := hcallee.enclosed hforms
  have hword : word.isKeyword .newWord = true := by simp [Token.isKeyword, hkind, htext]
  obtain ⟨hdelimiter, -⟩ := Token.spec_of_isDelimiter hopening
  have howner {inside : List Token} :
      Reads stop (.constructed found found) (opening :: inside) (opening :: inside) := by
    apply Reads.owner
    simp [Reading.accept, Token.isOperator, hdelimiter]
  have hconstruct := Reads.construct hword hreads howner hopening hreadsArgs
  exact ⟨_, by simp [shape, hfound, hargs], hconstruct.expression_of_primary hend⟩

/-- The names of a target are read one after the other. -/
theorem path : (target : Expression) → target.isAssignable = true →
    ∀ {tokens middle rest : List Token}, Row Form.Stands target.pathForms tokens middle →
    ∃ found : Expression, found.shape id = target.shape id ∧
      ∀ {whole : Expression}, Reads stop (.onwards found 0 whole) middle rest →
        ∃ first behind, Reads stop (.primary first) tokens behind ∧
          Reads stop (.onwards first 0 whole) behind rest
  | .name text span, _, _, _, _, hrow => by
    obtain ⟨name, rfl, hkind, hname⟩ := hrow.single_form
    refine ⟨.name name.text name.span, ?_, fun hwhole => ⟨_, _, .name hkind, hwhole⟩⟩
    simp [shape, hname, Form.name]
  | .property owner key span, hassignable, _, _, _, hrow => by
    obtain ⟨atPoint, hforms, hrow⟩ := hrow.append
    obtain ⟨point, _, rfl, hpoint, hrow⟩ := hrow.cons_form
    obtain ⟨name, rfl, hkind, hname⟩ := hrow.single_form
    obtain ⟨found, hfound, hreads⟩ := path owner hassignable hforms
    refine ⟨(PostfixStep.property ⟨name.text, name.span⟩).apply found, ?_, fun hwhole => ?_⟩
    · simp [PostfixStep.apply, shape, hfound, hname, Form.name]
    · exact hreads ((PostfixStep.Stands.property (isOperator_of_form hpoint) hkind).reads
        (Nat.zero_le _) hwhole)

theorem assign (hassignable : target.isAssignable = true) (hvalue : value.Recovers wraps stop)
    {op : AssignmentOperator} (hop : op.isWritable = true) (span : Span) :
    (Expression.assign target op value false span).Recovers wraps stop := by
  refine of_whole rfl fun hrow hend => ?_
  obtain ⟨middle, hforms, hrow⟩ := hrow.append
  obtain ⟨sign, tail, rfl, hsign, hrow⟩ := hrow.cons_form
  obtain ⟨found, hfound, hreadsValue⟩ := hvalue.enclosed hrow
  obtain ⟨path, hpath, hreads⟩ := path target hassignable hforms
  obtain ⟨hassignment, hop, hbinding⟩ := op.spec_of_form hop hsign
  have hnothing : EndsBelow 0 (sign :: tail) := by
    rintro _ ⟨⟩ binding hother
    rw [hbinding] at hother
    cases hother
  obtain ⟨first, behind, hfirst, htarget⟩ := hreads (.enough hnothing)
  have hsame : path.isAssignable = true := by
    rw [← hassignable, ← path.isAssignable_shape, hpath, isAssignable_shape]
  refine ⟨_, ?_, .assignment hfirst htarget hassignment hsame hop
    (hreadsValue.expression_of_primary hend)⟩
  simp [shape, hpath, hfound]

end Expression.Recovers

mutual

/-- What can be written down is read as it was. -/
theorem Expression.recovers (wraps : Expression → Bool) (stop : Span) :
    (e : Expression) → e.Printable → e.Recovers wraps stop
  | .string value span, _ => .of_primary fun hrow => by
    obtain ⟨token, rfl, hkind, htext⟩ := hrow.single_form
    exact ⟨_, by simp [Expression.shape, htext], .string hkind⟩
  | .number text span, _ => .of_primary fun hrow => by
    obtain ⟨token, rfl, hkind, htext⟩ := hrow.single_form
    exact ⟨_, by simp [Expression.shape, htext], .number hkind⟩
  | .name text span, _ => .of_primary fun hrow => by
    obtain ⟨token, rfl, hkind, htext⟩ := hrow.single_form
    exact ⟨_, by simp [Expression.shape, htext, Form.name], .name hkind⟩
  | .array items span, hitems => .array (Expression.recovers_all wraps stop items hitems) span
  | .object entries span, ⟨hkeys, hentries⟩ =>
    .object hkeys (Field.recovers_all wraps stop entries hentries) span
  | .property owner key span, ⟨howner, _⟩ =>
    .property (Expression.recovers wraps stop owner howner) key span
  | .assign target op value isLocal span, ⟨⟨hassignable, _⟩, hop, hvalue, hlocal⟩ => by
    subst hlocal
    exact .assign hassignable (Expression.recovers wraps stop value hvalue) hop span
  | .binary left op right span, ⟨hleft, hright⟩ => by
    have hleft := Expression.recovers wraps stop left hleft
    have hright := Expression.recovers wraps stop right hright
    by_cases hmember : op = .member
    · subst hmember
      exact .computed hleft hright span
    · exact .binary hleft hright hmember span
  | .unary op operand span, hoperand =>
    .unary (Expression.recovers wraps stop operand hoperand) op span
  | .call callee arguments span, ⟨hcallee, harguments⟩ =>
    .call (Expression.recovers wraps stop callee hcallee)
      (Expression.recovers_all wraps stop arguments harguments) span
  | .construct callee arguments span, ⟨hcallee, harguments⟩ =>
    .construct (Expression.recovers wraps stop callee hcallee)
      (Expression.recovers_all wraps stop arguments harguments) span

theorem Expression.recovers_all (wraps : Expression → Bool) (stop : Span) :
    (items : List Expression) → Expression.AllPrintable items →
      ∀ item ∈ items, item.Recovers wraps stop
  | [], _ => fun _ hitem => by cases hitem
  | first :: more, ⟨hfirst, hmore⟩ => fun item hitem => by
    rcases List.mem_cons.mp hitem with heq | hitem
    · rw [heq]
      exact Expression.recovers wraps stop first hfirst
    · exact Expression.recovers_all wraps stop more hmore item hitem

theorem Field.recovers_all (wraps : Expression → Bool) (stop : Span) :
    (entries : List Field) → Field.AllPrintable entries →
      ∀ entry ∈ entries, entry.value.Recovers wraps stop
  | [], _ => fun _ hentry => by cases hentry
  | .mk key value :: more, ⟨_, hvalue, hmore⟩ => fun entry hentry => by
    rcases List.mem_cons.mp hentry with heq | hentry
    · rw [heq]
      exact Expression.recovers wraps stop value hvalue
    · exact Field.recovers_all wraps stop more hmore entry hentry

end

theorem Row.of_tokens (tokens : List Token) :
    Row Form.Stands (tokens.map Token.form) tokens [] := by
  induction tokens with
  | nil => exact .nil
  | cons token more ih => exact .cons ⟨token, rfl, rfl, rfl⟩ ih

/-- The tokens of a program are those in front of the end of the input. -/
theorem Row.of_forms {tokens : List Token} {forms : List Form} {last : Form}
    (htokens : tokens.map Token.form = forms ++ [last]) (hforms : AllLegible forms)
    (hlast : last.kind = .endOfInput) : Row Form.Stands forms (programTokens tokens) [] := by
  obtain ⟨ahead, behind, rfl, rfl, hbehind⟩ := List.map_eq_append_iff.mp htokens
  obtain ⟨final, rfl, rfl⟩ := List.map_eq_singleton_iff.mp hbehind
  have hahead : ∀ token ∈ ahead, token.kind ≠ .endOfInput := fun token htoken =>
    (hforms token.form (List.mem_map_of_mem htoken)).kind_ne_endOfInput
  have htokens : programTokens (ahead ++ [final]) = ahead := by
    have hfinal : final.kind = .endOfInput := hlast
    unfold programTokens
    rw [List.takeWhile_append_of_pos (by simpa using hahead)]
    simp [hfinal]
  rw [htokens]
  exact .of_tokens ahead

/-- Parsing undoes printing: what is printed of an expression is a program of one statement, and
    the statement is the expression up to its places. -/
theorem Program.ofSource_print (wraps : Expression → Bool) {e : Expression} (he : e.Printable) :
    ∃ program value span, ofSource (e.print wraps) = .ok program ∧
      program.body = [.expression value span] ∧ value.shape id = e.shape id := by
  have hlegible := e.legible_forms wraps he
  obtain ⟨tokens, htokens, hforms⟩ := tokenize_spaced hlegible
  have hrow := Row.of_forms hforms hlegible rfl
  obtain ⟨value, hvalue, hreads⟩ := (e.recovers wraps (endSpan tokens) he).whole hrow (by
    simp [EndsExpression])
  have hprogram : ofTokens tokens = .ok (ofStatements (endSpan tokens) _) :=
    ofTokens_eq_ok_iff.mpr ⟨[.expression value value.span],
      .more (.unguarded (.plain hreads) rfl) (.none (by simp)), rfl⟩
  refine ⟨ofStatements (endSpan tokens) [.expression value value.span], value, value.span, ?_, rfl,
    hvalue⟩
  exact Except.bind_eq_ok_iff.mpr ⟨tokens, htokens, hprogram⟩

example : (Expression.property (.name "a" (.point .zero)) ⟨"b", .point .zero⟩
    (.point .zero)).print (fun _ => true) = "( a ) . b" := by decide

/-- An assignment of a call, with an object and a signed number as arguments. -/
theorem Program.ofSource_print_assigned :
    let span : Span := .point .zero
    let target : Expression := .property (.name "a" span) ⟨"b", span⟩ span
    let value : Expression := .call (.name "f" span)
      [.unary .minus (.number "1.5" span) span, .object [.mk "k" (.string "\"" span)] span] span
    let e : Expression := .assign target (.compound .add) value false span
    e.Printable ∧
      ∃ program value span, ofSource (e.print fun _ => false) = .ok program ∧
        program.body = [.expression value span] ∧ value.shape id = e.shape id := by
  intro span target value e
  have hname {text : String} (hstart : ∃ first ∈ text.toList.head?, isWordStart first = true)
      (hchars : ∀ char ∈ text.toList, isWordChar char = true)
      (hother : Keyword.ofText? text = none ∧ text ∉ ["and", "or", "not"]) : IsName text :=
    ⟨hstart, hchars, hother.1, hother.2⟩
  have ha : IsName "a" := hname ⟨'a', rfl, rfl⟩ (List.all_eq_true.mp rfl) (by decide)
  have hb : IsName "b" := hname ⟨'b', rfl, rfl⟩ (List.all_eq_true.mp rfl) (by decide)
  have hf : IsName "f" := hname ⟨'f', rfl, rfl⟩ (List.all_eq_true.mp rfl) (by decide)
  have hnumber : IsNumber (String.ofList (['1'] ++ '.' :: ['5'])) :=
    .fraction (by simp) (List.all_eq_true.mp rfl) (by simp) (List.all_eq_true.mp rfl)
  have hquote : '\\' ∉ "\"".toList := by decide
  have hobject : (Expression.object [.mk "k" (.string "\"" span)] span).Printable :=
    ⟨List.pairwise_singleton _ _, by decide, hquote, trivial⟩
  have hprintable : e.Printable := ⟨⟨rfl, ha, hb⟩, rfl, ⟨hf, hnumber, hobject, trivial⟩, rfl⟩
  exact ⟨hprintable, ofSource_print (fun _ => false) hprintable⟩


end KaLang
