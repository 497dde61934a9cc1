import KaLang.Proofs.Token.Spelling
import KaLang.Syntax.Basic

/-!
Writing expressions down. The printer puts every part of an expression that is no atom in
parentheses; which atoms are put there as well is left open. What it writes of an expression whose
texts fit their kinds can stand in a text (`Expression.legible_forms`).
-/

namespace KaLang

/-! ### The printer -/

namespace Form

/-- An operator. -/
def sign (text : String) : Form := ⟨.operator, text⟩

/-- A delimiter. -/
def delimiter (text : String) : Form := ⟨.delimiter, text⟩

/-- A name. -/
def name (text : String) : Form := ⟨.identifier, text⟩

/-- Forms between two delimiters. -/
def between (opening closing : String) (forms : List Form) : List Form :=
  delimiter opening :: (forms ++ [delimiter closing])

end Form

/-- The sign of an assignment. -/
def AssignmentOperator.form (op : AssignmentOperator) : Form :=
  match op with
  | plain => ⟨.equals, op.text⟩
  | compound _ => ⟨.compoundAssign, op.text⟩

namespace Expression

/-- Whether the expression needs no parentheses anywhere. -/
def isAtomic : Expression → Bool
  | string _ _ | number _ _ | name _ _ | array _ _ | object _ _ => true
  | _ => false

/-- The forms of an expression that is a part of another one: in parentheses, but for an atom that
    `wraps` does not ask to wrap. -/
def enclosed (wraps : Expression → Bool) (e : Expression) (forms : List Form) : List Form :=
  if e.isAtomic && !wraps e then forms else Form.between "(" ")" forms

/-- The names of an assignable expression with points between them. -/
def pathForms : Expression → List Form
  | name text _ => [.name text]
  | property owner key _ => owner.pathForms ++ [.sign ".", .name key.name]
  | _ => []

end Expression

/-- Lists of forms with a comma in front of each but the first. -/
def Form.row (isFirst : Bool) : List (List Form) → List Form
  | [] => []
  | first :: more =>
    (if isFirst then first else Form.delimiter "," :: first) ++ Form.row false more

mutual

/-- The forms of an expression. Nothing is printed of a lambda. -/
def Expression.forms (wraps : Expression → Bool) : Expression → List Form
  | .string value _ => [⟨.string, value⟩]
  | .number text _ => [⟨.number, text⟩]
  | .name text _ => [.name text]
  | .array items _ => Form.between "[" "]" (Form.row true (Expression.formsOfAll wraps items))
  | .object entries _ =>
    Form.between "\x7b" "\x7d" (Form.row true (Field.formsOfAll wraps entries))
  | .property owner key _ =>
    owner.enclosed wraps (owner.forms wraps) ++ [.sign ".", .name key.name]
  | .assign target op value _ _ =>
    target.pathForms ++ op.form :: value.enclosed wraps (value.forms wraps)
  | .binary left op right _ =>
    left.enclosed wraps (left.forms wraps) ++ .sign op.text ::
      (if op = .member then Form.between "(" ")" (right.forms wraps)
        else right.enclosed wraps (right.forms wraps))
  | .unary op operand _ => .sign op.text :: operand.enclosed wraps (operand.forms wraps)
  | .lambda _ _ _ => []
  | .call callee arguments _ =>
    callee.enclosed wraps (callee.forms wraps) ++
      Form.between "(" ")" (Form.row true (Expression.formsOfAll wraps arguments))
  | .construct callee arguments _ =>
    ⟨.keyword, Keyword.newWord.text⟩ :: (callee.enclosed wraps (callee.forms wraps) ++
      Form.between "(" ")" (Form.row true (Expression.formsOfAll wraps arguments)))

/-- The forms of each of some expressions that are parts of another one. -/
def Expression.formsOfAll (wraps : Expression → Bool) : List Expression → List (List Form)
  | [] => []
  | item :: more =>
    item.enclosed wraps (item.forms wraps) :: Expression.formsOfAll wraps more

/-- The forms of each field of an object: its key as a string, a colon and its value. -/
def Field.formsOfAll (wraps : Expression → Bool) : List Field → List (List Form)
  | [] => []
  | .mk key value :: more =>
    (⟨.string, key⟩ :: .delimiter ":" :: value.enclosed wraps (value.forms wraps)) ::
      Field.formsOfAll wraps more

end

/-- The text of an expression. -/
def Expression.print (wraps : Expression → Bool) (e : Expression) : String :=
  String.ofList (Form.spaced (e.forms wraps))

/-- Whether the sign of an assignment is written as one token. -/
def AssignmentOperator.isWritable : AssignmentOperator → Bool
  | plain => true
  | compound op => op ∈ [.add, .sub, .mul, .div, .mod]

mutual

/-- Whether the expression can be written down: its texts fit their kinds, the keys of each object
    are different, and its assignments are not local and have assignable targets. There is no lambda
    in it. -/
def Expression.Printable : Expression → Prop
  | .string value _ => '\\' ∉ value.toList
  | .number text _ => IsNumber text
  | .name text _ => IsName text
  | .array items _ => Expression.AllPrintable items
  | .object entries _ => (entries.map Field.key).Nodup ∧ Field.AllPrintable entries
  | .property owner key _ => owner.Printable ∧ IsName key.name
  | .assign target op value isLocal _ =>
    (target.isAssignable = true ∧ target.Printable) ∧ op.isWritable = true ∧ value.Printable ∧
      isLocal = false
  | .binary left _ right _ => left.Printable ∧ right.Printable
  | .unary _ operand _ => operand.Printable
  | .lambda _ _ _ => False
  | .call callee arguments _ => callee.Printable ∧ Expression.AllPrintable arguments
  | .construct callee arguments _ => callee.Printable ∧ Expression.AllPrintable arguments

/-- Whether all expressions of a list can be written down. -/
def Expression.AllPrintable : List Expression → Prop
  | [] => True
  | item :: more => item.Printable ∧ Expression.AllPrintable more

/-- Whether all fields of an object can be written down. -/
def Field.AllPrintable : List Field → Prop
  | [] => True
  | .mk key value :: more => '\\' ∉ key.toList ∧ value.Printable ∧ Field.AllPrintable more

end

/-! ### What is printed is legible -/

theorem Form.legible_delimiter {text : String}
    (htext : text ∈ Lexeme.delimiters.map String.singleton) : (delimiter text).Legible := by
  obtain ⟨char, hchar, rfl⟩ := List.mem_map.mp htext
  exact .delimiter hchar

theorem Form.legible_sign {text : String}
    (htext : ∃ sign ∈ Sign.table, sign.kind = .operator ∧ sign.text = text) :
    (sign text).Legible := by
  obtain ⟨sign, hsign, hkind, rfl⟩ := htext
  have hlegible := Legible.sign hsign
  rwa [hkind] at hlegible

theorem Form.legible_binary (op : BinaryOperator) : (sign op.text).Legible := by
  apply legible_sign
  cases op <;> decide

theorem Form.legible_unary (op : UnaryOperator) : (sign op.text).Legible := by
  apply legible_sign
  cases op <;> decide

theorem AssignmentOperator.legible_form {op : AssignmentOperator}
    (hop : op.isWritable = true) : op.form.Legible := by
  cases op with
  | plain => exact .equals
  | compound op =>
    have hsign : ∃ sign ∈ Sign.table, sign.kind = .compoundAssign ∧
        sign.text = (compound op).text := by
      revert hop
      cases op <;> decide
    obtain ⟨sign, hsign, hkind, htext⟩ := hsign
    have hlegible := Form.Legible.sign hsign
    rwa [hkind, htext] at hlegible

/-- Whether all forms of a list can stand in a text. -/
def AllLegible (forms : List Form) : Prop := ∀ form ∈ forms, form.Legible

namespace AllLegible

variable {forms more : List Form} {form : Form}

theorem nil : AllLegible [] := fun _ hform => by cases hform

theorem cons (hform : form.Legible) (hmore : AllLegible more) : AllLegible (form :: more) := by
  intro other hother
  rcases List.mem_cons.mp hother with rfl | hother
  · exact hform
  · exact hmore other hother

theorem append (hforms : AllLegible forms) (hmore : AllLegible more) :
    AllLegible (forms ++ more) := by
  intro other hother
  rcases List.mem_append.mp hother with hother | hother
  · exact hforms other hother
  · exact hmore other hother

theorem between {opening closing : String} (hforms : AllLegible forms)
    (hopening : (Form.delimiter opening).Legible) (hclosing : (Form.delimiter closing).Legible) :
    AllLegible (Form.between opening closing forms) :=
  cons hopening (append hforms (cons hclosing nil))

theorem inParentheses (hforms : AllLegible forms) : AllLegible (Form.between "(" ")" forms) :=
  hforms.between (Form.legible_delimiter (by decide)) (Form.legible_delimiter (by decide))

theorem enclosed {wraps : Expression → Bool} {e : Expression} (hforms : AllLegible forms) :
    AllLegible (e.enclosed wraps forms) := by
  unfold Expression.enclosed
  split
  · exact hforms
  · exact hforms.inParentheses

theorem row {rows : List (List Form)} (hrows : ∀ forms ∈ rows, AllLegible forms)
    (isFirst : Bool) : AllLegible (Form.row isFirst rows) := by
  induction rows generalizing isFirst with
  | nil => exact nil
  | cons first more ih =>
    have hfirst := hrows first (by simp)
    refine append ?_ (ih (fun forms hforms => hrows forms (by simp [hforms])) false)
    split
    · exact hfirst
    · exact cons (Form.legible_delimiter (by decide)) hfirst

end AllLegible

theorem Expression.legible_pathForms : (target : Expression) → target.isAssignable = true →
    target.Printable → AllLegible target.pathForms
  | .name _ _, _, hname => .cons (.name hname) .nil
  | .property owner _ _, hassignable, hprintable =>
    (legible_pathForms owner hassignable hprintable.1).append
      (.cons (Form.legible_binary .member) (.cons (.name hprintable.2) .nil))

variable (wraps : Expression → Bool)

mutual

theorem Expression.legible_forms : (e : Expression) → e.Printable → AllLegible (e.forms wraps)
  | .string _ _, hvalue => .cons (.string hvalue) .nil
  | .number _ _, hnumber => .cons (.number hnumber) .nil
  | .name _ _, hname => .cons (.name hname) .nil
  | .array items _, hitems =>
    ((AllLegible.row (Expression.legible_formsOfAll items hitems) true)).between
      (Form.legible_delimiter (by decide)) (Form.legible_delimiter (by decide))
  | .object entries _, ⟨_, hentries⟩ =>
    ((AllLegible.row (Field.legible_formsOfAll entries hentries) true)).between
      (Form.legible_delimiter (by decide)) (Form.legible_delimiter (by decide))
  | .property owner _ _, ⟨howner, hkey⟩ =>
    (Expression.legible_forms owner howner).enclosed.append
      (.cons (Form.legible_binary .member) (.cons (.name hkey) .nil))
  | .assign target _ value _ _, ⟨⟨hassignable, htarget⟩, hop, hvalue, _⟩ =>
    (target.legible_pathForms hassignable htarget).append
      (.cons (AssignmentOperator.legible_form hop) (Expression.legible_forms value hvalue).enclosed)
  | .binary left op right _, ⟨hleft, hright⟩ => by
    have hright := Expression.legible_forms right hright
    refine (Expression.legible_forms left hleft).enclosed.append
      (.cons (Form.legible_binary op) ?_)
    split
    · exact hright.inParentheses
    · exact hright.enclosed
  | .unary op operand _, hoperand =>
    .cons (Form.legible_unary op) (Expression.legible_forms operand hoperand).enclosed
  | .call callee arguments _, ⟨hcallee, harguments⟩ =>
    (Expression.legible_forms callee hcallee).enclosed.append
      (AllLegible.row (Expression.legible_formsOfAll arguments harguments) true).inParentheses
  | .construct callee arguments _, ⟨hcallee, harguments⟩ =>
    .cons (.keyword .newWord) ((Expression.legible_forms callee hcallee).enclosed.append
      (AllLegible.row (Expression.legible_formsOfAll arguments harguments) true).inParentheses)

theorem Expression.legible_formsOfAll : (items : List Expression) →
    Expression.AllPrintable items → ∀ forms ∈ Expression.formsOfAll wraps items, AllLegible forms
  | [], _ => fun _ hforms => by cases hforms
  | item :: more, ⟨hitem, hmore⟩ => fun forms hforms => by
    rcases List.mem_cons.mp hforms with rfl | hforms
    · exact (Expression.legible_forms item hitem).enclosed
    · exact Expression.legible_formsOfAll more hmore forms hforms

theorem Field.legible_formsOfAll : (entries : List Field) → Field.AllPrintable entries →
    ∀ forms ∈ Field.formsOfAll wraps entries, AllLegible forms
  | [], _ => fun _ hforms => by cases hforms
  | .mk key value :: more, ⟨hkey, hvalue, hmore⟩ => fun forms hforms => by
    rcases List.mem_cons.mp hforms with rfl | hforms
    · exact .cons (.string hkey) (.cons (Form.legible_delimiter (by decide))
        (Expression.legible_forms value hvalue).enclosed)
    · exact Field.legible_formsOfAll more hmore forms hforms

end

end KaLang
