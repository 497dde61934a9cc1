import KaLang.Proofs.Syntax.Legible
import KaLang.Proofs.Syntax.Shape

/-!
Accesses and calls behind assignments. `Expression.regrouped` takes every step behind an assignment
to the value of the assignment instead: `(a = b).c` becomes `a = b.c`. It changes nothing in an
expression that takes no step behind an assignment (`Expression.regrouped_shape`).
-/

namespace KaLang

/-- Whether the expression is an assignment. -/
def Expression.isAssign : Expression → Bool
  | .assign _ _ _ _ _ => true
  | _ => false

/-- A step taken behind an expression. Behind an assignment it is taken behind the value. -/
def Expression.behind (step : Expression → Expression) : Expression → Expression
  | .assign target op value isLocal span => .assign target op (value.behind step) isLocal span
  | e => step e

mutual

/-- The expression with every step that is taken behind an assignment taken behind its value. -/
def Expression.regrouped : Expression → Expression
  | .array items span => .array (Expression.regroupedEach items) span
  | .object entries span => .object (Field.regroupedEach entries) span
  | .property owner key span => owner.regrouped.behind fun owner => .property owner key span
  | .assign target op value isLocal span => .assign target op value.regrouped isLocal span
  | .binary left .member right span =>
    left.regrouped.behind fun left => .binary left .member right.regrouped span
  | .binary left op right span => .binary left.regrouped op right.regrouped span
  | .unary op operand span => .unary op operand.regrouped span
  | .call callee arguments span =>
    callee.regrouped.behind fun callee => .call callee (Expression.regroupedEach arguments) span
  | .construct callee arguments span =>
    .construct callee.regrouped (Expression.regroupedEach arguments) span
  | e => e

/-- Expressions in a row, each regrouped. -/
def Expression.regroupedEach : List Expression → List Expression
  | [] => []
  | item :: more => item.regrouped :: Expression.regroupedEach more

/-- The fields of an object, the value of each regrouped. -/
def Field.regroupedEach : List Field → List Field
  | [] => []
  | .mk key value :: more => .mk key value.regrouped :: Field.regroupedEach more

end

/-- The expression without places and without marks of local assignments. -/
def Expression.unmarked (e : Expression) : Expression := e.shape fun _ => false

/-- Whether the expression is neither a lambda nor an assignment that applies an operator. -/
def Expression.IsPlain : Expression → Prop
  | .lambda _ _ _ => False
  | .assign _ op _ _ _ => op = .plain
  | _ => True

/-- Whether the expression takes no step behind an assignment. -/
def Expression.IsGrouped : Expression → Prop
  | .property left _ _ | .binary left .member _ _ | .call left _ _ => left.isAssign = false
  | _ => True

variable {mark : Bool → Bool}

namespace Expression

variable {e : Expression} {step next : Expression → Expression}

theorem behind_of_not_assign (he : e.isAssign = false) : e.behind step = step e := by
  cases e with
  | assign => cases he
  | _ => rfl

@[simp] theorem behind_id : (e : Expression) → e.behind id = e
  | .assign target op value isLocal span => by rw [behind, behind_id value]
  | .string _ _ | .number _ _ | .name _ _ | .array _ _ | .object _ _ | .property _ _ _
  | .binary _ _ _ _ | .unary _ _ _ | .lambda _ _ _ | .call _ _ _ | .construct _ _ _ => rfl

/-- Two steps behind an expression, if the first is no assignment, are one. -/
theorem behind_behind (hstep : ∀ left, (step left).isAssign = false) :
    (e : Expression) → (e.behind step).behind next = e.behind fun left => next (step left)
  | .assign target op value isLocal span => by
    rw [behind, behind, behind_behind hstep value, behind]
  | .string _ _ | .number _ _ | .name _ _ | .array _ _ | .object _ _ | .property _ _ _
  | .binary _ _ _ _ | .unary _ _ _ | .lambda _ _ _ | .call _ _ _ | .construct _ _ _ =>
    behind_of_not_assign (hstep _)

theorem regrouped_binary {op : BinaryOperator} (hop : op ≠ .member) (left right : Expression)
    (span : Span) :
    (binary left op right span).regrouped = .binary left.regrouped op right.regrouped span := by
  cases op with
  | member => exact absurd rfl hop
  | _ => rfl

theorem regrouped_of_isAssignable : (e : Expression) → e.isAssignable = true → e.regrouped = e
  | .name _ _, _ => rfl
  | .property owner _ _, he => by
    rw [regrouped, regrouped_of_isAssignable owner he]
    exact behind_of_not_assign (by cases owner <;> first | rfl | cases he)

@[simp] theorem regroupedEach_eq_map (items : List Expression) :
    regroupedEach items = items.map regrouped := by
  induction items with
  | nil => rfl
  | cons item more ih => rw [regroupedEach, ih, List.map_cons]

end Expression

@[simp] theorem Field.regroupedEach_eq_map (entries : List Field) :
    regroupedEach entries = entries.map fun entry => .mk entry.key entry.value.regrouped := by
  induction entries with
  | nil => rfl
  | cons entry more ih =>
    obtain ⟨key, value⟩ := entry
    rw [regroupedEach, ih, List.map_cons]
    rfl

@[simp] theorem Expression.isAssign_shape (e : Expression) :
    (e.shape mark).isAssign = e.isAssign := by
  cases e <;> rfl

mutual

/-- An expression that takes no step behind an assignment is grouped as it is. -/
theorem Expression.regrouped_shape :
    (e : Expression) → e.Every Expression.IsGrouped → (e.shape mark).regrouped = e.shape mark
  | .string _ _, _ | .number _ _, _ | .name _ _, _ | .lambda _ _ _, _ => rfl
  | .array items _, he => by
    rw [Expression.shape, Expression.regrouped, Expression.regroupedEach_shapes items he.2]
  | .object entries _, he => by
    rw [Expression.shape, Expression.regrouped, Field.regroupedEach_shapes entries he.2]
  | .property owner _ _, he => by
    have hassign : (owner.shape mark).isAssign = false := owner.isAssign_shape.trans he.1
    rw [Expression.shape, Expression.regrouped, owner.regrouped_shape he.2,
      Expression.behind_of_not_assign hassign]
  | .assign _ _ value _ _, he => by
    rw [Expression.shape, Expression.regrouped, value.regrouped_shape he.2.2]
  | .binary left op right _, he => by
    have hleft := left.regrouped_shape he.2.1
    have hright := right.regrouped_shape he.2.2
    cases op with
    | member =>
      have hassign : (left.shape mark).isAssign = false := left.isAssign_shape.trans he.1
      rw [Expression.shape, Expression.regrouped, hleft, hright,
        Expression.behind_of_not_assign hassign]
    | _ => simp only [Expression.shape, Expression.regrouped, hleft, hright]
  | .unary _ operand _, he => by
    rw [Expression.shape, Expression.regrouped, operand.regrouped_shape he.2]
  | .call callee arguments _, he => by
    have hassign : (callee.shape mark).isAssign = false := callee.isAssign_shape.trans he.1
    rw [Expression.shape, Expression.regrouped, callee.regrouped_shape he.2.1,
      Expression.regroupedEach_shapes arguments he.2.2, Expression.behind_of_not_assign hassign]
  | .construct callee arguments _, he => by
    rw [Expression.shape, Expression.regrouped, callee.regrouped_shape he.2.1,
      Expression.regroupedEach_shapes arguments he.2.2]

theorem Expression.regroupedEach_shapes :
    (items : List Expression) → Expression.EachEvery Expression.IsGrouped items →
      Expression.regroupedEach (Expression.shapes mark items) = Expression.shapes mark items
  | [], _ => rfl
  | item :: more, he => by
    rw [Expression.shapes, Expression.regroupedEach, item.regrouped_shape he.1,
      Expression.regroupedEach_shapes more he.2]

theorem Field.regroupedEach_shapes :
    (entries : List Field) → Field.EachEvery Expression.IsGrouped entries →
      Field.regroupedEach (Field.shapes mark entries) = Field.shapes mark entries
  | [], _ => rfl
  | .mk _ value :: more, he => by
    rw [Field.shapes, Field.regroupedEach, value.regrouped_shape he.1,
      Field.regroupedEach_shapes more he.2]

end

end KaLang
