import KaLang.Syntax.Basic

/-!
Expressions up to the places they are written at. The shape of an expression has every span
forgotten, and may have the marks of local assignments forgotten as well. It is taken of
expressions without lambdas; the body of a lambda stays as it is.
-/

namespace KaLang

mutual

/-- The expression with all spans forgotten, and its assignments marked as `mark` says. -/
def Expression.shape (mark : Bool → Bool) : Expression → Expression
  | .string value _ => .string value (.point .zero)
  | .number text _ => .number text (.point .zero)
  | .name text _ => .name text (.point .zero)
  | .array items _ => .array (Expression.shapes mark items) (.point .zero)
  | .object entries _ => .object (Field.shapes mark entries) (.point .zero)
  | .property owner key _ => .property (owner.shape mark) ⟨key.name, .point .zero⟩ (.point .zero)
  | .assign target op value isLocal _ =>
    .assign (target.shape mark) op (value.shape mark) (mark isLocal) (.point .zero)
  | .binary left op right _ => .binary (left.shape mark) op (right.shape mark) (.point .zero)
  | .unary op operand _ => .unary op (operand.shape mark) (.point .zero)
  | .lambda params body _ => .lambda params body (.point .zero)
  | .call callee arguments _ =>
    .call (callee.shape mark) (Expression.shapes mark arguments) (.point .zero)
  | .construct callee arguments _ =>
    .construct (callee.shape mark) (Expression.shapes mark arguments) (.point .zero)

/-- The shapes of expressions in a row. -/
def Expression.shapes (mark : Bool → Bool) : List Expression → List Expression
  | [] => []
  | item :: more => item.shape mark :: Expression.shapes mark more

/-- The shapes of the fields of an object. -/
def Field.shapes (mark : Bool → Bool) : List Field → List Field
  | [] => []
  | .mk key value :: more => .mk key (value.shape mark) :: Field.shapes mark more

end

variable {mark : Bool → Bool}

@[simp] theorem Expression.shapes_eq_map (items : List Expression) :
    shapes mark items = items.map (shape mark) := by
  induction items with
  | nil => rfl
  | cons item more ih => rw [shapes, ih, List.map_cons]

@[simp] theorem Field.shapes_eq_map (entries : List Field) :
    shapes mark entries = entries.map fun entry => .mk entry.key (entry.value.shape mark) := by
  induction entries with
  | nil => rfl
  | cons entry more ih =>
    obtain ⟨key, value⟩ := entry
    rw [shapes, ih, List.map_cons]
    rfl

@[simp] theorem Expression.isAssignable_shape :
    (e : Expression) → (e.shape mark).isAssignable = e.isAssignable
  | .property owner _ _ => isAssignable_shape owner
  | .name _ _ | .string _ _ | .number _ _ | .array _ _ | .object _ _ | .assign _ _ _ _ _
  | .binary _ _ _ _ | .unary _ _ _ | .lambda _ _ _ | .call _ _ _ | .construct _ _ _ => rfl

end KaLang
