import KaLang.Syntax.Parser

/-!
Syntax with its places changed. A relocation puts the starts and the ends of texts elsewhere, and a
span made of the start of one text and the end of another goes with both. What is put together from
relocated parts is the relocated whole (`Expression.relocate_join`, `Field.relocate_foldl_put`). The
relocation that puts everything at one place leaves the syntax alone (`Relocation.nowhere`).
-/

namespace KaLang

/-- Where the starts and the ends of texts are put. -/
structure Relocation where
  first : Position → Position
  last : Position → Position

/-- Everything is put at the same place, so that places can no longer be told apart. -/
def Relocation.nowhere : Relocation := ⟨fun _ => .zero, fun _ => .zero⟩

variable (r : Relocation)

/-! ### Tokens and errors -/

/-- The span from the new place of its start to the new place of its end. -/
def Span.relocate (s : Span) : Span := ⟨r.first s.first, r.last s.last⟩

/-- The token at its new place. -/
def Token.relocate (token : Token) : Token := { token with span := token.span.relocate r }

/-- The name at its new place. -/
def Identifier.relocate (name : Identifier) : Identifier :=
  { name with span := name.span.relocate r }

/-- The name at its new place. -/
def MethodName.relocate : MethodName → MethodName
  | .identifier name => .identifier (name.relocate r)
  | .operator op span => .operator op (span.relocate r)

/-- The same fault at its new place. -/
def CompileError.relocate : CompileError → CompileError
  | .lexing fault position => .lexing fault (r.first position)
  | .parsing fault span => .parsing fault (span.relocate r)
  | .emitting fault span => .emitting fault (span.relocate r)

@[simp] theorem Span.relocate_through (a b : Span) :
    (a.through b).relocate r = (a.relocate r).through (b.relocate r) := rfl

@[simp] theorem Span.relocate_nowhere (s : Span) :
    (s.relocate r).relocate .nowhere = s.relocate .nowhere := rfl

namespace Token

variable (token : Token)

/-! What a token is does not depend on its place. -/

@[simp] theorem kind_relocate : (token.relocate r).kind = token.kind := rfl

@[simp] theorem text_relocate : (token.relocate r).text = token.text := rfl

@[simp] theorem span_relocate : (token.relocate r).span = token.span.relocate r := rfl

@[simp] theorem isKeyword_relocate (word : Keyword) :
    (token.relocate r).isKeyword word = token.isKeyword word := rfl

@[simp] theorem keyword?_relocate : (token.relocate r).keyword? = token.keyword? := rfl

@[simp] theorem binding?_relocate : (token.relocate r).binding? = token.binding? := rfl

@[simp] theorem isAssignment_relocate : (token.relocate r).isAssignment = token.isAssignment := rfl

@[simp] theorem assignment?_relocate : (token.relocate r).assignment? = token.assignment? := rfl

end Token

@[simp] theorem Identifier.name_relocate (name : Identifier) :
    (name.relocate r).name = name.name := rfl

@[simp] theorem Identifier.span_relocate (name : Identifier) :
    (name.relocate r).span = name.span.relocate r := rfl

@[simp] theorem Identifier.relocate_nowhere (name : Identifier) :
    (name.relocate r).relocate .nowhere = name.relocate .nowhere := rfl

@[simp] theorem Identifier.map_relocate_nowhere (names : List Identifier) :
    (names.map (relocate r)).map (relocate .nowhere) = names.map (relocate .nowhere) := by
  rw [List.map_map]
  rfl

@[simp] theorem MethodName.span_relocate (name : MethodName) :
    (name.relocate r).span = name.span.relocate r := by
  cases name <;> rfl

@[simp] theorem MethodName.relocate_nowhere (name : MethodName) :
    (name.relocate r).relocate .nowhere = name.relocate .nowhere := by
  cases name <;> rfl

/-! ### Syntax trees -/

mutual

/-- The expression with every text at its new place. -/
def Expression.relocate : Expression → Expression
  | .string value span => .string value (span.relocate r)
  | .number text span => .number text (span.relocate r)
  | .name text span => .name text (span.relocate r)
  | .array items span => .array (Expression.relocateAll items) (span.relocate r)
  | .object entries span => .object (Field.relocateAll entries) (span.relocate r)
  | .property owner key span => .property owner.relocate (key.relocate r) (span.relocate r)
  | .assign target op value isLocal span =>
    .assign target.relocate op value.relocate isLocal (span.relocate r)
  | .binary left op right span => .binary left.relocate op right.relocate (span.relocate r)
  | .unary op operand span => .unary op operand.relocate (span.relocate r)
  | .lambda params body span =>
    .lambda (params.map (Identifier.relocate r)) body.relocate (span.relocate r)
  | .call callee arguments span =>
    .call callee.relocate (Expression.relocateAll arguments) (span.relocate r)
  | .construct callee arguments span =>
    .construct callee.relocate (Expression.relocateAll arguments) (span.relocate r)

/-- Expressions in a row, each with every text at its new place. -/
def Expression.relocateAll : List Expression → List Expression
  | [] => []
  | item :: more => item.relocate :: Expression.relocateAll more

/-- The fields of an object with every text at its new place. -/
def Field.relocateAll : List Field → List Field
  | [] => []
  | .mk key value :: more => .mk key value.relocate :: Field.relocateAll more

/-- The block with every text at its new place. -/
def Block.relocate : Block → Block
  | .mk body span => .mk (Statement.relocateAll body) (span.relocate r)

/-- Statements in a row, each with every text at its new place. -/
def Statement.relocateAll : List Statement → List Statement
  | [] => []
  | first :: more => first.relocate :: Statement.relocateAll more

/-- The statement with every text at its new place. -/
def Statement.relocate : Statement → Statement
  | .expression value span => .expression value.relocate (span.relocate r)
  | .block inner => .block inner.relocate
  | .condition test thenBranch none span =>
    .condition test.relocate thenBranch.relocate none (span.relocate r)
  | .condition test thenBranch (some branch) span =>
    .condition test.relocate thenBranch.relocate (some branch.relocate) (span.relocate r)
  | .forLoop item iterable body span =>
    .forLoop (item.relocate r) iterable.relocate body.relocate (span.relocate r)
  | .whileLoop test body span => .whileLoop test.relocate body.relocate (span.relocate r)
  | .returnValue none span => .returnValue none (span.relocate r)
  | .returnValue (some value) span => .returnValue (some value.relocate) (span.relocate r)
  | .breakLoop span => .breakLoop (span.relocate r)
  | .continueLoop span => .continueLoop (span.relocate r)
  | .functionDecl name params body span =>
    .functionDecl (name.relocate r) (params.map (Identifier.relocate r)) body.relocate
      (span.relocate r)
  | .classDecl name parts span =>
    .classDecl (name.relocate r) (ClassMember.relocateAll parts) (span.relocate r)
  | .hostDecl name kind span => .hostDecl (name.relocate r) kind (span.relocate r)
  | .importDecl source names kind span =>
    .importDecl (source.map (Identifier.relocate r)) (names.map (Identifier.relocate r)) kind
      (span.relocate r)
  | .exportDecl declaration span => .exportDecl declaration.relocate (span.relocate r)
  | .guarded inner test span => .guarded inner.relocate test.relocate (span.relocate r)

/-- The members of a class with every text at its new place. -/
def ClassMember.relocateAll : List ClassMember → List ClassMember
  | [] => []
  | first :: more => first.relocate :: ClassMember.relocateAll more

/-- The member with every text at its new place. -/
def ClassMember.relocate : ClassMember → ClassMember
  | .field name value span => .field (name.relocate r) value.relocate (span.relocate r)
  | .method name params body span =>
    .method (name.relocate r) (params.map (Identifier.relocate r)) body.relocate (span.relocate r)

end

namespace Expression

@[simp] theorem relocateAll_eq_map (items : List Expression) :
    relocateAll r items = items.map (relocate r) := by
  induction items with
  | nil => rfl
  | cons item more ih => rw [relocateAll, ih, List.map_cons]

@[simp] theorem span_relocate (e : Expression) : (e.relocate r).span = e.span.relocate r := by
  cases e <;> rfl

@[simp] theorem name?_relocate (e : Expression) : (e.relocate r).name? = e.name? := by
  cases e <;> rfl

@[simp] theorem path?_relocate : (e : Expression) → (e.relocate r).path? = e.path?
  | .property owner key _ => by
    simp only [relocate, path?, path?_relocate owner, Identifier.name_relocate]
  | .name _ _ | .string _ _ | .number _ _ | .array _ _ | .object _ _ | .assign _ _ _ _ _
  | .binary _ _ _ _ | .unary _ _ _ | .lambda _ _ _ | .call _ _ _ | .construct _ _ _ => rfl

@[simp] theorem isAssignable_relocate (e : Expression) :
    (e.relocate r).isAssignable = e.isAssignable := by
  rw [isAssignable_eq_isSome_path?, isAssignable_eq_isSome_path?, path?_relocate]

/-- Whether operands are joined to a property depends on no place. -/
theorem relocate_join (left : Expression) (op : BinaryOperator) (right : Expression)
    (inParentheses : Bool) :
    (left.join op right inParentheses).relocate r =
      (left.relocate r).join op (right.relocate r) inParentheses := by
  unfold join
  cases op with
  | member =>
    cases inParentheses with
    | true => simp [relocate]
    | false => cases right <;> simp [relocate, Identifier.relocate] <;> rfl
  | _ => simp [relocate]

end Expression

namespace Field

/-- The field with every text at its new place. -/
def relocate : Field → Field
  | .mk key value => .mk key (value.relocate r)

@[simp] theorem relocateAll_eq_map (entries : List Field) :
    relocateAll r entries = entries.map (relocate r) := by
  induction entries with
  | nil => rfl
  | cons entry more ih =>
    obtain ⟨key, value⟩ := entry
    rw [relocateAll, ih, List.map_cons]
    rfl

@[simp] theorem key_relocate (field : Field) : (field.relocate r).key = field.key := by
  cases field
  rfl

theorem relocate_put (fields : List Field) (key : String) (value : Expression) :
    (put fields key value).map (relocate r) =
      put (fields.map (relocate r)) key (value.relocate r) := by
  induction fields with
  | nil => rfl
  | cons field more ih =>
    simp only [put, List.map_cons, key_relocate]
    split
    · rfl
    · rw [List.map_cons, ih]

theorem relocate_foldl_put (entries : List (String × Expression)) (fields : List Field) :
    (entries.foldl (fun fields entry => put fields entry.1 entry.2) fields).map (relocate r) =
      (entries.map fun entry => (entry.1, entry.2.relocate r)).foldl
        (fun fields entry => put fields entry.1 entry.2) (fields.map (relocate r)) := by
  induction entries generalizing fields with
  | nil => rfl
  | cons entry more ih =>
    rw [List.foldl_cons, ih, relocate_put, List.map_cons, List.foldl_cons]

end Field

@[simp] theorem Statement.relocateAll_eq_map (body : List Statement) :
    relocateAll r body = body.map (relocate r) := by
  induction body with
  | nil => rfl
  | cons first more ih => rw [relocateAll, ih, List.map_cons]

@[simp] theorem ClassMember.relocateAll_eq_map (parts : List ClassMember) :
    relocateAll r parts = parts.map (relocate r) := by
  induction parts with
  | nil => rfl
  | cons first more ih => rw [relocateAll, ih, List.map_cons]

@[simp] theorem Block.span_relocate (body : Block) :
    (body.relocate r).span = body.span.relocate r := by
  cases body
  rfl

@[simp] theorem Statement.span_relocate (value : Statement) :
    (value.relocate r).span = value.span.relocate r := by
  cases value with
  | block inner => exact inner.span_relocate r
  | condition _ _ branch => cases branch <;> rfl
  | returnValue value => cases value <;> rfl
  | _ => rfl

/-! ### Nowhere -/

mutual

/-- A relocation is lost when everything is put at one place afterwards. -/
theorem Expression.relocate_nowhere :
    (e : Expression) → (e.relocate r).relocate .nowhere = e.relocate .nowhere
  | .string _ _ | .number _ _ | .name _ _ => rfl
  | .array items _ => by
    simp only [Expression.relocate, Span.relocate_nowhere, Expression.relocateAll_nowhere items]
  | .object entries _ => by
    simp only [Expression.relocate, Span.relocate_nowhere, Field.relocateAll_nowhere entries]
  | .property owner _ _ => by
    simp only [Expression.relocate, Identifier.relocate_nowhere, Span.relocate_nowhere,
      owner.relocate_nowhere]
  | .assign target _ value _ _ => by
    simp only [Expression.relocate, Span.relocate_nowhere, target.relocate_nowhere,
      value.relocate_nowhere]
  | .binary left _ right _ => by
    simp only [Expression.relocate, Span.relocate_nowhere, left.relocate_nowhere,
      right.relocate_nowhere]
  | .unary _ operand _ => by
    simp only [Expression.relocate, Span.relocate_nowhere, operand.relocate_nowhere]
  | .lambda _ body _ => by
    simp only [Expression.relocate, Identifier.map_relocate_nowhere, Span.relocate_nowhere,
      body.relocate_nowhere]
  | .call callee arguments _ | .construct callee arguments _ => by
    simp only [Expression.relocate, Span.relocate_nowhere, callee.relocate_nowhere,
      Expression.relocateAll_nowhere arguments]

theorem Expression.relocateAll_nowhere : (items : List Expression) →
    Expression.relocateAll .nowhere (Expression.relocateAll r items) =
      Expression.relocateAll .nowhere items
  | [] => rfl
  | item :: more => by
    simp only [Expression.relocateAll, item.relocate_nowhere, Expression.relocateAll_nowhere more]

theorem Field.relocateAll_nowhere : (entries : List Field) →
    Field.relocateAll .nowhere (Field.relocateAll r entries) = Field.relocateAll .nowhere entries
  | [] => rfl
  | .mk _ value :: more => by
    simp only [Field.relocateAll, value.relocate_nowhere, Field.relocateAll_nowhere more]

theorem Block.relocate_nowhere :
    (body : Block) → (body.relocate r).relocate .nowhere = body.relocate .nowhere
  | .mk body _ => by
    simp only [Block.relocate, Span.relocate_nowhere, Statement.relocateAll_nowhere body]

theorem Statement.relocateAll_nowhere : (body : List Statement) →
    Statement.relocateAll .nowhere (Statement.relocateAll r body) =
      Statement.relocateAll .nowhere body
  | [] => rfl
  | first :: more => by
    simp only [Statement.relocateAll, first.relocate_nowhere, Statement.relocateAll_nowhere more]

theorem Statement.relocate_nowhere :
    (value : Statement) → (value.relocate r).relocate .nowhere = value.relocate .nowhere
  | .expression value _ => by
    simp only [Statement.relocate, Span.relocate_nowhere, value.relocate_nowhere]
  | .block inner => by simp only [Statement.relocate, inner.relocate_nowhere]
  | .condition test thenBranch none _ => by
    simp only [Statement.relocate, Span.relocate_nowhere, test.relocate_nowhere,
      thenBranch.relocate_nowhere]
  | .condition test thenBranch (some branch) _ => by
    simp only [Statement.relocate, Span.relocate_nowhere, test.relocate_nowhere,
      thenBranch.relocate_nowhere, branch.relocate_nowhere]
  | .forLoop _ iterable body _ => by
    simp only [Statement.relocate, Identifier.relocate_nowhere, Span.relocate_nowhere,
      iterable.relocate_nowhere, body.relocate_nowhere]
  | .whileLoop test body _ => by
    simp only [Statement.relocate, Span.relocate_nowhere, test.relocate_nowhere,
      body.relocate_nowhere]
  | .returnValue none _ | .breakLoop _ | .continueLoop _ | .hostDecl _ _ _ => rfl
  | .returnValue (some value) _ => by
    simp only [Statement.relocate, Span.relocate_nowhere, value.relocate_nowhere]
  | .functionDecl _ _ body _ => by
    simp only [Statement.relocate, Identifier.relocate_nowhere, Identifier.map_relocate_nowhere,
      Span.relocate_nowhere, body.relocate_nowhere]
  | .classDecl _ parts _ => by
    simp only [Statement.relocate, Identifier.relocate_nowhere, Span.relocate_nowhere,
      ClassMember.relocateAll_nowhere parts]
  | .importDecl _ _ _ _ => by
    simp only [Statement.relocate, Identifier.map_relocate_nowhere, Span.relocate_nowhere]
  | .exportDecl declaration _ => by
    simp only [Statement.relocate, Span.relocate_nowhere, declaration.relocate_nowhere]
  | .guarded inner test _ => by
    simp only [Statement.relocate, Span.relocate_nowhere, inner.relocate_nowhere,
      test.relocate_nowhere]

theorem ClassMember.relocateAll_nowhere : (parts : List ClassMember) →
    ClassMember.relocateAll .nowhere (ClassMember.relocateAll r parts) =
      ClassMember.relocateAll .nowhere parts
  | [] => rfl
  | first :: more => by
    simp only [ClassMember.relocateAll, first.relocate_nowhere,
      ClassMember.relocateAll_nowhere more]

theorem ClassMember.relocate_nowhere :
    (part : ClassMember) → (part.relocate r).relocate .nowhere = part.relocate .nowhere
  | .field _ value _ => by
    simp only [ClassMember.relocate, Identifier.relocate_nowhere, Span.relocate_nowhere,
      value.relocate_nowhere]
  | .method _ _ body _ => by
    simp only [ClassMember.relocate, Identifier.map_relocate_nowhere, MethodName.relocate_nowhere,
      Span.relocate_nowhere, body.relocate_nowhere]

end

/-- The program without its places. -/
def Program.unplaced (program : Program) : Program :=
  ⟨program.body.map (Statement.relocate .nowhere), program.span.relocate .nowhere⟩

end KaLang
