import KaLang.Syntax.Dump

/-!
What the dump of a syntax tree shows. Spans are shown by lines and columns alone, and names stand in
the labels of nodes, without spans of their own. The dump depends on nothing else
(`Program.outline_shown`).
-/

namespace KaLang

/-- The place without its offset. -/
def Position.shown (p : Position) : Position := ⟨0, p.line, p.column⟩

/-- The span without its offsets, as it is written in an outline. -/
def Span.shown (s : Span) : Span := ⟨s.first.shown, s.last.shown⟩

@[simp] theorem Span.label_shown (s : Span) : s.shown.label = s.label := rfl

/-- A name that is written without its place. -/
def Identifier.ofName (name : String) : Identifier := ⟨name, .point .zero⟩

/-- The name without its place, as it is written in an outline. -/
def Identifier.shown (name : Identifier) : Identifier := .ofName name.name

theorem Identifier.map_ofName (names : List Identifier) :
    (names.map name).map ofName = names.map shown := by
  rw [List.map_map]
  rfl

/-- The name of a method without its place. -/
def MethodName.shown : MethodName → MethodName
  | identifier name => identifier name.shown
  | operator op _ => operator op (.point .zero)

mutual

/-- The expression as it is written in an outline: spans have no offsets, names have no place. -/
def Expression.shown : Expression → Expression
  | .string value span => .string value span.shown
  | .number text span => .number text span.shown
  | .name text span => .name text span.shown
  | .array items span => .array (Expression.shownAll items) span.shown
  | .object fields span => .object (Field.shownAll fields) span.shown
  | .property owner key span => .property owner.shown key.shown span.shown
  | .assign target op value isLocal span =>
    .assign target.shown op value.shown isLocal span.shown
  | .binary left op right span => .binary left.shown op right.shown span.shown
  | .unary op operand span => .unary op operand.shown span.shown
  | .lambda params body span => .lambda (params.map Identifier.shown) body.shown span.shown
  | .call callee arguments span =>
    .call callee.shown (Expression.shownAll arguments) span.shown
  | .construct callee arguments span =>
    .construct callee.shown (Expression.shownAll arguments) span.shown

/-- Expressions in a row as they are written in an outline. -/
def Expression.shownAll : List Expression → List Expression
  | [] => []
  | item :: more => item.shown :: Expression.shownAll more

/-- The fields of an object as they are written in an outline. -/
def Field.shownAll : List Field → List Field
  | [] => []
  | .mk key value :: more => .mk key value.shown :: Field.shownAll more

/-- The block as it is written in an outline. -/
def Block.shown : Block → Block
  | .mk body span => .mk (Statement.shownAll body) span.shown

/-- Statements in a row as they are written in an outline. -/
def Statement.shownAll : List Statement → List Statement
  | [] => []
  | first :: more => first.shown :: Statement.shownAll more

/-- The statement as it is written in an outline. -/
def Statement.shown : Statement → Statement
  | .expression value span => .expression value.shown span.shown
  | .block inner => .block inner.shown
  | .condition test thenBranch none span =>
    .condition test.shown thenBranch.shown none span.shown
  | .condition test thenBranch (some branch) span =>
    .condition test.shown thenBranch.shown (some branch.shown) span.shown
  | .forLoop item iterable body span =>
    .forLoop item.shown iterable.shown body.shown span.shown
  | .whileLoop test body span => .whileLoop test.shown body.shown span.shown
  | .returnValue none span => .returnValue none span.shown
  | .returnValue (some value) span => .returnValue (some value.shown) span.shown
  | .breakLoop span => .breakLoop span.shown
  | .continueLoop span => .continueLoop span.shown
  | .functionDecl name params body span =>
    .functionDecl name.shown (params.map Identifier.shown) body.shown span.shown
  | .classDecl name members span =>
    .classDecl name.shown (ClassMember.shownAll members) span.shown
  | .hostDecl name kind span => .hostDecl name.shown kind span.shown
  | .importDecl source names kind span =>
    .importDecl (source.map Identifier.shown) (names.map Identifier.shown) kind span.shown
  | .exportDecl declaration span => .exportDecl declaration.shown span.shown
  | .guarded inner test span => .guarded inner.shown test.shown span.shown

/-- The members of a class as they are written in an outline. -/
def ClassMember.shownAll : List ClassMember → List ClassMember
  | [] => []
  | first :: more => first.shown :: ClassMember.shownAll more

/-- The member as it is written in an outline. -/
def ClassMember.shown : ClassMember → ClassMember
  | .field name value span => .field name.shown value.shown span.shown
  | .method name params body span =>
    .method name.shown (params.map Identifier.shown) body.shown span.shown

end

/-- The program as its dump shows it: the spans of nodes have no offsets, and names, which stand in
    the labels of nodes, have no spans. -/
def Program.shown (program : Program) : Program :=
  ⟨Statement.shownAll program.body, program.span.shown⟩

/-! ### What is not shown -/

@[simp] theorem Identifier.row_shown (names : List Identifier) :
    Identifier.row (names.map shown) = Identifier.row names := by
  rw [row, row, List.map_map]
  rfl

@[simp] theorem Identifier.outline_shown (params : List Identifier) :
    Identifier.outline (params.map shown) = Identifier.outline params := by
  cases params with
  | nil => rfl
  | cons name more => exact congrArg (fun row => [Outline.leaf ("params " ++ row)]) (row_shown _)

@[simp] theorem MethodName.label_shown (name : MethodName) : name.shown.label = name.label := by
  cases name <;> rfl

mutual

theorem Expression.outline_shown : (value : Expression) → value.shown.outline = value.outline
  | .string _ _ | .number _ _ | .name _ _ => rfl
  | .array items span => by
    simp [Expression.shown, Expression.outline, Expression.outlines_shown items]
  | .object fields span => by
    simp [Expression.shown, Expression.outline, Field.outlines_shown fields]
  | .property owner key span => by
    simp [Expression.shown, Expression.outline, Expression.outline_shown owner, Identifier.shown,
      Identifier.ofName]
  | .assign target op value isLocal span => by
    simp [Expression.shown, Expression.outline, Expression.outline_shown target,
      Expression.outline_shown value]
  | .binary left op right span => by
    simp [Expression.shown, Expression.outline, Expression.outline_shown left,
      Expression.outline_shown right]
  | .unary op operand span => by
    simp [Expression.shown, Expression.outline, Expression.outline_shown operand]
  | .lambda params body span => by
    simp [Expression.shown, Expression.outline, Block.outline_shown body]
  | .call callee arguments span => by
    simp [Expression.shown, Expression.outline, Expression.outline_shown callee,
      Expression.outlines_shown arguments]
  | .construct callee arguments span => by
    simp [Expression.shown, Expression.outline, Expression.outline_shown callee,
      Expression.outlines_shown arguments]

theorem Expression.outlines_shown : (items : List Expression) →
    Expression.outlines (Expression.shownAll items) = Expression.outlines items
  | [] => rfl
  | item :: more => by
    rw [Expression.shownAll, Expression.outlines, Expression.outlines,
      Expression.outline_shown item, Expression.outlines_shown more]

theorem Field.outlines_shown : (fields : List Field) →
    Field.outlines (Field.shownAll fields) = Field.outlines fields
  | [] => rfl
  | .mk key value :: more => by
    rw [Field.shownAll, Field.outlines, Field.outlines, Expression.outline_shown value,
      Field.outlines_shown more]

theorem Block.outline_shown : (body : Block) → ∀ heading,
    body.shown.outline heading = body.outline heading
  | .mk body span, heading => by
    simp [Block.shown, Block.outline, Statement.outlines_shown body]

theorem Statement.outlines_shown : (body : List Statement) →
    Statement.outlines (Statement.shownAll body) = Statement.outlines body
  | [] => rfl
  | first :: more => by
    rw [Statement.shownAll, Statement.outlines, Statement.outlines,
      Statement.outline_shown first, Statement.outlines_shown more]

theorem Statement.outline_shown : (value : Statement) → value.shown.outline = value.outline
  | .breakLoop _ | .continueLoop _ | .returnValue none _ => rfl
  | .expression value span => by
    simp [Statement.shown, Statement.outline, Expression.outline_shown value]
  | .block inner => by simp [Statement.shown, Statement.outline, Block.outline_shown inner]
  | .condition test thenBranch none span => by
    simp [Statement.shown, Statement.outline, Expression.outline_shown test,
      Block.outline_shown thenBranch]
  | .condition test thenBranch (some branch) span => by
    simp [Statement.shown, Statement.outline, Expression.outline_shown test,
      Block.outline_shown thenBranch, Statement.outline_shown branch]
  | .forLoop item iterable body span => by
    simp [Statement.shown, Statement.outline, Expression.outline_shown iterable,
      Block.outline_shown body, Identifier.shown, Identifier.ofName]
  | .whileLoop test body span => by
    simp [Statement.shown, Statement.outline, Expression.outline_shown test,
      Block.outline_shown body]
  | .returnValue (some value) span => by
    simp [Statement.shown, Statement.outline, Expression.outline_shown value]
  | .functionDecl name params body span => by
    simp [Statement.shown, Statement.outline, Block.outline_shown body, Identifier.shown,
      Identifier.ofName]
  | .classDecl name members span => by
    simp [Statement.shown, Statement.outline, ClassMember.outlines_shown members, Identifier.shown,
      Identifier.ofName]
  | .hostDecl name kind span => by
    simp [Statement.shown, Statement.outline, Identifier.shown, Identifier.ofName]
  | .importDecl source names kind span => by
    simp [Statement.shown, Statement.outline, Function.comp_def, Identifier.shown,
      Identifier.ofName]
  | .exportDecl declaration span => by
    simp [Statement.shown, Statement.outline, Statement.outline_shown declaration]
  | .guarded inner test span => by
    simp [Statement.shown, Statement.outline, Statement.outline_shown inner,
      Expression.outline_shown test]

theorem ClassMember.outlines_shown : (members : List ClassMember) →
    ClassMember.outlines (ClassMember.shownAll members) = ClassMember.outlines members
  | [] => rfl
  | first :: more => by
    rw [ClassMember.shownAll, ClassMember.outlines, ClassMember.outlines,
      ClassMember.outline_shown first, ClassMember.outlines_shown more]

theorem ClassMember.outline_shown : (value : ClassMember) → value.shown.outline = value.outline
  | .field name value span => by
    simp [ClassMember.shown, ClassMember.outline, Expression.outline_shown value, Identifier.shown,
      Identifier.ofName]
  | .method name params body span => by
    simp [ClassMember.shown, ClassMember.outline, Block.outline_shown body]

end

theorem Program.outline_shown (program : Program) : program.shown.outline = program.outline := by
  rw [outline, outline, shown, Statement.outlines_shown, Span.label_shown]

end KaLang
