import KaLang.Source.Position
import KaLang.Syntax.Operator

/-!
Syntax trees. Every node carries the span of the text that it was read from.
-/

namespace KaLang

/-- A name with the place where it is written. -/
structure Identifier where
  name : String
  span : Span
deriving DecidableEq

/-- Names in a row. -/
def Identifier.row (names : List Identifier) : String :=
  ", ".intercalate (names.map Identifier.name)

/-- What the host provides under a name. -/
inductive HostKind where
  | variable
  | classType
deriving DecidableEq

/-- How an import binds its names: the whole module to its last segment, the default export to a
    chosen name, or exports to their own names. -/
inductive ImportKind where
  | wholeModule
  | defaultExport
  | namedExports
deriving DecidableEq

/-- The name of a method: a word, or an operator that the class defines for its values. -/
inductive MethodName where
  | identifier (name : Identifier)
  | operator (op : BinaryOperator) (span : Span)
deriving DecidableEq

/-- Where the name is written. -/
def MethodName.span : MethodName → Span
  | identifier name => name.span
  | operator _ span => span

mutual

/-- Expressions. The member operator between two operands is access by a computed key. -/
inductive Expression where
  | string (value : String) (span : Span)
  | number (text : String) (span : Span)
  | array (items : List Expression) (span : Span)
  | object (fields : List Field) (span : Span)
  | name (text : String) (span : Span)
  | property (object : Expression) (key : Identifier) (span : Span)
  | assign (target : Expression) (op : AssignmentOperator) (value : Expression) (isLocal : Bool)
      (span : Span)
  | binary (left : Expression) (op : BinaryOperator) (right : Expression) (span : Span)
  | unary (op : UnaryOperator) (operand : Expression) (span : Span)
  | lambda (params : List Identifier) (body : Block) (span : Span)
  | call (callee : Expression) (arguments : List Expression) (span : Span)
  | construct (callee : Expression) (arguments : List Expression) (span : Span)

/-- A field of an object literal. -/
inductive Field where
  | mk (key : String) (value : Expression)

/-- Statements between an opening and a closing word. -/
inductive Block where
  | mk (body : List Statement) (span : Span)

/-- Statements. The alternative of a condition is a block or another condition. -/
inductive Statement where
  | expression (expression : Expression) (span : Span)
  | block (inner : Block)
  | condition (test : Expression) (thenBranch : Block) (elseBranch : Option Statement)
      (span : Span)
  | forLoop (item : Identifier) (iterable : Expression) (body : Block) (span : Span)
  | whileLoop (test : Expression) (body : Block) (span : Span)
  | returnValue (value : Option Expression) (span : Span)
  | breakLoop (span : Span)
  | continueLoop (span : Span)
  | functionDecl (name : Identifier) (params : List Identifier) (body : Block) (span : Span)
  | classDecl (name : Identifier) (members : List ClassMember) (span : Span)
  | hostDecl (name : Identifier) (kind : HostKind) (span : Span)
  | importDecl (source : List Identifier) (names : List Identifier) (kind : ImportKind)
      (span : Span)
  | exportDecl (declaration : Statement) (span : Span)
  | guarded (statement : Statement) (test : Expression) (span : Span)

/-- The parts of a class. -/
inductive ClassMember where
  | field (name : Identifier) (value : Expression) (span : Span)
  | method (name : MethodName) (params : List Identifier) (body : Block) (span : Span)

end

/-- A whole source text. -/
structure Program where
  body : List Statement
  span : Span

namespace Field

/-- The key of the field. -/
def key : Field → String
  | mk key _ => key

/-- The value of the field. -/
def value : Field → Expression
  | mk _ value => value

/-- The fields with one more. A field of the same key gets the new value and keeps its place. -/
def put (fields : List Field) (key : String) (value : Expression) : List Field :=
  match fields with
  | [] => [mk key value]
  | field :: more =>
    if field.key = key then mk key value :: more else field :: put more key value

/-- What holds of the values of all fields and of the new value holds afterwards. -/
theorem forall_put {p : Expression → Prop} {fields : List Field} {key : String}
    {value : Expression} (hfields : ∀ field ∈ fields, p field.value) (hvalue : p value) :
    ∀ field ∈ put fields key value, p field.value := by
  induction fields with
  | nil => simpa [put, Field.value] using hvalue
  | cons first more ih =>
    have hmore := ih fun other hother => hfields other (List.mem_cons_of_mem _ hother)
    simp only [put]
    split
    · intro field hfield
      rcases List.mem_cons.mp hfield with rfl | hfield
      · exact hvalue
      · exact hfields field (List.mem_cons_of_mem _ hfield)
    · exact List.forall_mem_cons.mpr ⟨hfields first List.mem_cons_self, hmore⟩

theorem forall_foldl_put {p : Expression → Prop} {entries : List (String × Expression)}
    {fields : List Field} (hfields : ∀ field ∈ fields, p field.value)
    (hentries : ∀ entry ∈ entries, p entry.2) :
    ∀ field ∈ entries.foldl (fun fields entry => put fields entry.1 entry.2) fields,
      p field.value := by
  induction entries generalizing fields with
  | nil => exact hfields
  | cons entry entries ih =>
    have hfirst := hentries entry List.mem_cons_self
    exact ih (forall_put hfields hfirst) fun other hother =>
      hentries other (List.mem_cons_of_mem _ hother)

end Field

namespace Block

/-- The statements of the block. -/
def body : Block → List Statement
  | mk body _ => body

/-- The text of the block with its opening and closing words. -/
def span : Block → Span
  | mk _ span => span

end Block

/-- The text of the expression. -/
def Expression.span : Expression → Span
  | string _ span | number _ span | array _ span | object _ span | name _ span
  | property _ _ span | assign _ _ _ _ span | binary _ _ _ span | unary _ _ span
  | lambda _ _ span | call _ _ span | construct _ _ span => span

namespace Expression

/-- Whether the expression is a name, or names joined by points. -/
def isAssignable : Expression → Bool
  | name _ _ => true
  | property owner _ _ => owner.isAssignable
  | _ => false

/-- The names of an assignable expression, joined by points. -/
def path? : Expression → Option String
  | name text _ => some text
  | property owner key _ => owner.path?.map fun base => base ++ "." ++ key.name
  | _ => none

/-- The name that the expression is, if it is one alone. -/
def name? : Expression → Option String
  | name text _ => some text
  | _ => none

theorem isAssignable_eq_isSome_path? (e : Expression) : e.isAssignable = e.path?.isSome := by
  fun_induction path? e <;> simp_all [isAssignable]

end Expression

/-- The text of the statement. -/
def Statement.span : Statement → Span
  | expression _ span | condition _ _ _ span | forLoop _ _ _ span | whileLoop _ _ span
  | returnValue _ span | breakLoop span | continueLoop span | functionDecl _ _ _ span
  | classDecl _ _ span | hostDecl _ _ span | importDecl _ _ _ span | exportDecl _ span
  | guarded _ _ span => span
  | block inner => inner.span

/-- The text of the member. -/
def ClassMember.span : ClassMember → Span
  | field _ _ span | method _ _ _ span => span

end KaLang
