import KaLang.Syntax.Reading

/-!
The grammar: reading statements and expressions from a list of tokens. Every reader either fails
at the first token that cannot stand where it stands, or takes at least one token; so the readers
come to an end on every list of tokens. What follows the first end token is never looked at.
-/

namespace KaLang

/-- What a token does to the expression in front of it. -/
inductive Binding where
  | call
  | binary (op : BinaryOperator)
deriving DecidableEq

/-- How tightly the expression in front is bound. -/
def Binding.power : Binding → Nat
  | call => callPower
  | binary op => op.power

/-- How the token goes on with an expression in front of it, if it does. -/
def Token.binding? (token : Token) : Option Binding :=
  if token.kind = .operator then (BinaryOperator.ofText? token.text).map .binary
  else if token.isDelimiter "(" then some .call
  else none

/-- The assignment that a token stands for, when it stands behind a target. A compound assignment
    is spelled as an operator before one or more equals signs. -/
def Token.assignment? (token : Token) : Option AssignmentOperator :=
  if token.kind = .equals then some .plain
  else
    let sign := (token.text.toList.reverse.dropWhile (· = '=')).reverse
    (BinaryOperator.ofText? (String.ofList sign)).map .compound

/-- Whether the token assigns to what stands in front of it. -/
def Token.isAssignment (token : Token) : Bool :=
  token.kind = .equals || token.kind = .compoundAssign

/-- Two operands joined. Behind a point, a name without parentheses is a property's name. -/
def Expression.join (left : Expression) (op : BinaryOperator) (right : Expression)
    (inParentheses : Bool) : Expression :=
  let span := left.span.through right.span
  match op, inParentheses, right with
  | .member, false, .name text place => .property left ⟨text, place⟩ span
  | _, _, _ => .binary left op right span

/-- Whether a value may stand behind a `return` at `word`: only what starts on the same line, and
    is not a word that closes or guards the statement. -/
def returnsValue (word : Span) : List Token → Bool
  | [] => false
  | token :: _ =>
    token.span.first.line = word.last.line && !token.isKeyword .endWord &&
      !token.isKeyword .elseWord && !token.isKeyword .ifWord

namespace Parser

open Reading

/-- What is declared as provided by the host, behind the opening word. -/
def hostDecl (stop start : Span) (tokens : List Token) :
    Except CompileError (Reading Statement tokens) := do
  match accept (fun token => token.isKeyword .classWord) tokens with
  | some ⟨_, afterClass, hclass⟩ =>
    let ⟨name, rest, hrest⟩ ← identifier stop afterClass
    return ⟨.hostDecl name .classType (start.through name.span), rest, shorter_trans hclass hrest⟩
  | none =>
    let ⟨name, rest, hrest⟩ ← identifier stop tokens
    return ⟨.hostDecl name .variable (start.through name.span), rest, hrest⟩

/-- The path of a module: names joined by points. -/
def dottedPath (stop : Span) (tokens : List Token) :
    Except CompileError (Reading (Identifier × List Identifier) tokens) :=
  identifiersBy stop (fun token => token.isOperator ".") tokens

/-- An import of a whole module, behind the opening word. -/
def importModule (stop start : Span) (tokens : List Token) :
    Except CompileError (Reading Statement tokens) := do
  let ⟨(first, more), rest, hrest⟩ ← dottedPath stop tokens
  let last := more.getLast?.getD first
  let statement := Statement.importDecl (first :: more) [last] .wholeModule
    (start.through last.span)
  return ⟨statement, rest, hrest⟩

/-- An import of the exports of a module, behind the opening word. -/
def importExports (stop start : Span) (tokens : List Token) :
    Except CompileError (Reading Statement tokens) := do
  let ⟨(segment, segments), afterPath, hpath⟩ ← dottedPath stop tokens
  let ⟨_, afterWord, hword⟩ ← keyword stop .importWord afterPath
  have hafterWord := shorter_trans hpath hword
  match accept (fun token => token.isKeyword .defaultWord) afterWord with
  | some ⟨_, afterDefault, hdefault⟩ =>
    let ⟨name, rest, hrest⟩ ← identifier stop afterDefault
    let statement := Statement.importDecl (segment :: segments) [name] .defaultExport
      (start.through name.span)
    have hafterDefault := shorter_trans hafterWord hdefault
    return ⟨statement, rest, shorter_trans hafterDefault hrest⟩
  | none =>
    let ⟨(name, names), rest, hrest⟩ ←
      identifiersBy stop (fun token => token.isDelimiter ",") afterWord
    let last := names.getLast?.getD name
    let statement := Statement.importDecl (segment :: segments) (name :: names) .namedExports
      (start.through last.span)
    return ⟨statement, rest, shorter_trans hafterWord hrest⟩

/-- The name of a method. -/
def methodName (stop : Span) (tokens : List Token) :
    Except CompileError (Reading MethodName tokens) :=
  match accept (fun token => token.kind = .operator) tokens with
  | some ⟨token, rest, hrest⟩ =>
    match BinaryOperator.ofText? token.text with
    | some .member | none => .error (unexpected stop tokens .identifier none)
    | some op => .ok ⟨.operator op token.span, rest, hrest⟩
  | none => do
    let ⟨name, rest, hrest⟩ ← identifier stop tokens
    return ⟨.identifier name, rest, hrest⟩

/-- The key of an object's field and the colon behind it. -/
def fieldKey (stop : Span) (tokens : List Token) :
    Except CompileError (Reading String tokens) := do
  let ⟨key, afterKey, hkey⟩ ← show Except CompileError (Reading Token tokens) from
    match accept (fun token => token.kind = .string) tokens with
    | some r => .ok r
    | none => ofKind stop .identifier tokens
  let ⟨_, rest, hrest⟩ ← delimiter stop ":" afterKey
  return ⟨key.text, rest, shorter_trans hkey hrest⟩

/-- A `local` statement made of the expression behind the word, which has to be an assignment. -/
def localStatement (start : Span) : Expression → Except CompileError Statement
  | .assign target op value _ _ =>
    let span := start.through value.span
    .ok (.expression (.assign target op value true span) span)
  | other => .error (.parsing .localWithoutAssignment other.span)

mutual

/-- A statement with the guard that may follow it on its last line. -/
def statement (stop : Span) (tokens : List Token) :
    Except CompileError (Reading Statement tokens) := do
  let ⟨inner, afterInner, hinner⟩ ← unguarded stop tokens
  let guards := fun token : Token =>
    token.isKeyword .ifWord && token.span.first.line = inner.span.last.line
  match accept guards afterInner with
  | some ⟨_, afterIf, hif⟩ =>
    let ⟨test, rest, hrest⟩ ← expression stop afterIf
    return ⟨.guarded inner test (inner.span.through test.span), rest, by omega⟩
  | none => return ⟨inner, afterInner, hinner⟩
termination_by (tokens.length, 4)

/-- A statement without its guard. -/
def unguarded (stop : Span) (tokens : List Token) :
    Except CompileError (Reading Statement tokens) :=
  match tokens with
  | [] => expressionStatement stop []
  | token :: tail => do
    match token.keyword? with
    | some .ifWord => return (← condition stop token.span tail).behind token
    | some .forWord => return (← forLoop stop token.span tail).behind token
    | some .whileWord => return (← whileLoop stop token.span tail).behind token
    | some .functionWord => return (← functionDecl stop token.span tail).behind token
    | some .classWord => return (← classDecl stop token.span tail).behind token
    | some .returnWord => return (← returnValue stop token.span tail).behind token
    | some .breakWord => return ⟨.breakLoop token.span, tail, by simp⟩
    | some .continueWord => return ⟨.continueLoop token.span, tail, by simp⟩
    | some .hostWord => return (← hostDecl stop token.span tail).behind token
    | some .localWord => return (← localAssignment stop token.span tail).behind token
    | some .importWord => return (← importModule stop token.span tail).behind token
    | some .fromWord => return (← importExports stop token.span tail).behind token
    | some .exportWord => return (← exportDecl stop token.span tail).behind token
    | _ => expressionStatement stop (token :: tail)
termination_by (tokens.length, 3)

/-- An expression as a statement. -/
def expressionStatement (stop : Span) (tokens : List Token) :
    Except CompileError (Reading Statement tokens) := do
  let ⟨value, rest, hrest⟩ ← expression stop tokens
  return ⟨.expression value value.span, rest, hrest⟩
termination_by (tokens.length, 2)

/-- The statements up to one of the closing words or the end of input, which stay unread. -/
def statements (stop : Span) (words : List Keyword) (tokens : List Token) :
    Except CompileError (Scanning (List Statement) tokens) :=
  match tokens with
  | [] => .ok ⟨[], [], Nat.le_refl _⟩
  | token :: tail =>
    if words.any token.isKeyword then .ok ⟨[], token :: tail, Nat.le_refl _⟩
    else do
      let ⟨first, afterFirst, hfirst⟩ ← statement stop (token :: tail)
      let ⟨more, rest, hrest⟩ ← statements stop words afterFirst
      return ⟨first :: more, rest, by omega⟩
termination_by (tokens.length, 5)

/-- A body between its opening and its closing word. -/
def block (stop : Span) (tokens : List Token) :
    Except CompileError (Reading Block tokens) := do
  let ⟨opening, inside, hinside⟩ ← keyword stop .doWord tokens
  let ⟨body, afterBody, hbody⟩ ← statements stop [.endWord] inside
  let ⟨close, rest, hrest⟩ ← keyword stop .endWord afterBody
  return ⟨.mk body (opening.span.through close.span), rest, by omega⟩
termination_by (tokens.length, 6)

/-- A condition behind its opening word. -/
def condition (stop start : Span) (tokens : List Token) :
    Except CompileError (Reading Statement tokens) := do
  let ⟨test, afterTest, htest⟩ ← expression stop tokens
  let ⟨thenWord, inside, hinside⟩ ← keyword stop .thenWord afterTest
  let ⟨thenBody, afterThen, hthen⟩ ← statements stop [.endWord, .elseWord] inside
  let thenSpan := thenWord.span.through (lastRead thenWord inside afterThen).span
  let thenBranch := Block.mk thenBody thenSpan
  match accept (fun token => token.isKeyword .endWord) afterThen with
  | some ⟨close, rest, hrest⟩ =>
    return ⟨.condition test thenBranch none (start.through close.span), rest, by omega⟩
  | none =>
    let ⟨elseWord, afterElse, helse⟩ ← keyword stop .elseWord afterThen
    match accept (fun token => token.isKeyword .ifWord) afterElse with
    | some ⟨ifWord, afterIf, hif⟩ =>
      let ⟨elseBranch, rest, hrest⟩ ← condition stop ifWord.span afterIf
      let span := start.through elseBranch.span
      return ⟨.condition test thenBranch (some elseBranch) span, rest, by omega⟩
    | none =>
      let ⟨elseBody, afterBody, hbody⟩ ← statements stop [.endWord] afterElse
      let ⟨close, rest, hrest⟩ ← keyword stop .endWord afterBody
      let elseBlock := Block.mk elseBody (elseWord.span.through close.span)
      let span := start.through elseBlock.span
      return ⟨.condition test thenBranch (some (.block elseBlock)) span, rest, by omega⟩
termination_by (tokens.length, 6)

/-- A loop over items, behind its opening word. -/
def forLoop (stop start : Span) (tokens : List Token) :
    Except CompileError (Reading Statement tokens) := do
  let ⟨item, afterItem, hitem⟩ ← identifier stop tokens
  let ⟨_, afterIn, hin⟩ ← keyword stop .inWord afterItem
  let ⟨iterable, afterIterable, hiterable⟩ ← expression stop afterIn
  let ⟨body, rest, hrest⟩ ← block stop afterIterable
  return ⟨.forLoop item iterable body (start.through body.span), rest, by omega⟩
termination_by (tokens.length, 6)

/-- A loop under a test, behind its opening word. -/
def whileLoop (stop start : Span) (tokens : List Token) :
    Except CompileError (Reading Statement tokens) := do
  let ⟨test, afterTest, htest⟩ ← expression stop tokens
  let ⟨body, rest, hrest⟩ ← block stop afterTest
  return ⟨.whileLoop test body (start.through body.span), rest, by omega⟩
termination_by (tokens.length, 6)

/-- A function declaration behind its opening word. Its parameters may be left out. -/
def functionDecl (stop start : Span) (tokens : List Token) :
    Except CompileError (Reading Statement tokens) := do
  let ⟨name, afterName, hname⟩ ← identifier stop tokens
  let ⟨params, afterParams, hparams⟩ ←
    show Except CompileError (Scanning (List Identifier) afterName) from
      if (accept (fun token => token.isDelimiter "(") afterName).isSome then
        (parameters stop afterName).map fun r => ⟨r.value, r.rest, Nat.le_of_lt r.shorter⟩
      else .ok ⟨[], afterName, Nat.le_refl _⟩
  let ⟨body, rest, hrest⟩ ← block stop afterParams
  return ⟨.functionDecl name params body (start.through body.span), rest, by omega⟩
termination_by (tokens.length, 6)

/-- A class declaration behind its opening word. -/
def classDecl (stop start : Span) (tokens : List Token) :
    Except CompileError (Reading Statement tokens) := do
  let ⟨name, afterName, hname⟩ ← identifier stop tokens
  let ⟨_, inside, hinside⟩ ← keyword stop .doWord afterName
  let ⟨parts, afterParts, hparts⟩ ← members stop inside
  let ⟨close, rest, hrest⟩ ← keyword stop .endWord afterParts
  return ⟨.classDecl name parts (start.through close.span), rest, by omega⟩
termination_by (tokens.length, 6)

/-- The members of a class up to its closing word or the end of input. -/
def members (stop : Span) (tokens : List Token) :
    Except CompileError (Scanning (List ClassMember) tokens) :=
  match tokens with
  | [] => .ok ⟨[], [], Nat.le_refl _⟩
  | token :: tail =>
    if token.isKeyword .endWord then .ok ⟨[], token :: tail, Nat.le_refl _⟩
    else do
      let ⟨first, afterFirst, hfirst⟩ ← member stop (token :: tail)
      let ⟨more, rest, hrest⟩ ← members stop afterFirst
      return ⟨first :: more, rest, by omega⟩
termination_by (tokens.length, 7)

/-- A member of a class. An identifier before an equals sign is a field. -/
def member (stop : Span) (tokens : List Token) :
    Except CompileError (Reading ClassMember tokens) :=
  match tokens with
  | token :: sign :: afterSign =>
    if token.kind = .identifier && sign.kind = .equals then do
      let ⟨value, rest, hrest⟩ ← expression stop afterSign
      let name : Identifier := ⟨token.text, token.span⟩
      let span := token.span.through value.span
      return ⟨.field name value span, rest, by simp only [List.length_cons]; omega⟩
    else method stop (token :: sign :: afterSign)
  | other => method stop other
termination_by (tokens.length, 6)

/-- A method of a class. -/
def method (stop : Span) (tokens : List Token) :
    Except CompileError (Reading ClassMember tokens) := do
  let ⟨name, afterName, hname⟩ ← methodName stop tokens
  let ⟨params, afterParams, hparams⟩ ← parameters stop afterName
  let ⟨body, rest, hrest⟩ ← block stop afterParams
  return ⟨.method name params body (name.span.through body.span), rest, by omega⟩
termination_by (tokens.length, 5)

/-- A `return` with the value that may follow it on its line. -/
def returnValue (stop start : Span) (tokens : List Token) :
    Except CompileError (Scanning Statement tokens) := do
  if returnsValue start tokens then
    let ⟨value, rest, hrest⟩ ← expression stop tokens
    return ⟨.returnValue (some value) (start.through value.span), rest, Nat.le_of_lt hrest⟩
  else return ⟨.returnValue none start, tokens, Nat.le_refl _⟩
termination_by (tokens.length, 6)

/-- An assignment marked as local, behind the marking word. -/
def localAssignment (stop start : Span) (tokens : List Token) :
    Except CompileError (Reading Statement tokens) := do
  let ⟨value, rest, hrest⟩ ← expression stop tokens
  return ⟨← localStatement start value, rest, hrest⟩
termination_by (tokens.length, 6)

/-- An exported declaration behind the exporting word. -/
def exportDecl (stop start : Span) (tokens : List Token) :
    Except CompileError (Reading Statement tokens) :=
  match tokens with
  | [] => do
    let ⟨declaration, rest, hrest⟩ ← expressionStatement stop []
    return ⟨.exportDecl declaration (start.through declaration.span), rest, hrest⟩
  | token :: tail => do
    let ⟨declaration, rest, hrest⟩ ←
      match token.keyword? with
      | some .functionWord => (functionDecl stop token.span tail).map (·.behind token)
      | some .classWord => (classDecl stop token.span tail).map (·.behind token)
      | some .localWord => (localAssignment stop token.span tail).map (·.behind token)
      | _ => expressionStatement stop (token :: tail)
    return ⟨.exportDecl declaration (start.through declaration.span), rest, hrest⟩
termination_by (tokens.length, 6)

/-- An expression, which is an assignment if a sign of assignment follows an assignable one. -/
def expression (stop : Span) (tokens : List Token) :
    Except CompileError (Reading Expression tokens) := do
  let ⟨operand, afterOperand, hoperand⟩ ← primary stop tokens
  let ⟨target, afterTarget, htarget⟩ ← climb stop operand 0 afterOperand
  match accept (fun token => token.isAssignment && target.isAssignable) afterTarget with
  | none => return ⟨target, afterTarget, by omega⟩
  | some ⟨sign, afterSign, hsign⟩ =>
    match sign.assignment? with
    | none => .error (.parsing (.unexpectedToken sign.kind .equals none) sign.span)
    | some op =>
      let ⟨value, rest, hrest⟩ ← expression stop afterSign
      let span := target.span.through value.span
      return ⟨.assign target op value false span, rest, by omega⟩
termination_by (tokens.length, 1)

/-- The expression that goes on from `left` for as long as the tokens bind it with at least the
    power `least`. The right operand of a sign takes what binds more tightly than the sign. -/
def climb (stop : Span) (left : Expression) (least : Nat) (tokens : List Token) :
    Except CompileError (Scanning Expression tokens) :=
  match tokens with
  | [] => .ok ⟨left, [], Nat.le_refl _⟩
  | token :: tail =>
    match token.binding? with
    | none => .ok ⟨left, token :: tail, Nat.le_refl _⟩
    | some binding => do
      if binding.power < least then return ⟨left, token :: tail, Nat.le_refl _⟩
      else
        match binding with
        | .call =>
          let ⟨(args, close), afterArgs, hargs⟩ ←
            itemsUntil stop ")" tail.length (fun tokens _ => expression stop tokens) true tail
              (Nat.le_refl _)
          let called := Expression.call left args (left.span.through close.span)
          let ⟨whole, rest, hrest⟩ ← climb stop called least afterArgs
          return ⟨whole, rest, by simp only [List.length_cons]; omega⟩
        | .binary op =>
          let inParentheses := (accept (fun token => token.isDelimiter "(") tail).isSome
          let ⟨operand, afterOperand, hoperand⟩ ← primary stop tail
          let ⟨right, afterRight, hright⟩ ← climb stop operand (op.power + 1) afterOperand
          let ⟨whole, rest, hrest⟩ ←
            climb stop (left.join op right inParentheses) least afterRight
          return ⟨whole, rest, by simp only [List.length_cons]; omega⟩
termination_by (tokens.length, 0)

/-- An operand: a literal, a name, a sign before an operand, a lambda, a construction, or an
    expression in parentheses. -/
def primary (stop : Span) (tokens : List Token) :
    Except CompileError (Reading Expression tokens) :=
  match tokens with
  | [] => .error (missingExpression stop [])
  | token :: tail => do
    match token.kind with
    | .string => return ⟨.string token.text token.span, tail, by simp⟩
    | .number => return ⟨.number token.text token.span, tail, by simp⟩
    | .identifier => return ⟨.name token.text token.span, tail, by simp⟩
    | .operator =>
      match UnaryOperator.ofText? token.text with
      | none => .error (missingExpression stop (token :: tail))
      | some op =>
        let ⟨inner, afterInner, hinner⟩ ← primary stop tail
        let ⟨operand, rest, hrest⟩ ← climb stop inner callPower afterInner
        let span := token.span.through operand.span
        return ⟨.unary op operand span, rest, by simp only [List.length_cons]; omega⟩
    | .delimiter =>
      if token.text = "(" then
        let ⟨inner, afterInner, hinner⟩ ← expression stop tail
        let ⟨_, rest, hrest⟩ ← delimiter stop ")" afterInner
        return ⟨inner, rest, by simp only [List.length_cons]; omega⟩
      else if token.text = "[" then
        let ⟨(items, close), rest, hrest⟩ ←
          itemsUntil stop "]" tail.length (fun tokens _ => expression stop tokens) true tail
            (Nat.le_refl _)
        let span := token.span.through close.span
        return ⟨.array items span, rest, by simp only [List.length_cons]; omega⟩
      else if token.text = "\x7b" then
        let ⟨(entries, close), rest, hrest⟩ ←
          itemsUntil stop "\x7d" tail.length (fun tokens _ => entry stop tokens) true tail
            (Nat.le_refl _)
        let fields := entries.foldl (fun fields entry => Field.put fields entry.1 entry.2) []
        let span := token.span.through close.span
        return ⟨.object fields span, rest, by simp only [List.length_cons]; omega⟩
      else .error (missingExpression stop (token :: tail))
    | .keyword =>
      if token.isKeyword .withWord then
        let ⟨params, afterParams, hparams⟩ ← lambdaParameters stop tail
        let ⟨body, rest, hrest⟩ ← block stop afterParams
        let span := token.span.through body.span
        return ⟨.lambda params body span, rest, by simp only [List.length_cons]; omega⟩
      else if token.isKeyword .doWord then
        let ⟨body, afterBody, hbody⟩ ← statements stop [.endWord] tail
        let ⟨close, rest, hrest⟩ ← keyword stop .endWord afterBody
        let span := token.span.through close.span
        return ⟨.lambda [] (.mk body span) span, rest, by simp only [List.length_cons]; omega⟩
      else if token.isKeyword .newWord then
        let ⟨owner, afterOwner, howner⟩ ← primary stop tail
        let ⟨callee, afterCallee, hcallee⟩ ← constructed stop owner afterOwner
        let ⟨_, inside, hinside⟩ ← delimiter stop "(" afterCallee
        let ⟨(args, close), rest, hrest⟩ ←
          itemsUntil stop ")" inside.length (fun tokens _ => expression stop tokens) true inside
            (Nat.le_refl _)
        let span := token.span.through close.span
        return ⟨.construct callee args span, rest, by simp only [List.length_cons]; omega⟩
      else .error (missingExpression stop (token :: tail))
    | _ => .error (missingExpression stop (token :: tail))
termination_by (tokens.length, 0)

/-- A field of an object. -/
def entry (stop : Span) (tokens : List Token) :
    Except CompileError (Reading (String × Expression) tokens) := do
  let ⟨key, afterKey, hkey⟩ ← fieldKey stop tokens
  let ⟨value, rest, hrest⟩ ← expression stop afterKey
  return ⟨(key, value), rest, by omega⟩
termination_by (tokens.length, 2)

/-- What is constructed: `owner` with the members behind it that points join to it. -/
def constructed (stop : Span) (owner : Expression) (tokens : List Token) :
    Except CompileError (Scanning Expression tokens) := do
  match accept (fun token => token.isOperator ".") tokens with
  | none => return ⟨owner, tokens, Nat.le_refl _⟩
  | some ⟨_, afterPoint, hpoint⟩ =>
    let inParentheses := (accept (fun token => token.isDelimiter "(") afterPoint).isSome
    let ⟨key, afterKey, hkey⟩ ← primary stop afterPoint
    let ⟨callee, rest, hrest⟩ ← constructed stop (owner.join .member key inParentheses) afterKey
    return ⟨callee, rest, by omega⟩
termination_by (tokens.length, 2)

end

end Parser

end KaLang
