import KaLang.Syntax.Program

/-!
The grammar as a relation between the tokens ahead, what is read off them and the tokens left
(`Reads`). It is one relation for all readers, told apart by the phrase that is read, so that a fact
about everything that is ever read is proved by one induction over the rules.
-/

namespace KaLang

/-- What is read in one go. A statement comes with its guard, a bare one without; `behind` is a
    statement behind its opening word, and `onwards` what an expression goes on to. -/
inductive Phrase where
  | statement (value : Statement)
  | bare (value : Statement)
  | behind (word : Keyword) (start : Span) (value : Statement)
  | sequence (words : List Keyword) (body : List Statement)
  | block (body : Block)
  | members (parts : List ClassMember)
  | member (part : ClassMember)
  | expression (value : Expression)
  | onwards (left : Expression) (least : Nat) (whole : Expression)
  | primary (value : Expression)
  | items (close : String) (isFirst : Bool) (items : List Expression) (last : Token)
  | entries (isFirst : Bool) (entries : List (String × Expression)) (last : Token)
  | constructed (owner callee : Expression)

/-- Whether a token begins the guard of a statement: only a word on the line on which it ends. -/
def Token.guards (token : Token) (inner : Statement) : Bool :=
  token.isKeyword .ifWord && token.span.first.line = inner.span.last.line

/-- Whether a phrase is read off the tokens ahead, with some tokens left. What a name, a module or a
    list of parameters is, is told by its reader. -/
inductive Reads (stop : Span) : Phrase → List Token → List Token → Prop where
  /- Statements. -/
  | unguarded {value : Statement} {tokens rest : List Token}
      (hvalue : Reads stop (.bare value) tokens rest)
      (hend : Reading.accept (fun token => token.guards value) rest = none) :
      Reads stop (.statement value) tokens rest
  | guarded {inner : Statement} {test : Expression} {word : Token} {tokens tail rest : List Token}
      (hinner : Reads stop (.bare inner) tokens (word :: tail)) (hword : word.guards inner = true)
      (htest : Reads stop (.expression test) tail rest) :
      Reads stop (.statement (.guarded inner test (inner.span.through test.span))) tokens rest
  | opened {word : Keyword} {token : Token} {value : Statement} {tail rest : List Token}
      (hword : token.keyword? = some word)
      (hvalue : Reads stop (.behind word token.span value) tail rest) :
      Reads stop (.bare value) (token :: tail) rest
  | plain {value : Expression} {tokens rest : List Token}
      (hvalue : Reads stop (.expression value) tokens rest) :
      Reads stop (.bare (.expression value value.span)) tokens rest
  | none {words : List Keyword} {tokens : List Token}
      (hend : ∀ token ∈ tokens.head?, words.any token.isKeyword = true) :
      Reads stop (.sequence words []) tokens tokens
  | more {words : List Keyword} {first : Statement} {more : List Statement}
      {tokens middle rest : List Token} (hfirst : Reads stop (.statement first) tokens middle)
      (hmore : Reads stop (.sequence words more) middle rest) :
      Reads stop (.sequence words (first :: more)) tokens rest
  | block {body : List Statement} {opening close : Token} {inside rest : List Token}
      (hopening : opening.isKeyword .doWord = true)
      (hbody : Reads stop (.sequence [.endWord] body) inside (close :: rest))
      (hclose : close.isKeyword .endWord = true) :
      Reads stop (.block (.mk body (opening.span.through close.span))) (opening :: inside) rest
  /- Statements behind their opening word. -/
  | conditionAlone {start : Span} {test : Expression} {thenBody : List Statement}
      {thenWord close : Token} {tokens inside rest : List Token}
      (htest : Reads stop (.expression test) tokens (thenWord :: inside))
      (hword : thenWord.isKeyword .thenWord = true)
      (hthen : Reads stop (.sequence [.endWord, .elseWord] thenBody) inside (close :: rest))
      (hclose : close.isKeyword .endWord = true) (thenSpan : Span)
      (hspan : thenSpan =
        thenWord.span.through (Reading.lastRead thenWord inside (close :: rest)).span) :
      Reads stop (.behind .ifWord start
        (.condition test (.mk thenBody thenSpan) .none (start.through close.span))) tokens rest
  | conditionChain {start : Span} {test : Expression} {thenBody : List Statement}
      {branch : Statement} {thenWord elseWord ifWord : Token} {tokens inside tail rest : List Token}
      (htest : Reads stop (.expression test) tokens (thenWord :: inside))
      (hword : thenWord.isKeyword .thenWord = true)
      (hthen : Reads stop (.sequence [.endWord, .elseWord] thenBody) inside
        (elseWord :: ifWord :: tail))
      (helse : elseWord.isKeyword .elseWord = true) (hif : ifWord.isKeyword .ifWord = true)
      (hbranch : Reads stop (.behind .ifWord ifWord.span branch) tail rest) (thenSpan : Span)
      (hspan : thenSpan = thenWord.span.through
        (Reading.lastRead thenWord inside (elseWord :: ifWord :: tail)).span) :
      Reads stop (.behind .ifWord start
        (.condition test (.mk thenBody thenSpan) (some branch) (start.through branch.span)))
        tokens rest
  | conditionElse {start : Span} {test : Expression} {thenBody elseBody : List Statement}
      {thenWord elseWord close : Token} {tokens inside tail rest : List Token}
      (htest : Reads stop (.expression test) tokens (thenWord :: inside))
      (hword : thenWord.isKeyword .thenWord = true)
      (hthen : Reads stop (.sequence [.endWord, .elseWord] thenBody) inside (elseWord :: tail))
      (helse : elseWord.isKeyword .elseWord = true)
      (hif : Reading.accept (fun token => token.isKeyword .ifWord) tail = .none)
      (hbody : Reads stop (.sequence [.endWord] elseBody) tail (close :: rest))
      (hclose : close.isKeyword .endWord = true) (thenSpan : Span)
      (hspan : thenSpan =
        thenWord.span.through (Reading.lastRead thenWord inside (elseWord :: tail)).span)
      (elseBlock : Block) (hblock : elseBlock = .mk elseBody (elseWord.span.through close.span)) :
      Reads stop (.behind .ifWord start
        (.condition test (.mk thenBody thenSpan) (some (.block elseBlock))
          (start.through elseBlock.span))) tokens rest
  | forLoop {start : Span} {name inWord : Token} {iterable : Expression} {body : Block}
      {tail middle rest : List Token} (hname : name.kind = .identifier)
      (hin : inWord.isKeyword .inWord = true)
      (hiterable : Reads stop (.expression iterable) tail middle)
      (hbody : Reads stop (.block body) middle rest) :
      Reads stop (.behind .forWord start
        (.forLoop ⟨name.text, name.span⟩ iterable body (start.through body.span)))
        (name :: inWord :: tail) rest
  | whileLoop {start : Span} {test : Expression} {body : Block} {tokens middle rest : List Token}
      (htest : Reads stop (.expression test) tokens middle)
      (hbody : Reads stop (.block body) middle rest) :
      Reads stop (.behind .whileWord start (.whileLoop test body (start.through body.span)))
        tokens rest
  | functionDecl {start : Span} {name : Token} {body : Block} {tail rest : List Token}
      (hname : name.kind = .identifier)
      (hopening : Reading.accept (fun token => token.isDelimiter "(") tail = .none)
      (hbody : Reads stop (.block body) tail rest) :
      Reads stop (.behind .functionWord start
        (.functionDecl ⟨name.text, name.span⟩ [] body (start.through body.span)))
        (name :: tail) rest
  | functionWith {start : Span} {name : Token} {body : Block} {tail rest : List Token}
      {params : Reading (List Identifier) tail} (hname : name.kind = .identifier)
      (hparams : Reading.parameters stop tail = .ok params)
      (hbody : Reads stop (.block body) params.rest rest) :
      Reads stop (.behind .functionWord start
        (.functionDecl ⟨name.text, name.span⟩ params.value body (start.through body.span)))
        (name :: tail) rest
  | classDecl {start : Span} {name opening close : Token} {parts : List ClassMember}
      {inside rest : List Token} (hname : name.kind = .identifier)
      (hopening : opening.isKeyword .doWord = true)
      (hparts : Reads stop (.members parts) inside (close :: rest))
      (hclose : close.isKeyword .endWord = true) :
      Reads stop (.behind .classWord start
        (.classDecl ⟨name.text, name.span⟩ parts (start.through close.span)))
        (name :: opening :: inside) rest
  | returnNothing {start : Span} {tokens : List Token} (hend : returnsValue start tokens = false) :
      Reads stop (.behind .returnWord start (.returnValue .none start)) tokens tokens
  | returnValue {start : Span} {value : Expression} {tokens rest : List Token}
      (hmore : returnsValue start tokens = true)
      (hvalue : Reads stop (.expression value) tokens rest) :
      Reads stop (.behind .returnWord start
        (.returnValue (some value) (start.through value.span))) tokens rest
  | breakLoop {start : Span} {tokens : List Token} :
      Reads stop (.behind .breakWord start (.breakLoop start)) tokens tokens
  | continueLoop {start : Span} {tokens : List Token} :
      Reads stop (.behind .continueWord start (.continueLoop start)) tokens tokens
  | hostDecl {start : Span} {tokens : List Token} {reading : Reading Statement tokens}
      (hreading : Parser.hostDecl stop start tokens = .ok reading) :
      Reads stop (.behind .hostWord start reading.value) tokens reading.rest
  | importModule {start : Span} {tokens : List Token} {reading : Reading Statement tokens}
      (hreading : Parser.importModule stop start tokens = .ok reading) :
      Reads stop (.behind .importWord start reading.value) tokens reading.rest
  | importExports {start : Span} {tokens : List Token} {reading : Reading Statement tokens}
      (hreading : Parser.importExports stop start tokens = .ok reading) :
      Reads stop (.behind .fromWord start reading.value) tokens reading.rest
  | localAssignment {start span : Span} {target value : Expression} {op : AssignmentOperator}
      {isLocal : Bool} {tokens rest : List Token}
      (hvalue : Reads stop (.expression (.assign target op value isLocal span)) tokens rest) :
      Reads stop (.behind .localWord start
        (.expression (.assign target op value true (start.through value.span))
          (start.through value.span))) tokens rest
  | exportOpened {start : Span} {word : Keyword} {token : Token} {declaration : Statement}
      {tail rest : List Token} (hword : token.keyword? = some word)
      (hkind : word ∈ [Keyword.functionWord, .classWord, .localWord])
      (hdeclaration : Reads stop (.behind word token.span declaration) tail rest) :
      Reads stop (.behind .exportWord start
        (.exportDecl declaration (start.through declaration.span))) (token :: tail) rest
  | exportPlain {start : Span} {value : Expression} {tokens rest : List Token}
      (hvalue : Reads stop (.expression value) tokens rest) :
      Reads stop (.behind .exportWord start
        (.exportDecl (.expression value value.span) (start.through value.span))) tokens rest
  /- Classes. -/
  | noMember {tokens : List Token}
      (hend : ∀ token ∈ tokens.head?, token.isKeyword .endWord = true) :
      Reads stop (.members []) tokens tokens
  | moreMembers {first : ClassMember} {more : List ClassMember} {tokens middle rest : List Token}
      (hfirst : Reads stop (.member first) tokens middle)
      (hmore : Reads stop (.members more) middle rest) :
      Reads stop (.members (first :: more)) tokens rest
  | field {name sign : Token} {value : Expression} {tail rest : List Token}
      (hname : name.kind = .identifier) (hsign : sign.kind = .equals)
      (hvalue : Reads stop (.expression value) tail rest) :
      Reads stop
        (.member (.field ⟨name.text, name.span⟩ value (name.span.through value.span)))
        (name :: sign :: tail) rest
  | method {tokens : List Token} {name : Reading MethodName tokens}
      {params : Reading (List Identifier) name.rest} {body : Block} {rest : List Token}
      (hname : Parser.methodName stop tokens = .ok name)
      (hparams : Reading.parameters stop name.rest = .ok params)
      (hbody : Reads stop (.block body) params.rest rest) :
      Reads stop (.member
        (.method name.value params.value body (name.value.span.through body.span))) tokens rest
  /- Expressions. -/
  | operand {first whole : Expression} {tokens middle rest : List Token}
      (hfirst : Reads stop (.primary first) tokens middle)
      (hwhole : Reads stop (.onwards first 0 whole) middle rest)
      (hend : Reading.accept (fun token => token.isAssignment && whole.isAssignable) rest = .none) :
      Reads stop (.expression whole) tokens rest
  | assignment {first target value : Expression} {op : AssignmentOperator} {sign : Token}
      {tokens middle tail rest : List Token}
      (hfirst : Reads stop (.primary first) tokens middle)
      (htarget : Reads stop (.onwards first 0 target) middle (sign :: tail))
      (hsign : sign.isAssignment = true) (hassignable : target.isAssignable = true)
      (hop : sign.assignment? = some op) (hvalue : Reads stop (.expression value) tail rest) :
      Reads stop (.expression (.assign target op value false (target.span.through value.span)))
        tokens rest
  | enough {left : Expression} {least : Nat} {tokens : List Token}
      (hend : ∀ token ∈ tokens.head?, ∀ binding ∈ token.binding?, binding.power < least) :
      Reads stop (.onwards left least left) tokens tokens
  | call {left whole : Expression} {least : Nat} {token close : Token} {args : List Expression}
      {tail middle rest : List Token} (hbinding : token.binding? = some .call)
      (hleast : least ≤ callPower) (hargs : Reads stop (.items ")" true args close) tail middle)
      (hwhole : Reads stop
        (.onwards (.call left args (left.span.through close.span)) least whole) middle rest) :
      Reads stop (.onwards left least whole) (token :: tail) rest
  | binary {left operand right whole : Expression} {op : BinaryOperator} {least : Nat}
      {token : Token} {tail afterOperand middle rest : List Token}
      (hbinding : token.binding? = some (.binary op)) (hleast : least ≤ op.power)
      (hoperand : Reads stop (.primary operand) tail afterOperand)
      (hright : Reads stop (.onwards operand (op.power + 1) right) afterOperand middle)
      (hwhole : Reads stop (.onwards
        (left.join op right (Reading.accept (fun token => token.isDelimiter "(") tail).isSome)
        least whole) middle rest) :
      Reads stop (.onwards left least whole) (token :: tail) rest
  | string {token : Token} {tail : List Token} (hkind : token.kind = .string) :
      Reads stop (.primary (.string token.text token.span)) (token :: tail) tail
  | number {token : Token} {tail : List Token} (hkind : token.kind = .number) :
      Reads stop (.primary (.number token.text token.span)) (token :: tail) tail
  | name {token : Token} {tail : List Token} (hkind : token.kind = .identifier) :
      Reads stop (.primary (.name token.text token.span)) (token :: tail) tail
  | unary {token : Token} {op : UnaryOperator} {inner operand : Expression}
      {tail middle rest : List Token} (hkind : token.kind = .operator)
      (hop : UnaryOperator.ofText? token.text = some op)
      (hinner : Reads stop (.primary inner) tail middle)
      (hoperand : Reads stop (.onwards inner callPower operand) middle rest) :
      Reads stop (.primary (.unary op operand (token.span.through operand.span)))
        (token :: tail) rest
  | parentheses {opening close : Token} {inner : Expression} {tail rest : List Token}
      (hopening : opening.isDelimiter "(" = true)
      (hinner : Reads stop (.expression inner) tail (close :: rest))
      (hclose : close.isDelimiter ")" = true) :
      Reads stop (.primary inner) (opening :: tail) rest
  | array {opening close : Token} {items : List Expression} {tail rest : List Token}
      (hopening : opening.isDelimiter "[" = true)
      (hitems : Reads stop (.items "]" true items close) tail rest) :
      Reads stop (.primary (.array items (opening.span.through close.span)))
        (opening :: tail) rest
  | object {opening close : Token} {entries : List (String × Expression)} {tail rest : List Token}
      (hopening : opening.isDelimiter "\x7b" = true)
      (hentries : Reads stop (.entries true entries close) tail rest) :
      Reads stop
        (.primary (.object (entries.foldl (fun fields entry => Field.put fields entry.1 entry.2) [])
          (opening.span.through close.span))) (opening :: tail) rest
  | lambda {word : Token} {tail rest : List Token} {params : Reading (List Identifier) tail}
      {body : Block} (hword : word.isKeyword .withWord = true)
      (hparams : Reading.lambdaParameters stop tail = .ok params)
      (hbody : Reads stop (.block body) params.rest rest) :
      Reads stop (.primary (.lambda params.value body (word.span.through body.span)))
        (word :: tail) rest
  | lambdaAlone {body : Block} {tokens rest : List Token}
      (hbody : Reads stop (.block body) tokens rest) :
      Reads stop (.primary (.lambda [] body body.span)) tokens rest
  | construct {word opening close : Token} {owner callee : Expression} {args : List Expression}
      {tail middle inside rest : List Token} (hword : word.isKeyword .newWord = true)
      (howner : Reads stop (.primary owner) tail middle)
      (hcallee : Reads stop (.constructed owner callee) middle (opening :: inside))
      (hopening : opening.isDelimiter "(" = true)
      (hargs : Reads stop (.items ")" true args close) inside rest) :
      Reads stop (.primary (.construct callee args (word.span.through close.span)))
        (word :: tail) rest
  | owner {owner : Expression} {tokens : List Token}
      (hend : Reading.accept (fun token => token.isOperator ".") tokens = .none) :
      Reads stop (.constructed owner owner) tokens tokens
  | joined {owner key callee : Expression} {point : Token} {tail middle rest : List Token}
      (hpoint : point.isOperator "." = true) (hkey : Reads stop (.primary key) tail middle)
      (hcallee : Reads stop (.constructed
        (owner.join .member key (Reading.accept (fun token => token.isDelimiter "(") tail).isSome)
        callee) middle rest) :
      Reads stop (.constructed owner callee) (point :: tail) rest
  /- Lists between delimiters. -/
  | lastItem {close : String} {isFirst : Bool} {token : Token} {tail : List Token}
      (hclose : token.isDelimiter close = true) :
      Reads stop (.items close isFirst [] token) (token :: tail) tail
  | firstItem {close : String} {first : Expression} {more : List Expression} {last : Token}
      {tokens middle rest : List Token} (hfirst : Reads stop (.expression first) tokens middle)
      (hmore : Reads stop (.items close false more last) middle rest) :
      Reads stop (.items close true (first :: more) last) tokens rest
  | nextItem {close : String} {first : Expression} {more : List Expression} {comma last : Token}
      {tail middle rest : List Token} (hcomma : comma.isDelimiter "," = true)
      (hfirst : Reads stop (.expression first) tail middle)
      (hmore : Reads stop (.items close false more last) middle rest) :
      Reads stop (.items close false (first :: more) last) (comma :: tail) rest
  | lastEntry {isFirst : Bool} {token : Token} {tail : List Token}
      (hclose : token.isDelimiter "\x7d" = true) :
      Reads stop (.entries isFirst [] token) (token :: tail) tail
  | firstEntry {value : Expression} {more : List (String × Expression)} {last : Token}
      {tokens middle rest : List Token} {key : Reading String tokens}
      (hkey : Parser.fieldKey stop tokens = .ok key)
      (hvalue : Reads stop (.expression value) key.rest middle)
      (hmore : Reads stop (.entries false more last) middle rest) :
      Reads stop (.entries true ((key.value, value) :: more) last) tokens rest
  | nextEntry {value : Expression} {more : List (String × Expression)} {comma last : Token}
      {tail middle rest : List Token} {key : Reading String tail}
      (hcomma : comma.isDelimiter "," = true) (hkey : Parser.fieldKey stop tail = .ok key)
      (hvalue : Reads stop (.expression value) key.rest middle)
      (hmore : Reads stop (.entries false more last) middle rest) :
      Reads stop (.entries false ((key.value, value) :: more) last) (comma :: tail) rest

end KaLang
