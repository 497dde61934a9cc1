import KaLang.Proofs.Syntax.Sound

/-!
The parser reads all of the grammar: whatever is derived by the rules of `Reads` is what the parser
gives back. With `soundBelow` this makes the relation and the readers say the same, so that what is
written down in some way can be shown to be read by deriving it.
-/

namespace KaLang

theorem Keyword.ofText?_eq_some_iff {text : String} {word : Keyword} :
    ofText? text = some word ↔ text = word.text := by
  constructor
  · intro hfound
    simpa [eq_comm] using List.find?_some hfound
  · rintro rfl
    cases word <;> rfl

namespace Token

variable {token : Token} {word : Keyword} {text : String}

theorem isKeyword_iff : token.isKeyword word = true ↔ token.keyword? = some word := by
  unfold isKeyword keyword?
  by_cases hkind : token.kind = .keyword
  · simp [hkind, Keyword.ofText?_eq_some_iff]
  · simp [hkind]

theorem spec_of_isKeyword (htoken : token.isKeyword word = true) :
    token.kind = .keyword ∧ token.text = word.text := by
  simpa [isKeyword] using htoken

theorem spec_of_isDelimiter (htoken : token.isDelimiter text = true) :
    token.kind = .delimiter ∧ token.text = text := by
  simpa [isDelimiter] using htoken

theorem isKeyword_of_ne (htoken : token.isKeyword word = true) {other : Keyword}
    (hother : word ≠ other) : token.isKeyword other = false := by
  refine Bool.eq_false_iff.mpr fun hword => hother ?_
  rw [isKeyword_iff] at htoken hword
  exact Option.some.inj (htoken.symm.trans hword)

theorem isDelimiter_of_ne (htoken : token.isDelimiter text = true) {other : String}
    (hother : text ≠ other) : token.isDelimiter other = false := by
  obtain ⟨hkind, rfl⟩ := spec_of_isDelimiter htoken
  simp [isDelimiter, hkind, hother]

/-- Whether an expression may start with the token. -/
def startsExpression (token : Token) : Bool :=
  match token.kind with
  | .string | .number | .identifier | .operator => true
  | .delimiter => token.text ∈ ["(", "[", "\x7b"]
  | .keyword => token.keyword? ∈ [some .withWord, some .doWord, some .newWord]
  | _ => false

/-- The words that open a statement. -/
def openingWords : List Keyword :=
  [.ifWord, .forWord, .whileWord, .functionWord, .classWord, .returnWord, .breakWord,
    .continueWord, .hostWord, .localWord, .importWord, .fromWord, .exportWord]

theorem startsExpression_of_isDelimiter (htoken : token.isDelimiter text = true)
    (htext : text ∈ ["(", "[", "\x7b"]) : token.startsExpression = true := by
  obtain ⟨hkind, rfl⟩ := spec_of_isDelimiter htoken
  simpa [startsExpression, hkind] using htext

theorem startsExpression_of_isKeyword (htoken : token.isKeyword word = true)
    (hword : word ∈ [Keyword.withWord, .doWord, .newWord]) : token.startsExpression = true := by
  obtain ⟨hkind, -⟩ := spec_of_isKeyword htoken
  rw [isKeyword_iff] at htoken
  simpa [startsExpression, hkind, htoken] using hword

/-- A token that starts an expression is no reserved word but those that do. -/
theorem keyword?_of_startsExpression (htoken : token.startsExpression = true)
    (hword : token.keyword? = some word) : word ∈ [Keyword.withWord, .doWord, .newWord] := by
  obtain ⟨hkind, -⟩ := spec_of_isKeyword (isKeyword_iff.mpr hword)
  simpa [startsExpression, hkind, hword] using htoken

theorem isDelimiter_of_startsExpression (htoken : token.startsExpression = true)
    (htext : text ∉ ["(", "[", "\x7b"]) : token.isDelimiter text = false := by
  refine Bool.eq_false_iff.mpr fun hdelimiter => htext ?_
  obtain ⟨hkind, rfl⟩ := spec_of_isDelimiter hdelimiter
  simpa [startsExpression, hkind] using htoken

end Token

/-! ### How a phrase starts -/

/-- What the first token of a phrase is like. -/
def Phrase.StartsWith (token : Token) : Phrase → Prop
  | .statement _ | .bare _ =>
    token.startsExpression = true ∨ ∃ word ∈ Token.openingWords, token.keyword? = some word
  | .expression _ | .primary _ => token.startsExpression = true
  | .block _ => token.isKeyword .doWord = true
  | .member _ => token.kind = .identifier ∨ token.kind = .operator
  | _ => True

theorem Parser.methodName_start {stop : Span} {tokens : List Token}
    {name : Reading MethodName tokens} (hname : methodName stop tokens = .ok name) :
    ∃ token ∈ tokens.head?, token.kind = .identifier ∨ token.kind = .operator := by
  unfold methodName at hname
  split at hname
  · next token rest _ haccept =>
    obtain ⟨rfl, hkind⟩ := Reading.eq_cons_of_accept haccept
    exact ⟨token, rfl, .inr (by simpa using hkind)⟩
  · obtain ⟨⟨_, _, _⟩, hidentifier, _⟩ := Except.bind_eq_ok_iff.mp hname
    obtain ⟨token, rfl, hkind, _⟩ := Reading.eq_cons_of_identifier hidentifier
    exact ⟨token, rfl, .inl hkind⟩

/-- The words behind which the grammar goes on with a statement are those that open one. -/
theorem Reads.mem_openingWords {stop start : Span} {word : Keyword} {value : Statement}
    {tokens rest : List Token} (hreads : Reads stop (.behind word start value) tokens rest) :
    word ∈ Token.openingWords := by
  cases hreads <;> decide

/-- Whether a phrase takes a token whatever it is. -/
def Phrase.isProper : Phrase → Bool
  | .statement _ | .bare _ | .expression _ | .primary _ | .block _ | .member _ => true
  | _ => false

/-- A phrase that takes a token starts like its first part. -/
theorem Reads.exists_startsWith {stop : Span} {phrase : Phrase} {tokens rest : List Token}
    (hreads : Reads stop phrase tokens rest) (hproper : phrase.isProper = true) :
    ∃ token ∈ tokens.head?, phrase.StartsWith token := by
  induction hreads with
  | unguarded _ _ ih | guarded _ _ _ ih _ | operand _ _ _ ih | assignment _ _ _ _ _ _ ih =>
    exact ih rfl
  | opened hword hvalue => exact ⟨_, rfl, .inr ⟨_, hvalue.mem_openingWords, hword⟩⟩
  | plain _ ih =>
    obtain ⟨token, htoken, hstart⟩ := ih rfl
    exact ⟨token, htoken, .inl hstart⟩
  | block _ hopening => exact ⟨_, rfl, by assumption⟩
  | field hname => exact ⟨_, rfl, .inl hname⟩
  | method hname => exact Parser.methodName_start hname
  | string hkind | number hkind | name hkind | unary hkind =>
    exact ⟨_, rfl, by simp [Phrase.StartsWith, Token.startsExpression, hkind]⟩
  | parentheses hopening | array hopening | object hopening =>
    exact ⟨_, rfl, Token.startsExpression_of_isDelimiter hopening (by simp)⟩
  | lambda hword | construct hword =>
    exact ⟨_, rfl, Token.startsExpression_of_isKeyword hword (by simp)⟩
  | lambdaAlone _ ih =>
    obtain ⟨token, htoken, hword⟩ := ih rfl
    exact ⟨token, htoken, Token.startsExpression_of_isKeyword hword (by simp)⟩
  | _ => cases hproper

theorem Reads.startsWith {stop : Span} {phrase : Phrase} {tokens rest : List Token}
    (hreads : Reads stop phrase tokens rest) (hproper : phrase.isProper = true) :
    ∀ token ∈ tokens.head?, phrase.StartsWith token := by
  obtain ⟨token, htoken, hstart⟩ := hreads.exists_startsWith hproper
  intro other hother
  obtain rfl := Option.some.inj (htoken.symm.trans hother)
  exact hstart

/-! ### Reading off a list that starts as it should -/

/-- Whether a reader that may fail takes a value and leaves the tokens `rest`. -/
def Reading.Gives {α : Type} {tokens : List Token}
    (result : Except CompileError (Reading α tokens)) (value : α) (rest : List Token) : Prop :=
  ∃ hrest, result = .ok ⟨value, rest, hrest⟩

/-- Whether a reader that may fail takes a value, perhaps off no token. -/
def Scanning.Gives {α : Type} {tokens : List Token}
    (result : Except CompileError (Scanning α tokens)) (value : α) (rest : List Token) : Prop :=
  ∃ hrest, result = .ok ⟨value, rest, hrest⟩

namespace Reading

variable {stop : Span} {tokens rest : List Token} {token : Token} {test : Token → Bool}

theorem accept_cons (htest : test token = true) :
    accept test (token :: rest) = some ⟨token, rest, Nat.lt_succ_self _⟩ := by
  simp [accept, htest]

theorem accept_eq_none (htest : ∀ token ∈ tokens.head?, test token = false) :
    accept test tokens = none := by
  cases tokens with
  | nil => rfl
  | cons token tail => simp [accept, htest token rfl]

theorem keyword_cons {word : Keyword} (htest : token.isKeyword word = true) :
    keyword stop word (token :: rest) = .ok ⟨token, rest, Nat.lt_succ_self _⟩ := by
  simp [keyword, accept, htest]

theorem delimiter_cons {text : String} (htest : token.isDelimiter text = true) :
    delimiter stop text (token :: rest) = .ok ⟨token, rest, Nat.lt_succ_self _⟩ := by
  simp [delimiter, accept, htest]

theorem identifier_cons (hkind : token.kind = .identifier) :
    identifier stop (token :: rest) = .ok ⟨⟨token.text, token.span⟩, rest, Nat.lt_succ_self _⟩ := by
  simp [identifier, ofKind, accept, hkind, bind, Except.bind, pure, Except.pure]

section Items

variable {α : Type} {close : String} {bound : Nat}
  {item : (tokens : List Token) → tokens.length ≤ bound → Except CompileError (Reading α tokens)}
  {first : α} {more : List α} {last : Token} {middle : List Token}

theorem gives_lastItem (isFirst : Bool) (hbound : (token :: rest).length ≤ bound)
    (hclose : token.isDelimiter close = true) :
    Gives (itemsUntil stop close bound item isFirst (token :: rest) hbound) ([], token) rest := by
  refine ⟨by simp, ?_⟩
  rw [itemsUntil, accept_cons hclose]
  rfl

theorem gives_firstItem {hbound : tokens.length ≤ bound}
    (hclose : ∀ token ∈ tokens.head?, token.isDelimiter close = false)
    (hfirst : Gives (item tokens hbound) first middle)
    (hmore : ∀ hmiddle,
      Gives (itemsUntil stop close bound item false middle hmiddle) (more, last) rest) :
    Gives (itemsUntil stop close bound item true tokens hbound) (first :: more, last) rest := by
  obtain ⟨hmiddle, hfirst⟩ := hfirst
  obtain ⟨hrest, hmore⟩ := hmore (by omega)
  refine ⟨by omega, ?_⟩
  rw [itemsUntil, accept_eq_none hclose]
  simp only [↓reduceIte, bind, Except.bind, hfirst, hmore]
  rfl

theorem gives_nextItem {comma : Token} {tail : List Token} {hbound : (comma :: tail).length ≤ bound}
    (hclose : close ≠ ",") (hcomma : comma.isDelimiter "," = true)
    (hfirst : ∀ htail, Gives (item tail htail) first middle)
    (hmore : ∀ hmiddle,
      Gives (itemsUntil stop close bound item false middle hmiddle) (more, last) rest) :
    Gives (itemsUntil stop close bound item false (comma :: tail) hbound)
      (first :: more, last) rest := by
  rw [List.length_cons] at hbound
  obtain ⟨hmiddle, hfirst⟩ := hfirst (by omega)
  obtain ⟨hrest, hmore⟩ := hmore (by omega)
  have hother : comma.isDelimiter close = false := Token.isDelimiter_of_ne hcomma hclose.symm
  refine ⟨by rw [List.length_cons]; omega, ?_⟩
  rw [itemsUntil, accept_eq_none (by simpa using hother)]
  simp only [Bool.false_eq_true, ↓reduceIte, delimiter_cons hcomma, Except.map, bind, Except.bind,
    hfirst, hmore]
  rfl

end Items

end Reading

namespace Parser

open Reading

variable {stop start : Span} {tokens tail middle inside rest : List Token}

/-! ### Expressions -/

theorem gives_expression {first whole : Expression}
    (hfirst : Gives (primary stop tokens) first middle)
    (hwhole : Scanning.Gives (climb stop first 0 middle) whole rest)
    (hend : accept (fun token => token.isAssignment && whole.isAssignable) rest = none) :
    Gives (expression stop tokens) whole rest := by
  obtain ⟨hmiddle, hfirst⟩ := hfirst
  obtain ⟨hrest, hwhole⟩ := hwhole
  refine ⟨by omega, ?_⟩
  rw [expression, hfirst]
  simp only [bind, Except.bind, hwhole, hend]
  rfl

theorem gives_assignment {first target value : Expression} {op : AssignmentOperator} {sign : Token}
    (hfirst : Gives (primary stop tokens) first middle)
    (htarget : Scanning.Gives (climb stop first 0 middle) target (sign :: tail))
    (hsign : sign.isAssignment = true) (hassignable : target.isAssignable = true)
    (hop : sign.assignment? = some op) (hvalue : Gives (expression stop tail) value rest) :
    Gives (expression stop tokens)
      (.assign target op value false (target.span.through value.span)) rest := by
  obtain ⟨hmiddle, hfirst⟩ := hfirst
  obtain ⟨htail, htarget⟩ := htarget
  obtain ⟨hrest, hvalue⟩ := hvalue
  rw [List.length_cons] at htail
  have haccept : accept (fun token => token.isAssignment && target.isAssignable) (sign :: tail) =
      some ⟨sign, tail, by simp⟩ := accept_cons (by simp [hsign, hassignable])
  refine ⟨by omega, ?_⟩
  rw [expression, hfirst]
  simp only [bind, Except.bind, htarget, haccept, hop, hvalue]
  rfl

theorem gives_enough {left : Expression} {least : Nat}
    (hend : ∀ token ∈ tokens.head?, ∀ binding ∈ token.binding?, binding.power < least) :
    Scanning.Gives (climb stop left least tokens) left tokens := by
  refine ⟨Nat.le_refl _, ?_⟩
  cases tokens with
  | nil => rw [climb]
  | cons token tail =>
    rw [climb]
    split
    · rfl
    · next binding hbinding =>
      rw [if_pos (hend token rfl binding hbinding)]
      rfl

theorem gives_call {left whole : Expression} {least : Nat} {token close : Token}
    {args : List Expression} (hbinding : token.binding? = some .call) (hleast : least ≤ callPower)
    (hargs : Gives (itemsUntil stop ")" tail.length (fun tokens _ => expression stop tokens) true
      tail (Nat.le_refl _)) (args, close) middle)
    (hwhole : Scanning.Gives
      (climb stop (.call left args (left.span.through close.span)) least middle) whole rest) :
    Scanning.Gives (climb stop left least (token :: tail)) whole rest := by
  obtain ⟨hmiddle, hargs⟩ := hargs
  obtain ⟨hrest, hwhole⟩ := hwhole
  refine ⟨by rw [List.length_cons]; omega, ?_⟩
  rw [climb, hbinding]
  simp only [Binding.power, Nat.not_lt.mpr hleast, ↓reduceIte, bind, Except.bind, hargs, hwhole]
  rfl

theorem gives_binary {left operand right whole : Expression} {op : BinaryOperator} {least : Nat}
    {token : Token} {afterOperand : List Token} (hbinding : token.binding? = some (.binary op))
    (hleast : least ≤ op.power) (hoperand : Gives (primary stop tail) operand afterOperand)
    (hright : Scanning.Gives (climb stop operand (op.power + 1) afterOperand) right middle)
    (hwhole : Scanning.Gives (climb stop
      (left.join op right (accept (fun token => token.isDelimiter "(") tail).isSome)
      least middle) whole rest) :
    Scanning.Gives (climb stop left least (token :: tail)) whole rest := by
  obtain ⟨hafter, hoperand⟩ := hoperand
  obtain ⟨hmiddle, hright⟩ := hright
  obtain ⟨hrest, hwhole⟩ := hwhole
  refine ⟨by rw [List.length_cons]; omega, ?_⟩
  rw [climb, hbinding]
  simp only [Binding.power, Nat.not_lt.mpr hleast, ↓reduceIte, bind, Except.bind, hoperand, hright,
    hwhole]
  rfl

theorem gives_unary {token : Token} {op : UnaryOperator} {inner operand : Expression}
    (hkind : token.kind = .operator) (hop : UnaryOperator.ofText? token.text = some op)
    (hinner : Gives (primary stop tail) inner middle)
    (hoperand : Scanning.Gives (climb stop inner callPower middle) operand rest) :
    Gives (primary stop (token :: tail)) (.unary op operand (token.span.through operand.span))
      rest := by
  obtain ⟨hmiddle, hinner⟩ := hinner
  obtain ⟨hrest, hoperand⟩ := hoperand
  refine ⟨by rw [List.length_cons]; omega, ?_⟩
  rw [primary, hkind]
  simp only [hop, bind, Except.bind, hinner, hoperand]
  rfl

theorem gives_parentheses {opening close : Token} {inner : Expression}
    (hopening : opening.isDelimiter "(" = true)
    (hinner : Gives (expression stop tail) inner (close :: rest))
    (hclose : close.isDelimiter ")" = true) :
    Gives (primary stop (opening :: tail)) inner rest := by
  obtain ⟨hkind, htext⟩ := Token.spec_of_isDelimiter hopening
  obtain ⟨hrest, hinner⟩ := hinner
  rw [List.length_cons] at hrest
  refine ⟨by rw [List.length_cons]; omega, ?_⟩
  rw [primary, hkind]
  simp only [htext, ↓reduceIte, bind, Except.bind, hinner, delimiter_cons hclose]
  rfl

theorem gives_array {opening close : Token} {items : List Expression}
    (hopening : opening.isDelimiter "[" = true)
    (hitems : Gives (itemsUntil stop "]" tail.length (fun tokens _ => expression stop tokens) true
      tail (Nat.le_refl _)) (items, close) rest) :
    Gives (primary stop (opening :: tail)) (.array items (opening.span.through close.span))
      rest := by
  obtain ⟨hkind, htext⟩ := Token.spec_of_isDelimiter hopening
  obtain ⟨hrest, hitems⟩ := hitems
  refine ⟨by rw [List.length_cons]; omega, ?_⟩
  rw [primary, hkind]
  simp only [htext, String.reduceEq, ↓reduceIte, bind, Except.bind, hitems]
  rfl

theorem gives_object {opening close : Token} {entries : List (String × Expression)}
    (hopening : opening.isDelimiter "\x7b" = true)
    (hentries : Gives (itemsUntil stop "\x7d" tail.length (fun tokens _ => entry stop tokens) true
      tail (Nat.le_refl _)) (entries, close) rest) :
    Gives (primary stop (opening :: tail))
      (.object (entries.foldl (fun fields entry => Field.put fields entry.1 entry.2) [])
        (opening.span.through close.span)) rest := by
  obtain ⟨hkind, htext⟩ := Token.spec_of_isDelimiter hopening
  obtain ⟨hrest, hentries⟩ := hentries
  refine ⟨by rw [List.length_cons]; omega, ?_⟩
  rw [primary, hkind]
  simp only [htext, String.reduceEq, ↓reduceIte, bind, Except.bind, hentries]
  rfl

theorem gives_lambda {word : Token} {params : Reading (List Identifier) tail} {body : Block}
    (hword : word.isKeyword .withWord = true) (hparams : lambdaParameters stop tail = .ok params)
    (hbody : Gives (block stop params.rest) body rest) :
    Gives (primary stop (word :: tail)) (.lambda params.value body (word.span.through body.span))
      rest := by
  obtain ⟨hkind, -⟩ := Token.spec_of_isKeyword hword
  obtain ⟨hrest, hbody⟩ := hbody
  have hshort := params.shorter
  refine ⟨by rw [List.length_cons]; omega, ?_⟩
  rw [primary, hkind]
  simp only [hword, ↓reduceIte, bind, Except.bind, hparams, hbody]
  rfl

theorem gives_construct {word opening close : Token} {owner callee : Expression}
    {args : List Expression} (hword : word.isKeyword .newWord = true)
    (howner : Gives (primary stop tail) owner middle)
    (hcallee : Scanning.Gives (constructed stop owner middle) callee (opening :: inside))
    (hopening : opening.isDelimiter "(" = true)
    (hargs : Gives (itemsUntil stop ")" inside.length (fun tokens _ => expression stop tokens) true
      inside (Nat.le_refl _)) (args, close) rest) :
    Gives (primary stop (word :: tail)) (.construct callee args (word.span.through close.span))
      rest := by
  obtain ⟨hkind, -⟩ := Token.spec_of_isKeyword hword
  obtain ⟨hmiddle, howner⟩ := howner
  obtain ⟨hinside, hcallee⟩ := hcallee
  obtain ⟨hrest, hargs⟩ := hargs
  rw [List.length_cons] at hinside
  refine ⟨by rw [List.length_cons]; omega, ?_⟩
  have hwith : word.isKeyword .withWord = false := Token.isKeyword_of_ne hword (by decide)
  have hdo : word.isKeyword .doWord = false := Token.isKeyword_of_ne hword (by decide)
  rw [primary, hkind]
  simp only [hwith, hdo, hword, Bool.false_eq_true, ↓reduceIte, bind, Except.bind, howner, hcallee,
    delimiter_cons hopening, hargs]
  rfl

theorem gives_owner {owner : Expression}
    (hend : accept (fun token => token.isOperator ".") tokens = none) :
    Scanning.Gives (constructed stop owner tokens) owner tokens := by
  refine ⟨Nat.le_refl _, ?_⟩
  rw [constructed, hend]
  rfl

theorem gives_joined {owner key callee : Expression} {point : Token}
    (hpoint : point.isOperator "." = true) (hkey : Gives (primary stop tail) key middle)
    (hcallee : Scanning.Gives (constructed stop
      (owner.join .member key (accept (fun token => token.isDelimiter "(") tail).isSome) middle)
      callee rest) :
    Scanning.Gives (constructed stop owner (point :: tail)) callee rest := by
  obtain ⟨hmiddle, hkey⟩ := hkey
  obtain ⟨hrest, hcallee⟩ := hcallee
  refine ⟨by rw [List.length_cons]; omega, ?_⟩
  have haccept : accept (fun token => token.isOperator ".") (point :: tail) =
      some ⟨point, tail, by simp⟩ := accept_cons hpoint
  rw [constructed, haccept]
  simp only [bind, Except.bind, hkey, hcallee]
  rfl

theorem gives_entry {key : Reading String tokens} {value : Expression}
    (hkey : fieldKey stop tokens = .ok key)
    (hvalue : Gives (expression stop key.rest) value rest) :
    Gives (entry stop tokens) (key.value, value) rest := by
  obtain ⟨hrest, hvalue⟩ := hvalue
  have hshort := key.shorter
  refine ⟨by omega, ?_⟩
  rw [entry, hkey]
  simp only [bind, Except.bind, hvalue]
  rfl

/-- A key is not the end of an object. -/
theorem isDelimiter_of_fieldKey {key : Reading String tokens}
    (hkey : fieldKey stop tokens = .ok key) (text : String) :
    ∀ token ∈ tokens.head?, token.isDelimiter text = false := by
  obtain ⟨⟨token, afterKey, hafter⟩, hkey, -⟩ := Except.bind_eq_ok_iff.mp hkey
  have hkind : ∀ kind, kind ≠ .delimiter →
      accept (fun token => token.kind = kind) tokens = some ⟨token, afterKey, hafter⟩ →
      ∀ token ∈ tokens.head?, token.isDelimiter text = false := by
    intro kind hkind haccept
    obtain ⟨rfl, htoken⟩ := eq_cons_of_accept haccept
    rintro _ ⟨⟩
    have htoken : token.kind = kind := by simpa using htoken
    simp [Token.isDelimiter, htoken, hkind]
  split at hkey
  · next haccept =>
    cases hkey
    exact hkind .string (by simp) haccept
  · unfold ofKind at hkey
    split at hkey
    · next haccept =>
      cases hkey
      exact hkind .identifier (by simp) haccept
    · cases hkey

/-! ### Blocks and statements behind their opening word -/

theorem gives_block {body : List Statement} {opening close : Token}
    (hopening : opening.isKeyword .doWord = true)
    (hbody : Scanning.Gives (statements stop [.endWord] inside) body (close :: rest))
    (hclose : close.isKeyword .endWord = true) :
    Gives (block stop (opening :: inside)) (.mk body (opening.span.through close.span)) rest := by
  obtain ⟨hrest, hbody⟩ := hbody
  rw [List.length_cons] at hrest
  refine ⟨by rw [List.length_cons]; omega, ?_⟩
  rw [block, keyword_cons hopening]
  simp only [bind, Except.bind, hbody, keyword_cons hclose]
  rfl

/-- A block where an operand is expected is a lambda without parameters. -/
theorem gives_lambdaAlone {body : Block} (hbody : Gives (block stop tokens) body rest) :
    Gives (primary stop tokens) (.lambda [] body body.span) rest := by
  obtain ⟨hrest, hbody⟩ := hbody
  refine ⟨hrest, ?_⟩
  rw [block] at hbody
  obtain ⟨⟨opening, inside, hinside⟩, hopening, hbody⟩ := Except.bind_eq_ok_iff.mp hbody
  obtain ⟨⟨inner, afterBody, hafter⟩, hinner, hbody⟩ := Except.bind_eq_ok_iff.mp hbody
  obtain ⟨⟨close, after, hafterClose⟩, hclose, hbody⟩ := Except.bind_eq_ok_iff.mp hbody
  cases hbody
  obtain ⟨rfl, hdo⟩ := eq_cons_of_keyword hopening
  obtain ⟨hkind, -⟩ := Token.spec_of_isKeyword hdo
  have hwith : opening.isKeyword .withWord = false := Token.isKeyword_of_ne hdo (by decide)
  rw [primary, hkind]
  simp only [hwith, hdo, Bool.false_eq_true, ↓reduceIte, bind, Except.bind, hinner, hclose]
  rfl

theorem gives_conditionAlone {test : Expression} {thenBody : List Statement}
    {thenWord close : Token} (htest : Gives (expression stop tokens) test (thenWord :: inside))
    (hword : thenWord.isKeyword .thenWord = true)
    (hthen : Scanning.Gives (statements stop [.endWord, .elseWord] inside) thenBody
      (close :: rest)) (hclose : close.isKeyword .endWord = true) :
    Gives (condition stop start tokens) (.condition test
      (.mk thenBody (thenWord.span.through (lastRead thenWord inside (close :: rest)).span)) none
      (start.through close.span)) rest := by
  obtain ⟨hinside, htest⟩ := htest
  obtain ⟨hrest, hthen⟩ := hthen
  rw [List.length_cons] at hinside hrest
  have haccept : accept (fun token => token.isKeyword .endWord) (close :: rest) =
      some ⟨close, rest, by simp⟩ := accept_cons hclose
  refine ⟨by omega, ?_⟩
  rw [condition, htest]
  simp only [bind, Except.bind, keyword_cons hword, hthen, haccept]
  rfl

theorem gives_conditionChain {test : Expression} {thenBody : List Statement} {branch : Statement}
    {thenWord elseWord ifWord : Token}
    (htest : Gives (expression stop tokens) test (thenWord :: inside))
    (hword : thenWord.isKeyword .thenWord = true)
    (hthen : Scanning.Gives (statements stop [.endWord, .elseWord] inside) thenBody
      (elseWord :: ifWord :: tail)) (helse : elseWord.isKeyword .elseWord = true)
    (hif : ifWord.isKeyword .ifWord = true)
    (hbranch : Gives (condition stop ifWord.span tail) branch rest) :
    Gives (condition stop start tokens) (.condition test
      (.mk thenBody
        (thenWord.span.through (lastRead thenWord inside (elseWord :: ifWord :: tail)).span))
      (some branch) (start.through branch.span)) rest := by
  obtain ⟨hinside, htest⟩ := htest
  obtain ⟨htail, hthen⟩ := hthen
  obtain ⟨hrest, hbranch⟩ := hbranch
  simp only [List.length_cons] at hinside htail
  have hend : accept (fun token => token.isKeyword .endWord) (elseWord :: ifWord :: tail) = none :=
    accept_eq_none (by simpa using Token.isKeyword_of_ne helse (by decide))
  have haccept : accept (fun token => token.isKeyword .ifWord) (ifWord :: tail) =
      some ⟨ifWord, tail, by simp⟩ := accept_cons hif
  refine ⟨by omega, ?_⟩
  rw [condition, htest]
  simp only [bind, Except.bind, keyword_cons hword, hthen, hend, keyword_cons helse, haccept,
    hbranch]
  rfl

/-- No sequence of statements starts with the word that guards one. -/
theorem gives_conditionElse {test : Expression} {thenBody elseBody : List Statement}
    {thenWord elseWord close : Token}
    (htest : Gives (expression stop tokens) test (thenWord :: inside))
    (hword : thenWord.isKeyword .thenWord = true)
    (hthen : Scanning.Gives (statements stop [.endWord, .elseWord] inside) thenBody
      (elseWord :: tail)) (helse : elseWord.isKeyword .elseWord = true)
    (hif : accept (fun token => token.isKeyword .ifWord) tail = none)
    (hbody : Scanning.Gives (statements stop [.endWord] tail) elseBody (close :: rest))
    (hclose : close.isKeyword .endWord = true) :
    Gives (condition stop start tokens) (.condition test
      (.mk thenBody (thenWord.span.through (lastRead thenWord inside (elseWord :: tail)).span))
      (some (.block (.mk elseBody (elseWord.span.through close.span))))
      (start.through (elseWord.span.through close.span))) rest := by
  obtain ⟨hinside, htest⟩ := htest
  obtain ⟨htail, hthen⟩ := hthen
  obtain ⟨hrest, hbody⟩ := hbody
  simp only [List.length_cons] at hinside htail hrest
  have hend : accept (fun token => token.isKeyword .endWord) (elseWord :: tail) = none :=
    accept_eq_none (by simpa using Token.isKeyword_of_ne helse (by decide))
  refine ⟨by omega, ?_⟩
  rw [condition, htest]
  simp only [bind, Except.bind, keyword_cons hword, hthen, hend, keyword_cons helse, hif, hbody,
    keyword_cons hclose]
  rfl

theorem gives_forLoop {name inWord : Token} {iterable : Expression} {body : Block}
    (hname : name.kind = .identifier) (hin : inWord.isKeyword .inWord = true)
    (hiterable : Gives (expression stop tail) iterable middle)
    (hbody : Gives (block stop middle) body rest) :
    Gives (forLoop stop start (name :: inWord :: tail))
      (.forLoop ⟨name.text, name.span⟩ iterable body (start.through body.span)) rest := by
  obtain ⟨hmiddle, hiterable⟩ := hiterable
  obtain ⟨hrest, hbody⟩ := hbody
  refine ⟨by simp only [List.length_cons]; omega, ?_⟩
  rw [forLoop, identifier_cons hname]
  simp only [bind, Except.bind, keyword_cons hin, hiterable, hbody]
  rfl

theorem gives_whileLoop {test : Expression} {body : Block}
    (htest : Gives (expression stop tokens) test middle)
    (hbody : Gives (block stop middle) body rest) :
    Gives (whileLoop stop start tokens) (.whileLoop test body (start.through body.span)) rest := by
  obtain ⟨hmiddle, htest⟩ := htest
  obtain ⟨hrest, hbody⟩ := hbody
  refine ⟨by omega, ?_⟩
  rw [whileLoop, htest]
  simp only [bind, Except.bind, hbody]
  rfl

theorem gives_functionDecl {name : Token} {body : Block} (hname : name.kind = .identifier)
    (hopening : accept (fun token => token.isDelimiter "(") tail = none)
    (hbody : Gives (block stop tail) body rest) :
    Gives (functionDecl stop start (name :: tail))
      (.functionDecl ⟨name.text, name.span⟩ [] body (start.through body.span)) rest := by
  obtain ⟨hrest, hbody⟩ := hbody
  refine ⟨by rw [List.length_cons]; omega, ?_⟩
  rw [functionDecl, identifier_cons hname]
  simp only [bind, Except.bind, hopening, Option.isSome_none, Bool.false_eq_true, ↓reduceIte,
    hbody]
  rfl

theorem parameters_start {params : Reading (List Identifier) tokens}
    (hparams : parameters stop tokens = .ok params) :
    ∃ token ∈ tokens.head?, token.isDelimiter "(" = true := by
  obtain ⟨⟨token, inside, hinside⟩, hopening, -⟩ := Except.bind_eq_ok_iff.mp hparams
  obtain ⟨rfl, htoken⟩ := eq_cons_of_delimiter hopening
  exact ⟨token, rfl, htoken⟩

theorem gives_functionWith {name : Token} {body : Block} {params : Reading (List Identifier) tail}
    (hname : name.kind = .identifier) (hparams : parameters stop tail = .ok params)
    (hbody : Gives (block stop params.rest) body rest) :
    Gives (functionDecl stop start (name :: tail))
      (.functionDecl ⟨name.text, name.span⟩ params.value body (start.through body.span)) rest := by
  obtain ⟨hrest, hbody⟩ := hbody
  have hshort := params.shorter
  have hopening : (accept (fun token => token.isDelimiter "(") tail).isSome := by
    obtain ⟨token, htoken, hopening⟩ := parameters_start hparams
    cases tail with
    | nil => cases htoken
    | cons first more =>
      cases htoken
      rw [accept_cons hopening]
      rfl
  refine ⟨by rw [List.length_cons]; omega, ?_⟩
  rw [functionDecl, identifier_cons hname]
  simp only [bind, Except.bind, hopening, ↓reduceIte, hparams, Except.map, hbody]
  rfl

theorem gives_classDecl {name opening close : Token} {parts : List ClassMember}
    (hname : name.kind = .identifier) (hopening : opening.isKeyword .doWord = true)
    (hparts : Scanning.Gives (members stop inside) parts (close :: rest))
    (hclose : close.isKeyword .endWord = true) :
    Gives (classDecl stop start (name :: opening :: inside))
      (.classDecl ⟨name.text, name.span⟩ parts (start.through close.span)) rest := by
  obtain ⟨hrest, hparts⟩ := hparts
  rw [List.length_cons] at hrest
  refine ⟨by simp only [List.length_cons]; omega, ?_⟩
  rw [classDecl, identifier_cons hname]
  simp only [bind, Except.bind, keyword_cons hopening, hparts, keyword_cons hclose]
  rfl

theorem gives_returnNothing (hend : returnsValue start tokens = false) :
    Scanning.Gives (returnValue stop start tokens) (.returnValue none start) tokens := by
  refine ⟨Nat.le_refl _, ?_⟩
  rw [returnValue, if_neg (by simp [hend])]
  rfl

theorem gives_returnValue {value : Expression} (hmore : returnsValue start tokens = true)
    (hvalue : Gives (expression stop tokens) value rest) :
    Scanning.Gives (returnValue stop start tokens)
      (.returnValue (some value) (start.through value.span)) rest := by
  obtain ⟨hrest, hvalue⟩ := hvalue
  refine ⟨Nat.le_of_lt hrest, ?_⟩
  rw [returnValue, if_pos hmore, hvalue]
  rfl

theorem gives_localAssignment {span : Span} {target value : Expression} {op : AssignmentOperator}
    {isLocal : Bool}
    (hvalue : Gives (expression stop tokens) (.assign target op value isLocal span) rest) :
    Gives (localAssignment stop start tokens)
      (.expression (.assign target op value true (start.through value.span))
        (start.through value.span)) rest := by
  obtain ⟨hrest, hvalue⟩ := hvalue
  refine ⟨hrest, ?_⟩
  rw [localAssignment, hvalue]
  rfl

theorem gives_expressionStatement {value : Expression}
    (hvalue : Gives (expression stop tokens) value rest) :
    Gives (expressionStatement stop tokens) (.expression value value.span) rest := by
  obtain ⟨hrest, hvalue⟩ := hvalue
  refine ⟨hrest, ?_⟩
  rw [expressionStatement, hvalue]
  rfl

theorem gives_exportPlain {value : Expression}
    (hstart : ∃ token ∈ tokens.head?, token.startsExpression = true)
    (hvalue : Gives (expression stop tokens) value rest) :
    Gives (exportDecl stop start tokens)
      (.exportDecl (.expression value value.span) (start.through value.span)) rest := by
  obtain ⟨hrest, hvalue⟩ := gives_expressionStatement hvalue
  refine ⟨hrest, ?_⟩
  obtain ⟨token, htoken, hstart⟩ := hstart
  cases tokens with
  | nil => cases htoken
  | cons first more =>
    cases htoken
    rw [exportDecl]
    have hother : ∀ word, token.keyword? = some word →
        word ∈ [Keyword.withWord, .doWord, .newWord] :=
      fun _ => Token.keyword?_of_startsExpression hstart
    split
    · next hword => exact absurd (hother _ hword) (by decide)
    · next hword => exact absurd (hother _ hword) (by decide)
    · next hword => exact absurd (hother _ hword) (by decide)
    · rw [hvalue]
      rfl

/-- Whether the reader behind an opening word takes a statement and leaves the tokens `rest`. -/
def GivesBehind (stop : Span) (word : Keyword) (start : Span) (tokens : List Token)
    (value : Statement) (rest : List Token) : Prop :=
  match word with
  | .ifWord => Gives (condition stop start tokens) value rest
  | .forWord => Gives (forLoop stop start tokens) value rest
  | .whileWord => Gives (whileLoop stop start tokens) value rest
  | .functionWord => Gives (functionDecl stop start tokens) value rest
  | .classWord => Gives (classDecl stop start tokens) value rest
  | .returnWord => Scanning.Gives (returnValue stop start tokens) value rest
  | .breakWord => value = .breakLoop start ∧ rest = tokens
  | .continueWord => value = .continueLoop start ∧ rest = tokens
  | .hostWord => Gives (hostDecl stop start tokens) value rest
  | .localWord => Gives (localAssignment stop start tokens) value rest
  | .importWord => Gives (importModule stop start tokens) value rest
  | .fromWord => Gives (importExports stop start tokens) value rest
  | .exportWord => Gives (exportDecl stop start tokens) value rest
  | _ => False

theorem gives_exportOpened {word : Keyword} {token : Token} {declaration : Statement}
    (hword : token.keyword? = some word)
    (hkind : word ∈ [Keyword.functionWord, .classWord, .localWord])
    (hdeclaration : GivesBehind stop word token.span tail declaration rest) :
    Gives (exportDecl stop start (token :: tail))
      (.exportDecl declaration (start.through declaration.span)) rest := by
  simp only [List.mem_cons, List.not_mem_nil, or_false] at hkind
  rcases hkind with rfl | rfl | rfl
  all_goals
    obtain ⟨hrest, hdeclaration⟩ := hdeclaration
    refine ⟨by rw [List.length_cons]; omega, ?_⟩
    rw [exportDecl, hword]
    simp only [hdeclaration]
    rfl

/-! ### Statements and members -/

theorem gives_opened {word : Keyword} {token : Token} {value : Statement}
    (hword : token.keyword? = some word)
    (hvalue : GivesBehind stop word token.span tail value rest) :
    Gives (unguarded stop (token :: tail)) value rest := by
  unfold GivesBehind at hvalue
  split at hvalue
  case h_7 =>
    obtain ⟨rfl, rfl⟩ := hvalue
    exact ⟨by simp, by rw [unguarded, hword]; rfl⟩
  case h_8 =>
    obtain ⟨rfl, rfl⟩ := hvalue
    exact ⟨by simp, by rw [unguarded, hword]; rfl⟩
  case h_14 => cases hvalue
  all_goals
    obtain ⟨hrest, hvalue⟩ := hvalue
    refine ⟨by rw [List.length_cons]; omega, ?_⟩
    rw [unguarded, hword]
    simp only [hvalue]
    rfl

theorem gives_plain {value : Expression}
    (hstart : ∃ token ∈ tokens.head?, token.startsExpression = true)
    (hvalue : Gives (expression stop tokens) value rest) :
    Gives (unguarded stop tokens) (.expression value value.span) rest := by
  obtain ⟨hrest, hvalue⟩ := gives_expressionStatement hvalue
  refine ⟨hrest, ?_⟩
  obtain ⟨token, htoken, hstart⟩ := hstart
  cases tokens with
  | nil => cases htoken
  | cons first more =>
    cases htoken
    have hother : ∀ word, token.keyword? = some word →
        word ∈ [Keyword.withWord, .doWord, .newWord] :=
      fun _ => Token.keyword?_of_startsExpression hstart
    rw [unguarded]
    split
    case h_14 => exact hvalue
    all_goals
      next hword => exact absurd (hother _ hword) (by decide)

theorem gives_unguarded {value : Statement} (hvalue : Gives (unguarded stop tokens) value rest)
    (hend : accept (fun token => token.guards value) rest = none) :
    Gives (statement stop tokens) value rest := by
  obtain ⟨hrest, hvalue⟩ := hvalue
  refine ⟨hrest, ?_⟩
  rw [statement, hvalue]
  simp only [Token.guards] at hend
  simp only [bind, Except.bind, hend]
  rfl

theorem gives_guarded {inner : Statement} {test : Expression} {word : Token}
    (hinner : Gives (unguarded stop tokens) inner (word :: tail))
    (hword : word.guards inner = true) (htest : Gives (expression stop tail) test rest) :
    Gives (statement stop tokens) (.guarded inner test (inner.span.through test.span)) rest := by
  obtain ⟨htail, hinner⟩ := hinner
  obtain ⟨hrest, htest⟩ := htest
  rw [List.length_cons] at htail
  have haccept : accept (fun token => token.guards inner) (word :: tail) =
      some ⟨word, tail, by simp⟩ := accept_cons hword
  simp only [Token.guards] at haccept
  refine ⟨by omega, ?_⟩
  rw [statement, hinner]
  simp only [bind, Except.bind, haccept, htest]
  rfl

theorem gives_none {words : List Keyword}
    (hend : ∀ token ∈ tokens.head?, words.any token.isKeyword = true) :
    Scanning.Gives (statements stop words tokens) [] tokens := by
  refine ⟨Nat.le_refl _, ?_⟩
  cases tokens with
  | nil => rw [statements]
  | cons token tail => rw [statements, if_pos (hend token rfl)]

theorem gives_more {words : List Keyword} {first : Statement} {more : List Statement}
    (hstart : ∀ token ∈ tokens.head?, words.any token.isKeyword = false)
    (hfirst : Gives (statement stop tokens) first middle)
    (hmore : Scanning.Gives (statements stop words middle) more rest) :
    Scanning.Gives (statements stop words tokens) (first :: more) rest := by
  obtain ⟨hmiddle, hfirst⟩ := hfirst
  obtain ⟨hrest, hmore⟩ := hmore
  refine ⟨by omega, ?_⟩
  cases tokens with
  | nil => cases hmiddle
  | cons token tail =>
    rw [statements, if_neg (by simp [hstart token rfl]), hfirst]
    simp only [bind, Except.bind, hmore]
    rfl

theorem gives_noMember (hend : ∀ token ∈ tokens.head?, token.isKeyword .endWord = true) :
    Scanning.Gives (members stop tokens) [] tokens := by
  refine ⟨Nat.le_refl _, ?_⟩
  cases tokens with
  | nil => rw [members]
  | cons token tail => rw [members, if_pos (hend token rfl)]

theorem gives_moreMembers {first : ClassMember} {more : List ClassMember}
    (hstart : ∀ token ∈ tokens.head?, token.isKeyword .endWord = false)
    (hfirst : Gives (member stop tokens) first middle)
    (hmore : Scanning.Gives (members stop middle) more rest) :
    Scanning.Gives (members stop tokens) (first :: more) rest := by
  obtain ⟨hmiddle, hfirst⟩ := hfirst
  obtain ⟨hrest, hmore⟩ := hmore
  refine ⟨by omega, ?_⟩
  cases tokens with
  | nil => cases hmiddle
  | cons token tail =>
    rw [members, if_neg (by simp [hstart token rfl]), hfirst]
    simp only [bind, Except.bind, hmore]
    rfl

theorem gives_field {name sign : Token} {value : Expression} (hname : name.kind = .identifier)
    (hsign : sign.kind = .equals) (hvalue : Gives (expression stop tail) value rest) :
    Gives (member stop (name :: sign :: tail))
      (.field ⟨name.text, name.span⟩ value (name.span.through value.span)) rest := by
  obtain ⟨hrest, hvalue⟩ := hvalue
  refine ⟨by simp only [List.length_cons]; omega, ?_⟩
  rw [member, if_pos (by simp [hname, hsign]), hvalue]
  rfl

/-- Behind the name of a method stands no equals sign. -/
theorem member_eq_method {name : Reading MethodName tokens}
    {params : Reading (List Identifier) name.rest} (hname : methodName stop tokens = .ok name)
    (hparams : parameters stop name.rest = .ok params) :
    member stop tokens = method stop tokens := by
  match tokens, name, params, hname, hparams with
  | [], _, _, _, _ => rw [member]; simp
  | [token], _, _, _, _ => rw [member]; simp
  | token :: sign :: more, name, params, hname, hparams =>
    rw [member, if_neg]
    intro hfield
    simp only [Bool.and_eq_true, decide_eq_true_eq] at hfield
    have hnone : accept (fun token => token.kind = .operator) (token :: sign :: more) = none :=
      accept_eq_none (by simp [hfield.1])
    rw [methodName, hnone] at hname
    simp only [identifier_cons hfield.1] at hname
    cases hname
    obtain ⟨opening, hopening, hparen⟩ := parameters_start hparams
    cases hopening
    simp [Token.isDelimiter, hfield.2] at hparen

theorem gives_method {name : Reading MethodName tokens}
    {params : Reading (List Identifier) name.rest} {body : Block}
    (hname : methodName stop tokens = .ok name)
    (hparams : parameters stop name.rest = .ok params)
    (hbody : Gives (block stop params.rest) body rest) :
    Gives (member stop tokens)
      (.method name.value params.value body (name.value.span.through body.span)) rest := by
  obtain ⟨hrest, hbody⟩ := hbody
  have hname' := name.shorter
  have hparams' := params.shorter
  refine ⟨by omega, ?_⟩
  rw [member_eq_method hname hparams, method, hname]
  simp only [bind, Except.bind, hparams, hbody]
  rfl

end Parser

/-! ### All of the grammar is read -/

/-- Whether the reader of a phrase reads it off the tokens ahead. The closing words and delimiters
    of a list have to be some that the parser closes such lists with. -/
def Phrase.IsRead (stop : Span) (tokens rest : List Token) : Phrase → Prop
  | .statement value => Reading.Gives (Parser.statement stop tokens) value rest
  | .bare value => Reading.Gives (Parser.unguarded stop tokens) value rest
  | .behind word start value => Parser.GivesBehind stop word start tokens value rest
  | .sequence words body => (∀ word ∈ words, word ∈ [Keyword.endWord, .elseWord]) →
    Scanning.Gives (Parser.statements stop words tokens) body rest
  | .block body => Reading.Gives (Parser.block stop tokens) body rest
  | .members parts => Scanning.Gives (Parser.members stop tokens) parts rest
  | .member part => Reading.Gives (Parser.member stop tokens) part rest
  | .expression value => Reading.Gives (Parser.expression stop tokens) value rest
  | .onwards left least whole => Scanning.Gives (Parser.climb stop left least tokens) whole rest
  | .primary value => Reading.Gives (Parser.primary stop tokens) value rest
  | .items close isFirst values last => close ∈ [")", "]"] → ∀ bound hbound,
    Reading.Gives (Reading.itemsUntil stop close bound
      (fun tokens _ => Parser.expression stop tokens) isFirst tokens hbound) (values, last) rest
  | .entries isFirst values last => ∀ bound hbound,
    Reading.Gives (Reading.itemsUntil stop "\x7d" bound
      (fun tokens _ => Parser.entry stop tokens) isFirst tokens hbound) (values, last) rest
  | .constructed owner callee => Scanning.Gives (Parser.constructed stop owner tokens) callee rest

/-- A statement starts with no word that closes a sequence of statements. -/
theorem Phrase.StartsWith.closes_nothing {value : Statement} {token : Token} {words : List Keyword}
    (hstart : (Phrase.statement value).StartsWith token)
    (hwords : ∀ word ∈ words, word ∈ [Keyword.endWord, .elseWord]) :
    words.any token.isKeyword = false := by
  refine List.any_eq_false.mpr fun word hword hclose => ?_
  have hclosing := hwords word hword
  rw [Token.isKeyword_iff] at hclose
  rcases hstart with hstart | ⟨other, hopening, hother⟩
  · have hmem := Token.keyword?_of_startsExpression hstart hclose
    revert hmem hclosing
    cases word <;> decide
  · obtain rfl := Option.some.inj (hclose.symm.trans hother)
    revert hopening hclosing
    cases word <;> decide

/-- What is derived is read. -/
theorem Reads.isRead {stop : Span} {phrase : Phrase} {tokens rest : List Token}
    (hreads : Reads stop phrase tokens rest) : phrase.IsRead stop tokens rest := by
  induction hreads with
  | unguarded _ hend ih => exact Parser.gives_unguarded ih hend
  | guarded _ hword _ ihinner ihtest => exact Parser.gives_guarded ihinner hword ihtest
  | opened hword _ ih => exact Parser.gives_opened hword ih
  | plain hvalue ih => exact Parser.gives_plain (hvalue.exists_startsWith rfl) ih
  | none hend => exact fun _ => Parser.gives_none hend
  | more hfirst _ ihfirst ihmore =>
    intro hwords
    have hstart := hfirst.startsWith rfl
    exact Parser.gives_more (fun token htoken => (hstart token htoken).closes_nothing hwords)
      ihfirst (ihmore hwords)
  | block hopening _ hclose ih => exact Parser.gives_block hopening (ih (by simp)) hclose
  | conditionAlone _ hword _ hclose _ hspan ihtest ihthen =>
    subst hspan
    exact Parser.gives_conditionAlone ihtest hword (ihthen (by simp)) hclose
  | conditionChain _ hword _ helse hif _ _ hspan ihtest ihthen ihbranch =>
    subst hspan
    exact Parser.gives_conditionChain ihtest hword (ihthen (by simp)) helse hif ihbranch
  | conditionElse _ hword _ helse hif _ hclose _ hspan _ hblock ihtest ihthen ihbody =>
    subst hspan hblock
    exact Parser.gives_conditionElse ihtest hword (ihthen (by simp)) helse hif (ihbody (by simp))
      hclose
  | forLoop hname hin _ _ ihiterable ihbody =>
    exact Parser.gives_forLoop hname hin ihiterable ihbody
  | whileLoop _ _ ihtest ihbody => exact Parser.gives_whileLoop ihtest ihbody
  | functionDecl hname hopening _ ih => exact Parser.gives_functionDecl hname hopening ih
  | functionWith hname hparams _ ih => exact Parser.gives_functionWith hname hparams ih
  | classDecl hname hopening _ hclose ih => exact Parser.gives_classDecl hname hopening ih hclose
  | returnNothing hend => exact Parser.gives_returnNothing hend
  | returnValue hmore _ ih => exact Parser.gives_returnValue hmore ih
  | breakLoop | continueLoop => exact ⟨rfl, rfl⟩
  | hostDecl hreading | importModule hreading | importExports hreading => exact ⟨_, hreading⟩
  | localAssignment _ ih => exact Parser.gives_localAssignment ih
  | exportOpened hword hkind _ ih => exact Parser.gives_exportOpened hword hkind ih
  | exportPlain hvalue ih => exact Parser.gives_exportPlain (hvalue.exists_startsWith rfl) ih
  | noMember hend => exact Parser.gives_noMember hend
  | moreMembers hfirst _ ihfirst ihmore =>
    refine Parser.gives_moreMembers (fun token htoken => ?_) ihfirst ihmore
    rcases hfirst.startsWith rfl token htoken with hkind | hkind <;> simp [Token.isKeyword, hkind]
  | field hname hsign _ ih => exact Parser.gives_field hname hsign ih
  | method hname hparams _ ih => exact Parser.gives_method hname hparams ih
  | operand _ _ hend ihfirst ihwhole => exact Parser.gives_expression ihfirst ihwhole hend
  | assignment _ _ hsign hassignable hop _ ihfirst ihtarget ihvalue =>
    exact Parser.gives_assignment ihfirst ihtarget hsign hassignable hop ihvalue
  | enough hend => exact Parser.gives_enough hend
  | call hbinding hleast _ _ ihargs ihwhole =>
    exact Parser.gives_call hbinding hleast (ihargs (by simp) _ _) ihwhole
  | binary hbinding hleast _ _ _ ihoperand ihright ihwhole =>
    exact Parser.gives_binary hbinding hleast ihoperand ihright ihwhole
  | string hkind | number hkind | name hkind =>
    exact ⟨by simp, by rw [Parser.primary, hkind]; rfl⟩
  | unary hkind hop _ _ ihinner ihoperand => exact Parser.gives_unary hkind hop ihinner ihoperand
  | parentheses hopening _ hclose ih => exact Parser.gives_parentheses hopening ih hclose
  | array hopening _ ih => exact Parser.gives_array hopening (ih (by simp) _ _)
  | object hopening _ ih => exact Parser.gives_object hopening (ih _ _)
  | lambda hword hparams _ ih => exact Parser.gives_lambda hword hparams ih
  | lambdaAlone _ ih => exact Parser.gives_lambdaAlone ih
  | construct hword _ _ hopening _ ihowner ihcallee ihargs =>
    exact Parser.gives_construct hword ihowner ihcallee hopening (ihargs (by simp) _ _)
  | owner hend => exact Parser.gives_owner hend
  | joined hpoint _ _ ihkey ihcallee => exact Parser.gives_joined hpoint ihkey ihcallee
  | lastItem hclose => exact fun _ _ hbound => Reading.gives_lastItem _ hbound hclose
  | firstItem hfirst _ ihfirst ihmore =>
    intro hclose bound hbound
    refine Reading.gives_firstItem (fun token htoken => ?_) ihfirst (ihmore hclose bound)
    refine Token.isDelimiter_of_startsExpression (hfirst.startsWith rfl token htoken) ?_
    simp only [List.mem_cons, List.not_mem_nil, or_false] at hclose
    rcases hclose with rfl | rfl <;> decide
  | nextItem hcomma _ _ ihfirst ihmore =>
    intro hclose bound hbound
    refine Reading.gives_nextItem ?_ hcomma (fun _ => ihfirst) (ihmore hclose bound)
    rintro rfl
    revert hclose
    decide
  | lastEntry hclose => exact fun _ hbound => Reading.gives_lastItem _ hbound hclose
  | firstEntry hkey _ _ ihvalue ihmore =>
    intro bound hbound
    exact Reading.gives_firstItem (Parser.isDelimiter_of_fieldKey hkey _)
      (Parser.gives_entry hkey ihvalue) (ihmore bound)
  | nextEntry hcomma hkey _ _ ihvalue ihmore =>
    intro bound hbound
    exact Reading.gives_nextItem (by decide) hcomma (fun _ => Parser.gives_entry hkey ihvalue)
      (ihmore bound)

/-- Nothing but the end of the tokens ends a sequence of statements without closing words. -/
theorem Reads.rest_eq_nil {stop : Span} {body : List Statement} {tokens rest : List Token}
    (hreads : Reads stop (.sequence [] body) tokens rest) : rest = [] := by
  generalize hphrase : Phrase.sequence [] body = phrase at hreads
  induction hreads generalizing body with
  | @none _ tokens hend =>
    cases hphrase
    cases tokens with
    | nil => rfl
    | cons token tail => cases hend token rfl
  | more _ _ _ ih =>
    cases hphrase
    exact ih rfl
  | _ => cases hphrase

/-- The programs are the sequences of statements that are derived off the tokens ahead of the end
    of the input, with no token left. -/
theorem Program.ofTokens_eq_ok_iff {tokens : List Token} {program : Program} :
    ofTokens tokens = .ok program ↔
      ∃ body, Reads (endSpan tokens) (.sequence [] body) (programTokens tokens) [] ∧
        program = ofStatements (endSpan tokens) body := by
  constructor
  · intro hread
    obtain ⟨⟨body, rest, hrest⟩, hbody, hread⟩ := Except.bind_eq_ok_iff.mp hread
    have hreads := (Parser.soundBelow _ _).statements (Nat.lt_succ_self _) hbody
    cases hread
    obtain rfl := hreads.rest_eq_nil
    exact ⟨body, hreads, rfl⟩
  · rintro ⟨body, hreads, rfl⟩
    obtain ⟨hrest, hbody⟩ := hreads.isRead (by simp)
    exact Except.bind_eq_ok_iff.mpr ⟨_, hbody, rfl⟩

end KaLang
