import KaLang.Proofs.Syntax.Placement
import KaLang.Proofs.Syntax.Relocation

/-!
Tokens that are moved. The parser asks nothing of places but which tokens start on the line where
another one ends, and nothing of a string literal but that it is one. So tokens may go with a
relocation that keeps those lines (`Relocation.KeepsLines`, `Relocation.Moves`): two runs end alike
if both fail with the same fault, or both succeed with values between which no reader can tell
(`Alike`). Here are the rules for what is read in a row, and the readers of single tokens and of
names.
-/

namespace KaLang

/-! ### Tokens that are moved -/

/-- Whether tokens are in order and a relocation keeps which of them start on the line where another
    one ends. -/
structure Relocation.KeepsLines (r : Relocation) (tokens : List Token) : Prop where
  order : InOrder tokens
  lines : ∀ a ∈ tokens, ∀ b ∈ tokens,
    (r.first a.span.first).line = (r.last b.span.last).line ↔ a.span.first.line = b.span.last.line

/-- Whether tokens are changed in nothing but their places, which go with a relocation, and in what
    string literals stand for. -/
structure Relocation.Moves (r : Relocation) (move : Token → Token) : Prop where
  kind : ∀ token, (move token).kind = token.kind
  text : ∀ token, token.kind ≠ .string → (move token).text = token.text
  span : ∀ token, (move token).span = token.span.relocate r

theorem Token.kind_ne_of_isKeyword {token : Token} {word : Keyword}
    (htoken : token.isKeyword word = true) : token.kind ≠ .string := by
  simp [(spec_of_isKeyword htoken).1]

theorem Token.kind_ne_of_isDelimiter {token : Token} {text : String}
    (htoken : token.isDelimiter text = true) : token.kind ≠ .string := by
  simp [(spec_of_isDelimiter htoken).1]

theorem Token.kind_ne_of_isAssignment {token : Token} (htoken : token.isAssignment = true) :
    token.kind ≠ .string := by
  intro hkind
  simp [isAssignment, hkind] at htoken

namespace Relocation.Moves

variable {r : Relocation} {move : Token → Token} (hmoves : r.Moves move) (token : Token)

include hmoves

/-- Any token but a string literal is only put elsewhere. -/
theorem eq_relocate {token : Token} (hkind : token.kind ≠ .string) :
    move token = token.relocate r := by
  have htext := hmoves.text token hkind
  have hspan := hmoves.span token
  have hsame := hmoves.kind token
  cases hmove : move token with
  | mk kind text span =>
    rw [hmove] at htext hspan hsame
    simp only [Token.relocate, ← htext, ← hspan, ← hsame]

theorem isKeyword (word : Keyword) : (move token).isKeyword word = token.isKeyword word := by
  by_cases hkind : token.kind = .string
  · simp [Token.isKeyword, hmoves.kind, hkind]
  · rw [hmoves.eq_relocate hkind]
    rfl

theorem isDelimiter (text : String) : (move token).isDelimiter text = token.isDelimiter text := by
  by_cases hkind : token.kind = .string
  · simp [Token.isDelimiter, hmoves.kind, hkind]
  · rw [hmoves.eq_relocate hkind]
    rfl

theorem isOperator (text : String) : (move token).isOperator text = token.isOperator text := by
  by_cases hkind : token.kind = .string
  · simp [Token.isOperator, hmoves.kind, hkind]
  · rw [hmoves.eq_relocate hkind]
    rfl

theorem keyword? : (move token).keyword? = token.keyword? := by
  by_cases hkind : token.kind = .string
  · simp [Token.keyword?, hmoves.kind, hkind]
  · rw [hmoves.eq_relocate hkind]
    rfl

theorem binding? : (move token).binding? = token.binding? := by
  by_cases hkind : token.kind = .string
  · simp [Token.binding?, Token.isDelimiter, hmoves.kind, hkind]
  · rw [hmoves.eq_relocate hkind]
    rfl

theorem isAssignment : (move token).isAssignment = token.isAssignment := by
  simp [Token.isAssignment, hmoves.kind]

end Relocation.Moves

/-- A relocation moves tokens. -/
theorem Relocation.moves (r : Relocation) : r.Moves (Token.relocate r) :=
  ⟨fun _ => rfl, fun _ _ => rfl, fun _ => rfl⟩

/-! ### Values that no reader can tell apart -/

/-- Where the value of an assignment stands. -/
def Expression.assigned? : Expression → Option Span
  | assign _ _ value _ _ => some value.span
  | _ => none

/-- Whether an expression is another one at its new place, as far as readers look at what was read:
    whether it is a name, assignable or an assignment, and where it stands. -/
structure Expression.Like (r : Relocation) (e other : Expression) : Prop where
  span : other.span = e.span.relocate r
  name : other.name?.isSome = e.name?.isSome
  assignable : other.isAssignable = e.isAssignable
  assigned : other.assigned? = e.assigned?.map (Span.relocate r)

theorem Span.through_relocate {r : Relocation} {a b first last : Span}
    (hfirst : first = a.relocate r) (hlast : last = b.relocate r) :
    first.through last = (a.through b).relocate r := by
  rw [hfirst, hlast, relocate_through]

/-- Whether a statement stands at the new place of another one. -/
def Statement.Like (r : Relocation) (s other : Statement) : Prop :=
  other.span = s.span.relocate r

theorem Statement.like_of_eq {r : Relocation} {s other : Statement}
    (hother : other = s.relocate r) : s.Like r other := by
  rw [hother, Like, span_relocate]

/-- Whether a block stands at the new place of another one. -/
def Block.Like (r : Relocation) (b other : Block) : Prop := other.span = b.span.relocate r

namespace Expression

variable {left right : Expression} {op : BinaryOperator} {inParentheses : Bool}

@[simp] theorem span_join :
    (left.join op right inParentheses).span = left.span.through right.span := by
  unfold join
  dsimp only
  split <;> rfl

@[simp] theorem name?_join : (left.join op right inParentheses).name? = none := by
  unfold join
  dsimp only
  split <;> rfl

@[simp] theorem assigned?_join : (left.join op right inParentheses).assigned? = none := by
  unfold join
  dsimp only
  split <;> rfl

/-- Only a name behind a point goes on with something assignable. -/
theorem isAssignable_join : (left.join op right inParentheses).isAssignable =
    (op = .member && !inParentheses && right.name?.isSome && left.isAssignable) := by
  unfold join
  dsimp only
  split
  · simp [isAssignable, name?]
  · next hother =>
    cases inParentheses with
    | true => simp [isAssignable]
    | false =>
      cases right with
      | name text place =>
        have hop : op ≠ .member := fun hop => hother text place hop rfl rfl
        simp [isAssignable, hop]
      | _ => simp [isAssignable, name?]

variable {r : Relocation} {leftOther rightOther : Expression}

theorem Like.join (hleft : Like r left leftOther) (hright : Like r right rightOther) :
    Like r (left.join op right inParentheses) (leftOther.join op rightOther inParentheses) where
  span := by rw [span_join, span_join, Span.through_relocate hleft.span hright.span]
  name := by rw [name?_join, name?_join]
  assignable := by
    rw [isAssignable_join, isAssignable_join, hleft.assignable, hright.name]
  assigned := by rw [assigned?_join, assigned?_join, Option.map_none]

end Expression

/-! ### Runs that end alike -/

/-- Whether two runs end alike: with values that are related, or with the same error, at its new
    place in the second run. -/
inductive Alike (r : Relocation) {α β : Type} (related : α → β → Prop) :
    Except CompileError α → Except CompileError β → Prop where
  | ok {a : α} {b : β} (hrelated : related a b) : Alike r related (.ok a) (.ok b)
  | error (error : CompileError) : Alike r related (.error error) (.error (error.relocate r))

/-- Whether two readings are of related values, and what is left behind them is the end of a given
    list and the same tokens moved. -/
structure Reading.Follows (move : Token → Token) (all : List Token) {α β : Type}
    (related : α → β → Prop) {tokens others : List Token} (a : Reading α tokens)
    (b : Reading β others) : Prop where
  value : related a.value b.value
  rest : b.rest = a.rest.map move
  suffix : a.rest <:+ all

/-- The same for readings that may have taken no token. -/
structure Scanning.Follows (move : Token → Token) (all : List Token) {α β : Type}
    (related : α → β → Prop) {tokens others : List Token} (a : Scanning α tokens)
    (b : Scanning β others) : Prop where
  value : related a.value b.value
  rest : b.rest = a.rest.map move
  suffix : a.rest <:+ all

variable {r : Relocation} {move : Token → Token} {all : List Token} {α β γ δ : Type}

namespace Alike

variable {related : γ → δ → Prop} {before : α → β → Prop} {tokens others : List Token} {stop : Span}

theorem exists_of_ok {first : Except CompileError α} {second : Except CompileError β} {a : α}
    (halike : Alike r before first second) (hfirst : first = .ok a) :
    ∃ b, second = .ok b ∧ before a b := by
  subst hfirst
  cases halike with
  | ok hrelated => exact ⟨_, rfl, hrelated⟩

theorem eq_error {first : Except CompileError α} {second : Except CompileError β}
    {error : CompileError} (halike : Alike r before first second) (hfirst : first = .error error) :
    second = .error (error.relocate r) := by
  subst hfirst
  cases halike with
  | error => rfl

theorem bind {first : Except CompileError α} {second : Except CompileError β}
    {next : α → Except CompileError γ} {later : β → Except CompileError δ}
    (hfirst : Alike r before first second)
    (hnext : ∀ a b, first = .ok a → before a b → Alike r related (next a) (later b)) :
    Alike r related (first >>= next) (second >>= later) := by
  cases hfirst with
  | ok hrelated => exact hnext _ _ rfl hrelated
  | error error => exact .error error

theorem imp {related : α → β → Prop} {first : Except CompileError (Reading α tokens)}
    {second : Except CompileError (Reading β others)}
    (hfirst : Alike r (Reading.Follows move all before) first second)
    (himp : ∀ a b, before a b → related a b) :
    Alike r (Reading.Follows move all related) first second := by
  cases hfirst with
  | ok hfollows => exact .ok ⟨himp _ _ hfollows.value, hfollows.rest, hfollows.suffix⟩
  | error error => exact .error error

/-- What is read next is read off what the first readings left. -/
theorem reading {first : Except CompileError (Reading α tokens)}
    {second : Except CompileError (Reading β others)} {next : Reading α tokens → _}
    {later : Reading β others → _}
    (hfirst : Alike r (Reading.Follows move all before) first second)
    (hnext : ∀ value other rest hrest hothers, before value other → rest <:+ all →
      Alike r related (next ⟨value, rest, hrest⟩) (later ⟨other, rest.map move, hothers⟩)) :
    Alike r related (first >>= next) (second >>= later) := by
  refine hfirst.bind fun a b _ hfollows => ?_
  obtain ⟨value, rest, hrest⟩ := a
  obtain ⟨other, _, hothers⟩ := b
  obtain ⟨hvalue, rfl, hsuffix⟩ := hfollows
  exact hnext value other rest hrest hothers hvalue hsuffix

theorem scanning {first : Except CompileError (Scanning α tokens)}
    {second : Except CompileError (Scanning β others)} {next : Scanning α tokens → _}
    {later : Scanning β others → _}
    (hfirst : Alike r (Scanning.Follows move all before) first second)
    (hnext : ∀ value other rest hrest hothers, before value other → rest <:+ all →
      Alike r related (next ⟨value, rest, hrest⟩) (later ⟨other, rest.map move, hothers⟩)) :
    Alike r related (first >>= next) (second >>= later) := by
  refine hfirst.bind fun a b _ hfollows => ?_
  obtain ⟨value, rest, hrest⟩ := a
  obtain ⟨other, _, hothers⟩ := b
  obtain ⟨hvalue, rfl, hsuffix⟩ := hfollows
  exact hnext value other rest hrest hothers hvalue hsuffix

theorem ite {c : Prop} [Decidable c] {first more : Except CompileError γ}
    {second others : Except CompileError δ} (hthen : c → Alike r related first second)
    (helse : ¬c → Alike r related more others) :
    Alike r related (if c then first else more) (if c then second else others) := by
  split
  · next hc => exact hthen hc
  · next hc => exact helse hc

theorem map {first : Except CompileError α} {second : Except CompileError β} {next : α → γ}
    {later : β → δ} (hfirst : Alike r before first second)
    (hnext : ∀ a b, before a b → related (next a) (later b)) :
    Alike r related (first.map next) (second.map later) := by
  cases hfirst with
  | ok hrelated => exact .ok (hnext _ _ hrelated)
  | error error => exact .error error

end Alike

variable (hmoves : r.Moves move)

namespace Reading

variable {tokens : List Token} {stop : Span}

/-! ### Single tokens -/

/-- The reading with its tokens changed. -/
def moved (move : Token → Token) (reading : Reading Token tokens) :
    Reading Token (tokens.map move) :=
  ⟨move reading.value, reading.rest.map move, by simpa using reading.shorter⟩

theorem accept_map {test other : Token → Bool}
    (htest : ∀ token ∈ tokens.head?, other (move token) = test token) :
    accept other (tokens.map move) = (accept test tokens).map (Reading.moved move) := by
  cases tokens with
  | nil => rfl
  | cons token tail =>
    have htoken := htest token rfl
    change accept other (move token :: tail.map move) = _
    cases hpasses : test token with
    | true => simp [accept, htoken, hpasses, Reading.moved]
    | false => simp [accept, htoken, hpasses]

theorem suffix_of_accept {test : Token → Bool} {reading : Reading Token tokens}
    (haccept : accept test tokens = some reading) (htokens : tokens <:+ all) :
    reading.rest <:+ all := by
  obtain ⟨token, rest, hrest⟩ := reading
  obtain ⟨rfl, _⟩ := eq_cons_of_accept haccept
  exact (List.suffix_cons token rest).trans htokens

include hmoves

theorem accept_keyword (word : Keyword) :
    accept (fun token => token.isKeyword word) (tokens.map move) =
      (accept (fun token => token.isKeyword word) tokens).map (Reading.moved move) :=
  accept_map fun token _ => hmoves.isKeyword token word

theorem accept_delimiter (text : String) :
    accept (fun token => token.isDelimiter text) (tokens.map move) =
      (accept (fun token => token.isDelimiter text) tokens).map (Reading.moved move) :=
  accept_map fun token _ => hmoves.isDelimiter token text

theorem accept_operator (text : String) :
    accept (fun token => token.isOperator text) (tokens.map move) =
      (accept (fun token => token.isOperator text) tokens).map (Reading.moved move) :=
  accept_map fun token _ => hmoves.isOperator token text

theorem accept_kind (kind : TokenKind) :
    accept (fun token => token.kind = kind) (tokens.map move) =
      (accept (fun token => token.kind = kind) tokens).map (Reading.moved move) :=
  accept_map fun token _ => by rw [hmoves.kind]

theorem relocate_unexpected (kind : TokenKind) (text : Option String) :
    (unexpected stop tokens kind text).relocate r =
      unexpected (stop.relocate r) (tokens.map move) kind text := by
  cases tokens with
  | nil => rfl
  | cons token tail =>
    simp [unexpected, peek, CompileError.relocate, hmoves.kind, hmoves.span]

theorem relocate_missingExpression :
    (missingExpression stop tokens).relocate r =
      missingExpression (stop.relocate r) (tokens.map move) := by
  cases tokens with
  | nil => rfl
  | cons token tail => simp [missingExpression, peek, CompileError.relocate, hmoves.span]

end Reading

namespace Alike

variable {related : γ → δ → Prop} {tokens : List Token} {stop : Span}

include hmoves

theorem unexpected (kind : TokenKind) (text : Option String) :
    Alike r related (.error (Reading.unexpected stop tokens kind text))
      (.error (Reading.unexpected (stop.relocate r) (tokens.map move) kind text)) :=
  Reading.relocate_unexpected hmoves kind text ▸ .error _

theorem missingExpression :
    Alike r related (.error (Reading.missingExpression stop tokens))
      (.error (Reading.missingExpression (stop.relocate r) (tokens.map move))) :=
  Reading.relocate_missingExpression hmoves ▸ .error _

end Alike

namespace Reading

variable {tokens : List Token} {stop : Span}

include hmoves

/-- A token that is accepted as something else than a string literal is only put elsewhere. -/
theorem eq_relocate_of_accept {test : Token → Bool} {reading : Reading Token tokens}
    (htest : ∀ token, test token = true → token.kind ≠ .string)
    (haccept : accept test tokens = some reading) :
    move reading.value = reading.value.relocate r := by
  obtain ⟨token, rest, hrest⟩ := reading
  exact hmoves.eq_relocate (htest token (eq_cons_of_accept haccept).2)

theorem alike_keyword (word : Keyword) (htokens : tokens <:+ all) :
    Alike r (Follows move all fun a b => b = a.relocate r) (keyword stop word tokens)
      (keyword (stop.relocate r) word (tokens.map move)) := by
  unfold keyword
  rw [accept_keyword hmoves]
  cases haccept : accept (fun token => token.isKeyword word) tokens with
  | none => exact .unexpected hmoves _ _
  | some reading =>
    have hmoved := eq_relocate_of_accept hmoves (fun _ => Token.kind_ne_of_isKeyword) haccept
    exact .ok ⟨hmoved, rfl, suffix_of_accept haccept htokens⟩

theorem alike_delimiter (text : String) (htokens : tokens <:+ all) :
    Alike r (Follows move all fun a b => b = a.relocate r) (delimiter stop text tokens)
      (delimiter (stop.relocate r) text (tokens.map move)) := by
  unfold delimiter
  rw [accept_delimiter hmoves]
  cases haccept : accept (fun token => token.isDelimiter text) tokens with
  | none => exact .unexpected hmoves _ _
  | some reading =>
    have hmoved := eq_relocate_of_accept hmoves (fun _ => Token.kind_ne_of_isDelimiter) haccept
    exact .ok ⟨hmoved, rfl, suffix_of_accept haccept htokens⟩

theorem alike_identifier (htokens : tokens <:+ all) :
    Alike r (Follows move all fun a b => b = a.relocate r) (identifier stop tokens)
      (identifier (stop.relocate r) (tokens.map move)) := by
  unfold identifier ofKind
  rw [accept_kind hmoves]
  cases haccept : accept (fun token => token.kind = .identifier) tokens with
  | none => exact .unexpected hmoves _ _
  | some reading =>
    have hmoved := eq_relocate_of_accept hmoves
      (fun _ hkind => by simp [of_decide_eq_true hkind]) haccept
    refine .ok ⟨?_, rfl, suffix_of_accept haccept htokens⟩
    show Identifier.mk (move reading.value).text (move reading.value).span = _
    rw [hmoved]
    rfl

/-! ### Rows -/

theorem alike_identifiersBy {separator : Token → Bool}
    (hseparator : ∀ token : Token, separator (move token) = separator token)
    (tokens : List Token) (htokens : tokens <:+ all) :
    Alike r (Follows move all fun a b =>
        b = Prod.map (Identifier.relocate r) (List.map (Identifier.relocate r)) a)
      (identifiersBy stop separator tokens)
      (identifiersBy (stop.relocate r) separator (tokens.map move)) := by
  rw [identifiersBy, identifiersBy]
  refine (alike_identifier hmoves htokens).reading fun first _ afterFirst _ _ hfirst hafter => ?_
  subst hfirst
  dsimp only
  rw [accept_map fun token _ => hseparator token]
  cases haccept : accept separator afterFirst with
  | none => exact .ok ⟨rfl, rfl, hafter⟩
  | some reading =>
    obtain ⟨token, afterSeparator, hshort⟩ := reading
    have hbehind := suffix_of_accept haccept hafter
    refine (alike_identifiersBy hseparator afterSeparator hbehind).reading
      fun names _ rest _ _ hnames hrest => ?_
    subst hnames
    obtain ⟨second, more⟩ := names
    exact .ok ⟨rfl, rfl, hrest⟩
termination_by tokens.length

/-- Items are read alike if each of them is. -/
theorem alike_itemsUntil {close : String} {bound limit : Nat} {related : α → β → Prop}
    {item : (tokens : List Token) → tokens.length ≤ bound → Except CompileError (Reading α tokens)}
    {other : (tokens : List Token) → tokens.length ≤ limit → Except CompileError (Reading β tokens)}
    (hitem : ∀ tokens hbound hlimit, tokens <:+ all → Alike r (Follows move all related)
      (item tokens hbound) (other (tokens.map move) hlimit))
    (isFirst : Bool) (tokens : List Token) (hbound : tokens.length ≤ bound)
    (hlimit : (tokens.map move).length ≤ limit) (htokens : tokens <:+ all) :
    Alike r (Follows move all fun a b => List.Forall₂ related a.1 b.1 ∧ b.2 = a.2.relocate r)
      (itemsUntil stop close bound item isFirst tokens hbound)
      (itemsUntil (stop.relocate r) close limit other isFirst (tokens.map move) hlimit) := by
  rw [itemsUntil, itemsUntil]
  rw [accept_delimiter hmoves]
  cases haccept : accept (fun token => token.isDelimiter close) tokens with
  | some reading =>
    have hmoved := eq_relocate_of_accept hmoves (fun _ => Token.kind_ne_of_isDelimiter) haccept
    exact .ok ⟨⟨.nil, hmoved⟩, rfl, suffix_of_accept haccept htokens⟩
  | none =>
    have hcomma : Alike r (Scanning.Follows move all fun _ _ => True)
        (show Except CompileError (Scanning Unit tokens) from
          if isFirst then .ok ⟨(), tokens, Nat.le_refl _⟩
          else (delimiter stop "," tokens).map fun r => ⟨(), r.rest, Nat.le_of_lt r.shorter⟩)
        (show Except CompileError (Scanning Unit (tokens.map move)) from
          if isFirst then .ok ⟨(), tokens.map move, Nat.le_refl _⟩
          else (delimiter (stop.relocate r) "," (tokens.map move)).map
            fun r => ⟨(), r.rest, Nat.le_of_lt r.shorter⟩) := by
      cases isFirst with
      | true => exact .ok ⟨trivial, rfl, htokens⟩
      | false =>
        exact (alike_delimiter hmoves "," htokens).map fun _ _ hfollows =>
          ⟨trivial, hfollows.rest, hfollows.suffix⟩
    refine hcomma.scanning fun _ _ beforeItem hbefore _ _ hitems => ?_
    refine (hitem beforeItem _ _ hitems).reading fun _ _ afterItem hafter _ hfirst hmore => ?_
    refine (alike_itemsUntil hitem false afterItem _ _ hmore).reading
      fun _ _ rest _ _ hrow hrest => ?_
    exact .ok ⟨⟨.cons hfirst hrow.1, hrow.2⟩, rfl, hrest⟩
termination_by tokens.length

theorem alike_parameters (htokens : tokens <:+ all) :
    Alike r (Follows move all fun a b => b = a.map (Identifier.relocate r))
      (parameters stop tokens) (parameters (stop.relocate r) (tokens.map move)) := by
  unfold parameters
  refine (alike_delimiter hmoves "(" htokens).reading fun _ _ inside _ _ _ hinside => ?_
  refine (alike_itemsUntil hmoves (fun _ _ _ htokens => alike_identifier hmoves htokens) true inside
    _ _ hinside).reading fun _ _ rest _ _ hnames hrest => ?_
  refine .ok ⟨?_, rfl, hrest⟩
  exact List.forall₂_eq_eq_eq ▸ List.forall₂_map_right_iff.mpr hnames.1.flip

theorem alike_lambdaParameters (tokens : List Token) (htokens : tokens <:+ all) :
    Alike r (Follows move all fun a b => b = a.map (Identifier.relocate r))
      (lambdaParameters stop tokens) (lambdaParameters (stop.relocate r) (tokens.map move)) := by
  rw [lambdaParameters, lambdaParameters]
  refine (alike_identifier hmoves htokens).reading fun first _ afterFirst _ _ hfirst hafter => ?_
  subst hfirst
  dsimp only
  rw [accept_keyword hmoves, Option.isSome_map]
  split
  · exact .ok ⟨rfl, rfl, hafter⟩
  · refine (alike_delimiter hmoves "," hafter).reading fun _ _ afterComma _ _ _ hcomma => ?_
    refine (alike_lambdaParameters afterComma hcomma).reading fun more _ rest _ _ hmore hrest => ?_
    subst hmore
    exact .ok ⟨rfl, rfl, hrest⟩
termination_by tokens.length

omit hmoves in
/-- The last token that was read is the same one changed. -/
theorem lastRead_map (before : Token) (tokens rest : List Token) :
    lastRead (move before) (tokens.map move) (rest.map move) =
      move (lastRead before tokens rest) := by
  unfold lastRead
  rw [List.length_map, List.length_map, ← List.map_take, List.getLast?_map]
  cases (tokens.take (tokens.length - rest.length)).getLast? <;> rfl

end Reading

namespace Parser

open Reading

variable {tokens : List Token} {stop start : Span}

/-! ### Declarations without expressions -/

section

include hmoves

theorem alike_hostDecl (htokens : tokens <:+ all) :
    Alike r (Reading.Follows move all fun a b => b = a.relocate r) (hostDecl stop start tokens)
      (hostDecl (stop.relocate r) (start.relocate r) (tokens.map move)) := by
  unfold hostDecl
  rw [accept_keyword hmoves]
  cases haccept : accept (fun token => token.isKeyword .classWord) tokens with
  | none =>
    refine (alike_identifier hmoves htokens).reading fun name _ rest _ _ hname hrest => ?_
    subst hname
    exact .ok ⟨rfl, rfl, hrest⟩
  | some reading =>
    obtain ⟨word, afterClass, _⟩ := reading
    refine (alike_identifier hmoves (suffix_of_accept haccept htokens)).reading
      fun name _ rest _ _ hname hrest => ?_
    subst hname
    exact .ok ⟨rfl, rfl, hrest⟩

theorem alike_dottedPath (htokens : tokens <:+ all) :
    Alike r (Reading.Follows move all fun a b =>
        b = Prod.map (Identifier.relocate r) (List.map (Identifier.relocate r)) a)
      (dottedPath stop tokens) (dottedPath (stop.relocate r) (tokens.map move)) :=
  alike_identifiersBy hmoves (fun token => hmoves.isOperator token ".") tokens htokens

theorem alike_importModule (htokens : tokens <:+ all) :
    Alike r (Reading.Follows move all fun a b => b = a.relocate r) (importModule stop start tokens)
      (importModule (stop.relocate r) (start.relocate r) (tokens.map move)) := by
  refine (alike_dottedPath hmoves htokens).reading fun path _ rest _ _ hpath hrest => ?_
  obtain ⟨first, more⟩ := path
  subst hpath
  refine .ok ⟨?_, rfl, hrest⟩
  simp [Statement.relocate]

theorem alike_importExports (htokens : tokens <:+ all) :
    Alike r (Reading.Follows move all fun a b => b = a.relocate r) (importExports stop start tokens)
      (importExports (stop.relocate r) (start.relocate r) (tokens.map move)) := by
  refine (alike_dottedPath hmoves htokens).reading
    fun path _ afterPath _ _ hpath hafter => ?_
  obtain ⟨segment, segments⟩ := path
  subst hpath
  refine (alike_keyword hmoves .importWord hafter).reading fun _ _ afterWord _ _ _ hword => ?_
  dsimp only
  rw [accept_keyword hmoves]
  cases haccept : accept (fun token => token.isKeyword .defaultWord) afterWord with
  | some reading =>
    obtain ⟨word, afterDefault, _⟩ := reading
    refine (alike_identifier hmoves (suffix_of_accept haccept hword)).reading
      fun name _ rest _ _ hname hrest => ?_
    subst hname
    exact .ok ⟨rfl, rfl, hrest⟩
  | none =>
    refine (alike_identifiersBy hmoves (fun token => hmoves.isDelimiter token ",") afterWord
      hword).reading fun row _ rest _ _ hnames hrest => ?_
    obtain ⟨name, names⟩ := row
    subst hnames
    refine .ok ⟨?_, rfl, hrest⟩
    simp [Statement.relocate]

theorem alike_methodName (htokens : tokens <:+ all) :
    Alike r (Reading.Follows move all fun a b => b = a.relocate r) (methodName stop tokens)
      (methodName (stop.relocate r) (tokens.map move)) := by
  unfold methodName
  rw [accept_kind hmoves]
  cases haccept : accept (fun token => token.kind = .operator) tokens with
  | some reading =>
    have hmoved := eq_relocate_of_accept hmoves
      (fun _ hkind => by simp [of_decide_eq_true hkind]) haccept
    have hsuffix := suffix_of_accept haccept htokens
    dsimp only [Option.map_some, Reading.moved]
    rw [hmoved]
    dsimp only [Token.text_relocate]
    split
    · exact .unexpected hmoves _ _
    · exact .unexpected hmoves _ _
    · exact .ok ⟨rfl, rfl, hsuffix⟩
  | none =>
    refine (alike_identifier hmoves htokens).reading fun name _ rest _ _ hname hrest => ?_
    subst hname
    exact .ok ⟨rfl, rfl, hrest⟩

/-- Only a key that is a string literal may be another text. -/
theorem alike_fieldKey (htokens : tokens <:+ all) :
    Alike r (Reading.Follows move all fun a b => ∃ token, a = token.text ∧ b = (move token).text)
      (fieldKey stop tokens) (fieldKey (stop.relocate r) (tokens.map move)) := by
  unfold fieldKey
  rw [accept_kind hmoves]
  refine Alike.reading (?_ : Alike r (Reading.Follows move all fun a b => b = move a) _ _)
    fun key _ afterKey _ _ hkey hafter => (alike_delimiter hmoves ":" hafter).reading
      fun _ _ rest _ _ _ hrest => ?_
  · cases haccept : accept (fun token => token.kind = .string) tokens with
    | some reading => exact .ok ⟨rfl, rfl, suffix_of_accept haccept htokens⟩
    | none =>
      unfold ofKind
      rw [accept_kind hmoves]
      cases haccept : accept (fun token => token.kind = .identifier) tokens with
      | none => exact .unexpected hmoves _ _
      | some reading => exact .ok ⟨rfl, rfl, suffix_of_accept haccept htokens⟩
  · subst hkey
    exact .ok ⟨⟨key, rfl, rfl⟩, rfl, hrest⟩

end

end Parser

end KaLang
