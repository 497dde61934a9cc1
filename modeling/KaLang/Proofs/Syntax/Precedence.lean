import KaLang.Proofs.Syntax.Complete

/-!
How operators group their operands. A chain of operands with operators between them is one binary
tree alone in which the operators below a node bind as tightly as the powers say
(`OperatorTree.Balanced`), and it is the one that the parser gives back.
-/

namespace KaLang

/-! ### Operands -/

/-- What goes on with an owner: the name of a property, a computed key or arguments. -/
inductive PostfixStep where
  | property (key : Identifier)
  | computed (key : Expression)
  | call (args : List Expression) (close : Span)

/-- The owner with the step behind it. -/
def PostfixStep.apply (owner : Expression) : PostfixStep → Expression
  | property key => .property owner key (owner.span.through key.span)
  | computed key => .binary owner .member key (owner.span.through key.span)
  | call args close => .call owner args (owner.span.through close)

/-- A sign in front of an operand, and where it is written. -/
structure PrefixSign where
  op : UnaryOperator
  span : Span

/-- The inner operand with the sign in front of it. -/
def PrefixSign.apply (sign : PrefixSign) (inner : Expression) : Expression :=
  .unary sign.op inner (sign.span.through inner.span)

/-- Signs, what stands behind them, and the steps that go on with it. -/
structure Operand where
  signs : List PrefixSign
  primary : Expression
  steps : List PostfixStep

/-- The steps are taken one after the other, and the signs are put in front of all of them, the
    last one first. -/
def Operand.value (operand : Operand) : Expression :=
  operand.signs.foldr PrefixSign.apply (operand.steps.foldl PostfixStep.apply operand.primary)

/-- Whether things stand in a row at the head of a list of tokens, with some tokens left, where one
    thing is told by `stands`. -/
inductive Row {α : Type} (stands : α → List Token → List Token → Prop) :
    List α → List Token → List Token → Prop where
  | nil {tokens : List Token} : Row stands [] tokens tokens
  | cons {first : α} {more : List α} {tokens middle rest : List Token}
      (hfirst : stands first tokens middle) (hmore : Row stands more middle rest) :
      Row stands (first :: more) tokens rest

theorem Row.append {α : Type} {stands : α → List Token → List Token → Prop} {before behind : List α}
    {tokens rest : List Token} (hrow : Row stands (before ++ behind) tokens rest) :
    ∃ middle, Row stands before tokens middle ∧ Row stands behind middle rest := by
  induction before generalizing tokens with
  | nil => exact ⟨tokens, .nil, hrow⟩
  | cons first more ih =>
    obtain _ | ⟨hfirst, hmore⟩ := hrow
    obtain ⟨middle, hbefore, hbehind⟩ := ih hmore
    exact ⟨middle, .cons hfirst hbefore, hbehind⟩

/-- Whether a sign is the next token. -/
inductive PrefixSign.Stands : PrefixSign → List Token → List Token → Prop where
  | mk {op : UnaryOperator} {token : Token} {rest : List Token} (hkind : token.kind = .operator)
      (hop : UnaryOperator.ofText? token.text = some op) :
      Stands ⟨op, token.span⟩ (token :: rest) rest

/-- Whether a step stands at the head of a list of tokens. -/
inductive PostfixStep.Stands (stop : Span) : PostfixStep → List Token → List Token → Prop where
  | property {point name : Token} {rest : List Token} (hpoint : point.isOperator "." = true)
      (hname : name.kind = .identifier) :
      Stands stop (.property ⟨name.text, name.span⟩) (point :: name :: rest) rest
  | computed {point opening close : Token} {key : Expression} {tail rest : List Token}
      (hpoint : point.isOperator "." = true) (hopening : opening.isDelimiter "(" = true)
      (hkey : Reads stop (.expression key) tail (close :: rest))
      (hclose : close.isDelimiter ")" = true) :
      Stands stop (.computed key) (point :: opening :: tail) rest
  | call {opening close : Token} {args : List Expression} {tail rest : List Token}
      (hopening : opening.isDelimiter "(" = true)
      (hargs : Reads stop (.items ")" true args close) tail rest) :
      Stands stop (.call args close.span) (opening :: tail) rest

/-- Whether an operand stands at the head of a list of tokens. What stands behind the signs starts
    with no sign itself: it is a literal, a name, an array, an object, an expression in parentheses,
    a lambda or a construction. -/
def Operand.Stands (stop : Span) (operand : Operand) (tokens rest : List Token) : Prop :=
  ∃ inside behind, Row PrefixSign.Stands operand.signs tokens inside ∧
    (∀ token ∈ inside.head?, token.kind ≠ .operator) ∧
    Reads stop (.primary operand.primary) inside behind ∧
    Row (PostfixStep.Stands stop) operand.steps behind rest

/-- Whether a sign between operands and the operand behind it stand at the head of a list of
    tokens. -/
inductive Operand.StandsBehind (stop : Span) :
    BinaryOperator × Operand → List Token → List Token → Prop where
  | mk {op : BinaryOperator} {operand : Operand} {token : Token} {tail rest : List Token}
      (htoken : token.isOperator op.text = true) (hmember : op ≠ .member)
      (hoperand : operand.Stands stop tail rest) :
      StandsBehind stop (op, operand) (token :: tail) rest

/-! ### Operator trees -/

/-- Operands joined by operators. -/
inductive OperatorTree where
  | leaf (operand : Operand)
  | node (left : OperatorTree) (op : BinaryOperator) (right : OperatorTree)

namespace OperatorTree

/-- The expression that the tree stands for. -/
def value : OperatorTree → Expression
  | leaf operand => operand.value
  | node left op right =>
    .binary left.value op right.value (left.value.span.through right.value.span)

/-- The operand in front of all others. -/
def first : OperatorTree → Operand
  | leaf operand => operand
  | node left _ _ => left.first

/-- The other operands in order, each behind its operator. -/
def others : OperatorTree → List (BinaryOperator × Operand)
  | leaf _ => []
  | node left op right => left.others ++ (op, right.first) :: right.others

/-- Whether the tree is an operand, or its operator binds with at least some power. -/
def AtLeast (least : Nat) : OperatorTree → Prop
  | leaf _ => True
  | node _ op _ => least ≤ op.power

/-- Whether the operators below each node bind as tightly as that of the node, and those on its
    right more tightly. -/
def Balanced : OperatorTree → Prop
  | leaf _ => True
  | node left op right =>
    left.Balanced ∧ right.Balanced ∧ left.AtLeast op.power ∧ right.AtLeast (op.power + 1)

/-- The tree with one more operand behind it. -/
def push (op : BinaryOperator) (operand : Operand) : OperatorTree → OperatorTree
  | leaf other => node (leaf other) op (leaf operand)
  | node left root right =>
    if op.power ≤ root.power then node (node left root right) op (leaf operand)
    else node left root (right.push op operand)

/-- The tree with more operands behind it. -/
def pushAll (tree : OperatorTree) (more : List (BinaryOperator × Operand)) : OperatorTree :=
  more.foldl (fun tree entry => tree.push entry.1 entry.2) tree

variable {tree left right : OperatorTree} {op : BinaryOperator} {operand : Operand} {least : Nat}

@[simp] theorem first_push : (tree.push op operand).first = tree.first := by
  induction tree with
  | leaf => rfl
  | node left root right _ ih =>
    unfold push
    split <;> rfl

@[simp] theorem others_push : (tree.push op operand).others = tree.others ++ [(op, operand)] := by
  induction tree with
  | leaf => rfl
  | node left root right _ ih =>
    unfold push
    split
    · rfl
    · simp [others, ih]

theorem AtLeast.mono {more : Nat} (htree : tree.AtLeast more) (hleast : least ≤ more) :
    tree.AtLeast least := by
  cases tree with
  | leaf => trivial
  | node => exact Nat.le_trans hleast htree

theorem AtLeast.push (htree : tree.AtLeast least) (hop : least ≤ op.power) :
    (tree.push op operand).AtLeast least := by
  cases tree with
  | leaf => exact hop
  | node left root right =>
    unfold OperatorTree.push
    split
    · exact hop
    · exact htree

theorem Balanced.push (htree : tree.Balanced) : (tree.push op operand).Balanced := by
  induction tree with
  | leaf => exact ⟨trivial, trivial, trivial, trivial⟩
  | node left root right _ ih =>
    unfold OperatorTree.push
    split
    · next hle => exact ⟨htree, trivial, hle, trivial⟩
    · next hlt =>
      obtain ⟨hleft, hright, hleast, hmore⟩ := htree
      exact ⟨hleft, ih hright, hleast, hmore.push (by omega)⟩

@[simp] theorem first_pushAll (more : List (BinaryOperator × Operand)) :
    (tree.pushAll more).first = tree.first := by
  induction more generalizing tree with
  | nil => rfl
  | cons entry more ih => exact ih.trans first_push

@[simp] theorem others_pushAll (more : List (BinaryOperator × Operand)) :
    (tree.pushAll more).others = tree.others ++ more := by
  induction more generalizing tree with
  | nil => simp [pushAll]
  | cons entry more ih =>
    calc ((tree.push entry.1 entry.2).pushAll more).others
        = (tree.push entry.1 entry.2).others ++ more := ih
      _ = tree.others ++ entry :: more := by simp

theorem Balanced.pushAll (htree : tree.Balanced) (more : List (BinaryOperator × Operand)) :
    (tree.pushAll more).Balanced := by
  induction more generalizing tree with
  | nil => exact htree
  | cons entry more ih => exact ih htree.push

/-- An operator that binds no more tightly than the tree goes on top of it. -/
theorem AtLeast.push_eq (htree : tree.AtLeast op.power) :
    tree.push op operand = node tree op (leaf operand) := by
  cases tree with
  | leaf => rfl
  | node left root right => exact if_pos htree

/-- Operators that bind more tightly than the root go to its right. -/
theorem pushAll_node {more : List (BinaryOperator × Operand)}
    (hmore : ∀ entry ∈ more, op.power < entry.1.power) :
    (node left op right).pushAll more = node left op (right.pushAll more) := by
  induction more generalizing right with
  | nil => rfl
  | cons entry more ih =>
    have hentry : (node left op right).push entry.1 entry.2 =
        node left op (right.push entry.1 entry.2) :=
      if_neg (Nat.not_le.mpr (hmore entry (by simp)))
    have hrest : ∀ entry ∈ more, op.power < entry.1.power :=
      fun entry hentry => hmore entry (by simp [hentry])
    calc (node left op right).pushAll (entry :: more)
        = (node left op (right.push entry.1 entry.2)).pushAll more := by
          rw [← hentry]
          rfl
      _ = node left op ((right.push entry.1 entry.2).pushAll more) := ih hrest

/-- Every operator of a balanced tree binds at least as tightly as its root. -/
theorem Balanced.le_power_of_mem_others (htree : tree.Balanced) (hleast : tree.AtLeast least) :
    ∀ entry ∈ tree.others, least ≤ entry.1.power := by
  induction tree generalizing least with
  | leaf => simp [others]
  | node left root right ihleft ihright =>
    obtain ⟨hleft, hright, hroot, hmore⟩ := htree
    intro entry hentry
    have hentry : entry ∈ left.others ∨ entry = (root, right.first) ∨ entry ∈ right.others := by
      simpa [others] using hentry
    rcases hentry with hentry | rfl | hentry
    · exact ihleft hleft (hroot.mono hleast) entry hentry
    · exact hleast
    · exact ihright hright (hmore.mono (Nat.le_succ_of_le hleast)) entry hentry

/-- A balanced tree is what its operands make up one after the other. -/
theorem Balanced.pushAll_others (htree : tree.Balanced) :
    (leaf tree.first).pushAll tree.others = tree := by
  induction tree with
  | leaf => rfl
  | node left op right ihleft ihright =>
    obtain ⟨hleft, hright, hroot, hmore⟩ := htree
    have hpowers : ∀ entry ∈ right.others, op.power < entry.1.power :=
      hright.le_power_of_mem_others hmore
    calc (leaf left.first).pushAll (left.others ++ (op, right.first) :: right.others)
        = (((leaf left.first).pushAll left.others).push op right.first).pushAll right.others := by
          exact List.foldl_append
      _ = (left.push op right.first).pushAll right.others := by rw [ihleft hleft]
      _ = (node left op (leaf right.first)).pushAll right.others := by rw [hroot.push_eq]
      _ = node left op ((leaf right.first).pushAll right.others) := pushAll_node hpowers
      _ = node left op right := by rw [ihright hright]

/-- Balanced trees with the same operands and operators in the same order are the same. -/
theorem Balanced.eq_of_others_eq {other : OperatorTree} (htree : tree.Balanced)
    (hother : other.Balanced) (hfirst : other.first = tree.first)
    (hothers : other.others = tree.others) : other = tree := by
  rw [← hother.pushAll_others, hfirst, hothers, htree.pushAll_others]

end OperatorTree

/-! ### Reading a chain -/

/-- Whether nothing ahead binds with some power or more. -/
def EndsBelow (power : Nat) (tokens : List Token) : Prop :=
  ∀ token ∈ tokens.head?, ∀ binding ∈ token.binding?, binding.power < power

theorem EndsBelow.mono {power more : Nat} {tokens : List Token} (hend : EndsBelow power tokens)
    (hmore : power ≤ more) : EndsBelow more tokens :=
  fun token htoken binding hbinding => Nat.lt_of_lt_of_le (hend token htoken binding hbinding) hmore

/-- Whether what stands ahead neither goes on with an expression nor assigns to it. -/
def EndsExpression (tokens : List Token) : Prop :=
  ∀ token ∈ tokens.head?, token.binding? = none ∧ token.isAssignment = false

theorem EndsExpression.endsBelow {tokens : List Token} (hend : EndsExpression tokens)
    (power : Nat) : EndsBelow power tokens := by
  intro token htoken binding hbinding
  rw [(hend token htoken).1] at hbinding
  cases hbinding

theorem EndsExpression.accept_eq_none {tokens : List Token} (hend : EndsExpression tokens)
    (isAssignable : Bool) :
    Reading.accept (fun token => token.isAssignment && isAssignable) tokens = none :=
  Reading.accept_eq_none fun token htoken => by simp [(hend token htoken).2]

theorem BinaryOperator.power_lt_callPower {op : BinaryOperator} (hmember : op ≠ .member) :
    op.power < callPower := by
  cases op <;> first | decide | exact absurd rfl hmember

theorem Expression.join_of_ne {op : BinaryOperator} (hmember : op ≠ .member)
    {left right : Expression} {inParentheses : Bool} :
    left.join op right inParentheses =
      .binary left op right (left.span.through right.span) := by
  unfold join
  split
  · exact absurd rfl hmember
  · rfl

theorem Token.binding?_of_isOperator {token : Token} {op : BinaryOperator}
    (htoken : token.isOperator op.text = true) : token.binding? = some (.binary op) := by
  obtain ⟨hkind, htext⟩ : token.kind = .operator ∧ token.text = op.text := by
    simpa [isOperator] using htoken
  simp [binding?, hkind, htext, BinaryOperator.ofText?_text]

theorem Token.binding?_of_isDelimiter {token : Token} (htoken : token.isDelimiter "(" = true) :
    token.binding? = some .call := by
  obtain ⟨hkind, -⟩ := spec_of_isDelimiter htoken
  simp [binding?, hkind, htoken]

section Chain

variable {stop : Span} {tokens middle rest : List Token} {owner whole : Expression} {least : Nat}

/-- Whoever goes on behind a step goes on at the step: a step binds at least as tightly as a
    call. -/
theorem PostfixStep.Stands.reads {step : PostfixStep} (hstep : step.Stands stop tokens middle)
    (hleast : least ≤ callPower) (hwhole : Reads stop (.onwards (step.apply owner) least whole)
      middle rest) : Reads stop (.onwards owner least whole) tokens rest := by
  have hmember : least ≤ BinaryOperator.member.power := Nat.le_trans hleast (by decide)
  -- Nothing binds as tightly as the right operand of a point asks for.
  have hright {operand : Expression} {tokens : List Token} :
      Reads stop (.onwards operand (BinaryOperator.member.power + 1) operand) tokens tokens := by
    refine .enough fun token _ binding _ => ?_
    rcases binding with _ | op
    · decide
    · cases op <;> decide
  have hpoint {point : Token} (hpoint : point.isOperator "." = true) :
      point.binding? = some (.binary .member) := Token.binding?_of_isOperator hpoint
  cases hstep with
  | @property point name _ hdot hname =>
    have hplain : name.isDelimiter "(" = false := by simp [Token.isDelimiter, hname]
    refine .binary (hpoint hdot) hmember (.name hname) hright ?_
    simp only [Reading.accept, hplain]
    exact hwhole
  | computed hdot hopening hkey hclose =>
    refine .binary (hpoint hdot) hmember (.parentheses hopening hkey hclose) hright ?_
    simp only [Reading.accept, hopening]
    exact hwhole
  | call hopening hargs =>
    exact .call (Token.binding?_of_isDelimiter hopening) hleast hargs hwhole

theorem Row.reads_steps {steps : List PostfixStep}
    (hsteps : Row (PostfixStep.Stands stop) steps tokens middle) (hleast : least ≤ callPower)
    (hwhole : Reads stop (.onwards (steps.foldl PostfixStep.apply owner) least whole)
      middle rest) : Reads stop (.onwards owner least whole) tokens rest := by
  induction hsteps generalizing owner with
  | nil => exact hwhole
  | cons hfirst _ ih => exact hfirst.reads hleast (ih hwhole)

/-- Each sign reads what stands behind it up to the end of the operand. -/
theorem Row.reads_signs {signs : List PrefixSign} {inside behind : List Token}
    {first operand : Expression} (hsigns : Row PrefixSign.Stands signs tokens inside)
    (hend : EndsBelow callPower rest) (hfirst : Reads stop (.primary first) inside behind)
    (hoperand : Reads stop (.onwards first callPower operand) behind rest) :
    ∃ first behind, Reads stop (.primary first) tokens behind ∧
      Reads stop (.onwards first callPower (signs.foldr PrefixSign.apply operand)) behind rest := by
  induction hsigns with
  | nil => exact ⟨first, behind, hfirst, hoperand⟩
  | cons hsign _ ih =>
    obtain ⟨_, _, hinner, hrest⟩ := ih hfirst
    obtain ⟨hkind, hop⟩ := hsign
    exact ⟨_, rest, .unary hkind hop hinner hrest, .enough hend⟩

/-- Whoever goes on behind an operand goes on behind what is read first of it. Behind a sign all
    steps are read at once. -/
theorem Operand.Stands.reads {operand : Operand} (hoperand : operand.Stands stop tokens middle)
    (hend : EndsBelow callPower middle) (hleast : least ≤ callPower)
    (hwhole : Reads stop (.onwards operand.value least whole) middle rest) :
    ∃ first behind, Reads stop (.primary first) tokens behind ∧
      Reads stop (.onwards first least whole) behind rest := by
  obtain ⟨signs, primary, steps⟩ := operand
  obtain ⟨inside, behind, hsigns, -, hprimary, hsteps⟩ := hoperand
  cases hsigns with
  | nil => exact ⟨primary, behind, hprimary, hsteps.reads_steps hleast hwhole⟩
  | cons hsign hmore =>
    have hinner : Reads stop
        (.onwards primary callPower (steps.foldl PostfixStep.apply primary)) behind middle :=
      hsteps.reads_steps (Nat.le_refl _) (.enough hend)
    obtain ⟨_, _, hfirst, hrest⟩ := hmore.reads_signs hend hprimary hinner
    obtain ⟨hkind, hop⟩ := hsign
    exact ⟨_, middle, .unary hkind hop hfirst hrest, hwhole⟩

/-- The operators that may stand behind a tree without taking its last operand. -/
def OperatorTree.reach : OperatorTree → Nat
  | leaf _ => callPower
  | node _ op _ => op.power + 1

/-- What stands in front of a tree goes on at its first operand. -/
theorem OperatorTree.Balanced.reads {tree : OperatorTree} (htree : tree.Balanced)
    (hleast : least ≤ callPower) (hroot : tree.AtLeast least) {behind : List Token}
    (hfirst : tree.first.Stands stop tokens behind)
    (hothers : Row (Operand.StandsBehind stop) tree.others behind middle)
    (hend : EndsBelow tree.reach middle)
    (hwhole : Reads stop (.onwards tree.value least whole) middle rest) :
    ∃ first behind, Reads stop (.primary first) tokens behind ∧
      Reads stop (.onwards first least whole) behind rest := by
  induction tree generalizing least whole tokens behind middle rest with
  | leaf operand =>
    cases hothers
    exact hfirst.reads hend hleast hwhole
  | node left op right ihleft ihright =>
    obtain ⟨hleft, hright, habove, hmore⟩ := htree
    obtain ⟨atSign, hbefore, hbehind⟩ := hothers.append
    obtain _ | ⟨⟨hsign, hmember, hoperand⟩, hrest⟩ := hbehind
    have hpower := BinaryOperator.power_lt_callPower hmember
    have hbinding := Token.binding?_of_isOperator hsign
    -- The right side is read up to the end of the tree.
    have hreach : EndsBelow right.reach middle := by
      apply hend.mono
      cases right with
      | leaf => exact hpower
      | node => exact Nat.le_succ_of_le hmore
    obtain ⟨_, _, hprimary, hinner⟩ :=
      ihright hright hpower hmore hoperand hrest hreach (.enough hend)
    -- The left side goes on at the operator.
    apply ihleft hleft hleast (habove.mono hroot) hfirst hbefore
    · intro token htoken binding hfound
      cases htoken
      obtain rfl := Option.some.inj (hbinding.symm.trans hfound)
      cases left with
      | leaf => exact hpower
      | node => exact Nat.lt_succ_of_le habove
    · refine .binary hbinding hroot hprimary hinner ?_
      rw [Expression.join_of_ne hmember]
      exact hwhole

/-- A chain of operands with operators between them is read as the one balanced tree with these
    operands and operators in this order, as long as what stands behind it neither goes on with an
    expression nor assigns to one. -/
theorem Parser.expression_eq_balanced {operand : Operand} {more : List (BinaryOperator × Operand)}
    (hoperand : operand.Stands stop tokens middle)
    (hmore : Row (Operand.StandsBehind stop) more middle rest)
    (hend : EndsExpression rest) :
    ∃ tree : OperatorTree, (tree.first = operand ∧ tree.others = more ∧ tree.Balanced) ∧
      (∀ other : OperatorTree, other.first = operand → other.others = more → other.Balanced →
        other = tree) ∧
      ∃ hrest, Parser.expression stop tokens = .ok ⟨tree.value, rest, hrest⟩ := by
  have hfirst : ((OperatorTree.leaf operand).pushAll more).first = operand :=
    OperatorTree.first_pushAll more
  have hothers : ((OperatorTree.leaf operand).pushAll more).others = more :=
    OperatorTree.others_pushAll more
  have hleaf : (OperatorTree.leaf operand).Balanced := trivial
  have hbalanced := hleaf.pushAll more
  generalize (OperatorTree.leaf operand).pushAll more = tree at hfirst hothers hbalanced
  refine ⟨tree, ⟨hfirst, hothers, hbalanced⟩, fun other hother hsame htree => ?_, ?_⟩
  · exact hbalanced.eq_of_others_eq htree (hother.trans hfirst.symm) (hsame.trans hothers.symm)
  · subst hfirst hothers
    have hroot : tree.AtLeast 0 := by
      cases tree with
      | leaf => trivial
      | node => exact Nat.zero_le _
    obtain ⟨_, _, hprimary, hwhole⟩ := hbalanced.reads (Nat.zero_le _) hroot hoperand hmore
      (hend.endsBelow _) (.enough (hend.endsBelow 0))
    exact (Reads.operand hprimary hwhole (hend.accept_eq_none _)).isRead

end Chain

/-- Below a sum, a sign stands in front of all steps of its operand, and a product groups first:
    `-a.b(c) + d * e`. -/
theorem Parser.expression_eq_balanced_signed :
    let span : Span := .point .zero
    let sign (text : String) : Token := ⟨.operator, text, span⟩
    let name (text : String) : Token := ⟨.identifier, text, span⟩
    let delimiter (text : String) : Token := ⟨.delimiter, text, span⟩
    let plain (text : String) : Operand := ⟨[], .name text span, []⟩
    let signed : Operand := ⟨[⟨.minus, span⟩], .name "a" span,
      [.property ⟨"b", span⟩, .call [.name "c" span] span]⟩
    ∃ hrest, Parser.expression span
        [sign "-", name "a", sign ".", name "b", delimiter "(", name "c", delimiter ")", sign "+",
          name "d", sign "*", name "e"] =
      .ok ⟨(OperatorTree.node (.leaf signed) .add
        (.node (.leaf (plain "d")) .mul (.leaf (plain "e")))).value, [], hrest⟩ := by
  intro span sign name delimiter plain signed
  have hname (text : String) (tail : List Token) : Reads span
      (.primary (.name (name text).text (name text).span)) (name text :: tail) tail := .name rfl
  have hcall (tail : List Token) : PostfixStep.Stands span
      (.call [.name "c" span] (delimiter ")").span)
      (delimiter "(" :: name "c" :: delimiter ")" :: tail) tail := by
    refine .call rfl (.firstItem (.operand (hname "c" _) (.enough ?_) rfl) (.lastItem rfl))
    intro token htoken binding hbinding
    cases htoken
    cases hbinding
  have hproperty (tail : List Token) : PostfixStep.Stands span
      (.property ⟨(name "b").text, (name "b").span⟩) (sign "." :: name "b" :: tail) tail :=
    .property rfl rfl
  have hsigned (tail : List Token) : signed.Stands span
      (sign "-" :: name "a" :: sign "." :: name "b" :: delimiter "(" :: name "c" ::
        delimiter ")" :: tail) tail := by
    have hminus (tail : List Token) :
        PrefixSign.Stands ⟨.minus, (sign "-").span⟩ (sign "-" :: tail) tail := .mk rfl rfl
    refine ⟨_, _, .cons (hminus _) .nil, by simp [name], hname "a" _, ?_⟩
    exact .cons (hproperty _) (.cons (hcall tail) .nil)
  have hbehind (op : BinaryOperator) (hmember : op ≠ .member) (text : String) (tail : List Token) :
      Operand.StandsBehind span (op, plain text) (sign op.text :: name text :: tail) tail :=
    .mk (by simp [sign, Token.isOperator]) hmember
      ⟨_, _, .nil, by simp [name], hname text tail, .nil⟩
  have hmore : Row (Operand.StandsBehind span) [(.add, plain "d"), (.mul, plain "e")]
      [sign "+", name "d", sign "*", name "e"] [] :=
    .cons (hbehind .add (by decide) "d" _) (.cons (hbehind .mul (by decide) "e" []) .nil)
  obtain ⟨tree, ⟨hfirst, hothers, hbalanced⟩, -, hread⟩ :=
    expression_eq_balanced (hsigned _) hmore (by simp [EndsExpression])
  have hconcrete : (OperatorTree.node (.leaf signed) .add
      (.node (.leaf (plain "d")) .mul (.leaf (plain "e")))).Balanced :=
    ⟨trivial, ⟨trivial, trivial, trivial, trivial⟩, trivial, Nat.le_refl 2⟩
  rw [hconcrete.eq_of_others_eq hbalanced hfirst hothers] at hread
  exact hread

end KaLang
