import KaLang.Syntax.Program
import Mathlib.Data.List.Perm.Subperm

/-!
The nodes of syntax trees and the places they take. A node is tidy if it reaches from the start of a
token to the end of one and its children lie inside it without overlapping (`Node.Tidy`). Readers
put nodes together from portions that stand one behind the other (`Stretch`); a node that reaches
from the first portion to the last one is tidy, and its children are found in their order.
-/

namespace KaLang

namespace Span

/-- Whether the span lies inside another one. -/
def Inside (s outer : Span) : Prop :=
  outer.first.offset ≤ s.first.offset ∧ s.last.offset ≤ outer.last.offset

/-- Whether one span ends in front of another. -/
def Before (a b : Span) : Prop := a.last.offset < b.first.offset

/-- Whether two spans have no offset in common. -/
def Apart (a b : Span) : Prop := a.Before b ∨ b.Before a

theorem Apart.symm {a b : Span} (hapart : a.Apart b) : b.Apart a := Or.symm hapart

section

variable {α : Type} {span : α → Span} {items : List α}

/-- Where each item ends in front of the next ones, none starts in front of the first. -/
theorem first_le_of_row {first : α}
    (hforward : ∀ item ∈ items, (span item).first.offset ≤ (span item).last.offset)
    (hrow : items.Pairwise fun a b => (span a).Before (span b))
    (hfirst : items.head? = some first) :
    ∀ item ∈ items, (span first).first.offset ≤ (span item).first.offset := by
  obtain ⟨more, rfl⟩ := List.head?_eq_some_iff.mp hfirst
  refine List.forall_mem_cons.mpr ⟨Nat.le_refl _, fun item hitem => ?_⟩
  have hbefore := (List.pairwise_cons.mp hrow).1 item hitem
  exact Nat.le_trans (hforward first List.mem_cons_self) (Nat.le_of_lt hbefore)

/-- Nor does any end behind the last. -/
theorem last_le_of_row {last : α}
    (hforward : ∀ item ∈ items, (span item).first.offset ≤ (span item).last.offset)
    (hrow : items.Pairwise fun a b => (span a).Before (span b))
    (hlast : items.getLast? = some last) :
    ∀ item ∈ items, (span item).last.offset ≤ (span last).last.offset := by
  obtain ⟨others, rfl⟩ := List.getLast?_eq_some_iff.mp hlast
  intro item hitem
  rcases List.mem_append.mp hitem with hother | hitem
  · have hbefore := (List.pairwise_append.mp hrow).2.2 item hother last List.mem_cons_self
    exact Nat.le_trans (Nat.le_of_lt hbefore) (hforward last (by simp))
  · obtain rfl := List.mem_singleton.mp hitem
    exact Nat.le_refl _

end

end Span

/-! ### Nodes -/

/-- What takes a place of its own in a syntax tree. -/
inductive Node where
  | statement (value : Statement)
  | expression (value : Expression)
  | block (value : Block)
  | member (value : ClassMember)
  | parameter (value : Identifier)

namespace Node

/-- The text of the node. -/
def span : Node → Span
  | statement value => value.span
  | expression value => value.span
  | block value => value.span
  | member value => value.span
  | parameter value => value.span

/-- The nodes right below a node. The names that are declared, imported or looked up are no nodes,
    save for parameters. -/
def children : Node → List Node
  | statement (.expression value _) => [expression value]
  | statement (.block inner) => [block inner]
  | statement (.condition test thenBranch elseBranch _) =>
    expression test :: block thenBranch :: elseBranch.toList.map statement
  | statement (.forLoop _ iterable body _) => [expression iterable, block body]
  | statement (.whileLoop test body _) => [expression test, block body]
  | statement (.returnValue value _) => value.toList.map expression
  | statement (.functionDecl _ params body _) => params.map parameter ++ [block body]
  | statement (.classDecl _ members _) => members.map member
  | statement (.exportDecl declaration _) => [statement declaration]
  | statement (.guarded inner test _) => [statement inner, expression test]
  | statement (.breakLoop _) | statement (.continueLoop _) | statement (.hostDecl _ _ _)
  | statement (.importDecl _ _ _ _) => []
  | expression (.array items _) => items.map expression
  | expression (.object fields _) => (fields.map Field.value).map expression
  | expression (.property owner _ _) => [expression owner]
  | expression (.assign target _ value _ _) => [expression target, expression value]
  | expression (.binary left _ right _) => [expression left, expression right]
  | expression (.unary _ operand _) => [expression operand]
  | expression (.lambda params body _) => params.map parameter ++ [block body]
  | expression (.call callee arguments _) | expression (.construct callee arguments _) =>
    expression callee :: arguments.map expression
  | expression (.string _ _) | expression (.number _ _) | expression (.name _ _) => []
  | block (.mk body _) => body.map statement
  | member (.field _ value _) => [expression value]
  | member (.method _ params body _) => params.map parameter ++ [block body]
  | parameter _ => []

/-- Whether the node is an object literal. A repeated key keeps the place among the fields that its
    first value had, so the fields need not stand in the order in which they are written. -/
def isObject : Node → Bool
  | expression (.object _ _) => true
  | _ => false

/-- Whether a node is well placed: it starts with a token and ends with one that is no earlier, its
    children lie inside it, and no two of them overlap. -/
structure Tidy (tokens : List Token) (node : Node) : Prop where
  first : ∃ token ∈ tokens, node.span.first = token.span.first
  last : ∃ token ∈ tokens, node.span.last = token.span.last
  forward : node.span.first.offset ≤ node.span.last.offset
  inside : ∀ child ∈ node.children, child.span.Inside node.span
  apart : node.children.Pairwise fun a b => a.span.Apart b.span

/-- Whether a node and all nodes below it are tidy, with the children in the order in which they are
    written. -/
inductive Proper (tokens : List Token) : Node → Prop where
  | mk {node : Node} (htidy : node.Tidy tokens)
      (hrow : node.isObject = false → node.children.Pairwise fun a b => a.span.Before b.span)
      (hchildren : ∀ child ∈ node.children, Proper tokens child) : Proper tokens node

variable {tokens more : List Token} {node : Node}

theorem Tidy.mono (htidy : node.Tidy tokens) (htokens : tokens ⊆ more) : node.Tidy more where
  first := htidy.first.imp fun _ htoken => ⟨htokens htoken.1, htoken.2⟩
  last := htidy.last.imp fun _ htoken => ⟨htokens htoken.1, htoken.2⟩
  forward := htidy.forward
  inside := htidy.inside
  apart := htidy.apart

theorem Proper.mono (hproper : node.Proper tokens) (htokens : tokens ⊆ more) :
    node.Proper more := by
  induction hproper with
  | mk htidy hrow _ ih => exact .mk (htidy.mono htokens) hrow ih

theorem Proper.tidy (hproper : node.Proper tokens) : node.Tidy tokens := by
  cases hproper with
  | mk htidy _ _ => exact htidy

theorem Proper.row (hproper : node.Proper tokens) (hnode : node.isObject = false) :
    node.children.Pairwise fun a b => a.span.Before b.span := by
  cases hproper with
  | mk _ hrow _ => exact hrow hnode

theorem Proper.child {child : Node} (hproper : node.Proper tokens)
    (hchild : child ∈ node.children) : child.Proper tokens := by
  cases hproper with
  | mk _ _ hchildren => exact hchildren child hchild

end Node

/-- Whether a node stands somewhere in a program. -/
inductive Program.Holds (program : Program) : Node → Prop where
  | body {statement : Statement} (hstatement : statement ∈ program.body) :
      program.Holds (.statement statement)
  | child {parent child : Node} (hparent : program.Holds parent)
      (hchild : child ∈ parent.children) : program.Holds child

/-! ### Places between tokens -/

/-- Whether a span reaches from the start of a token to the end of one, where some tokens were read
    off `tokens` and the others, `rest`, are still ahead. -/
structure Span.Between (tokens rest : List Token) (s : Span) : Prop where
  suffix : rest <:+ tokens
  first : ∃ token ∈ tokens, s.first = token.span.first
  last : ∃ token ∈ tokens, s.last = token.span.last
  forward : s.first.offset ≤ s.last.offset
  ahead : ∀ token ∈ rest, s.Before token.span

namespace Span.Between

variable {tokens middle more rest later : List Token} {a b s : Span}

theorem mono (hs : s.Between tokens rest) (htokens : tokens <:+ more) (hrest : later <:+ rest) :
    s.Between more later where
  suffix := hrest.trans (hs.suffix.trans htokens)
  first := hs.first.imp fun _ htoken => ⟨htokens.mem htoken.1, htoken.2⟩
  last := hs.last.imp fun _ htoken => ⟨htokens.mem htoken.1, htoken.2⟩
  forward := hs.forward
  ahead token htoken := hs.ahead token (hrest.mem htoken)

/-- A span read behind one more token. -/
theorem behind {token : Token} (hs : s.Between tokens rest) : s.Between (token :: tokens) rest :=
  hs.mono (List.suffix_cons token tokens) List.suffix_rfl

/-- What is read later stands behind. -/
theorem before (ha : a.Between tokens middle) (hb : b.Between middle rest) : a.Before b := by
  obtain ⟨token, htoken, hfirst⟩ := hb.first
  have hahead := ha.ahead token htoken
  rwa [Before, ← hfirst] at hahead

/-- From the start of one span to the end of another. -/
theorem join (ha : a.Between tokens rest) (hb : b.Between tokens rest)
    (hforward : a.first.offset ≤ b.last.offset) : (a.through b).Between tokens rest where
  suffix := ha.suffix
  first := ha.first
  last := hb.last
  forward := hforward
  ahead := hb.ahead

theorem through (ha : a.Between tokens middle) (hb : b.Between middle rest) :
    (a.through b).Between tokens rest := by
  refine (ha.mono List.suffix_rfl hb.suffix).join (hb.mono ha.suffix List.suffix_rfl) ?_
  have hbefore : a.last.offset < b.first.offset := ha.before hb
  exact Nat.le_trans ha.forward (Nat.le_trans (Nat.le_of_lt hbefore) hb.forward)

end Span.Between

/-- Whether tokens stand one behind the other, and none of them ends before it starts. -/
structure InOrder (tokens : List Token) : Prop where
  forward : ∀ token ∈ tokens, token.span.first.offset ≤ token.span.last.offset
  row : tokens.Pairwise fun a b => a.span.Before b.span

namespace InOrder

variable {tokens used rest : List Token} {token : Token}

theorem of_sublist (htokens : InOrder tokens) (hrest : rest.Sublist tokens) : InOrder rest where
  forward token htoken := htokens.forward token (hrest.subset htoken)
  row := htokens.row.sublist hrest

theorem of_suffix (htokens : InOrder tokens) (hrest : rest <:+ tokens) : InOrder rest :=
  htokens.of_sublist hrest.sublist

theorem tail (htokens : InOrder (token :: rest)) : InOrder rest :=
  htokens.of_suffix (List.suffix_cons token rest)

/-- A token that was read has its place between the tokens it was read off and those ahead. -/
theorem between (htokens : InOrder (used ++ rest)) (htoken : token ∈ used) :
    token.span.Between (used ++ rest) rest where
  suffix := List.suffix_append used rest
  first := ⟨token, List.mem_append_left rest htoken, rfl⟩
  last := ⟨token, List.mem_append_left rest htoken, rfl⟩
  forward := htokens.forward token (List.mem_append_left rest htoken)
  ahead later hlater := (List.pairwise_append.mp htokens.row).2.2 token htoken later hlater

theorem between_head (htokens : InOrder (token :: rest)) :
    token.span.Between (token :: rest) rest :=
  @between [token] rest token htokens List.mem_cons_self

end InOrder

/-! ### Portions one behind the other -/

/-- Whether a node has its place between the tokens it was read off and those ahead, and is tidy all
    the way down. -/
structure Node.Placed (tokens rest : List Token) (node : Node) : Prop where
  between : node.span.Between tokens rest
  proper : node.Proper tokens

/-- What a node is put together from: nodes, and tokens that only mark where it starts or ends. -/
inductive Portion where
  | mark (span : Span)
  | node (inner : Node)

namespace Portion

/-- The text of the portion. -/
def span : Portion → Span
  | mark span => span
  | node inner => inner.span

/-- Whether the portion has its place between the tokens it was read off and those ahead. -/
def Placed (tokens rest : List Token) : Portion → Prop
  | mark span => span.Between tokens rest
  | node inner => inner.Placed tokens rest

end Portion

section

variable {tokens middle more rest later : List Token} {node : Node} {portion : Portion}

theorem Node.Placed.mono (hnode : node.Placed tokens rest) (htokens : tokens <:+ more)
    (hrest : later <:+ rest) : node.Placed more later :=
  ⟨hnode.between.mono htokens hrest, hnode.proper.mono htokens.subset⟩

/-- A node read behind one more token. -/
theorem Node.Placed.behind {token : Token} (hnode : node.Placed tokens rest) :
    node.Placed (token :: tokens) rest :=
  hnode.mono (List.suffix_cons token tokens) List.suffix_rfl

theorem Portion.Placed.between (hportion : portion.Placed tokens rest) :
    portion.span.Between tokens rest := by
  cases portion with
  | mark span => exact hportion
  | node inner => exact Node.Placed.between hportion

theorem Portion.Placed.mono (hportion : portion.Placed tokens rest) (htokens : tokens <:+ more)
    (hrest : later <:+ rest) : portion.Placed more later := by
  cases portion with
  | mark span => exact Span.Between.mono hportion htokens hrest
  | node inner => exact Node.Placed.mono hportion htokens hrest

/-- The children of a node have their places between the same tokens. -/
theorem Node.Placed.child {child : Node} (hnode : node.Placed tokens rest)
    (hchild : child ∈ node.children) : child.Placed tokens rest := by
  have hproper := hnode.proper.child hchild
  have hinside := hnode.proper.tidy.inside child hchild
  refine ⟨⟨hnode.between.suffix, hproper.tidy.first, hproper.tidy.last, hproper.tidy.forward, ?_⟩,
    hproper⟩
  exact fun token htoken => Nat.lt_of_le_of_lt hinside.2 (hnode.between.ahead token htoken)

end

/-- Portions that stand one behind the other between the tokens they were read off and those ahead.
    Between two of them there may be tokens that belong to neither. -/
structure Stretch (tokens rest : List Token) (portions : List Portion) : Prop where
  suffix : rest <:+ tokens
  placed : ∀ portion ∈ portions, portion.Placed tokens rest
  row : portions.Pairwise fun a b => a.span.Before b.span

namespace Stretch

variable {tokens middle more rest later : List Token} {portion first last : Portion}
  {portions others : List Portion}

theorem nil (hsuffix : rest <:+ tokens) : Stretch tokens rest [] := ⟨hsuffix, by simp, .nil⟩

theorem mono (hportions : Stretch tokens rest portions) (htokens : tokens <:+ more)
    (hrest : later <:+ rest) : Stretch more later portions where
  suffix := hrest.trans (hportions.suffix.trans htokens)
  placed portion hportion := (hportions.placed portion hportion).mono htokens hrest
  row := hportions.row

/-- Portions read behind one more token. -/
theorem behind {token : Token} (hportions : Stretch tokens rest portions) :
    Stretch (token :: tokens) rest portions :=
  hportions.mono (List.suffix_cons token tokens) List.suffix_rfl

theorem append (hportions : Stretch tokens middle portions) (hothers : Stretch middle rest others) :
    Stretch tokens rest (portions ++ others) where
  suffix := hothers.suffix.trans hportions.suffix
  placed portion hportion := by
    rcases List.mem_append.mp hportion with hportion | hportion
    · exact (hportions.placed portion hportion).mono List.suffix_rfl hothers.suffix
    · exact (hothers.placed portion hportion).mono hportions.suffix List.suffix_rfl
  row := List.pairwise_append.mpr ⟨hportions.row, hothers.row, fun a ha b hb =>
    (hportions.placed a ha).between.before (hothers.placed b hb).between⟩

theorem single (hportion : portion.Placed tokens rest) : Stretch tokens rest [portion] where
  suffix := hportion.between.suffix
  placed := by simpa using hportion
  row := List.pairwise_singleton _ _

theorem cons (hportion : portion.Placed tokens middle) (hportions : Stretch middle rest portions) :
    Stretch tokens rest (portion :: portions) :=
  (single hportion).append hportions

/-- Parameters and the body behind them. -/
theorem withBody {params : List Identifier} {body : Block}
    (hparams : Stretch tokens middle ((params.map .parameter).map .node))
    (hbody : (Node.block body).Placed middle rest) :
    Stretch tokens rest ((params.map Node.parameter ++ [Node.block body]).map .node) := by
  have hblock : Stretch middle rest [.node (.block body)] := .single hbody
  rw [List.map_append]
  exact hparams.append hblock

theorem between (hportions : Stretch tokens rest portions) (hportion : portion ∈ portions) :
    portion.span.Between tokens rest :=
  (hportions.placed portion hportion).between

theorem first_le (hportions : Stretch tokens rest portions) (hfirst : portions.head? = some first) :
    ∀ portion ∈ portions, first.span.first.offset ≤ portion.span.first.offset :=
  Span.first_le_of_row (fun _ hportion => (hportions.between hportion).forward) hportions.row hfirst

/-- What reaches from the first portion to the last one has its place between the same tokens, and
    all portions lie inside it. -/
theorem ends (hportions : Stretch tokens rest portions) (hfirst : portions.head? = some first)
    (hlast : portions.getLast? = some last) :
    (first.span.through last.span).Between tokens rest ∧
      ∀ portion ∈ portions, portion.span.Inside (first.span.through last.span) := by
  have hfront := hportions.first_le hfirst
  have hback := Span.last_le_of_row (fun _ hportion => (hportions.between hportion).forward)
    hportions.row hlast
  have hstart := hportions.between (List.mem_of_head? hfirst)
  have hend := hportions.between (List.mem_of_getLast? hlast)
  have hforward := Nat.le_trans hstart.forward (hback first (List.mem_of_head? hfirst))
  exact ⟨hstart.join hend hforward, fun portion hportion =>
    ⟨hfront portion hportion, hback portion hportion⟩⟩

end Stretch

namespace Node

variable {tokens inside middle rest : List Token} {node : Node} {portions : List Portion}

/-- A node around portions that are its children, up to order, and perhaps marks. -/
theorem placed_of_inside (hportions : Stretch tokens rest portions)
    (hspan : node.span.Between tokens rest)
    (hinside : ∀ portion ∈ portions, portion.span.Inside node.span)
    (hchildren : (node.children.map Portion.node).Subperm portions)
    (hrow : node.isObject = false → (node.children.map Portion.node).Sublist portions) :
    node.Placed tokens rest := by
  have hplaced : ∀ child ∈ node.children, child.Placed tokens rest := fun child hchild =>
    hportions.placed (.node child) (hchildren.subset (List.mem_map_of_mem hchild))
  have hapart : (node.children.map Portion.node).Pairwise fun a b => a.span.Apart b.span := by
    obtain ⟨found, hperm, hsublist⟩ := hchildren
    have hfound : found.Pairwise fun a b => a.span.Apart b.span :=
      (hportions.row.sublist hsublist).imp fun hbefore => .inl hbefore
    exact (hperm.pairwise_iff fun hab => Span.Apart.symm hab).mp hfound
  refine ⟨hspan, .mk ⟨hspan.first, hspan.last, hspan.forward, fun child hchild => ?_, ?_⟩
    (fun hnode => ?_) fun child hchild => (hplaced child hchild).proper⟩
  · exact hinside (.node child) (hchildren.subset (List.mem_map_of_mem hchild))
  · rwa [List.pairwise_map] at hapart
  · have hbefore := hportions.row.sublist (hrow hnode)
    rwa [List.pairwise_map] at hbefore

/-- A node from the first to the last of its portions. -/
theorem placed_of_ends {first last : Portion} (hportions : Stretch tokens rest portions)
    (hfirst : portions.head? = some first) (hlast : portions.getLast? = some last)
    (hspan : node.span = first.span.through last.span)
    (hchildren : (node.children.map Portion.node).Sublist portions) : node.Placed tokens rest := by
  obtain ⟨hbetween, hinside⟩ := hportions.ends hfirst hlast
  rw [← hspan] at hbetween hinside
  exact placed_of_inside hportions hbetween hinside hchildren.subperm fun _ => hchildren

/-- The children of a node that is no object stand one behind the other. -/
theorem Placed.stretch_children (hnode : node.Placed tokens rest)
    (hobject : node.isObject = false) : Stretch tokens rest (node.children.map .node) where
  suffix := hnode.between.suffix
  placed := by
    intro portion hportion
    obtain ⟨child, hchild, rfl⟩ := List.mem_map.mp hportion
    exact hnode.child hchild
  row := List.pairwise_map.mpr (hnode.proper.row hobject)

/-- A node without children. -/
theorem placed_of_leaf (hspan : node.span.Between tokens rest) (hchildren : node.children = []) :
    node.Placed tokens rest := by
  refine placed_of_inside (.nil hspan.suffix) hspan (by simp) ?_ fun _ => ?_
  · simp [hchildren]
  · simp [hchildren]

/-- A node from its first child to its last one. -/
theorem placed_of_row {first last : Node} (hrow : Stretch tokens rest (node.children.map .node))
    (hfirst : node.children.head? = some first) (hlast : node.children.getLast? = some last)
    (hspan : node.span = first.span.through last.span) : node.Placed tokens rest := by
  have hhead : (node.children.map Portion.node).head? = some (.node first) := by
    simp [List.head?_map, hfirst]
  have hend : (node.children.map Portion.node).getLast? = some (.node last) := by
    simp [List.getLast?_map, hlast]
  exact placed_of_ends hrow hhead hend hspan (.refl _)

/-- A node from its opening token to its last child. -/
theorem placed_of_opened {start : Span} {last : Node} (hstart : start.Between tokens middle)
    (hrow : Stretch middle rest (node.children.map .node))
    (hlast : node.children.getLast? = some last) (hspan : node.span = start.through last.span) :
    node.Placed tokens rest := by
  have hportions : Stretch tokens rest (.mark start :: node.children.map .node) := .cons hstart hrow
  have hend : (Portion.mark start :: node.children.map .node).getLast? = some (.node last) := by
    simp [List.getLast?_cons, List.getLast?_map, hlast]
  exact placed_of_ends hportions rfl hend hspan (List.sublist_cons_self _ _)

/-- A node from its first child to its closing token. -/
theorem placed_of_closed {close : Span} {first : Node}
    (hrow : Stretch tokens middle (node.children.map .node)) (hclose : close.Between middle rest)
    (hfirst : node.children.head? = some first) (hspan : node.span = first.span.through close) :
    node.Placed tokens rest := by
  have hportions : Stretch tokens rest (node.children.map .node ++ [.mark close]) :=
    hrow.append (.single hclose)
  have hhead : (node.children.map Portion.node ++ [Portion.mark close]).head? =
      some (.node first) := by
    simp [List.head?_append, List.head?_map, hfirst]
  exact placed_of_ends hportions hhead List.getLast?_concat hspan (List.sublist_append_left _ _)

/-- A node from its opening token to its closing one. -/
theorem placed_of_enclosed {start close : Span} (hstart : start.Between tokens inside)
    (hrow : Stretch inside middle (node.children.map .node)) (hclose : close.Between middle rest)
    (hspan : node.span = start.through close) : node.Placed tokens rest := by
  have hportions : Stretch tokens rest (.mark start :: node.children.map .node ++ [.mark close]) :=
    .cons hstart (hrow.append (.single hclose))
  exact placed_of_ends hportions rfl List.getLast?_concat hspan
    ((List.sublist_append_left _ _).cons _)

end Node

end KaLang
