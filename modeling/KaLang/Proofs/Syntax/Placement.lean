import KaLang.Proofs.Syntax.Complete
import KaLang.Proofs.Syntax.Legible
import KaLang.Proofs.Syntax.Nodes
import KaLang.Proofs.Token.Layout

/-!
The places of the nodes of a program. Whatever is read off tokens in order has its place between the
tokens read, and is tidy all the way down (`Reads.placed`); so the spans of a program nest like its
nodes (`Program.nests_of_ofSource`).
-/

namespace KaLang

variable {stop start : Span} {tokens inside middle rest : List Token}

/-! ### Names and parameters -/

namespace Reading

theorem between_of_identifier {name : Identifier} {hrest : rest.length < tokens.length}
    (htokens : InOrder tokens) (hread : identifier stop tokens = .ok ⟨name, rest, hrest⟩) :
    name.span.Between tokens rest := by
  obtain ⟨token, rfl, _, rfl⟩ := eq_cons_of_identifier hread
  exact htokens.between_head

theorem placed_parameter {name : Identifier} {hrest : rest.length < tokens.length}
    (htokens : InOrder tokens) (hread : identifier stop tokens = .ok ⟨name, rest, hrest⟩) :
    (Node.parameter name).Placed tokens rest :=
  Node.placed_of_leaf (between_of_identifier htokens hread) rfl

/-- The last of the names with separating tokens between them. -/
theorem between_of_identifiersBy {separator : Token → Bool} {tokens rest : List Token}
    {name : Identifier} {names : List Identifier} {hrest : rest.length < tokens.length}
    (htokens : InOrder tokens)
    (hread : identifiersBy stop separator tokens = .ok ⟨(name, names), rest, hrest⟩) :
    (names.getLast?.getD name).span.Between tokens rest := by
  rw [identifiersBy] at hread
  obtain ⟨⟨first, afterFirst, hlater⟩, hfirst, hread⟩ := Except.bind_eq_ok_iff.mp hread
  have hname := between_of_identifier htokens hfirst
  dsimp only at hread
  split at hread
  · cases hread
    exact hname
  · next haccept =>
    obtain ⟨⟨⟨second, more⟩, _, _⟩, hmore, hread⟩ := Except.bind_eq_ok_iff.mp hread
    cases hread
    obtain ⟨rfl, _⟩ := eq_cons_of_accept haccept
    have hlast := between_of_identifiersBy (htokens.of_suffix hname.suffix).tail hmore
    simpa [List.getLast?_cons] using hlast.behind.mono hname.suffix List.suffix_rfl
termination_by tokens.length

/-- Parameters stand one behind the other, with commas between them. -/
theorem stretch_parameters {params : Reading (List Identifier) tokens} (htokens : InOrder tokens)
    (hread : parameters stop tokens = .ok params) :
    Stretch tokens params.rest ((params.value.map .parameter).map .node) := by
  obtain ⟨⟨opening, inside, hinside⟩, hopening, hread⟩ := Except.bind_eq_ok_iff.mp hread
  obtain ⟨⟨⟨names, close⟩, rest, hrest⟩, hnames, hread⟩ := Except.bind_eq_ok_iff.mp hread
  cases hread
  obtain ⟨rfl, _⟩ := eq_cons_of_delimiter hopening
  refine Stretch.behind (derives_of_itemsUntil (fun _ names _ tokens rest => InOrder tokens →
    Stretch tokens rest ((names.map .parameter).map .node)) ?_ ?_ ?_ true inside _ hnames
    htokens.tail)
  · exact fun _ token tail _ _ => .nil (List.suffix_cons token tail)
  · intro tokens _ first middle _ more last rest hfirst hmore htokens
    have hname := placed_parameter htokens hfirst
    exact .cons hname (hmore (htokens.of_suffix hname.between.suffix))
  · intro comma tail _ first middle _ more last rest _ hfirst hmore htokens
    have hname := placed_parameter htokens.tail hfirst
    exact .cons hname.behind (hmore (htokens.tail.of_suffix hname.between.suffix))

theorem stretch_lambdaParameters {tokens : List Token} {params : Reading (List Identifier) tokens}
    (htokens : InOrder tokens) (hread : lambdaParameters stop tokens = .ok params) :
    Stretch tokens params.rest ((params.value.map .parameter).map .node) := by
  rw [lambdaParameters] at hread
  obtain ⟨⟨first, afterFirst, hlater⟩, hfirst, hread⟩ := Except.bind_eq_ok_iff.mp hread
  have hname := placed_parameter htokens hfirst
  dsimp only at hread
  split at hread
  · cases hread
    exact .single hname
  · obtain ⟨⟨comma, afterComma, hcomma⟩, hsign, hread⟩ := Except.bind_eq_ok_iff.mp hread
    obtain ⟨more, hmore, hread⟩ := Except.bind_eq_ok_iff.mp hread
    cases hread
    obtain ⟨rfl, _⟩ := eq_cons_of_delimiter hsign
    have hnames := stretch_lambdaParameters (htokens.of_suffix hname.between.suffix).tail hmore
    exact .cons hname hnames.behind
termination_by tokens.length

/-- The last token read is no earlier than anything that was read. -/
theorem between_lastRead {word : Token} (htokens : InOrder (word :: inside))
    (hrest : rest <:+ inside) :
    (lastRead word inside rest).span.Between (word :: inside) rest ∧
      ∀ s : Span, s.Between (word :: inside) rest →
        s.last.offset ≤ (lastRead word inside rest).span.last.offset := by
  obtain ⟨used, rfl⟩ := hrest
  have hlast : (word :: used).getLast? = some (lastRead word (used ++ rest) rest) := by
    simp [lastRead, List.getLast?_cons]
  generalize lastRead word (used ++ rest) rest = last at hlast ⊢
  have hread : InOrder ((word :: used) ++ rest) := htokens
  refine ⟨hread.between (List.mem_of_getLast? hlast), fun s hs => ?_⟩
  obtain ⟨token, htoken, hend⟩ := hs.last
  rw [← List.cons_append] at htoken
  rcases List.mem_append.mp htoken with hused | hahead
  · have hbefore := hread.of_sublist (List.sublist_append_left _ _)
    rw [hend]
    exact Span.last_le_of_row hbefore.forward hbefore.row hlast token hused
  · -- A token ahead ends behind everything that was read.
    have hbefore : s.last.offset < token.span.first.offset := hs.ahead token hahead
    have hforward := hread.forward token (List.mem_append_right _ hahead)
    rw [← hend] at hforward
    omega

end Reading

/-! ### Blocks and declarations -/

namespace Node

/-- A body between its opening and its closing word. -/
theorem placed_block {opening close : Token} {body : List Statement}
    (htokens : InOrder (opening :: inside))
    (hbody : Stretch inside (close :: rest) ((body.map .statement).map .node)) :
    (Node.block (.mk body (opening.span.through close.span))).Placed (opening :: inside) rest := by
  have hclose := (htokens.tail.of_suffix hbody.suffix).between_head
  exact placed_of_enclosed htokens.between_head hbody hclose rfl

/-- A block as a statement of its own. -/
theorem Placed.blockStatement {inner : Block} (hinner : (Node.block inner).Placed tokens rest) :
    (Node.statement (.block inner)).Placed tokens rest :=
  placed_of_row (.single hinner) rfl rfl rfl

/-- An expression as a statement of its own. -/
theorem Placed.expressionStatement {value : Expression}
    (hvalue : (Node.expression value).Placed tokens rest) :
    (Node.statement (.expression value value.span)).Placed tokens rest :=
  placed_of_row (.single hvalue) rfl rfl rfl

/-- A body that ends with the last token read for it. -/
theorem placed_thenBlock {word : Token} {body : List Statement}
    (htokens : InOrder (word :: inside))
    (hbody : Stretch inside rest ((body.map .statement).map .node)) :
    (Node.block (.mk body (word.span.through (Reading.lastRead word inside rest).span))).Placed
      (word :: inside) rest := by
  obtain ⟨hlast, hlatest⟩ := Reading.between_lastRead htokens hbody.suffix
  have hportions : Stretch (word :: inside) rest
      (.mark word.span :: (body.map .statement).map .node) := .cons htokens.between_head hbody
  have hword := hportions.between List.mem_cons_self
  have hspan := hword.join hlast (Nat.le_trans hword.forward (hlatest _ hword))
  have hinside : ∀ portion ∈ Portion.mark word.span :: (body.map .statement).map .node,
      portion.span.Inside (word.span.through (Reading.lastRead word inside rest).span) :=
    fun portion hportion =>
      ⟨hportions.first_le rfl portion hportion, hlatest _ (hportions.between hportion)⟩
  have hchildren : ((body.map statement).map Portion.node).Sublist
      (.mark word.span :: (body.map .statement).map .node) := List.sublist_cons_self _ _
  exact placed_of_inside hportions hspan hinside hchildren.subperm fun _ => hchildren

end Node

namespace Parser

theorem placed_hostDecl {reading : Reading Statement tokens} {all : List Token}
    (htokens : InOrder tokens) (hread : hostDecl stop start tokens = .ok reading)
    (hstart : start.Between all tokens) :
    (Node.statement reading.value).Placed all reading.rest := by
  unfold hostDecl at hread
  split at hread
  · next haccept =>
    obtain ⟨⟨name, rest, hrest⟩, hname, hread⟩ := Except.bind_eq_ok_iff.mp hread
    cases hread
    obtain ⟨rfl, _⟩ := Reading.eq_cons_of_accept haccept
    have hname := Reading.between_of_identifier htokens.tail hname
    exact Node.placed_of_leaf (hstart.through hname.behind) rfl
  · obtain ⟨⟨name, rest, hrest⟩, hname, hread⟩ := Except.bind_eq_ok_iff.mp hread
    cases hread
    exact Node.placed_of_leaf (hstart.through (Reading.between_of_identifier htokens hname)) rfl

theorem placed_importModule {reading : Reading Statement tokens} {all : List Token}
    (htokens : InOrder tokens) (hread : importModule stop start tokens = .ok reading)
    (hstart : start.Between all tokens) :
    (Node.statement reading.value).Placed all reading.rest := by
  obtain ⟨⟨⟨first, more⟩, rest, hrest⟩, hpath, hread⟩ := Except.bind_eq_ok_iff.mp hread
  cases hread
  exact Node.placed_of_leaf (hstart.through (Reading.between_of_identifiersBy htokens hpath)) rfl

theorem placed_importExports {reading : Reading Statement tokens} {all : List Token}
    (htokens : InOrder tokens) (hread : importExports stop start tokens = .ok reading)
    (hstart : start.Between all tokens) :
    (Node.statement reading.value).Placed all reading.rest := by
  obtain ⟨⟨⟨segment, segments⟩, afterPath, hafter⟩, hpath, hread⟩ := Except.bind_eq_ok_iff.mp hread
  obtain ⟨⟨word, afterWord, hafterWord⟩, hword, hread⟩ := Except.bind_eq_ok_iff.mp hread
  obtain ⟨rfl, _⟩ := Reading.eq_cons_of_keyword hword
  have hpath := Reading.between_of_identifiersBy htokens hpath
  have hwords := htokens.of_suffix hpath.suffix
  dsimp only at hread
  split at hread
  · next haccept =>
    obtain ⟨⟨name, rest, hrest⟩, hname, hread⟩ := Except.bind_eq_ok_iff.mp hread
    cases hread
    obtain ⟨rfl, _⟩ := Reading.eq_cons_of_accept haccept
    have hname := Reading.between_of_identifier hwords.tail.tail hname
    have hbehind := hname.behind.behind.mono hpath.suffix List.suffix_rfl
    exact Node.placed_of_leaf (hstart.through hbehind) rfl
  · obtain ⟨⟨⟨name, names⟩, rest, hrest⟩, hnames, hread⟩ := Except.bind_eq_ok_iff.mp hread
    cases hread
    have hlast := Reading.between_of_identifiersBy hwords.tail hnames
    have hbehind := hlast.behind.mono hpath.suffix List.suffix_rfl
    exact Node.placed_of_leaf (hstart.through hbehind) rfl

theorem between_of_methodName {name : Reading MethodName tokens} (htokens : InOrder tokens)
    (hread : methodName stop tokens = .ok name) : name.value.span.Between tokens name.rest := by
  unfold methodName at hread
  split at hread
  · next haccept =>
    obtain ⟨rfl, _⟩ := Reading.eq_cons_of_accept haccept
    split at hread
    · cases hread
    · cases hread
    · cases hread
      exact htokens.between_head
  · obtain ⟨⟨name, rest, hrest⟩, hname, hread⟩ := Except.bind_eq_ok_iff.mp hread
    cases hread
    exact Reading.between_of_identifier htokens hname

end Parser

/-! ### Expressions -/

/-- What the parser joins reaches from the left operand to the right one, which is no node where it
    names a property. -/
theorem Expression.placed_join {left right : Expression}
    (hleft : (Node.expression left).Placed tokens middle)
    (hright : (Node.expression right).Placed middle rest) (op : BinaryOperator)
    (inParentheses : Bool) :
    (Node.expression (left.join op right inParentheses)).Placed tokens rest := by
  unfold join
  dsimp only
  split
  · exact Node.placed_of_closed (.single hleft) hright.between rfl rfl
  · exact Node.placed_of_row (.cons hleft (.single hright)) rfl rfl rfl

/-- A marked assignment reaches from the marking word to the end of the value. -/
theorem Expression.placed_local {all : List Token} {target value : Expression}
    {op : AssignmentOperator} {isLocal : Bool} {span : Span} (hstart : start.Between all tokens)
    (hassign : (Node.expression (.assign target op value isLocal span)).Placed tokens rest) :
    (Node.expression (.assign target op value true (start.through value.span))).Placed all
      rest :=
  Node.placed_of_opened hstart (hassign.stretch_children rfl) rfl rfl

/-- A new value stands behind those there are, or takes the place of one of them. -/
theorem Field.subperm_put (fields : List Field) (key : String) (value : Expression) :
    ((put fields key value).map Field.value).Subperm (fields.map Field.value ++ [value]) := by
  induction fields with
  | nil => exact .refl _
  | cons field more ih =>
    simp only [put]
    split
    · exact ⟨_, List.perm_append_singleton _ _, List.sublist_cons_self _ _⟩
    · exact (List.subperm_cons _).mpr ih

theorem Field.subperm_foldl_put (entries : List (String × Expression)) (fields : List Field) :
    ((entries.foldl (fun fields entry => put fields entry.1 entry.2) fields).map
      Field.value).Subperm (fields.map Field.value ++ entries.map Prod.snd) := by
  induction entries generalizing fields with
  | nil => simpa using List.Subperm.refl _
  | cons entry entries ih =>
    refine (ih (put fields entry.1 entry.2)).trans ?_
    have hput := (List.subperm_append_right (entries.map Prod.snd)).mpr
      (subperm_put fields entry.1 entry.2)
    simpa using hput

/-- An object literal around its fields. -/
theorem Expression.placed_object {opening close : Token} {entries : List (String × Expression)}
    {inside middle : List Token} (hopening : opening.span.Between tokens inside)
    (hentries : Stretch inside middle (((entries.map Prod.snd).map .expression).map .node))
    (hclose : close.span.Between middle rest) :
    (Node.expression (.object
      (entries.foldl (fun fields entry => Field.put fields entry.1 entry.2) [])
      (opening.span.through close.span))).Placed tokens rest := by
  have hportions : Stretch tokens rest (.mark opening.span ::
      ((entries.map Prod.snd).map .expression).map .node ++ [.mark close.span]) :=
    .cons hopening (hentries.append (.single hclose))
  obtain ⟨hspan, hinside⟩ := hportions.ends rfl List.getLast?_concat
  refine Node.placed_of_inside hportions hspan hinside ?_ nofun
  obtain ⟨found, hperm, hsublist⟩ := Field.subperm_foldl_put entries []
  have hfields := (hsublist.map Node.expression).map Portion.node
  exact ⟨_, (hperm.map _).map _, (hfields.trans (List.sublist_append_left _ _)).cons _⟩

/-! ### Phrases -/

/-- Whether the nodes that a phrase adds to what was read before have their places between the
    tokens. What was read before may have been read off more tokens. -/
def Phrase.Placed (tokens rest : List Token) : Phrase → Prop
  | .statement value | .bare value => (Node.statement value).Placed tokens rest
  | .behind _ start value =>
    ∀ all, start.Between all tokens → (Node.statement value).Placed all rest
  | .sequence _ body => Stretch tokens rest ((body.map .statement).map .node)
  | .block body => (Node.block body).Placed tokens rest
  | .members parts => Stretch tokens rest ((parts.map .member).map .node)
  | .member part => (Node.member part).Placed tokens rest
  | .expression value | .primary value => (Node.expression value).Placed tokens rest
  | .onwards left _ whole | .constructed left whole =>
    ∀ all, (Node.expression left).Placed all tokens → (Node.expression whole).Placed all rest
  | .items _ _ values last =>
    ∃ middle, Stretch tokens middle ((values.map .expression).map .node) ∧
      last.span.Between middle rest
  | .entries _ fields last =>
    ∃ middle, Stretch tokens middle (((fields.map Prod.snd).map .expression).map .node) ∧
      last.span.Between middle rest

/-- Nodes have their places between the tokens they were read off and those ahead, whatever was read
    in front of them. -/
theorem Reads.placed {phrase : Phrase} (hreads : Reads stop phrase tokens rest)
    (htokens : InOrder tokens) : phrase.Placed tokens rest := by
  induction hreads with
  | unguarded _ _ ih => exact ih htokens
  | guarded _ _ _ ihinner ihtest =>
    have hinner := ihinner htokens
    have htest := ihtest (htokens.of_suffix hinner.between.suffix).tail
    exact Node.placed_of_row (.cons hinner (.single htest.behind)) rfl rfl rfl
  | opened _ _ ih => exact ih htokens.tail _ htokens.between_head
  | plain _ ih => exact Node.Placed.expressionStatement (ih htokens)
  | none => exact .nil List.suffix_rfl
  | more _ _ ihfirst ihmore =>
    have hfirst := ihfirst htokens
    exact .cons hfirst (ihmore (htokens.of_suffix hfirst.between.suffix))
  | block _ _ _ ih => exact Node.placed_block htokens (ih htokens.tail)
  | conditionAlone _ _ _ _ _ hspan ihtest ihthen =>
    intro all hstart
    have htest := ihtest htokens
    have hwords := htokens.of_suffix htest.between.suffix
    have hthen := ihthen hwords.tail
    have hblock := hspan ▸ Node.placed_thenBlock hwords hthen
    have hclose := (hwords.tail.of_suffix hthen.suffix).between_head
    exact Node.placed_of_enclosed hstart (.cons htest (.single hblock)) hclose rfl
  | conditionChain _ _ _ _ _ _ _ hspan ihtest ihthen ihbranch =>
    intro all hstart
    have htest := ihtest htokens
    have hwords := htokens.of_suffix htest.between.suffix
    have hthen := ihthen hwords.tail
    have hblock := hspan ▸ Node.placed_thenBlock hwords hthen
    have helse := hwords.tail.of_suffix hthen.suffix
    have hbranch := ihbranch helse.tail.tail _ helse.tail.between_head
    exact Node.placed_of_opened hstart (.cons htest (.cons hblock (.single hbranch.behind))) rfl rfl
  | conditionElse _ _ _ _ _ _ _ _ hspan _ hbranch ihtest ihthen ihbody =>
    intro all hstart
    have htest := ihtest htokens
    have hwords := htokens.of_suffix htest.between.suffix
    have hthen := ihthen hwords.tail
    have hblock := hspan ▸ Node.placed_thenBlock hwords hthen
    have helse := hwords.tail.of_suffix hthen.suffix
    have hbody := (hbranch ▸ Node.placed_block helse (ihbody helse.tail)).blockStatement
    exact Node.placed_of_opened hstart (.cons htest (.cons hblock (.single hbody))) rfl rfl
  | forLoop _ _ _ _ ihiterable ihbody =>
    intro all hstart
    have hiterable := ihiterable htokens.tail.tail
    have hbody := ihbody (htokens.tail.tail.of_suffix hiterable.between.suffix)
    exact Node.placed_of_opened hstart (.cons hiterable.behind.behind (.single hbody)) rfl rfl
  | whileLoop _ _ ihtest ihbody =>
    intro all hstart
    have htest := ihtest htokens
    have hbody := ihbody (htokens.of_suffix htest.between.suffix)
    exact Node.placed_of_opened hstart (.cons htest (.single hbody)) rfl rfl
  | functionDecl _ _ _ ih =>
    intro all hstart
    exact Node.placed_of_opened hstart (.single (ih htokens.tail).behind) rfl rfl
  | functionWith _ hparams _ ih =>
    intro all hstart
    have hparams := Reading.stretch_parameters htokens.tail hparams
    have hbody := ih (htokens.tail.of_suffix hparams.suffix)
    exact Node.placed_of_opened hstart (hparams.withBody hbody).behind List.getLast?_concat rfl
  | classDecl _ _ _ _ ih =>
    intro all hstart
    have hparts := ih htokens.tail.tail
    have hclose := (htokens.tail.tail.of_suffix hparts.suffix).between_head
    exact Node.placed_of_enclosed hstart hparts.behind.behind hclose rfl
  | returnNothing | breakLoop | continueLoop =>
    intro all hstart
    exact Node.placed_of_leaf hstart rfl
  | returnValue _ _ ih =>
    intro all hstart
    exact Node.placed_of_opened hstart (.single (ih htokens)) rfl rfl
  | hostDecl hreading => exact fun all hstart => Parser.placed_hostDecl htokens hreading hstart
  | importModule hreading =>
    exact fun all hstart => Parser.placed_importModule htokens hreading hstart
  | importExports hreading =>
    exact fun all hstart => Parser.placed_importExports htokens hreading hstart
  | localAssignment _ ih =>
    intro all hstart
    exact (Expression.placed_local hstart (ih htokens)).expressionStatement
  | exportOpened _ _ _ ih =>
    intro all hstart
    have hdeclaration := ih htokens.tail _ htokens.between_head
    exact Node.placed_of_opened hstart (.single hdeclaration) rfl rfl
  | exportPlain _ ih =>
    intro all hstart
    have hvalue := Node.Placed.expressionStatement (ih htokens)
    exact Node.placed_of_opened hstart (.single hvalue) rfl rfl
  | noMember => exact .nil List.suffix_rfl
  | moreMembers _ _ ihfirst ihmore =>
    have hfirst := ihfirst htokens
    exact .cons hfirst (ihmore (htokens.of_suffix hfirst.between.suffix))
  | field _ _ _ ih =>
    exact Node.placed_of_opened htokens.between_head (.single (ih htokens.tail.tail).behind) rfl rfl
  | method hname hparams _ ih =>
    have hname := Parser.between_of_methodName htokens hname
    have hafter := htokens.of_suffix hname.suffix
    have hparams := Reading.stretch_parameters hafter hparams
    have hbody := ih (hafter.of_suffix hparams.suffix)
    exact Node.placed_of_opened hname (hparams.withBody hbody) List.getLast?_concat rfl
  | operand _ _ _ ihfirst ihwhole =>
    have hfirst := ihfirst htokens
    exact ihwhole (htokens.of_suffix hfirst.between.suffix) _ hfirst
  | assignment _ _ _ _ _ _ ihfirst ihtarget ihvalue =>
    have hfirst := ihfirst htokens
    have htarget := ihtarget (htokens.of_suffix hfirst.between.suffix) _ hfirst
    have hvalue := ihvalue (htokens.of_suffix htarget.between.suffix).tail
    exact Node.placed_of_row (.cons htarget (.single hvalue.behind)) rfl rfl rfl
  | enough | owner => exact fun _ hleft => hleft
  | call _ _ _ _ ihargs ihwhole =>
    intro all hleft
    obtain ⟨_, hargs, hclose⟩ := ihargs htokens.tail
    have hmiddle := htokens.tail.of_suffix (hclose.suffix.trans hargs.suffix)
    refine ihwhole hmiddle all ?_
    exact Node.placed_of_closed (.cons hleft hargs.behind) hclose rfl rfl
  | binary _ _ _ _ _ ihoperand ihright ihwhole =>
    intro all hleft
    have hoperand := ihoperand htokens.tail
    have hright := ihright (htokens.tail.of_suffix hoperand.between.suffix) _ hoperand
    refine ihwhole (htokens.tail.of_suffix hright.between.suffix) all ?_
    exact Expression.placed_join hleft hright.behind _ _
  | string | number | name => exact Node.placed_of_leaf htokens.between_head rfl
  | unary _ _ _ _ ihinner ihoperand =>
    have hinner := ihinner htokens.tail
    have hoperand := ihoperand (htokens.tail.of_suffix hinner.between.suffix) _ hinner
    exact Node.placed_of_opened htokens.between_head (.single hoperand) rfl rfl
  | parentheses _ _ _ ih =>
    -- The operand keeps the span between its parentheses, which no node covers then.
    exact (ih htokens.tail).behind.mono List.suffix_rfl (List.suffix_cons _ _)
  | array _ _ ih =>
    obtain ⟨_, hitems, hclose⟩ := ih htokens.tail
    exact Node.placed_of_enclosed htokens.between_head hitems hclose rfl
  | object _ _ ih =>
    obtain ⟨_, hentries, hclose⟩ := ih htokens.tail
    exact Expression.placed_object htokens.between_head hentries hclose
  | lambda _ hparams _ ih =>
    have hparams := Reading.stretch_lambdaParameters htokens.tail hparams
    have hbody := ih (htokens.tail.of_suffix hparams.suffix)
    exact Node.placed_of_opened htokens.between_head (hparams.withBody hbody) List.getLast?_concat
      rfl
  | lambdaAlone _ ih => exact Node.placed_of_row (.single (ih htokens)) rfl rfl rfl
  | construct _ _ _ _ _ ihowner ihcallee ihargs =>
    have howner := ihowner htokens.tail
    have hcallee := ihcallee (htokens.tail.of_suffix howner.between.suffix) _ howner
    obtain ⟨_, hargs, hclose⟩ := ihargs (htokens.tail.of_suffix hcallee.between.suffix).tail
    exact Node.placed_of_enclosed htokens.between_head (.cons hcallee hargs.behind) hclose rfl
  | joined _ _ _ ihkey ihcallee =>
    intro all howner
    have hkey := ihkey htokens.tail
    refine ihcallee (htokens.tail.of_suffix hkey.between.suffix) all ?_
    exact Expression.placed_join howner hkey.behind _ _
  | lastItem | lastEntry => exact ⟨_, .nil List.suffix_rfl, htokens.between_head⟩
  | firstItem _ _ ihfirst ihmore =>
    have hfirst := ihfirst htokens
    obtain ⟨middle, hmore, hlast⟩ := ihmore (htokens.of_suffix hfirst.between.suffix)
    exact ⟨middle, .cons hfirst hmore, hlast⟩
  | nextItem _ _ _ ihfirst ihmore =>
    have hfirst := ihfirst htokens.tail
    obtain ⟨middle, hmore, hlast⟩ := ihmore (htokens.tail.of_suffix hfirst.between.suffix)
    exact ⟨middle, .cons hfirst.behind hmore, hlast⟩
  | firstEntry hkey _ _ ihvalue ihmore =>
    have hkey := (Parser.advances_fieldKey.reaches _ hkey).suffix
    have hvalue := (ihvalue (htokens.of_suffix hkey)).mono hkey List.suffix_rfl
    obtain ⟨middle, hmore, hlast⟩ := ihmore (htokens.of_suffix hvalue.between.suffix)
    exact ⟨middle, .cons hvalue hmore, hlast⟩
  | nextEntry _ hkey _ _ ihvalue ihmore =>
    have hkey := (Parser.advances_fieldKey.reaches _ hkey).suffix
    have hvalue := (ihvalue (htokens.tail.of_suffix hkey)).mono hkey List.suffix_rfl
    obtain ⟨middle, hmore, hlast⟩ := ihmore (htokens.tail.of_suffix hvalue.between.suffix)
    exact ⟨middle, .cons hvalue.behind hmore, hlast⟩

/-! ### Programs -/

/-- The tokens of a text are in order. -/
theorem inOrder_of_tokenize {source : String} {tokens : List Token}
    (htokens : tokenize source = .ok tokens) : InOrder tokens where
  forward := (laid_of_tokenize htokens).first_le_last
  row := (laid_of_tokenize htokens).pairwise

namespace Program

/-- Whether the spans of a program nest like its nodes. The program itself reaches from the start of
    the text to the end of its last statement, or to the end of the text if it has none; every node
    in it is tidy among the tokens that stand ahead of the end of the input. -/
structure Nests (tokens : List Token) (program : Program) : Prop where
  first : program.span.first = .zero
  last : program.body ≠ [] → ∃ token ∈ programTokens tokens, program.span.last = token.span.last
  lastOfEmpty : program.body = [] →
    ∃ token ∈ tokens, token.kind = .endOfInput ∧ program.span.last = token.span.last
  inside : ∀ statement ∈ program.body, statement.span.Inside program.span
  apart : program.body.Pairwise fun a b => a.span.Apart b.span
  tidy : ∀ node, program.Holds node → node.Tidy (programTokens tokens)

/-- The end of the input is the place of an end token, if there is one. -/
theorem exists_endSpan {tokens : List Token} (hend : ∃ token ∈ tokens, token.kind = .endOfInput) :
    ∃ token ∈ tokens, token.kind = .endOfInput ∧ endSpan tokens = token.span := by
  unfold endSpan
  split
  · next token hfind =>
    exact ⟨token, List.mem_of_find?_eq_some hfind, by simpa using List.find?_some hfind, rfl⟩
  · next hnone =>
    obtain ⟨token, htoken, hkind⟩ := hend
    have hother := List.find?_eq_none.mp hnone token htoken
    exact absurd hkind (by simpa using hother)

/-- Every text ends with an end token. -/
theorem exists_endSpan_of_tokenize {source : String} {tokens : List Token}
    (htokens : tokenize source = .ok tokens) :
    ∃ token ∈ tokens, token.kind = .endOfInput ∧ endSpan tokens = token.span := by
  obtain ⟨ahead, hahead, _⟩ := (laid_of_tokenize htokens).exists_body
  exact exists_endSpan
    ⟨.endOfInput _, hahead ▸ List.mem_append_right ahead List.mem_cons_self, rfl⟩

/-- The spans of every program that is read off a text nest like its nodes. -/
theorem nests_of_ofSource {source : String} {program : Program}
    (hread : ofSource source = .ok program) :
    ∃ tokens, tokenize source = .ok tokens ∧ program.Nests tokens := by
  obtain ⟨tokens, htokens, hread⟩ := Except.bind_eq_ok_iff.mp hread
  obtain ⟨body, hreads, rfl⟩ := ofTokens_eq_ok_iff.mp hread
  refine ⟨tokens, htokens, ?_⟩
  have horder : InOrder (programTokens tokens) :=
    (inOrder_of_tokenize htokens).of_sublist (List.takeWhile_sublist _)
  have hbody : Stretch (programTokens tokens) [] ((body.map .statement).map .node) :=
    hreads.placed horder
  have hplaced : ∀ statement ∈ body, (Node.statement statement).Placed (programTokens tokens) [] :=
    fun statement hstatement =>
      hbody.placed _ (List.mem_map_of_mem (List.mem_map_of_mem hstatement))
  have hrow : body.Pairwise fun a b => a.span.Before b.span := by
    simpa [List.pairwise_map, Portion.span, Node.span] using hbody.row
  have hlast {statement : Statement} (hstatement : body.getLast? = some statement) :
      (ofStatements (endSpan tokens) body).span.last = statement.span.last := by
    simp [ofStatements, hstatement]
  refine ⟨rfl, fun hnonempty => ?_, fun hempty => ?_, fun statement hstatement => ?_, ?_,
    fun node hholds => ?_⟩
  · have hend := List.getLast?_eq_some_getLast hnonempty
    rw [hlast hend]
    exact (hplaced _ (List.mem_of_getLast? hend)).between.last
  · obtain ⟨others, hothers, _⟩ := (laid_of_tokenize htokens).exists_body
    have hend : ∃ token ∈ tokens, token.kind = .endOfInput :=
      ⟨.endOfInput _, hothers ▸ List.mem_append_right others List.mem_cons_self, rfl⟩
    obtain ⟨token, htoken, hkind, hspan⟩ := exists_endSpan hend
    refine ⟨token, htoken, hkind, ?_⟩
    rw [← hspan, show body = [] from hempty]
    rfl
  · have hend := List.getLast?_eq_some_getLast (List.ne_nil_of_mem hstatement)
    refine ⟨Nat.zero_le _, ?_⟩
    rw [hlast hend]
    exact Span.last_le_of_row (fun other hother => (hplaced other hother).between.forward) hrow
      hend statement hstatement
  · exact hrow.imp fun hbefore => .inl hbefore
  · have hproper : node.Proper (programTokens tokens) := by
      induction hholds with
      | body hstatement => exact (hplaced _ hstatement).proper
      | child _ hchild ih => exact ih.child hchild
    exact hproper.tidy

/-- A repeated key, whose value stands behind the other field and in parentheses, and a guard. -/
theorem nests_repeatedKey :
    ∃ program, ofSource "\x7bx: 1, y: 2, x: (3)\x7d if c" = .ok program ∧
      ∃ tokens, tokenize "\x7bx: 1, y: 2, x: (3)\x7d if c" = .ok tokens ∧
        program.Nests tokens := by
  have hread : ∃ program, ofSource "\x7bx: 1, y: 2, x: (3)\x7d if c" = .ok program :=
    ⟨_, by cbv⟩
  obtain ⟨program, hread⟩ := hread
  exact ⟨program, hread, nests_of_ofSource hread⟩

end Program

end KaLang
