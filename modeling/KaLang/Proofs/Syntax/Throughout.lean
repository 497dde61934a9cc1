import KaLang.Proofs.Syntax.Placement

/-!
What holds of all nodes that are read off tokens. Most nodes are put together of others and of signs
and words; only strings, objects and what is declared outside are made of the tokens themselves.
What holds of those (`Node.Throughout`) holds of whatever is read (`Reads.every`).
-/

namespace KaLang

/-! ### Nodes below a node -/

namespace Node

/-- Whether a property holds of a node and of all nodes below it. -/
inductive Every (p : Node → Prop) : Node → Prop where
  | mk {node : Node} (hself : p node) (hchildren : ∀ child ∈ node.children, child.Every p) :
      node.Every p

/-- Whether this is so of all nodes in a row. -/
def EachEvery (p : Node → Prop) (nodes : List Node) : Prop := ∀ node ∈ nodes, node.Every p

variable {p q : Node → Prop} {node : Node} {nodes more : List Node}

theorem EachEvery.nil : EachEvery p [] := fun _ hnode => absurd hnode List.not_mem_nil

theorem EachEvery.cons (hnode : node.Every p) (hnodes : EachEvery p nodes) :
    EachEvery p (node :: nodes) :=
  List.forall_mem_cons.mpr ⟨hnode, hnodes⟩

theorem EachEvery.single (hnode : node.Every p) : EachEvery p [node] := .cons hnode .nil

theorem EachEvery.append (hnodes : EachEvery p nodes) (hmore : EachEvery p more) :
    EachEvery p (nodes ++ more) :=
  List.forall_mem_append.mpr ⟨hnodes, hmore⟩

theorem EachEvery.head (hnodes : EachEvery p (node :: nodes)) : node.Every p :=
  hnodes node List.mem_cons_self

theorem EachEvery.tail (hnodes : EachEvery p (node :: nodes)) : EachEvery p nodes :=
  fun other hother => hnodes other (List.mem_cons_of_mem node hother)

theorem EachEvery.last (hnodes : EachEvery p (nodes ++ [node])) : node.Every p :=
  hnodes node (List.mem_append_right nodes (List.mem_singleton_self node))

theorem Every.of_children (hself : p node) (hchildren : EachEvery p node.children) :
    node.Every p := .mk hself hchildren

theorem Every.leaf (hself : p node) (hchildren : node.children = []) : node.Every p :=
  .of_children hself (hchildren ▸ .nil)

theorem Every.self (hnode : node.Every p) : p node := by
  cases hnode with
  | mk hself _ => exact hself

theorem Every.children (hnode : node.Every p) : EachEvery p node.children := by
  cases hnode with
  | mk _ hchildren => exact hchildren

theorem Every.mono (hnode : node.Every p) (himp : ∀ node, p node → q node) : node.Every q := by
  induction hnode with
  | mk hself _ ih => exact .mk (himp _ hself) ih

/-- What stands right below a function: its parameters, which have no parts, and its body. -/
theorem EachEvery.withBody {params : List Identifier} {body : Block}
    (hparameter : ∀ name, p (parameter name)) (hbody : (block body).Every p) :
    EachEvery p (params.map parameter ++ [block body]) :=
  .append (List.forall_mem_map.mpr fun name _ => .of_children (hparameter name) .nil)
    (.single hbody)

end Node

/-- What holds of all nodes of all statements holds of every node of the program. -/
theorem Program.Holds.of_every {program : Program} {p : Node → Prop}
    (hbody : Node.EachEvery p (program.body.map .statement)) {node : Node}
    (hnode : program.Holds node) : p node := by
  have hevery : node.Every p := by
    induction hnode with
    | body hstatement => exact hbody _ (List.mem_map_of_mem hstatement)
    | child _ hchild ih => exact ih.children _ hchild
  exact hevery.self

/-! ### Entries of objects -/

variable {stop start : Span} {all tokens rest : List Token} {p : Node → Prop}

/-- Whether a token stands for a key with the given text. -/
def Token.IsKey (token : Token) (key : String) : Prop :=
  (token.kind = .string ∨ token.kind = .identifier) ∧ token.text = key

/-- The key of a field is the text of the token ahead. -/
theorem Parser.isKey_of_fieldKey {key : Reading String tokens}
    (hkey : fieldKey stop tokens = .ok key) : ∃ token ∈ tokens, token.IsKey key.value := by
  obtain ⟨⟨token, after, hafter⟩, htoken, hkey⟩ := Except.bind_eq_ok_iff.mp hkey
  obtain ⟨⟨colon, behind, hbehind⟩, _, hkey⟩ := Except.bind_eq_ok_iff.mp hkey
  cases hkey
  split at htoken
  · next haccept =>
    cases htoken
    obtain ⟨rfl, hkind⟩ := Reading.eq_cons_of_accept haccept
    exact ⟨token, List.mem_cons_self, .inl (by simpa using hkind), rfl⟩
  · unfold Reading.ofKind at htoken
    split at htoken
    · next haccept =>
      cases htoken
      obtain ⟨rfl, hkind⟩ := Reading.eq_cons_of_accept haccept
      exact ⟨token, List.mem_cons_self, .inr (by simpa using hkind), rfl⟩
    · cases htoken

/-- Putting a field adds none but that field. -/
theorem Field.mem_of_mem_put {fields : List Field} {key : String} {value : Expression}
    {field : Field} (hfield : field ∈ put fields key value) :
    field ∈ fields ∨ field = .mk key value := by
  induction fields with
  | nil => exact .inr (List.mem_singleton.mp hfield)
  | cons first more ih =>
    rw [put] at hfield
    split at hfield
    · rcases List.mem_cons.mp hfield with rfl | hfield
      · exact .inr rfl
      · exact .inl (List.mem_cons_of_mem first hfield)
    · rcases List.mem_cons.mp hfield with rfl | hfield
      · exact .inl List.mem_cons_self
      · exact (ih hfield).imp_left (List.mem_cons_of_mem first)

/-- Every field of an object is one of its entries. -/
theorem Field.mem_of_mem_foldl_put {entries : List (String × Expression)} {fields : List Field}
    {field : Field}
    (hfield : field ∈ entries.foldl (fun fields entry => put fields entry.1 entry.2) fields) :
    field ∈ fields ∨ (field.key, field.value) ∈ entries := by
  induction entries generalizing fields with
  | nil => exact .inl hfield
  | cons entry entries ih =>
    rcases ih hfield with hput | hmem
    · rcases mem_of_mem_put hput with hmem | rfl
      · exact .inl hmem
      · exact .inr List.mem_cons_self
    · exact .inr (List.mem_cons_of_mem entry hmem)

/-! ### Whatever is read -/

namespace Node

/-- Whether a node is put together of other nodes, if it is not a name or a number. -/
def IsPlain : Node → Prop
  | statement (.hostDecl _ _ _) | statement (.importDecl _ _ _ _)
  | expression (.string _ _) | expression (.object _ _) => False
  | _ => True

/-- Whether a property holds of all plain nodes, and of every other one that is made of tokens. -/
structure Throughout (all : List Token) (p : Node → Prop) : Prop where
  plain : ∀ {node : Node}, node.IsPlain → p node
  string : ∀ {token : Token}, token ∈ all → token.kind = .string →
    p (.expression (.string token.text token.span))
  object : ∀ {fields : List Field} {span : Span},
    (∀ field ∈ fields, ∃ token ∈ all, token.IsKey field.key) →
      p (.expression (.object fields span))
  outside : ∀ {stop start : Span} {tokens : List Token} {reading : Reading Statement tokens},
    start.Between all tokens →
      (Parser.hostDecl stop start tokens = .ok reading ∨
        Parser.importModule stop start tokens = .ok reading ∨
        Parser.importExports stop start tokens = .ok reading) → p (.statement reading.value)

end Node

/-- Whether a property holds of all nodes that a phrase adds to what was read before. -/
def Phrase.Every (p : Node → Prop) (all tokens : List Token) : Phrase → Prop
  | .statement value | .bare value => (Node.statement value).Every p
  | .behind _ start value => start.Between all tokens → (Node.statement value).Every p
  | .sequence _ body => Node.EachEvery p (body.map .statement)
  | .block body => (Node.block body).Every p
  | .members parts => Node.EachEvery p (parts.map .member)
  | .member part => (Node.member part).Every p
  | .expression value | .primary value => (Node.expression value).Every p
  | .onwards left _ whole | .constructed left whole =>
    (Node.expression left).Every p → (Node.expression whole).Every p
  | .items _ _ values _ => Node.EachEvery p (values.map .expression)
  | .entries _ fields _ => ∀ field ∈ fields, (∃ token ∈ all, token.IsKey field.1) ∧
    (Node.expression field.2).Every p

theorem Node.Throughout.join {left right : Expression} (hp : Throughout all p)
    (hleft : (expression left).Every p) (hright : (expression right).Every p)
    (op : BinaryOperator) (inParentheses : Bool) :
    (expression (left.join op right inParentheses)).Every p := by
  unfold Expression.join
  dsimp only
  split
  · exact .of_children (hp.plain trivial) (.single hleft)
  · exact .of_children (hp.plain trivial) (.cons hleft (.single hright))

theorem Node.Throughout.every_block {body : List Statement} {span : Span}
    (hp : Throughout all p) (hbody : EachEvery p (body.map statement)) :
    (block (.mk body span)).Every p :=
  .of_children (hp.plain trivial) hbody

theorem Node.Throughout.every_outside (hp : Throughout all p)
    {reading : Reading Statement tokens}
    (hread : Parser.hostDecl stop start tokens = .ok reading ∨
      Parser.importModule stop start tokens = .ok reading ∨
      Parser.importExports stop start tokens = .ok reading) (hstart : start.Between all tokens) :
    (statement reading.value).Every p :=
  .leaf (hp.outside hstart hread) (Parser.children_eq_nil hread)

theorem Node.Throughout.every_object (hp : Throughout all p)
    {entries : List (String × Expression)} {span : Span}
    (hentries : ∀ entry ∈ entries, (∃ token ∈ all, token.IsKey entry.1) ∧
      (expression entry.2).Every p) :
    (expression (.object (entries.foldl (fun fields entry => Field.put fields entry.1 entry.2) [])
      span)).Every p := by
  have hfields {field : Field}
      (hfield : field ∈ entries.foldl (fun fields entry => Field.put fields entry.1 entry.2) []) :
      (∃ token ∈ all, token.IsKey field.key) ∧ (expression field.value).Every p := by
    rcases Field.mem_of_mem_foldl_put hfield with hmem | hmem
    · cases hmem
    · exact hentries _ hmem
  refine .of_children (hp.object fun field hfield => (hfields hfield).1) ?_
  exact List.forall_mem_map.mpr (List.forall_mem_map.mpr fun field hfield => (hfields hfield).2)

/-- Whatever is read off tokens in order has a property that holds throughout. -/
theorem Reads.every {phrase : Phrase} (hreads : Reads stop phrase tokens rest)
    (hp : Node.Throughout all p) (hall : InOrder all) (htokens : tokens <:+ all) :
    phrase.Every p all tokens := by
  have htail {token : Token} {tail : List Token} (hsuffix : token :: tail <:+ all) :
      tail <:+ all :=
    (List.suffix_cons token tail).trans hsuffix
  have hplace {token : Token} {tail : List Token} (hsuffix : token :: tail <:+ all) :
      token.span.Between all tail :=
    (hall.of_suffix hsuffix).between_head.mono hsuffix List.suffix_rfl
  induction hreads with
  | unguarded _ _ ih => exact ih htokens
  | guarded hinner _ _ ihinner ihtest =>
    have htest := ihtest (htail (hinner.suffix.trans htokens))
    exact .of_children (hp.plain trivial) (.cons (ihinner htokens) (.single htest))
  | opened _ _ ih => exact ih (htail htokens) (hplace htokens)
  | plain _ ih => exact .of_children (hp.plain trivial) (.single (ih htokens))
  | none | noMember | lastItem => exact .nil
  | lastEntry => exact fun _ hentry => absurd hentry List.not_mem_nil
  | more hfirst _ ihfirst ihmore | moreMembers hfirst _ ihfirst ihmore
  | firstItem hfirst _ ihfirst ihmore =>
    exact .cons (ihfirst htokens) (ihmore (hfirst.suffix.trans htokens))
  | block _ _ _ ih => exact hp.every_block (ih (htail htokens))
  | conditionAlone htest _ _ _ _ _ ihtest ihthen =>
    intro _
    have hinside := htail (htest.suffix.trans htokens)
    exact .of_children (hp.plain trivial)
      (.cons (ihtest htokens) (.single (hp.every_block (ihthen hinside))))
  | conditionChain htest _ hthen _ _ _ _ _ ihtest ihthen ihbranch =>
    intro _
    have hinside := htail (htest.suffix.trans htokens)
    have helse := htail (hthen.suffix.trans hinside)
    have hbranch := ihbranch (htail helse) (hplace helse)
    exact .of_children (hp.plain trivial)
      (.cons (ihtest htokens) (.cons (hp.every_block (ihthen hinside)) (.single hbranch)))
  | conditionElse htest _ hthen _ _ _ _ _ _ _ hblock ihtest ihthen ihbody =>
    subst hblock
    intro _
    have hinside := htail (htest.suffix.trans htokens)
    have hbody := ihbody (htail (hthen.suffix.trans hinside))
    exact .of_children (hp.plain trivial) (.cons (ihtest htokens)
      (.cons (hp.every_block (ihthen hinside))
        (.single (.of_children (hp.plain trivial) (.single (hp.every_block hbody))))))
  | forLoop _ _ hiterable _ ihiterable ihbody =>
    intro _
    have hitems := htail (htail htokens)
    exact .of_children (hp.plain trivial) (.cons (ihiterable hitems)
      (.single (ihbody (hiterable.suffix.trans hitems))))
  | whileLoop htest _ ihtest ihbody =>
    intro _
    exact .of_children (hp.plain trivial) (.cons (ihtest htokens)
      (.single (ihbody (htest.suffix.trans htokens))))
  | functionDecl _ _ _ ih =>
    intro _
    exact .of_children (hp.plain trivial)
      (.withBody (fun _ => hp.plain trivial) (ih (htail htokens)))
  | functionWith _ hparams _ ih =>
    intro _
    have hparams := (Reading.advances_parameters.reaches _ hparams).suffix
    exact .of_children (hp.plain trivial)
      (.withBody (fun _ => hp.plain trivial) (ih (hparams.trans (htail htokens))))
  | classDecl _ _ _ _ ih =>
    intro _
    exact .of_children (hp.plain trivial) (ih (htail (htail htokens)))
  | returnNothing | breakLoop | continueLoop => exact fun _ => .leaf (hp.plain trivial) rfl
  | returnValue _ _ ih =>
    intro _
    exact .of_children (hp.plain trivial) (.single (ih htokens))
  | hostDecl hreading => exact hp.every_outside (.inl hreading)
  | importModule hreading => exact hp.every_outside (.inr (.inl hreading))
  | importExports hreading => exact hp.every_outside (.inr (.inr hreading))
  | localAssignment _ ih =>
    intro _
    exact .of_children (hp.plain trivial)
      (.single (.of_children (hp.plain trivial) (ih htokens).children))
  | exportOpened _ _ _ ih =>
    intro _
    exact .of_children (hp.plain trivial) (.single (ih (htail htokens) (hplace htokens)))
  | exportPlain _ ih =>
    intro _
    exact .of_children (hp.plain trivial)
      (.single (.of_children (hp.plain trivial) (.single (ih htokens))))
  | field _ _ _ ih =>
    exact .of_children (hp.plain trivial) (.single (ih (htail (htail htokens))))
  | method hname hparams _ ih =>
    have hname := (Parser.advances_methodName.reaches _ hname).suffix
    have hparams := (Reading.advances_parameters.reaches _ hparams).suffix
    exact .of_children (hp.plain trivial)
      (.withBody (fun _ => hp.plain trivial) (ih (hparams.trans (hname.trans htokens))))
  | operand hfirst _ _ ihfirst ihwhole =>
    exact ihwhole (hfirst.suffix.trans htokens) (ihfirst htokens)
  | assignment hfirst htarget _ _ _ _ ihfirst ihtarget ihvalue =>
    have hmiddle := hfirst.suffix.trans htokens
    have hvalue := ihvalue (htail (htarget.suffix.trans hmiddle))
    exact .of_children (hp.plain trivial)
      (.cons (ihtarget hmiddle (ihfirst htokens)) (.single hvalue))
  | enough | owner => exact fun hleft => hleft
  | call _ _ hargs _ ihargs ihwhole =>
    have hinside := htail htokens
    exact fun hleft => ihwhole (hargs.suffix.trans hinside)
      (.of_children (hp.plain trivial) (.cons hleft (ihargs hinside)))
  | binary _ _ hoperand hright _ ihoperand ihright ihwhole =>
    have hinside := htail htokens
    have hafter := hoperand.suffix.trans hinside
    exact fun hleft => ihwhole (hright.suffix.trans hafter)
      (hp.join hleft (ihright hafter (ihoperand hinside)) _ _)
  | string hkind => exact .leaf (hp.string (htokens.mem List.mem_cons_self) hkind) rfl
  | number | name => exact .leaf (hp.plain trivial) rfl
  | unary _ _ hinner _ ihinner ihoperand =>
    have hinside := htail htokens
    exact .of_children (hp.plain trivial)
      (.single (ihoperand (hinner.suffix.trans hinside) (ihinner hinside)))
  | parentheses _ _ _ ih => exact ih (htail htokens)
  | array _ _ ih => exact .of_children (hp.plain trivial) (ih (htail htokens))
  | object _ _ ih => exact hp.every_object (ih (htail htokens))
  | lambda _ hparams _ ih =>
    have hparams := ((Reading.advances_lambdaParameters _).reaches _ hparams).suffix
    exact .of_children (hp.plain trivial)
      (.withBody (fun _ => hp.plain trivial) (ih (hparams.trans (htail htokens))))
  | lambdaAlone _ ih =>
    exact .of_children (hp.plain trivial)
      (.withBody (fun _ => hp.plain trivial) (ih htokens))
  | construct _ howner hcallee _ _ ihowner ihcallee ihargs =>
    have hinside := htail htokens
    have hmiddle := howner.suffix.trans hinside
    have hargs := ihargs (htail (hcallee.suffix.trans hmiddle))
    exact .of_children (hp.plain trivial) (.cons (ihcallee hmiddle (ihowner hinside)) hargs)
  | joined _ hkey _ ihkey ihcallee =>
    have hinside := htail htokens
    exact fun howner => ihcallee (hkey.suffix.trans hinside)
      (hp.join howner (ihkey hinside) _ _)
  | nextItem _ hfirst _ ihfirst ihmore =>
    have hinside := htail htokens
    exact .cons (ihfirst hinside) (ihmore (hfirst.suffix.trans hinside))
  | firstEntry hkey hvalue _ ihvalue ihmore =>
    have hafter := (Parser.advances_fieldKey.reaches _ hkey).suffix.trans htokens
    obtain ⟨token, htoken, htext⟩ := Parser.isKey_of_fieldKey hkey
    exact List.forall_mem_cons.mpr ⟨⟨⟨token, htokens.mem htoken, htext⟩, ihvalue hafter⟩,
      ihmore (hvalue.suffix.trans hafter)⟩
  | nextEntry _ hkey hvalue _ ihvalue ihmore =>
    have hinside := htail htokens
    have hafter := (Parser.advances_fieldKey.reaches _ hkey).suffix.trans hinside
    obtain ⟨token, htoken, htext⟩ := Parser.isKey_of_fieldKey hkey
    exact List.forall_mem_cons.mpr ⟨⟨⟨token, hinside.mem htoken, htext⟩, ihvalue hafter⟩,
      ihmore (hvalue.suffix.trans hafter)⟩

end KaLang
