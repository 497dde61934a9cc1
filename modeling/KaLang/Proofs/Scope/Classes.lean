import KaLang.Proofs.Scope.Nesting
import KaLang.Proofs.Syntax.Sound

/-!
Nothing is ever bound in a class's own scope. A class declares its members to nobody, and what the
parser reads as the value of a field holds no assignment that is marked as local, except in a
function of its own. It is the grammar that says so, and not the syntax trees.
-/

namespace KaLang

/-- Whether a step binds a name in the current scope, if it binds one. -/
def Step.bindsHere : Step → Bool
  | .declare _ _ _ | .publish _ _ => true
  | .assign _ _ isLocal => isLocal
  | _ => false

/-- Whether a step may be taken in a scope of a given kind. -/
def Step.AllowedIn (kind : ScopeKind) (step : Step) : Prop :=
  kind = .classBody → step.bindsHere = false

/-- Steps of which none binds a name in a class's own scope. -/
abbrev Orderly (kind : ScopeKind) (steps : List Step) : Prop := Nested Step.AllowedIn kind steps

/-- Whether the walk over an expression binds nothing where the expression itself stands. -/
def Expression.Quiet (value : Expression) : Prop :=
  ∀ depth kind, Orderly kind (Walk.expression depth value)

/-- Whether the walk over a statement binds nothing in a class's own scope. -/
def Statement.Orderly (value : Statement) : Prop :=
  ∀ depth kind, kind ≠ .classBody → KaLang.Orderly kind (Walk.statement depth value)

/-- What a phrase contributes to an orderly walk. -/
def Phrase.Orderly : Phrase → Prop
  | .statement value | .bare value | .behind _ _ value => value.Orderly
  | .sequence _ body =>
    ∀ depth kind, kind ≠ .classBody → KaLang.Orderly kind (Walk.statements depth body)
  | .block body =>
    ∀ depth inner params kind, inner ≠ .classBody →
      KaLang.Orderly kind (Walk.block depth inner params body)
  | .members parts => ∀ depth, KaLang.Orderly .classBody (Walk.members depth parts)
  | .member part => ∀ depth, KaLang.Orderly .classBody (Walk.member depth part)
  | .expression value | .primary value => value.Quiet
  | .onwards left _ whole => left.Quiet → whole.Quiet
  | .constructed owner callee => owner.Quiet → callee.Quiet
  | .items _ _ values _ => ∀ value ∈ values, value.Quiet
  | .entries _ values _ => ∀ entry ∈ values, entry.2.Quiet

namespace Orderly

variable {kind : ScopeKind} {steps : List Step}

theorem visit (span : Span) (hsteps : Orderly kind steps) : Orderly kind (.visit span :: steps) :=
  .flat rfl (fun _ => rfl) hsteps

/-- Where names may be bound, every step may be taken. -/
theorem of_flat_of_ne (hkind : kind ≠ .classBody) (hflat : ∀ step ∈ steps, step.isFlat = true) :
    Orderly kind steps :=
  .of_flat hflat fun _ _ hclass => absurd hclass hkind

theorem expressions {items : List Expression} (hitems : ∀ item ∈ items, item.Quiet)
    (depth : Nat) (kind : ScopeKind) : Orderly kind (Walk.expressions depth items) := by
  induction items with
  | nil => exact .nil
  | cons item items ih =>
    have hfirst := hitems item List.mem_cons_self depth kind
    exact hfirst.append (ih fun other hother => hitems other (List.mem_cons_of_mem _ hother))

theorem fields {entries : List Field} (hentries : ∀ field ∈ entries, field.value.Quiet)
    (depth : Nat) (kind : ScopeKind) : Orderly kind (Walk.fields depth entries) := by
  induction entries with
  | nil => exact .nil
  | cons field entries ih =>
    have hfirst := hentries field List.mem_cons_self depth kind
    have hmore := ih fun other hother => hentries other (List.mem_cons_of_mem _ hother)
    cases field with
    | mk key value => exact hfirst.append hmore

theorem target {target : Expression} {place : Position} :
    Orderly kind (Walk.target target place false) := by
  refine .of_flat (Walk.isFlat_target target place false) ?_
  unfold Walk.target
  cases target.name? <;> cases target.path? <;> simp [Step.AllowedIn, Step.bindsHere]

end Orderly

namespace Expression

variable {left right target value : Expression}

theorem Quiet.binary (hleft : left.Quiet) (hright : right.Quiet) (op : BinaryOperator)
    (span : Span) : (Expression.binary left op right span).Quiet :=
  fun depth kind => (Orderly.visit span (hleft depth kind)).append (hright depth kind)

theorem Quiet.join (hleft : left.Quiet) (hright : right.Quiet) (op : BinaryOperator)
    (inParentheses : Bool) : (left.join op right inParentheses).Quiet := by
  unfold Expression.join
  split
  · exact fun depth kind => .visit _ (hleft depth kind)
  · exact hleft.binary hright op _

theorem Quiet.assign (htarget : target.Quiet) (hvalue : value.Quiet) (op : AssignmentOperator)
    (span : Span) : (Expression.assign target op value false span).Quiet :=
  fun depth kind => ((Orderly.visit span .target).append (htarget depth kind)).append
    (hvalue depth kind)

theorem Quiet.call {args : List Expression} (hleft : left.Quiet)
    (hargs : ∀ arg ∈ args, arg.Quiet) (span : Span) : (Expression.call left args span).Quiet :=
  fun depth kind =>
    (Orderly.visit span (hleft depth kind)).append (Orderly.expressions hargs depth kind)

end Expression

/-- The parts of an assignment are as quiet as the whole. -/
theorem Expression.Quiet.of_assign {target value : Expression} {op : AssignmentOperator}
    {isLocal : Bool} {span : Span}
    (hassign : (Expression.assign target op value isLocal span).Quiet)
    (depth : Nat) (kind : ScopeKind) :
    Orderly kind (Walk.expression depth target ++ Walk.expression depth value) := by
  have hwhole := hassign depth kind
  simp only [Walk.expression, List.append_assoc] at hwhole
  refine hwhole.of_flat_append ?_
  simpa [Step.isFlat] using Walk.isFlat_target target span.first isLocal

namespace Statement

/-- An assignment may be marked as local where it is a statement. -/
theorem orderly_local {target value : Expression} {op : AssignmentOperator} {isLocal : Bool}
    {span : Span} (hassign : (Expression.assign target op value isLocal span).Quiet)
    (place : Span) :
    (Statement.expression (.assign target op value true place) place).Orderly := by
  intro depth kind hkind
  have hfirst : KaLang.Orderly kind (.visit place :: Walk.target target place.first true) := by
    refine Orderly.of_flat_of_ne hkind ?_
    simpa [Step.isFlat] using Walk.isFlat_target target place.first true
  simp only [Walk.statement, Walk.expression, List.append_assoc]
  exact .visit place (hfirst.append (hassign.of_assign depth kind))

theorem orderly_expression {value : Expression} (hvalue : value.Quiet) (span : Span) :
    (Statement.expression value span).Orderly :=
  fun depth kind _ => .visit span (hvalue depth kind)

/-- What may be declared may be exported. -/
theorem Orderly.exportDecl {declaration : Statement} (hdeclaration : declaration.Orderly)
    (span : Span) : (Statement.exportDecl declaration span).Orderly := by
  intro depth kind hkind
  have hinner := hdeclaration depth kind hkind
  cases hassign : declaration.isAssignment with
  | false =>
    rw [Walk.statement_exportDecl hassign]
    exact (Orderly.visit span (.of_flat_of_ne hkind (Walk.isFlat_exported declaration))).append
      hinner
  | true =>
    cases declaration with
    | expression value inner =>
      cases value with
      | assign target op value isLocal place =>
        simp only [Walk.statement, Walk.expression, List.append_assoc] at hinner ⊢
        have hflat : ∀ step ∈ .visit inner :: .visit place ::
            Walk.target target place.first isLocal, step.isFlat = true := by
          simpa [Step.isFlat] using Walk.isFlat_target target place.first isLocal
        have hrest : KaLang.Orderly kind
            (Walk.expression depth target ++ Walk.expression depth value) :=
          Nested.of_flat_append hflat hinner
        have hfirst := Orderly.of_flat_of_ne hkind (Walk.isFlat_exportTarget target place)
        exact (Orderly.visit span hfirst).append (Orderly.visit place hrest)
      | _ => cases hassign
    | _ => cases hassign

theorem orderly_of_flat {value : Statement}
    (hflat : ∀ depth, ∀ step ∈ Walk.statement depth value, step.isFlat = true) : value.Orderly :=
  fun depth _ hkind => Orderly.of_flat_of_ne hkind (hflat depth)

end Statement

/-! ### What is read is orderly -/

theorem Parser.orderly_hostDecl {stop start : Span} {tokens : List Token}
    {reading : Reading Statement tokens} (hread : hostDecl stop start tokens = .ok reading) :
    reading.value.Orderly := by
  unfold hostDecl at hread
  split at hread
  · obtain ⟨_, _, hread⟩ := Except.bind_eq_ok_iff.mp hread
    cases hread
    exact Statement.orderly_of_flat (by simp [Walk.statement, Step.isFlat])
  · obtain ⟨_, _, hread⟩ := Except.bind_eq_ok_iff.mp hread
    cases hread
    exact Statement.orderly_of_flat (by simp [Walk.statement, Step.isFlat])

theorem Statement.orderly_importDecl (source names : List Identifier) (kind : ImportKind)
    (span : Span) : (Statement.importDecl source names kind span).Orderly := by
  refine Statement.orderly_of_flat fun depth => ?_
  simpa [Walk.statement, Step.isFlat] using Walk.isFlat_names names

theorem Parser.orderly_importModule {stop start : Span} {tokens : List Token}
    {reading : Reading Statement tokens} (hread : importModule stop start tokens = .ok reading) :
    reading.value.Orderly := by
  obtain ⟨⟨⟨_, _⟩, _, _⟩, _, hread⟩ := Except.bind_eq_ok_iff.mp hread
  cases hread
  exact Statement.orderly_importDecl _ _ _ _

theorem Parser.orderly_importExports {stop start : Span} {tokens : List Token}
    {reading : Reading Statement tokens} (hread : importExports stop start tokens = .ok reading) :
    reading.value.Orderly := by
  obtain ⟨⟨⟨_, _⟩, _, _⟩, _, hread⟩ := Except.bind_eq_ok_iff.mp hread
  obtain ⟨_, _, hread⟩ := Except.bind_eq_ok_iff.mp hread
  dsimp only at hread
  split at hread
  · obtain ⟨_, _, hread⟩ := Except.bind_eq_ok_iff.mp hread
    cases hread
    exact Statement.orderly_importDecl _ _ _ _
  · obtain ⟨⟨⟨_, _⟩, _, _⟩, _, hread⟩ := Except.bind_eq_ok_iff.mp hread
    cases hread
    exact Statement.orderly_importDecl _ _ _ _

/-- A block is orderly wherever it stands, since its body has a scope of its own. -/
theorem Phrase.orderly_block {words : List Keyword} {body : List Statement}
    (hbody : (Phrase.sequence words body).Orderly) (span : Span) :
    (Phrase.block (.mk body span)).Orderly := by
  intro depth inner params kind hinner
  exact .block (fun _ => rfl) (Orderly.of_flat_of_ne hinner (Walk.isFlat_names params))
    (hbody (depth + 1) inner hinner)

theorem Statement.orderly_condition {test : Expression} {thenBranch : Block}
    {elseBranch : Option Statement} (htest : test.Quiet)
    (hthen : (Phrase.block thenBranch).Orderly) (helse : ∀ branch ∈ elseBranch, branch.Orderly)
    (span : Span) : (Statement.condition test thenBranch elseBranch span).Orderly := by
  intro depth kind hkind
  have hcondition := (Orderly.visit span (htest depth kind)).append
    (hthen depth .block [] kind (by decide))
  cases elseBranch with
  | none =>
    rw [Walk.statement, List.append_nil]
    exact hcondition
  | some branch =>
    have hbranch := helse branch rfl
    cases branch with
    | block inner => exact hcondition.append (hbranch depth kind hkind)
    | _ => exact hcondition.append (hbranch (depth + 1) kind hkind)

theorem Statement.orderly_functionDecl {body : Block} (hbody : (Phrase.block body).Orderly)
    (name : Identifier) (params : List Identifier) (span : Span) :
    (Statement.functionDecl name params body span).Orderly := by
  intro depth kind hkind
  have hdeclare : Step.AllowedIn kind (.declare name.name .function span.first) :=
    fun hclass => absurd hclass hkind
  exact Orderly.visit span (.flat rfl hdeclare (hbody depth .function params kind (by decide)))

theorem Expression.quiet_lambda {body : Block} (hbody : (Phrase.block body).Orderly)
    (params : List Identifier) (span : Span) : (Expression.lambda params body span).Quiet :=
  fun depth kind => Orderly.visit span (hbody depth .function params kind (by decide))

/-- What is read is orderly, by the rules of the grammar. -/
theorem Reads.orderly {stop : Span} {phrase : Phrase} {tokens rest : List Token}
    (hreads : Reads stop phrase tokens rest) : phrase.Orderly := by
  induction hreads with
  | unguarded _ _ ih | opened _ _ ih => exact ih
  | guarded _ _ _ ihinner ihtest =>
    intro depth kind hkind
    exact (Orderly.visit _ (ihtest depth kind)).append
      (.guarded (ihinner (depth + 1) .block (by decide)))
  | plain _ ih => exact Statement.orderly_expression ih _
  | none => exact fun _ _ _ => .nil
  | more _ _ ihfirst ihmore =>
    exact fun depth kind hkind => (ihfirst depth kind hkind).append (ihmore depth kind hkind)
  | block _ _ _ ih => exact Phrase.orderly_block ih _
  | conditionAlone _ _ _ _ _ _ ihtest ihthen =>
    exact Statement.orderly_condition ihtest (Phrase.orderly_block ihthen _) (by simp) _
  | conditionChain _ _ _ _ _ _ _ _ ihtest ihthen ihbranch =>
    refine Statement.orderly_condition ihtest (Phrase.orderly_block ihthen _) ?_ _
    rintro branch ⟨⟩
    exact ihbranch
  | conditionElse _ _ _ _ _ _ _ _ _ elseBlock hblock ihtest ihthen ihbody =>
    refine Statement.orderly_condition ihtest (Phrase.orderly_block ihthen _) ?_ _
    rintro branch ⟨⟩
    intro depth kind hkind
    subst hblock
    exact Orderly.visit _ (Phrase.orderly_block ihbody _ depth .block [] kind (by decide))
  | forLoop _ _ _ _ ihiterable ihbody =>
    intro depth kind hkind
    exact (Orderly.visit _ (.flat rfl (fun _ => rfl) (ihiterable depth kind))).append
      (ihbody depth .block [] kind (by decide))
  | whileLoop _ _ ihtest ihbody =>
    intro depth kind hkind
    exact (Orderly.visit _ (ihtest depth kind)).append (ihbody depth .block [] kind (by decide))
  | functionDecl _ _ _ ihbody | functionWith _ _ _ ihbody =>
    exact Statement.orderly_functionDecl ihbody _ _ _
  | classDecl _ _ _ _ ihparts =>
    intro depth kind hkind
    exact Orderly.visit _ (.flat rfl (fun hclass => absurd hclass hkind)
      (.classBody (ihparts (depth + 1))))
  | returnNothing | breakLoop | continueLoop =>
    exact Statement.orderly_of_flat (by simp [Walk.statement, Step.isFlat])
  | returnValue _ _ ih => exact fun depth kind _ => Orderly.visit _ (ih depth kind)
  | hostDecl hreading => exact Parser.orderly_hostDecl hreading
  | importModule hreading => exact Parser.orderly_importModule hreading
  | importExports hreading => exact Parser.orderly_importExports hreading
  | localAssignment _ ih => exact Statement.orderly_local ih _
  | exportOpened _ _ _ ih => exact Statement.Orderly.exportDecl ih _
  | exportPlain _ ih => exact (Statement.orderly_expression ih _).exportDecl _
  | noMember => exact fun _ => .nil
  | moreMembers _ _ ihfirst ihmore =>
    exact fun depth => (ihfirst depth).append (ihmore depth)
  | field _ _ _ ih => exact fun depth => Orderly.visit _ (ih depth .classBody)
  | method _ _ _ ih =>
    exact fun depth => Orderly.visit _ (ih depth .function _ .classBody (by decide))
  | operand _ _ _ ihfirst ihwhole => exact ihwhole ihfirst
  | assignment _ _ _ _ _ _ ihfirst ihtarget ihvalue =>
    exact (ihtarget ihfirst).assign ihvalue _ _
  | enough => exact fun hleft => hleft
  | call _ _ _ _ ihargs ihwhole => exact fun hleft => ihwhole (hleft.call ihargs _)
  | binary _ _ _ _ _ ihoperand ihright ihwhole =>
    exact fun hleft => ihwhole (hleft.join (ihright ihoperand) _ _)
  | string | number | name => exact fun _ _ => Orderly.visit _ .nil
  | unary _ _ _ _ ihinner ihoperand =>
    exact fun depth kind => Orderly.visit _ (ihoperand ihinner depth kind)
  | parentheses _ _ _ ih => exact ih
  | array _ _ ih =>
    exact fun depth kind => Orderly.visit _ (Orderly.expressions ih (depth + 1) kind)
  | object _ _ ih =>
    exact fun depth kind => Orderly.visit _
      (Orderly.fields (Field.forall_foldl_put (by simp) ih) (depth + 1) kind)
  | lambda _ _ _ ih => exact Expression.quiet_lambda ih _ _
  | lambdaAlone _ ih => exact Expression.quiet_lambda ih _ _
  | construct _ _ _ _ _ ihowner ihcallee ihargs =>
    exact fun depth kind => (Orderly.visit _ (ihcallee ihowner depth kind)).append
      (Orderly.expressions ihargs depth kind)
  | owner => exact fun howner => howner
  | joined _ _ _ ihkey ihcallee => exact fun howner => ihcallee (howner.join ihkey _ _)
  | lastItem => simp [Phrase.Orderly]
  | firstItem _ _ ihfirst ihmore => exact List.forall_mem_cons.mpr ⟨ihfirst, ihmore⟩
  | nextItem _ _ _ ihfirst ihmore => exact List.forall_mem_cons.mpr ⟨ihfirst, ihmore⟩
  | lastEntry => simp [Phrase.Orderly]
  | firstEntry _ _ _ ihvalue ihmore => exact List.forall_mem_cons.mpr ⟨ihvalue, ihmore⟩
  | nextEntry _ _ _ _ ihvalue ihmore => exact List.forall_mem_cons.mpr ⟨ihvalue, ihmore⟩

/-- The walk over a program that was read is orderly. -/
theorem Program.orderly_ofSource {source : String} {program : Program}
    (hread : ofSource source = .ok program) : Orderly .function (Walk.program program) := by
  obtain ⟨stop, tokens, rest, hreads⟩ := exists_reads_ofSource hread
  exact Orderly.visit program.span (hreads.orderly 0 .function (by decide))

/-! ### Class scopes -/

namespace ScopeTree

variable {tree : ScopeTree} {id : ScopeId} {kind : ScopeKind} {steps : List Step}

/-- Whether no class's scope has a symbol. -/
def ClassesEmpty (tree : ScopeTree) : Prop :=
  ∀ id scope, tree.scope? id = some scope → scope.kind = .classBody → scope.symbols = []

theorem classesEmpty_start : start.ClassesEmpty := by
  intro id scope hscope hkind
  have hmem := mem_of_scope? hscope
  rw [List.mem_singleton.mp hmem]

theorem ClassesEmpty.bindIn (hempty : tree.ClassesEmpty)
    (hid : ∀ scope, tree.scope? id = some scope → scope.kind ≠ .classBody) (symbol : Symbol) :
    (tree.bindIn id symbol).ClassesEmpty := by
  intro other scope hscope hkind
  rw [scope?_bindIn] at hscope
  obtain ⟨old, hold, hscope⟩ := Option.map_eq_some_iff.mp hscope
  split at hscope
  · next hother =>
    rw [hother] at hold
    rw [← hscope] at hkind
    exact absurd hkind (hid old hold)
  · rw [← hscope] at hkind ⊢
    exact hempty other old hold hkind

theorem ClassesEmpty.enter (hempty : tree.ClassesEmpty) (kind : ScopeKind) :
    (tree.enter kind).ClassesEmpty := by
  intro id scope hscope hkind
  rw [scope?_enter] at hscope
  split at hscope
  · cases hscope
    rfl
  · exact hempty id scope hscope hkind

theorem ClassesEmpty.exit (hempty : tree.ClassesEmpty) : tree.exit.ClassesEmpty := by
  intro id scope hscope hkind
  exact hempty id scope (by rwa [scope?_exit] at hscope) hkind

/-- An allowed step leaves classes alone. What it binds is bound in the current scope, if that is no
    class's, or in a function's. -/
theorem ClassesEmpty.step (hempty : tree.ClassesEmpty) (hwell : tree.WellFormed) {step : Step}
    (hallowed : ∀ scope, tree.scope? tree.current = some scope → step.AllowedIn scope.kind) :
    (tree.step step).ClassesEmpty := by
  have hhere (hbinds : step.bindsHere = true) (symbol : Symbol) :
      (tree.bindIn tree.current symbol).ClassesEmpty := by
    refine hempty.bindIn (fun scope hscope hkind => ?_) symbol
    have hnot := hallowed scope hscope hkind
    rw [hbinds] at hnot
    cases hnot
  cases step with
  | enter opening => exact hempty.enter opening.kind
  | exit => exact hempty.exit
  | declare name symbolKind place => exact hhere rfl _
  | assign name place isLocal =>
    simp only [ScopeTree.step, assign]
    cases isLocal with
    | true =>
      simp only [↓reduceIte]
      split
      · exact hempty
      · exact hhere rfl _
    | false =>
      simp only [Bool.false_eq_true, ↓reduceIte]
      split
      · exact hempty
      · refine hempty.bindIn (fun scope hscope hkind => ?_) _
        obtain ⟨_, function, hfunction, hfunctionKind⟩ := hwell.functionScope_spec
        rw [hscope] at hfunction
        cases hfunction
        rw [hkind] at hfunctionKind
        cases hfunctionKind
  | publish name span =>
    simp only [ScopeTree.step]
    split
    · exact hempty
    · exact hhere rfl _
  | _ => exact hempty

/-- Orderly steps leave classes alone, if they begin in a scope of the kind that they are for. -/
theorem ClassesEmpty.run (hempty : tree.ClassesEmpty) (horderly : Orderly kind steps)
    (hwell : tree.WellFormed)
    (hcurrent : ∃ scope, tree.scope? tree.current = some scope ∧ scope.kind = kind) :
    (tree.run steps).ClassesEmpty := by
  induction horderly generalizing tree with
  | nil => exact hempty
  | @flat kind step more hflat hallowed _ ih =>
    obtain ⟨scope, hscope, hkind⟩ := hcurrent
    obtain ⟨later, hlater, _, hlaterKind⟩ :=
      ((tree.change_step step).grows hwell).scope tree.current scope hscope
    refine ih (hempty.step hwell fun same hsame => ?_) (wellFormed_step hwell step)
      ⟨later, by rwa [current_step_of_isFlat hflat], hlaterKind.trans hkind⟩
    rw [hscope] at hsame
    cases hsame
    rwa [hkind]
  | @scope kind opening body more hinside hbody hmore ihbody ihmore =>
    obtain ⟨scope, hscope, hkind⟩ := hcurrent
    have hopen := wellFormed_step hwell (.enter opening)
    have hclosed := wellFormed_run hopen body
    have hinner := ihbody (hempty.enter opening.kind) hopen
      ⟨_, (scope?_enter tree opening.kind tree.size).trans (if_pos rfl), rfl⟩
    -- Behind the body the same scope is current, and has kept its kind.
    have hback := current_run (.enclosed hinside hbody : Nested Step.AllowedIn kind _) hwell
    have hsteps : tree.run (.enter opening :: body ++ [.exit]) =
        ((tree.step (.enter opening)).run body).step .exit := by
      rw [List.cons_append, run_cons, run_append]
      rfl
    obtain ⟨later, hlater, _, hlaterKind⟩ :=
      (grows_run hwell (.enter opening :: body ++ [.exit])).scope tree.current scope hscope
    rw [hsteps] at hback hlater
    rw [run_cons, run_append, run_cons]
    exact ihmore hinner.exit (wellFormed_step hclosed .exit)
      ⟨later, by rw [hback]; exact hlater, hlaterKind.trans hkind⟩

end ScopeTree

/-- In the tree of a program that was read no class's scope has a symbol. -/
theorem Program.classesEmpty_ofSource {source : String} {program : Program}
    (hread : ofSource source = .ok program) :
    (ScopeTree.start.run (Walk.program program)).ClassesEmpty :=
  ScopeTree.classesEmpty_start.run (orderly_ofSource hread) ScopeTree.wellFormed_start
    ⟨⟨0, none, .function, []⟩, rfl, rfl⟩

end KaLang
