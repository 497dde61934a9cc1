import KaLang.Proofs.Script.Balance

/-!
References to the operator table, found in a text by a scanner alone: outside all literals, the name
of the table with a string in brackets behind it. A text is tame if it leaves no literal open and
every string in it that a bracket closes is a key of the table (`Preamble.Tame`). That is so of any
texts behind each other if it is so of each, and of what an emitter writes in one go.
-/

namespace KaLang

namespace Scanner

/-! ### Where a scanner stands -/

/-- Where a scanner stands behind a character, whatever brackets are open. -/
def Mode.step : Mode → Char → Mode
  | code, char | slash, char =>
    if char = '"' then string else if char = '\x60' then template
    else if char = '/' then slash else code
  | string, char => if char = '\\' then stringEscape else if char = '"' then code else string
  | stringEscape, _ => string
  | template, char | dollar, char =>
    if char = '\\' then templateEscape else if char = '\x60' then code
    else if char = '$' then dollar else template
  | templateEscape, _ => template

/-- Where a scanner stands behind a text. -/
def Mode.run (mode : Mode) (text : List Char) : Mode := text.foldl step mode

theorem mode_of_stepCode {awaited : List Char} {behindSlash : Bool} {char : Char} {after : Scanner}
    (hstep : stepCode awaited behindSlash char = some after) :
    after.mode = Mode.code.step char := by
  have hclose : close char awaited = some after → after.mode = .code := by
    intro hstep
    unfold close at hstep
    split at hstep
    · cases hstep
    · split at hstep <;> cases hstep
      rfl
  unfold stepCode at hstep
  unfold Mode.step
  grind

theorem mode_of_step {scanner after : Scanner} {char : Char}
    (hstep : scanner.step char = some after) : after.mode = scanner.mode.step char := by
  obtain ⟨awaited, mode⟩ := scanner
  cases mode with
  | code | slash => exact mode_of_stepCode hstep
  | string =>
    obtain ⟨mode, hmode, rfl⟩ := Option.map_eq_some_iff.mp hstep
    simp only [stepString] at hmode
    unfold Mode.step
    grind
  | stringEscape =>
    simp only [step] at hstep
    split at hstep <;> cases hstep
    rfl
  | template | dollar =>
    obtain ⟨mode, hmode, rfl⟩ := Option.map_eq_some_iff.mp hstep
    simp only [stepTemplate] at hmode
    unfold Mode.step
    grind
  | templateEscape =>
    cases hstep
    rfl

theorem mode_of_run {scanner after : Scanner} {text : List Char}
    (hrun : scanner.run text = some after) : after.mode = scanner.mode.run text := by
  induction text generalizing scanner with
  | nil =>
    cases hrun
    rfl
  | cons char text ih =>
    obtain ⟨middle, hstep, hrun⟩ := Option.bind_eq_some_iff.mp hrun
    rw [ih hrun, mode_of_step hstep]
    rfl

namespace Mode

@[simp] theorem run_cons (mode : Mode) (char : Char) (text : List Char) :
    mode.run (char :: text) = (mode.step char).run text := rfl

@[simp] theorem run_append (mode : Mode) (text more : List Char) :
    mode.run (text ++ more) = (mode.run text).run more := List.foldl_append

end Mode

/-- Whether a character outside literals is no sign of a literal or a comment. -/
def isQuiet (char : Char) : Bool := char ∉ ['"', '\x60', '/']

theorem Mode.run_quiet {text : List Char} (htext : ∀ char ∈ text, isQuiet char = true) :
    code.run text = code := by
  induction text with
  | nil => rfl
  | cons char text ih =>
    obtain ⟨hchar, htext⟩ := List.forall_mem_cons.mp htext
    have hother := of_decide_eq_true hchar
    simp only [List.mem_cons, List.not_mem_nil, or_false, not_or] at hother
    simp [step, hother, ih htext]

/-! ### Ends of literals -/

/-- Whether a text that starts inside a literal ends exactly where the literal does. -/
inductive Mode.Closes : Mode → List Char → Prop where
  | last {mode : Mode} {char : Char} (hstep : mode.step char = code) : Closes mode [char]
  | cons {mode next : Mode} {char : Char} {text : List Char} (hstep : mode.step char = next)
      (hnext : next ≠ code) (hrest : Closes next text) : Closes mode (char :: text)

namespace Mode.Closes

variable {mode : Mode} {text other before behind : List Char}

theorem run (htext : Closes mode text) : mode.run text = code := by
  induction htext with
  | last hstep => exact hstep
  | cons hstep _ _ ih => rwa [run_cons, hstep]

/-- A literal does not end within itself. -/
theorem run_inside (htext : Closes mode text) (hmode : mode ≠ code)
    (hsplit : text = before ++ behind) (hbehind : behind ≠ []) : mode.run before ≠ code := by
  induction htext generalizing before with
  | last hstep =>
    cases before with
    | nil => exact hmode
    | cons char before => simp_all
  | cons hstep hnext _ ih =>
    cases before with
    | nil => exact hmode
    | cons char before =>
      obtain ⟨rfl, hrest⟩ := List.cons_eq_cons.mp hsplit
      rw [run_cons, hstep]
      exact ih hnext hrest

/-- Where a literal ends is told by the text that it starts. -/
theorem append_inj {more rest : List Char} (htext : Closes mode text) (hother : Closes mode other)
    (heq : text ++ more = other ++ rest) : text = other ∧ more = rest := by
  induction htext generalizing other with
  | last hstep =>
    cases hother with
    | last _ =>
      obtain ⟨rfl, hrest⟩ := List.cons_eq_cons.mp heq
      exact ⟨rfl, hrest⟩
    | cons hother hnext _ =>
      obtain ⟨rfl, _⟩ := List.cons_eq_cons.mp heq
      exact absurd (hother.symm.trans hstep) hnext
  | cons hstep hnext _ ih =>
    cases hother with
    | last hother =>
      obtain ⟨rfl, _⟩ := List.cons_eq_cons.mp heq
      exact absurd (hstep.symm.trans hother) hnext
    | cons hother _ hmore =>
      obtain ⟨rfl, hbehind⟩ := List.cons_eq_cons.mp heq
      obtain rfl := hstep.symm.trans hother
      obtain ⟨rfl, hrest⟩ := ih hmore hbehind
      exact ⟨rfl, hrest⟩

end Mode.Closes

/-- Behind the inside of a template, and its mark. -/
theorem Mode.closes_template {mode : Mode} {text : List Char}
    (hmode : mode = template ∨ mode = dollar) :
    Closes mode (Literal.templateBody text ++ ['\x60']) := by
  induction text generalizing mode with
  | nil => rcases hmode with rfl | rfl <;> exact .last rfl
  | cons char text ih =>
    have htemplate : template ≠ code := nofun
    have hdollar : dollar ≠ code := nofun
    have hescape : templateEscape ≠ code := nofun
    unfold Literal.templateBody
    dsimp only
    have hescaped {char : Char} : Closes mode
        ('\\' :: char :: (Literal.templateBody text ++ ['\x60'])) := by
      rcases hmode with rfl | rfl <;> exact .cons rfl hescape (.cons rfl htemplate (ih (.inl rfl)))
    split
    · exact hescaped
    · exact hescaped
    · exact hescaped
    · split
      · exact hescaped
      · rcases hmode with rfl | rfl <;> exact .cons rfl hdollar (ih (.inr rfl))
    · next hplain hmark _ hother =>
      have hstep : mode.step char = template := by
        rcases hmode with rfl | rfl <;>
          exact (if_neg hplain).trans ((if_neg hmark).trans (if_neg hother))
      exact .cons hstep htemplate (ih (.inl rfl))

/-- Behind the inside of a key, and its mark. -/
theorem Mode.closes_key (text : List Char) :
    Closes string (text.flatMap Literal.keyChar ++ ['"']) := by
  induction text with
  | nil => exact .last rfl
  | cons char text ih =>
    rw [List.flatMap_cons, List.append_assoc]
    unfold Literal.keyChar
    split
    · exact .cons rfl nofun (.cons rfl nofun ih)
    · exact .cons rfl nofun (.cons rfl nofun ih)
    · exact .cons rfl nofun (.cons rfl nofun ih)
    · exact .cons rfl nofun (.cons rfl nofun ih)
    · exact .cons rfl nofun (.cons rfl nofun ih)
    · next hescape hmark _ _ _ =>
      have hstep : string.step char = string := (if_neg hescape).trans (if_neg hmark)
      exact .cons hstep nofun ih

/-- Behind a text in which a string goes on, and a mark. -/
theorem Mode.closes_string {text : List Char}
    (htext : ∀ char ∈ text, stepString char = some string) : Closes string (text ++ ['"']) := by
  induction text with
  | nil => exact .last rfl
  | cons char text ih =>
    obtain ⟨hchar, htext⟩ := List.forall_mem_cons.mp htext
    have hstep : Scanner.step ⟨[], string⟩ char = some ⟨[], string⟩ :=
      congrArg (Option.map (Scanner.mk [])) hchar
    exact .cons (mode_of_step hstep).symm nofun (ih htext)

end Scanner

open Scanner (Mode isQuiet)

namespace Preamble

/-! ### Keys -/

/-- Whether the operator table has an entry under a key: one of two parameters for a binary operator
    other than member access, or one of one parameter for a unary operator. -/
def Defines (key : List Char) : Prop :=
  (∃ op : BinaryOperator, op ≠ .member ∧ key = op.text.toList ∧
    ∃ value, "\"" ++ op.text ++ "\": (a, b) => " ++ value ∈ entries) ∨
  ∃ op : UnaryOperator, key = (op.text ++ "$").toList ∧
    ∃ value, "\"" ++ op.text ++ "$\": a => " ++ value ∈ entries

theorem defines_binaryKey {op : BinaryOperator} (hop : op ≠ .member) :
    Defines (binaryKey op).toList := by
  have hmem : op ∈ BinaryOperator.overloadable := by
    rcases List.mem_append.mp (BinaryOperator.mem_all op) with hmem | hmem
    · exact hmem
    · exact absurd (List.mem_singleton.mp hmem) hop
  have hentry : binaryEntry op = "\"" ++ op.text ++ "\": (a, b) => " ++ ("a?.[\"" ++ op.text ++
      "\"] ? a[\"" ++ op.text ++ "\"](b) : " ++ binaryDefault op ++ ",") := by
    simp [← String.toList_inj, binaryEntry, binaryKey]
  have hdefined : binaryEntry op ∈ entries := List.mem_append_left _ (List.mem_map_of_mem hmem)
  exact .inl ⟨op, hop, rfl, _, hentry ▸ hdefined⟩

theorem defines_unaryKey (op : UnaryOperator) : Defines (unaryKey op).toList := by
  have hentry : unaryEntry op = "\"" ++ op.text ++ "$\": a => " ++ ("a?.[\"" ++ op.text ++
      "\"] ? a[\"" ++ op.text ++ "\"]() : " ++ op.text ++ "a,") := by
    simp [← String.toList_inj, unaryEntry, unaryKey]
  have hdefined : unaryEntry op ∈ entries :=
    List.mem_append_right _ (List.mem_map_of_mem (UnaryOperator.mem_all op))
  exact .inr ⟨op, rfl, _, hentry ▸ hdefined⟩

/-- The table has no entry for member access. -/
theorem Defines.ne_member {key : List Char} (hkey : Defines key) :
    key ≠ BinaryOperator.member.text.toList := by
  rcases hkey with ⟨op, hop, rfl, -⟩ | ⟨op, rfl, -⟩
  · cases op <;> first | exact absurd rfl hop | decide
  · cases op <;> decide

/-- Whether a text leaves no literal open, and every string in it that a closing bracket stands
    behind is a key of the table. -/
structure Tame (text : List Char) : Prop where
  leads : Mode.code.run text = .code
  last : text.getLast? ≠ some '"'
  keys : ∀ before key after, text = before ++ '"' :: (key ++ ['"']) ++ ']' :: after →
    Mode.code.run before = .code → Mode.string.Closes (key ++ ['"']) → Defines key

namespace Tame

variable {text more : List Char}

theorem nil : Tame [] := ⟨rfl, nofun, by simp⟩

/-- No string of the second text starts in the first one. -/
theorem append (htext : Tame text) (hmore : Tame more) : Tame (text ++ more) where
  leads := by rw [Mode.run_append, htext.leads, hmore.leads]
  last := by
    rw [List.getLast?_append]
    intro hlast
    rcases Option.or_eq_some_iff.mp hlast with hlast | ⟨-, hlast⟩
    · exact hmore.last hlast
    · exact htext.last hlast
  keys := by
    intro before key after hsplit hbefore hkey
    have hsecond : ∀ between, before = text ++ between →
        more = between ++ '"' :: (key ++ ['"']) ++ ']' :: after → Defines key := by
      rintro between rfl hend
      rw [Mode.run_append, htext.leads] at hbefore
      exact hmore.keys between key after hend hbefore hkey
    rw [List.append_assoc] at hsplit
    rcases List.append_eq_append_iff.mp hsplit with ⟨between, hahead, hend⟩ | ⟨string, hahead, hend⟩
    · exact hsecond between hahead (by rw [hend, List.append_assoc])
    · cases string with
      | nil => exact hsecond [] (by simpa using hahead.symm) (by simpa using hend.symm)
      | cons mark string =>
        obtain ⟨rfl, hstring⟩ := List.cons_eq_cons.mp hend
        -- The first text ends behind the string at the earliest.
        have hopen : Mode.string.run string = .code := by
          rw [← htext.leads, hahead, Mode.run_append, hbefore]
          rfl
        have hmarked : (before ++ '"' :: (key ++ ['"'])).getLast? = some '"' := by
          rw [← List.cons_append, ← List.append_assoc, List.getLast?_concat]
        rcases List.append_eq_append_iff.mp hstring with ⟨rest, hrest, hafter⟩ | ⟨rest, hrest, -⟩
        · cases rest with
          | nil => exact absurd (by rw [hahead, hrest, List.append_nil, hmarked]) htext.last
          | cons bracket rest =>
            obtain ⟨rfl, -⟩ := List.cons_eq_cons.mp hafter
            exact htext.keys before key rest (by simp [hahead, hrest]) hbefore hkey
        · by_cases hnil : rest = []
          · rw [hnil, List.append_nil] at hrest
            exact absurd (by rw [hahead, ← hrest, hmarked]) htext.last
          · exact absurd hopen (hkey.run_inside nofun hrest hnil)

/-- A text without signs of literals. -/
theorem quiet (htext : ∀ char ∈ text, isQuiet char = true) : Tame text := by
  have hmark : '"' ∉ text := fun hmem => absurd (htext _ hmem) (by decide)
  refine ⟨Mode.run_quiet htext, fun hlast => hmark (List.mem_of_getLast? hlast), ?_⟩
  rintro before key after rfl
  simp at hmark

/-- A literal in front of a text without signs of literals. -/
theorem literal {body behind : List Char} {mark : Char} {mode : Mode}
    (hmark : Mode.code.step mark = mode) (hmode : mode ≠ .code) (hbody : mode.Closes body)
    (hbehind : ∀ char ∈ behind, isQuiet char = true)
    (hlast : (mark :: body ++ behind).getLast? ≠ some '"')
    (hdefined : ∀ key after, mark = '"' → body = key ++ ['"'] → behind = ']' :: after →
      Defines key) : Tame (mark :: body ++ behind) := by
  refine ⟨?_, hlast, ?_⟩
  · rw [List.cons_append, Mode.run_cons, Mode.run_append, hmark, hbody.run, Mode.run_quiet hbehind]
  · intro before key after hsplit hbefore hkey
    have hnone : '"' ∉ behind := fun hmem => absurd (hbehind _ hmem) (by decide)
    cases before with
    | nil =>
      obtain ⟨rfl, hinside⟩ := List.cons_eq_cons.mp hsplit
      obtain rfl : mode = .string := hmark.symm
      obtain ⟨hsame, hbracket⟩ := hbody.append_inj hkey hinside
      exact hdefined key after rfl hsame hbracket
    | cons first before =>
      rw [List.append_assoc] at hsplit
      obtain ⟨rfl, hinside⟩ := List.cons_eq_cons.mp hsplit
      rw [Mode.run_cons, hmark] at hbefore
      -- The string would start inside the literal or behind it.
      rcases List.append_eq_append_iff.mp hinside with ⟨rest, -, hrest⟩ | ⟨rest, hrest, hend⟩
      · exact absurd (by simp [hrest]) hnone
      · by_cases hnil : rest = []
        · subst hnil
          exact absurd (hend ▸ List.mem_cons_self : '"' ∈ [] ++ behind) hnone
        · exact absurd hbefore (hbody.run_inside hmode hrest hnil)

end Tame

end Preamble

/-! ### What is written in one go -/

/-- Whether a text has no sign of a literal or a comment. -/
def Quiet (text : String) : Prop := ∀ char ∈ text.toList, isQuiet char = true

namespace Quiet

variable {text more : String}

theorem of_all (htext : text.toList.all isQuiet = true) : Quiet text := List.all_eq_true.mp htext

theorem append (htext : Quiet text) (hmore : Quiet more) : Quiet (text ++ more) := by
  intro char hchar
  rw [String.toList_append] at hchar
  exact (List.mem_append.mp hchar).elim (htext char) (hmore char)

/-- A text between two others. -/
theorem around {ahead behind : String} (hahead : Quiet ahead) (htext : Quiet text)
    (hbehind : Quiet behind) : Quiet (ahead ++ text ++ behind) :=
  (hahead.append htext).append hbehind

theorem of_plain (htext : Scanner.Plain text) : Quiet text := by
  intro char hchar
  have hplain := of_decide_eq_true (htext char hchar)
  simp only [List.mem_cons, List.not_mem_nil, or_false, not_or] at hplain
  simp [isQuiet, hplain]

theorem name (hname : IsName text) : Quiet text := of_plain (.name hname)

theorem names {names : List Identifier} (hnames : ∀ name ∈ names, IsName name.name) :
    Quiet (Identifier.row names) :=
  of_plain (.names hnames)

end Quiet

namespace Preamble.Tame

theorem template (value : String) : Tame (Literal.template value).toList := by
  have hopen : Mode.code.step '\x60' = .template := rfl
  have hbody : Mode.template.Closes (Literal.templateBody value.toList ++ ['\x60']) :=
    Mode.closes_template (.inl rfl)
  have hlast : ('\x60' :: (Literal.templateBody value.toList ++ ['\x60']) ++ []).getLast? ≠
      some '"' := by
    rw [List.append_nil, ← List.cons_append, List.getLast?_concat]
    exact nofun
  have htame := literal hopen nofun hbody (List.forall_mem_nil _) hlast nofun
  rw [Literal.template, String.toList_ofList]
  simpa using htame

theorem stepString_binary (op : BinaryOperator) :
    ∀ char ∈ op.text.toList, Scanner.stepString char = some .string := by
  cases op <;> simp [BinaryOperator.text, Scanner.stepString]

/-- A string between texts without signs of literals. -/
theorem quoted {ahead behind : String} {body : List Char} (hahead : Quiet ahead)
    (hbody : Mode.string.Closes (body ++ ['"'])) (hbehind : Quiet behind)
    (hsome : behind.toList ≠ []) (hkey : behind.toList.head? = some ']' → Defines body) :
    Tame (ahead.toList ++ ('"' :: (body ++ ['"']) ++ behind.toList)) := by
  refine (quiet hahead).append (literal rfl nofun hbody hbehind ?_ ?_)
  · rw [List.getLast?_append_of_ne_nil _ hsome]
    intro hlast
    exact absurd (hbehind _ (List.mem_of_getLast? hlast)) (by decide)
  · intro key after _ hsame hbracket
    rw [← List.append_cancel_right hsame]
    exact hkey (by rw [hbracket, List.head?_cons])

/-- The start of an operator's application. -/
theorem reference {key : String}
    (hplain : ∀ char ∈ key.toList, Scanner.stepString char = some .string)
    (hkey : Defines key.toList) : Tame (Preamble.reference key ++ "(").toList := by
  have hahead : Quiet "__kaOperators[" := .of_all rfl
  have htame := quoted hahead (Mode.closes_string hplain) (.of_all rfl : Quiet "](") nofun
    fun _ => hkey
  simpa [Preamble.reference, operatorTable] using htame

theorem binaryReference {op : BinaryOperator} (hop : op ≠ .member) :
    Tame (Preamble.reference (binaryKey op) ++ "(").toList :=
  reference (stepString_binary op) (defines_binaryKey hop)

theorem unaryReference (op : UnaryOperator) :
    Tame (Preamble.reference (unaryKey op) ++ "(").toList := by
  refine reference ?_ (defines_unaryKey op)
  cases op <;> simp [unaryKey, UnaryOperator.text, Scanner.stepString]

/-- A key with a colon behind it. -/
theorem key (value : String) : Tame (Literal.key value ++ ": ").toList := by
  have hahead : Quiet "" := .of_all rfl
  have htame := quoted hahead (Mode.closes_key value.toList) (.of_all rfl : Quiet ": ") nofun nofun
  rw [Literal.key, String.toList_append, String.toList_ofList]
  simpa using htame

/-- The head of a method. An operator that is its name has a parenthesis behind it. -/
theorem methodHead {name : MethodName} {params : List Identifier} {body : Block} {span : Span}
    (hmade : (Node.member (.method name params body span)).Made)
    (hparams : ∀ name ∈ params, IsName name.name) :
    Tame (Emitter.methodName name ++ "(" ++ Identifier.row params ++ ") ").toList := by
  have hbehind : Quiet ("(" ++ Identifier.row params ++ ") ") :=
    .around (.of_all rfl) (.names hparams) (.of_all rfl)
  cases name with
  | identifier name =>
    have hname : Quiet (if name.name = "__init__" then "constructor" else name.name) := by
      split
      · exact .of_all rfl
      · exact .name hmade
    have hhead := quiet (hname.append hbehind)
    simpa [Emitter.methodName, String.append_assoc] using hhead
  | operator op place =>
    have hahead : Quiet "" := .of_all rfl
    have htame := quoted hahead (Mode.closes_string (stepString_binary op)) hbehind (by simp)
      (by simp)
    simpa [Emitter.methodName, String.append_assoc] using htame

/-- An import statement, for a module whose name has no sign in it that ends a string. -/
theorem importLine {names : List Identifier} {specifier : String} (kind : ImportKind)
    (hnames : ∀ name ∈ names, IsName name.name)
    (hspecifier : ∀ char ∈ specifier.toList, Scanner.stepString char = some .string) :
    Tame ("import " ++ Emitter.importBinding kind names ++ " from \"" ++ specifier ++
      "\";").toList := by
  have hbinding : Quiet (Emitter.importBinding kind names) := by
    cases kind with
    | wholeModule => exact Quiet.append (.of_all rfl) (.names hnames)
    | defaultExport => exact .names hnames
    | namedExports => exact .around (.of_all rfl) (.names hnames) (.of_all rfl)
  have hahead : Quiet ("import " ++ Emitter.importBinding kind names ++ " from ") :=
    .around (.of_all rfl) hbinding (.of_all rfl)
  have htame := quoted hahead (Mode.closes_string hspecifier) (.of_all rfl : Quiet ";") nofun nofun
  simpa using htame

end Preamble.Tame

end KaLang
