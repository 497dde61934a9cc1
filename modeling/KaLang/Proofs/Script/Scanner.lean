import KaLang.Proofs.Script.Shown

/-!
A scanner for scripts. It goes over a text from left to right, skips templates and strings in double
quotes, and keeps the brackets that are still open; it fails at a comment, at a bracket that closes
none, at a line break in a string and at a substitution in a template. What it makes of a text is
told by the brackets awaited in front of it and behind it, whatever is open around the text
(`Scanner.Scans`).
-/

namespace KaLang

/-- Where a scanner stands: outside all literals, perhaps right behind a slash; inside a string; or
    inside a template, perhaps right behind a dollar sign. A character behind a backslash inside a
    literal is escaped. -/
inductive Scanner.Mode where
  | code
  | slash
  | string
  | stringEscape
  | template
  | dollar
  | templateEscape
deriving DecidableEq

/-- The closing brackets that are awaited, the next one first, and where the scanner stands. -/
structure Scanner where
  awaited : List Char
  mode : Scanner.Mode
deriving DecidableEq

namespace Scanner

/-- A scanner in front of a text. -/
def start : Scanner := ⟨[], .code⟩

/-- The bracket that closes what a character opens. -/
def closing? : Char → Option Char
  | '(' => some ')'
  | '[' => some ']'
  | '\x7b' => some '\x7d'
  | _ => none

/-- Whether a character outside literals is no sign of a literal, a comment or a bracket. -/
def isPlain (char : Char) : Bool :=
  char ∉ ['"', '\x60', '/', '(', ')', '[', ']', '\x7b', '\x7d']

/-- The scanner behind a bracket that closes the last one that was opened. -/
def close (char : Char) : List Char → Option Scanner
  | [] => none
  | next :: outer => if char = next then some ⟨outer, .code⟩ else none

/-- The scanner behind a character outside literals. -/
def stepCode (awaited : List Char) (behindSlash : Bool) (char : Char) : Option Scanner :=
  if char = '"' then some ⟨awaited, .string⟩
  else if char = '\x60' then some ⟨awaited, .template⟩
  else if char = '/' then if behindSlash then none else some ⟨awaited, .slash⟩
  else if char = '*' && behindSlash then none
  else
    match closing? char with
    | some next => some ⟨next :: awaited, .code⟩
    | none => if isPlain char then some ⟨awaited, .code⟩ else close char awaited

/-- Where the scanner stands behind a character inside a string. -/
def stepString (char : Char) : Option Mode :=
  if char = '\\' then some .stringEscape
  else if char = '"' then some .code
  else if char = '\n' || char = '\r' then none
  else some .string

/-- Where the scanner stands behind a character inside a template. -/
def stepTemplate (behindDollar : Bool) (char : Char) : Option Mode :=
  if char = '\\' then some .templateEscape
  else if char = '\x60' then some .code
  else if char = '$' then some .dollar
  else if char = '\x7b' && behindDollar then none
  else some .template

/-- The scanner behind a character. -/
def step (scanner : Scanner) (char : Char) : Option Scanner :=
  match scanner.mode with
  | .code => stepCode scanner.awaited false char
  | .slash => stepCode scanner.awaited true char
  | .string => (stepString char).map (⟨scanner.awaited, ·⟩)
  | .stringEscape =>
    if char = '\n' || char = '\r' then none else some ⟨scanner.awaited, .string⟩
  | .template => (stepTemplate false char).map (⟨scanner.awaited, ·⟩)
  | .dollar => (stepTemplate true char).map (⟨scanner.awaited, ·⟩)
  | .templateEscape => some ⟨scanner.awaited, .template⟩

/-- The scanner behind a text. -/
def run (scanner : Scanner) (text : List Char) : Option Scanner := text.foldlM step scanner

@[simp] theorem run_nil (scanner : Scanner) : scanner.run [] = some scanner := rfl

@[simp] theorem run_cons (scanner : Scanner) (char : Char) (text : List Char) :
    scanner.run (char :: text) = (scanner.step char).bind (run · text) := rfl

theorem run_append (scanner : Scanner) (text more : List Char) :
    scanner.run (text ++ more) = (scanner.run text).bind (run · more) :=
  List.foldlM_append

theorem step_plain {char : Char} (awaited : List Char) (hchar : isPlain char = true) :
    step ⟨awaited, .code⟩ char = some ⟨awaited, .code⟩ := by
  have hother := of_decide_eq_true hchar
  have hopening : closing? char = none := by
    unfold closing?
    split <;> simp_all
  simp only [List.mem_cons, List.not_mem_nil, or_false, not_or] at hother
  simp [step, stepCode, hother, hopening, hchar]

/-- Whether a text leads from some awaited brackets to others, from outside all literals to outside
    all literals. More brackets may be open around it. -/
def Scans (before : List Char) (text : List Char) (after : List Char) : Prop :=
  ∀ around, run ⟨before ++ around, .code⟩ text = some ⟨after ++ around, .code⟩

namespace Scans

variable {before middle after : List Char} {text more : List Char} {char : Char}

theorem nil (awaited : List Char) : Scans awaited [] awaited := fun _ => rfl

theorem append (htext : Scans before text middle) (hmore : Scans middle more after) :
    Scans before (text ++ more) after := by
  intro around
  rw [run_append, htext around]
  exact hmore around

/-- What leaves no bracket open does so inside others. -/
theorem inside (htext : Scans [] text []) (awaited : List Char) : Scans awaited text awaited :=
  fun around => htext (awaited ++ around)

theorem between {ahead behind : List Char} (hahead : Scans before ahead middle)
    (htext : Scans [] text []) (hbehind : Scans middle behind after) :
    Scans before (ahead ++ text ++ behind) after :=
  (hahead.append (htext.inside middle)).append hbehind

theorem plain (htext : ∀ char ∈ text, isPlain char = true) : Scans [] text [] := by
  intro around
  induction text with
  | nil => rfl
  | cons char text ih =>
    obtain ⟨hchar, htext⟩ := List.forall_mem_cons.mp htext
    rw [run_cons, List.nil_append, step_plain around hchar]
    exact ih htext

theorem intercalate {separator : List Char} {items : List (List Char)}
    (hseparator : Scans [] separator []) (hitems : ∀ item ∈ items, Scans [] item []) :
    Scans [] (separator.intercalate items) [] := by
  induction items with
  | nil => exact nil []
  | cons first more ih =>
    have hfirst := hitems first List.mem_cons_self
    cases more with
    | nil => simpa using hfirst
    | cons second more =>
      rw [List.intercalate_cons_cons]
      exact (hfirst.append hseparator).append
        (ih fun item hitem => hitems item (List.mem_cons_of_mem first hitem))

end Scans

/-! ### Literals -/

variable {around text : List Char}

theorem stepString_plain {char : Char} (hescape : char ≠ '\\') (hmark : char ≠ '"')
    (hfeed : char ≠ '\n') (hreturn : char ≠ '\r') : stepString char = some .string := by
  simp [stepString, hescape, hmark, hfeed, hreturn]

theorem stepTemplate_plain {char : Char} {behindDollar : Bool} (hescape : char ≠ '\\')
    (hmark : char ≠ '\x60') (hdollar : char ≠ '$')
    (hbrace : behindDollar = true → char ≠ '\x7b') :
    stepTemplate behindDollar char = some .template := by
  cases behindDollar with
  | false => simp [stepTemplate, hescape, hmark, hdollar]
  | true => simp [stepTemplate, hescape, hmark, hdollar, hbrace rfl]

/-- A template, from its inside up to its end. Behind a dollar sign no brace may be next. -/
theorem run_templateBody {mode : Mode}
    (hmode : mode = .template ∨ mode = .dollar ∧ text.head? ≠ some '\x7b') :
    run ⟨around, mode⟩ (Literal.templateBody text ++ ['\x60']) = some ⟨around, .code⟩ := by
  induction text generalizing mode with
  | nil => rcases hmode with rfl | ⟨rfl, _⟩ <;> rfl
  | cons char text ih =>
    have hplain := ih (.inl rfl)
    unfold Literal.templateBody
    dsimp only
    split
    · rcases hmode with rfl | ⟨rfl, _⟩ <;> exact hplain
    · rcases hmode with rfl | ⟨rfl, _⟩ <;> exact hplain
    · rcases hmode with rfl | ⟨rfl, _⟩ <;> exact hplain
    · split
      · rcases hmode with rfl | ⟨rfl, _⟩ <;> exact hplain
      · next hnext => rcases hmode with rfl | ⟨rfl, _⟩ <;> exact ih (.inr ⟨rfl, hnext⟩)
    · next hescape hmark _ hdollar =>
      rcases hmode with rfl | ⟨rfl, hbrace⟩
      · have hstep : stepTemplate false char = _ :=
          stepTemplate_plain hescape hmark hdollar nofun
        simpa [step, hstep] using hplain
      · have hstep : stepTemplate true char = _ :=
          stepTemplate_plain hescape hmark hdollar fun _ heq => hbrace (congrArg some heq)
        simpa [step, hstep] using hplain

/-- A key, from its inside up to its end. -/
theorem run_keyChars :
    run ⟨around, .string⟩ (text.flatMap Literal.keyChar ++ ['"']) = some ⟨around, .code⟩ := by
  induction text with
  | nil => rfl
  | cons char text ih =>
    rw [List.flatMap_cons, List.append_assoc]
    unfold Literal.keyChar
    split
    · exact ih
    · exact ih
    · exact ih
    · exact ih
    · exact ih
    · next hescape hmark hfeed hreturn _ =>
      have hstep : stepString char = _ := stepString_plain hescape hmark hfeed hreturn
      rw [List.singleton_append, run_cons, step, hstep]
      exact ih

theorem run_string (htext : ∀ char ∈ text, stepString char = some .string) :
    run ⟨around, .string⟩ (text ++ ['"']) = some ⟨around, .code⟩ := by
  induction text with
  | nil => rfl
  | cons char text ih =>
    obtain ⟨hchar, htext⟩ := List.forall_mem_cons.mp htext
    simpa [step, hchar] using ih htext

namespace Scans

/-- A literal leaves no bracket open, whatever it stands for. -/
theorem template (value : String) : Scans [] (Literal.template value).toList [] := by
  intro around
  rw [Literal.template, String.toList_ofList]
  exact run_templateBody (.inl rfl)

theorem key (value : String) : Scans [] (Literal.key value).toList [] := by
  intro around
  rw [Literal.key, String.toList_ofList]
  exact run_keyChars

theorem quoted (htext : ∀ char ∈ text, stepString char = some .string) :
    Scans [] ('"' :: text ++ ['"']) [] :=
  fun _ => run_string htext

end Scans

end Scanner

end KaLang
