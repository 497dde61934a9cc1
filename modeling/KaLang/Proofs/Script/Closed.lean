import KaLang.Compile
import KaLang.Proofs.Script.Balance
import KaLang.Proofs.Script.Rendering

/-!
Scripts are closed and balanced. Whatever the pass builds from balanced layouts is balanced
(`Layout.closed_isBalanced`), and so is every line of the preamble. So a scanner comes out
behind a script as it stood in front of its preamble (`Program.run_text_of_emit`).
-/

namespace KaLang

open Emitter

/-! ### Lines -/

namespace Layout

open Rendering
open Node (isName_of_params)

theorem balanced_field (key : String) {code : Layout} (hcode : code.IsBalanced) :
    (Layout.ofText (Literal.key key ++ ": ") ++ code).IsBalanced :=
  .append (.ofText ((Scanner.Scans.key key).join fun _ => rfl)) hcode

theorem balanced_letLine (name : String) (hname : IsName name) : (letLine name).IsBalanced :=
  .ofText (.around (fun _ => rfl) (.name hname) fun _ => rfl)

/-- A test in the head of a block. -/
theorem balanced_test {code : Layout} (hcode : code.IsBalanced) :
    (Layout.ofText "if (" ++ code ++ .ofText ") ").IsBalanced := by
  have hopened : Scanner.Scans [] "if (".toList [')'] := fun _ => rfl
  exact hcode.between hopened fun _ => rfl

theorem closed_isBalanced : (uniform Node.Formed IsName IsBalanced).Closed where
  assigned hheld := hheld.children.head.self.made
  iterated hheld := hheld.self.made
  string value _ := .ofText (.template value)
  number hheld := .ofText (.plain (Scanner.Plain.number hheld.self.made))
  name hheld := .ofText (.name hheld.self.made)
  array depth _ _ _ hcodes := balanced_array depth (forall_mem_codes hcodes)
  object depth _ _ _ hcodes := balanced_object depth (forall_mem_entries balanced_field hcodes)
  property hheld hcode := by
    have hpoint : Scanner.Scans [] ".".toList [] := fun _ => rfl
    have hkey := hpoint.join (.name hheld.self.made)
    exact .append (balanced_inParenthesesIf _ hcode) (.ofText hkey)
  assign hheld hpath hcode := by
    have hword := Scanner.Scans.plain (Scanner.Plain.path hheld.children.head hpath)
    exact .append (.ofText (hword.join fun _ => rfl)) (balanced_assigned _ hword hcode)
  computed hcode hkey := by
    have hopened : Scanner.Scans [] "[".toList [']'] := fun _ => rfl
    exact .append (.andThen (.append hcode (.ofText hopened)) hkey) (.ofText fun _ => rfl)
  binary _ hleft hright := balanced_appliedBinary _ (.cons hleft (.single hright))
  unary hcode := balanced_appliedUnary _ (.single hcode)
  lambda depth _ _ _ _ hheld hlines :=
    .braced depth (balanced_signature (fun _ => rfl) (isName_of_params hheld.children)) hlines
  call hcode hargs :=
    .append (balanced_inParenthesesIf _ hcode)
      (balanced_inParentheses (.row (forall_mem_codes hargs)))
  construct hcode hargs :=
    .append (.append (.ofText fun _ => rfl) (balanced_inParenthesesIf _ hcode))
      (balanced_inParentheses (.row (forall_mem_codes hargs)))
  body hlines := forall_mem_declared balanced_letLine forall_mem_row hlines
  expression hcode := EachBalanced.single (balanced_expressionLine hcode)
  block depth _ _ hlines := EachBalanced.single (.braced depth (fun _ _ => rfl) hlines)
  condition depth _ _ _ _ _ hcode hlines :=
    EachBalanced.single (.braced depth (balanced_test hcode) hlines)
  otherwise depth _ _ _ _ _ _ _ hcode hlines hothers := by
    have hline := IsBalanced.braced depth (balanced_test hcode) hlines
    have hhead : (ofText "else ").IsBalanced := .ofText fun _ => rfl
    have helse := hhead.braced depth (forall_mem_alternative hothers)
    exact EachBalanced.single (.append (.append hline (.ofText fun _ => rfl)) helse)
  forLoop depth _ _ _ _ _ _ hheld hcode hlines := by
    have hopened : Scanner.Scans [] "for (".toList [')'] := fun _ => rfl
    have hof : Scanner.Scans [')'] " of ".toList [')'] := fun _ => rfl
    have hitem := hopened.around (.name hheld.self.made) hof
    exact EachBalanced.single (.braced depth (IsBalanced.between hcode hitem fun _ => rfl) hlines)
  whileLoop depth _ _ _ _ _ hcode hlines := by
    have hopened : Scanner.Scans [] "while (".toList [')'] := fun _ => rfl
    exact EachBalanced.single (.braced depth (IsBalanced.between hcode hopened fun _ => rfl) hlines)
  returnNothing _ := EachBalanced.single (.ofText fun _ => rfl)
  returnValue hcode := by
    have hhead : Scanner.Scans [] "return ".toList [] := fun _ => rfl
    exact EachBalanced.single (IsBalanced.between hcode hhead fun _ => rfl)
  breakLoop _ := EachBalanced.single (.ofText fun _ => rfl)
  continueLoop _ := EachBalanced.single (.ofText fun _ => rfl)
  functionDecl depth _ _ _ _ _ hheld hlines := by
    have hspace : Scanner.Scans [] " ".toList [] := fun _ => rfl
    have hhead := balanced_signature (hspace.join (.name hheld.self.made))
      (isName_of_params hheld.children)
    exact EachBalanced.single (.braced depth hhead hlines)
  classDecl depth _ _ _ _ hheld hlines := by
    have hclass : Scanner.Scans [] "class ".toList [] := fun _ => rfl
    have hblank : Scanner.Scans [] " ".toList [] := fun _ => rfl
    have hhead := hclass.around (.name hheld.self.made) hblank
    exact EachBalanced.single (.braced depth (.ofText hhead) (forall_mem_parts hlines))
  hostDecl _ _ _ := List.forall_mem_nil _
  importDecl found _ _ kind _ hheld := by
    obtain ⟨_, _, hsource, hnames⟩ := hheld.self.made
    have hspecifier := ModulePath.stepString_specifier hsource found
    exact EachBalanced.single (balanced_import kind hnames hspecifier)
  exportDecl hlines := List.forall_mem_map.mpr fun line hline =>
    .append (.ofText fun _ => rfl) (hlines line hline)
  exportAssign hheld hcode := by
    have hword := Scanner.Scans.name hheld.children.head.self.made
    have hhead : Scanner.Scans [] "export let ".toList [] := fun _ => rfl
    have hopening := hhead.around hword (fun _ => rfl : Scanner.Scans [] " = ".toList [])
    refine EachBalanced.single (IsBalanced.between ?_ hopening fun _ => rfl)
    exact balanced_assigned _ hword hcode
  guarded depth _ _ _ _ _ hcode hlines := by
    have hdeclared := forall_mem_declared balanced_letLine id hlines
    exact EachBalanced.single (.braced depth (balanced_test hcode) hdeclared)
  field hheld hcode := by
    have hequals : Scanner.Scans [] " = ".toList [] := fun _ => rfl
    have hhead := (Scanner.Scans.name hheld.self.made).join hequals
    exact IsBalanced.between hcode hhead fun _ => rfl
  method depth _ _ _ _ _ hheld hlines := by
    have hhead := Scanner.Scans.parameters (.methodName hheld.self.made)
      (isName_of_params hheld.children)
    exact .braced depth (.ofText hhead) hlines

end Layout

/-! ### The preamble -/

namespace Preamble

open Scanner (Scans)

/-- A line leaves no bracket open, whatever is open around it. -/
theorem scans_indented {line : String} (hline : Scans [] line.toList []) (width : Nat) :
    Scans [] (indented width line).toList [] := by
  refine Scans.around (.plain fun char hchar => ?_) hline fun _ => rfl
  rw [String.toList_ofList] at hchar
  rw [List.eq_of_mem_replicate hchar]
  rfl

theorem scans_lines {lines : List String} (hlines : ∀ line ∈ lines, Scans [] line.toList [])
    (width : Nat) : Scans [] (String.join (lines.map (indented width))).toList [] := by
  induction lines with
  | nil => exact fun _ => rfl
  | cons line lines ih =>
    obtain ⟨hline, hlines⟩ := List.forall_mem_cons.mp hlines
    rw [List.map_cons, String.join_cons]
    exact (scans_indented hline width).join (ih hlines)

theorem scans_rangeBody : ∀ line ∈ rangeBody, Scans [] line.toList [] :=
  List.forall_mem_cons.mpr ⟨fun _ => rfl, List.forall_mem_cons.mpr ⟨fun _ => rfl,
    List.forall_mem_cons.mpr ⟨fun _ => rfl, nofun⟩⟩⟩

/-- The sign of the operator stands in quotes three times in its entry. -/
theorem scans_binaryEntry (op : BinaryOperator) : Scans [] (binaryEntry op).toList [] := by
  have hsign := Scans.sign op
  have hdefault : Scans [] (binaryDefault op).toList [] := by cases op <;> exact fun _ => rfl
  have hparams : Scans [] ": (a, b) => a?.[".toList [']'] := fun _ => rfl
  have htest : Scans [']'] "] ? a[".toList [']'] := fun _ => rfl
  have hcall : Scans [']'] "](b) : ".toList [] := fun _ => rfl
  have hentry : binaryEntry op =
      "\"" ++ op.text ++ "\"" ++ ": (a, b) => a?.[" ++ ("\"" ++ op.text ++ "\"") ++ "] ? a[" ++
        ("\"" ++ op.text ++ "\"") ++ "](b) : " ++ binaryDefault op ++ "," := by
    simp [← String.toList_inj, binaryEntry, binaryKey]
  rw [hentry]
  have hasked := ((hsign.join hparams).join (hsign.inside _)).join htest
  exact (((hasked.join (hsign.inside _)).join hcall).join hdefault).join fun _ => rfl

theorem scans_unaryEntry (op : UnaryOperator) : Scans [] (unaryEntry op).toList [] := by
  have hkey : Scans [] ("\"" ++ unaryKey op ++ "\"").toList [] := by
    cases op <;> exact fun _ => rfl
  have hsign : Scans [] ("\"" ++ op.text ++ "\"").toList [] := by cases op <;> exact fun _ => rfl
  have hdefault : Scans [] op.text.toList [] := by cases op <;> exact fun _ => rfl
  have hparam : Scans [] ": a => a?.[".toList [']'] := fun _ => rfl
  have htest : Scans [']'] "] ? a[".toList [']'] := fun _ => rfl
  have hcall : Scans [']'] "]() : ".toList [] := fun _ => rfl
  have hentry : unaryEntry op =
      "\"" ++ unaryKey op ++ "\"" ++ ": a => a?.[" ++ ("\"" ++ op.text ++ "\"") ++ "] ? a[" ++
        ("\"" ++ op.text ++ "\"") ++ "]() : " ++ op.text ++ "a," := by
    simp [← String.toList_inj, unaryEntry]
  rw [hentry]
  have hasked := ((hkey.join hparam).join (hsign.inside _)).join htest
  exact (((hasked.join (hsign.inside _)).join hcall).join hdefault).join fun _ => rfl

theorem scans_entries : ∀ line ∈ entries, Scans [] line.toList [] :=
  List.forall_mem_append.mpr ⟨List.forall_mem_map.mpr fun op _ => scans_binaryEntry op,
    List.forall_mem_map.mpr fun op _ => scans_unaryEntry op⟩

theorem scans_text (width : Nat) : Scans [] (text width).toList [] := by
  have hopening : Scans [] ("function " ++ rangeHelper ++ "(start, end) \x7b\n").toList
    ['\x7d'] := fun _ => rfl
  have hclosing : Scans ['\x7d'] "\x7d\nconst ".toList [] := fun _ => rfl
  have htable : Scans [] operatorTable.toList [] := fun _ => rfl
  have hfunction := hopening.join ((scans_lines scans_rangeBody width).inside _)
  have hconst : Scans [] " = \x7b\n".toList ['\x7d'] := fun _ => rfl
  have hopened := ((hfunction.join hclosing).join htable).join hconst
  exact (hopened.join ((scans_lines scans_entries width).inside _)).join fun _ => rfl

end Preamble

/-! ### Scripts -/

namespace Program

variable {source : String} {program : Program} {env : Environment} {script : Script}

/-- Every line of the script of a program that is read off a text is balanced. -/
theorem balanced_lines (hread : ofSource source = .ok program)
    (hemit : (program.emit env).result = .ok script) : Layout.EachBalanced script.lines :=
  forall_lines_of_emit Layout.closed_isBalanced Layout.balanced_letLine
    (eachFormed_of_ofSource hread) hemit

/-- A scanner that starts in front of a script comes out behind it as it was in front: it has met no
    comment, no line break in a string and no substitution in a template, stands outside all
    literals, and every bracket outside literals is closed by the one that belongs to it. -/
theorem run_text_of_emit (hread : ofSource source = .ok program)
    (hemit : (program.emit env).result = .ok script) (width : Nat) :
    Scanner.start.run (script.text width).toList = some Scanner.start := by
  have hbody : (Layout.lines 0 script.lines).IsBalanced :=
    .intercalate (.newline 0) (balanced_lines hread hemit)
  have htext := (Preamble.scans_text width).append (hbody width)
  rw [Script.text, Script.body, String.toList_append, Layout.toList_render]
  exact htext []

/-- A quotation mark in a key, and a backtick and the start of a substitution in a string. -/
theorem run_text_quoted : ∃ program script,
    ofSource "\x7b'\"': '`$\x7b'\x7d" = .ok program ∧ (program.emit {}).result = .ok script ∧
      Scanner.start.run (script.text 2).toList = some Scanner.start := by
  have hcompile : ∃ script, (compile "\x7b'\"': '`$\x7b'\x7d" {}).result = .ok script :=
    ⟨_, by cbv⟩
  obtain ⟨script, hcompile⟩ := hcompile
  unfold compile at hcompile
  split at hcompile
  · next program hread =>
    exact ⟨program, script, hread, hcompile, run_text_of_emit hread hcompile 2⟩
  · cases hcompile

end Program

end KaLang
