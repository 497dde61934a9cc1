import KaLang.Compile
import KaLang.Proofs.Script.Pieces
import KaLang.Proofs.Script.References

/-!
Every reference to the operator table in a script is to an entry that the preamble writes. Every
kind of piece that scripts are made of is tame (`Piece.Written.tame`), so the whole script is, and a
reference anywhere in it has the key of an entry (`Program.defined_of_refers`).
-/

namespace KaLang

open Preamble (Tame)
open Scanner (Mode)

/-! ### Pieces -/

namespace Piece

theorem isQuiet_fixedTexts : ∀ text ∈ fixedTexts, text.toList.all Scanner.isQuiet = true := by
  decide

theorem quiet_newline (width depth : Nat) : Quiet ((Piece.newline depth).render width) := by
  refine Quiet.append (.of_all rfl) fun char hchar => ?_
  rw [String.toList_ofList] at hchar
  rw [List.eq_of_mem_replicate hchar]
  rfl

theorem quiet_signature {name : String} {params : List Identifier} (hname : Quiet name)
    (hparams : ∀ name ∈ params, IsName name.name) :
    Quiet ("function" ++ name ++ "(" ++ Identifier.row params ++ ") ") := by
  have hhead : Quiet ("function" ++ name ++ "(") := .around (.of_all rfl) hname (.of_all rfl)
  exact hhead.around (.names hparams) (.of_all rfl)

/-- Every kind of piece is tame, however far lines are indented. -/
theorem Written.tame {piece : Piece} (hwritten : piece.Written IsName) (width : Nat) :
    Tame (piece.render width).toList := by
  cases hwritten with
  | newline depth => exact .quiet (quiet_newline width depth)
  | fixed htext => exact .quiet (Quiet.of_all (isQuiet_fixedTexts _ htext))
  | template value => exact .template value
  | key value => exact .key value
  | number hnumber => exact .quiet (Quiet.of_plain (.number hnumber))
  | property hkey => exact .quiet (Quiet.append (.of_all rfl) (.name hkey))
  | path htarget hpath => exact .quiet (Quiet.of_plain (.path htarget hpath))
  | target htarget hpath =>
    exact .quiet (Quiet.append (.of_plain (.path htarget hpath)) (.of_all rfl))
  | binary hop => exact .binaryReference hop
  | unary op => exact .unaryReference op
  | field hname => exact .quiet (Quiet.append (.name hname) (.of_all rfl))
  | iterated hitem => exact .quiet (Quiet.around (.of_all rfl) (.name hitem) (.of_all rfl))
  | lambda hparams => exact .quiet (quiet_signature (.of_all rfl) hparams)
  | function hname hparams =>
    exact .quiet (quiet_signature (.append (.of_all rfl) (.name hname)) hparams)
  | method hmade hparams => exact .methodHead hmade hparams
  | classHead hname => exact .quiet (Quiet.around (.of_all rfl) (.name hname) (.of_all rfl))
  | imported kind found hsource hnames =>
    exact .importLine kind hnames (ModulePath.stepString_specifier hsource found)
  | exported hname => exact .quiet (Quiet.around (.of_all rfl) (.name hname) (.of_all rfl))
  | hoisted hname => exact .quiet (Quiet.around (.of_all rfl) (.name hname) (.of_all rfl))

end Piece

theorem Layout.IsWritten.tame {code : Layout} (hcode : code.IsWritten IsName) (width : Nat) :
    Tame (code.chars width) := by
  induction code with
  | nil => exact .nil
  | cons piece more ih =>
    obtain ⟨hpiece, hmore⟩ := List.forall_mem_cons.mp hcode
    exact (hpiece.tame width).append (ih hmore)

/-! ### Scripts -/

/-- Whether a text refers to a key of the operator table: outside all literals stands the name of
    the table with a string in brackets behind it, and the key is what is between its marks. -/
def Preamble.Refers (text key : List Char) : Prop :=
  ∃ before after outside,
    text = before ++ (operatorTable ++ "[").toList ++ '"' :: (key ++ ['"']) ++ ']' :: after ∧
    Scanner.start.run (before ++ (operatorTable ++ "[").toList) = some outside ∧
    outside.mode = .code ∧ Mode.string.Closes (key ++ ['"'])

namespace Program

variable {source : String} {program : Program} {env : Environment} {script : Script}

theorem tame_body (hread : ofSource source = .ok program)
    (hemit : (program.emit env).result = .ok script) (width : Nat) :
    Tame (script.body width).toList := by
  have hlines := written_of_emit hread hemit fun _ hbinds => isName_of_binds hread hbinds
  rw [Script.body, Layout.toList_render]
  exact (Layout.IsWritten.intercalate (.newline 0) hlines).tame width

/-- Every key that a script refers to in the operator table is defined by the preamble, with two
    parameters if it is a binary operator and with one if it is a unary one; and no script refers to
    member access. -/
theorem defined_of_refers (hread : ofSource source = .ok program)
    (hemit : (program.emit env).result = .ok script) (width : Nat) (key : List Char)
    (hkey : Preamble.Refers (script.body width).toList key) :
    Preamble.Defines key ∧ key ≠ BinaryOperator.member.text.toList := by
  obtain ⟨before, after, outside, hsplit, hrun, hmode, hclosed⟩ := hkey
  have hcode := Scanner.mode_of_run hrun
  rw [hmode] at hcode
  have hdefined := (tame_body hread hemit width).keys _ key after hsplit hcode.symm hclosed
  exact ⟨hdefined, hdefined.ne_member⟩

/-- A compound assignment that is exported, and a unary operator in a computed access. -/
theorem defined_of_refers_exported : ∃ program script,
    ofSource "export y *= a.(-1)" = .ok program ∧ (program.emit {}).result = .ok script ∧
      ∀ key ∈ ["*".toList, "-$".toList], Preamble.Refers (script.body 2).toList key ∧
        Preamble.Defines key ∧ key ≠ BinaryOperator.member.text.toList := by
  have hcompile : ∃ script, (compile "export y *= a.(-1)" {}).result = .ok script ∧
      script.body 2 =
        "export let y = __kaOperators[\"*\"](y, a[__kaOperators[\"-$\"](1)]);" :=
    ⟨_, by cbv, by cbv⟩
  obtain ⟨script, hcompile, hbody⟩ := hcompile
  unfold compile at hcompile
  split at hcompile
  · next program hread =>
    have hbinary : Preamble.Refers (script.body 2).toList "*".toList :=
      ⟨"export let y = ".toList, "(y, a[__kaOperators[\"-$\"](1)]);".toList, ⟨[']'], .code⟩,
        by rw [hbody]; rfl, rfl, rfl, Mode.closes_string (Tame.stepString_binary .mul)⟩
    have hunary : Preamble.Refers (script.body 2).toList "-$".toList :=
      ⟨"export let y = __kaOperators[\"*\"](y, a[".toList, "(1)]);".toList,
        ⟨[']', ']', ')'], .code⟩, by rw [hbody]; rfl, rfl, rfl,
        Mode.closes_string (by simp [Scanner.stepString])⟩
    refine ⟨program, script, hread, hcompile, ?_⟩
    refine List.forall_mem_cons.mpr ⟨⟨hbinary, ?_⟩, List.forall_mem_singleton.mpr ⟨hunary, ?_⟩⟩
    · exact defined_of_refers hread hcompile 2 _ hbinary
    · exact defined_of_refers hread hcompile 2 _ hunary
  · cases hcompile

end Program

end KaLang
