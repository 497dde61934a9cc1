import KaLang.CommandLine.Batch
import KaLang.Proofs.CommandLine.FileTree
import KaLang.Proofs.Script.Oracles

/-!
Compiling files one after the other. A script goes to a path that ends in `.js`, and the files that
an import looks for end in `.ka`, so no script that has been written changes what a later file
compiles to (`Frame.compileText`). What does change for a later file is what its own path leads
to: a script that is written there is read in place of the file, and one that is written to the same
place later stays there (`read_target_of_run`).
-/

namespace KaLang

/-- What other files there are decides nothing but whether the modules of imports are found. -/
theorem compileText_congr {path : String} {here there : String → Bool}
    (hfiles : ∀ segments,
      here (ModulePath.candidate path segments) = there (ModulePath.candidate path segments))
    (source : String) :
    compileText source ⟨path, some here⟩ = compileText source ⟨path, some there⟩ := by
  have hnaming : ModulePath.naming path here = ModulePath.naming path there := by
    funext segments
    rw [ModulePath.naming, ModulePath.naming, hfiles]
  unfold compileText compile
  cases Program.ofSource source with
  | error error => rfl
  | ok program =>
    obtain ⟨-, hends⟩ := program.emit_alike path here there
    rcases hends with ⟨error, hfirst, hsecond⟩ | ⟨script, other, hfirst, hsecond, hlines⟩
    · simp only [hfirst, hsecond]
    · have hlayout := Layout.Parallel.intercalate hlines [.newline 0]
      obtain ⟨passages, -, hhere, hthere⟩ := hlayout.exists_passages Script.defaultWidth
      have hbody : script.body Script.defaultWidth = other.body Script.defaultWidth := by
        rw [Script.body, Script.body, Layout.lines, Layout.lines, hhere, hthere, hnaming]
      simp only [hfirst, hsecond, Except.map, Script.text, hbody]

theorem compileText_of_result {source : String} {env : Environment} {script : Script}
    (hresult : (compile source env).result = .ok script) :
    compileText source env = .ok (script.text Script.defaultWidth) := by
  rw [compileText, hresult]
  rfl

/-! ### Where a script goes -/

/-- What stands behind the last slash of a path is its last part. -/
theorem exists_parts_directory (chars : List Char) {name : List Char} (hname : '/' ∉ name) :
    ∃ folders, FileTree.parts (String.ofList ((chars.dropWhile (· ≠ '/')).reverse ++ name)) =
      folders ++ [String.ofList name] := by
  have hhead := List.head?_dropWhile_not (fun char => decide (char ≠ '/')) chars
  cases hdirectory : chars.dropWhile (· ≠ '/') with
  | nil => exact ⟨[], by simp [FileTree.parts, splitAtEach_of_not_mem hname]⟩
  | cons slash before =>
    rw [hdirectory] at hhead
    obtain rfl : slash = '/' := by simpa using hhead
    refine ⟨(splitAtEach '/' before.reverse).map String.ofList, ?_⟩
    simp [FileTree.parts, splitAtEach_append_cons, splitAtEach_of_not_mem hname]

/-- A path whose ending is replaced ends in the new one, unless its last part names nothing. -/
theorem withExtension_cases (path extension : String) :
    (∃ ahead, withExtension path extension = ahead ++ ("." ++ extension)) ∨
      ∃ folders last, FileTree.parts (withExtension path extension) = folders ++ [last] ∧
        FileTree.Passes last := by
  simp only [withExtension, Bool.or_eq_true, decide_eq_true_eq]
  generalize upToEnding (path.toList.reverse.takeWhile (· ≠ '/')).reverse = name
  by_cases hname : name = [] ∨ name = ['.', '.']
  · have hslash : '/' ∉ name := by rcases hname with rfl | rfl <;> simp
    obtain ⟨folders, hparts⟩ := exists_parts_directory path.toList.reverse hslash
    rw [if_pos hname]
    refine .inr ⟨folders, _, hparts, ?_⟩
    rcases hname with rfl | rfl
    · exact .inl rfl
    · exact .inr (.inr rfl)
  · rw [if_neg hname]
    exact .inl ⟨_, String.append_assoc ..⟩

namespace Batch

variable {tree written : FileTree} {input path source text : String} {output : Option String}
  {inputs before after : List String}

/-- A script that no other place is asked for is written under a name that ends in `.js`. -/
theorem ends_of_write (hwrite : tree.write (target none input) text = some written) :
    ∃ folder start, tree.place? (target none input) = some (folder ++ [start ++ ".js"]) := by
  obtain ⟨place, hplace, hfree, -⟩ := FileTree.write_eq_some_iff.mp hwrite
  rw [hplace]
  rcases withExtension_cases input "js" with ⟨ahead, htarget⟩ | ⟨folders, last, hparts, hpasses⟩
  · rw [target, Option.getD_none, htarget] at hplace
    obtain ⟨folder, start, rfl⟩ := FileTree.ends_of_place? (by decide) (by decide) hplace
    exact ⟨folder, start, rfl⟩
  · rcases FileTree.place?_cases hparts hplace with ⟨-, hdirectory⟩ | ⟨hnot, -⟩
    · simp [hfree] at hdirectory
    · exact absurd hpasses hnot

/-- Writing a script makes no file that an import looks for. -/
theorem isFile_candidate_of_write (hwrite : tree.write (target none input) text = some written)
    (file : String) (segments : List String) :
    written.isFile (ModulePath.candidate file segments) =
      tree.isFile (ModulePath.candidate file segments) := by
  obtain ⟨folder, start, hplace⟩ := ends_of_write hwrite
  rw [FileTree.isFile_of_write hwrite]
  refine if_neg fun hsame => ?_
  rw [hplace] at hsame
  obtain ⟨folders, stem, hends⟩ := FileTree.ends_of_place? (by decide) (by decide) hsame
  have hname : start ++ ".js" = stem ++ ".ka" := by simpa using congrArg List.getLast? hends
  have hlast := congrArg (fun name => name.toList.getLast?) hname
  simp at hlast

/-! ### Compiling one file and then others -/

/-- A file is compiled if it can be read, its text compiles, and the script can be written. -/
theorem compileFile_eq_ok_iff : compileFile output tree input = .ok written ↔
    ∃ source text, tree.read input = some source ∧
      compileText source (environment input tree.isFile) = .ok text ∧
      tree.write (target output input) text = some written := by
  unfold compileFile script
  cases hread : tree.read input with
  | none => simp [throw, throwThe, MonadExceptOf.throw]
  | some source =>
    cases htext : compileText source (environment input tree.isFile) with
    | error error => simp [htext, bind, Except.bind]
    | ok text =>
      cases hwrite : tree.write (target output input) text <;>
        simp [htext, hwrite, bind, Except.bind, pure, Except.pure, throw, throwThe,
          MonadExceptOf.throw]

/-- Files in a row are compiled until one fails. -/
theorem compileFiles_append (output : Option String) (tree : FileTree)
    (before after : List String) :
    compileFiles output tree (before ++ after) =
      match (compileFiles output tree before).result with
      | .ok () => compileFiles output (compileFiles output tree before).tree after
      | .error _ => compileFiles output tree before := by
  induction before generalizing tree with
  | nil => rfl
  | cons input before ih =>
    rw [List.cons_append, compileFiles, compileFiles]
    cases compileFile output tree input with
    | error error => rfl
    | ok written => exact ih written

/-- What is kept by the writing of each file's script is so when the files have been compiled. -/
theorem compileFiles_keeps {motive : FileTree → Prop} (htree : motive tree)
    (hwrite : ∀ input ∈ inputs, ∀ before text written, motive before →
      before.write (target none input) text = some written → motive written) :
    motive (compileFiles none tree inputs).tree := by
  induction inputs generalizing tree with
  | nil => exact htree
  | cons input inputs ih =>
    rw [compileFiles]
    cases hfile : compileFile none tree input with
    | error error => exact htree
    | ok written =>
      obtain ⟨source, text, -, -, hscript⟩ := compileFile_eq_ok_iff.mp hfile
      have hwritten := hwrite input List.mem_cons_self tree text written htree hscript
      exact ih hwritten fun later hlater => hwrite later (List.mem_cons_of_mem input hlater)

/-- What is the same after files have been compiled: where paths lead, what is at every place that
    is no script's, and which files an import finds. -/
structure Frame (inputs : List String) (tree written : FileTree) : Prop where
  place? : ∀ path, written.place? path = tree.place? path
  read : ∀ path, (∀ input ∈ inputs, tree.place? (target none input) ≠ tree.place? path) →
    written.read path = tree.read path
  isFile : ∀ file segments, written.isFile (ModulePath.candidate file segments) =
    tree.isFile (ModulePath.candidate file segments)

namespace Frame

theorem refl (inputs : List String) (tree : FileTree) : Frame inputs tree tree :=
  ⟨fun _ => rfl, fun _ _ => rfl, fun _ _ => rfl⟩

theorem write {final : FileTree} (hframe : Frame inputs tree written) (hinput : input ∈ inputs)
    (hwrite : written.write (target none input) text = some final) : Frame inputs tree final where
  place? path := (FileTree.place?_of_write hwrite path).trans (hframe.place? path)
  read path hfree := by
    rw [FileTree.read_of_write hwrite, hframe.place?, hframe.place?,
      if_neg (hfree input hinput).symm, hframe.read path hfree]
  isFile file segments :=
    (isFile_candidate_of_write hwrite file segments).trans (hframe.isFile file segments)

theorem of_write (hwrite : tree.write (target none input) text = some written) :
    Frame [input] tree written :=
  (refl [input] tree).write (List.mem_singleton_self input) hwrite

theorem of_compileFiles (tree : FileTree) (inputs : List String) :
    Frame inputs tree (compileFiles none tree inputs).tree :=
  compileFiles_keeps (refl inputs tree) fun _ hinput _ _ _ hframe hwrite =>
    hframe.write hinput hwrite

/-- What a text compiles to stays the same. -/
theorem compileText (hframe : Frame inputs tree written) (source path : String) :
    compileText source (environment path written.isFile) =
      KaLang.compileText source (environment path tree.isFile) :=
  compileText_congr (hframe.isFile _) source

end Frame

theorem run_compile (hsome : inputs ≠ []) (tree : FileTree) :
    run (.compile inputs none) tree = compileFiles none tree inputs := by
  obtain ⟨input, more, rfl⟩ := List.exists_cons_of_ne_nil hsome
  cases more <;> rfl

/-- A run in which all files compile, with each script beside its file, told for any file of it.
    The file's script is that of the text which its path leads to when the files before it have been
    compiled, whatever files have been written by then. That is the text from before the run, unless
    a script has been written there; and the script is there in the end, unless that of a later file
    has been written over it. -/
theorem read_target_of_run (hrun : (run (.compile inputs none) tree).result = .ok ())
    (hinputs : inputs = before ++ input :: after) :
    ∃ source text, (compileFiles none tree before).tree.read input = some source ∧
      compileText source (environment input tree.isFile) = .ok text ∧
      ((∀ earlier ∈ before, tree.place? (target none earlier) ≠ tree.place? input) →
        tree.read input = some source) ∧
      ((∀ later ∈ after,
          tree.place? (target none later) ≠ tree.place? (target none input)) →
        (run (.compile inputs none) tree).tree.read (target none input) = some text) := by
  subst hinputs
  rw [run_compile (by simp), compileFiles_append] at hrun ⊢
  have hahead := Frame.of_compileFiles tree before
  generalize compileFiles none tree before = first at hahead hrun ⊢
  cases hfirst : first.result with
  | error error => simp [hfirst] at hrun
  | ok =>
    simp only [hfirst, compileFiles] at hrun ⊢
    cases hfile : compileFile none first.tree input with
    | error error => simp [hfile] at hrun
    | ok written =>
      obtain ⟨source, text, hread, htext, hwrite⟩ := compileFile_eq_ok_iff.mp hfile
      have hbehind := Frame.of_compileFiles written after
      refine ⟨source, text, hread, (hahead.compileText source input).symm.trans htext,
        fun hfree => (hahead.read input hfree).symm.trans hread, fun hfree => ?_⟩
      rw [hbehind.read, FileTree.read_of_write hwrite, if_pos rfl]
      intro later hlater
      rw [FileTree.place?_of_write hwrite, FileTree.place?_of_write hwrite, hahead.place?,
        hahead.place?]
      exact hfree later hlater

/-- Two files that compile, one after the other. The second one is read where the first one left it,
    and both can be written. -/
theorem compileFiles_pair {other sourceOther textOther : String} {place placeOther : Place}
    (hread : tree.read input = some source)
    (htext : compileText source (environment input tree.isFile) = .ok text)
    (hplace : tree.place? (target none input) = some place) (hfree : tree.isDirectory place = false)
    (hapart : tree.place? other ≠ some place) (hreadOther : tree.read other = some sourceOther)
    (htextOther : compileText sourceOther (environment other tree.isFile) = .ok textOther)
    (hplaceOther : tree.place? (target none other) = some placeOther)
    (hfreeOther : tree.isDirectory placeOther = false) :
    (run (.compile [input, other] none) tree).result = .ok () ∧
      (run (.compile [input, other] none) tree).tree.read (target none other) = some textOther := by
  obtain ⟨written, hwrite⟩ : ∃ written, tree.write (target none input) text = some written :=
    ⟨_, FileTree.write_eq_some_iff.mpr ⟨place, hplace, hfree, rfl⟩⟩
  have hframe := Frame.of_write hwrite
  obtain ⟨final, hfinal⟩ : ∃ final, written.write (target none other) textOther = some final := by
    refine ⟨_, FileTree.write_eq_some_iff.mpr ⟨placeOther, ?_, ?_, rfl⟩⟩
    · rw [hframe.place?, hplaceOther]
    · rw [FileTree.isDirectory_of_write hwrite, hfreeOther]
  have hfirst : compileFile none tree input = .ok written :=
    compileFile_eq_ok_iff.mpr ⟨source, text, hread, htext, hwrite⟩
  have hsecond : compileFile none written other = .ok final := by
    refine compileFile_eq_ok_iff.mpr ⟨sourceOther, textOther, ?_, ?_, hfinal⟩
    · rw [hframe.read, hreadOther]
      rintro _ (_ | ⟨_, ⟨⟩⟩)
      rw [hplace]
      exact hapart.symm
    · rw [hframe.compileText, htextOther]
  rw [run_compile (List.cons_ne_nil _ _), compileFiles, hfirst]
  simp only [compileFiles, hsecond, true_and]
  rw [FileTree.read_of_write hfinal, if_pos rfl]

/-- A module and a file that imports it. -/
def importing : FileTree := .ofPaths [("m.ka", some "x = 1"), ("main.ka", some "from m import x")]

theorem compile_import (files : String → Bool) :
    ∃ script, (compile "from m import x" (environment "main.ka" files)).result = .ok script :=
  ⟨_, by cbv⟩

theorem compile_first (env : Environment) : ∃ script,
    (compile "x = 1" env).result = .ok script ∧ script.body 4 = "let x;\nx = 1;" :=
  ⟨_, by cbv, by cbv⟩

theorem compile_second (env : Environment) : ∃ script,
    (compile "y = 2" env).result = .ok script ∧ script.body 4 = "let y;\ny = 2;" :=
  ⟨_, by cbv, by cbv⟩

/-- The script of a file that is compiled first is there when the file it imports has been compiled
    as well, and was not looked for. -/
theorem read_target_of_run_importing :
    (run (.compile ["main.ka", "m.ka"] none) importing).result = .ok () ∧
      ∃ text, compileText "from m import x" (environment "main.ka" importing.isFile) = .ok text ∧
        (run (.compile ["main.ka", "m.ka"] none) importing).tree.read "main.js" = some text := by
  obtain ⟨main, hmain⟩ := compile_import importing.isFile
  obtain ⟨other, hother, -⟩ := compile_first (environment "m.ka" importing.isFile)
  have hsource : importing.read "main.ka" = some "from m import x" := by rfl
  have hrun : (run (.compile ["main.ka", "m.ka"] none) importing).result = .ok () :=
    (compileFiles_pair hsource (compileText_of_result hmain) (by rfl) (by rfl) (by decide) (by rfl)
      (compileText_of_result hother) (by rfl) (by rfl)).1
  have hinputs : ["main.ka", "m.ka"] = [] ++ "main.ka" :: ["m.ka"] := rfl
  obtain ⟨source, text, -, htext, hread, hwritten⟩ := read_target_of_run hrun hinputs
  obtain rfl : "from m import x" = source :=
    Option.some.inj (hsource.symm.trans (hread (by simp)))
  refine ⟨hrun, text, htext, hwritten fun later hlater => ?_⟩
  obtain rfl := List.mem_singleton.mp hlater
  decide

/-- Two files whose names differ in their endings alone. -/
def sameStem : FileTree := .ofPaths [("a.ka", some "x = 1"), ("a.txt", some "y = 2")]

/-- A script is lost where a later file's script has the same name: the run ends well, but the
    script of the first file is not there. -/
theorem run_overwrites :
    ["a.ka", "a.txt"].Pairwise (fun input other => sameStem.place? input ≠ sameStem.place? other) ∧
      (run (.compile ["a.ka", "a.txt"] none) sameStem).result = .ok () ∧
      sameStem.read "a.ka" = some "x = 1" ∧
      ∃ text, compileText "x = 1" (environment "a.ka" sameStem.isFile) = .ok text ∧
        (run (.compile ["a.ka", "a.txt"] none) sameStem).tree.read (target none "a.ka") ≠
          some text := by
  obtain ⟨first, hfirst, hbody⟩ := compile_first (environment "a.ka" sameStem.isFile)
  obtain ⟨second, hsecond, hother⟩ := compile_second (environment "a.txt" sameStem.isFile)
  have hsource : sameStem.read "a.ka" = some "x = 1" := by rfl
  obtain ⟨hrun, hread⟩ := compileFiles_pair hsource (compileText_of_result hfirst) (by rfl) (by rfl)
    (by decide) (by rfl) (compileText_of_result hsecond) (by rfl) (by rfl)
  refine ⟨by decide, hrun, hsource, _, compileText_of_result hfirst, fun hsame => ?_⟩
  have htexts : second.text 4 = first.text 4 := Option.some.inj (hread.symm.trans hsame)
  rw [Script.text, Script.text, hbody, hother, String.append_right_inj] at htexts
  contradiction

end Batch

end KaLang
