import KaLang.Proofs.CommandLine.Batch

/-!
The order of the files in a batch. Where the scripts of the files go to places of their own, and no
file of the batch is at one of these (`Batch.Independent`), what a file compiles to and where that
is written is the same before and after others have been compiled (`draft_compileFiles`). So whether
a batch compiles, and what is in the tree then, is told file by file (`compileFiles_eq_ok_iff`,
`entry?_of_draft`), in whatever order the files are named (`run_permuted`).
-/

namespace KaLang

namespace FileTree

variable {tree other : FileTree} {path name : String}

/-- Whether two paths do not lead to one place. A path that leads nowhere is apart from all. -/
def Apart (tree : FileTree) (path name : String) : Prop :=
  ∀ place, tree.place? path = some place → tree.place? name ≠ some place

theorem Apart.of_ne (hne : tree.place? path ≠ tree.place? name) : tree.Apart path name :=
  fun _ hpath hname => hne (hpath.trans hname.symm)

theorem Apart.symm (hapart : tree.Apart path name) : tree.Apart name path :=
  fun place hname hpath => hapart place hpath hname

/-- Whether two trees have the same directories, and the same at every place. -/
structure Same (tree other : FileTree) : Prop where
  isDirectory : ∀ place, tree.isDirectory place = other.isDirectory place
  entry? : ∀ place, tree.entry? place = other.entry? place

theorem Same.read (hsame : tree.Same other) (path : String) : tree.read path = other.read path := by
  have hentry : (other.place? path).bind tree.entry? = (other.place? path).bind other.entry? :=
    Option.bind_congr fun place _ => hsame.entry? place
  rw [FileTree.read, FileTree.read, place?_congr hsame.isDirectory path, hentry]

end FileTree

namespace Batch

variable {tree written : FileTree} {input text : String} {inputs others before after : List String}
  {output : Option String} {place : Place} {error : BatchError}

/-! ### Runs that stop -/

/-- Compiling files makes no directory and removes none. -/
theorem isDirectory_compileFiles (tree : FileTree) (inputs : List String) (place : Place) :
    (compileFiles none tree inputs).tree.isDirectory place = tree.isDirectory place := by
  refine compileFiles_keeps
    (motive := fun after => after.isDirectory place = tree.isDirectory place) rfl ?_
  intro input _ before text written hbefore hwrite
  exact (FileTree.isDirectory_of_write hwrite place).trans hbefore

/-- A run that stops has compiled the files ahead of one that fails, and nothing else. -/
theorem exists_failure (hstop : (compileFiles output tree inputs).result = .error error) :
    ∃ before input after, inputs = before ++ input :: after ∧
      (compileFiles output tree before).result = .ok () ∧
      compileFile output (compileFiles output tree before).tree input = .error error ∧
      (compileFiles output tree inputs).tree = (compileFiles output tree before).tree := by
  induction inputs generalizing tree with
  | nil => cases hstop
  | cons input inputs ih =>
    rw [compileFiles] at hstop ⊢
    cases hfile : compileFile output tree input with
    | error reason =>
      rw [hfile] at hstop
      cases hstop
      exact ⟨[], input, inputs, rfl, rfl, hfile, rfl⟩
    | ok written =>
      rw [hfile] at hstop
      obtain ⟨before, failing, after, rfl, hbefore, hfailing, htree⟩ := ih hstop
      refine ⟨input :: before, failing, after, rfl, ?_⟩
      rw [compileFiles, hfile]
      exact ⟨hbefore, hfailing, htree⟩

/-- In a run that does not stop every file compiles when the ones ahead of it have been compiled. -/
theorem exists_compileFile_of_ok
    (hrun : (compileFiles output tree (before ++ input :: after)).result = .ok ()) :
    ∃ written, (compileFiles output tree before).result = .ok () ∧
      compileFile output (compileFiles output tree before).tree input = .ok written ∧
      compileFiles output tree (before ++ input :: after) = compileFiles output written after := by
  rw [compileFiles_append] at hrun ⊢
  cases hbefore : (compileFiles output tree before).result with
  | error reason => simp [hbefore] at hrun
  | ok =>
    simp only [hbefore, compileFiles] at hrun ⊢
    cases hfile : compileFile output (compileFiles output tree before).tree input with
    | error reason => simp [hfile] at hrun
    | ok written => exact ⟨written, trivial, rfl, rfl⟩

/-! ### What is written, and where -/

/-- The place to which the script of a file goes, and the script. -/
def draft (tree : FileTree) (input : String) : Except BatchError (Place × String) := do
  match tree.read input with
  | none => throw (.unreadable input)
  | some source =>
    let text ← script source input tree.isFile
    match tree.place? (target none input) with
    | none => throw (.unwritable (target none input))
    | some place =>
      if tree.isDirectory place then throw (.unwritable (target none input))
      else return (place, text)

/-- To compile a file is to put its script where it goes. -/
theorem compileFile_eq_draft (tree : FileTree) (input : String) :
    compileFile none tree input =
      (draft tree input).map fun made =>
        ⟨FileTree.put tree.entries made.1 (.file (some made.2))⟩ := by
  unfold compileFile draft FileTree.write
  cases tree.read input with
  | none => rfl
  | some source =>
    simp only
    cases script source input tree.isFile with
    | error error => rfl
    | ok text =>
      cases tree.place? (target none input) with
      | none => rfl
      | some place => cases hdirectory : tree.isDirectory place <;> simp only [hdirectory] <;> rfl

theorem place?_of_draft (hdraft : draft tree input = .ok (place, text)) :
    tree.place? (target none input) = some place := by
  unfold draft at hdraft
  cases hread : tree.read input with
  | none => simp [hread, throw, throwThe, MonadExceptOf.throw] at hdraft
  | some source =>
    simp only [hread] at hdraft
    obtain ⟨script, hscript, hdraft⟩ := Except.bind_eq_ok_iff.mp hdraft
    cases hplace : tree.place? (target none input) with
    | none => simp [hplace, throw, throwThe, MonadExceptOf.throw] at hdraft
    | some found =>
      simp only [hplace] at hdraft
      split at hdraft
      · cases hdraft
      · cases hdraft
        rfl

/-- What a file compiles to, and where that goes, does not depend on what has been compiled, unless
    a script has been written where the file is. -/
theorem draft_compileFiles (tree : FileTree)
    (hfree : ∀ earlier ∈ inputs, tree.Apart (target none earlier) input) :
    draft (compileFiles none tree inputs).tree input = draft tree input := by
  have hframe := Frame.of_compileFiles tree inputs
  have hdirectory := isDirectory_compileFiles tree inputs
  generalize (compileFiles none tree inputs).tree = written at hframe hdirectory
  have hread : written.read input = tree.read input := by
    cases hplace : tree.place? input with
    | none =>
      rw [FileTree.read, FileTree.read, hframe.place?, hplace, Option.bind_none, Option.bind_none]
    | some place =>
      refine hframe.read input fun earlier hearlier hsame => ?_
      exact hfree earlier hearlier place (hsame.trans hplace) hplace
  have hscript (source : String) :
      script source input written.isFile = script source input tree.isFile := by
    rw [script, script, hframe.compileText]
  simp only [draft, hread, hscript, hframe.place?, hdirectory]

/-- A place to which no script goes holds what it held. -/
theorem entry?_of_free (tree : FileTree)
    (hfree : ∀ input ∈ inputs, tree.place? (target none input) ≠ some place) :
    (compileFiles none tree inputs).tree.entry? place = tree.entry? place := by
  -- Where the script of a later file goes is told in the tree before the run.
  refine And.right (compileFiles_keeps
    (motive := fun after => Frame inputs tree after ∧ after.entry? place = tree.entry? place)
    ⟨.refl inputs tree, rfl⟩ ?_)
  rintro input hinput before text written ⟨hframe, hentry⟩ hwrite
  refine ⟨hframe.write hinput hwrite, ?_⟩
  obtain ⟨found, hfound, -, rfl⟩ := FileTree.write_eq_some_iff.mp hwrite
  have hne : place ≠ found := by
    rintro rfl
    exact hfree input hinput ((hframe.place? _).symm.trans hfound)
  rw [FileTree.entry?_put, if_neg hne, hentry]

/-! ### Independent files -/

/-- Whether the scripts of files go to places of their own, and no file is at one of these. -/
structure Independent (tree : FileTree) (inputs : List String) : Prop where
  targets : inputs.Pairwise fun input other =>
    tree.Apart (target none input) (target none other)
  sources : ∀ input ∈ inputs, ∀ other ∈ inputs, tree.Apart (target none input) other

namespace Independent

theorem of_ne
    (htargets : inputs.Pairwise fun input other =>
      tree.place? (target none input) ≠ tree.place? (target none other))
    (hsources : ∀ input ∈ inputs, ∀ other ∈ inputs,
      tree.place? (target none input) ≠ tree.place? other) : Independent tree inputs where
  targets := htargets.imp .of_ne
  sources input hinput other hother := .of_ne (hsources input hinput other hother)

theorem perm (hindependent : Independent tree inputs) (hperm : others.Perm inputs) :
    Independent tree others where
  targets := (hperm.pairwise_iff fun hapart => hapart.symm).mpr hindependent.targets
  sources input hinput other hother :=
    hindependent.sources input (hperm.subset hinput) other (hperm.subset hother)

/-- Whatever is ahead of a file in the batch, the file compiles to the same. -/
theorem draft_eq (hindependent : Independent tree inputs)
    (hinputs : inputs = before ++ input :: after) :
    draft (compileFiles none tree before).tree input = draft tree input := by
  subst hinputs
  refine draft_compileFiles tree fun earlier hearlier => ?_
  exact hindependent.sources earlier (List.mem_append_left _ hearlier) input (by simp)

/-- A batch compiles if every file of it does so in the tree before the run. -/
theorem compileFiles_eq_ok_iff (hindependent : Independent tree inputs) :
    (compileFiles none tree inputs).result = .ok () ↔
      ∀ input ∈ inputs, ∃ made, draft tree input = .ok made := by
  constructor
  · intro hrun input hinput
    obtain ⟨before, after, hinputs⟩ := List.append_of_mem hinput
    rw [hinputs] at hrun
    obtain ⟨written, -, hfile, -⟩ := exists_compileFile_of_ok hrun
    rw [compileFile_eq_draft, hindependent.draft_eq hinputs] at hfile
    obtain ⟨made, hdraft, -⟩ := Except.map_eq_ok_iff.mp hfile
    exact ⟨made, hdraft⟩
  · intro hdrafts
    cases hrun : (compileFiles none tree inputs).result with
    | ok => rfl
    | error error =>
      obtain ⟨before, input, after, hinputs, -, hfile, -⟩ := exists_failure hrun
      obtain ⟨made, hdraft⟩ := hdrafts input (by simp [hinputs])
      rw [compileFile_eq_draft, hindependent.draft_eq hinputs, hdraft] at hfile
      cases hfile

/-- When the batch has been compiled, the script of each file is where it goes. -/
theorem entry?_of_draft (hindependent : Independent tree inputs)
    (hrun : (compileFiles none tree inputs).result = .ok ()) (hinput : input ∈ inputs)
    (hdraft : draft tree input = .ok (place, text)) :
    (compileFiles none tree inputs).tree.entry? place = some (.file (some text)) := by
  obtain ⟨before, after, hinputs⟩ := List.append_of_mem hinput
  rw [hinputs] at hrun ⊢
  obtain ⟨written, -, hfile, hrest⟩ := exists_compileFile_of_ok hrun
  have hplace := place?_of_draft hdraft
  have hahead := Frame.of_compileFiles tree before
  obtain ⟨source, script, -, -, hwrite⟩ := compileFile_eq_ok_iff.mp hfile
  -- No script of a later file goes where this one has been written.
  have hlater : ∀ later ∈ after, written.place? (target none later) ≠ some place := by
    intro later hlater
    have htargets := hinputs ▸ hindependent.targets
    have hapart := (List.pairwise_cons.mp (List.pairwise_append.mp htargets).2.1).1 later hlater
    rw [FileTree.place?_of_write hwrite, hahead.place?]
    exact hapart place hplace
  rw [compileFile_eq_draft, hindependent.draft_eq hinputs, hdraft] at hfile
  obtain rfl := Except.ok.inj hfile
  rw [hrest, entry?_of_free _ hlater]
  exact (FileTree.entry?_put ..).trans (if_pos rfl)

/-- In whatever order a batch compiles, it leaves the same tree. -/
theorem same_compileFiles (hindependent : Independent tree inputs) (hperm : others.Perm inputs)
    (hrun : (compileFiles none tree inputs).result = .ok ())
    (hother : (compileFiles none tree others).result = .ok ()) :
    (compileFiles none tree others).tree.Same (compileFiles none tree inputs).tree where
  isDirectory place := by rw [isDirectory_compileFiles, isDirectory_compileFiles]
  entry? place := by
    by_cases hplace : ∃ input ∈ inputs, tree.place? (target none input) = some place
    · obtain ⟨input, hinput, hplace⟩ := hplace
      obtain ⟨⟨found, text⟩, hdraft⟩ := hindependent.compileFiles_eq_ok_iff.mp hrun input hinput
      obtain rfl : found = place := Option.some.inj ((place?_of_draft hdraft).symm.trans hplace)
      rw [hindependent.entry?_of_draft hrun hinput hdraft,
        (hindependent.perm hperm).entry?_of_draft hother (hperm.mem_iff.mpr hinput) hdraft]
    · have hfree : ∀ input ∈ inputs, tree.place? (target none input) ≠ some place :=
        fun input hinput hsame => hplace ⟨input, hinput, hsame⟩
      rw [entry?_of_free tree hfree,
        entry?_of_free tree fun input hinput => hfree input (hperm.subset hinput)]

/-- Where a run over the batch stops, the files ahead of a failing one have been compiled and
    nothing else has changed; and alone, in the tree before the run, that file fails in the same
    way. -/
theorem exists_failing (hindependent : Independent tree inputs)
    (hstop : (compileFiles none tree inputs).result = .error error) :
    ∃ before input after, inputs = before ++ input :: after ∧
      (compileFiles none tree before).result = .ok () ∧
      (compileFiles none tree inputs).tree = (compileFiles none tree before).tree ∧
      compileFiles none tree [input] = ⟨.error error, tree, ""⟩ := by
  obtain ⟨before, input, after, hinputs, hbefore, hfile, htree⟩ := exists_failure hstop
  refine ⟨before, input, after, hinputs, hbefore, htree, ?_⟩
  have halone : compileFile none tree input = .error error := by
    rw [compileFile_eq_draft, hindependent.draft_eq hinputs] at hfile
    rw [compileFile_eq_draft]
    exact Except.map_eq_error_iff.mpr (Except.map_eq_error_iff.mp hfile)
  rw [compileFiles, halone]

end Independent

/-! ### Runs in any order -/

/-- The files of an independent batch may be named in any order: it compiles in one order if it does
    so in the other, and then the same tree is left. A run that stops leaves what a run over the
    files ahead of a failing one leaves, and the error is the one of a run over that file alone. -/
theorem run_permuted (hindependent : Independent tree inputs) (hperm : others.Perm inputs) :
    let outcome := run (.compile others none) tree
    (outcome.result = .ok () ↔ (run (.compile inputs none) tree).result = .ok ()) ∧
      (outcome.result = .ok () → outcome.tree.Same (run (.compile inputs none) tree).tree) ∧
      ∀ error, others ≠ [] → outcome.result = .error error →
        ∃ before input after, others = before ++ input :: after ∧
          (before ≠ [] → (run (.compile before none) tree).result = .ok ()) ∧
          outcome.tree = (run (.compile before none) tree).tree ∧
          run (.compile [input] none) tree = ⟨.error error, tree, ""⟩ := by
  intro outcome
  by_cases hnone : inputs = []
  · obtain rfl := hnone
    obtain rfl := hperm.eq_nil
    exact ⟨Iff.rfl, nofun, fun error hsome => absurd rfl hsome⟩
  have hsome : others ≠ [] := by
    rintro rfl
    exact hnone hperm.symm.eq_nil
  have hother := hindependent.perm hperm
  have houtcome : outcome = compileFiles none tree others := run_compile hsome tree
  rw [houtcome, run_compile hnone]
  have hiff : (compileFiles none tree others).result = .ok () ↔
      (compileFiles none tree inputs).result = .ok () := by
    rw [hother.compileFiles_eq_ok_iff, hindependent.compileFiles_eq_ok_iff]
    exact forall_congr' fun input => by rw [hperm.mem_iff]
  refine ⟨hiff, fun hrun => hindependent.same_compileFiles hperm (hiff.mp hrun) hrun, ?_⟩
  intro error _ hstop
  obtain ⟨before, input, after, hothers, hbefore, htree, halone⟩ := hother.exists_failing hstop
  refine ⟨before, input, after, hothers, fun hahead => ?_, ?_, halone⟩
  · rwa [run_compile hahead]
  · rw [htree]
    cases before with
    | nil => rfl
    | cons first more => rw [run_compile (List.cons_ne_nil first more)]

/-- A module may be compiled ahead of the file that imports it or behind it, and a file that is not
    there stops a run also behind one that compiles. -/
theorem run_permuted_importing :
    Independent importing ["main.ka", "m.ka"] ∧ ["m.ka", "main.ka"].Perm ["main.ka", "m.ka"] ∧
      (run (.compile ["m.ka", "main.ka"] none) importing).result = .ok () ∧
      (∀ path, (run (.compile ["m.ka", "main.ka"] none) importing).tree.read path =
        (run (.compile ["main.ka", "m.ka"] none) importing).tree.read path) ∧
      Independent importing ["gone.ka", "m.ka"] ∧ ["m.ka", "gone.ka"].Perm ["gone.ka", "m.ka"] ∧
      ∃ error, (run (.compile ["m.ka", "gone.ka"] none) importing).result = .error error ∧
        ∃ before input after, ["m.ka", "gone.ka"] = before ++ input :: after ∧
          (run (.compile ["m.ka", "gone.ka"] none) importing).tree =
            (run (.compile before none) importing).tree ∧
          run (.compile [input] none) importing = ⟨.error error, importing, ""⟩ := by
  have hboth : Independent importing ["main.ka", "m.ka"] := .of_ne (by decide) (by decide)
  have hgone : Independent importing ["gone.ka", "m.ka"] := .of_ne (by decide) (by decide)
  obtain ⟨main, hmain⟩ := compile_import importing.isFile
  obtain ⟨first, hfirst, -⟩ := compile_first (environment "m.ka" importing.isFile)
  have hrun : (run (.compile ["main.ka", "m.ka"] none) importing).result = .ok () :=
    (compileFiles_pair (by rfl) (compileText_of_result hmain) (by rfl) (by rfl) (by decide) (by rfl)
      (compileText_of_result hfirst) (by rfl) (by rfl)).1
  have hswap : ["m.ka", "main.ka"].Perm ["main.ka", "m.ka"] := .swap _ _ _
  obtain ⟨hiff, hsame, -⟩ := run_permuted hboth hswap
  have hother := hiff.mpr hrun
  have hlast : ["m.ka", "gone.ka"].Perm ["gone.ka", "m.ka"] := .swap _ _ _
  obtain ⟨hstops, -, hfails⟩ := run_permuted hgone hlast
  refine ⟨hboth, hswap, hother, (hsame hother).read, hgone, hlast, ?_⟩
  cases hstop : (run (.compile ["m.ka", "gone.ka"] none) importing).result with
  | ok => cases hstops.mp hstop
  | error error =>
    obtain ⟨before, input, after, hfiles, -, htree, halone⟩ := hfails error (by simp) hstop
    exact ⟨error, rfl, before, input, after, hfiles, htree, halone⟩

end Batch

end KaLang
