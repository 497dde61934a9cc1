import KaLang.CommandLine.Arguments
import KaLang.CommandLine.FileTree
import KaLang.CommandLine.OutputPath
import KaLang.Compile
import KaLang.Diagnostic
import KaLang.Syntax.Dump

/-!
Runs over files: compiling and checking them one after the other. A run stops at the first file
that fails and keeps what it has written and printed until then.
-/

namespace KaLang

/-- Why a run stops. -/
inductive BatchError where
  | noInput
  | ambiguousOutput
  | unreadable (path : String)
  | unwritable (path : String)
  | rejected (error : CompileError) (diagnostic : String)
deriving DecidableEq

/-- The error in words. -/
def BatchError.message : BatchError → String
  | noInput => "error: no input files"
  | ambiguousOutput => "error: --output can only be used with a single input file"
  | unreadable path => "error: couldn't open " ++ path
  | unwritable path => "error: couldn't write " ++ path
  | rejected _ diagnostic => diagnostic

namespace Batch

/-- The error for a source text that was read from a path. -/
def reject (error : CompileError) (source path : String) : BatchError :=
  .rejected error (Diagnostic.render error.report source path)

/-- Where the program of a file comes from. -/
def environment (path : String) (files : String → Bool) : Environment :=
  ⟨String.ofList (ModulePath.normalize path), some files⟩

/-- The script for a source text that was read from a path. -/
def script (source path : String) (files : String → Bool) : Except BatchError String :=
  match compileText source (environment path files) with
  | .ok text => .ok text
  | .error error => .error (reject error source path)

/-- The file to which the script of a file is written. -/
def target (output : Option String) (input : String) : String :=
  output.getD (withExtension input "js")

/-- What is printed for a source text that was read from a path, if it is a program. -/
def report (showTree : Bool) (source path : String) : Except BatchError String :=
  match Program.ofSource source with
  | .ok program => .ok (if showTree then program.dump ++ "\n" else "")
  | .error error => .error (reject error source path)

/-- Compile one file. -/
def compileFile (output : Option String) (tree : FileTree) (input : String) :
    Except BatchError FileTree := do
  match tree.read input with
  | none => throw (.unreadable input)
  | some source =>
    let text ← script source input tree.isFile
    match tree.write (target output input) text with
    | none => throw (.unwritable (target output input))
    | some written => return written

/-- The outcome of a run: the error that stopped it, the files as it left them, and what it
    printed. -/
structure Outcome where
  result : Except BatchError Unit
  tree : FileTree
  printed : String

/-- Compile files one after the other. -/
def compileFiles (output : Option String) (tree : FileTree) : List String → Outcome
  | [] => ⟨.ok (), tree, ""⟩
  | input :: more =>
    match compileFile output tree input with
    | .error error => ⟨.error error, tree, ""⟩
    | .ok written => compileFiles output written more

/-- Check one file. -/
def checkFile (showTree : Bool) (tree : FileTree) (input : String) : Except BatchError String :=
  match tree.read input with
  | none => .error (.unreadable input)
  | some source => report showTree source input

/-- Check files one after the other. -/
def checkFiles (showTree : Bool) (tree : FileTree) (printed : String) : List String → Outcome
  | [] => ⟨.ok (), tree, printed⟩
  | input :: more =>
    match checkFile showTree tree input with
    | .error error => ⟨.error error, tree, printed⟩
    | .ok text => checkFiles showTree tree (printed ++ text) more

/-- What is wrong with a command whatever the files hold: it names none, or one output for
    several. -/
def fault? : Command → Option BatchError
  | .compile [] _ | .check [] _ => some .noInput
  | .compile (_ :: _ :: _) (some _) => some .ambiguousOutput
  | _ => none

/-- Carry out a command on a tree of files. -/
def run (command : Command) (tree : FileTree) : Outcome :=
  match fault? command, command with
  | some error, _ => ⟨.error error, tree, ""⟩
  | none, .compile inputs output => compileFiles output tree inputs
  | none, .check inputs showTree => checkFiles showTree tree "" inputs

end Batch

end KaLang
