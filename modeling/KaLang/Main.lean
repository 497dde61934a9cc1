import KaLang.CommandLine.Batch

/-!
The command line on the files of the machine. Which files a program looks for does not depend on
which there are, so they are asked for first and the program is compiled with the answers.
-/

namespace KaLang.Console

/-- Whether there is a file at a path. -/
def isFile (path : String) : IO Bool := do
  try
    let _ ← IO.FS.readBinFile path
    return true
  catch _ => return false

/-- The text of a file. -/
def read (path : String) : IO (Except BatchError String) := do
  try return .ok (← IO.FS.readFile path)
  catch _ => return .error (.unreadable path)

/-- Compile one file. -/
def compileFile (output : Option String) (input : String) : IO (Except BatchError Unit) := do
  match ← read input with
  | .error error => return .error error
  | .ok source =>
    let asked := (compile source (Batch.environment input fun _ => false)).probes
    let found ← asked.filterM isFile
    match Batch.script source input found.contains with
    | .error error => return .error error
    | .ok text =>
      try
        IO.FS.writeFile (Batch.target output input) text
        return .ok ()
      catch _ => return .error (.unwritable (Batch.target output input))

/-- Check one file. -/
def checkFile (showTree : Bool) (input : String) : IO (Except BatchError Unit) := do
  match ← read input with
  | .error error => return .error error
  | .ok source =>
    match Batch.report showTree source input with
    | .error error => return .error error
    | .ok text =>
      IO.print text
      return .ok ()

/-- Work on files until one fails. -/
def each (work : String → IO (Except BatchError Unit)) : List String → IO (Except BatchError Unit)
  | [] => return .ok ()
  | input :: more => do
    match ← work input with
    | .error error => return .error error
    | .ok () => each work more

/-- Carry out a command. -/
def run (command : Command) : IO (Except BatchError Unit) :=
  match Batch.fault? command, command with
  | some error, _ => return .error error
  | none, .compile inputs output => each (compileFile output) inputs
  | none, .check inputs showTree => each (checkFile showTree) inputs

/-- How the program is used. -/
def usage : String :=
  "Usage: kalang [--verbose] compile [-o OUTPUT] FILES...\n" ++
    "       kalang [--verbose] check [--print-ast] FILES..."

/-- Run the command line: 0 for success, 1 for a run that stops, 2 for wrong arguments. -/
def start (words : List String) : IO UInt32 := do
  match Arguments.ofWords words with
  | .error .displayHelp =>
    IO.println usage
    return 0
  | .error .displayVersion =>
    IO.println "kalang"
    return 0
  | .error _ =>
    IO.eprintln usage
    return 2
  | .ok arguments =>
    match ← run arguments.command with
    | .ok () => return 0
    | .error error =>
      IO.eprintln error.message
      return 1

end KaLang.Console

/-- The program. -/
def main (words : List String) : IO UInt32 :=
  KaLang.Console.start words
