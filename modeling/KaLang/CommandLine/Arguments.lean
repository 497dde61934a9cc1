/-!
The arguments of the command line. Words are read from left to right: options of the program, a
subcommand, and the options and files of the subcommand. A word with a value that is still to come,
and a row of files, are pending until something else is read; only then are they checked, so of
two faults the one that is noticed first wins.
-/

namespace KaLang

/-- What the program is asked to do. -/
inductive Command where
  | compile (inputs : List String) (output : Option String)
  | check (inputs : List String) (showTree : Bool)
deriving DecidableEq

/-- The arguments of a run. -/
structure Arguments where
  verbose : Bool
  command : Command
deriving DecidableEq

/-- Why there is no run: the arguments are wrong, or ask for help or the version. -/
inductive UsageError where
  | nothingAsked
  | missingSubcommand
  | invalidSubcommand
  | missingArgument
  | unknownArgument
  | invalidValue
  | tooManyValues
  | argumentConflict
  | displayHelp
  | displayVersion
deriving DecidableEq

namespace Arguments

/-- The subcommands. -/
inductive Subcommand where
  | compile
  | check
  | help
deriving DecidableEq

/-- The subcommand of a name. -/
def subcommand? : String → Option Subcommand
  | "compile" => some .compile
  | "check" => some .check
  | "help" => some .help
  | _ => none

/-- The options, of the program and of its subcommands. -/
inductive Switch where
  | verbose
  | help
  | version
  | output
  | showTree
deriving DecidableEq

namespace Switch

/-- The name of the option behind two dashes. -/
def long : Switch → List Char
  | verbose => "verbose".toList
  | help => "help".toList
  | version => "version".toList
  | output => "output".toList
  | showTree => "print-ast".toList

/-- The letter of the option behind one dash. -/
def short? : Switch → Option Char
  | verbose => some 'v'
  | help => some 'h'
  | version => some 'V'
  | output => some 'o'
  | showTree => none

end Switch

/-- The options in front of a subcommand. -/
def programSwitches : List Switch := [.verbose, .help, .version]

/-- The options behind a subcommand. -/
def Subcommand.switches : Subcommand → List Switch
  | compile => [.verbose, .help, .output]
  | check => [.verbose, .help, .showTree]
  | help => []

/-- How a word is read. -/
inductive Word where
  | escape
  | long (name : List Char) (value : Option (List Char))
  | shorts (letters : List Char)
  | plain (text : String)

/-- A value behind an equals sign. -/
def attached : List Char → Option (List Char)
  | [] => none
  | _ :: value => some value

/-- A word by its dashes. One dash alone is no option. -/
def Word.ofString (text : String) : Word :=
  match text.toList with
  | ['-', '-'] => .escape
  | '-' :: '-' :: name => .long (name.takeWhile (· ≠ '=')) (attached (name.dropWhile (· ≠ '=')))
  | '-' :: letter :: letters => .shorts (letter :: letters)
  | _ => .plain text

/-- What is read but not yet checked: files in a row, or an output whose name may be to come. -/
inductive Pending where
  | nothing
  | inputs (words : List String)
  | output (word : Option String)

/-- What has been read behind a subcommand. -/
structure Draft where
  verbose : Bool := false
  showTree : Bool := false
  output : Option String := none
  inputs : List String := []
  pending : Pending := .nothing

namespace Draft

/-- Set the output, which is named once at most and not by an empty word. -/
def setOutput (draft : Draft) (name : String) : Except UsageError Draft :=
  if draft.output.isSome then .error .argumentConflict
  else if name = "" then .error .invalidValue
  else .ok { draft with output := some name }

/-- Check what is pending. -/
def settle (draft : Draft) : Except UsageError Draft :=
  let settled := { draft with pending := .nothing }
  match draft.pending with
  | .nothing => .ok settled
  | .inputs words =>
    if words.contains "" then .error .invalidValue
    else .ok { settled with inputs := settled.inputs ++ words }
  | .output none => .error .invalidValue
  | .output (some word) => settled.setOutput word

/-- Read a file. -/
def addInput (draft : Draft) (word : String) : Except UsageError Draft :=
  match draft.pending with
  | .inputs words => .ok { draft with pending := .inputs (words ++ [word]) }
  | _ => return { ← draft.settle with pending := .inputs [word] }

/-- Read a word without dashes: the name of an output that is to come, or else a file. -/
def addWord (draft : Draft) (word : String) : Except UsageError Draft :=
  match draft.pending with
  | .output none => .ok { draft with pending := .output (some word) }
  | _ => draft.addInput word

/-- Read an option without a value. -/
def flag (draft : Draft) (switch : Switch) : Except UsageError Draft := do
  let settled ← draft.settle
  match switch with
  | .verbose => if settled.verbose then throw .argumentConflict else
      return { settled with verbose := true }
  | .showTree => if settled.showTree then throw .argumentConflict else
      return { settled with showTree := true }
  | .help => throw .displayHelp
  | .version => throw .displayVersion
  | .output => return { settled with pending := .output none }

/-- Read an option with its value in the same word. -/
def valued (draft : Draft) (value : List Char) : Except UsageError Draft := do
  (← draft.settle).setOutput (String.ofList value)

/-- Read an option by its name. -/
def long (switches : List Switch) (draft : Draft) (name : List Char)
    (value : Option (List Char)) : Except UsageError Draft :=
  match switches.find? fun switch => switch.long = name, value with
  | none, _ => .error .unknownArgument
  | some switch, none => draft.flag switch
  | some .output, some value => draft.valued value
  | some _, some _ => .error .tooManyValues

/-- Read options by their letters. The letters behind one that takes a value are its value, with
    or without an equals sign before them. -/
def shorts (switches : List Switch) (draft : Draft) : List Char → Except UsageError Draft
  | [] => .ok draft
  | letter :: letters =>
    match switches.find? fun switch => switch.short? = some letter, letters with
    | none, _ => .error .unknownArgument
    | some .output, '=' :: value => draft.valued value
    | some .output, char :: value => draft.valued (char :: value)
    | some switch, _ => do shorts switches (← draft.flag switch) letters

/-- Read words that are files, whatever they look like. -/
def addInputs (draft : Draft) : List String → Except UsageError Draft
  | [] => .ok draft
  | word :: words => do addInputs (← draft.addInput word) words

/-- Read the words behind a subcommand. -/
def read (switches : List Switch) (draft : Draft) : List String → Except UsageError Draft
  | [] => draft.settle
  | word :: words =>
    match Word.ofString word with
    | .escape => do (← draft.addInputs words).settle
    | .long name value => do read switches (← draft.long switches name value) words
    | .shorts letters => do read switches (← draft.shorts switches letters) words
    | .plain text => do read switches (← draft.addWord text) words

end Draft

/-- The words behind the word for help name one subcommand at most. -/
def helpOn : List String → UsageError
  | [] => .displayHelp
  | [name] => if (subcommand? name).isSome then .displayHelp else .invalidSubcommand
  | _ => .invalidSubcommand

/-- The arguments that a subcommand and the words behind it make up. -/
def ofSubcommand (verbose : Bool) (subcommand : Subcommand) (words : List String) :
    Except UsageError Arguments := do
  match subcommand with
  | .help => throw (helpOn words)
  | _ =>
    let draft ← ({} : Draft).read subcommand.switches words
    if draft.inputs.isEmpty then throw .missingArgument
    else
      let command :=
        if subcommand = .compile then .compile draft.inputs draft.output
        else .check draft.inputs draft.showTree
      return ⟨verbose || draft.verbose, command⟩

/-- The words end without a subcommand. -/
def withoutSubcommand (verbose : Bool) : UsageError :=
  if verbose then .missingSubcommand else .nothingAsked

/-- Read the words in front of a subcommand, given whether the program was asked to be verbose. -/
def read (verbose : Bool) : List String → Except UsageError Arguments
  | [] => .error (withoutSubcommand verbose)
  | word :: words =>
    match Word.ofString word with
    | .plain text =>
      match subcommand? text with
      | some subcommand => ofSubcommand verbose subcommand words
      | none => .error .invalidSubcommand
    | .escape =>
      match words with
      | [] => .error (withoutSubcommand verbose)
      | name :: _ =>
        .error (if (subcommand? name).isSome then .unknownArgument else .invalidSubcommand)
    | .long name value => do
      let draft ← ({ verbose } : Draft).long programSwitches name value
      read draft.verbose words
    | .shorts letters => do
      let draft ← ({ verbose } : Draft).shorts programSwitches letters
      read draft.verbose words

/-- The arguments that the words of a command line make up, the program's name left out. -/
def ofWords (words : List String) : Except UsageError Arguments := read false words

end Arguments

end KaLang
